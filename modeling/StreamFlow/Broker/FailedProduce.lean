import StreamFlow.Broker.ReadCommitted
import StreamFlow.Broker.Success

/-!
# A `Produce` that fails

`Append` can fail before it has written the frame of its record, while it writes it,
or afterwards, when it persists the indexes. In the first two cases nothing can be
noticed later: a half-written frame lies above the position of the segment, and the
next append writes over it. In the third case the segment has already been updated in
memory, so the record is there although its producer was told that it is not.

The states are those of a server over any number of processes on one directory, in
which the sections of all calls interleave.
-/

namespace StreamFlow

open BigEndian ByteFile Segment Run

/-- A section of some call, or a restart of the process. -/
inductive LifeStep where
  | act (action : Action)
  | restart

namespace Sys

def live (json : RecordJson) (s : Sys) : LifeStep → Option Sys
  | .act action => s.step json action
  | .restart =>
      match newBroker true s.world.broker.dir with
      | .ok b => some (.init ⟨s.world.fs, b⟩)
      | .error _ => none

/-- A topic is created in a directory of its own. -/
def LiveOwnDirs (s : Sys) : LifeStep → Prop
  | .act action => s.OwnDirs action
  | .restart => True

instance (s : Sys) : ∀ l, Decidable (s.LiveOwnDirs l)
  | .act action => inferInstanceAs (Decidable (s.OwnDirs action))
  | .restart => inferInstanceAs (Decidable True)

variable {json : RecordJson} {s s' : Sys}

theorem represents_live {l : LifeStep} {disk : SlashPath → List (ℤ × Record)}
    (h : s.world.Represents json disk) (hown : s.LiveOwnDirs l)
    (hstep : s.live json l = some s') : ∃ disk', s'.world.Represents json disk' := by
  cases l with
  | restart =>
      obtain rfl := Option.some.inj hstep
      exact ⟨disk, h.restart rfl rfl⟩
  | act action =>
      cases effect_of_step hstep with
      | quiet hfs hdir htopics _ _ =>
          have hrep := h.congr_broker htopics hdir
          rw [← hfs] at hrep
          exact ⟨disk, hrep⟩
      | create fault name hcreated hworld _ =>
          rw [hworld]
          rcases h.createTopic (hown name hcreated) Prod.mk.eta.symm with
            ⟨-, hrep, -⟩ | ⟨topic, -, -, -, -, hrep⟩
          · exact ⟨_, hrep⟩
          · exact ⟨_, hrep⟩
      | produce env r source _ hworld _ =>
          rw [hworld]
          rcases h.produce Prod.mk.eta.symm with
            ⟨-, -, -, hrep, -⟩ | ⟨topic, topic', -, -, -, hrep, -⟩
          · exact ⟨_, hrep⟩
          · exact ⟨_, hrep⟩

/-- What a server has stored, over any restarts and any interleaving of calls. -/
theorem exists_represents {fs : FileTree} {dir : SlashPath} {b : Broker}
    (hb : newBroker true dir = .ok b)
    (hfs : ∀ name, ∀ p ∈ files (b.segmentDir name), fs p = none) {steps : List LifeStep}
    (hrun : exec (Sys.live json) (.init ⟨fs, b⟩) steps = some s)
    (hown : Guarded (Sys.live json) Sys.LiveOwnDirs (.init ⟨fs, b⟩) steps) :
    ∃ disk, s.world.Represents json disk :=
  invariant_of_guarded (fun s : Sys => ∃ disk, s.world.Represents json disk)
    (fun _ _ _ ⟨_, h⟩ hg hstep => represents_live h hg hstep) hrun hown
    ⟨_, .start (by rw [eq_fresh_of_newBroker hb]; rfl) hfs⟩

end Sys

namespace Segment

variable {json : RecordJson} {io : AppendIO} {s : Segment} {record : Record}

theorem append_result_congr (fs fs' : FileTree) :
    (s.append json io fs' record).2.2 = (s.append json io fs record).2.2 := by
  rw [append_result, append_result, writeFrame_snd, writeFrame_snd]

end Segment

namespace World

/-- A `Produce` that gets as far as updating the segment: the broker does not drain, the
topic exists, the record has an encoding that fits, and both parts of the frame are
written. -/
def StoresRecord (json : RecordJson) (env : ProduceEnv) (w : World) (topicName : String)
    (key value : Bytes) (headers : OrdMap String String) : Prop :=
  w.broker.isDrainingLocked env.now = false ∧ ∃ topic ∈ w.broker.topics[topicName]?,
    ∃ payload ∈ json.marshal (newRecord topic env.timestamp key value headers),
      payload.length ≤ 0xFFFFFFFF ∧ 0 ≤ topic.lastSegment.position ∧
        topic.lastSegment.position + 4 + payload.length ≤ maxSize ∧
        env.io.lengthWrite = .done ∧ env.io.payloadWrite = .done

/-- What cannot be told apart by reading, and gives the next record the same offset. -/
structure Invisible (json : RecordJson) (w w' : World) : Prop where
  consume : ∀ name fromOffset max,
    w'.consume json name fromOffset max = w.consume json name fromOffset max
  fetchRaw : ∀ name offset, w'.fetchRaw name offset = w.fetchRaw name offset
  next : ∀ env name key value headers,
    (w'.produce json env name key value headers).2.map Record.offset =
      (w.produce json env name key value headers).2.map Record.offset

variable {json : RecordJson} {w w' : World} {env : ProduceEnv} {name : String}
  {key value : Bytes} {headers : OrdMap String String}

theorem storesRecord_iff :
    w.StoresRecord json env name key value headers ↔
      (w.appended json env name key value headers).isSome := by
  unfold StoresRecord appended
  cases w.broker.isDrainingLocked env.now with
  | true => simp
  | false =>
      cases ht : w.broker.topics[name]? with
      | none => simp
      | some topic =>
          have hframe : (topic.lastSegment.writeFrame json env.io w.fs
              (newRecord topic env.timestamp key value headers)).2.isOk = true ↔ _ :=
            Segment.writeFrame_isOk_iff
          rw [if_neg Bool.false_ne_true]
          dsimp only
          split
          · next hw => exact iff_of_true ⟨rfl, topic, rfl, hframe.mp hw⟩ rfl
          · next hw =>
              refine iff_of_false ?_ (by simp)
              rintro ⟨-, topic', ht', hpayload⟩
              obtain rfl := Option.some.inj ht'
              exact hw (hframe.mpr hpayload)

/-- The result of `Produce` depends on the broker only. -/
theorem produce_snd_congr (hb : w'.broker = w.broker) :
    (w'.produce json env name key value headers).2 =
      (w.produce json env name key value headers).2 := by
  unfold produce
  rw [hb]
  split
  · rfl
  · cases w.broker.topics[name]? with
    | none => rfl
    | some topic =>
        dsimp only
        generalize newRecord topic env.timestamp key value headers = record
        have hres : (topic.lastSegment.append json env.io w'.fs record).2.2 =
            (topic.lastSegment.append json env.io w.fs record).2.2 :=
          Segment.append_result_congr w.fs w'.fs
        generalize topic.lastSegment.append json env.io w.fs record = a at hres ⊢
        generalize topic.lastSegment.append json env.io w'.fs record = a' at hres ⊢
        obtain ⟨fs₁, seg, r⟩ := a
        obtain ⟨fs₁', seg', r'⟩ := a'
        obtain rfl : r' = r := hres
        cases r' with
        | error e => rfl
        | ok offset => rfl

namespace Represents

variable {disk : SlashPath → List (ℤ × Record)}

/-- Two states with the same broker and the same logs cannot be told apart. -/
theorem invisible (h : w.Represents json disk) (h' : w'.Represents json disk)
    (hb : w'.broker = w.broker) : w.Invisible json w' := by
  refine ⟨fun name fromOffset max => ?_, fun name offset => ?_,
    fun env name key value headers => ?_⟩
  · cases ht : w.broker.topics[name]? with
    | none =>
        unfold World.consume
        rw [hb, ht]
    | some topic =>
        obtain ⟨seg, hseg, -, hsound, hread⟩ := h.consume_eq ht fromOffset max
        obtain ⟨seg', hseg', -, hsound', hread'⟩ := h'.consume_eq (hb ▸ ht) fromOffset max
        obtain rfl := List.singleton_inj.mp (hseg.symm.trans hseg')
        rw [hb] at hsound'
        rw [hread, hread']
        exact hsound.readRange_congr hsound'.toStores fromOffset max
  · unfold World.fetchRaw
    rw [hb]
    cases ht : w.broker.topics[name]? with
    | none => rfl
    | some topic =>
        obtain ⟨seg, hseg, -, hsound⟩ := h.topic name topic ht
        obtain ⟨seg', hseg', -, hsound'⟩ := h'.topic name topic (hb ▸ ht)
        obtain rfl := List.singleton_inj.mp (hseg.symm.trans hseg')
        rw [hb] at hsound'
        simp only [hseg, fetchRawLoop]
        cases hpos : seg.offsets[offset]? with
        | none => rfl
        | some pos =>
            obtain ⟨payload, -, ⟨hsize, -⟩, hsize', -⟩ :=
              hsound.exists_payload hsound'.toStores hpos
            dsimp only
            rw [hsize, hsize']
  · rw [produce_snd_congr hb]

/-- A record that is stored although `Produce` fails can be fetched. -/
theorem not_invisible (h : w.Represents json disk)
    (hstores : w.StoresRecord json env name key value headers) :
    ¬ w.Invisible json (w.produce json env name key value headers).1 := by
  intro hinv
  rw [storesRecord_iff] at hstores
  rcases h.produce Prod.mk.eta.symm with ⟨hnone, -⟩ | ⟨topic, topic', ht, -, hb, hrep, -⟩
  · rw [hnone] at hstores
    cases hstores
  · have ht' : (w.produce json env name key value headers).1.broker.topics[name]? =
        some topic' := by
      rw [topics_of_insert hb, if_pos rfl]
    have hdir := segmentDir_of_insert hb
    have hlast := hrep.fetchRaw_eq ht' (i := (disk (w.broker.segmentDir name)).length) (by
      rw [hdir, Function.update_self]
      exact List.getElem?_concat_length)
    obtain ⟨payload, -, -, hext⟩ := hlast
    rw [hinv.fetchRaw] at hext
    obtain ⟨topic₁, ht₁, seg, hseg, pos, hpos⟩ := exists_of_fetchRaw_eq_ok hext
    obtain ⟨i, e, he, hi⟩ := h.exists_of_getElem?_offsets ht₁ hseg hpos
    obtain ⟨hlt, -⟩ := List.getElem?_eq_some_iff.mp he
    omega

/-- A failed `Produce` is invisible exactly when it fails before the record is stored. -/
theorem failed_invisible_iff (h : w.Represents json disk) :
    (∀ e, (w.produce json env name key value headers).2 = .error e →
        w.Invisible json (w.produce json env name key value headers).1) ↔
      (w.StoresRecord json env name key value headers →
        env.io.index = .done ∧ env.io.timeIndex = .done) := by
  constructor
  · intro hall hstores
    by_contra hio
    rcases produce_result json env w name key value headers with
      ⟨record, offset, -, hindex, htime, -⟩ | ⟨⟨e, he⟩, -⟩
    · exact hio ⟨hindex, htime⟩
    · exact h.not_invisible hstores (hall e he)
  · intro hcond e he
    rcases h.produce Prod.mk.eta.symm with
      ⟨-, -, hb, hrep, -⟩ | ⟨topic, topic', -, happ, -, -, hres, -⟩
    · exact h.invisible hrep hb
    · have hio := hcond (storesRecord_iff.mpr (by rw [happ]; rfl))
      rcases hres with ⟨hok, -⟩ | ⟨-, -, hfail⟩
      · rw [hok] at he
        cases he
      · exact absurd hio hfail

end Represents

end World

/-- When a failed `Produce` is invisible. In every state that a server reaches, over any
restarts and any interleaving of calls that create their topics in directories of their
own, and for every call of `Produce` with any outcome of its file operations: if the call
fails, `Consume` and `FetchRaw` return the same as before and the next record gets the
same offset, if and only if a call that stores its record also writes both index files. -/
theorem failed_produce_iff (json : RecordJson) (fs : FileTree) (dir : SlashPath) {b : Broker}
    (hb : newBroker true dir = .ok b)
    (hfs : ∀ name, ∀ p ∈ files (b.segmentDir name), fs p = none) {steps : List LifeStep} {s : Sys}
    (hrun : exec (Sys.live json) (.init ⟨fs, b⟩) steps = some s)
    (hown : Guarded (Sys.live json) Sys.LiveOwnDirs (.init ⟨fs, b⟩) steps)
    (env : ProduceEnv) (name : String) (key value : Bytes) (headers : OrdMap String String) :
    (∀ e, (s.world.produce json env name key value headers).2 = .error e →
        s.world.Invisible json (s.world.produce json env name key value headers).1) ↔
      (s.world.StoresRecord json env name key value headers →
        env.io.index = .done ∧ env.io.timeIndex = .done) := by
  obtain ⟨disk, hrep⟩ := Sys.exists_represents hb hfs hrun hown
  exact hrep.failed_invisible_iff

/-- The sample call with given outcomes of its file operations. -/
def LifeStep.sampleProduce (io : AppendIO) : LifeStep :=
  .act (.produce ⟨0, 0, io⟩ "t" (asciiBytes "k") (asciiBytes "v") ∅)

/-- A record, a restart, and an append that fails in the middle of the payload. -/
theorem failed_produce_sample :
    ∃ s, exec (Sys.live sampleJson) (.init ⟨fun _ => none, .fresh ⟨true, ["d"]⟩⟩)
        [.act (.createTopic none "t"), .sampleProduce .ok, .restart,
          .act (.createTopic none "t")] = some s ∧
      s.world.Invisible sampleJson (s.world.produce sampleJson
        ⟨0, 0, { AppendIO.ok with payloadWrite := .failed 3 }⟩ "t" (asciiBytes "k")
        (asciiBytes "v") ∅).1 := by
  obtain ⟨s, hrun, hfail⟩ : ∃ s, exec (Sys.live sampleJson)
        (.init ⟨fun _ => none, .fresh ⟨true, ["d"]⟩⟩)
        [.act (.createTopic none "t"), .sampleProduce .ok, .restart,
          .act (.createTopic none "t")] = some s ∧
      (s.world.produce sampleJson ⟨0, 0, { AppendIO.ok with payloadWrite := .failed 3 }⟩ "t"
        (asciiBytes "k") (asciiBytes "v") ∅).2 = .error .writePayload :=
    exists_exec_of_any (by decide +kernel)
  refine ⟨s, hrun, (failed_produce_iff sampleJson (fun _ => none) ⟨true, ["d"]⟩ rfl
    (fun _ _ _ => rfl) hrun (by decide +kernel) _ "t" _ _ ∅).mpr ?_ _ hfail⟩
  intro _
  exact ⟨rfl, rfl⟩

/-- An append whose index file cannot be written fails, but its record is there and the
next one gets offset 1. -/
theorem not_invisible_index :
    ∃ s, exec (Sys.live sampleJson) (.init ⟨fun _ => none, .fresh ⟨true, ["d"]⟩⟩)
        [.act (.createTopic none "t")] = some s ∧
      ∃ w, s.world.produce sampleJson ⟨0, 0, { AppendIO.ok with index := .notOpened }⟩ "t"
          (asciiBytes "k") (asciiBytes "v") ∅ = (w, .error .persistIndex) ∧
        s.world.consume sampleJson "t" 0 10 = .ok [] ∧
        w.consume sampleJson "t" 0 10 = .ok [sampleRecord 0] ∧
        (s.world.produce sampleJson ⟨0, 0, .ok⟩ "t" (asciiBytes "k") (asciiBytes "v") ∅).2.map
          Record.offset = .ok 0 ∧
        (w.produce sampleJson ⟨0, 0, .ok⟩ "t" (asciiBytes "k") (asciiBytes "v") ∅).2.map
          Record.offset = .ok 1 ∧
        ¬ s.world.Invisible sampleJson w := by
  obtain ⟨s, hrun, hfail, hbefore, hafter, hnext, hnext'⟩ : ∃ s, exec (Sys.live sampleJson)
        (.init ⟨fun _ => none, .fresh ⟨true, ["d"]⟩⟩) [.act (.createTopic none "t")] = some s ∧
      (s.world.produce sampleJson ⟨0, 0, { AppendIO.ok with index := .notOpened }⟩ "t"
          (asciiBytes "k") (asciiBytes "v") ∅).2 = .error .persistIndex ∧
      s.world.consume sampleJson "t" 0 10 = .ok [] ∧
      (s.world.produce sampleJson ⟨0, 0, { AppendIO.ok with index := .notOpened }⟩ "t"
          (asciiBytes "k") (asciiBytes "v") ∅).1.consume sampleJson "t" 0 10 =
            .ok [sampleRecord 0] ∧
      (s.world.produce sampleJson ⟨0, 0, .ok⟩ "t" (asciiBytes "k") (asciiBytes "v") ∅).2.map
          Record.offset = .ok 0 ∧
      ((s.world.produce sampleJson ⟨0, 0, { AppendIO.ok with index := .notOpened }⟩ "t"
          (asciiBytes "k") (asciiBytes "v") ∅).1.produce sampleJson ⟨0, 0, .ok⟩ "t"
            (asciiBytes "k") (asciiBytes "v") ∅).2.map Record.offset = .ok 1 :=
    exists_exec_of_any (by decide +kernel)
  refine ⟨s, hrun, _, Prod.ext rfl hfail, hbefore, hafter, hnext, hnext', fun hinv => ?_⟩
  rw [hinv.consume, hbefore] at hafter
  cases hafter

end StreamFlow
