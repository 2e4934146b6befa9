import StreamFlow.Broker.Placement
import StreamFlow.Broker.Restart
import StreamFlow.Foundation.PathWalk

/-!
# The directories of topics

`CreateTopic` joins the name of a topic to the broker's directory without looking at
it. Names that differ in their slashes and dots alone share a directory, and a name may
lead out of the broker's directory. Two topics that share a directory write to one log
at positions of their own. Topics with different directories do not see each other,
because all an append writes are the files of its segment.
-/

namespace StreamFlow

open BigEndian ByteFile Segment Run SlashPath

theorem plain_segment : SlashPath.Plain "000000" := by decide

namespace World

/-- Every topic lies in the directory of its name. -/
def Placed (w : World) : Prop :=
  ∀ (name : String) (t : Topic), w.broker.topics[name]? = some t →
    t.InDir (w.broker.segmentDir name)

variable {json : RecordJson} {w w' : World}

theorem Placed.insert (h : w.Placed) (fs : FileTree) {name : String} {t : Topic}
    (ht : t.InDir (w.broker.segmentDir name)) :
    Placed ⟨fs, { w.broker with topics := w.broker.topics.insert name t }⟩ := by
  intro name' t' ht'
  rcases OrdMap.getElem?_insert_cases ht' with ⟨rfl, rfl⟩ | ⟨-, ht'⟩
  · exact ht
  · exact h name' t' ht'

/-- What `Produce` may change: its topic, and the files in the directory of its topic. -/
theorem Placed.produce (h : w.Placed) (env : ProduceEnv) (name : String) (key value : Bytes)
    (headers : OrdMap String String) :
    (w.produce json env name key value headers).1.Placed ∧
      FileTree.EqOff (files (w.broker.segmentDir name)) w.fs
        (w.produce json env name key value headers).1.fs := by
  cases ht : w.broker.topics[name]? with
  | none =>
      rw [produce_of_none ht]
      exact ⟨h, .refl _ _⟩
  | some t =>
      obtain ⟨hfiles, t', hplace, hb⟩ := produce_own ht (h name t ht) json env key value headers
      refine ⟨?_, hfiles⟩
      have hplaced := h.insert (w.produce json env name key value headers).1.fs hplace
      rw [← hb] at hplaced
      exact hplaced

theorem Placed.createTopic (h : w.Placed) (fault : Option CreateFault) (name : String) :
    (w.createTopic fault name).1.Placed := by
  rcases hc : w.createTopic fault name with ⟨w', res⟩
  cases createTopic_cases hc with
  | known => exact h
  | noDir => exact h
  | noSegment => exact h
  | @opened fs' seg topic _ hnew hsegs =>
      refine h.insert fs' ⟨seg, hsegs, ?_⟩
      rw [(newSegment_cases hnew).2 seg rfl]
      exact ⟨opened_inDir _ _ _, rfl⟩

theorem Placed.serve (h : w.Placed) {op : ServerOp} (hstep : w.serve json op = some w') :
    w'.Placed := by
  cases op with
  | createTopic fault name =>
      obtain rfl := Option.some.inj hstep
      exact h.createTopic fault name
  | produce env name key value headers =>
      obtain rfl := Option.some.inj hstep
      exact (h.produce env name key value headers).1
  | restart =>
      obtain rfl := Option.some.inj hstep
      intro name t ht
      cases ht

theorem segmentDir_serve {op : ServerOp} (hstep : w.serve json op = some w') :
    w'.broker.segmentDir = w.broker.segmentDir := by
  cases op with
  | createTopic fault name =>
      obtain rfl := Option.some.inj hstep
      exact segmentDir_createTopic fault w name
  | produce env name key value headers =>
      obtain rfl := Option.some.inj hstep
      rcases produce_broker json env w name key value headers with hb | ⟨-, topic, -, hb⟩
      · rw [hb]
      · rw [hb]
        rfl
  | restart =>
      obtain rfl := Option.some.inj hstep
      rfl

/-- A topic does not see what is produced to another one in another directory. -/
theorem Placed.consume_produce (h : w.Placed) {name other : String}
    (hdirs : w.broker.segmentDir name ≠ w.broker.segmentDir other)
    (env : ProduceEnv) (key value : Bytes) (headers : OrdMap String String) (fromOffset max : ℤ) :
    (w.produce json env name key value headers).1.consume json other fromOffset max =
      w.consume json other fromOffset max := by
  have hne : name ≠ other := by
    rintro rfl
    exact hdirs rfl
  refine consume_congr ?_ (fun t ht s hs => ?_) fromOffset max
  · rcases produce_broker json env w name key value headers with hb | ⟨-, topic, -, hb⟩
    · rw [hb]
    · rw [hb]
      exact OrdMap.getElem?_insert_of_ne _ _ hne
  · exact log_eq_of_inDir (h other t ht)
      (.of_eqOff (h.produce env name key value headers).2 (Ne.symm hdirs)) s hs

end World

/-- The storage of two topics is separate and confined to the broker's directory, and no
`Produce` to one of them, in any state of a server, changes what `Consume` returns for
the other. -/
structure SeparateTopics (json : RecordJson) (dir : SlashPath) (a b : String) : Prop where
  distinct : (Broker.fresh dir).segmentDir a ≠ (Broker.fresh dir).segmentDir b
  below_left : dir.Below ((Broker.fresh dir).segmentDir a)
  below_right : dir.Below ((Broker.fresh dir).segmentDir b)
  isolated : ∀ fs ops w, exec (World.serve json) ⟨fs, .fresh dir⟩ ops = some w →
    ∀ env key value headers fromOffset max,
      (w.produce json env a key value headers).1.consume json b fromOffset max =
        w.consume json b fromOffset max ∧
      (w.produce json env b key value headers).1.consume json a fromOffset max =
        w.consume json a fromOffset max

/-- Two names have separate storage exactly if both lead to a path inside the broker's
directory, and not to the same one. -/
theorem separateTopics_iff (json : RecordJson) (dir : SlashPath) (a b : String) :
    SeparateTopics json dir a b ↔
      dir.Inside (walk a) ∧ dir.Inside (walk b) ∧ dir.beneath (walk a) ≠ dir.beneath (walk b) := by
  have hsame : dir.Inside (walk a) → dir.Inside (walk b) →
      ((Broker.fresh dir).segmentDir a = (Broker.fresh dir).segmentDir b ↔
        dir.beneath (walk a) = dir.beneath (walk b)) := by
    intro ha hb
    rw [Broker.segmentDir, Broker.segmentDir, Broker.fresh,
      join_eq_join_iff plain_segment plain_segment, join_eq_descend, join_eq_descend,
      ha.descend_eq, hb.descend_eq]
    constructor
    · exact fun h => dir.descend_injective h.1
    · intro h
      exact ⟨by rw [h], rfl⟩
  constructor
  · rintro ⟨hdistinct, ha, hb, -⟩
    have ha' := (below_join_iff dir a plain_segment).mp ha
    have hb' := (below_join_iff dir b plain_segment).mp hb
    exact ⟨ha', hb', fun heq => hdistinct ((hsame ha' hb').mpr heq)⟩
  · rintro ⟨ha, hb, hne⟩
    have hdistinct : (Broker.fresh dir).segmentDir a ≠ (Broker.fresh dir).segmentDir b :=
      fun heq => hne ((hsame ha hb).mp heq)
    refine ⟨hdistinct, (below_join_iff dir a plain_segment).mpr ha,
      (below_join_iff dir b plain_segment).mpr hb, ?_⟩
    intro fs ops w hrun env key value headers fromOffset max
    have hplaced : w.Placed := by
      refine invariant World.Placed (fun w op w' h hstep => h.serve hstep) hrun ?_
      intro name t ht
      cases ht
    have hdir : w.broker.segmentDir = (Broker.fresh dir).segmentDir :=
      invariant (fun w => w.broker.segmentDir = (Broker.fresh dir).segmentDir)
        (fun w op w' h hstep => (World.segmentDir_serve hstep).trans h) hrun rfl
    rw [← hdir] at hdistinct
    exact ⟨hplaced.consume_produce hdistinct env key value headers fromOffset max,
      hplaced.consume_produce (Ne.symm hdistinct) env key value headers fromOffset max⟩

theorem separateTopics_sample : SeparateTopics sampleJson ⟨true, ["d"]⟩ "a" "../d/b/." :=
  (separateTopics_iff sampleJson ⟨true, ["d"]⟩ "a" "../d/b/.").mpr (by decide +kernel)

/-- A record to one of two topics. -/
def ServerOp.produceSampleAt (name : String) : ServerOp :=
  .produce ⟨0, 0, .ok⟩ name (asciiBytes "k") (asciiBytes "v") ∅

/-- The topics `a` and `a/` share a directory: the second record of `a` is written over
the record of `a/` at the same position. -/
theorem not_separateTopics_slash :
    (Broker.fresh ⟨true, ["d"]⟩).segmentDir "a" = (Broker.fresh ⟨true, ["d"]⟩).segmentDir "a/" ∧
      (∃ w, exec (World.serve sampleJson) ⟨fun _ => none, .fresh ⟨true, ["d"]⟩⟩
          [.createTopic none "a", .produceSampleAt "a", .createTopic none "a/",
            .produceSampleAt "a/"] = some w ∧
        w.consume sampleJson "a/" 0 10 = .ok [sampleRecord 0, sampleRecord 0] ∧
        (w.produce sampleJson ⟨0, 0, .ok⟩ "a" (asciiBytes "k") (asciiBytes "v") ∅).1.consume
          sampleJson "a/" 0 10 = .ok [sampleRecord 0, sampleRecord 1]) ∧
      ¬ SeparateTopics sampleJson ⟨true, ["d"]⟩ "a" "a/" := by
  refine ⟨by decide +kernel, exists_exec_of_any (by decide +kernel), fun hsep => ?_⟩
  exact hsep.distinct (by decide +kernel)

end StreamFlow
