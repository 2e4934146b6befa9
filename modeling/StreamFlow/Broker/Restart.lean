import StreamFlow.Broker.Represents
import StreamFlow.Broker.Sample
import StreamFlow.Foundation.Run

/-!
# Restarts

A server process creates topics and produces records, and may be stopped and
started again on the same directory. Two counters number the records of a topic:
`Topic.NextOffset`, which goes into the record, and the counter of the segment,
under which the index finds it. `CreateTopic` reloads the second but not the
first. `offsetsMatch_iff` shows that the offset fields are right in every state of a
run exactly when each `Produce` that stores a record finds the two counters equal.

`NewBroker` itself reloads nothing, so readers find no topics after a restart until
somebody creates them again; `transparent_iff` and `consume_reload` tell the two
halves of this.
-/

namespace StreamFlow

open BigEndian ByteFile Segment Run

/-- A call on the broker, or a restart of the process between two calls. -/
inductive ServerOp where
  | createTopic (fault : Option CreateFault) (name : String)
  | produce (env : ProduceEnv) (topicName : String) (key value : Bytes)
      (headers : OrdMap String String)
  | restart

namespace World

def serve (json : RecordJson) (w : World) : ServerOp → Option World
  | .createTopic fault name => some (w.createTopic fault name).1
  | .produce env topicName key value headers =>
      some (w.produce json env topicName key value headers).1
  | .restart =>
      match newBroker true w.broker.dir with
      | .ok b => some ⟨w.fs, b⟩
      | .error _ => none

/-- A topic is created in a directory of its own. -/
def OwnDirs (w : World) : ServerOp → Prop
  | .createTopic _ name => w.OwnDir name
  | _ => True

instance (w : World) : ∀ op, Decidable (w.OwnDirs op)
  | .createTopic _ name => inferInstanceAs (Decidable (w.OwnDir name))
  | .produce .. | .restart => inferInstanceAs (Decidable True)

/-- A `Produce` that stores its record finds the two counters of the topic
equal. -/
def CountersAgree (json : RecordJson) (w : World) : ServerOp → Prop
  | .produce env topicName key value headers =>
      ∀ topic ∈ w.broker.topics[topicName]?,
        (w.appended json env topicName key value headers).isSome →
          topic.nextOffset = topic.lastSegment.nextOffset
  | _ => True

instance (json : RecordJson) (w : World) : ∀ op, Decidable (w.CountersAgree json op)
  | .createTopic .. | .restart => inferInstanceAs (Decidable True)
  | .produce _ topicName _ _ _ =>
      inferInstanceAs (Decidable (∀ topic ∈ w.broker.topics[topicName]?, _))

/-- Every record is found under its own offset: `Consume` returns records whose
offset fields are the index entries it went through, in increasing order, and the
payload `FetchRaw` points to has the requested offset. -/
structure OffsetsMatch (json : RecordJson) (w : World) : Prop where
  consume : ∀ name topic fromOffset max recs, w.broker.topics[name]? = some topic →
    w.consume json name fromOffset max = .ok recs →
    recs.map Record.offset =
      (topic.lastSegment.rangeKeys fromOffset).take (effectiveMax max).toNat
  increasing : ∀ name fromOffset max recs, w.consume json name fromOffset max = .ok recs →
    (recs.map Record.offset).Pairwise (· < ·)
  fetchRaw : ∀ name offset path pos length payload r,
    w.fetchRaw name offset = .ok (path, pos, length) →
    slice (w.fs.contents path) pos length.toNat = some payload →
    json.unmarshal payload = some r → r.offset = offset

namespace Represents

variable {json : RecordJson} {w : World} {disk : SlashPath → List (ℤ × Record)}

/-- The offsets of the records `Consume` returns. -/
theorem consume_offsets (h : w.Represents json disk) (hjson : json.KeepsOffset) {name : String}
    {topic : Topic} (ht : w.broker.topics[name]? = some topic) (fromOffset max : ℤ) :
    ∃ recs, w.consume json name fromOffset max = .ok recs ∧
      recs.map Record.offset =
        ((((disk (w.broker.segmentDir name)).map Prod.snd).map Record.offset).drop
          fromOffset.toNat).take (effectiveMax max).toNat := by
  obtain ⟨f, hf, hoffset⟩ := hjson
  obtain ⟨seg, -, -, hsound, hread⟩ := h.consume_eq ht fromOffset max
  refine ⟨_, hread.trans (hsound.readRange_eq hf fromOffset max), ?_⟩
  have hcomp : Record.offset ∘ f = Record.offset := funext hoffset
  rw [List.map_take, List.map_drop, List.map_map, hcomp, sub_zero]

/-- The index entries `Consume` goes through. -/
theorem rangeKeys_eq (h : w.Represents json disk) {name : String} {topic : Topic}
    (ht : w.broker.topics[name]? = some topic) (fromOffset : ℤ) :
    topic.lastSegment.rangeKeys fromOffset =
      ((List.range (disk (w.broker.segmentDir name)).length).map fun i : ℕ => (i : ℤ)).drop
        fromOffset.toNat := by
  obtain ⟨seg, hseg, -, hsound⟩ := h.topic name topic ht
  rw [Topic.lastSegment_of_segments hseg, hsound.rangeKeys_eq, map_fst_entries, sub_zero]
  simp only [zero_add]

/-- Records that all carry their place are found under their offsets. -/
theorem offsetsMatch (h : w.Represents json disk) (hjson : json.KeepsOffset)
    (hnum : ∀ path, Numbered ((disk path).map Prod.snd)) : w.OffsetsMatch json := by
  have hconsume : ∀ name topic fromOffset max recs, w.broker.topics[name]? = some topic →
      w.consume json name fromOffset max = .ok recs →
      recs.map Record.offset =
        (topic.lastSegment.rangeKeys fromOffset).take (effectiveMax max).toNat := by
    intro name topic fromOffset max recs ht hrecs
    obtain ⟨recs', hrecs', hoffsets⟩ := h.consume_offsets hjson ht fromOffset max
    obtain rfl := Except.ok.inj (hrecs'.symm.trans hrecs)
    rw [hoffsets, h.rangeKeys_eq ht, (hnum _).map_offset, List.length_map]
  refine ⟨hconsume, ?_, ?_⟩
  · intro name fromOffset max recs hrecs
    cases ht : w.broker.topics[name]? with
    | none =>
        rw [World.consume, ht] at hrecs
        cases hrecs
    | some topic =>
        rw [hconsume name topic fromOffset max recs ht hrecs, h.rangeKeys_eq ht]
        have hsorted : ((List.range (disk (w.broker.segmentDir name)).length).map
            fun i : ℕ => (i : ℤ)).Pairwise (· < ·) := by
          rw [List.pairwise_map]
          exact List.pairwise_lt_range.imp fun hlt => by omega
        exact hsorted.sublist ((List.take_sublist _ _).trans (List.drop_sublist _ _))
  · intro name offset path pos length payload r hfetch hpayload hr
    obtain ⟨topic, ht, seg, hseg, p, hp⟩ := exists_of_fetchRaw_eq_ok hfetch
    obtain ⟨i, e, he, rfl⟩ := h.exists_of_getElem?_offsets ht hseg hp
    obtain ⟨text, hm, hbody, hext⟩ := h.fetchRaw_eq ht he
    obtain ⟨rfl, hrest⟩ := Prod.mk.inj (Except.ok.inj (hext.symm.trans hfetch))
    obtain ⟨rfl, rfl⟩ := Prod.mk.inj hrest
    rw [Int.toNat_natCast, hbody] at hpayload
    obtain rfl := Option.some.inj hpayload
    obtain ⟨f, hf, hoffset⟩ := hjson
    rw [hf e.2 text hm] at hr
    obtain rfl := Option.some.inj hr
    rw [hoffset, hnum (w.broker.segmentDir name) i e.2 (by rw [List.getElem?_map, he]; rfl)]

end Represents

end World

namespace World

variable {json : RecordJson} {w w' : World} {disk : SlashPath → List (ℤ × Record)}
  {op : ServerOp}

/-- What a step does to the logs: it may shorten them when it reopens a directory,
and a `Produce` adds a record with the topic's counter as its offset. -/
theorem Represents.serve (h : w.Represents json disk) (hown : w.OwnDirs op)
    (hstep : w.serve json op = some w') :
    ∃ disk', w'.Represents json disk' ∧
      ((∀ path, ∃ k, disk' path = (disk path).take k) ∨
        ∃ env name key value headers topic pos,
          op = .produce env name key value headers ∧ w.broker.topics[name]? = some topic ∧
          (w.appended json env name key value headers).isSome ∧
          disk' = Function.update disk (w.broker.segmentDir name)
            (disk (w.broker.segmentDir name) ++
              [(pos, newRecord topic env.timestamp key value headers)])) := by
  have hsame : ∀ path, ∃ k, disk path = (disk path).take k :=
    fun path => ⟨(disk path).length, (List.take_length).symm⟩
  cases op with
  | createTopic fault name =>
      obtain rfl := Option.some.inj hstep
      rcases h.createTopic hown Prod.mk.eta.symm with ⟨-, hrep, -⟩ | ⟨topic, -, -, -, -, hrep⟩
      · exact ⟨disk, hrep, Or.inl hsame⟩
      · refine ⟨_, hrep, Or.inl fun path => ?_⟩
        by_cases hpath : path = w.broker.segmentDir name
        · exact ⟨_, by rw [hpath, Function.update_self]⟩
        · rw [Function.update_of_ne hpath]
          exact hsame path
  | produce env name key value headers =>
      obtain rfl := Option.some.inj hstep
      rcases h.produce Prod.mk.eta.symm with ⟨-, -, -, hrep, -⟩ | ⟨topic, -, ht, happ, -, hrep, -⟩
      · exact ⟨disk, hrep, Or.inl hsame⟩
      · exact ⟨_, hrep, Or.inr ⟨env, name, key, value, headers, topic, _, rfl, ht,
          by rw [happ]; rfl, rfl⟩⟩
  | restart =>
      obtain rfl := Option.some.inj hstep
      exact ⟨disk, h.restart rfl rfl, Or.inl hsame⟩

/-- All records on the disk carry their place. -/
def DiskNumbered (json : RecordJson) (w : World) : Prop :=
  ∃ disk, w.Represents json disk ∧ ∀ path, Numbered ((disk path).map Prod.snd)

/-- The counter of the segment counts the log. -/
theorem Represents.nextOffset_lastSegment (h : w.Represents json disk) {name : String}
    {topic : Topic} (ht : w.broker.topics[name]? = some topic) :
    topic.lastSegment.nextOffset = (disk (w.broker.segmentDir name)).length := by
  obtain ⟨seg, hseg, -, hsound⟩ := h.topic name topic ht
  rw [Topic.lastSegment_of_segments hseg, hsound.next, zero_add]

theorem DiskNumbered.serve (h : w.DiskNumbered json) (hown : w.OwnDirs op)
    (hagree : w.CountersAgree json op) (hstep : w.serve json op = some w') :
    w'.DiskNumbered json := by
  obtain ⟨disk, hrep, hnum⟩ := h
  obtain ⟨disk', hrep', hcase⟩ := hrep.serve hown hstep
  refine ⟨disk', hrep', fun path => ?_⟩
  rcases hcase with htake | ⟨env, name, key, value, headers, topic, pos, rfl, ht, happ, rfl⟩
  · obtain ⟨k, hk⟩ := htake path
    rw [hk, List.map_take]
    exact (hnum path).take k
  · by_cases hpath : path = w.broker.segmentDir name
    · rw [hpath, Function.update_self, List.map_append]
      refine (hnum _).append_singleton ?_
      rw [List.length_map, ← hrep.nextOffset_lastSegment ht]
      exact hagree topic ht happ
    · rw [Function.update_of_ne hpath]
      exact hnum path

/-- A record stored under a wrong offset shows at once. -/
theorem Represents.countersAgree (h : w.Represents json disk) (hjson : json.KeepsOffset)
    (hstep : w.serve json op = some w') (hmatch : w'.OffsetsMatch json) :
    w.CountersAgree json op := by
  cases op with
  | createTopic fault name => trivial
  | restart => trivial
  | produce env name key value headers =>
      intro topic ht happ
      obtain rfl := Option.some.inj hstep
      rcases h.produce Prod.mk.eta.symm with
        ⟨hnone, -⟩ | ⟨topic₁, topic', ht₁, -, hb, hrep, -⟩
      · rw [hnone] at happ
        cases happ
      · obtain rfl := Option.some.inj (ht.symm.trans ht₁)
        have ht' : (w.produce json env name key value headers).1.broker.topics[name]? =
            some topic' := by
          rw [topics_of_insert hb, if_pos rfl]
        have hdir := segmentDir_of_insert hb
        rw [h.nextOffset_lastSegment ht]
        generalize hlog : disk (w.broker.segmentDir name) = log at hrep
        obtain ⟨recs, hrecs, hoffsets⟩ := hrep.consume_offsets hjson ht' log.length 1
        have hkeys := hmatch.consume name topic' log.length 1 recs ht' hrecs
        rw [hrep.rangeKeys_eq ht', hoffsets, hdir, Function.update_self, Int.toNat_natCast,
          List.map_append, List.map_append, List.drop_left' (by simp), List.length_append,
          List.length_singleton, List.range_succ, List.map_append, List.drop_left' (by simp)]
          at hkeys
        exact List.head_eq_of_cons_eq hkeys

end World

/-- Offsets survive restarts exactly as long as the counters agree. For every run of
`CreateTopic` calls (each topic in a directory of its own), of `Produce` calls, with
any outcome of their file operations, and of restarts: all offset fields are right
in every state of the run if and only if each `Produce` that stores a record finds
`Topic.NextOffset` equal to the counter of its segment. -/
theorem offsetsMatch_iff (json : RecordJson) (hjson : json.KeepsOffset) (fs : FileTree)
    (dir : SlashPath) {b : Broker} (hb : newBroker true dir = .ok b)
    (hfs : ∀ name, ∀ p ∈ files (b.segmentDir name), fs p = none)
    {ops : List ServerOp} {w : World} (hrun : exec (World.serve json) ⟨fs, b⟩ ops = some w)
    (hown : Guarded (World.serve json) World.OwnDirs ⟨fs, b⟩ ops) :
    (∀ ops' w', ops' <+: ops → exec (World.serve json) ⟨fs, b⟩ ops' = some w' →
        w'.OffsetsMatch json) ↔
      Guarded (World.serve json) (World.CountersAgree json) ⟨fs, b⟩ ops := by
  have hstart : World.Represents json ⟨fs, b⟩ fun _ => [] :=
    .start (by rw [eq_fresh_of_newBroker hb]; rfl) hfs
  constructor
  · intro hall
    refine guarded_of_forall_prefix (fun w => ∃ disk, w.Represents json disk) ?_ ?_ hrun hown
      ⟨_, hstart⟩ hall
    · rintro w op w' ⟨disk, h⟩ hop hstep
      obtain ⟨disk', h', -⟩ := h.serve hop hstep
      exact ⟨disk', h'⟩
    · rintro w op w' ⟨disk, h⟩ - hstep hmatch
      exact h.countersAgree hjson hstep hmatch
  · rintro hagree ops' w' ⟨rest, rfl⟩ hrun'
    obtain ⟨disk, hrep, hnum⟩ := invariant_of_guarded (fun w => w.DiskNumbered json)
      (fun w op w' h hop hstep => h.serve hop.1 hop.2 hstep) hrun'
      (guarded_and (guarded_of_append hown) (guarded_of_append hagree))
      ⟨_, hstart, fun _ i r hr => by simp at hr⟩
    exact hrep.offsetsMatch hjson hnum

/-- A sample `Produce` call whose file operations succeed. -/
def ServerOp.sampleProduce : ServerOp :=
  .produce ⟨0, 0, .ok⟩ "t" (asciiBytes "k") (asciiBytes "v") ∅

/-- A restart before the first record does no harm. -/
theorem offsetsMatch_sample :
    ∃ w, exec (World.serve sampleJson) ⟨fun _ => none, .fresh ⟨true, ["d"]⟩⟩
        [.createTopic none "t", .restart, .createTopic none "t", .sampleProduce,
          .sampleProduce] = some w ∧
      w.OffsetsMatch sampleJson := by
  obtain ⟨w, hrun, -⟩ : ∃ w, exec (World.serve sampleJson)
        ⟨fun _ => none, .fresh ⟨true, ["d"]⟩⟩
        [.createTopic none "t", .restart, .createTopic none "t", .sampleProduce,
          .sampleProduce] = some w ∧ True :=
    exists_exec_of_any (by decide +kernel)
  exact ⟨w, hrun, (offsetsMatch_iff sampleJson sampleJson_faithful.keepsOffset (fun _ => none)
    ⟨true, ["d"]⟩ rfl (fun _ _ _ => rfl) hrun (by decide +kernel)).mpr (by decide +kernel)
      _ w List.prefix_rfl hrun⟩

/-- A record, a restart and another record: both carry offset 0. -/
theorem not_offsetsMatch_restart :
    ∃ w, exec (World.serve sampleJson) ⟨fun _ => none, .fresh ⟨true, ["d"]⟩⟩
        [.createTopic none "t", .sampleProduce, .restart, .createTopic none "t",
          .sampleProduce] = some w ∧
      w.consume sampleJson "t" 0 10 = .ok [sampleRecord 0, sampleRecord 0] ∧
      ¬ w.OffsetsMatch sampleJson := by
  obtain ⟨w, hrun, hconsume⟩ : ∃ w, exec (World.serve sampleJson)
        ⟨fun _ => none, .fresh ⟨true, ["d"]⟩⟩
        [.createTopic none "t", .sampleProduce, .restart, .createTopic none "t",
          .sampleProduce] = some w ∧
      w.consume sampleJson "t" 0 10 = .ok [sampleRecord 0, sampleRecord 0] :=
    exists_exec_of_any (by decide +kernel)
  refine ⟨w, hrun, hconsume, fun hmatch => ?_⟩
  have hlt := hmatch.increasing "t" 0 10 _ hconsume
  exact absurd hlt (by decide)

/-- A call whose file operations succeed. -/
def ServerOp.Succeeds : ServerOp → Prop
  | .createTopic fault _ => fault = none
  | .produce env _ _ _ _ => env.io = .ok
  | .restart => False

instance : ∀ op : ServerOp, Decidable op.Succeeds
  | .createTopic fault _ => inferInstanceAs (Decidable (fault = none))
  | .produce env _ _ _ _ => inferInstanceAs (Decidable (env.io = .ok))
  | .restart => inferInstanceAs (Decidable False)

/-- A reader cannot tell a new broker on the same directory from the old one. -/
def World.Transparent (json : RecordJson) (w : World) : Prop :=
  ∀ b, newBroker true w.broker.dir = .ok b →
    b.listTopics = w.broker.listTopics ∧
      ∀ name fromOffset max,
        World.consume json ⟨w.fs, b⟩ name fromOffset max = w.consume json name fromOffset max

namespace World

variable {json : RecordJson} {w w' : World} {op : ServerOp}

/-- A successful `CreateTopic` makes its topic known. -/
theorem isSome_topics_createTopic (w : World) (name name' : String) :
    ((w.createTopic none name).1.broker.topics[name']?).isSome ↔
      name = name' ∨ (w.broker.topics[name']?).isSome := by
  unfold World.createTopic
  split
  · next topic ht =>
      by_cases heq : name = name'
      · simp [← heq, ht]
      · simp [heq]
  · rw [if_neg (by simp)]
    dsimp only [Option.bind_none]
    rw [newSegment_none]
    exact OrdMap.isSome_getElem?_insert _ _ _ _

/-- `Produce` makes no topic known. -/
theorem isSome_topics_produce (json : RecordJson) (env : ProduceEnv) (w : World) (name : String)
    (key value : Bytes) (headers : OrdMap String String) (name' : String) :
    ((w.produce json env name key value headers).1.broker.topics[name']?).isSome ↔
      (w.broker.topics[name']?).isSome := by
  rcases produce_broker json env w name key value headers with hb | ⟨topic, topic', ht, hb⟩
  · rw [hb]
  · rw [hb]
    dsimp only
    rw [OrdMap.getElem?_insert]
    split
    · next heq => simp [← heq, ht]
    · rfl

/-- The topics a broker knows are those created in its process. -/
theorem isSome_topics_iff {ops : List ServerOp}
    (hrun : exec (World.serve json) w ops = some w') (hops : ∀ op ∈ ops, op.Succeeds)
    (name : String) :
    (w'.broker.topics[name]?).isSome ↔
      (w.broker.topics[name]?).isSome ∨ ServerOp.createTopic none name ∈ ops := by
  induction ops generalizing w with
  | nil =>
      obtain rfl := Option.some.inj hrun
      simp
  | cons op ops ih =>
      obtain ⟨w₁, hstep, hrest⟩ := exec_cons_eq_some_iff.mp hrun
      rw [ih hrest fun op' hop' => hops op' (List.mem_cons_of_mem _ hop'), List.mem_cons]
      have hop := hops op List.mem_cons_self
      cases op with
      | createTopic fault name' =>
          obtain rfl : fault = none := hop
          obtain rfl := Option.some.inj hstep
          rw [isSome_topics_createTopic, ServerOp.createTopic.injEq]
          simp only [true_and, eq_comm]
          tauto
      | produce env name' key value headers =>
          obtain rfl := Option.some.inj hstep
          rw [isSome_topics_produce]
          simp
      | restart => exact hop.elim

theorem mem_listTopics {b : Broker} {name : String} :
    name ∈ b.listTopics ↔ (b.topics[name]?).isSome := by
  rw [Broker.listTopics, List.mem_insertionSort, Std.ExtTreeMap.mem_keys,
    Std.ExtTreeMap.mem_iff_isSome_getElem?]

end World

/-- A restart is transparent to readers only as long as nobody has created a topic:
`NewBroker` starts without topics, whatever the directory holds. -/
theorem transparent_iff (json : RecordJson) (fs : FileTree) (dir : SlashPath) {b : Broker}
    (hb : newBroker true dir = .ok b) {ops : List ServerOp} {w : World}
    (hrun : exec (World.serve json) ⟨fs, b⟩ ops = some w) (hops : ∀ op ∈ ops, op.Succeeds) :
    w.Transparent json ↔ ∀ name, ServerOp.createTopic none name ∉ ops := by
  have hknown := World.isSome_topics_iff hrun hops
  have hstart : ∀ name : String, b.topics[name]? = none := by
    rw [eq_fresh_of_newBroker hb]
    simp [Broker.fresh]
  simp only [hstart, Option.isSome_none, Bool.false_eq_true, false_or] at hknown
  constructor
  · intro htrans name hmem
    have hlist := (htrans (.fresh w.broker.dir) rfl).1
    have hin : name ∈ w.broker.listTopics := World.mem_listTopics.mpr ((hknown name).mpr hmem)
    rw [← hlist, World.mem_listTopics] at hin
    simp [Broker.fresh] at hin
  · intro hnone b' hb'
    obtain rfl := eq_fresh_of_newBroker hb'
    have hempty : ∀ name : String, w.broker.topics[name]? = none := by
      intro name
      rw [← Option.not_isSome_iff_eq_none, hknown]
      exact hnone name
    have htopics : w.broker.topics = ∅ :=
      Std.ExtTreeMap.ext_getElem? fun {name} => by rw [hempty, Std.ExtTreeMap.getElem?_empty]
    refine ⟨?_, fun name fromOffset max => ?_⟩
    · rw [Broker.listTopics, Broker.listTopics, htopics]
      rfl
    · rw [World.consume, World.consume, hempty]
      simp [Broker.fresh]

/-- A `Produce` to an unknown topic fails and leaves the restart transparent. -/
theorem transparent_sample :
    ∃ w, exec (World.serve sampleJson) ⟨fun _ => none, .fresh ⟨true, ["d"]⟩⟩
        [.sampleProduce] = some w ∧ w.Transparent sampleJson := by
  obtain ⟨w, hrun, -⟩ : ∃ w, exec (World.serve sampleJson)
        ⟨fun _ => none, .fresh ⟨true, ["d"]⟩⟩ [.sampleProduce] = some w ∧ True :=
    exists_exec_of_any (by decide +kernel)
  exact ⟨w, hrun, (transparent_iff sampleJson (fun _ => none) ⟨true, ["d"]⟩ rfl hrun
    (by decide)).mpr (by simp [ServerOp.sampleProduce])⟩

/-- A record that could be read before the stop cannot be read after it. -/
theorem not_transparent_restart :
    ∃ w, exec (World.serve sampleJson) ⟨fun _ => none, .fresh ⟨true, ["d"]⟩⟩
        [.createTopic none "t", .sampleProduce] = some w ∧
      (w.broker.listTopics = ["t"] ∧ w.consume sampleJson "t" 0 10 = .ok [sampleRecord 0] ∧
        (Broker.fresh w.broker.dir).listTopics = [] ∧
        World.consume sampleJson ⟨w.fs, .fresh w.broker.dir⟩ "t" 0 10 =
          .error (.topicNotFound "t")) ∧
      ¬ w.Transparent sampleJson := by
  obtain ⟨w, hrun, hlist, hread, hlist', hread'⟩ : ∃ w, exec (World.serve sampleJson)
        ⟨fun _ => none, .fresh ⟨true, ["d"]⟩⟩ [.createTopic none "t", .sampleProduce] = some w ∧
      w.broker.listTopics = ["t"] ∧ w.consume sampleJson "t" 0 10 = .ok [sampleRecord 0] ∧
      (Broker.fresh w.broker.dir).listTopics = [] ∧
      World.consume sampleJson ⟨w.fs, .fresh w.broker.dir⟩ "t" 0 10 =
        .error (.topicNotFound "t") :=
    exists_exec_of_any (by decide +kernel)
  refine ⟨w, hrun, ⟨hlist, hread, hlist', hread'⟩, fun htrans => ?_⟩
  have hsame := (htrans _ rfl).1
  rw [hlist, hlist'] at hsame
  cases hsame

namespace World

variable {json : RecordJson} {w w' : World} {disk : SlashPath → List (ℤ × Record)}

/-- With a complete index, creating a topic loses no record. -/
theorem Represents.createTopic_of_indexed (h : w.Represents json disk) (hindexed : w.Indexed disk)
    (fault : Option CreateFault) {name : String} (hown : w.OwnDir name) :
    (w.createTopic fault name).1.Represents json disk ∧
      (w.createTopic fault name).1.Indexed disk := by
  have hindexed' : (w.createTopic fault name).1.Indexed disk := by
    intro name'
    rw [segmentDir_createTopic, contents_createTopic]
    exact hindexed name'
  rcases h.createTopic hown Prod.mk.eta.symm with ⟨-, hrep, -⟩ | ⟨topic, -, -, -, -, hrep⟩
  · exact ⟨hrep, hindexed'⟩
  · rw [List.take_of_length_le (hindexed name), Function.update_eq_self] at hrep
    exact ⟨hrep, hindexed'⟩

theorem indexed_serve {op : ServerOp}
    (h : ∃ disk, w.Represents json disk ∧ w.Indexed disk) (hown : w.OwnDirs op)
    (hop : op.Succeeds) (hstep : w.serve json op = some w') :
    ∃ disk, w'.Represents json disk ∧ w'.Indexed disk := by
  obtain ⟨disk, hrep, hindexed⟩ := h
  cases op with
  | createTopic fault name =>
      obtain rfl := Option.some.inj hstep
      exact ⟨disk, hrep.createTopic_of_indexed hindexed fault hown⟩
  | produce env name key value headers =>
      obtain rfl := Option.some.inj hstep
      have hio : env.io.index = .done := by
        rw [show env.io = .ok from hop]
        rfl
      rcases hrep.produce Prod.mk.eta.symm with
        ⟨-, -, -, hrep', hindexed'⟩ | ⟨topic, -, -, -, -, hrep', -, hindexed'⟩
      · exact ⟨disk, hrep', hindexed' hindexed⟩
      · exact ⟨_, hrep', hindexed' hio hindexed⟩
  | restart => exact hop.elim

end World

/-- What a restart needs besides `NewBroker`: once the topic has been created again,
`Consume` returns what it returned before the stop. -/
theorem consume_reload (json : RecordJson) (fs : FileTree) (dir : SlashPath) {b : Broker}
    (hb : newBroker true dir = .ok b)
    (hfs : ∀ name, ∀ p ∈ files (b.segmentDir name), fs p = none)
    {ops : List ServerOp} {w : World} (hrun : exec (World.serve json) ⟨fs, b⟩ ops = some w)
    (hown : Guarded (World.serve json) World.OwnDirs ⟨fs, b⟩ ops)
    (hops : Guarded (World.serve json) (fun _ op => op.Succeeds) ⟨fs, b⟩ ops)
    {name : String} (hname : (w.broker.topics[name]?).isSome) (fromOffset max : ℤ) :
    World.consume json (World.createTopic none ⟨w.fs, .fresh w.broker.dir⟩ name).1
        name fromOffset max = w.consume json name fromOffset max := by
  obtain ⟨disk, hrep, hindexed⟩ := invariant_of_guarded
    (fun w => ∃ disk, w.Represents json disk ∧ w.Indexed disk)
    (fun w op w' h hop hstep => World.indexed_serve h hop.1 hop.2 hstep) hrun
    (guarded_and hown hops)
    ⟨_, .start (by rw [eq_fresh_of_newBroker hb]; rfl) hfs, fun _ => Nat.zero_le _⟩
  have hrep₀ : World.Represents json ⟨w.fs, .fresh w.broker.dir⟩ disk := hrep.restart rfl rfl
  have hown₀ : World.OwnDir ⟨w.fs, .fresh w.broker.dir⟩ name :=
    fun name' topic ht => by simp [Broker.fresh] at ht
  obtain ⟨hrep₁, -⟩ := hrep₀.createTopic_of_indexed hindexed none hown₀
  obtain ⟨topic, ht⟩ := Option.isSome_iff_exists.mp hname
  have hname₁ := (World.isSome_topics_createTopic ⟨w.fs, .fresh w.broker.dir⟩ name name).mpr
    (Or.inl rfl)
  obtain ⟨topic₁, ht₁⟩ := Option.isSome_iff_exists.mp hname₁
  obtain ⟨seg, -, -, hsound, hread⟩ := hrep.consume_eq ht fromOffset max
  obtain ⟨seg₁, -, -, hsound₁, hread₁⟩ := hrep₁.consume_eq ht₁ fromOffset max
  rw [World.segmentDir_createTopic] at hsound₁
  rw [hread, hread₁]
  exact hsound.readRange_congr hsound₁.toStores fromOffset max

end StreamFlow
