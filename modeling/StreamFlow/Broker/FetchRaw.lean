import StreamFlow.Broker.Restart

/-!
# Raw fetches

`FetchRaw` hands out the place of a payload in the log file, and its caller reads
the bytes when no lock is held any more. `fetchRaw_agrees` states that this is safe:
the extent of a stored record holds the text of the record that `Consume` returns,
now and after any further calls, whether they succeed or fail half way.

The argument is the one of `Stores`: a record's frame lies below the position of its
segment, and no append writes below the position.
-/

namespace StreamFlow

open BigEndian ByteFile Segment Run

namespace World

/-- The index of a segment of the topic has an entry for the offset. -/
def StoredUnder (w : World) (name : String) (o : ℤ) : Prop :=
  ∃ topic, w.broker.topics[name]? = some topic ∧
    ∃ seg ∈ topic.segments, ∃ pos, seg.offsets[o]? = some pos

/-- The extent of a raw fetch holds the text of a record, which is also the first
one that `Consume` returns. -/
structure Delivers (json : RecordJson) (w : World) (name : String) (o : ℤ)
    (ext : SlashPath × ℤ × ℤ) (r : Record) : Prop where
  fetchRaw : w.fetchRaw name o = .ok ext
  bytes : (slice (w.fs.contents ext.1) ext.2.1 ext.2.2.toNat).bind json.unmarshal = some r
  consume : w.consume json name o 1 = .ok [r]

namespace Represents

variable {json : RecordJson} {w w' : World} {disk : SlashPath → List (ℤ × Record)}
  {op : ServerOp}

/-- The index knows the offsets of the records of the log. -/
theorem storedUnder_iff (h : w.Represents json disk) {name : String} {topic : Topic}
    (ht : w.broker.topics[name]? = some topic) {o : ℤ} :
    w.StoredUnder name o ↔
      ∃ (i : ℕ) (e : ℤ × Record), (disk (w.broker.segmentDir name))[i]? = some e ∧ o = i := by
  constructor
  · rintro ⟨topic', ht', seg, hseg, pos, hpos⟩
    exact h.exists_of_getElem?_offsets ht' hseg hpos
  · rintro ⟨i, e, he, rfl⟩
    obtain ⟨payload, -, -, hext⟩ := h.fetchRaw_eq ht he
    exact exists_of_fetchRaw_eq_ok hext

/-- Both ways of reading a record of a log give the same record. -/
theorem delivers (h : w.Represents json disk) {f : Record → Record} (hjson : json.Decodes f)
    {name : String} {topic : Topic} (ht : w.broker.topics[name]? = some topic) {i : ℕ}
    {e : ℤ × Record} (he : (disk (w.broker.segmentDir name))[i]? = some e)
    {payload : Bytes} (hm : json.marshal e.2 = some payload) :
    w.Delivers json name i
      ((w.broker.segmentDir name).join "segment.log", e.1 + 4, payload.length) (f e.2) := by
  obtain ⟨payload', hm', hbody, hext⟩ := h.fetchRaw_eq ht he
  obtain rfl := Option.some.inj (hm'.symm.trans hm)
  obtain ⟨seg, -, -, hsound, hread⟩ := h.consume_eq ht i 1
  refine ⟨hext, ?_, ?_⟩
  · rw [Int.toNat_natCast, hbody]
    exact hjson e.2 payload' hm
  · have hblock : (((disk (w.broker.segmentDir name)).map Prod.snd).map f)[i]? = some (f e.2) := by
      rw [List.getElem?_map, List.getElem?_map, he]
      rfl
    rw [hread, hsound.readRange_eq hjson, sub_zero, Int.toNat_natCast]
    change Except.ok (List.take 1 _) = _
    rw [List.take_one, List.head?_drop, hblock]
    rfl

/-- Within one process, the logs of the open topics only grow. -/
theorem serve_open (h : w.Represents json disk) (hown : w.OwnDirs op) (hop : op ≠ .restart)
    (hstep : w.serve json op = some w') :
    w'.broker.segmentDir = w.broker.segmentDir ∧ ∃ disk', w'.Represents json disk' ∧
      ∀ (name : String) (topic : Topic), w.broker.topics[name]? = some topic →
        (w'.broker.topics[name]?).isSome ∧
          disk (w.broker.segmentDir name) <+: disk' (w.broker.segmentDir name) := by
  cases op with
  | restart => exact absurd rfl hop
  | createTopic fault name =>
      obtain rfl := Option.some.inj hstep
      refine ⟨segmentDir_createTopic fault w name, ?_⟩
      rcases h.createTopic hown Prod.mk.eta.symm with ⟨hb, hrep, -⟩ | ⟨topic, hnone, -, -, hb, hrep⟩
      · refine ⟨disk, hrep, fun name' topic ht => ⟨?_, List.prefix_rfl⟩⟩
        rw [hb, ht]
        rfl
      · refine ⟨_, hrep, fun name' topic' ht => ⟨?_, ?_⟩⟩
        · rw [hb]
          refine (OrdMap.isSome_getElem?_insert _ _ _ _).mpr (Or.inr ?_)
          rw [ht]
          rfl
        · -- the directory just opened belongs to no topic known before
          rw [Function.update_of_ne]
          intro hdir
          rw [hown name' topic' ht hdir, hnone] at ht
          cases ht
  | produce env name key value headers =>
      obtain rfl := Option.some.inj hstep
      have hsome : ∀ (name' : String) (topic : Topic), w.broker.topics[name']? = some topic →
          ((w.produce json env name key value headers).1.broker.topics[name']?).isSome := by
        intro name' topic ht
        rw [isSome_topics_produce, ht]
        rfl
      rcases h.produce Prod.mk.eta.symm with
        ⟨-, -, hb, hrep, -⟩ | ⟨topic, topic', -, -, hb, hrep, -⟩
      · rw [hb]
        exact ⟨rfl, disk, hrep, fun name' t ht => ⟨by rw [ht]; rfl, List.prefix_rfl⟩⟩
      · refine ⟨by rw [hb]; rfl, _, hrep, fun name' t ht => ⟨hsome name' t ht, ?_⟩⟩
        by_cases hdir : w.broker.segmentDir name' = w.broker.segmentDir name
        · rw [hdir, Function.update_self]
          exact List.prefix_append _ _
        · rw [Function.update_of_ne hdir]

end Represents

/-- A record of the log of an open topic. -/
def Holds (json : RecordJson) (dir : SlashPath) (name : String) (i : ℕ) (e : ℤ × Record)
    (w : World) : Prop :=
  w.broker.segmentDir name = dir ∧ (w.broker.topics[name]?).isSome ∧
    ∃ disk, w.Represents json disk ∧ (disk dir)[i]? = some e

/-- Such a record stays where it is. -/
theorem Holds.exec {json : RecordJson} {dir : SlashPath} {name : String} {i : ℕ}
    {e : ℤ × Record} {w w' : World} {ops : List ServerOp} (h : w.Holds json dir name i e)
    (hops : ∀ op ∈ ops, op ≠ .restart) (hown : Guarded (World.serve json) World.OwnDirs w ops)
    (hrun : exec (World.serve json) w ops = some w') : w'.Holds json dir name i e := by
  refine invariant_of_guarded (Holds json dir name i e) ?_ hrun
    (guarded_and hown (guarded_of_forall_mem fun op hop _ => hops op hop)) h
  rintro w op w' ⟨hdir, hsome, disk, hrep, hget⟩ ⟨hop, hne⟩ hstep
  obtain ⟨topic, ht⟩ := Option.isSome_iff_exists.mp hsome
  obtain ⟨hsame, disk', hrep', hgrow⟩ := hrep.serve_open hop hne hstep
  obtain ⟨hsome', hpre⟩ := hgrow name topic ht
  rw [hdir] at hpre
  refine ⟨by rw [hsame, hdir], hsome', disk', hrep', ?_⟩
  obtain ⟨hlt, rfl⟩ := List.getElem?_eq_some_iff.mp hget
  obtain ⟨more, hmore⟩ := hpre
  rw [← hmore, List.getElem?_append_left hlt, hget]

end World

/-- The raw fetch path agrees with the record path, and its extents stay valid. In every
state reached by `CreateTopic` calls (each topic in a directory of its own), `Produce`
calls and restarts, with any outcome of their file operations: `FetchRaw` succeeds
exactly for the offsets in the index of the topic. Its extent holds the text of the
record that `Consume` returns first, and it does so after any further calls in the same
process, again with any outcome. -/
theorem fetchRaw_agrees (json : RecordJson) {f : Record → Record} (hjson : json.Decodes f)
    (fs : FileTree) (dir : SlashPath) {b : Broker} (hb : newBroker true dir = .ok b)
    (hfs : ∀ name, ∀ p ∈ files (b.segmentDir name), fs p = none)
    {ops : List ServerOp} {w : World} (hrun : exec (World.serve json) ⟨fs, b⟩ ops = some w)
    (hown : Guarded (World.serve json) World.OwnDirs ⟨fs, b⟩ ops) (name : String) (o : ℤ) :
    ((∃ ext, w.fetchRaw name o = .ok ext) ↔ w.StoredUnder name o) ∧
      ∀ ext, w.fetchRaw name o = .ok ext → ∃ r, ∀ more w',
        exec (World.serve json) w more = some w' → (∀ op ∈ more, op ≠ .restart) →
        Guarded (World.serve json) World.OwnDirs w more → w'.Delivers json name o ext r := by
  obtain ⟨disk, hrep⟩ := invariant_of_guarded (fun w => ∃ disk, w.Represents json disk)
    (fun w op w' ⟨disk, h⟩ hop hstep => (h.serve hop hstep).imp fun _ h' => h'.1) hrun hown
    ⟨_, .start (by rw [eq_fresh_of_newBroker hb]; rfl) hfs⟩
  refine ⟨⟨?_, ?_⟩, ?_⟩
  · rintro ⟨ext, hext⟩
    exact World.exists_of_fetchRaw_eq_ok hext
  · rintro ⟨topic, ht, hindex⟩
    obtain ⟨i, e, he, rfl⟩ := (hrep.storedUnder_iff ht).mp ⟨topic, ht, hindex⟩
    obtain ⟨payload, -, -, hext⟩ := hrep.fetchRaw_eq ht he
    exact ⟨_, hext⟩
  · intro ext hext
    obtain ⟨topic, ht, hindex⟩ := World.exists_of_fetchRaw_eq_ok hext
    obtain ⟨i, e, he, rfl⟩ := (hrep.storedUnder_iff ht).mp ⟨topic, ht, hindex⟩
    obtain ⟨payload, hm, -, hext'⟩ := hrep.fetchRaw_eq ht he
    obtain rfl := Except.ok.inj (hext'.symm.trans hext)
    refine ⟨f e.2, fun more w' hmore hops hown' => ?_⟩
    obtain ⟨hdir, hsome, disk', hrep', he'⟩ := World.Holds.exec
      ⟨rfl, by rw [ht]; rfl, disk, hrep, he⟩ hops hown' hmore
    obtain ⟨topic', ht'⟩ := Option.isSome_iff_exists.mp hsome
    rw [← hdir] at he' ⊢
    exact hrep'.delivers hjson ht' he' hm

/-- A `Produce` whose payload is cut off after some bytes. -/
def ServerOp.sampleTorn (n : ℕ) : ServerOp :=
  .produce ⟨0, 0, { AppendIO.ok with payloadWrite := .failed n }⟩ "t" (asciiBytes "k")
    (asciiBytes "v") ∅

/-- A fetch between a torn append and two more appends, of which one is torn too. -/
theorem fetchRaw_agrees_sample :
    ∃ w w', exec (World.serve sampleJson) ⟨fun _ => none, .fresh ⟨true, ["d"]⟩⟩
        [.createTopic none "t", .sampleProduce, .sampleTorn 3] = some w ∧
      exec (World.serve sampleJson) w [.sampleProduce, .sampleTorn 7] = some w' ∧
      w'.Delivers sampleJson "t" 0 (⟨true, ["d", "t", "000000", "segment.log"]⟩, 4, 75)
        (sampleRecord 0) := by
  obtain ⟨w, hrun, hext, hmore⟩ : ∃ w,
      exec (World.serve sampleJson) ⟨fun _ => none, .fresh ⟨true, ["d"]⟩⟩
        [.createTopic none "t", .sampleProduce, .sampleTorn 3] = some w ∧
      w.fetchRaw "t" 0 = .ok (⟨true, ["d", "t", "000000", "segment.log"]⟩, 4, 75) ∧
      ((exec (World.serve sampleJson) w [.sampleProduce, .sampleTorn 7]).any fun w' =>
        decide (w'.consume sampleJson "t" 0 1 = .ok [sampleRecord 0])) = true :=
    exists_exec_of_any (by decide +kernel)
  obtain ⟨w', hrun', hconsume⟩ := exists_exec_of_any hmore
  obtain ⟨r, hr⟩ := (fetchRaw_agrees sampleJson sampleJson_faithful (fun _ => none)
    ⟨true, ["d"]⟩ rfl (fun _ _ _ => rfl) hrun (by decide +kernel) "t" 0).2 _ hext
  have hdelivers := hr _ w' hrun' (by simp [ServerOp.sampleProduce, ServerOp.sampleTorn])
    (guarded_of_forall_mem (by simp [ServerOp.sampleProduce, ServerOp.sampleTorn, World.OwnDirs]))
  obtain rfl : r = sampleRecord 0 := by
    have hsame := hdelivers.consume.symm.trans hconsume
    simpa using hsame
  exact ⟨w, w', hrun, hrun', hdelivers⟩

end StreamFlow
