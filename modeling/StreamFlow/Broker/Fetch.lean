import StreamFlow.Broker.FailedProduce
import StreamFlow.Broker.FetchRaw
import StreamFlow.Foundation.Loop
import StreamFlow.Foundation.Readout

/-!
# Fetches

`Fetch` calls `Consume` for one record at a time, at offsets that rise by one, and stops when it has
as many records as its limit allows. `fetch_returns` says what it returns: the records that are read
at that many positions of the log. A negative offset is read as the first one, so the first record
is returned again and again; and the limit is compared with a number of records, though it is meant
for bytes.
-/

namespace StreamFlow

open BigEndian ByteFile Segment Run Readout

/-- A record of a log with its offset in the index and the size of its payload. -/
structure StoredRecord where
  offset : ℤ
  size : ℤ
  record : Record
deriving DecidableEq

namespace World

/-- The log of a topic, by the offsets in the index. -/
def stored (json : RecordJson) (w : World) (topicName : String) : List StoredRecord :=
  match w.broker.topics[topicName]? with
  | none => []
  | some topic =>
      topic.segments.flatMap fun seg => seg.offsets.keys.filterMap fun offset =>
        match w.fetchRaw topicName offset, seg.readByOffset json w.fs offset with
        | .ok (_, _, size), .ok record => some ⟨offset, size, record⟩
        | _, _ => none

/-- The default of `Fetch` for a limit that is not positive. -/
def fetchLimit (maxBytes : ℤ) : ℤ := if maxBytes ≤ 0 then 1024 * 1024 else maxBytes

/-- One round of the loop in `Fetch`, on the offset and the records so far. -/
def fetchBody (json : RecordJson) (w : World) (topicName : String) (maxBytes : ℤ)
    (st : ℤ × List Record) : (ℤ × List Record) ⊕ (List Record × Option BrokerError) :=
  match w.consume json topicName st.1 1 with
  | .error e => .inr (st.2, some e)
  | .ok [] => .inr (st.2, none)
  | .ok (r :: _) =>
      if maxBytes ≤ (st.2 ++ [r]).length then .inr (st.2 ++ [r], none)
      else .inl (st.1 + 1, st.2 ++ [r])

/-- `Fetch`: the records and the error that it returns. -/
def fetch (json : RecordJson) (w : World) (topicName : String) (fromOffset maxBytes : ℤ)
    (fuel : ℕ) : Option (List Record × Option BrokerError) :=
  Loop.run (w.fetchBody json topicName (fetchLimit maxBytes)) fuel (fromOffset, [])

variable {json : RecordJson} {w : World} {name : String}

/-! ### What is returned -/

theorem fetchLimit_pos (maxBytes : ℤ) : 0 < fetchLimit maxBytes := by
  rw [fetchLimit]
  split <;> omega

/-- If `Consume` reads a list of records, so does `Fetch`, at one position after the other. -/
theorem fetch_returns {log : List Record}
    (hconsume : ∀ o, w.consume json name o 1 = .ok ((log.drop o.toNat).take 1))
    (fromOffset maxBytes : ℤ) :
    Loop.Returns (w.fetch json name fromOffset maxBytes)
      (reads log fromOffset (fetchLimit maxBytes).toNat, none) := by
  have hlimit := fetchLimit_pos maxBytes
  -- `m` records have been read, each at its position
  refine Loop.returns_of_invariant
    (fun st : ℤ × List Record => ∃ m : ℕ, st = (fromOffset + m, reads log fromOffset m) ∧
      (m : ℤ) < fetchLimit maxBytes ∧ (reads log fromOffset m).length = m)
    (fun st => (fetchLimit maxBytes - st.2.length).toNat) ?_ (fromOffset, [])
    ⟨0, by simp [reads], by simpa using hlimit, by simp [reads]⟩
  rintro _ ⟨m, rfl, hlt, hlength⟩
  rw [fetchBody, hconsume, List.take_one, List.head?_drop]
  cases hget : log[(fromOffset + m).toNat]? with
  | none =>
      have hend : reads log fromOffset (fetchLimit maxBytes).toNat = reads log fromOffset m :=
        reads_eq_of_le hget (by omega)
      rw [hend]
      exact Or.inl rfl
  | some r =>
      have hsucc : reads log fromOffset m ++ [r] = reads log fromOffset (m + 1) := by
        rw [reads_succ, hget]
        rfl
      have hlength' : (reads log fromOffset (m + 1)).length = m + 1 := by
        rw [← hsucc, List.length_append, hlength]
        rfl
      dsimp only [Option.toList_some]
      rw [hsucc, hlength']
      by_cases hfull : fetchLimit maxBytes ≤ ((m + 1 : ℕ) : ℤ)
      · refine Or.inl ?_
        have hm : m + 1 = (fetchLimit maxBytes).toNat := by omega
        rw [if_pos hfull, hm]
      · refine Or.inr ⟨(fromOffset + m + 1, reads log fromOffset (m + 1)), if_neg hfull,
          ⟨m + 1, ?_, by omega, hlength'⟩, ?_⟩
        · rw [Nat.cast_succ, add_assoc]
        · rw [hlength, hlength']
          omega

/-! ### The log -/

/-- The records of a log are stored under their places. -/
def InPlace (es : List StoredRecord) : Prop :=
  ∀ (i : ℕ) (e : StoredRecord), es[i]? = some e → e.offset = i

namespace InPlace

variable {es : List StoredRecord}

theorem offset_lt (h : InPlace es) {o : ℤ} : ∀ e ∈ es.take o.toNat, e.offset < o := by
  intro e he
  obtain ⟨i, hi⟩ := List.mem_iff_getElem?.mp he
  rw [List.getElem?_take] at hi
  obtain ⟨hlt, hi⟩ := Option.ite_none_right_eq_some.mp hi
  rw [h i e hi]
  omega

theorem le_offset (h : InPlace es) {o : ℤ} {e : StoredRecord} {rest : List StoredRecord}
    (hrest : es.drop o.toNat = e :: rest) : o ≤ e.offset := by
  have he : es[o.toNat]? = some e := by
    rw [← List.head?_drop, hrest]
    rfl
  rw [h _ e he]
  exact Int.self_le_toNat o

/-- The records from an offset on. -/
theorem dropWhile_eq (h : InPlace es) (o : ℤ) :
    (es.dropWhile fun e => e.offset < o) = es.drop o.toNat := by
  conv_lhs => rw [← List.take_append_drop o.toNat es]
  rw [List.dropWhile_append_of_pos fun e he => decide_eq_true (h.offset_lt e he)]
  cases hrest : es.drop o.toNat with
  | nil => rfl
  | cons e rest =>
      rw [List.dropWhile_cons_of_neg]
      simpa using h.le_offset hrest

/-- The first record at an offset or after it. -/
theorem find?_eq (h : InPlace es) (o : ℤ) : (es.find? fun e => o ≤ e.offset) = es[o.toNat]? := by
  have hbefore : ((es.take o.toNat).find? fun e => o ≤ e.offset) = none := by
    rw [List.find?_eq_none]
    intro e he
    simpa using h.offset_lt e he
  conv_lhs => rw [← List.take_append_drop o.toNat es]
  rw [List.find?_append, hbefore, Option.none_or, ← List.head?_drop]
  cases hrest : es.drop o.toNat with
  | nil => rfl
  | cons e rest =>
      rw [List.find?_cons_of_pos, List.head?_cons]
      simpa using h.le_offset hrest

end InPlace

theorem forall₂_filterMap {α β : Type} {R : α → β → Prop} {g : α → Option β} {l : List α}
    (h : ∀ a ∈ l, ∃ b, g a = some b ∧ R a b) : List.Forall₂ R l (l.filterMap g) := by
  induction l with
  | nil => exact .nil
  | cons a l ih =>
      obtain ⟨⟨b, hb, hR⟩, hl⟩ := List.forall_mem_cons.mp h
      rw [List.filterMap_cons_some hb]
      exact .cons hR (ih hl)

namespace Represents

variable {disk : SlashPath → List (ℤ × Record)} {f : Record → Record} {topic : Topic}

/-- The log has the records of the directory, under their places. -/
theorem forall₂_stored (h : w.Represents json disk) (hjson : json.Decodes f)
    (ht : w.broker.topics[name]? = some topic) :
    List.Forall₂ (fun (i : ℕ) (e : StoredRecord) => e.offset = i ∧
        (((disk (w.broker.segmentDir name)).map Prod.snd).map f)[i]? = some e.record)
      (List.range (disk (w.broker.segmentDir name)).length) (w.stored json name) := by
  obtain ⟨seg, hseg, -, hsound⟩ := h.topic name topic ht
  have hkeys : seg.offsets.keys =
      (List.range (disk (w.broker.segmentDir name)).length).map fun i : ℕ => (i : ℤ) := by
    rw [← Std.ExtTreeMap.map_fst_toList_eq_keys, hsound.offsets, map_fst_entries]
    simp
  rw [stored, ht]
  dsimp only
  rw [hseg, List.flatMap_singleton, hkeys, List.filterMap_map]
  refine forall₂_filterMap fun i hi => ?_
  have hlt := List.mem_range.mp hi
  have hget := List.getElem?_eq_getElem hlt
  obtain ⟨payload, -, -, hraw⟩ := h.fetchRaw_eq ht hget
  have hread := hsound.readByOffset_eq hjson hget
  rw [zero_add] at hread
  refine ⟨⟨i, payload.length, f (disk (w.broker.segmentDir name))[i].2⟩, ?_, rfl, ?_⟩
  · rw [Function.comp_apply, hraw, hread]
  · rw [List.getElem?_map, List.getElem?_map, hget]
    rfl

theorem inPlace_stored (h : w.Represents json disk) (hjson : json.Decodes f)
    (ht : w.broker.topics[name]? = some topic) : InPlace (w.stored json name) := by
  intro i e he
  obtain ⟨hlt, rfl⟩ := List.getElem?_eq_some_iff.mp he
  have hrows := h.forall₂_stored hjson ht
  have hget := (List.forall₂_iff_get.mp hrows).2 i (hrows.length_eq ▸ hlt) hlt
  simpa using hget.1

theorem map_record_stored (h : w.Represents json disk) (hjson : json.Decodes f)
    (ht : w.broker.topics[name]? = some topic) :
    (w.stored json name).map StoredRecord.record =
      ((disk (w.broker.segmentDir name)).map Prod.snd).map f := by
  have hrows := h.forall₂_stored hjson ht
  have hlength := hrows.length_eq
  rw [List.length_range] at hlength
  refine List.ext_getElem (by simp [hlength]) fun i hi hi' => ?_
  rw [List.length_map] at hi
  have hget := ((List.forall₂_iff_get.mp hrows).2 i (by simpa [hlength] using hi) hi).2
  simp only [List.get_eq_getElem, List.getElem_range] at hget
  rw [List.getElem?_eq_getElem hi'] at hget
  rw [List.getElem_map, Option.some.inj hget]

/-- What `Consume` reads one by one is the log. -/
theorem consume_one (h : w.Represents json disk) (hjson : json.Decodes f)
    (ht : w.broker.topics[name]? = some topic) (o : ℤ) :
    w.consume json name o 1 =
      .ok ((((w.stored json name).map StoredRecord.record).drop o.toNat).take 1) := by
  obtain ⟨seg, -, -, hsound, hread⟩ := h.consume_eq ht o 1
  rw [hread, hsound.readRange_eq hjson, sub_zero, h.map_record_stored hjson ht]
  rfl

end Represents

/-! ### Runs of the log -/

/-- The records are a block of the log that begins with the first record at an offset or after it,
and the offsets that they carry rise. -/
structure IsRun (log : List StoredRecord) (fromOffset : ℤ) (recs : List Record) : Prop where
  block : ∃ n, recs =
    ((log.dropWhile fun e => e.offset < fromOffset).take n).map StoredRecord.record
  rising : (recs.map Record.offset).Pairwise (· < ·)

section Log

variable {log : List StoredRecord} {o : ℤ} {n : ℕ}

theorem map_offset_eq (l : List StoredRecord) :
    (l.map StoredRecord.record).map Record.offset = l.map fun e => e.record.offset :=
  List.map_map

/-- The first record is found at every offset before it. -/
theorem not_rising_reads (ho : o < 0) (hlog : log ≠ []) (hn : 2 ≤ n) :
    ¬ ((reads (log.map StoredRecord.record) o n).map Record.offset).Pairwise (· < ·) := by
  obtain ⟨e, log, rfl⟩ := List.exists_cons_of_ne_nil hlog
  have hfirst : ∀ k : ℕ, k < 2 → (reads ((e :: log).map StoredRecord.record) o n)[k]? =
      some e.record := by
    intro k hk
    have hzero : (o + k).toNat = 0 := by omega
    rw [getElem?_reads, if_pos (by omega), hzero]
    rfl
  obtain ⟨hlt₀, hget₀⟩ := List.getElem?_eq_some_iff.mp (hfirst 0 (by omega))
  obtain ⟨hlt₁, hget₁⟩ := List.getElem?_eq_some_iff.mp (hfirst 1 (by omega))
  intro hrising
  have hless := List.pairwise_iff_getElem.mp (List.pairwise_map.mp hrising) 0 1 hlt₀ hlt₁
    Nat.zero_lt_one
  rw [hget₀, hget₁] at hless
  exact lt_irrefl _ hless

/-- Reading at rising offsets gives a run of the log if the first record is not read twice and the
offsets in the records rise. -/
theorem isRun_reads_iff (h : InPlace log) (hn : 0 < n) :
    IsRun log o (reads (log.map StoredRecord.record) o n) ↔
      (0 ≤ o ∨ log = [] ∨ n = 1) ∧ (((log.dropWhile fun e => e.offset < o).take n).map
        fun e => e.record.offset).Pairwise (· < ·) := by
  -- before the log, a reader that asks once gets the same as one that begins with the log
  have hsame : 0 ≤ o ∨ log = [] ∨ n = 1 → reads (log.map StoredRecord.record) o n =
      ((log.dropWhile fun e => e.offset < o).take n).map StoredRecord.record := by
    intro hcase
    rw [h.dropWhile_eq, List.map_take, List.map_drop]
    by_cases ho : 0 ≤ o
    · exact reads_of_nonneg ho
    · have hzero : o.toNat = 0 := by omega
      rcases hcase with ho' | rfl | rfl
      · exact absurd ho' ho
      · simp [reads]
      · rw [reads_succ, hzero, Nat.cast_zero, add_zero, hzero, List.drop_zero, List.take_one,
          List.head?_eq_getElem?]
        rfl
  constructor
  · rintro ⟨-, hrising⟩
    have hcase : 0 ≤ o ∨ log = [] ∨ n = 1 := by
      by_contra hnot
      simp only [not_or, not_le] at hnot
      exact not_rising_reads hnot.1 hnot.2.1 (by omega) hrising
    rw [hsame hcase, map_offset_eq] at hrising
    exact ⟨hcase, hrising⟩
  · rintro ⟨hcase, hrising⟩
    rw [← map_offset_eq, ← hsame hcase] at hrising
    exact ⟨⟨n, hsame hcase⟩, hrising⟩

/-! ### Sizes -/

/-- The payloads of the records, without the last one, are smaller than the limit. Each record is
the first one at the offset at which it was read or after it. -/
def WithinBudget (log : List StoredRecord) (fromOffset maxBytes : ℤ) (recs : List Record) : Prop :=
  ∃ es : List StoredRecord, es.map StoredRecord.record = recs ∧
    (∀ (k : ℕ) (e : StoredRecord), es[k]? = some e →
      (log.find? fun e' => fromOffset + k ≤ e'.offset) = some e) ∧
    (es.dropLast.map StoredRecord.size).sum < maxBytes

theorem withinBudget_reads_iff (h : InPlace log) {maxBytes : ℤ} :
    WithinBudget log o maxBytes (reads (log.map StoredRecord.record) o n) ↔
      ((reads log o n).dropLast.map StoredRecord.size).sum < maxBytes := by
  rw [← map_reads]
  constructor
  · rintro ⟨es, hrecs, hread, hsum⟩
    -- what was read is determined by the offsets
    have hes : es = reads log o n := by
      have hlength : es.length = (reads log o n).length := by
        simpa using congrArg List.length hrecs
      refine List.ext_getElem hlength fun k hk hk' => ?_
      have hget := hread k es[k] (List.getElem?_eq_getElem hk)
      have hget' := getElem?_reads (l := log) (o := o) (n := n) k
      rw [h.find?_eq] at hget
      rw [if_pos (hk'.trans_le length_reads_le), hget, List.getElem?_eq_getElem hk'] at hget'
      exact (Option.some.inj hget').symm
    rwa [← hes]
  · intro hsum
    refine ⟨reads log o n, rfl, fun k e he => ?_, hsum⟩
    rw [getElem?_reads] at he
    rw [h.find?_eq]
    exact (Option.ite_none_right_eq_some.mp he).2

end Log

end World

section Reachable

variable {json : RecordJson} {f : Record → Record} (fs : FileTree) (dir : SlashPath) {b : Broker}
  {steps : List LifeStep} {s : Sys} {name : String} {topic : Topic}

/-- What `Fetch` returns in a state that a server reaches. -/
theorem exists_fetch_iff (hjson : json.Decodes f) (hb : newBroker true dir = .ok b)
    (hfs : ∀ name, ∀ p ∈ files (b.segmentDir name), fs p = none)
    (hrun : exec (Sys.live json) (.init ⟨fs, b⟩) steps = some s)
    (hown : Guarded (Sys.live json) Sys.LiveOwnDirs (.init ⟨fs, b⟩) steps)
    (ht : s.world.broker.topics[name]? = some topic) (fromOffset maxBytes : ℤ)
    (P : List Record → Prop) :
    World.InPlace (s.world.stored json name) ∧
      ((∃ recs, Loop.Returns (s.world.fetch json name fromOffset maxBytes) (recs, none) ∧ P recs) ↔
        P (reads ((s.world.stored json name).map StoredRecord.record) fromOffset
          (World.fetchLimit maxBytes).toNat)) := by
  obtain ⟨disk, hrep⟩ := Sys.exists_represents hb hfs hrun hown
  have hreturns := World.fetch_returns (hrep.consume_one hjson ht) fromOffset maxBytes
  refine ⟨hrep.inPlace_stored hjson ht, ?_, fun hP => ⟨_, hreturns, hP⟩⟩
  rintro ⟨recs, hrecs, hP⟩
  rwa [← (Prod.mk.inj (hrecs.unique hreturns)).1]

/-- `Fetch` returns a run of the log. In every state that a server reaches, over any restarts and
any interleaving of calls that create their topics in directories of their own, it does so if and
only if it does not read the first record twice and the offsets in the records rise. -/
theorem fetch_isRun_iff (hjson : json.Decodes f) (hb : newBroker true dir = .ok b)
    (hfs : ∀ name, ∀ p ∈ files (b.segmentDir name), fs p = none)
    (hrun : exec (Sys.live json) (.init ⟨fs, b⟩) steps = some s)
    (hown : Guarded (Sys.live json) Sys.LiveOwnDirs (.init ⟨fs, b⟩) steps)
    (ht : s.world.broker.topics[name]? = some topic) (fromOffset maxBytes : ℤ) :
    (∃ recs, Loop.Returns (s.world.fetch json name fromOffset maxBytes) (recs, none) ∧
      World.IsRun (s.world.stored json name) fromOffset recs) ↔
    (0 ≤ fromOffset ∨ s.world.stored json name = [] ∨ maxBytes = 1) ∧
      ((((s.world.stored json name).dropWhile fun e => e.offset < fromOffset).take
        (World.fetchLimit maxBytes).toNat).map fun e => e.record.offset).Pairwise (· < ·) := by
  obtain ⟨hplaced, hfetch⟩ := exists_fetch_iff fs dir hjson hb hfs hrun hown ht fromOffset maxBytes
    (World.IsRun (s.world.stored json name) fromOffset)
  have hlimit := World.fetchLimit_pos maxBytes
  have hone : (World.fetchLimit maxBytes).toNat = 1 ↔ maxBytes = 1 := by
    rw [World.fetchLimit] at hlimit ⊢
    split <;> omega
  rw [hfetch, World.isRun_reads_iff hplaced (by omega), hone]

/-- A topic with two records. -/
def LifeStep.sampleTwo : List LifeStep :=
  [.act (.createTopic none "t"), .sampleProduce .ok, .sampleProduce .ok]

theorem exists_exec_sampleTwo :
    ∃ s, exec (Sys.live sampleJson) (.init ⟨fun _ => none, .fresh ⟨true, ["d"]⟩⟩)
        LifeStep.sampleTwo = some s ∧
      (s.world.broker.topics["t"]?).isSome = true ∧
      s.world.stored sampleJson "t" = [⟨0, 75, sampleRecord 0⟩, ⟨1, 75, sampleRecord 1⟩] :=
  exists_exec_of_any (by decide +kernel)

theorem guarded_sampleTwo :
    Guarded (Sys.live sampleJson) Sys.LiveOwnDirs
      (.init ⟨fun _ => none, .fresh ⟨true, ["d"]⟩⟩) LifeStep.sampleTwo := by
  decide +kernel

theorem fetch_isRun_sample :
    ∃ s, exec (Sys.live sampleJson) (.init ⟨fun _ => none, .fresh ⟨true, ["d"]⟩⟩)
        LifeStep.sampleTwo = some s ∧
      ∃ recs, Loop.Returns (s.world.fetch sampleJson "t" 0 10) (recs, none) ∧
        World.IsRun (s.world.stored sampleJson "t") 0 recs := by
  obtain ⟨s, hrun, htopic, hstored⟩ := exists_exec_sampleTwo
  obtain ⟨topic, ht⟩ := Option.isSome_iff_exists.mp htopic
  refine ⟨s, hrun, (fetch_isRun_iff (fun _ => none) ⟨true, ["d"]⟩ sampleJson_faithful rfl
    (fun _ _ _ => rfl) hrun guarded_sampleTwo ht 0 10).mpr ⟨Or.inl le_rfl, ?_⟩⟩
  rw [hstored]
  decide

/-- From offset -1 the first record is returned twice. -/
theorem fetch_twice :
    ∃ s, exec (Sys.live sampleJson) (.init ⟨fun _ => none, .fresh ⟨true, ["d"]⟩⟩)
        [.act (.createTopic none "t"), .sampleProduce .ok] = some s ∧
      Loop.Returns (s.world.fetch sampleJson "t" (-1) 10)
        ([sampleRecord 0, sampleRecord 0], none) ∧
      ¬ World.IsRun (s.world.stored sampleJson "t") (-1) [sampleRecord 0, sampleRecord 0] := by
  obtain ⟨s, hrun, hfetch⟩ : ∃ s, exec (Sys.live sampleJson)
        (.init ⟨fun _ => none, .fresh ⟨true, ["d"]⟩⟩)
        [.act (.createTopic none "t"), .sampleProduce .ok] = some s ∧
      s.world.fetch sampleJson "t" (-1) 10 3 = some ([sampleRecord 0, sampleRecord 0], none) :=
    exists_exec_of_any (by decide +kernel)
  refine ⟨s, hrun, Loop.returns_of_run hfetch, fun hisRun => ?_⟩
  exact absurd hisRun.rising (by decide)

/-- `Fetch` keeps to its budget. In every state that a server reaches it does so if and only if the
records at `maxBytes` offsets, without the last one, have payloads of fewer than `maxBytes` bytes:
the limit counts records. -/
theorem fetch_withinBudget_iff (hjson : json.Decodes f) (hb : newBroker true dir = .ok b)
    (hfs : ∀ name, ∀ p ∈ files (b.segmentDir name), fs p = none)
    (hrun : exec (Sys.live json) (.init ⟨fs, b⟩) steps = some s)
    (hown : Guarded (Sys.live json) Sys.LiveOwnDirs (.init ⟨fs, b⟩) steps)
    (ht : s.world.broker.topics[name]? = some topic) (fromOffset : ℤ) {maxBytes : ℤ}
    (hmax : 0 < maxBytes) :
    (∃ recs, Loop.Returns (s.world.fetch json name fromOffset maxBytes) (recs, none) ∧
      World.WithinBudget (s.world.stored json name) fromOffset maxBytes recs) ↔
    (((List.range maxBytes.toNat).filterMap fun k : ℕ => (s.world.stored json name).find? fun e =>
      fromOffset + k ≤ e.offset).dropLast.map StoredRecord.size).sum < maxBytes := by
  obtain ⟨hplaced, hfetch⟩ := exists_fetch_iff fs dir hjson hb hfs hrun hown ht fromOffset maxBytes
    (World.WithinBudget (s.world.stored json name) fromOffset maxBytes)
  have hlimit : World.fetchLimit maxBytes = maxBytes := if_neg (by omega)
  simp only [hplaced.find?_eq]
  rw [hfetch, hlimit, World.withinBudget_reads_iff hplaced, reads]

/-- A budget for the first record. -/
theorem fetch_withinBudget_sample :
    ∃ s, exec (Sys.live sampleJson) (.init ⟨fun _ => none, .fresh ⟨true, ["d"]⟩⟩)
        LifeStep.sampleTwo = some s ∧
      ∃ recs, Loop.Returns (s.world.fetch sampleJson "t" 0 100) (recs, none) ∧
        World.WithinBudget (s.world.stored sampleJson "t") 0 100 recs := by
  obtain ⟨s, hrun, htopic, hstored⟩ := exists_exec_sampleTwo
  obtain ⟨topic, ht⟩ := Option.isSome_iff_exists.mp htopic
  refine ⟨s, hrun, (fetch_withinBudget_iff (fun _ => none) ⟨true, ["d"]⟩ sampleJson_faithful rfl
    (fun _ _ _ => rfl) hrun guarded_sampleTwo ht 0 (by decide)).mpr ?_⟩
  rw [hstored]
  decide +kernel

/-- Two records of 75 bytes for a budget of ten. -/
theorem fetch_over_budget :
    ∃ s, exec (Sys.live sampleJson) (.init ⟨fun _ => none, .fresh ⟨true, ["d"]⟩⟩)
        LifeStep.sampleTwo = some s ∧
      Loop.Returns (s.world.fetch sampleJson "t" 0 10)
        ([sampleRecord 0, sampleRecord 1], none) ∧
      ¬ World.WithinBudget (s.world.stored sampleJson "t") 0 10
        [sampleRecord 0, sampleRecord 1] := by
  obtain ⟨s, hrun, htopic, hstored⟩ := exists_exec_sampleTwo
  obtain ⟨topic, ht⟩ := Option.isSome_iff_exists.mp htopic
  obtain ⟨disk, hrep⟩ := Sys.exists_represents (b := .fresh ⟨true, ["d"]⟩) rfl (fun _ _ _ => rfl)
    hrun guarded_sampleTwo
  have hreturns := World.fetch_returns (hrep.consume_one sampleJson_faithful ht) 0 10
  rw [hstored] at hreturns
  refine ⟨s, hrun, hreturns, ?_⟩
  rintro ⟨es, hrecs, hread, hsum⟩
  match es with
  | [e, e'] =>
      have hfirst := hread 0 e rfl
      rw [hstored] at hfirst
      obtain rfl := Option.some.inj hfirst
      exact absurd hsum (by simp)
  | [] | [_] | _ :: _ :: _ :: _ => simp at hrecs

end Reachable

end StreamFlow
