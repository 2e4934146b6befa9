import StreamFlow.Broker.Segment.Basic
import Mathlib.Data.List.Forall2

/-!
# What a segment stores

The abstract content of a segment is a list of records, each with the position
of its frame in the log. `Stores json fs s base stored` says that the segment `s`
over the files `fs` holds exactly these records under the offsets `base`,
`base + 1`, and so on. The relation constrains the log only below
`s.position`: an append that fails half way may leave anything after it.

`append_cases` is the one description of `Append` that later proofs use, and
`readRange_eq` the one description of `ReadRange`.
-/

namespace StreamFlow

open BigEndian ByteFile

/-- Index entries of consecutive offsets from `base` on. -/
def entries (base : ℤ) : List (ℤ × Record) → List (ℤ × ℤ)
  | [] => []
  | (pos, _) :: stored => (base, pos) :: entries (base + 1) stored

@[simp] theorem entries_nil (base : ℤ) : entries base [] = [] := rfl

theorem entries_cons (base : ℤ) (e : ℤ × Record) (stored : List (ℤ × Record)) :
    entries base (e :: stored) = (base, e.1) :: entries (base + 1) stored := rfl

@[simp] theorem length_entries (base : ℤ) (stored : List (ℤ × Record)) :
    (entries base stored).length = stored.length := by
  induction stored generalizing base with
  | nil => rfl
  | cons e stored ih => rw [entries_cons, List.length_cons, List.length_cons, ih]

theorem entries_append (base : ℤ) (stored more : List (ℤ × Record)) :
    entries base (stored ++ more) =
      entries base stored ++ entries (base + stored.length) more := by
  induction stored generalizing base with
  | nil => simp
  | cons e stored ih =>
      have hbase : base + 1 + (stored.length : ℤ) = base + (stored.length + 1 : ℕ) := by
        push_cast
        ring
      rw [List.cons_append, entries_cons, entries_cons, ih, List.cons_append,
        List.length_cons, hbase]

theorem take_entries (base : ℤ) (stored : List (ℤ × Record)) (k : ℕ) :
    (entries base stored).take k = entries base (stored.take k) := by
  induction stored generalizing base k with
  | nil => simp
  | cons e stored ih =>
      cases k with
      | zero => simp
      | succ k => rw [entries_cons, List.take_succ_cons, List.take_succ_cons, entries_cons, ih]

theorem getElem?_entries (base : ℤ) (stored : List (ℤ × Record)) (i : ℕ) :
    (entries base stored)[i]? = stored[i]?.map fun e => (base + i, e.1) := by
  induction stored generalizing base i with
  | nil => simp
  | cons e stored ih =>
      cases i with
      | zero => simp [entries_cons]
      | succ i =>
          have hbase : base + 1 + (i : ℤ) = base + (i + 1 : ℕ) := by
            push_cast
            ring
          rw [entries_cons, List.getElem?_cons_succ, List.getElem?_cons_succ, ih, hbase]

theorem mem_entries_iff {base : ℤ} {stored : List (ℤ × Record)} {o p : ℤ} :
    (o, p) ∈ entries base stored ↔
      ∃ (i : ℕ) (r : Record), stored[i]? = some (p, r) ∧ o = base + i := by
  rw [List.mem_iff_getElem?]
  constructor
  · rintro ⟨i, hi⟩
    rw [getElem?_entries, Option.map_eq_some_iff] at hi
    obtain ⟨⟨p', r⟩, hget, heq⟩ := hi
    obtain ⟨rfl, rfl⟩ := Prod.mk.inj heq
    exact ⟨i, r, hget, rfl⟩
  · rintro ⟨i, r, hget, rfl⟩
    exact ⟨i, by rw [getElem?_entries, hget]; rfl⟩

/-- The keys of the entries are consecutive. -/
theorem map_fst_entries (base : ℤ) (stored : List (ℤ × Record)) :
    (entries base stored).map Prod.fst =
      (List.range stored.length).map fun i : ℕ => base + (i : ℤ) := by
  apply List.ext_getElem?
  intro i
  rw [List.getElem?_map, getElem?_entries, List.getElem?_map, Option.map_map]
  by_cases hi : i < stored.length
  · rw [List.getElem?_range hi, List.getElem?_eq_getElem hi]
    rfl
  · rw [List.getElem?_eq_none (by omega), List.getElem?_eq_none (by simp; omega)]
    rfl

theorem ascending_entries (base : ℤ) (stored : List (ℤ × Record)) :
    OrdMap.Ascending (entries base stored) := by
  induction stored generalizing base with
  | nil => exact List.Pairwise.nil
  | cons e stored ih =>
      refine List.Pairwise.cons ?_ (ih (base + 1))
      rintro ⟨o, p⟩ ho
      obtain ⟨i, r, -, rfl⟩ := mem_entries_iff.mp ho
      rw [Int.compare_eq_lt]
      omega

/-- The log holds the frame of `r` at `pos`, and the frame ends by `bound`. -/
def FrameAt (json : RecordJson) (log : Bytes) (bound pos : ℤ) (r : Record) : Prop :=
  ∃ payload, json.marshal r = some payload ∧ payload.length < 2 ^ 32 ∧ 0 ≤ pos ∧
    pos + 4 + payload.length ≤ bound ∧
    slice log pos 4 = some (putUint32 payload.length) ∧
    slice log (pos + 4) payload.length = some payload

theorem FrameAt.of_keepsBefore {json : RecordJson} {old new : Bytes} {bound bound' pos : ℤ}
    {r : Record} (h : FrameAt json old bound pos r) (hk : KeepsBefore bound old new)
    (hb : bound ≤ bound') : FrameAt json new bound' pos r := by
  obtain ⟨payload, hm, hlen, h0, hend, hsize, hbody⟩ := h
  refine ⟨payload, hm, hlen, h0, hend.trans hb, ?_, ?_⟩
  · rw [hk.slice_eq pos 4 (by push_cast; omega), hsize]
  · rw [hk.slice_eq (pos + 4) _ hend, hbody]

namespace Segment

/-- The three files of a segment lie in its directory under their names. -/
structure InDir (s : Segment) : Prop where
  logPath : s.logPath = s.path.join "segment.log"
  indexPath : s.indexPath = s.path.join "segment.index"
  timeIndex : s.timeIndex = s.path.join "segment.timeindex"

/-- The files of the segment directory `path`. -/
def files (path : SlashPath) : List SlashPath :=
  [path.join "segment.log", path.join "segment.index", path.join "segment.timeindex"]

theorem plain_log : SlashPath.Plain "segment.log" := by decide

theorem plain_index : SlashPath.Plain "segment.index" := by decide

theorem plain_timeIndex : SlashPath.Plain "segment.timeindex" := by decide

theorem InDir.index_ne_log {s : Segment} (h : s.InDir) : s.indexPath ≠ s.logPath := by
  rw [h.logPath, h.indexPath, Ne, SlashPath.join_eq_join_iff plain_index plain_log]
  exact fun hc => absurd hc.2 (by decide)

theorem InDir.time_ne_log {s : Segment} (h : s.InDir) : s.timeIndex ≠ s.logPath := by
  rw [h.logPath, h.timeIndex, Ne, SlashPath.join_eq_join_iff plain_timeIndex plain_log]
  exact fun hc => absurd hc.2 (by decide)

theorem InDir.time_ne_index {s : Segment} (h : s.InDir) : s.timeIndex ≠ s.indexPath := by
  rw [h.indexPath, h.timeIndex, Ne, SlashPath.join_eq_join_iff plain_timeIndex plain_index]
  exact fun hc => absurd hc.2 (by decide)

/-- The segment holds the records `stored`, under consecutive offsets from
`base` on. -/
structure Stores (json : RecordJson) (fs : FileTree) (s : Segment) (base : ℤ)
    (stored : List (ℤ × Record)) : Prop where
  inDir : s.InDir
  offsets : s.offsets.toList = entries base stored
  next : s.nextOffset = base + stored.length
  frames : ∀ e ∈ stored, FrameAt json (fs.contents s.logPath) s.position e.1 e.2
  count_le : 4 * (stored.length : ℤ) ≤ s.position
  position_le : s.position ≤ (fs.contents s.logPath).length
  size_le : (fs.contents s.logPath).length ≤ maxSize

variable {json : RecordJson} {fs : FileTree} {s : Segment} {base : ℤ}
  {stored : List (ℤ × Record)}

theorem Stores.position_nonneg (h : s.Stores json fs base stored) : 0 ≤ s.position := by
  have := h.count_le
  omega

/-- A look-up in the in-memory index. -/
theorem Stores.getElem?_offsets_iff (h : s.Stores json fs base stored) {o p : ℤ} :
    s.offsets[o]? = some p ↔ ∃ (i : ℕ) (r : Record), stored[i]? = some (p, r) ∧ o = base + i := by
  rw [← OrdMap.mem_toList_iff, h.offsets, mem_entries_iff]

theorem Stores.getElem?_offsets (h : s.Stores json fs base stored) {i : ℕ} {e : ℤ × Record}
    (he : stored[i]? = some e) : s.offsets[base + (i : ℤ)]? = some e.1 :=
  h.getElem?_offsets_iff.mpr ⟨i, e.2, he, rfl⟩

/-- The relation only reads the log file, and only below the position. -/
theorem Stores.of_keepsBefore (h : s.Stores json fs base stored) {fs' : FileTree}
    (hk : KeepsBefore s.position (fs.contents s.logPath) (fs'.contents s.logPath)) :
    s.Stores json fs' base stored where
  inDir := h.inDir
  offsets := h.offsets
  next := h.next
  frames := fun e he => (h.frames e he).of_keepsBefore hk le_rfl
  count_le := h.count_le
  position_le := hk.le_length
  size_le := hk.length_le

/-- What the two writes to the log may do: nothing before the position is
touched, and on success the frame of the record starts there. -/
structure WroteFrame (json : RecordJson) (s : Segment) (record : Record) (fs fs' : FileTree)
    (res : Except BrokerError ℤ) : Prop where
  eqOff : FileTree.EqOff [s.logPath] fs fs'
  keeps : KeepsBefore s.position (fs.contents s.logPath) (fs'.contents s.logPath)
  frame : ∀ length, res = .ok length → 0 ≤ length ∧
    ((fs'.contents s.logPath).length : ℤ) =
      max ↑(fs.contents s.logPath).length (s.position + (4 + length)) ∧
    FrameAt json (fs'.contents s.logPath) (s.position + (4 + length)) s.position record

theorem writeFrame_spec {io : AppendIO} {record : Record} {fs' : FileTree}
    {res : Except BrokerError ℤ} (h : s.writeFrame json io fs record = (fs', res))
    (h0 : 0 ≤ s.position) (hle : s.position ≤ (fs.contents s.logPath).length)
    (hmax : (fs.contents s.logPath).length ≤ maxSize) :
    s.WroteFrame json record fs fs' res := by
  have hstay : ∀ e, (fs, Except.error e) = (fs', res) → s.WroteFrame json record fs fs' res := by
    rintro e heq
    obtain ⟨rfl, rfl⟩ := Prod.mk.inj heq
    exact ⟨FileTree.EqOff.refl _ _, KeepsBefore.refl hle hmax, fun _ hc => by cases hc⟩
  unfold writeFrame at h
  split at h
  · exact hstay _ h
  · next payload hm =>
      dsimp only at h
      split at h
      · exact hstay _ h
      · next hsize =>
          split at h
          · next fs₁ hw₁ =>
              obtain ⟨rfl, rfl⟩ := Prod.mk.inj h
              obtain ⟨hoff₁, hkeep₁, -⟩ := FileTree.writeAt_spec hw₁ h0 le_rfl hle hmax
              exact ⟨hoff₁, hkeep₁, fun _ hc => by cases hc⟩
          · next fs₁ hw₁ =>
              obtain ⟨hoff₁, hkeep₁, hok₁⟩ := FileTree.writeAt_spec hw₁ h0 le_rfl hle hmax
              obtain ⟨hlen₁, hprefix⟩ := hok₁ rfl
              rw [length_putUint32] at hlen₁ hprefix
              -- the length prefix is whole, so the payload starts inside the file
              split at h
              · next fs₂ hw₂ =>
                  obtain ⟨rfl, rfl⟩ := Prod.mk.inj h
                  obtain ⟨hoff₂, hkeep₂, -⟩ := FileTree.writeAt_spec hw₂
                    (by omega) (by omega : s.position ≤ s.position + 4) (by omega)
                    hkeep₁.length_le
                  exact ⟨hoff₁.trans hoff₂, hkeep₁.trans hkeep₂, fun _ hc => by cases hc⟩
              · next fs₂ hw₂ =>
                  obtain ⟨rfl, rfl⟩ := Prod.mk.inj h
                  obtain ⟨hoff₂, hkeep₂, hok₂⟩ := FileTree.writeAt_spec hw₂ (by omega)
                    le_rfl (by omega) hkeep₁.length_le
                  obtain ⟨hlen₂, hbody⟩ := hok₂ rfl
                  refine ⟨hoff₁.trans hoff₂, hkeep₁.trans (hkeep₂.mono (by omega)), ?_⟩
                  intro length hlength
                  obtain rfl := Except.ok.inj hlength
                  refine ⟨by omega, by omega, payload, hm, by omega, h0, by omega, ?_, hbody⟩
                  rw [hkeep₂.slice_eq s.position 4 (by push_cast; omega), hprefix]

/-- What `persistIndexes` may do: the index file is written first, and the time
index only after it. -/
theorem persistIndexes_spec {io : AppendIO} {fs' : FileTree} {ok : Bool}
    (h : s.persistIndexes io fs = (fs', ok)) (hs : s.InDir) :
    FileTree.EqOff [s.indexPath, s.timeIndex] fs fs' ∧
      fs' s.indexPath = (ByteFile.writeFile (fs s.indexPath) (indexBuf s.offsets) io.index).1 ∧
      (ok = true ↔ io.index = .done ∧ io.timeIndex = .done) ∧
      (ok = true → fs' s.timeIndex = some (timeBuf s.timeOffsets)) := by
  unfold persistIndexes at h
  rw [FileTree.writeFile_eq] at h
  by_cases hi : io.index = .done
  · rw [hi, decide_eq_true rfl] at h
    dsimp only at h
    rw [FileTree.writeFile_eq] at h
    obtain ⟨rfl, rfl⟩ := Prod.mk.inj h
    refine ⟨(FileTree.eqOff_set fs _ (by simp)).trans (FileTree.eqOff_set _ _ (by simp)),
      ?_, by simp [hi], ?_⟩
    · rw [FileTree.set_of_ne _ _ hs.time_ne_index.symm, FileTree.set_self, hi]
    · intro hok
      rw [FileTree.set_self, of_decide_eq_true hok]
      rfl
  · rw [decide_eq_false hi] at h
    obtain ⟨rfl, rfl⟩ := Prod.mk.inj h
    refine ⟨FileTree.eqOff_set fs _ (by simp), FileTree.set_self fs _ _, by simp [hi], ?_⟩
    intro hok
    cases hok

/-- The update of `Append` stores the record under the next offset. -/
theorem Stores.advance (h : s.Stores json fs base stored) {record : Record} {length : ℤ}
    {fs' : FileTree} (hw : s.WroteFrame json record fs fs' (.ok length)) :
    (s.advance record length).Stores json fs' base (stored ++ [(s.position, record)]) := by
  obtain ⟨h0, hlen, hframe⟩ := hw.frame length rfl
  have hnext : ∀ e ∈ s.offsets.toList, compare e.1 s.nextOffset = .lt := by
    rintro ⟨o, p⟩ he
    rw [h.offsets, mem_entries_iff] at he
    obtain ⟨i, r, hget, rfl⟩ := he
    have hi : i < stored.length := (List.getElem?_eq_some_iff.mp hget).1
    rw [h.next, Int.compare_eq_lt]
    omega
  refine ⟨⟨h.inDir.logPath, h.inDir.indexPath, h.inDir.timeIndex⟩, ?_, ?_, ?_, ?_,
    hlen ▸ le_max_right _ _, hw.keeps.length_le⟩
  · change (s.offsets.insert s.nextOffset s.position).toList = _
    rw [OrdMap.toList_insert_of_forall_lt _ _ hnext, h.offsets, entries_append, ← h.next]
    rfl
  · change s.nextOffset + 1 = _
    rw [h.next, List.length_append, List.length_singleton]
    push_cast
    ring
  · intro e he
    have hle : s.position ≤ s.position + (4 + length) := by omega
    rcases List.mem_append.mp he with hold | hnew
    · exact (h.frames e hold).of_keepsBefore hw.keeps hle
    · obtain rfl := List.mem_singleton.mp hnew
      exact hframe
  · change 4 * (((stored ++ [(s.position, record)]).length : ℕ) : ℤ) ≤ s.position + (4 + length)
    have hcount := h.count_le
    rw [List.length_append, List.length_singleton]
    push_cast
    omega

/-- What an append leaves when it has written its frame and goes on to the index
files; `ok` tells whether it wrote both. -/
structure WroteRecord (json : RecordJson) (s : Segment) (record : Record) (io : AppendIO)
    (base : ℤ) (stored : List (ℤ × Record)) (s' : Segment) (fs fs' : FileTree) (ok : Bool) :
    Prop where
  eqOff : FileTree.EqOff [s.logPath, s.indexPath, s.timeIndex] fs fs'
  stores : s'.Stores json fs' base (stored ++ [(s.position, record)])
  length_log : ((fs'.contents s.logPath).length : ℤ) =
    max ↑(fs.contents s.logPath).length s'.position
  index : fs' s.indexPath =
    (ByteFile.writeFile (fs s.indexPath) (indexBuf s'.offsets) io.index).1
  ok_iff : ok = true ↔ io.index = .done ∧ io.timeIndex = .done
  time : ok = true → fs' s.timeIndex = some (timeBuf s'.timeOffsets)

theorem Stores.persistIndexes (hs : s.Stores json fs base stored) {record : Record} {length : ℤ}
    {io : AppendIO} {fs₁ fs' : FileTree} {ok : Bool}
    (hw : s.WroteFrame json record fs fs₁ (.ok length))
    (hp : (s.advance record length).persistIndexes io fs₁ = (fs', ok)) :
    s.WroteRecord json record io base stored (s.advance record length) fs fs' ok := by
  have hstores := hs.advance hw
  obtain ⟨hoff, hidx, hok, htime⟩ := persistIndexes_spec hp hstores.inDir
  have hlog : fs'.contents s.logPath = fs₁.contents s.logPath := by
    apply hoff.contents_eq
    simp only [List.mem_cons, List.not_mem_nil, or_false, not_or]
    exact ⟨hs.inDir.index_ne_log.symm, hs.inDir.time_ne_log.symm⟩
  refine ⟨fun q hq => ?_, hstores.of_keepsBefore ?_, ?_, ?_, hok, htime⟩
  · simp only [List.mem_cons, List.not_mem_nil, or_false, not_or] at hq
    have hq₁ : q ∉ [(s.advance record length).indexPath,
        (s.advance record length).timeIndex] := by
      simp only [List.mem_cons, List.not_mem_nil, or_false, not_or]
      exact hq.2
    rw [hoff q hq₁, hw.eqOff q (by simpa using hq.1)]
  · change KeepsBefore _ (fs₁.contents s.logPath) (fs'.contents s.logPath)
    rw [hlog]
    exact KeepsBefore.refl hstores.position_le hstores.size_le
  · rw [hlog]
    exact (hw.frame length rfl).2.1
  · have hsame : fs₁ s.indexPath = fs s.indexPath :=
      hw.eqOff _ (by simpa using hs.inDir.index_ne_log)
    rw [← hsame]
    exact hidx

/-- Everything an `Append` can do. Either it fails before the segment has changed,
with at most the log beyond the position overwritten; or the record is stored,
and the call succeeds exactly when both index files were written. -/
theorem append_cases {io : AppendIO} {record : Record} {fs' : FileTree} {s' : Segment}
    {res : Except BrokerError ℤ} (h : s.append json io fs record = (fs', s', res))
    (hs : s.Stores json fs base stored) :
    FileTree.EqOff [s.logPath, s.indexPath, s.timeIndex] fs fs' ∧
      ((∃ e, (s.writeFrame json io fs record).2 = .error e ∧ res = .error e ∧ s' = s ∧
          s.Stores json fs' base stored ∧
          fs' s.indexPath = fs s.indexPath ∧ fs' s.timeIndex = fs s.timeIndex) ∨
        ∃ length, (s.writeFrame json io fs record).2 = .ok length ∧ s' = s.advance record length ∧
          s'.Stores json fs' base (stored ++ [(s.position, record)]) ∧
          ((fs'.contents s.logPath).length : ℤ) =
            max ↑(fs.contents s.logPath).length s'.position ∧
          fs' s.indexPath =
            (ByteFile.writeFile (fs s.indexPath) (indexBuf s'.offsets) io.index).1 ∧
          (res = .ok s.nextOffset ∧ io.index = .done ∧ io.timeIndex = .done ∧
              fs' s.timeIndex = some (timeBuf s'.timeOffsets) ∨
            res = .error .persistIndex ∧ ¬ (io.index = .done ∧ io.timeIndex = .done))) := by
  unfold append at h
  split at h
  · next fs₁ e hw =>
      obtain ⟨rfl, hrest⟩ := Prod.mk.inj h
      obtain ⟨rfl, rfl⟩ := Prod.mk.inj hrest
      have hwrote := writeFrame_spec hw hs.position_nonneg hs.position_le hs.size_le
      refine ⟨fun q hq => hwrote.eqOff q (by simp at hq ⊢; exact hq.1), Or.inl ⟨e, by rw [hw],
        rfl, rfl, hs.of_keepsBefore hwrote.keeps, ?_, ?_⟩⟩
      · exact hwrote.eqOff _ (by simpa using hs.inDir.index_ne_log)
      · exact hwrote.eqOff _ (by simpa using hs.inDir.time_ne_log)
  · next fs₁ length hw =>
      have hwrote := writeFrame_spec hw hs.position_nonneg hs.position_le hs.size_le
      dsimp only at h
      split at h
      · next fs₂ hp =>
          obtain ⟨rfl, hrest⟩ := Prod.mk.inj h
          obtain ⟨rfl, rfl⟩ := Prod.mk.inj hrest
          have hrec := hs.persistIndexes hwrote hp
          exact ⟨hrec.eqOff, Or.inr ⟨length, by rw [hw], rfl, hrec.stores, hrec.length_log,
            hrec.index, Or.inr ⟨rfl, fun hc => Bool.false_ne_true (hrec.ok_iff.mpr hc)⟩⟩⟩
      · next fs₂ hp =>
          obtain ⟨rfl, hrest⟩ := Prod.mk.inj h
          obtain ⟨rfl, rfl⟩ := Prod.mk.inj hrest
          have hrec := hs.persistIndexes hwrote hp
          obtain ⟨hi, ht⟩ := hrec.ok_iff.mp rfl
          exact ⟨hrec.eqOff, Or.inr ⟨length, by rw [hw], rfl, hrec.stores, hrec.length_log,
            hrec.index, Or.inl ⟨rfl, hi, ht, hrec.time rfl⟩⟩⟩

end Segment

end StreamFlow
