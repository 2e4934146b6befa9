import Mathlib.Data.List.Infix
import StreamFlow.Broker.Segment.Read
import StreamFlow.Broker.Sample

/-!
# Reopening a segment

`newSegment` rebuilds the in-memory index from the two index files and takes the
size of the log as the position. `newSegment_none` is its closed form when no
file operation fails. `OnDisk json fs path base stored` describes the files of a
segment directory that no process has open: the log holds the frames of
`stored`, and the whole entries of the index file are those of the first of them.
Opening such a directory gives a segment that stores exactly these records.

After appends that all succeeded the index is complete, and
`newSegment_appendAll` shows that reopening gives back the very same segment.
-/

namespace StreamFlow

open BigEndian ByteFile

namespace Segment

/-- The counter update of the loading loop. -/
def nextAfter (n : ℤ) (e : ℤ × ℤ) : ℤ := if n ≤ e.1 then e.1 + 1 else n

theorem foldl_loadEntry (l : List (ℤ × ℤ)) (s : Segment) :
    l.foldl loadEntry s =
      { s with
        offsets := OrdMap.insertAll s.offsets l
        nextOffset := l.foldl nextAfter s.nextOffset } := by
  induction l generalizing s with
  | nil => rfl
  | cons e l ih => rw [List.foldl_cons, ih]; rfl

theorem foldl_loadTimeEntry (l : List (ℤ × ℤ)) (s : Segment) :
    l.foldl loadTimeEntry s = { s with timeOffsets := OrdMap.insertAll s.timeOffsets l } := by
  induction l generalizing s with
  | nil => rfl
  | cons e l ih => rw [List.foldl_cons, ih]; rfl

theorem le_foldl_nextAfter (l : List (ℤ × ℤ)) (n : ℤ) : n ≤ l.foldl nextAfter n := by
  induction l generalizing n with
  | nil => exact le_rfl
  | cons e l ih =>
      have hstep : n ≤ nextAfter n e := by
        unfold nextAfter
        split <;> omega
      exact hstep.trans (ih (nextAfter n e))

theorem lt_foldl_nextAfter {l : List (ℤ × ℤ)} {e : ℤ × ℤ} (he : e ∈ l) (n : ℤ) :
    e.1 < l.foldl nextAfter n := by
  induction l generalizing n with
  | nil => cases he
  | cons e' l ih =>
      rcases List.mem_cons.mp he with rfl | hmem
      · have hstep : e.1 < nextAfter n e := by
          unfold nextAfter
          split <;> omega
        exact hstep.trans_le (le_foldl_nextAfter l _)
      · exact ih hmem _

/-- The counter after loading consecutive entries. -/
theorem foldl_nextAfter_entries (start base : ℤ) (stored : List (ℤ × Record)) :
    (entries base stored).foldl nextAfter start =
      if stored = [] then start else max start (base + stored.length) := by
  induction stored generalizing start base with
  | nil => rfl
  | cons e stored ih =>
      have hstep : nextAfter start (base, e.1) = max start (base + 1) := by
        unfold nextAfter
        split <;> omega
      rw [entries_cons, List.foldl_cons, ih, hstep, if_neg (List.cons_ne_nil e stored),
        List.length_cons]
      split
      · next hnil =>
          rw [hnil]
          simp
      · push_cast
        omega

/-- The segment `newSegment` builds from the files of its directory. -/
def opened (fs : FileTree) (path : SlashPath) (startOffset : ℤ) : Segment :=
  { path := path
    logPath := path.join "segment.log"
    indexPath := path.join "segment.index"
    timeIndex := path.join "segment.timeindex"
    position := (fs.contents (path.join "segment.log")).length
    nextOffset := (entriesOf (fs.contents (path.join "segment.index"))).foldl nextAfter startOffset
    offsets := OrdMap.insertAll ∅ (entriesOf (fs.contents (path.join "segment.index")))
    timeOffsets := OrdMap.insertAll ∅ (entriesOf (fs.contents (path.join "segment.timeindex"))) }

theorem opened_inDir (fs : FileTree) (path : SlashPath) (startOffset : ℤ) :
    (opened fs path startOffset).InDir := ⟨rfl, rfl, rfl⟩

end Segment

open Segment

/-- Creating the log and the index does not touch the time index. -/
theorem create_timeIndex (fs : FileTree) (path : SlashPath) :
    ((fs.create (path.join "segment.log")).create (path.join "segment.index"))
      (path.join "segment.timeindex") = fs (path.join "segment.timeindex") := by
  have hdir := opened_inDir fs path 0
  exact (FileTree.create_of_ne _ hdir.time_ne_index).trans
    (FileTree.create_of_ne _ hdir.time_ne_log)

/-- When no file operation fails, `newSegment` creates the missing files and
loads what the directory holds. -/
theorem newSegment_none (fs : FileTree) (path : SlashPath) (startOffset : ℤ) :
    newSegment none fs path startOffset =
      ((fs.create (path.join "segment.log")).create (path.join "segment.index"),
        .ok (opened fs path startOffset)) := by
  have hnext := le_foldl_nextAfter
    (entriesOf (fs.contents (path.join "segment.index"))) startOffset
  unfold newSegment loadIndexes
  simp only [reduceCtorEq, if_false, FileTree.contents_create, foldl_loadEntry,
    foldl_loadTimeEntry, create_timeIndex]
  cases ht : fs (path.join "segment.timeindex") with
  | none =>
      have hempty : fs.contents (path.join "segment.timeindex") = [] := by
        rw [FileTree.contents, ht, Option.getD_none]
      dsimp only
      rw [if_neg (not_lt.mpr hnext), opened, hempty]
      rfl
  | some timeData =>
      have hdata : fs.contents (path.join "segment.timeindex") = timeData := by
        rw [FileTree.contents, ht, Option.getD_some]
      dsimp only
      rw [if_neg (not_lt.mpr hnext), opened, hdata]

/-- The files of a segment directory: a log with the frames of `stored`, and an
index file whose whole entries are those of the first records. -/
structure OnDisk (json : RecordJson) (fs : FileTree) (path : SlashPath) (base : ℤ)
    (stored : List (ℤ × Record)) : Prop where
  frames : ∀ e ∈ stored, FrameAt json (fs.contents (path.join "segment.log"))
    (fs.contents (path.join "segment.log")).length e.1 e.2
  count_le : 4 * (stored.length : ℤ) ≤ (fs.contents (path.join "segment.log")).length
  size_le : (fs.contents (path.join "segment.log")).length ≤ maxSize
  index : entriesOf (fs.contents (path.join "segment.index")) <+: entries base stored

/-- Opening a directory stores the records whose index entries are whole. -/
theorem OnDisk.opened_stores {json : RecordJson} {fs fs' : FileTree} {path : SlashPath} {base : ℤ}
    {stored : List (ℤ × Record)} (h : OnDisk json fs path base stored)
    (hfs : fs'.contents (path.join "segment.log") = fs.contents (path.join "segment.log")) :
    (opened fs path base).Stores json fs' base
      (stored.take ((fs.contents (path.join "segment.index")).length / 16)) := by
  have hentries := List.prefix_iff_eq_take.mp h.index
  rw [length_entriesOf, take_entries] at hentries
  generalize (fs.contents (path.join "segment.index")).length / 16 = k at hentries ⊢
  refine ⟨opened_inDir fs path base, ?_, ?_, ?_, ?_, ?_, ?_⟩
  · change (OrdMap.insertAll ∅ (entriesOf _)).toList = _
    rw [hentries, OrdMap.toList_insertAll_empty (ascending_entries base _)]
  · change (entriesOf _).foldl nextAfter base = _
    rw [hentries, foldl_nextAfter_entries]
    split
    · next hnil => simp [hnil]
    · omega
  · intro e he
    change FrameAt json (fs'.contents (path.join "segment.log")) _ e.1 e.2
    rw [hfs]
    exact h.frames e (List.mem_of_mem_take he)
  · have hcount := h.count_le
    have hlen : (stored.take k).length ≤ stored.length := by simp
    change 4 * ((stored.take k).length : ℤ) ≤ ((fs.contents (path.join "segment.log")).length : ℤ)
    omega
  · change _ ≤ ((fs'.contents (path.join "segment.log")).length : ℤ)
    rw [hfs]
    exact le_rfl
  · change ((fs'.contents (path.join "segment.log")).length : ℤ) ≤ maxSize
    rw [hfs]
    exact h.size_le

/-- Positions and offsets of stored records fit into 64 bits. -/
theorem Segment.Stores.int64Range {json : RecordJson} {fs : FileTree} {s : Segment} {base : ℤ}
    {stored : List (ℤ × Record)} (h : s.Stores json fs base stored) (h0 : 0 ≤ base)
    (hbase : base + stored.length ≤ 2 ^ 63) :
    ∀ e ∈ entries base stored, Int64Range e.1 ∧ Int64Range e.2 := by
  rintro ⟨o, p⟩ he
  obtain ⟨i, r, hget, rfl⟩ := mem_entries_iff.mp he
  have hi : i < stored.length := (List.getElem?_eq_some_iff.mp hget).1
  obtain ⟨payload, -, -, hp0, hend, -⟩ := h.frames (p, r) (List.mem_of_getElem? hget)
  have hpos := h.position_le
  have hmax := h.size_le
  unfold maxSize at hmax
  unfold Int64Range
  dsimp only at hp0 hend ⊢
  omega

/-- In a segment that starts at offset 0 this always holds, since every record
takes at least four bytes of the log. -/
theorem Segment.Stores.int64Range_zero {json : RecordJson} {fs : FileTree} {s : Segment}
    {stored : List (ℤ × Record)} (h : s.Stores json fs 0 stored) :
    ∀ e ∈ entries 0 stored, Int64Range e.1 ∧ Int64Range e.2 := by
  have hcount := h.count_le
  have hpos := h.position_le
  have hmax := h.size_le
  unfold maxSize at hmax
  exact h.int64Range le_rfl (by omega)

/-- Replacing an index file, whatever its outcome, leaves whole entries of the new
index only, when the old file had no others. -/
theorem entriesOf_writeFile {l : List (ℤ × ℤ)} (hl : ∀ e ∈ l, Int64Range e.1 ∧ Int64Range e.2)
    {old : Option Bytes} (hold : entriesOf (old.getD []) <+: l) (o : ReplaceOutcome) :
    entriesOf ((ByteFile.writeFile old (encodePairs l) o).1.getD []) <+: l := by
  cases o with
  | done =>
      change entriesOf (encodePairs l) <+: l
      rw [entriesOf_encodePairs hl]
  | notOpened => exact hold
  | failed n =>
      change entriesOf ((encodePairs l).take n) <+: l
      rw [entriesOf_take_encodePairs hl]
      exact List.take_prefix _ _

/-- A segment from offset 0 on whose index file can be trusted: its whole entries
are those of the first records. -/
structure Segment.Sound (json : RecordJson) (fs : FileTree) (s : Segment)
    (stored : List (ℤ × Record)) : Prop extends Stores json fs s 0 stored where
  index : entriesOf (fs.contents s.indexPath) <+: entries 0 stored

namespace Segment.Sound

variable {json : RecordJson} {fs : FileTree} {s : Segment} {stored : List (ℤ × Record)}

/-- The files of a sound segment, whether or not a process has it open. -/
theorem onDisk (h : s.Sound json fs stored) : OnDisk json fs s.path 0 stored := by
  have hpos := h.position_le
  refine ⟨?_, ?_, ?_, ?_⟩
  · intro e he
    rw [← h.inDir.logPath]
    exact (h.frames e he).of_keepsBefore (KeepsBefore.refl hpos h.size_le) hpos
  · rw [← h.inDir.logPath]
    exact h.count_le.trans hpos
  · rw [← h.inDir.logPath]
    exact h.size_le
  · rw [← h.inDir.indexPath]
    exact h.index

/-- An append keeps a segment sound, however its file writes end. -/
theorem append (h : s.Sound json fs stored) {io : AppendIO} {record : Record} {fs' : FileTree}
    {s' : Segment} {res : Except BrokerError ℤ}
    (happ : s.append json io fs record = (fs', s', res)) :
    (∃ e, (s.writeFrame json io fs record).2 = .error e ∧ res = .error e ∧ s' = s ∧
        s.Sound json fs' stored ∧ fs'.contents s.indexPath = fs.contents s.indexPath) ∨
      ((s.writeFrame json io fs record).2.isOk = true ∧ s'.path = s.path ∧
        s'.Sound json fs' (stored ++ [(s.position, record)]) ∧
        (res = .ok (stored.length : ℤ) ∧ io.index = .done ∧ io.timeIndex = .done ∨
          res = .error .persistIndex ∧ ¬ (io.index = .done ∧ io.timeIndex = .done)) ∧
        (io.index = .done →
          (fs'.contents s.indexPath).length = 16 * (stored.length + 1))) := by
  obtain ⟨-, ⟨e, hw, hres, hs', hstores, hidx, -⟩ | ⟨length, hw, rfl, hstores, -, hidx, hres⟩⟩ :=
    append_cases happ h.toStores
  · have hsame : fs'.contents s.indexPath = fs.contents s.indexPath := by
      rw [FileTree.contents, hidx, FileTree.contents]
    exact Or.inl ⟨e, hw, hres, hs', ⟨hstores, by rw [hsame]; exact h.index⟩, hsame⟩
  · rw [indexBuf_eq, hstores.offsets] at hidx
    refine Or.inr ⟨by rw [hw]; rfl, rfl, ⟨hstores, ?_⟩, ?_, ?_⟩
    · change entriesOf (fs'.contents s.indexPath) <+: _
      rw [FileTree.contents, hidx]
      apply entriesOf_writeFile hstores.int64Range_zero
      refine h.index.trans ?_
      rw [entries_append]
      exact List.prefix_append _ _
    · have hnext := h.next
      rcases hres with ⟨hok, hi, ht, -⟩ | herr
      · exact Or.inl ⟨by rw [hok, hnext, zero_add], hi, ht⟩
      · exact Or.inr herr
    · intro hdone
      rw [FileTree.contents, hidx, hdone]
      simp [ByteFile.writeFile]

end Segment.Sound

/-- Opening a directory gives a sound segment, with the records whose index entries
are whole. -/
theorem OnDisk.opened_sound {json : RecordJson} {fs fs' : FileTree} {path : SlashPath}
    {stored : List (ℤ × Record)} (h : OnDisk json fs path 0 stored)
    (hfs : ∀ p, fs'.contents p = fs.contents p) :
    (opened fs path 0).Sound json fs'
      (stored.take ((fs.contents (path.join "segment.index")).length / 16)) := by
  refine ⟨h.opened_stores (hfs _), ?_⟩
  change entriesOf (fs'.contents (path.join "segment.index")) <+: _
  rw [hfs, ← take_entries, ← length_entriesOf, ← List.prefix_iff_eq_take.mp h.index]

namespace Segment

/-- Append a list of records, all with success. -/
def appendAll (json : RecordJson) : FileTree → Segment → List Record → Option (FileTree × Segment)
  | fs, s, [] => some (fs, s)
  | fs, s, r :: records =>
      match s.append json .ok fs r with
      | (fs, s, .ok _) => appendAll json fs s records
      | (_, _, .error _) => none

/-- A segment no write to which has failed: the log ends at the position, and
the time index maps 64-bit instants to stored offsets. -/
structure Exact (json : RecordJson) (fs : FileTree) (s : Segment) (base : ℤ)
    (stored : List (ℤ × Record)) : Prop extends Stores json fs s base stored where
  position_eq : s.position = (fs.contents s.logPath).length
  times : ∀ e ∈ s.timeOffsets.toList, Int64Range e.1 ∧ base ≤ e.2 ∧ e.2 < s.nextOffset

/-- Both index files are up to date. -/
def Persisted (fs : FileTree) (s : Segment) : Prop :=
  fs s.indexPath = some (indexBuf s.offsets) ∧ fs s.timeIndex = some (timeBuf s.timeOffsets)

variable {json : RecordJson} {fs : FileTree} {s : Segment} {base : ℤ}
  {stored : List (ℤ × Record)}

/-- A successful append keeps the segment exact and brings its index files up to
date. -/
theorem Exact.append (h : s.Exact json fs base stored) {record : Record} {fs' : FileTree}
    {s' : Segment} {offset : ℤ} (happ : s.append json .ok fs record = (fs', s', .ok offset)) :
    s'.path = s.path ∧ s'.Persisted fs' ∧
      s'.Exact json fs' base (stored ++ [(s.position, record)]) := by
  obtain ⟨-, ⟨e, -, hres, -⟩ | ⟨length, -, rfl, hstores, hlen, hidx, hres⟩⟩ :=
    append_cases happ h.toStores
  · cases hres
  · rcases hres with ⟨-, -, -, htime⟩ | ⟨hres, -⟩
    · refine ⟨rfl, ⟨hidx, htime⟩, hstores, ?_, ?_⟩
      · have hpos := h.position_eq
        have hle := hstores.position_le
        change _ ≤ ((fs'.contents s.logPath).length : ℤ) at hle
        change _ = ((fs'.contents s.logPath).length : ℤ)
        change _ = max _ (s.position + (4 + length)) at hlen
        have hcount : 0 ≤ 4 + length := by
          have hold := h.count_le
          have hnew := hstores.count_le
          change _ ≤ s.position + (4 + length) at hnew
          obtain ⟨payload, -, -, -, hend, -⟩ :=
            hstores.frames (s.position, record) (by simp)
          change s.position + 4 + _ ≤ s.position + (4 + length) at hend
          omega
        change s.position + (4 + length) = _
        omega
      · rintro ⟨t, o⟩ he
        rw [OrdMap.mem_toList_iff] at he
        change (s.timeOffsets.insert (unixNano record.timestamp) s.nextOffset)[t]? = some o at he
        rw [OrdMap.getElem?_insert] at he
        change Int64Range t ∧ base ≤ o ∧ o < s.nextOffset + 1
        split at he
        · next ht =>
            obtain rfl := Option.some.inj he
            have hnext := h.next
            exact ⟨ht ▸ unixNano_bounds record.timestamp, by omega, by omega⟩
        · obtain ⟨hr, hlo, hhi⟩ := h.times (t, o) ((OrdMap.mem_toList_iff _).mpr he)
          exact ⟨hr, hlo, by omega⟩
    · cases hres

/-- A run of successful appends, by induction on the records. -/
theorem Exact.appendAll {records : List Record} (h : s.Exact json fs base stored)
    {fs' : FileTree} {s' : Segment} (happ : appendAll json fs s records = some (fs', s')) :
    s'.path = s.path ∧ (s.Persisted fs ∨ records ≠ [] → s'.Persisted fs') ∧
      ∃ more, more.length = records.length ∧ s'.Exact json fs' base (stored ++ more) := by
  induction records generalizing fs s stored with
  | nil =>
      obtain ⟨rfl, rfl⟩ := Prod.mk.inj (Option.some.inj happ)
      exact ⟨rfl, fun hp => hp.resolve_right fun hc => hc rfl, [], rfl, by simpa using h⟩
  | cons r records ih =>
      rw [Segment.appendAll] at happ
      split at happ
      · next fs₁ s₁ offset hstep =>
          obtain ⟨hpath₁, hpers₁, hexact₁⟩ := h.append hstep
          obtain ⟨hpath, hpers, more, hlen, hexact⟩ := ih hexact₁ happ
          refine ⟨hpath.trans hpath₁, fun _ => hpers (Or.inl hpers₁),
            (s.position, r) :: more, by simp [hlen], ?_⟩
          rwa [List.append_assoc, List.singleton_append] at hexact
      · cases happ

/-- A fresh directory is opened as an exact segment without records. -/
theorem exact_opened {path : SlashPath} (hfs : ∀ p ∈ files path, fs p = none) (start : ℤ) :
    (opened fs path start).Exact json
      ((fs.create (path.join "segment.log")).create (path.join "segment.index")) start [] := by
  have hempty : ∀ p ∈ files path, fs.contents p = [] := by
    intro p hp
    rw [FileTree.contents, hfs p hp, Option.getD_none]
  have hlog := hempty (path.join "segment.log") (by simp [files])
  have hindex := hempty (path.join "segment.index") (by simp [files])
  have htime := hempty (path.join "segment.timeindex") (by simp [files])
  have hseg : opened fs path start =
      { path := path, logPath := path.join "segment.log",
        indexPath := path.join "segment.index", timeIndex := path.join "segment.timeindex",
        position := 0, nextOffset := start, offsets := ∅, timeOffsets := ∅ } := by
    rw [opened, hlog, hindex, htime]
    rfl
  rw [hseg]
  refine ⟨⟨⟨rfl, rfl, rfl⟩, by simp, by simp, by simp, le_rfl, ?_, ?_⟩, ?_, by simp⟩
  · simp
  · simp [hlog, maxSize]
  · simp [hlog]

end Segment

/-- A segment whose index files are up to date is what `newSegment` finds in its
directory. -/
theorem newSegment_of_persisted {json : RecordJson} {fs : FileTree} {s : Segment} {base : ℤ}
    {stored : List (ℤ × Record)} (h : s.Exact json fs base stored) (hp : s.Persisted fs)
    (hne : stored ≠ []) (h0 : 0 ≤ base) (hnext : s.nextOffset < 2 ^ 63) {start : ℤ}
    (hstart : start ≤ s.nextOffset) :
    newSegment none fs s.path start = (fs, .ok s) := by
  obtain ⟨hindex, htime⟩ := hp
  rw [indexBuf_eq] at hindex
  rw [timeBuf_eq] at htime
  have hlen : (0 : ℤ) < stored.length := by
    exact_mod_cast List.length_pos_iff.mpr hne
  obtain ⟨log, hlog⟩ : ∃ log, fs s.logPath = some log := by
    cases hl : fs s.logPath with
    | some log => exact ⟨log, rfl⟩
    | none =>
        have hcount := h.count_le
        have hpos := h.position_eq
        rw [FileTree.contents, hl, Option.getD_none, List.length_nil] at hpos
        omega
  have hnext' := h.next
  have hrange := h.int64Range h0 (by omega)
  rw [← h.offsets] at hrange
  have hentries : entriesOf (fs.contents s.indexPath) = s.offsets.toList := by
    rw [FileTree.contents, hindex, Option.getD_some, entriesOf_encodePairs hrange]
  have htimes : entriesOf (fs.contents s.timeIndex) = s.timeOffsets.toList := by
    rw [FileTree.contents, htime, Option.getD_some, entriesOf_encodePairs]
    intro e he
    obtain ⟨hr, hlo, hhi⟩ := h.times e he
    exact ⟨hr, by omega, by omega⟩
  rw [newSegment_none, ← h.inDir.logPath, ← h.inDir.indexPath, FileTree.create_eq_self hlog,
    FileTree.create_eq_self hindex]
  have hopened : opened fs s.path start = s := by
    rw [opened, ← h.inDir.logPath, ← h.inDir.indexPath, ← h.inDir.timeIndex, hentries, htimes,
      OrdMap.insertAll_empty_toList, OrdMap.insertAll_empty_toList, ← h.position_eq, h.offsets,
      foldl_nextAfter_entries, if_neg hne, ← h.next, max_eq_right hstart]
  rw [hopened]

/-- Reopening is exact: after any non-empty sequence of successful appends to a
segment created in an empty directory, `newSegment` with any start offset up to
the next offset gives back the same files and the same segment, hence the same
behaviour of every later call. -/
theorem newSegment_appendAll (json : RecordJson) (fs : FileTree) (path : SlashPath)
    (hfs : ∀ p ∈ files path, fs p = none) (start : ℤ) (hstart : 0 ≤ start)
    {fs₀ : FileTree} {seg₀ : Segment} (hopen : newSegment none fs path start = (fs₀, .ok seg₀))
    {records : List Record} (hne : records ≠ []) {fs₁ : FileTree} {seg₁ : Segment}
    (happ : appendAll json fs₀ seg₀ records = some (fs₁, seg₁))
    (hnext : seg₁.nextOffset < 2 ^ 63) (start' : ℤ) (hstart' : start' ≤ seg₁.nextOffset) :
    newSegment none fs₁ path start' = (fs₁, .ok seg₁) := by
  rw [newSegment_none] at hopen
  obtain ⟨rfl, hseg⟩ := Prod.mk.inj hopen
  obtain rfl := Except.ok.inj hseg
  obtain ⟨hpath, hpers, more, hlen, hexact⟩ := (exact_opened hfs start).appendAll happ
  have hmore : [] ++ more ≠ [] := by
    intro hc
    rw [List.nil_append] at hc
    rw [hc, List.length_nil] at hlen
    exact hne (List.eq_nil_of_length_eq_zero hlen.symm)
  have hreopen := newSegment_of_persisted hexact (hpers (Or.inr hne)) hmore hstart hnext hstart'
  rwa [hpath] at hreopen

/-- Two records appended from offset 5 on, reopened with start offset 3. -/
theorem newSegment_appendAll_sample :
    ∃ fs₁ seg₁, appendAll sampleJson
        (newSegment none (fun _ => none) ⟨true, ["d"]⟩ 5).1
        (opened (fun _ => none) ⟨true, ["d"]⟩ 5) [sampleRecord 0, sampleRecord 1] =
          some (fs₁, seg₁) ∧
      newSegment none fs₁ ⟨true, ["d"]⟩ 3 = (fs₁, .ok seg₁) := by
  have hsome : ((appendAll sampleJson
      (newSegment none (fun _ => none) ⟨true, ["d"]⟩ 5).1
      (opened (fun _ => none) ⟨true, ["d"]⟩ 5) [sampleRecord 0, sampleRecord 1]).map
        fun r => r.2.nextOffset) = some 7 := by decide +kernel
  obtain ⟨⟨fs₁, seg₁⟩, happ, hnext⟩ := Option.map_eq_some_iff.mp hsome
  refine ⟨fs₁, seg₁, happ, ?_⟩
  have hnext' : seg₁.nextOffset = 7 := hnext
  exact newSegment_appendAll sampleJson (fun _ => none) ⟨true, ["d"]⟩ (fun _ _ => rfl) 5
    (by norm_num) (newSegment_none _ _ _) (by simp) happ (by omega) 3 (by omega)

end StreamFlow
