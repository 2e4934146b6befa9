import StreamFlow.Broker.Segment.Reopen
import StreamFlow.Foundation.Run

/-!
# Crashes inside an append

A process may stop at any point of an `Append`, and `newSegment` then opens what
the disk holds. `Live` is a running segment together with the appends that have
returned; its steps are further appends, whose file writes may fail, and crashes
followed by a reopening.

An append rewrites the whole index file, so the entries of earlier records are
gone from the disk until the rewriting has reached them again. The records that
survive a crash are exactly those whose entries the crash spares
(`recovers_crashDisk_iff`).
-/

namespace StreamFlow

open BigEndian ByteFile Segment Run

/-- The file write of an `Append` that a crash interrupts, with the number of
bytes it has written. A number beyond the data is a crash between this write and
the next. -/
inductive CrashPoint where
  | lengthPrefix (written : ℕ)
  | payload (written : ℕ)
  | index (written : ℕ)
  | timeIndex (written : ℕ)
deriving DecidableEq, Repr

namespace CrashPoint

/-- Outcomes of the file writes that leave the disk as the crash does. -/
def io : CrashPoint → AppendIO
  | lengthPrefix n => ⟨.failed n, .done, .notOpened, .notOpened⟩
  | payload n => ⟨.done, .failed n, .notOpened, .notOpened⟩
  | index n => ⟨.done, .done, .failed n, .notOpened⟩
  | timeIndex n => ⟨.done, .done, .done, .failed n⟩

/-- An append reaches its index files only after both writes to the log. -/
def Reached (json : RecordJson) (fs : FileTree) (s : Segment) (record : Record) :
    CrashPoint → Prop
  | lengthPrefix _ | payload _ => True
  | index _ | timeIndex _ => (s.writeFrame json .ok fs record).2.isOk = true

/-- The index file keeps the entry of the offset `o` through the crash. -/
def Spares (fs : FileTree) (s : Segment) (o : ℤ) : CrashPoint → Prop
  | lengthPrefix _ | payload _ => 16 * (o + 1) ≤ (fs.contents s.indexPath).length
  | index n => 16 * (o + 1) ≤ n
  | timeIndex _ => True

instance (json : RecordJson) (fs : FileTree) (s : Segment) (record : Record) :
    ∀ point : CrashPoint, Decidable (point.Reached json fs s record)
  | lengthPrefix _ | payload _ => inferInstanceAs (Decidable True)
  | index _ | timeIndex _ => inferInstanceAs (Decidable (_ = true))

instance (fs : FileTree) (s : Segment) (o : ℤ) :
    ∀ point : CrashPoint, Decidable (point.Spares fs s o)
  | lengthPrefix _ | payload _ | index _ => inferInstanceAs (Decidable (_ ≤ _))
  | timeIndex _ => inferInstanceAs (Decidable True)

end CrashPoint

/-- The files after a crash inside an `Append`. -/
def crashDisk (json : RecordJson) (fs : FileTree) (s : Segment) (record : Record)
    (point : CrashPoint) : FileTree :=
  (s.append json point.io fs record).1

/-- A running segment and the offsets and records of the appends that have
returned. -/
structure Live where
  fs : FileTree
  seg : Segment
  returned : List (ℤ × Record)

inductive SegmentEvent where
  | append (record : Record) (io : AppendIO)
  | crash (record : Record) (point : CrashPoint)

namespace Live

/-- One event; after a crash the segment is opened again as the broker does. -/
def step (json : RecordJson) (l : Live) : SegmentEvent → Option Live
  | .append record io =>
      match l.seg.append json io l.fs record with
      | (fs, seg, .ok offset) => some ⟨fs, seg, l.returned ++ [(offset, record)]⟩
      | (fs, seg, .error _) => some ⟨fs, seg, l.returned⟩
  | .crash record point =>
      match newSegment none (crashDisk json l.fs l.seg record point) l.seg.path 0 with
      | (fs, .ok seg) => some ⟨fs, seg, l.returned⟩
      | (_, .error _) => none

/-- A crash that can happen and spares the records returned so far. -/
def Spared (json : RecordJson) (l : Live) : SegmentEvent → Prop
  | .append _ _ => True
  | .crash record point => point.Reached json l.fs l.seg record ∧
      ∀ e ∈ l.returned, point.Spares l.fs l.seg e.1

instance (json : RecordJson) (l : Live) : ∀ event, Decidable (l.Spared json event)
  | .append _ _ => inferInstanceAs (Decidable True)
  | .crash _ _ => inferInstanceAs (Decidable (_ ∧ _))

end Live

/-- The offsets that the appends of a list use, whether they succeed or not. -/
def Segment.assigned (json : RecordJson) :
    FileTree → Segment → List (Record × AppendIO) → List ℤ
  | _, _, [] => []
  | fs, s, (record, io) :: later =>
      match s.append json io fs record with
      | (fs', s', _) => s.nextOffset :: assigned json fs' s' later

/-- Reopening gives back all the returned records, and no later append uses one
of their offsets again. -/
def Recovers (json : RecordJson) (fs : FileTree) (path : SlashPath) (start : ℤ)
    (returned : List (ℤ × Record)) : Prop :=
  ∃ fs' seg, newSegment none fs path start = (fs', .ok seg) ∧
    (∀ e ∈ returned, seg.readByOffset json fs' e.1 = .ok e.2) ∧
    ∀ later, ∀ o ∈ seg.assigned json fs' later, o ∉ returned.map Prod.fst

namespace Segment

variable {json : RecordJson} {fs : FileTree} {s : Segment} {stored : List (ℤ × Record)}

theorem nextOffset_le_append (io : AppendIO) (record : Record) :
    s.nextOffset ≤ (s.append json io fs record).2.1.nextOffset := by
  have hadvance : ∀ length, s.nextOffset ≤ (s.advance record length).nextOffset := by
    intro length
    change s.nextOffset ≤ s.nextOffset + 1
    omega
  unfold append
  split
  · exact le_rfl
  · dsimp only
    split <;> exact hadvance _

theorem nextOffset_le_of_mem_assigned {later : List (Record × AppendIO)} {o : ℤ}
    (h : o ∈ s.assigned json fs later) : s.nextOffset ≤ o := by
  induction later generalizing fs s with
  | nil => cases h
  | cons a later ih =>
      obtain ⟨record, io⟩ := a
      rcases List.mem_cons.mp h with rfl | hlater
      · exact le_rfl
      · exact (nextOffset_le_append io record).trans (ih hlater)

/-- `newSegment` continues after the last offset it has loaded. -/
theorem lt_nextOffset_opened {path : SlashPath} {start o : ℤ}
    (h : (opened fs path start).offsets[o]?.isSome) : o < (opened fs path start).nextOffset := by
  have hloaded : ∃ e ∈ entriesOf (fs.contents (path.join "segment.index")), e.1 = o := by
    by_contra hne
    push Not at hne
    change (OrdMap.insertAll ∅ (entriesOf _))[o]?.isSome at h
    rw [OrdMap.getElem?_insertAll_of_forall_ne _ hne] at h
    simp at h
  obtain ⟨e, he, rfl⟩ := hloaded
  exact lt_foldl_nextAfter he start

theorem isSome_of_readByOffset {o : ℤ} {r : Record} (h : s.readByOffset json fs o = .ok r) :
    s.offsets[o]?.isSome := by
  unfold readByOffset at h
  split at h
  · cases h
  · next hget => rw [hget, Option.isSome_some]

end Segment

section Crash

variable {json : RecordJson} {fs : FileTree} {s : Segment} {stored : List (ℤ × Record)}
  {record : Record} {point : CrashPoint}

/-- A crash leaves the directory of a sound segment, with or without the new
record. -/
theorem Segment.Sound.of_crash (h : s.Sound json fs stored) (record : Record)
    (point : CrashPoint) :
    ∃ (s' : Segment) (more : List (ℤ × Record)),
      s'.Sound json (crashDisk json fs s record point) (stored ++ more) ∧ s'.path = s.path := by
  rcases happ : s.append json point.io fs record with ⟨fs', s', res⟩
  rw [crashDisk, happ]
  rcases h.append happ with ⟨e, -, -, -, hsound, -⟩ | ⟨-, hpath, hsound, -⟩
  · exact ⟨s, [], by simpa using hsound, rfl⟩
  · exact ⟨s', _, hsound, hpath⟩

/-- An append that never opens the index file leaves it alone. -/
theorem index_append_of_notOpened (h : s.Stores json fs 0 stored) {io : AppendIO}
    (hio : io.index = .notOpened) :
    (s.append json io fs record).1 s.indexPath = fs s.indexPath := by
  obtain ⟨-, ⟨-, -, -, -, -, hidx, -⟩ | ⟨-, -, -, -, -, hidx, -⟩⟩ :=
    append_cases (Prod.mk.eta (p := s.append json io fs record)).symm h
  · exact hidx
  · rw [hidx, hio]
    rfl

/-- An append that gets past the log replaces the index file. -/
theorem index_append_of_isOk (h : s.Stores json fs 0 stored) (io : AppendIO)
    (hw : (s.writeFrame json io fs record).2.isOk = true) :
    (s.append json io fs record).1 s.indexPath =
      (ByteFile.writeFile (fs s.indexPath)
        (encodePairs (entries 0 (stored ++ [(s.position, record)]))) io.index).1 := by
  obtain ⟨-, ⟨e, hfail, -⟩ | ⟨length, -, -, hstores, -, hidx, -⟩⟩ :=
    append_cases (Prod.mk.eta (p := s.append json io fs record)).symm h
  · rw [hfail] at hw
    cases hw
  · rw [hidx, indexBuf_eq, hstores.offsets]

/-- Which of the old entries the index file still has after a crash. -/
theorem le_length_crashDisk_iff (h : s.Stores json fs 0 stored)
    (hreach : point.Reached json fs s record) {i : ℕ} (hi : i < stored.length) :
    16 * ((i : ℤ) + 1) ≤ ((crashDisk json fs s record point).contents s.indexPath).length ↔
      point.Spares fs s i := by
  unfold crashDisk FileTree.contents
  cases point with
  | lengthPrefix n => rw [index_append_of_notOpened h rfl]; rfl
  | payload n => rw [index_append_of_notOpened h rfl]; rfl
  | index n =>
      have hlen : (((s.append json (CrashPoint.index n).io fs record).1 s.indexPath).getD
          []).length = min n (16 * (stored.length + 1)) := by
        rw [index_append_of_isOk h (CrashPoint.index n).io hreach]
        simp [CrashPoint.io, ByteFile.writeFile]
      rw [hlen, CrashPoint.Spares]
      omega
  | timeIndex n =>
      have hlen : (((s.append json (CrashPoint.timeIndex n).io fs record).1 s.indexPath).getD
          []).length = 16 * (stored.length + 1) := by
        rw [index_append_of_isOk h (CrashPoint.timeIndex n).io hreach]
        simp [CrashPoint.io, ByteFile.writeFile]
      rw [hlen, CrashPoint.Spares, iff_true]
      push_cast
      omega

end Crash

/-- A returned append is among the stored records, under its offset. -/
def Held (stored : List (ℤ × Record)) (e : ℤ × Record) : Prop :=
  ∃ (i : ℕ) (p : ℤ), e.1 = i ∧ stored[i]? = some (p, e.2)

theorem Held.append {stored : List (ℤ × Record)} {e : ℤ × Record} (h : Held stored e)
    (more : List (ℤ × Record)) : Held (stored ++ more) e := by
  obtain ⟨i, p, he, hget⟩ := h
  have hi := (List.getElem?_eq_some_iff.mp hget).1
  exact ⟨i, p, he, by rw [List.getElem?_append_left hi, hget]⟩

/-- The appends that have returned are stored, and the index file can be
trusted. -/
def Live.Inv (json : RecordJson) (path : SlashPath) (l : Live) : Prop :=
  l.seg.path = path ∧ ∃ stored, l.seg.Sound json l.fs stored ∧ ∀ e ∈ l.returned, Held stored e

namespace Live

variable {json : RecordJson} {path : SlashPath} {l l' : Live}

/-- A new segment in an empty directory. -/
theorem inv_start {fs fs₀ : FileTree} {seg₀ : Segment} (hfs : ∀ p ∈ files path, fs p = none)
    (hopen : newSegment none fs path 0 = (fs₀, .ok seg₀)) : Inv json path ⟨fs₀, seg₀, []⟩ := by
  rw [newSegment_none] at hopen
  obtain ⟨rfl, hseg⟩ := Prod.mk.inj hopen
  obtain rfl := Except.ok.inj hseg
  refine ⟨rfl, [], ⟨(exact_opened hfs 0).toStores, ?_⟩, by simp⟩
  have hnone := hfs (path.join "segment.index") (by simp [files])
  change entriesOf (FileTree.contents _ (path.join "segment.index")) <+: _
  rw [FileTree.contents_create, FileTree.contents_create, FileTree.contents, hnone]
  exact List.nil_prefix

/-- Every event keeps the invariant, provided a crash spares what had returned. -/
theorem Inv.step {event : SegmentEvent} (h : l.Inv json path) (hspared : l.Spared json event)
    (hstep : l.step json event = some l') : l'.Inv json path := by
  obtain ⟨hpath, stored, hsound, hheld⟩ := h
  cases event with
  | append record io =>
      rw [Live.step] at hstep
      rcases happ : l.seg.append json io l.fs record with ⟨fs, seg, res⟩
      rw [happ] at hstep
      rcases hsound.append happ with ⟨e, -, rfl, rfl, hsound', -⟩ | ⟨-, hpath', hsound', hres, -⟩
      · obtain rfl := Option.some.inj hstep
        exact ⟨hpath, stored, hsound', hheld⟩
      · have hold : ∀ e ∈ l.returned, Held (stored ++ [(l.seg.position, record)]) e :=
          fun e he => (hheld e he).append _
        rcases hres with ⟨rfl, -⟩ | ⟨rfl, -⟩
        · obtain rfl := Option.some.inj hstep
          refine ⟨hpath'.trans hpath, _, hsound', ?_⟩
          intro e he
          rcases List.mem_append.mp he with hmem | hmem
          · exact hold e hmem
          · obtain rfl := List.mem_singleton.mp hmem
            exact ⟨stored.length, l.seg.position, rfl, by simp⟩
        · obtain rfl := Option.some.inj hstep
          exact ⟨hpath'.trans hpath, _, hsound', hold⟩
  | crash record point =>
      obtain ⟨hreach, hspares⟩ := hspared
      obtain ⟨s', more, hcrash, hpath'⟩ := hsound.of_crash record point
      rw [Live.step, newSegment_none, ← hpath'] at hstep
      obtain rfl := Option.some.inj hstep
      refine ⟨hpath'.trans hpath, _, hcrash.onDisk.opened_sound (by simp), ?_⟩
      intro e he
      obtain ⟨i, p, hi, hget⟩ := hheld e he
      have hlt := (List.getElem?_eq_some_iff.mp hget).1
      have hlen := (le_length_crashDisk_iff hsound.toStores hreach hlt).mpr (hi ▸ hspares e he)
      refine ⟨i, p, hi, ?_⟩
      rw [hpath', ← hsound.inDir.indexPath,
        List.getElem?_take_of_lt (by omega), List.getElem?_append_left hlt, hget]

end Live

/-- What a returned record needs to be readable after reopening: its index entry
lies within the index file. -/
theorem OnDisk.readByOffset_opened_iff {json : RecordJson} {fs fs' : FileTree}
    {path : SlashPath} {stored : List (ℤ × Record)} (h : OnDisk json fs path 0 stored)
    (hjson : json.Faithful)
    (hfs : fs'.contents (path.join "segment.log") = fs.contents (path.join "segment.log"))
    (start : ℤ) {i : ℕ} {p : ℤ} {r : Record} (hget : stored[i]? = some (p, r)) :
    (opened fs path start).readByOffset json fs' i = .ok r ↔
      16 * ((i : ℤ) + 1) ≤ (fs.contents (path.join "segment.index")).length := by
  have hstores := h.opened_stores hfs
  -- the start offset plays no part in reading
  change (opened fs path 0).readByOffset json fs' i = .ok r ↔ _
  generalize hk : (fs.contents (path.join "segment.index")).length / 16 = k at hstores
  by_cases hi : i < k
  · have hget' : (stored.take k)[i]? = some (p, r) := by
      rw [List.getElem?_take_of_lt hi, hget]
    have hread := hstores.readByOffset_eq hjson hget'
    rw [zero_add] at hread
    rw [hread]
    exact iff_of_true rfl (by omega)
  · have hnone : (opened fs path 0).offsets[(i : ℤ)]? = none := by
      rw [Option.eq_none_iff_forall_ne_some]
      intro p' hp'
      obtain ⟨j, r', hj, hij⟩ := hstores.getElem?_offsets_iff.mp hp'
      have hlt := (List.getElem?_eq_some_iff.mp hj).1
      rw [List.length_take] at hlt
      omega
    rw [readByOffset, hnone]
    exact iff_of_false (by simp) (by omega)

/-- Crash safety of `Append`. In every run of appends, whatever their file writes
do, and of crashes that spared the records returned before them, a further crash
inside an append loses none of the returned records and frees none of their offsets
exactly when it spares their entries of the index file. -/
theorem recovers_crashDisk_iff (json : RecordJson) (hjson : json.Faithful) (fs : FileTree)
    (path : SlashPath) (hfs : ∀ p ∈ files path, fs p = none) {fs₀ : FileTree} {seg₀ : Segment}
    (hopen : newSegment none fs path 0 = (fs₀, .ok seg₀)) {events : List SegmentEvent} {l : Live}
    (hrun : exec (Live.step json) ⟨fs₀, seg₀, []⟩ events = some l)
    (hspared : Guarded (Live.step json) (Live.Spared json) ⟨fs₀, seg₀, []⟩ events)
    (record : Record) (point : CrashPoint) (hreach : point.Reached json l.fs l.seg record)
    (start : ℤ) :
    Recovers json (crashDisk json l.fs l.seg record point) path start l.returned ↔
      ∀ e ∈ l.returned, point.Spares l.fs l.seg e.1 := by
  obtain ⟨hpath, stored, hsound, hheld⟩ : l.Inv json path :=
    invariant_of_guarded _ (fun _ _ _ h hg hs => h.step hg hs) hrun hspared
      (Live.inv_start hfs hopen)
  obtain ⟨s', more, hcrash, hpath'⟩ := hsound.of_crash record point
  have hdisk := hcrash.onDisk
  rw [hpath'.trans hpath] at hdisk
  have hindex : l.seg.indexPath = path.join "segment.index" := by
    rw [hsound.inDir.indexPath, hpath]
  set disk := crashDisk json l.fs l.seg record point with hdiskdef
  have hreads : ∀ e ∈ l.returned,
      (opened disk path start).readByOffset json
          ((disk.create (path.join "segment.log")).create (path.join "segment.index")) e.1 =
        .ok e.2 ↔ point.Spares l.fs l.seg e.1 := by
    intro e he
    obtain ⟨i, p, hi, hget⟩ := hheld e he
    have hlt := (List.getElem?_eq_some_iff.mp hget).1
    have hspares := le_length_crashDisk_iff hsound.toStores hreach hlt
    rw [hi, hdisk.readByOffset_opened_iff hjson (by simp) start
      (by rw [List.getElem?_append_left hlt, hget]), ← hspares, hindex]
  constructor
  · rintro ⟨fs', seg, hnew, hread, -⟩ e he
    rw [newSegment_none] at hnew
    obtain ⟨rfl, hseg⟩ := Prod.mk.inj hnew
    obtain rfl := Except.ok.inj hseg
    exact (hreads e he).mp (hread e he)
  · intro hall
    refine ⟨_, _, newSegment_none disk path start, fun e he => (hreads e he).mpr (hall e he), ?_⟩
    intro later o ho hmem
    obtain ⟨e, he, rfl⟩ := List.mem_map.mp hmem
    have hle := nextOffset_le_of_mem_assigned ho
    have hlt := lt_nextOffset_opened (isSome_of_readByOffset ((hreads e he).mpr (hall e he)))
    omega

/-- A segment just opened in the empty directory `/d`. -/
def freshLive : Live :=
  ⟨(newSegment none (fun _ => none) ⟨true, ["d"]⟩ 0).1,
    opened (fun _ => none) ⟨true, ["d"]⟩ 0, []⟩

/-- After one append and a crash in a second one behind the index file, a crash in
another append that has rewritten one entry of the index keeps the first record. -/
theorem recovers_crashDisk_sample :
    ∃ l, exec (Live.step sampleJson) freshLive
        [.append (sampleRecord 0) .ok, .crash (sampleRecord 1) (.timeIndex 3)] = some l ∧
      Recovers sampleJson (crashDisk sampleJson l.fs l.seg (sampleRecord 2) (.index 16))
        ⟨true, ["d"]⟩ 0 l.returned := by
  obtain ⟨l, hrun, hreturned, hreach⟩ : ∃ l, exec (Live.step sampleJson) freshLive
        [.append (sampleRecord 0) .ok, .crash (sampleRecord 1) (.timeIndex 3)] = some l ∧
      l.returned = [(0, sampleRecord 0)] ∧
      (CrashPoint.index 16).Reached sampleJson l.fs l.seg (sampleRecord 2) :=
    exists_exec_of_any (by decide +kernel)
  refine ⟨l, hrun, ?_⟩
  refine (recovers_crashDisk_iff sampleJson sampleJson_faithful (fun _ => none) ⟨true, ["d"]⟩
    (fun _ _ => rfl) (newSegment_none _ _ _) hrun (by decide +kernel) (sampleRecord 2)
    (.index 16) hreach 0).mpr ?_
  rw [hreturned]
  intro e he
  obtain rfl := List.mem_singleton.mp he
  change (16 : ℤ) * (0 + 1) ≤ (16 : ℕ)
  norm_num

/-- After one append that returned, a crash in the second one right after the index
file has been truncated: reopening does not find the first record. -/
theorem not_recovers_truncated_index :
    ∃ l, exec (Live.step sampleJson) freshLive [.append (sampleRecord 0) .ok] = some l ∧
      l.returned = [(0, sampleRecord 0)] ∧
      (CrashPoint.index 0).Reached sampleJson l.fs l.seg (sampleRecord 1) ∧
      ¬ Recovers sampleJson (crashDisk sampleJson l.fs l.seg (sampleRecord 1) (.index 0))
        ⟨true, ["d"]⟩ 0 l.returned := by
  obtain ⟨l, hrun, hreturned, hreach, hnone⟩ : ∃ l, exec (Live.step sampleJson) freshLive
        [.append (sampleRecord 0) .ok] = some l ∧ l.returned = [(0, sampleRecord 0)] ∧
      (CrashPoint.index 0).Reached sampleJson l.fs l.seg (sampleRecord 1) ∧
      (opened (crashDisk sampleJson l.fs l.seg (sampleRecord 1) (.index 0))
        ⟨true, ["d"]⟩ 0).offsets[(0 : ℤ)]? = none :=
    exists_exec_of_any (by decide +kernel)
  refine ⟨l, hrun, hreturned, hreach, ?_⟩
  rintro ⟨fs', seg, hnew, hread, -⟩
  rw [newSegment_none] at hnew
  obtain rfl := Except.ok.inj (Prod.mk.inj hnew).2
  have hsome := isSome_of_readByOffset (hread (0, sampleRecord 0) (by simp [hreturned]))
  rw [hnone] at hsome
  cases hsome

end StreamFlow
