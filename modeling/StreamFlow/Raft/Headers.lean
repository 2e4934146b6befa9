import StreamFlow.Raft.Torn
import StreamFlow.Raft.WalFiles

/-!
# Length headers

Three functions put a length of 32 bits in front of bytes: `AppendWAL` in front of its
argument, `marshalEntries` in front of each encoded entry, and `Compact` in front of all
entries that it keeps. None of them looks whether the length fits. The results below say,
for file operations that succeed, that the header is exact if and only if it does.
-/

namespace StreamFlow.Raft

open BigEndian Frame

/-- `AppendWAL` adds its argument behind its exact length, from where it is read back, or
fails and leaves the directory as it is. -/
def AppendExact (dir : Directory) (entries : Bytes) : Prop :=
  match appendWAL .ok dir entries with
  | (dir', .ok ()) =>
      ∃ f, walLog dir' = walLog dir ++ f ∧ Exact entries f ∧ read f = some (entries, [])
  | (dir', .error _) => dir' = dir

/-- `marshalEntries` puts every encoding behind its exact length, from where all of them are
read back, or fails. -/
def MarshalExact (codec : EntryCodec) (ents : List Entry) : Prop :=
  match marshalEntries codec ents with
  | .ok data => ∃ bs, Encodings codec ents bs ∧ ExactStream bs data ∧ split data = (bs, [])
  | .error _ => True

/-- `Compact` leaves the entries that it keeps behind their exact length, from where they are
read back, or fails and leaves the directory as it is. -/
def CompactExact (codec : EntryCodec) (dir : Directory) (k : ℕ) : Prop :=
  match compact codec .ok dir k with
  | (dir', .ok ()) =>
      ∃ b, compactData codec true dir k = .ok b ∧ Exact b (walLog dir') ∧
        read (walLog dir') = some (b, [])
  | (dir', .error _) => dir' = dir

variable {codec : EntryCodec} {dir : Directory}

theorem appendExact_iff {entries : Bytes} :
    AppendExact dir entries ↔ entries.length < 2 ^ 32 := by
  have hlog : walLog (dir.insert "wal.log" ((dir["wal.log"]?).getD [] ++ frame entries)) =
      walLog dir ++ frame entries := by
    rw [walLog, OrdMap.getElem?_insert_self', Option.getD_some]
    rfl
  rw [← exact_frame_iff, AppendExact, appendWAL_ok]
  dsimp only
  rw [hlog]
  constructor
  · rintro ⟨f, hf, hexact, -⟩
    rwa [List.append_cancel_left hf]
  · intro hexact
    exact ⟨_, rfl, hexact, hexact.read⟩

theorem marshalExact_iff {ents : List Entry} :
    MarshalExact codec ents ↔
      ∀ bs, Encodings codec ents bs → ∀ b ∈ bs, b.length < 2 ^ 32 := by
  unfold MarshalExact
  cases hdata : marshalEntries codec ents with
  | error e =>
      refine iff_of_true trivial fun bs hbs => ?_
      rw [marshalEntries_eq_ok_iff.mpr ⟨bs, hbs, rfl⟩] at hdata
      cases hdata
  | ok data =>
      obtain ⟨bs, hbs, rfl⟩ := marshalEntries_eq_ok_iff.mp hdata
      constructor
      · rintro ⟨bs', hbs', hexact, -⟩ bs'' hbs''
        obtain rfl := hbs.unique hbs'
        obtain rfl := hbs.unique hbs''
        exact exactStream_frames_iff.mp hexact
      · intro hshort
        have hshort := hshort bs hbs
        exact ⟨bs, hbs, exactStream_frames_iff.mpr hshort, split_frames hshort⟩

theorem compactData_eq_ok_iff {k : ℕ} {b : Bytes} :
    compactData codec true dir k = .ok b ↔
      ∃ ents bs, readEntries codec dir = .ok ents ∧ Encodings codec (keepEntries k ents) bs ∧
        b = frames bs := by
  have hdata : compactData codec true dir k =
      readEntries codec dir >>= fun ents => marshalEntries codec (keepEntries k ents) := by
    rw [compactData, readEntries, bind_assoc]
  rw [hdata]
  cases readEntries codec dir with
  | error e =>
      refine iff_of_false (fun h => ?_) ?_
      · cases h
      · rintro ⟨ents, bs, h, -⟩
        cases h
  | ok ents =>
      change marshalEntries codec (keepEntries k ents) = .ok b ↔ _
      rw [marshalEntries_eq_ok_iff]
      constructor
      · rintro ⟨bs, hbs, hb⟩
        exact ⟨ents, bs, rfl, hbs, hb⟩
      · rintro ⟨ents', bs, hents, hbs, hb⟩
        cases hents
        exact ⟨bs, hbs, hb⟩

theorem compactExact_iff {k : ℕ} :
    CompactExact codec dir k ↔ ∀ b, compactData codec true dir k = .ok b → b.length < 2 ^ 32 := by
  cases hdata : compactData codec true dir k with
  | error e =>
      refine iff_of_true ?_ fun b hb => ?_
      · rw [CompactExact, compact_of_error codec dir hdata]
      · cases hb
  | ok b =>
      have hlog := walLog_compact codec dir hdata
      rw [CompactExact, compact_ok codec dir hdata]
      rw [compact_ok codec dir hdata] at hlog
      dsimp only at hlog ⊢
      rw [hlog, hdata]
      constructor
      · rintro ⟨b', hb', hexact, -⟩ b'' hb''
        cases hb'
        cases hb''
        exact exact_frame_iff.mp hexact
      · intro hshort
        have hexact := exact_frame_iff.mpr (hshort b rfl)
        exact ⟨b, rfl, hexact, hexact.read⟩

/-- The headers are exact if and only if what follows them is shorter than `2 ^ 32` bytes; in
`Compact` all entries that are kept count together. -/
theorem exact_headers_iff (codec : EntryCodec) (dir : Directory) (entries : Bytes)
    (ents : List Entry) (k : ℕ) :
    (AppendExact dir entries ↔ entries.length < 2 ^ 32) ∧
      (MarshalExact codec ents ↔
        ∀ bs, Encodings codec ents bs → ∀ b ∈ bs, b.length < 2 ^ 32) ∧
      (CompactExact codec dir k ↔
        ∀ all bs, readEntries codec dir = .ok all → Encodings codec (keepEntries k all) bs →
          (bs.map fun b => 4 + b.length).sum < 2 ^ 32) := by
  refine ⟨appendExact_iff, marshalExact_iff, compactExact_iff.trans ?_⟩
  simp only [compactData_eq_ok_iff, ← length_frames]
  constructor
  · intro h all bs hall hbs
    exact h _ ⟨all, bs, hall, hbs, rfl⟩
  · rintro h b ⟨all, bs, hall, hbs, rfl⟩
    exact h all bs hall hbs

/-- An entry without term and index. -/
def plainEntry (data : Bytes) : Entry := ⟨0, 0, .normal, data⟩

/-- The encoding of such entries by their data. -/
def plainCodec : EntryCodec where
  marshal e := if e = plainEntry e.data then some e.data else none
  unmarshal b := some (plainEntry b)

theorem marshal_plainEntry (b : Bytes) : plainCodec.marshal (plainEntry b) = some b := if_pos rfl

theorem plainCodec_faithful : plainCodec.Faithful := by
  intro e b hb
  change (if e = plainEntry e.data then some e.data else none) = some b at hb
  split at hb
  · next he =>
      rw [← Option.some.inj hb]
      exact congrArg some he.symm
  · cases hb

/-- The directory after a batch of one entry was appended twice. -/
def twoBatches (b : Bytes) : Directory :=
  (appendWAL .ok (appendWAL .ok ∅ (frame b)).1 (frame b)).1

theorem readEntries_twoBatches {b : Bytes} (h : 4 + b.length < 2 ^ 32) :
    readEntries plainCodec (twoBatches b) = .ok [plainEntry b, plainEntry b] := by
  have hdir : twoBatches b = (∅ : Directory).insert "wal.log" (frames [frame b, frame b]) := by
    rw [twoBatches, appendWAL_ok, appendWAL_ok, OrdMap.getElem?_insert_self',
      OrdMap.insert_insert_self, Std.ExtTreeMap.getElem?_empty]
    simp [frames_cons]
  have hother : ∀ name, name ≠ "wal.log" → (twoBatches b)[name]? = none := by
    intro name hname
    rw [hdir, OrdMap.getElem?_insert_of_ne _ _ hname.symm, Std.ExtTreeMap.getElem?_empty]
  have hbatch : ∀ p ∈ [frame b, frame b], p.length < 2 ^ 32 := by simpa [length_frame] using h
  have hshort : ∀ p ∈ [b, b], p.length < 2 ^ 32 := by
    intro p hp
    obtain rfl : p = b := by simpa using hp
    omega
  have hflat : [frame b, frame b].flatten = frames [b, b] := rfl
  have hents : Encodings plainCodec [plainEntry b, plainEntry b] [b, b] :=
    .cons (marshal_plainEntry b) (.cons (marshal_plainEntry b) .nil)
  rw [readEntries, readWAL_of_log hother, hdir, walLog, OrdMap.getElem?_insert_self',
    Option.getD_some, split_frames hbatch, hflat]
  exact unmarshalEntries_frames plainCodec_faithful hents hshort

/-- The two entries are kept in one frame. -/
theorem not_compactExact_twoBatches {b : Bytes} (h : 4 + b.length < 2 ^ 32)
    (hlong : 2 ^ 32 ≤ (frames [b, b]).length) : ¬ CompactExact plainCodec (twoBatches b) 0 := by
  have hkeep : keepEntries 0 [plainEntry b, plainEntry b] = [plainEntry b, plainEntry b] := rfl
  have hdata : compactData plainCodec true (twoBatches b) 0 = .ok (frames [b, b]) :=
    compactData_eq_ok_iff.mpr ⟨_, [b, b], readEntries_twoBatches h, by
      rw [hkeep]
      exact .cons (marshal_plainEntry b) (.cons (marshal_plainEntry b) .nil), rfl⟩
  rw [compactExact_iff]
  intro hshort
  exact absurd (hshort _ hdata) (not_lt.mpr hlong)

/-- Each of the three headers can be wrong. For `Compact` two batches of about `2 ^ 31` bytes
are enough, each of which was appended with its exact length. -/
theorem not_exact_headers :
    ¬ AppendExact ∅ (List.replicate (2 ^ 32) 0) ∧
      ¬ MarshalExact plainCodec [plainEntry (List.replicate (2 ^ 32) 0)] ∧
      AppendExact ∅ (frame (List.replicate (2 ^ 31) 0)) ∧
      ¬ CompactExact plainCodec (twoBatches (List.replicate (2 ^ 31) 0)) 0 := by
  have hframe : 4 + (List.replicate (2 ^ 31) (0 : UInt8)).length < 2 ^ 32 := by
    rw [List.length_replicate]
    norm_num
  refine ⟨?_, ?_, ?_, not_compactExact_twoBatches hframe ?_⟩
  · rw [appendExact_iff, List.length_replicate]
    exact lt_irrefl _
  · rw [marshalExact_iff]
    intro hshort
    have hlt := hshort _ (.cons (marshal_plainEntry _) .nil) _ List.mem_cons_self
    rw [List.length_replicate] at hlt
    exact lt_irrefl _ hlt
  · rwa [appendExact_iff, length_frame]
  · simp only [length_frames, List.map_cons, List.map_nil, List.sum_cons, List.sum_nil,
      List.length_replicate]
    norm_num

end StreamFlow.Raft
