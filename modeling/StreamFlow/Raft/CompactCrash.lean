import StreamFlow.Raft.WalFiles

/-!
# Crashes inside a compaction

`Compact` truncates `wal.log` and writes the entries it keeps into it before it removes
the rotated files. From the truncation until the new frame is complete, the entries
that were in `wal.log` alone are nowhere: nothing is read from the incomplete frame. A
crash is the same as the failure of the file operation at which it happens, with
nothing done afterwards.
-/

namespace StreamFlow.Raft

open BigEndian ByteFile Frame Run

/-- Where a crash happens inside `Compact`: before `wal.log` is opened, when it has been
truncated and some bytes of the new frame are in it, or when the frame is complete and
some of the rotated files have been removed. -/
inductive CompactCrash where
  | opening
  | writing (bytes : ℕ)
  | removing (files : ℕ)
deriving DecidableEq, Repr

/-- The file operations that take place. -/
def CompactCrash.io (dir : Directory) : CompactCrash → CompactIO
  | opening => ⟨true, ⟨false, .done, .done⟩, false, fun _ => false⟩
  | writing n =>
      if n < 4 then ⟨true, ⟨true, .failed n, .done⟩, false, fun _ => false⟩
      else ⟨true, ⟨true, .done, .failed (n - 4)⟩, false, fun _ => false⟩
  | removing m => ⟨true, .ok, true, fun name => name ∈ (obsoleteFiles dir).take m⟩

/-- The directory that a crash inside `Compact` leaves. -/
def crashedDir (codec : EntryCodec) (dir : Directory) (k : ℕ) (crash : CompactCrash) : Directory :=
  (compact codec (crash.io dir) dir k).1

/-- Every entry above `k` that was readable before is readable after the crash. -/
def KeepsLaterEntries (codec : EntryCodec) (dir : Directory) (k : ℕ)
    (crash : CompactCrash) : Prop :=
  match readEntries codec dir, readEntries codec (crashedDir codec dir k crash) with
  | .ok ents, .ok ents' => ∀ e ∈ ents, k < e.index → e ∈ ents'
  | _, _ => False

instance (codec : EntryCodec) (dir : Directory) (k : ℕ) (crash : CompactCrash) :
    Decidable (KeepsLaterEntries codec dir k crash) := by
  unfold KeepsLaterEntries
  split <;> infer_instance

/-- `wal.log` is not touched or holds the whole new frame. -/
def CompactCrash.Complete (codec : EntryCodec) (dir : Directory) (k : ℕ) : CompactCrash → Prop
  | opening => True
  | writing n => ∀ b ∈ (compactData codec true dir k).toOption, (frame b).length ≤ n
  | removing _ => True

instance (codec : EntryCodec) (dir : Directory) (k : ℕ) :
    ∀ crash : CompactCrash, Decidable (crash.Complete codec dir k)
  | .opening => inferInstanceAs (Decidable True)
  | .writing n =>
      inferInstanceAs (Decidable (∀ b ∈ (compactData codec true dir k).toOption, _ ≤ n))
  | .removing _ => inferInstanceAs (Decidable True)

/-- The payloads that are written are shorter than `2 ^ 32` bytes. -/
def WalRun.ShortPayloads (codec : EntryCodec) (s : WalRun) : WalOp → Prop
  | .append batch => ∀ b ∈ (marshalEntries codec batch).toOption, b.length < 2 ^ 32
  | .rotate _ => True
  | .compact k => ∀ b ∈ (compactData codec true s.dir k).toOption, b.length < 2 ^ 32

instance (codec : EntryCodec) (s : WalRun) : ∀ op, Decidable (s.ShortPayloads codec op)
  | .append batch => inferInstanceAs (Decidable (∀ b ∈ (marshalEntries codec batch).toOption, _))
  | .rotate _ => inferInstanceAs (Decidable True)
  | .compact k =>
      inferInstanceAs (Decidable (∀ b ∈ (compactData codec true s.dir k).toOption, _))

variable {codec : EntryCodec} {dir : Directory} {k : ℕ}

/-- No call of a run without crashes tears a frame. -/
theorem WalDir.step {s s' : WalRun} {op : WalOp} (h : WalDir codec s.dir)
    (hcodec : codec.Faithful) (hop : s.ShortPayloads codec op)
    (hstep : s.step codec op = some s') : WalDir codec s'.dir := by
  cases op with
  | append batch =>
      obtain ⟨bs, hbs, hb, rfl⟩ := WalRun.append_of_step hstep
      exact (h.append hcodec hbs (hop (frames bs) hb)).1
  | rotate now =>
      obtain rfl := Option.some.inj hstep
      exact h.rotate now
  | compact k =>
      obtain rfl := Option.some.inj hstep
      exact (h.compact hcodec hop).1

theorem WalDir.run {ops : List WalOp} {s : WalRun} (hcodec : codec.Faithful)
    (hrun : exec (WalRun.step codec) ⟨∅, []⟩ ops = some s)
    (hops : Guarded (WalRun.step codec) (WalRun.ShortPayloads codec) ⟨∅, []⟩ ops) :
    WalDir codec s.dir :=
  invariant_of_guarded (fun s => WalDir codec s.dir)
    (fun _ _ _ h hop hstep => h.step hcodec hop hstep) hrun hops WalDir.empty

/-- An entry above `k` is kept. -/
theorem mem_keepEntries {ents : List Entry} {e : Entry} (he : e ∈ ents) (hk : k < e.index) :
    e ∈ keepEntries k ents := by
  have hindexed : (ents.any fun e => decide (0 < e.index)) = true :=
    List.any_eq_true.mpr ⟨e, he, by simp; omega⟩
  rw [keepEntries_eq, if_pos hindexed]
  exact List.mem_filter.mpr ⟨he, by simpa using hk⟩

section Crash

variable {b : Bytes} (hdata : compactData codec true dir k = .ok b)
include hdata

theorem crashedDir_opening : crashedDir codec dir k .opening = dir := by
  simp [crashedDir, compact, CompactCrash.io, hdata]

theorem crashedDir_writing (n : ℕ) :
    crashedDir codec dir k (.writing n) = dir.insert "wal.log" ((frame b).take n) := by
  by_cases hn : n < 4
  · have htake : (frame b).take n = (header b.length).take n := by
      rw [frame, List.take_append_of_le_length (by rw [length_header]; omega)]
    simp [crashedDir, compact, CompactCrash.io, hn, hdata, writeFrame, htake]
  · have htake : (frame b).take n = header b.length ++ b.take (n - 4) := by
      rw [frame, List.take_append, length_header, List.take_of_length_le]
      rw [length_header]
      omega
    simp [crashedDir, compact, CompactCrash.io, hn, hdata, writeFrame, htake]

theorem crashedDir_removing (m : ℕ) :
    crashedDir codec dir k (.removing m) =
      ((obsoleteFiles (dir.insert "wal.log" (frame b))).filter
        fun name => name ∈ (obsoleteFiles dir).take m).foldl (fun dir name => dir.erase name)
          (dir.insert "wal.log" (frame b)) := by
  have hframe : writeFrame .ok [] b = (frame b, true) := rfl
  have hopened : FrameIO.ok.opened = true := rfl
  simp only [crashedDir, compact, CompactCrash.io, hdata, hopened, hframe, if_true]

end Crash

theorem keepsLaterEntries_iff_of_eq {ents ents' : List Entry} {crash : CompactCrash}
    (h : readEntries codec dir = .ok ents)
    (h' : readEntries codec (crashedDir codec dir k crash) = .ok ents') :
    KeepsLaterEntries codec dir k crash ↔ ∀ e ∈ ents, k < e.index → e ∈ ents' := by
  rw [KeepsLaterEntries, h, h']

/-- Nothing is read from a frame that is not complete. -/
theorem WalDir.keepsLaterEntries_of_incomplete (h : WalDir codec dir) (hcodec : codec.Faithful)
    {bs : List Bytes} (hdata : compactData codec true dir k = .ok (frames bs))
    (hshort : (frames bs).length < 2 ^ 32) {n : ℕ} (hn : n < (frame (frames bs)).length) :
    KeepsLaterEntries codec dir k (.writing n) ↔
      ∀ e ∈ fileEntries codec (walLog dir), k < e.index → e ∈ rotatedEntries codec dir := by
  have hread : read ((frame (frames bs)).take n) = none := by
    refine read_of_prefix hshort (List.take_prefix n _) ?_
    rw [List.length_take]
    omega
  have hnone : Decodes codec ((frame (frames bs)).take n) [] := .of_read_none hread
  have hafter : readEntries codec (crashedDir codec dir k (.writing n)) =
      .ok (rotatedEntries codec dir) := by
    rw [crashedDir_writing hdata, Raft.readEntries_eq hcodec, h.dirEntries_insert_log,
      hnone.fileEntries_eq hcodec, List.append_nil]
    intro name f hf hwal
    rcases OrdMap.getElem?_insert_cases hf with ⟨-, rfl⟩ | ⟨-, hf⟩
    · exact ⟨[], hnone⟩
    · exact (h name f hf hwal).decodes
  rw [keepsLaterEntries_iff_of_eq (h.readEntries_eq hcodec) hafter, h.dirEntries_eq]
  constructor
  · exact fun hkeep e he => hkeep e (List.mem_append_right _ he)
  · intro hlog e he hk
    rcases List.mem_append.mp he with he | he
    · exact he
    · exact hlog e he hk

/-- With the new frame in place, all entries above `k` are in `wal.log`. -/
theorem WalDir.keepsLaterEntries_of_frame (h : WalDir codec dir) (hcodec : codec.Faithful)
    {bs : List Bytes} (hbs : Encodings codec (keepEntries k (dirEntries codec dir)) bs)
    (hshort : (frames bs).length < 2 ^ 32) {crash : CompactCrash}
    (hafter : WalDir codec (crashedDir codec dir k crash))
    (hlog : (crashedDir codec dir k crash)["wal.log"]? = some (frame (frames bs))) :
    KeepsLaterEntries codec dir k crash := by
  rw [keepsLaterEntries_iff_of_eq (h.readEntries_eq hcodec) (hafter.readEntries_eq hcodec)]
  intro e he hk
  rw [hafter.dirEntries_eq, walLog, hlog]
  refine List.mem_append_right _ ?_
  rw [Option.getD_some, (Decodes.frame hbs hshort).fileEntries_eq hcodec]
  exact mem_keepEntries he hk

/-- A crash inside `Compact(k)` keeps every entry above `k` exactly if the new frame is
complete, or every such entry of `wal.log` is in a rotated file as well. -/
theorem keepsLaterEntries_iff (codec : EntryCodec) (hcodec : codec.Faithful) {ops : List WalOp}
    {s : WalRun} (k : ℕ) (crash : CompactCrash)
    (hrun : exec (WalRun.step codec) ⟨∅, []⟩ ops = some s)
    (hops : Guarded (WalRun.step codec) (WalRun.ShortPayloads codec) ⟨∅, []⟩
      (ops ++ [.compact k])) :
    KeepsLaterEntries codec s.dir k crash ↔
      crash.Complete codec s.dir k ∨
        ∀ e ∈ fileEntries codec (walLog s.dir), k < e.index → e ∈ rotatedEntries codec s.dir := by
  have h := WalDir.run hcodec hrun (guarded_of_append hops)
  have hlen : s.ShortPayloads codec (.compact k) := guard_of_append_cons hops hrun
  obtain ⟨bs, hdata, hbs⟩ := h.exists_compactData_eq hcodec k
  have hshort : (frames bs).length < 2 ^ 32 := hlen (frames bs) (by rw [hdata]; rfl)
  have hfile := walFile_frame hbs hshort
  cases crash with
  | opening =>
      refine iff_of_true ?_ (.inl trivial)
      rw [KeepsLaterEntries, crashedDir_opening hdata, h.readEntries_eq hcodec]
      exact fun e he _ => he
  | removing m =>
      refine iff_of_true (h.keepsLaterEntries_of_frame hcodec hbs hshort ?_ ?_) (.inl trivial)
      · rw [crashedDir_removing hdata]
        exact (h.insert fun _ => hfile).foldl_erase _
      · rw [crashedDir_removing hdata, OrdMap.getElem?_foldl_erase, if_neg,
          OrdMap.getElem?_insert_self']
        simp [obsoleteFiles]
  | writing n =>
      have hcomplete : CompactCrash.Complete codec s.dir k (.writing n) ↔
          (frame (frames bs)).length ≤ n := by
        simp [CompactCrash.Complete, hdata, Except.toOption]
      rw [hcomplete]
      by_cases hn : (frame (frames bs)).length ≤ n
      · refine iff_of_true (h.keepsLaterEntries_of_frame hcodec hbs hshort ?_ ?_) (.inl hn)
        · rw [crashedDir_writing hdata, List.take_of_length_le hn]
          exact h.insert fun _ => hfile
        · rw [crashedDir_writing hdata, List.take_of_length_le hn, OrdMap.getElem?_insert_self']
      · rw [h.keepsLaterEntries_of_incomplete hcodec hdata hshort (not_le.mp hn)]
        simp only [hn, false_or]

/-- The later entries are in a rotated file while `wal.log` is rewritten. -/
theorem keepsLaterEntries_iff_sample :
    ∃ s, exec (WalRun.step sampleCodec) ⟨∅, []⟩ [.append [sampleEntry 1, sampleEntry 2], .rotate 7]
        = some s ∧
      KeepsLaterEntries sampleCodec s.dir 1 (.writing 5) := by
  obtain ⟨s, hrun, hlog⟩ : ∃ s, exec (WalRun.step sampleCodec) ⟨∅, []⟩
      [.append [sampleEntry 1, sampleEntry 2], .rotate 7] = some s ∧
        ∀ e ∈ fileEntries sampleCodec (walLog s.dir), 1 < e.index →
          e ∈ rotatedEntries sampleCodec s.dir :=
    exists_exec_of_any (by decide +kernel)
  exact ⟨s, hrun, (keepsLaterEntries_iff sampleCodec sampleCodec_faithful 1 (.writing 5) hrun
    (by decide +kernel)).mpr (.inr hlog)⟩

/-- The later entry is in `wal.log` alone and is lost when the file has been truncated. -/
theorem not_keepsLaterEntries_truncated :
    ∃ s, exec (WalRun.step sampleCodec) ⟨∅, []⟩ [.append [sampleEntry 1, sampleEntry 2]] = some s ∧
      (readEntries sampleCodec s.dir).toOption = some [sampleEntry 1, sampleEntry 2] ∧
      (readEntries sampleCodec (crashedDir sampleCodec s.dir 1 (.writing 0))).toOption = some [] ∧
      ¬ KeepsLaterEntries sampleCodec s.dir 1 (.writing 0) :=
  exists_exec_of_any (by decide +kernel)

end StreamFlow.Raft
