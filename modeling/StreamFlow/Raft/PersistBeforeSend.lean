import StreamFlow.Foundation.Run
import StreamFlow.Raft.Node

/-!
# Persist before send

When the loop sends the messages of a `Ready`, `storeReady` is over. A restart at that
moment reads back what is then in the directory. The hard state of the `Ready` is
stored nowhere, and the result of `AppendWAL` is not looked at: messages go out whether
or not the entries are in the log.
-/

namespace StreamFlow.Raft

open BigEndian ByteFile Frame Run

variable {μ : Type*} {codec : EntryCodec} {ms : MemoryStorage μ} {dir : Directory}

/-- A hard state is at least as recent as another: neither the term nor the commit index
goes back, and no vote of the same term is forgotten. -/
def HardState.AtMost (old new : HardState) : Prop :=
  old.term ≤ new.term ∧ old.commit ≤ new.commit ∧
    (old.term = new.term → old.vote = 0 ∨ old.vote = new.vote)

instance (old new : HardState) : Decidable (old.AtMost new) :=
  inferInstanceAs (Decidable (_ ∧ _ ∧ (_ → _)))

/-- The entries and the hard state of a `Ready` have been stored successfully: `AppendWAL`
returned no error for the entries, and `Start` reads both back from the directory. -/
structure Persisted (codec : EntryCodec) (ms : MemoryStorage μ) (io : ReadyIO) (n n' : Node μ)
    (rd : Ready) : Prop where
  stored : rd.entries = [] ∨
    ∃ b, marshalEntries codec rd.entries = .ok b ∧ (appendWAL io.wal n.dir b).2 = .ok ()
  entries : rd.entries <:+ recoverEntries codec .ok n'.dir
  hardState : rd.hardState.AtMost (ms.hardState (recoverSnapshot ms .ok n'.dir))

theorem HardState.atMost_zero_iff {hs : HardState} : hs.AtMost ⟨0, 0, 0⟩ ↔ hs = ⟨0, 0, 0⟩ := by
  obtain ⟨term, vote, commit⟩ := hs
  constructor
  · rintro ⟨hterm, hcommit, hvote⟩
    obtain rfl : term = 0 := Nat.le_zero.mp hterm
    obtain rfl : commit = 0 := Nat.le_zero.mp hcommit
    rcases hvote rfl with h | h <;> rw [show vote = 0 from h]
  · intro h
    rw [h]
    exact ⟨le_rfl, le_rfl, fun _ => .inl rfl⟩

/-- An incomplete frame at the end makes no difference. -/
theorem Decodes.append_torn {ps : List Bytes} {ents : List Entry}
    (h : Decodes codec (frames ps) ents) (hps : ∀ p ∈ ps, p.length < 2 ^ 32) {t : Bytes}
    (ht : read t = none) : Decodes codec (frames ps ++ t) ents := by
  rw [Decodes, split_frames hps] at h
  rwa [Decodes, split_frames_append hps ht]

/-- What `Start` reads after an append that may have failed on the way: the whole batch
or nothing of it. -/
theorem WalDir.recoverEntries_appendWAL (h : WalDir codec dir) (hcodec : codec.Faithful)
    {batch : List Entry} {bs : List Bytes} (hbs : Encodings codec batch bs)
    (hlen : (frames bs).length < 2 ^ 32) (io : FrameIO) :
    recoverEntries codec .ok (appendWAL io dir (frames bs)).1 = dirEntries codec dir ∨
      recoverEntries codec .ok (appendWAL io dir (frames bs)).1 =
        dirEntries codec dir ++ batch := by
  have hdecodes : ∀ name f, dir[name]? = some f → isWalName name = true →
      ∃ ents, Decodes codec f ents := fun name f hf hwal => (h name f hf hwal).decodes
  have hlog := h.walFile_log
  have hinsert : ∀ f ents, Decodes codec f ents →
      recoverEntries codec .ok (dir.insert "wal.log" f) = rotatedEntries codec dir ++ ents := by
    intro f ents hf
    rw [recoverEntries_ok hcodec, h.dirEntries_insert_log, hf.fileEntries_eq hcodec]
    intro name f' hf' hwal
    rcases OrdMap.getElem?_insert_cases hf' with ⟨-, rfl⟩ | ⟨-, hf'⟩
    · exact ⟨ents, hf⟩
    · exact hdecodes name f' hf' hwal
  rw [appendWAL_eq]
  dsimp only
  split
  · obtain ⟨ents, hents⟩ := hlog.decodes
    obtain ⟨ps, hps, hshort⟩ := hlog.whole
    rw [h.dirEntries_eq, hents.fileEntries_eq hcodec]
    rw [hps] at hents ⊢
    by_cases hwhole : (writtenBytes io (frames bs)).length < (frame (frames bs)).length
    · have hread := read_of_prefix hlen (writtenBytes_prefix_frame io (frames bs)) hwhole
      exact .inl (hinsert _ _ (hents.append_torn hshort hread))
    · have heq : writtenBytes io (frames bs) = frame (frames bs) :=
        (writtenBytes_prefix_frame io (frames bs)).eq_of_length_le (not_lt.mp hwhole)
      have hnew := hents.append_frame hshort hbs hlen
      rw [frames_append, frames_singleton, ← heq] at hnew
      rw [List.append_assoc]
      exact .inr (hinsert _ _ hnew)
  · exact .inl (recoverEntries_ok hcodec hdecodes)

theorem persistentAppend_fst (io : FrameIO) (mem : μ) {ents : List Entry} (hne : ents ≠ [])
    {bs : List Bytes} (hbs : Encodings codec ents bs) :
    (persistentAppend codec ms io dir mem ents).1 = (appendWAL io dir (frames bs)).1 := by
  rw [persistentAppend, if_neg hne, marshalEntries_eq_ok_iff.mpr ⟨bs, hbs, rfl⟩]
  dsimp only
  cases appendWAL io dir (frames bs) with
  | mk dir' res => cases res <;> rfl

/-- A batch that was appended successfully is read back, whatever happens to it in the
persistent memory. -/
theorem WalDir.suffix_recoverEntries {n n' : Node μ} (h : WalDir codec n.dir)
    (hcodec : codec.Faithful) {rd : Ready} {io : ReadyIO} {bs : List Bytes}
    (hbs : Encodings codec rd.entries bs) (hlen : (frames bs).length < 2 ^ 32)
    (hok : io.wal.succeeds = true) (hstore : Raft.storeReady codec ms io n rd = some n') :
    rd.entries <:+ recoverEntries codec .ok n'.dir := by
  by_cases hnil : rd.entries = []
  · rw [hnil]
    exact List.nil_suffix
  · obtain ⟨hdir, hents⟩ := h.append hcodec hbs hlen
    have happend :
        (appendWAL io.wal n.dir (frames bs)).1 = (appendWAL .ok n.dir (frames bs)).1 := by
      rw [appendWAL_ok, appendWAL_eq, writtenBytes_of_succeeds _ _ hok]
      simp only [ FrameIO.succeeds, Bool.and_eq_true] at hok
      rw [if_pos hok.1.1]
      rfl
    rw [Raft.storeReady, if_neg hnil, marshalEntries_eq_ok_iff.mpr ⟨bs, hbs, rfl⟩] at hstore
    dsimp only at hstore
    rw [happend] at hstore
    split at hstore
    · split at hstore
      · cases hstore
      · next dir' mem' res heq =>
          obtain rfl := Option.some.inj hstore
          have hfst := congrArg Prod.fst heq
          rw [persistentAppend_fst io.persistent _ hnil hbs] at hfst
          dsimp only at hfst ⊢
          rw [← hfst]
          rcases hdir.recoverEntries_appendWAL hcodec hbs hlen io.persistent with hrec | hrec
          · rw [hrec, hents]
            exact List.suffix_append _ _
          · rw [hrec]
            exact List.suffix_append _ _
    · obtain ⟨mem', -, rfl⟩ := Option.map_eq_some_iff.mp hstore
      dsimp only
      rw [recoverEntries_ok hcodec fun name f hf hwal => (hdir name f hf hwal).decodes, hents]
      exact List.suffix_append _ _

/-- An entry and a message to a node whose address is not known. -/
def sampleReady (hs : HardState) : Ready :=
  ⟨hs, [sampleEntry 1], ⟨0, 0, []⟩, [⟨2, some [9]⟩]⟩

/-- The first `Ready` of a node with two peers, with an entry for each of them. -/
def bootReady : Ready := ⟨⟨1, 0, 2⟩, [sampleEntry 1, sampleEntry 2], ⟨0, 0, []⟩, []⟩

/-- Node 1 votes for itself in the next term and asks node 2 for its vote. -/
def voteReady : Ready := ⟨⟨2, 1, 2⟩, [], ⟨0, 0, []⟩, [⟨2, some [9]⟩]⟩

end StreamFlow.Raft
