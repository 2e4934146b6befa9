import StreamFlow.Foundation.Run
import StreamFlow.Raft.Node

/-!
# Runs of a raft node

A node handles one `Ready` after the other and is restarted on its directory in
between, with no errors of the file system. What a batch and a restart add to the log
is said once, by `Sound.ready` and `Sound.restart`. A restart on a log with entries
writes all of them again, and from then on every batch is written twice.
-/

namespace StreamFlow.Raft

open BigEndian Frame Run

/-- A `Ready`, with what is written into a snapshot and when the snapshot is saved and the
log rotated, or a restart. -/
inductive NodeOp where
  | ready (rd : Ready) (data : Bytes) (snapshotTime rotationTime : ℕ)
  | restart

/-- The node, and the entries of the batches so far. -/
structure NodeRun (μ : Type*) where
  node : Node μ
  batches : List Entry

variable {μ : Type*} {codec : EntryCodec} {ms : MemoryStorage μ} {peers : Peers}

namespace NodeRun

/-- A node on an empty directory. -/
def init (ms : MemoryStorage μ) : NodeRun μ := ⟨⟨∅, ms.fresh, false⟩, []⟩

def step (codec : EntryCodec) (ms : MemoryStorage μ) (peers : Peers) (s : NodeRun μ) :
    NodeOp → Option (NodeRun μ)
  | .ready rd data t₁ t₂ =>
      (handleReady codec ms peers (.ok data t₁ t₂) s.node rd).map fun r =>
        ⟨r.2, s.batches ++ rd.entries⟩
  | .restart => (start codec ms .ok s.node.dir).map fun n => ⟨n, s.batches⟩

/-- The payloads that are written are shorter than `2 ^ 32` bytes: those of the batch, of
the compaction after a large batch, and of the entries that a restart writes again. -/
def ShortWrites (codec : EntryCodec) (s : NodeRun μ) : NodeOp → Prop
  | .ready rd _ _ _ => Fits codec rd.entries ∧
      (50 ≤ rd.entries.length →
        Fits codec (dirEntries codec s.node.dir ++ written s.node.persistent rd.entries))
  | .restart => Fits codec (dirEntries codec s.node.dir)

instance (s : NodeRun μ) : ∀ op, Decidable (s.ShortWrites codec op)
  | .ready rd _ _ _ => inferInstanceAs (Decidable (Fits codec rd.entries ∧ (_ → _)))
  | .restart => inferInstanceAs (Decidable (Fits codec _))

/-- The log is whole, and its entries have an index. -/
structure Sound (codec : EntryCodec) (s : NodeRun μ) : Prop where
  walDir : WalDir codec s.node.dir
  indexed : ∀ e ∈ dirEntries codec s.node.dir, 0 < e.index

variable {s s' : NodeRun μ}

theorem keepEntries_zero {ents : List Entry} (h : ∀ e ∈ ents, 0 < e.index) :
    keepEntries 0 ents = ents := by
  rw [keepEntries_eq, List.drop_zero, List.filter_eq_self.mpr, ite_self]
  exact fun e he => decide_eq_true (h e he)

theorem mem_written {persistent : Bool} {ents : List Entry} {e : Entry}
    (h : e ∈ written persistent ents) : e ∈ ents := by
  rw [written] at h
  split at h
  · exact (List.mem_append.mp h).elim id id
  · exact h

/-- A batch, and the compaction after a large one. -/
theorem Sound.ready (h : s.Sound codec) (hcodec : codec.Faithful) {rd : Ready} {data : Bytes}
    {t₁ t₂ : ℕ} (hindexed : ∀ e ∈ rd.entries, 0 < e.index)
    (hshort : s.ShortWrites codec (.ready rd data t₁ t₂))
    (hstep : s.step codec ms peers (.ready rd data t₁ t₂) = some s') :
    s'.Sound codec ∧ s'.batches = s.batches ++ rd.entries ∧
      s'.node.persistent = s.node.persistent ∧
      dirEntries codec s'.node.dir =
        dirEntries codec s.node.dir ++ written s.node.persistent rd.entries ∧
      ∃ n, storeReady codec ms (.ok data t₁ t₂) s.node rd = some n ∧ s'.node.mem = n.mem := by
  obtain ⟨r, hr, rfl⟩ := Option.map_eq_some_iff.mp hstep
  obtain ⟨n, hstore, rfl⟩ := Option.map_eq_some_iff.mp hr
  obtain ⟨hdir, hpers, hents⟩ := h.walDir.storeReady hcodec hshort.1 hstore
  have hall : ∀ e ∈ dirEntries codec n.dir, 0 < e.index := by
    rw [hents]
    intro e he
    rcases List.mem_append.mp he with he | he
    · exact h.indexed e he
    · exact hindexed e (mem_written he)
  have hfits : 50 ≤ rd.entries.length → Fits codec (keepEntries 0 (dirEntries codec n.dir)) := by
    intro hlen
    rw [keepEntries_zero hall, hents]
    exact hshort.2 hlen
  obtain ⟨hdir', hents'⟩ := hdir.checkpoint hcodec hfits data t₁ t₂
  rw [keepEntries_zero hall, ite_self] at hents'
  refine ⟨⟨hdir', ?_⟩, rfl, ?_, ?_, n, hstore, mem_checkpoint _ _ _⟩
  · dsimp only
    rw [hents']
    exact hall
  · exact (persistent_checkpoint _ _ _).trans hpers
  · exact hents'.trans hents

/-- A restart. -/
theorem Sound.restart (h : s.Sound codec) (hcodec : codec.Faithful)
    (hshort : s.ShortWrites codec .restart)
    (hstep : s.step codec ms peers .restart = some s') :
    s'.Sound codec ∧ s'.batches = s.batches ∧
      (s'.node.persistent = true ↔ dirEntries codec s.node.dir ≠ []) ∧
      dirEntries codec s'.node.dir =
        dirEntries codec s.node.dir ++ dirEntries codec s.node.dir := by
  obtain ⟨n, hstart, rfl⟩ := Option.map_eq_some_iff.mp hstep
  obtain ⟨bs, hbs, hstart'⟩ := h.walDir.start_eq hcodec
  rw [hstart'] at hstart
  split at hstart
  · next hnil =>
      obtain rfl := Option.some.inj hstart
      refine ⟨⟨h.walDir, h.indexed⟩, rfl, by simp [hnil], ?_⟩
      dsimp only
      rw [hnil, List.append_nil]
  · next hne =>
      obtain ⟨mem, -, rfl⟩ := Option.map_eq_some_iff.mp hstart
      obtain ⟨hdir, hents⟩ := h.walDir.append hcodec hbs (Fits.length_lt hshort hbs)
      refine ⟨⟨hdir, ?_⟩, rfl, by simp [hne], hents⟩
      dsimp only
      rw [hents]
      exact fun e he => (List.mem_append.mp he).elim (h.indexed e) (h.indexed e)

theorem Sound.init : (NodeRun.init ms).Sound codec :=
  ⟨WalDir.empty, fun _ he => absurd he List.not_mem_nil⟩

/-- The entries of a batch have an index, as all entries of the raft library. -/
def Indexed : NodeOp → Prop
  | .ready rd _ _ _ => ∀ e ∈ rd.entries, 0 < e.index
  | .restart => True

instance : ∀ op, Decidable (Indexed op)
  | .ready rd _ _ _ => inferInstanceAs (Decidable (∀ e ∈ rd.entries, _))
  | .restart => inferInstanceAs (Decidable True)

/-- A restart comes before the first batch with entries. -/
def NothingToReplay (s : NodeRun μ) : NodeOp → Prop
  | .ready _ _ _ _ => True
  | .restart => s.batches = []

instance (s : NodeRun μ) : ∀ op, Decidable (s.NothingToReplay op)
  | .ready _ _ _ _ => inferInstanceAs (Decidable True)
  | .restart => inferInstanceAs (Decidable (_ = _))

/-- Every entry has been written once. -/
structure WrittenOnce (codec : EntryCodec) (s : NodeRun μ) : Prop extends s.Sound codec where
  memory : s.node.persistent = false
  entries : dirEntries codec s.node.dir = s.batches

/-- Something has been written again. -/
structure WrittenAgain (codec : EntryCodec) (s : NodeRun μ) : Prop extends s.Sound codec where
  longer : s.batches.length < (dirEntries codec s.node.dir).length

theorem WrittenOnce.step (h : s.WrittenOnce codec) (hcodec : codec.Faithful) {op : NodeOp}
    (hindexed : Indexed op) (hshort : s.ShortWrites codec op) (hop : s.NothingToReplay op)
    (hstep : s.step codec ms peers op = some s') : s'.WrittenOnce codec := by
  cases op with
  | ready rd data t₁ t₂ =>
      obtain ⟨hs', hbatches, hpers, hents, -⟩ := h.toSound.ready hcodec hindexed hshort hstep
      refine ⟨hs', hpers.trans h.memory, ?_⟩
      rw [hents, h.memory, h.entries, hbatches]
      rfl
  | restart =>
      obtain ⟨hs', hbatches, hpers, hents⟩ := h.toSound.restart hcodec hshort hstep
      have hnil : dirEntries codec s.node.dir = [] := h.entries.trans hop
      refine ⟨hs', ?_, ?_⟩
      · simpa [hnil] using hpers
      · rw [hents, hbatches, hnil, List.append_nil]
        exact Eq.symm hop

/-- The first restart that finds entries. -/
theorem WrittenOnce.replay (h : s.WrittenOnce codec) (hcodec : codec.Faithful) {op : NodeOp}
    (hshort : s.ShortWrites codec op) (hop : ¬ s.NothingToReplay op)
    (hstep : s.step codec ms peers op = some s') : s'.WrittenAgain codec := by
  cases op with
  | ready rd data t₁ t₂ => exact absurd trivial hop
  | restart =>
      obtain ⟨hs', hbatches, -, hents⟩ := h.toSound.restart hcodec hshort hstep
      refine ⟨hs', ?_⟩
      have hpos := List.length_pos_iff.mpr hop
      rw [hents, hbatches, List.length_append, h.entries]
      omega

theorem WrittenAgain.step (h : s.WrittenAgain codec) (hcodec : codec.Faithful) {op : NodeOp}
    (hindexed : Indexed op) (hshort : s.ShortWrites codec op)
    (hstep : s.step codec ms peers op = some s') : s'.WrittenAgain codec := by
  have hlonger := h.longer
  cases op with
  | ready rd data t₁ t₂ =>
      obtain ⟨hs', hbatches, -, hents, -⟩ := h.toSound.ready hcodec hindexed hshort hstep
      have hlen : rd.entries.length ≤ (written s.node.persistent rd.entries).length := by
        rw [written]
        split
        · rw [List.length_append]
          omega
        · exact le_rfl
      refine ⟨hs', ?_⟩
      rw [hents, hbatches, List.length_append, List.length_append]
      omega
  | restart =>
      obtain ⟨hs', hbatches, -, hents⟩ := h.toSound.restart hcodec hshort hstep
      refine ⟨hs', ?_⟩
      rw [hents, hbatches, List.length_append]
      omega

end NodeRun

open NodeRun

/-- The entries in the log are those of the batches, each written once, exactly if every
restart comes before the first batch with entries. -/
theorem readEntries_eq_batches_iff (codec : EntryCodec) (hcodec : codec.Faithful)
    (ms : MemoryStorage μ) (peers : Peers) {ops : List NodeOp} {s : NodeRun μ}
    (hrun : exec (NodeRun.step codec ms peers) (NodeRun.init ms) ops = some s)
    (hindexed : ∀ op ∈ ops, Indexed op)
    (hshort : Guarded (NodeRun.step codec ms peers) (ShortWrites codec) (NodeRun.init ms) ops) :
    readEntries codec s.node.dir = .ok s.batches ↔
      Guarded (NodeRun.step codec ms peers) NothingToReplay (NodeRun.init ms) ops := by
  have hguard := guarded_and (guarded_of_forall_mem fun op hop _ => hindexed op hop) hshort
  have hinit : (NodeRun.init ms).WrittenOnce codec := ⟨Sound.init, rfl, rfl⟩
  rcases good_or_bad (WrittenOnce codec) (WrittenAgain codec)
    (fun s op s' h hop hstay hstep => h.step hcodec hop.1 hop.2 hstay hstep)
    (fun s op s' h hop hbreak hstep => h.replay hcodec hop.2 hbreak hstep)
    (fun s op s' h hop hstep => h.step hcodec hop.1 hop.2 hstep) hrun hguard hinit with
    ⟨hstay, h⟩ | ⟨hbreak, h⟩
  · refine iff_of_true ?_ hstay
    rw [h.walDir.readEntries_eq hcodec, h.entries]
  · refine iff_of_false ?_ hbreak
    rw [h.walDir.readEntries_eq hcodec]
    intro heq
    have hlonger := h.longer
    rw [Except.ok.inj heq] at hlonger
    omega

/-- A `Ready` with a batch only. -/
def batchOf (ents : List Entry) : NodeOp :=
  .ready ⟨⟨0, 0, 0⟩, ents, ⟨0, 0, []⟩, []⟩ [] 0 0

theorem readEntries_eq_batches_iff_sample :
    ∃ s, exec (NodeRun.step sampleCodec memoryLog ⟨true, ∅⟩) (NodeRun.init memoryLog)
        [.restart, batchOf [sampleEntry 1, sampleEntry 2], batchOf [], batchOf [sampleEntry 3]] =
        some s ∧
      readEntries sampleCodec s.node.dir =
        .ok [sampleEntry 1, sampleEntry 2, sampleEntry 3] := by
  obtain ⟨s, hrun, hbatches⟩ : ∃ s, exec (NodeRun.step sampleCodec memoryLog ⟨true, ∅⟩)
      (NodeRun.init memoryLog)
      [.restart, batchOf [sampleEntry 1, sampleEntry 2], batchOf [], batchOf [sampleEntry 3]] =
        some s ∧ s.batches = [sampleEntry 1, sampleEntry 2, sampleEntry 3] :=
    exists_exec_of_any (by decide +kernel)
  refine ⟨s, hrun, ?_⟩
  rw [← hbatches]
  exact (readEntries_eq_batches_iff sampleCodec sampleCodec_faithful memoryLog ⟨true, ∅⟩ hrun
    (by decide +kernel) (by decide +kernel)).mpr (by decide +kernel)

/-- A restart writes the batch before it again, and the batch behind it is written
twice. -/
theorem readEntries_ne_batches :
    ∃ s, exec (NodeRun.step sampleCodec memoryLog ⟨true, ∅⟩) (NodeRun.init memoryLog)
        [batchOf [sampleEntry 1], .restart, batchOf [sampleEntry 2]] = some s ∧
      s.batches = [sampleEntry 1, sampleEntry 2] ∧
      (readEntries sampleCodec s.node.dir).toOption =
        some [sampleEntry 1, sampleEntry 1, sampleEntry 2, sampleEntry 2] :=
  exists_exec_of_any (by decide +kernel)

end StreamFlow.Raft
