import Mathlib.Data.List.Chain
import StreamFlow.Raft.NodeRuns

/-!
# What a restart recovers

The memory storage replaces a suffix where the log only grows. After a restart it holds
the whole history of the batches, which is the log before the stop only if no batch has
replaced anything. After a compaction the history does not begin at index 1 any more,
and the memory storage panics.
-/

namespace StreamFlow.Raft

open BigEndian Frame Run

variable {μ : Type*} {codec : EntryCodec} {ms : MemoryStorage μ} {peers : Peers}

namespace NodeRun

/-- Every index is one above the index before. -/
def Contiguous (ents : List Entry) : Prop := ents.IsChain fun e e' => e'.index = e.index + 1

instance (ents : List Entry) : Decidable (Contiguous ents) :=
  inferInstanceAs (Decidable (List.IsChain _ _))

/-- A contiguous batch without a snapshot that starts at most one past the last index. -/
def StartsWithin (ms : MemoryStorage μ) (s : NodeRun μ) : NodeOp → Prop
  | .ready rd _ _ _ => rd.snapshot.index = 0 ∧ Contiguous rd.entries ∧
      ∀ e ∈ rd.entries.head?, 0 < e.index ∧ e.index ≤ ms.lastIndex s.node.mem + 1
  | .restart => False

instance (s : NodeRun μ) : ∀ op, Decidable (s.StartsWithin ms op)
  | .ready rd _ _ _ => inferInstanceAs (Decidable (_ ∧ _ ∧ ∀ e ∈ rd.entries.head?, _))
  | .restart => inferInstanceAs (Decidable False)

/-- The batch replaces nothing. -/
def AppendsAtEnd (ms : MemoryStorage μ) (s : NodeRun μ) : NodeOp → Prop
  | .ready rd _ _ _ => ∀ e ∈ rd.entries.head?, e.index = ms.lastIndex s.node.mem + 1
  | .restart => True

instance (s : NodeRun μ) : ∀ op, Decidable (s.AppendsAtEnd ms op)
  | .ready rd _ _ _ => inferInstanceAs (Decidable (∀ e ∈ rd.entries.head?, _))
  | .restart => inferInstanceAs (Decidable True)

theorem Contiguous.pos {ents : List Entry} (h : Contiguous ents)
    (hhead : ∀ e ∈ ents.head?, 0 < e.index) : ∀ e ∈ ents, 0 < e.index := by
  induction ents with
  | nil => exact fun e he => absurd he List.not_mem_nil
  | cons e ents ih =>
      have hpos : 0 < e.index := hhead e rfl
      obtain ⟨hnext, htail⟩ := List.isChain_cons.mp h
      intro e' he'
      rcases List.mem_cons.mp he' with rfl | he'
      · exact hpos
      · refine ih htail (fun e'' he'' => ?_) e' he'
        have hindex := hnext e'' he''
        omega

/-- A node on plain memory whose log begins at index 1. -/
structure FromFirst (codec : EntryCodec) (ms : MemoryStorage μ) (s : NodeRun μ) : Prop
    extends s.Sound codec where
  memory : s.node.persistent = false
  firstIndex : ms.firstIndex s.node.mem = 1
  head : ∀ e ∈ (dirEntries codec s.node.dir).head?, e.index = 1
  empty : dirEntries codec s.node.dir = [] → ms.entries s.node.mem = []

/-- The memory holds the entries of the log. -/
structure Agrees (codec : EntryCodec) (ms : MemoryStorage μ) (s : NodeRun μ) : Prop
    extends s.FromFirst codec ms where
  entries : ms.entries s.node.mem = dirEntries codec s.node.dir

/-- The memory holds fewer entries than the log. -/
structure Shorter (codec : EntryCodec) (ms : MemoryStorage μ) (s : NodeRun μ) : Prop
    extends s.FromFirst codec ms where
  length : (ms.entries s.node.mem).length < (dirEntries codec s.node.dir).length

variable {s s' : NodeRun μ}

theorem FromFirst.lastIndex_eq (h : s.FromFirst codec ms) :
    ms.lastIndex s.node.mem = (ms.entries s.node.mem).length := by
  rw [MemoryStorage.lastIndex, h.firstIndex]
  omega

theorem mem_of_storeReady {n n' : Node μ} {rd : Ready} {io : ReadyIO}
    (hmem : n.persistent = false) (hsnap : rd.snapshot.index = 0) {e : Entry} {ents : List Entry}
    (hents : rd.entries = e :: ents) (hstore : storeReady codec ms io n rd = some n') :
    ms.append n.mem (e :: ents) = some n'.mem := by
  rw [storeReady, hmem, hsnap, hents] at hstore
  obtain ⟨mem, happend, rfl⟩ := Option.map_eq_some_iff.mp hstore
  exact happend

/-- The log grows by the batch, and the memory replaces what it holds from the first index
of the batch on. -/
theorem FromFirst.ready (h : s.FromFirst codec ms) (hcodec : codec.Faithful)
    (hms : ms.ReplacesSuffix) {rd : Ready} {data : Bytes} {t₁ t₂ : ℕ}
    (hwithin : s.StartsWithin ms (.ready rd data t₁ t₂))
    (hshort : s.ShortWrites codec (.ready rd data t₁ t₂))
    (hstep : s.step codec ms peers (.ready rd data t₁ t₂) = some s') :
    s'.FromFirst codec ms ∧
      dirEntries codec s'.node.dir = dirEntries codec s.node.dir ++ rd.entries ∧
      ms.entries s'.node.mem =
        (rd.entries.head?.elim (ms.entries s.node.mem) fun e =>
          (ms.entries s.node.mem).take (e.index - 1)) ++ rd.entries := by
  obtain ⟨hsnap, hcontiguous, hstart⟩ := hwithin
  obtain ⟨hs', -, hpers, hlog, n, hstore, hmem⟩ := h.toSound.ready hcodec
    (hcontiguous.pos fun e he => (hstart e he).1) hshort hstep
  have hlast := h.lastIndex_eq
  rw [h.memory] at hlog hpers
  change _ = _ ++ rd.entries at hlog
  cases hents : rd.entries with
  | nil =>
      rw [hents, List.append_nil] at hlog
      rw [storeReady, if_pos hents, if_pos hsnap] at hstore
      obtain rfl := Option.some.inj hstore
      change s'.node.mem = s.node.mem at hmem
      refine ⟨⟨hs', hpers, ?_, ?_, ?_⟩, by rw [hlog, List.append_nil], ?_⟩
      · rw [hmem, h.firstIndex]
      · rw [hlog]
        exact h.head
      · rw [hlog, hmem]
        exact h.empty
      · rw [hmem]
        exact (List.append_nil _).symm
  | cons e ents =>
      have happend := mem_of_storeReady h.memory hsnap hents hstore
      obtain ⟨hpos, hle⟩ := hstart e (by rw [hents]; rfl)
      obtain ⟨m, hm, hfirst, hentries⟩ := hms s.node.mem e ents
        (by rw [h.firstIndex]; exact hpos) (by rw [h.firstIndex]; omega)
      obtain rfl := Option.some.inj (hm.symm.trans happend)
      rw [h.firstIndex] at hfirst hentries
      rw [hents] at hlog
      refine ⟨⟨hs', hpers, by rw [hmem, hfirst], ?_, ?_⟩, hlog, by rw [hmem, hentries]; rfl⟩
      · rw [hlog]
        cases hbefore : dirEntries codec s.node.dir with
        | nil =>
            -- the first batch starts at index 1
            rw [h.empty hbefore, List.length_nil] at hlast
            rintro _ ⟨⟩
            omega
        | cons e' ents' =>
            have hhead := h.head
            rw [hbefore] at hhead
            exact hhead
      · rw [hlog]
        exact fun hnil => absurd (List.append_eq_nil_iff.mp hnil).2 (List.cons_ne_nil e ents)

theorem Agrees.step (h : s.Agrees codec ms) (hcodec : codec.Faithful) (hms : ms.ReplacesSuffix)
    {op : NodeOp} (hwithin : s.StartsWithin ms op) (hshort : s.ShortWrites codec op)
    (hend : s.AppendsAtEnd ms op) (hstep : s.step codec ms peers op = some s') :
    s'.Agrees codec ms := by
  cases op with
  | restart => cases hwithin
  | ready rd data t₁ t₂ =>
      obtain ⟨hs', hlog, hmem⟩ := h.toFromFirst.ready hcodec hms hwithin hshort hstep
      refine ⟨hs', ?_⟩
      rw [hmem, hlog]
      cases hents : rd.entries with
      | nil => rw [List.head?_nil, Option.elim_none, h.entries]
      | cons e ents =>
          have hindex := hend e (by rw [hents]; rfl)
          rw [h.toFromFirst.lastIndex_eq] at hindex
          rw [List.head?_cons, Option.elim_some, hindex, Nat.add_sub_cancel, List.take_length,
            h.entries]

/-- The first batch that replaces something. -/
theorem Agrees.replace (h : s.Agrees codec ms) (hcodec : codec.Faithful) (hms : ms.ReplacesSuffix)
    {op : NodeOp} (hwithin : s.StartsWithin ms op) (hshort : s.ShortWrites codec op)
    (hend : ¬ s.AppendsAtEnd ms op) (hstep : s.step codec ms peers op = some s') :
    s'.Shorter codec ms := by
  cases op with
  | restart => cases hwithin
  | ready rd data t₁ t₂ =>
      obtain ⟨hs', hlog, hmem⟩ := h.toFromFirst.ready hcodec hms hwithin hshort hstep
      refine ⟨hs', ?_⟩
      rw [hmem, hlog]
      cases hents : rd.entries with
      | nil =>
          refine absurd (fun e he => ?_) hend
          rw [hents] at he
          cases he
      | cons e ents =>
          have hne : e.index ≠ ms.lastIndex s.node.mem + 1 := by
            intro heq
            refine hend fun e' he' => ?_
            rw [hents] at he'
            rwa [← Option.some.inj he']
          obtain ⟨hpos, hle⟩ := hwithin.2.2 e (by rw [hents]; rfl)
          have hlast := h.toFromFirst.lastIndex_eq
          rw [List.head?_cons, Option.elim_some, List.length_append, List.length_append,
            List.length_take, ← h.entries]
          omega

theorem Shorter.step (h : s.Shorter codec ms) (hcodec : codec.Faithful) (hms : ms.ReplacesSuffix)
    {op : NodeOp} (hwithin : s.StartsWithin ms op) (hshort : s.ShortWrites codec op)
    (hstep : s.step codec ms peers op = some s') : s'.Shorter codec ms := by
  cases op with
  | restart => cases hwithin
  | ready rd data t₁ t₂ =>
      obtain ⟨hs', hlog, hmem⟩ := h.toFromFirst.ready hcodec hms hwithin hshort hstep
      have hlength := h.length
      refine ⟨hs', ?_⟩
      rw [hmem, hlog, List.length_append, List.length_append]
      cases rd.entries.head? with
      | none =>
          rw [Option.elim_none]
          omega
      | some e =>
          rw [Option.elim_some, List.length_take]
          omega

/-- A restart makes the memory hold what the log holds. -/
theorem FromFirst.exists_start (h : s.FromFirst codec ms) (hcodec : codec.Faithful)
    (hms : ms.StartsEmpty) (hreplace : ms.ReplacesSuffix) :
    ∃ n, start codec ms .ok s.node.dir = some n ∧ ms.firstIndex n.mem = 1 ∧
      ms.entries n.mem = dirEntries codec s.node.dir := by
  obtain ⟨bs, -, hstart⟩ := h.walDir.start_eq hcodec
  rw [hstart, recoverSnapshot_eq hms]
  cases hlog : dirEntries codec s.node.dir with
  | nil => exact ⟨_, rfl, hms.firstIndex, hms.entries⟩
  | cons e ents =>
      have hindex : e.index = 1 := h.head e (by rw [hlog]; rfl)
      obtain ⟨m, hm, hfirst, hentries⟩ := hreplace ms.fresh e ents
        (by rw [hms.firstIndex, hindex]) (by rw [hms.firstIndex, hindex]; omega)
      rw [if_neg (List.cons_ne_nil e ents), hm]
      refine ⟨_, rfl, by rw [hfirst, hms.firstIndex], ?_⟩
      rw [hentries, hms.entries, List.take_nil, List.nil_append]

theorem Agrees.init (hms : ms.StartsEmpty) : (NodeRun.init ms).Agrees codec ms :=
  ⟨⟨Sound.init, rfl, hms.firstIndex, fun _ he => absurd he (by rintro ⟨⟩), fun _ => hms.entries⟩,
    hms.entries⟩

end NodeRun

open NodeRun

/-- A restart recovers the log as it was before the stop exactly if every batch started one
past the last index. -/
theorem start_sameLog_iff (codec : EntryCodec) (hcodec : codec.Faithful) (ms : MemoryStorage μ)
    (hms : ms.StartsEmpty) (hreplace : ms.ReplacesSuffix) (peers : Peers) {ops : List NodeOp}
    {s : NodeRun μ}
    (hrun : exec (NodeRun.step codec ms peers) (NodeRun.init ms) ops = some s)
    (hwithin : Guarded (NodeRun.step codec ms peers) (StartsWithin ms) (NodeRun.init ms) ops)
    (hshort : Guarded (NodeRun.step codec ms peers) (ShortWrites codec) (NodeRun.init ms) ops) :
    ∃ n, start codec ms .ok s.node.dir = some n ∧
      (ms.SameLog n.mem s.node.mem ↔
        Guarded (NodeRun.step codec ms peers) (AppendsAtEnd ms) (NodeRun.init ms) ops) := by
  rcases good_or_bad (Agrees codec ms) (Shorter codec ms)
    (fun s op s' h hop hend hstep => h.step hcodec hreplace hop.1 hop.2 hend hstep)
    (fun s op s' h hop hend hstep => h.replace hcodec hreplace hop.1 hop.2 hend hstep)
    (fun s op s' h hop hstep => h.step hcodec hreplace hop.1 hop.2 hstep)
    hrun (guarded_and hwithin hshort) (Agrees.init hms) with ⟨hend, h⟩ | ⟨hend, h⟩
  · obtain ⟨n, hstart, hfirst, hentries⟩ := h.exists_start hcodec hms hreplace
    refine ⟨n, hstart, iff_of_true ?_ hend⟩
    rw [ms.sameLog_iff (hfirst.trans h.firstIndex.symm), hentries, h.entries]
  · obtain ⟨n, hstart, hfirst, hentries⟩ := h.exists_start hcodec hms hreplace
    refine ⟨n, hstart, iff_of_false ?_ hend⟩
    rw [ms.sameLog_iff (hfirst.trans h.firstIndex.symm), hentries]
    intro heq
    have hlength := h.length
    rw [heq] at hlength
    omega

theorem start_sameLog_iff_sample :
    ∃ s n, exec (NodeRun.step sampleCodec memoryLog ⟨true, ∅⟩) (NodeRun.init memoryLog)
        [batchOf [sampleEntry 1, sampleEntry 2], batchOf [], batchOf [sampleEntry 3]] = some s ∧
      start sampleCodec memoryLog .ok s.node.dir = some n ∧
      memoryLog.SameLog n.mem s.node.mem := by
  obtain ⟨s, hrun, -⟩ : ∃ s, exec (NodeRun.step sampleCodec memoryLog ⟨true, ∅⟩)
      (NodeRun.init memoryLog)
      [batchOf [sampleEntry 1, sampleEntry 2], batchOf [], batchOf [sampleEntry 3]] = some s ∧
        True :=
    exists_exec_of_any (by decide +kernel)
  obtain ⟨n, hstart, hiff⟩ := start_sameLog_iff sampleCodec sampleCodec_faithful memoryLog
    memoryLog_startsEmpty memoryLog_replacesSuffix ⟨true, ∅⟩ hrun (by decide +kernel)
    (by decide +kernel)
  exact ⟨s, n, hrun, hstart, hiff.mpr (by decide +kernel)⟩

/-- An entry of the second term that replaces one of the first. -/
def conflictingEntry : Entry := ⟨2, 2, .normal, []⟩

def conflictCodec : EntryCodec :=
  let t := (conflictingEntry, [8, 0, 16, 2, 24, 2]) ::
    [1, 2, 3].map fun i => (sampleEntry i, [8, 0, 16, 1, 24, UInt8.ofNat i])
  ⟨CodecTable.encode t, CodecTable.decode t⟩

/-- The entries from index 2 on have been replaced, and the restart brings them back. -/
theorem start_not_sameLog :
    ∃ s, exec (NodeRun.step conflictCodec memoryLog ⟨true, ∅⟩) (NodeRun.init memoryLog)
        [batchOf [sampleEntry 1, sampleEntry 2, sampleEntry 3], batchOf [conflictingEntry]] =
        some s ∧
      Guarded (NodeRun.step conflictCodec memoryLog ⟨true, ∅⟩) (StartsWithin memoryLog)
        (NodeRun.init memoryLog)
        [batchOf [sampleEntry 1, sampleEntry 2, sampleEntry 3], batchOf [conflictingEntry]] ∧
      memoryLog.entryAt s.node.mem 2 = some conflictingEntry ∧
      memoryLog.lastIndex s.node.mem = 2 ∧
      ∃ n ∈ start conflictCodec memoryLog .ok s.node.dir,
        memoryLog.entryAt n.mem 2 = some (sampleEntry 2) ∧ memoryLog.lastIndex n.mem = 4 :=
  exists_exec_of_any (by decide +kernel)

/-- No run tears a frame. -/
theorem NodeRun.Sound.run (hcodec : codec.Faithful) {ops : List NodeOp} {s : NodeRun μ}
    (hrun : exec (NodeRun.step codec ms peers) (NodeRun.init ms) ops = some s)
    (hindexed : ∀ op ∈ ops, Indexed op)
    (hshort : Guarded (NodeRun.step codec ms peers) (ShortWrites codec) (NodeRun.init ms) ops) :
    s.Sound codec := by
  have hguard := guarded_and (guarded_of_forall_mem fun op hop _ => hindexed op hop) hshort
  refine invariant_of_guarded (Sound codec) (fun s op s' h hop hstep => ?_) hrun hguard Sound.init
  cases op with
  | ready rd data t₁ t₂ => exact (h.ready hcodec hop.1 hop.2 hstep).1
  | restart => exact (h.restart hcodec hop.2 hstep).1

/-- The entries above `k` of a log with the indices from 1 to `n`. -/
theorem map_index_keepEntries {ents : List Entry} {n k : ℕ}
    (h : ents.map Entry.index = List.range' 1 n) (hk : k < n) :
    (keepEntries k ents).map Entry.index = List.range' (k + 1) (n - k) := by
  have hsplit : List.range' 1 n = List.range' 1 k ++ List.range' (k + 1) (n - k) := by
    rw [Nat.add_comm k 1, List.range'_append_1, Nat.add_sub_cancel' hk.le]
  have hindexed : (ents.any fun e => decide (0 < e.index)) = true := by
    rw [List.any_eq_true]
    have hone : 1 ∈ ents.map Entry.index := by
      rw [h, List.mem_range'_1]
      omega
    obtain ⟨e, he, heq⟩ := List.mem_map.mp hone
    exact ⟨e, he, by simp [heq]⟩
  have hlow : (List.range' 1 k).filter (fun i => decide (k < i)) = [] := by
    rw [List.filter_eq_nil_iff]
    intro i hi
    rw [List.mem_range'_1] at hi
    simp
    omega
  have hhigh : (List.range' (k + 1) (n - k)).filter (fun i => decide (k < i)) =
      List.range' (k + 1) (n - k) := by
    rw [List.filter_eq_self]
    intro i hi
    rw [List.mem_range'_1] at hi
    simp
    omega
  have hmap : (ents.filter fun e => decide (k < e.index)).map Entry.index =
      (ents.map Entry.index).filter fun i => decide (k < i) := by
    rw [List.filter_map]
    rfl
  rw [keepEntries_eq, if_pos hindexed, hmap, h, hsplit, List.filter_append, hlow, hhigh,
    List.nil_append]

/-- A node whose log has been compacted up to `k` starts again exactly if `k` is 0: the
memory storage panics at the first entry that was kept. -/
theorem start_nodeCompact_isSome_iff (codec : EntryCodec) (hcodec : codec.Faithful)
    (ms : MemoryStorage μ) (hms : ms.StartsEmpty) (hreplace : ms.ReplacesSuffix)
    (hgap : ms.PanicsOnGap) (peers : Peers) {ops : List NodeOp} {s : NodeRun μ}
    (hrun : exec (NodeRun.step codec ms peers) (NodeRun.init ms) ops = some s)
    (hindexed : ∀ op ∈ ops, Indexed op)
    (hshort : Guarded (NodeRun.step codec ms peers) (ShortWrites codec) (NodeRun.init ms) ops)
    {ents : List Entry} {n k : ℕ} (hents : readEntries codec s.node.dir = .ok ents)
    (hindex : ents.map Entry.index = List.range' 1 n) (hk : k < n)
    (hfits : Fits codec (keepEntries k ents)) (now : ℕ) :
    (start codec ms .ok (nodeCompact codec (.ok now) s.node.dir k).1).isSome ↔ k = 0 := by
  have h := Sound.run hcodec hrun hindexed hshort
  rw [h.walDir.readEntries_eq hcodec] at hents
  obtain rfl := Except.ok.inj hents
  obtain ⟨hdir, hkept⟩ := h.walDir.nodeCompact hcodec hfits now
  obtain ⟨bs, -, hstart⟩ := hdir.start_eq hcodec
  have hmap := map_index_keepEntries hindex hk
  obtain ⟨d, hd⟩ : ∃ d, n - k = d + 1 := ⟨n - k - 1, by omega⟩
  rw [hstart, hkept, recoverSnapshot_eq hms]
  cases hlog : keepEntries k (dirEntries codec s.node.dir) with
  | nil =>
      rw [hlog, hd] at hmap
      cases hmap
  | cons e rest =>
      rw [hlog, hd, List.map_cons, List.range'_succ] at hmap
      have hfirst : e.index = k + 1 := (List.cons.inj hmap).1
      rw [if_neg (List.cons_ne_nil e rest), Option.isSome_map]
      rcases Nat.eq_zero_or_pos k with rfl | hpos
      · obtain ⟨m, hm, -⟩ := hreplace ms.fresh e rest (by rw [hms.firstIndex, hfirst])
          (by rw [hms.firstIndex, hfirst]; omega)
        rw [hm]
        exact iff_of_true rfl rfl
      · rw [hgap ms.fresh e rest (by rw [hms.firstIndex, hms.entries, hfirst]; simpa using hpos)]
        exact iff_of_false Bool.false_ne_true (by omega)

theorem start_nodeCompact_isSome_iff_sample :
    ∃ s, exec (NodeRun.step sampleCodec memoryLog ⟨true, ∅⟩) (NodeRun.init memoryLog)
        [batchOf [sampleEntry 1, sampleEntry 2], batchOf [sampleEntry 3]] = some s ∧
      (start sampleCodec memoryLog .ok
        (nodeCompact sampleCodec (.ok 7) s.node.dir 0).1).isSome := by
  obtain ⟨s, hrun, hents⟩ : ∃ s, exec (NodeRun.step sampleCodec memoryLog ⟨true, ∅⟩)
      (NodeRun.init memoryLog)
      [batchOf [sampleEntry 1, sampleEntry 2], batchOf [sampleEntry 3]] = some s ∧
        (readEntries sampleCodec s.node.dir).toOption =
          some [sampleEntry 1, sampleEntry 2, sampleEntry 3] :=
    exists_exec_of_any (by decide +kernel)
  refine ⟨s, hrun, (start_nodeCompact_isSome_iff sampleCodec sampleCodec_faithful memoryLog
    memoryLog_startsEmpty memoryLog_replacesSuffix memoryLog_panicsOnGap ⟨true, ∅⟩ hrun
    (by decide +kernel) (by decide +kernel) (eq_ok_of_toOption hents) (n := 3) (by decide)
    (by decide) (by decide +kernel) 7).mpr rfl⟩

/-- The first entry that was kept has index 2. -/
theorem start_nodeCompact_panics :
    ∃ s, exec (NodeRun.step sampleCodec memoryLog ⟨true, ∅⟩) (NodeRun.init memoryLog)
        [batchOf [sampleEntry 1, sampleEntry 2, sampleEntry 3]] = some s ∧
      (readEntries sampleCodec s.node.dir).toOption =
        some [sampleEntry 1, sampleEntry 2, sampleEntry 3] ∧
      (start sampleCodec memoryLog .ok (nodeCompact sampleCodec (.ok 7) s.node.dir 1).1).isNone :=
  exists_exec_of_any (by decide +kernel)

end StreamFlow.Raft
