import StreamFlow.Raft.Recovery
import StreamFlow.Raft.WalRefinement

/-!
# The write-ahead log as a storage of raft

`walAdapter` of `persistent_storage.go` reads the entries of a write-ahead log once and answers the
questions of `raftlib.Storage` from them. Its loops look at all entries. On a log whose indices
follow one another they find what a look at the position would give (`ContiguousFrom`), so that the
adapter stands for the log in the directory: for all indices in it, and with `maxSize` read as a
number of entries.
-/

namespace StreamFlow.Raft

open BigEndian Run

/-- `raftlib.ErrUnavailable`. -/
inductive StorageError where
  | unavailable
deriving DecidableEq, Repr

structure WalAdapter where
  ents : List Entry
deriving DecidableEq, Repr

/-- `NewEtcdStorageAdapter` on the store of a directory; the flag tells whether the files could be
read. A log that cannot be read or decoded counts as empty. -/
def newEtcdStorageAdapter (codec : EntryCodec) (readable : Bool) (dir : Directory) : WalAdapter :=
  match readWAL readable dir 0 with
  | .error _ => ⟨[]⟩
  | .ok data =>
      if 0 < data.length then
        match unmarshalEntries codec data with
        | .error _ => ⟨[]⟩
        | .ok ents => ⟨ents⟩
      else ⟨[]⟩

namespace WalAdapter

/-- The loop of `Entries`. -/
def entriesLoop (lo hi maxSize : ℕ) : List Entry → List Entry → List Entry
  | [], out => out
  | e :: ents, out =>
      if lo ≤ e.index ∧ e.index < hi then
        if 0 < maxSize ∧ maxSize ≤ (out ++ [e]).length then out ++ [e]
        else entriesLoop lo hi maxSize ents (out ++ [e])
      else entriesLoop lo hi maxSize ents out

def entries (w : WalAdapter) (lo hi maxSize : ℕ) : Except StorageError (List Entry) :=
  match entriesLoop lo hi maxSize w.ents [] with
  | [] => .error .unavailable
  | out => .ok out

def term (w : WalAdapter) (i : ℕ) : Except StorageError ℕ :=
  if i = 0 then .ok 0
  else
    match w.ents.find? fun e => e.index = i with
    | some e => .ok e.term
    | none => .error .unavailable

def lastIndex (w : WalAdapter) : ℕ := (w.ents.getLast?).elim 0 Entry.index

def firstIndex (w : WalAdapter) : ℕ := (w.ents.head?).elim 1 Entry.index

end WalAdapter

/-! ### Logs without gaps -/

/-- The entries have the indices from `first` on. -/
def ContiguousFrom (first : ℕ) (log : List Entry) : Prop :=
  ∀ (k : ℕ) (e : Entry), log[k]? = some e → e.index = first + k

namespace ContiguousFrom

variable {first : ℕ} {e : Entry} {log : List Entry}

theorem head (h : ContiguousFrom first (e :: log)) : e.index = first := h 0 e rfl

theorem tail (h : ContiguousFrom first (e :: log)) : ContiguousFrom (first + 1) log := by
  intro k e' he'
  rw [h (k + 1) e' he']
  omega

theorem of_contiguous (h : NodeRun.Contiguous (e :: log)) : ContiguousFrom e.index (e :: log) := by
  induction log generalizing e with
  | nil =>
      intro k e' he'
      cases k with
      | zero => simpa using congrArg (Option.map Entry.index) he'.symm
      | succ k => cases he'
  | cons e₁ log ih =>
      obtain ⟨hnext, hrest⟩ := List.isChain_cons_cons.mp h
      intro k e' he'
      cases k with
      | zero => simpa using congrArg (Option.map Entry.index) he'.symm
      | succ k =>
          rw [ih hrest k e' he', hnext]
          omega

/-- The entries in a range of indices are those in the range of positions. -/
theorem filter_eq (h : ContiguousFrom first log) (lo hi : ℕ) :
    (log.filter fun e => decide (lo ≤ e.index ∧ e.index < hi)) =
      (log.drop (lo - first)).take (hi - max lo first) := by
  induction log generalizing first with
  | nil => simp
  | cons e log ih =>
      rw [List.filter_cons, ih h.tail, h.head]
      by_cases hlo : lo ≤ first
      · by_cases hhi : first < hi
        · obtain ⟨k, rfl⟩ := Nat.exists_eq_add_of_lt hhi
          have hdrop : lo - first = 0 := by omega
          have hdrop' : lo - (first + 1) = 0 := by omega
          have htake : first + k + 1 - max lo first = k + 1 := by omega
          have htake' : first + k + 1 - max lo (first + 1) = k := by omega
          rw [if_pos (by simp [hlo, hhi]), hdrop, hdrop', htake, htake']
          rfl
        · have htake : hi - max lo first = 0 := by omega
          have htake' : hi - max lo (first + 1) = 0 := by omega
          rw [if_neg (by simp [hhi]), htake, htake']
          rfl
      · obtain ⟨k, rfl⟩ := Nat.exists_eq_add_of_lt (not_le.mp hlo)
        have hdrop : first + k + 1 - first = k + 1 := by omega
        have hdrop' : first + k + 1 - (first + 1) = k := by omega
        have hmax : max (first + k + 1) first = max (first + k + 1) (first + 1) := by omega
        rw [if_neg (by simp [hlo]), hdrop, hdrop', hmax]
        rfl

/-- A search through all entries finds the one at its position. -/
theorem find?_eq (h : ContiguousFrom first log) (i : ℕ) :
    (log.find? fun e => e.index = i) = if first ≤ i then log[i - first]? else none := by
  have hpred : (fun e : Entry => decide (e.index = i)) =
      fun e => decide (i ≤ e.index ∧ e.index < i + 1) := by
    funext e
    exact decide_eq_decide.mpr (by omega)
  rw [hpred, ← List.head?_filter, h.filter_eq]
  split
  · have hone : i + 1 - max i first = 1 := by omega
    rw [hone, List.head?_take, if_neg (by decide), List.head?_drop]
  · have hzero : i + 1 - max i first = 0 := by omega
    rw [hzero]
    rfl

end ContiguousFrom

namespace WalAdapter

/-- The loop of `Entries` takes the entries in the range, up to a number of them. -/
theorem entriesLoop_eq {lo hi maxSize : ℕ} (ents : List Entry) {out : List Entry}
    (hout : maxSize = 0 ∨ out.length < maxSize) :
    entriesLoop lo hi maxSize ents out =
      out ++ (ents.filter fun e => decide (lo ≤ e.index ∧ e.index < hi)).take
        (if maxSize = 0 then ents.length else maxSize - out.length) := by
  induction ents generalizing out with
  | nil => simp [entriesLoop]
  | cons e ents ih =>
      rw [entriesLoop]
      by_cases hin : lo ≤ e.index ∧ e.index < hi
      · rw [if_pos hin, List.filter_cons_of_pos (by simpa using hin)]
        by_cases hfull : 0 < maxSize ∧ maxSize ≤ (out ++ [e]).length
        · have hone : maxSize - out.length = 1 := by
            simp at hfull
            omega
          rw [if_pos hfull, if_neg (by omega), hone]
          rfl
        · rw [if_neg hfull, ih (by simp at hfull ⊢; omega)]
          rcases hout with rfl | hlt
          · simp
          · have hsucc : maxSize - out.length = (maxSize - (out ++ [e]).length) + 1 := by
              simp at hfull ⊢
              omega
            rw [if_neg (by omega), if_neg (by omega), hsucc, List.take_succ_cons,
              List.append_assoc]
            rfl
      · rw [if_neg hin, List.filter_cons_of_neg (by simpa using hin), ih hout]
        split
        · rw [List.take_of_length_le (List.length_filter_le _ _), List.take_of_length_le]
          exact (List.length_filter_le _ _).trans (Nat.le_succ _)
        · rfl

variable {w : WalAdapter}

theorem entries_of_range (h : ContiguousFrom w.firstIndex w.ents) {lo hi maxSize : ℕ}
    (hlo : w.firstIndex ≤ lo) (hlt : lo < hi) (hhi : hi ≤ w.firstIndex + w.ents.length) :
    w.entries lo hi maxSize = .ok ((w.ents.drop (lo - w.firstIndex)).take
      (if maxSize = 0 then hi - lo else min maxSize (hi - lo))) := by
  have hloop : entriesLoop lo hi maxSize w.ents [] = (w.ents.drop (lo - w.firstIndex)).take
      (if maxSize = 0 then hi - lo else min maxSize (hi - lo)) := by
    rw [entriesLoop_eq w.ents (by simp; omega), h.filter_eq, Nat.max_eq_left hlo, List.nil_append,
      List.take_take]
    congr 1
    split
    · rw [Nat.min_eq_right (by omega)]
    · rfl
  have hne : entriesLoop lo hi maxSize w.ents [] ≠ [] := by
    rw [hloop, Ne, ← List.length_eq_zero_iff, List.length_take, List.length_drop]
    split <;> omega
  rw [entries, ← hloop]
  split
  · next heq => exact absurd heq hne
  · rfl

theorem entries_of_outside {lo hi maxSize : ℕ}
    (hout : ∀ e ∈ w.ents, e.index < lo ∨ hi ≤ e.index) :
    w.entries lo hi maxSize = .error .unavailable := by
  have hnone : (w.ents.filter fun e => decide (lo ≤ e.index ∧ e.index < hi)) = [] := by
    refine List.filter_eq_nil_iff.mpr fun e he => ?_
    have := hout e he
    simp only [decide_eq_true_eq]
    omega
  have hnil : entriesLoop lo hi maxSize w.ents [] = [] := by
    rw [entriesLoop_eq w.ents (by simp; omega), hnone, List.take_nil, List.append_nil]
  rw [entries, hnil]

theorem term_eq (h : ContiguousFrom w.firstIndex w.ents) {i : ℕ} (hi : i ≠ 0) :
    w.term i = match (if w.firstIndex ≤ i then w.ents[i - w.firstIndex]? else none) with
      | some e => .ok e.term
      | none => .error .unavailable := by
  rw [term, if_neg hi, h.find?_eq]

theorem contiguousFrom_firstIndex (h : NodeRun.Contiguous w.ents) :
    ContiguousFrom w.firstIndex w.ents := by
  obtain ⟨ents⟩ := w
  cases ents with
  | nil => exact fun k e he => by cases he
  | cons e ents => exact .of_contiguous h

theorem lastIndex_add_one (h : ContiguousFrom w.firstIndex w.ents) :
    w.lastIndex + 1 = w.firstIndex + w.ents.length := by
  obtain ⟨ents⟩ := w
  cases hlast : ents.getLast? with
  | none =>
      rw [List.getLast?_eq_none_iff] at hlast
      subst hlast
      rfl
  | some e =>
      have hpos : 0 < ents.length := by
        cases ents with
        | nil => cases hlast
        | cons => simp
      have hindex := h (ents.length - 1) e (by rw [← hlast, List.getLast?_eq_getElem?])
      rw [lastIndex, hlast, Option.elim_some, hindex]
      dsimp only
      omega

end WalAdapter

/-- The adapter reads what the calls on the log have left, whatever files it is in. -/
theorem ents_newEtcdStorageAdapter {codec : EntryCodec} (hcodec : codec.Faithful)
    {ops : List WalOp} {s : WalRun} (hrun : exec (WalRun.step codec) ⟨∅, []⟩ ops = some s)
    (hops : Guarded (WalRun.step codec) (WalRun.Admissible codec) ⟨∅, []⟩ ops) :
    (newEtcdStorageAdapter codec true s.dir).ents = ops.foldl WalOp.apply [] := by
  obtain ⟨y, h⟩ := WalInv.start.run hcodec hrun hops
  have hdecode := h.unmarshal_readWAL hcodec
  rw [newEtcdStorageAdapter, h.readWAL_eq]
  dsimp only
  split
  · rw [hdecode]
  · next hempty =>
      -- no byte was read, and no bytes decode to no entries
      rw [List.length_eq_zero_iff.mp (Nat.eq_zero_of_not_pos hempty)] at hdecode
      exact Except.ok.inj hdecode

/-- The adapter serves the log of the directory. Whatever batches were appended, rotated and
compacted on an empty directory by admissible calls, as long as the indices of what is left follow
one another: the first and the last index enclose the log; the term of an index is that of its
entry, that of 0 is 0, and no other index has one, in particular not the index before the first one
that raft asks for after a compaction; a range in the log gives its entries, cut to `maxSize` of
them; and a range that meets no entry is unavailable. -/
theorem adapter_serves_wal (codec : EntryCodec) (hcodec : codec.Faithful) {ops : List WalOp}
    {s : WalRun} (hrun : exec (WalRun.step codec) ⟨∅, []⟩ ops = some s)
    (hops : Guarded (WalRun.step codec) (WalRun.Admissible codec) ⟨∅, []⟩ ops)
    {log : List Entry} (hlog : ops.foldl WalOp.apply [] = log) (hcontig : NodeRun.Contiguous log)
    {w : WalAdapter} (hw : newEtcdStorageAdapter codec true s.dir = w) :
    w.lastIndex + 1 = w.firstIndex + log.length ∧
    w.term 0 = .ok 0 ∧
    (∀ k e, log[k]? = some e → w.firstIndex + k ≠ 0 → w.term (w.firstIndex + k) = .ok e.term) ∧
    (∀ i, i ≠ 0 → i < w.firstIndex ∨ w.lastIndex < i → w.term i = .error .unavailable) ∧
    (∀ lo hi maxSize, w.firstIndex ≤ lo → lo < hi → hi ≤ w.lastIndex + 1 →
      w.entries lo hi maxSize = .ok ((log.drop (lo - w.firstIndex)).take
        (if maxSize = 0 then hi - lo else min maxSize (hi - lo)))) ∧
    ∀ lo hi maxSize, (∀ e ∈ log, e.index < lo ∨ hi ≤ e.index) →
      w.entries lo hi maxSize = .error .unavailable := by
  have hents : w.ents = log := by rw [← hw, ← hlog, ents_newEtcdStorageAdapter hcodec hrun hops]
  subst hents
  have h := WalAdapter.contiguousFrom_firstIndex hcontig
  have hlast := WalAdapter.lastIndex_add_one h
  refine ⟨hlast, rfl, ?_, ?_, ?_, ?_⟩
  · intro k e he hi
    rw [WalAdapter.term_eq h hi, if_pos (Nat.le_add_right _ _), Nat.add_sub_cancel_left, he]
  · intro i hi hout
    have hnone : (if w.firstIndex ≤ i then w.ents[i - w.firstIndex]? else none) = none := by
      split
      · exact List.getElem?_eq_none (by omega)
      · rfl
    rw [WalAdapter.term_eq h hi, hnone]
  · intro lo hi maxSize hlo hlt hhi
    exact WalAdapter.entries_of_range h hlo hlt (by omega)
  · intro lo hi maxSize hout
    exact WalAdapter.entries_of_outside hout

theorem adapter_serves_wal_sample :
    ∃ s w, exec (WalRun.step sampleCodec) ⟨∅, []⟩ walSample = some s ∧
      newEtcdStorageAdapter sampleCodec true s.dir = w ∧ w.firstIndex = 2 ∧ w.lastIndex = 4 ∧
      w.term 1 = .error .unavailable ∧
      w.entries 2 5 2 = .ok [sampleEntry 2, sampleEntry 3] := by
  obtain ⟨s, hrun, hfirst⟩ : ∃ s, exec (WalRun.step sampleCodec) ⟨∅, []⟩ walSample = some s ∧
      (newEtcdStorageAdapter sampleCodec true s.dir).firstIndex = 2 :=
    exists_exec_of_any (by decide +kernel)
  obtain ⟨hlast, -, -, hterm, hentries, -⟩ := adapter_serves_wal sampleCodec
    sampleCodec_faithful hrun (by decide +kernel) rfl (by decide +kernel) rfl
  have hfour : (newEtcdStorageAdapter sampleCodec true s.dir).lastIndex = 4 := by
    have hlength : (walSample.foldl WalOp.apply []).length = 3 := by decide +kernel
    omega
  refine ⟨s, _, hrun, rfl, hfirst, hfour, hterm 1 (by decide) (.inl (by omega)), ?_⟩
  rw [hentries 2 5 2 (by omega) (by decide) (by omega), hfirst]
  decide +kernel

end StreamFlow.Raft
