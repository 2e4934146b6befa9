import StreamFlow.Foundation.Blocks
import StreamFlow.Processor.AggregateFuncs

/-!
# Count windows

`WindowAggregateOperator` of `op.go`. It counts as `AggregateOperator` does, emits its counts
after every `WindowSize` records and starts again, and emits once more at the end if any record
was counted since. A running number of records tells where a window ends; a window size that is
not positive ends none.
-/

namespace StreamFlow.Processor

open Grouping Blocks

structure WindowAggregateOperator where
  key : String
  windowSize : ℤ

/-- The variables of the loop, and what has been sent. -/
structure WindowCounts where
  counts : OrdMap String ℕ
  seen : ℕ
  out : List (OrdMap String ℕ)

variable {φ ω α : Type}

namespace WindowAggregateOperator

/-- The operator that counts in the same way without windows. -/
def whole (w : WindowAggregateOperator) : AggregateOperator := ⟨w.key⟩

/-- The body of the loop in `WindowAggregateOperator.Process`. -/
def step (w : WindowAggregateOperator) (fmt : Sprintf φ ω) (st : WindowCounts)
    (r : Record (Value φ ω)) : WindowCounts :=
  let counts := w.whole.count fmt st.counts r
  let seen := st.seen + 1
  if 0 < w.windowSize ∧ (seen : ℤ) % w.windowSize = 0 then ⟨∅, seen, st.out ++ [counts]⟩
  else ⟨counts, seen, st.out⟩

/-- The counts that are sent, one map after the other. -/
def results (w : WindowAggregateOperator) (fmt : Sprintf φ ω)
    (input : List (Record (Value φ ω))) : List (OrdMap String ℕ) :=
  let st := input.foldl (w.step fmt) ⟨∅, 0, []⟩
  if 0 < st.counts.size then st.out ++ [st.counts] else st.out

/-- `WindowAggregateOperator.Process`: what it emits for the records of its input. -/
def process (w : WindowAggregateOperator) (fmt : Sprintf φ ω)
    (input : List (Record (Value φ ω))) : List (Record (Aggregated α)) :=
  (w.results fmt input).map fun m => recordOf "counts" (.counts m)

end WindowAggregateOperator

/-- The counts in a record that an operator emits. -/
def countsIn (r : Record (Aggregated α)) : Option (OrdMap String ℕ) :=
  match (fields r)["counts"]? with
  | some (.counts m) => some m
  | _ => none

/-- Add counts to others, key by key. -/
def addCounts (acc m : OrdMap String ℕ) : OrdMap String ℕ :=
  m.toList.foldl (fun acc e => acc.insert e.1 ((acc[e.1]?).getD 0 + e.2)) acc

/-- The sum of several counts, key by key. -/
def totalCounts (ms : List (OrdMap String ℕ)) : OrdMap String ℕ := ms.foldl addCounts ∅

theorem countsIn_recordOf (m : OrdMap String ℕ) :
    countsIn (recordOf "counts" (.counts m) : Record (Aggregated α)) = some m := by
  have hget : (fields (recordOf "counts" (.counts m) : Record (Aggregated α)))["counts"]? =
      some (.counts m) := OrdMap.getElem?_insert_self' _ _ _
  rw [countsIn, hget]

/-- Counts without zeros add up to counts without zeros. -/
theorem getElem?_addCounts {acc m : OrdMap String ℕ} {g : String} {a b : ℕ}
    (hacc : acc[g]? = countEntry a) (hm : m[g]? = countEntry b) :
    (addCounts acc m)[g]? = countEntry (a + b) := by
  have hlook : ∀ (acc : OrdMap String ℕ) (e : String × ℕ),
      (acc.insert e.1 ((acc[e.1]?).getD 0 + e.2))[g]? =
        if decide (e.1 = g) then some ((acc[g]?).getD 0 + e.2) else acc[g]? := by
    intro acc e
    rw [OrdMap.getElem?_insert]
    by_cases heq : e.1 = g
    · simp [heq]
    · simp [heq]
  rw [addCounts, foldl_look (fun m : OrdMap String ℕ => m[g]?) (fun e => decide (e.1 = g))
    (fun o e => some (o.getD 0 + e.2)) hlook, OrdMap.filter_toList_key, hacc, hm]
  rcases Nat.eq_zero_or_pos b with rfl | hb
  · rfl
  · rcases Nat.eq_zero_or_pos a with rfl | ha
    · simp [countEntry, hb.ne']
    · simp [countEntry, hb.ne', ha.ne']

namespace AggregateOperator

variable (a : AggregateOperator) (fmt : Sprintf φ ω)

theorem counts_append (l l' : List (Record (Value φ ω))) :
    a.counts fmt (l ++ l') = addCounts (a.counts fmt l) (a.counts fmt l') := by
  apply Std.ExtTreeMap.ext_getElem?
  intro g
  rw [getElem?_addCounts (a.getElem?_counts fmt l g) (a.getElem?_counts fmt l' g),
    getElem?_counts, List.filter_append, List.length_append]

/-- The counts of parts of the input add up to those of the whole input. -/
theorem totalCounts_counts (ls : List (List (Record (Value φ ω)))) :
    totalCounts (ls.map (a.counts fmt)) = a.counts fmt ls.flatten := by
  have hfoldl : ∀ l, (ls.map (a.counts fmt)).foldl addCounts (a.counts fmt l) =
      a.counts fmt (l ++ ls.flatten) := by
    induction ls with
    | nil => simp
    | cons l' ls ih =>
        intro l
        rw [List.map_cons, List.foldl_cons, ← counts_append, ih, List.flatten_cons,
          List.append_assoc]
  exact hfoldl []

/-- A count is there if and only if a record has the key. -/
theorem counts_ne_empty_iff {l : List (Record (Value φ ω))} :
    a.counts fmt l ≠ ∅ ↔ ∃ r ∈ l, ((fields r)[a.key]?).isSome := by
  constructor
  · intro hne
    by_contra hall
    refine hne (Std.ExtTreeMap.ext_getElem? fun g => ?_)
    have hnil : l.filter (fun r => decide (a.countedAs fmt r = some g)) = [] := by
      refine List.filter_eq_nil_iff.mpr fun r hr hcounted => hall ⟨r, hr, ?_⟩
      rw [← Option.isSome_map (f := Value.text fmt)]
      exact Option.isSome_of_eq_some (of_decide_eq_true hcounted)
    rw [getElem?_counts, hnil, Std.ExtTreeMap.getElem?_empty]
    rfl
  · rintro ⟨r, hr, hsome⟩ hempty
    obtain ⟨v, hv⟩ := Option.isSome_iff_exists.mp hsome
    have hcounted : a.countedAs fmt r = some (v.text fmt) := by
      rw [countedAs, hv, Option.map_some]
    have hget := a.getElem?_counts fmt l (v.text fmt)
    rw [hempty, Std.ExtTreeMap.getElem?_empty] at hget
    have hlen : (l.filter fun r => decide (a.countedAs fmt r = some (v.text fmt))).length ≠ 0 :=
      (List.length_pos_of_mem (List.mem_filter.mpr ⟨hr, decide_eq_true hcounted⟩)).ne'
    rw [countEntry_of_ne_zero hlen] at hget
    cases hget

end AggregateOperator

namespace WindowAggregateOperator

variable (w : WindowAggregateOperator) (fmt : Sprintf φ ω)

section Blocks

variable {w} {n : ℕ} (hsize : w.windowSize = n)
include hsize

/-- The window goes on. -/
theorem step_of_lt {st : WindowCounts} (h : st.seen % n + 1 < n) (r : Record (Value φ ω)) :
    w.step fmt st r = ⟨w.whole.count fmt st.counts r, st.seen + 1, st.out⟩ := by
  have hmod : (st.seen + 1) % n = st.seen % n + 1 := by
    rw [← Nat.mod_add_mod, Nat.mod_eq_of_lt h]
  refine if_neg fun ⟨_, hzero⟩ => ?_
  rw [hsize] at hzero
  norm_cast at hzero
  omega

/-- The window is full. -/
theorem step_of_eq {st : WindowCounts} (h : st.seen % n + 1 = n) (r : Record (Value φ ω)) :
    w.step fmt st r = ⟨∅, st.seen + 1, st.out ++ [w.whole.count fmt st.counts r]⟩ := by
  have hmod : (st.seen + 1) % n = 0 := by
    rw [← Nat.mod_add_mod, h, Nat.mod_self]
  refine if_pos ⟨?_, ?_⟩
  · rw [hsize]
    omega
  · rw [hsize]
    norm_cast

theorem foldl_step_of_lt {l : List (Record (Value φ ω))} {st : WindowCounts}
    (h : st.seen % n + l.length < n) :
    l.foldl (w.step fmt) st =
      ⟨l.foldl (w.whole.count fmt) st.counts, st.seen + l.length, st.out⟩ := by
  induction l generalizing st with
  | nil => rfl
  | cons r l ih =>
      rw [List.length_cons] at h
      have hmod : (st.seen + 1) % n = st.seen % n + 1 := by
        rw [← Nat.mod_add_mod, Nat.mod_eq_of_lt (by omega)]
      rw [List.foldl_cons, step_of_lt fmt hsize (by omega), ih (by dsimp only; omega)]
      simp only [List.foldl_cons, List.length_cons, WindowCounts.mk.injEq, true_and, and_true]
      omega

/-- The records of one block. -/
theorem foldl_step_of_block {l : List (Record (Value φ ω))} (hn : 0 < n) (hl : l.length = n)
    {st : WindowCounts} (hseen : st.seen % n = 0) :
    l.foldl (w.step fmt) st =
      ⟨∅, st.seen + n, st.out ++ [l.foldl (w.whole.count fmt) st.counts]⟩ := by
  obtain ⟨init, r, rfl⟩ : ∃ init r, l = init ++ [r] :=
    (List.eq_nil_or_concat' l).resolve_left fun hnil => by
      rw [hnil] at hl
      exact absurd hl hn.ne
  rw [List.length_append, List.length_singleton] at hl
  have hmod : (st.seen + init.length) % n = init.length := by
    rw [← Nat.mod_add_mod, hseen, Nat.zero_add, Nat.mod_eq_of_lt (by omega)]
  have hinit : init.foldl (w.step fmt) st =
      ⟨init.foldl (w.whole.count fmt) st.counts, st.seen + init.length, st.out⟩ :=
    foldl_step_of_lt fmt hsize (by omega)
  rw [List.foldl_append, hinit, List.foldl_cons, List.foldl_nil,
    step_of_eq fmt hsize (by dsimp only; omega), List.foldl_append]
  simp only [List.foldl_cons, List.foldl_nil, WindowCounts.mk.injEq, true_and, and_true]
  omega

/-- The loop from the beginning of a block: the full blocks are sent, and the counts of the rest
are left. -/
theorem foldl_step (hn : 0 < n) (l : List (Record (Value φ ω))) {st : WindowCounts}
    (hseen : st.seen % n = 0) (hcounts : st.counts = ∅) :
    l.foldl (w.step fmt) st =
      ⟨w.whole.counts fmt (rest n l), st.seen + l.length,
        st.out ++ (blocks n l).map (w.whole.counts fmt)⟩ := by
  induction l using blockInduction hn generalizing st with
  | short l h =>
      rw [foldl_step_of_lt fmt hsize (by omega), blocks_of_lt h, rest_of_lt h, hcounts]
      simp [AggregateOperator.counts]
  | step l h ih =>
      have htake : (l.take n).length = n := List.length_take_of_le h
      have hnext : (st.seen + n) % n = 0 := by rw [Nat.add_mod_right, hseen]
      rw [blocks_of_le hn h, rest_of_le hn h]
      nth_rewrite 1 [← List.take_append_drop n l]
      rw [List.foldl_append, foldl_step_of_block fmt hsize hn htake hseen, ih hnext rfl, hcounts]
      simp only [List.length_drop, List.map_cons, List.append_assoc, List.singleton_append,
        WindowCounts.mk.injEq, true_and]
      exact ⟨by omega, rfl⟩

end Blocks

/-- Without a positive window size nothing is sent before the end. -/
theorem foldl_step_of_not_pos (hsize : ¬ 0 < w.windowSize) (l : List (Record (Value φ ω)))
    (st : WindowCounts) :
    l.foldl (w.step fmt) st =
      ⟨l.foldl (w.whole.count fmt) st.counts, st.seen + l.length, st.out⟩ := by
  induction l generalizing st with
  | nil => rfl
  | cons r l ih =>
      have hstep : w.step fmt st r = ⟨w.whole.count fmt st.counts r, st.seen + 1, st.out⟩ :=
        if_neg fun h => hsize h.1
      rw [List.foldl_cons, hstep, ih]
      simp only [List.foldl_cons, List.length_cons, WindowCounts.mk.injEq, true_and, and_true]
      omega

/-- The counts of the records at the end, if one of them has the key. -/
def lastResult (l : List (Record (Value φ ω))) : List (OrdMap String ℕ) :=
  if ∃ r ∈ l, ((fields r)[w.key]?).isSome then [w.whole.counts fmt l] else []

theorem results_eq_of_foldl {input l : List (Record (Value φ ω))} {seen : ℕ}
    {out : List (OrdMap String ℕ)}
    (h : input.foldl (w.step fmt) ⟨∅, 0, []⟩ = ⟨w.whole.counts fmt l, seen, out⟩) :
    w.results fmt input = out ++ w.lastResult fmt l := by
  rw [results, h, lastResult]
  dsimp only
  simp only [OrdMap.size_pos_iff, w.whole.counts_ne_empty_iff fmt (l := l)]
  change (if ∃ r ∈ l, ((fields r)[w.key]?).isSome then _ else _) = _
  split
  · rfl
  · rw [List.append_nil]

theorem results_of_pos {n : ℕ} (hsize : w.windowSize = n) (hn : 0 < n)
    (input : List (Record (Value φ ω))) :
    w.results fmt input =
      (blocks n input).map (w.whole.counts fmt) ++ w.lastResult fmt (rest n input) :=
  w.results_eq_of_foldl fmt (foldl_step fmt hsize hn input (Nat.zero_mod n) rfl)

theorem results_of_not_pos (hsize : ¬ 0 < w.windowSize) (input : List (Record (Value φ ω))) :
    w.results fmt input = w.lastResult fmt input :=
  w.results_eq_of_foldl fmt (w.foldl_step_of_not_pos fmt hsize input ⟨∅, 0, []⟩)

/-- Counts that are not sent at the end are empty. -/
theorem totalCounts_append_lastResult (ls : List (List (Record (Value φ ω))))
    (l : List (Record (Value φ ω))) :
    totalCounts (ls.map (w.whole.counts fmt) ++ w.lastResult fmt l) =
      w.whole.counts fmt (ls.flatten ++ l) := by
  rw [lastResult]
  split
  · have hlist : ls.map (w.whole.counts fmt) ++ [w.whole.counts fmt l] =
        (ls ++ [l]).map (w.whole.counts fmt) := by
      rw [List.map_append, List.map_singleton]
    rw [hlist, AggregateOperator.totalCounts_counts, List.flatten_append, List.flatten_singleton]
  · next hnone =>
      have hempty : w.whole.counts fmt l = ∅ := by
        by_contra hne
        exact hnone ((w.whole.counts_ne_empty_iff fmt).mp hne)
      rw [List.append_nil, AggregateOperator.totalCounts_counts, AggregateOperator.counts_append,
        hempty]
      rfl

theorem totalCounts_results (input : List (Record (Value φ ω))) :
    totalCounts (w.results fmt input) = w.whole.counts fmt input := by
  by_cases hpos : 0 < w.windowSize
  · obtain ⟨n, hn⟩ := Int.eq_ofNat_of_zero_le hpos.le
    have hn' : 0 < n := by omega
    rw [w.results_of_pos fmt hn hn', totalCounts_append_lastResult,
      flatten_blocks_append_rest hn']
  · have h := w.totalCounts_append_lastResult fmt [] input
    rwa [List.map_nil, List.nil_append, List.flatten_nil, List.nil_append,
      ← w.results_of_not_pos fmt hpos] at h

/-- The counts of all windows add up to those of `AggregateOperator`. The windows are the blocks of
`WindowSize` records, and at the end the rest if a record in it has the key. -/
theorem process_adds_up (input : List (Record (Value φ ω))) :
    (w.whole.process fmt input : List (Record (Aggregated α))) =
        [recordOf "counts" (.counts (totalCounts
          ((w.process fmt input : List (Record (Aggregated α))).filterMap countsIn)))] ∧
      ∀ n : ℕ, 0 < n → w.windowSize = n →
        (w.process fmt input : List (Record (Aggregated α))) =
          ((blocks n input).map (w.whole.counts fmt) ++ w.lastResult fmt (rest n input)).map
            fun m => recordOf "counts" (.counts m) := by
  constructor
  · have hcounts : (w.process fmt input : List (Record (Aggregated α))).filterMap countsIn =
        w.results fmt input := by
      rw [process, List.filterMap_map]
      exact (List.filterMap_congr fun m _ => countsIn_recordOf m).trans List.filterMap_some
    rw [hcounts, w.totalCounts_results]
    rfl
  · intro n hn hsize
    rw [process, w.results_of_pos fmt hsize hn]

/-- Three records in windows of two. -/
theorem process_adds_up_three :
    (0 : ℕ) < 2 ∧ (⟨"g", 2⟩ : WindowAggregateOperator).windowSize = (2 : ℕ) ∧
      (process ⟨"g", 2⟩ intFormat [groupedRecord "a" 1, groupedRecord "b" 2, groupedRecord "a" 3] :
          List (Record (Aggregated ℤ))) =
        [recordOf "counts" (.counts (AggregateOperator.counts ⟨"g"⟩ intFormat
            [groupedRecord "a" 1, groupedRecord "b" 2])),
          recordOf "counts" (.counts (AggregateOperator.counts ⟨"g"⟩ intFormat
            [groupedRecord "a" 3]))] := by
  refine ⟨by decide, rfl, ?_⟩
  rw [(process_adds_up ⟨"g", 2⟩ intFormat _).2 2 (by decide) rfl, lastResult,
    if_pos ⟨groupedRecord "a" 3, List.mem_cons_self, by decide +kernel⟩]
  rfl

end WindowAggregateOperator

end StreamFlow.Processor
