import Mathlib.Algebra.Order.BigOperators.Group.List
import StreamFlow.Processor.Aggregate

/-!
# What grouped aggregates compute

`AggregateFuncsOperator.process_correct`: with functions `count`, `sum` and `avg` and different
aliases, each alias of a group shows its own aggregate of the records of the group.

The maps are kept by alias but the loop goes over the specs, so a spec that is there twice is
accumulated twice. `process_append_self_iff` says when this cannot be seen in the result.
-/

namespace StreamFlow.Processor

open Grouping

variable {φ ω α : Type}

/-- The value of an aggregate by itself: the number of the records, or the sum or average of the
numbers in the field if there are any. -/
def AggSpec.expected (F : FloatOps φ α) (spec : AggSpec) (rs : List (Record (Value φ ω))) :
    Option (AggValue α) :=
  let ns := rs.filterMap fun r => ((fields r)[spec.field]?).bind Value.number
  if spec.func = "count" then some (.int rs.length)
  else if ns = [] then none
  else if spec.func = "avg" then some (.float64 (F.div (F.total ns) ns.length))
  else some (.float64 (F.total ns))

/-- Arithmetics that may differ only in a division by zero. -/
structure FloatOps.EqOffZero (F F' : FloatOps φ α) : Prop where
  zero : F'.zero = F.zero
  ofInt : F'.ofInt = F.ofInt
  ofFloat : F'.ofFloat = F.ofFloat
  add : F'.add = F.add
  div : ∀ x n, n ≠ 0 → F'.div x n = F.div x n

theorem FloatOps.EqOffZero.total {F F' : FloatOps φ α} (h : F.EqOffZero F') (ns : List (ℤ ⊕ φ)) :
    F'.total ns = F.total ns := by
  rw [FloatOps.total, FloatOps.total, h.zero, h.add, FloatOps.ofNumber, FloatOps.ofNumber, h.ofInt,
    h.ofFloat]

theorem FloatOps.EqOffZero.shown {F F' : FloatOps φ α} (h : F.EqOffZero F') (aggs : List AggSpec)
    (al : String) (rs : List (Record (Value φ ω))) :
    shown F' aggs al rs = shown F aggs al rs := by
  rw [Processor.shown, Processor.shown, h.total]
  split
  · rfl
  · next hne => rw [h.div _ _ (hits_ne_zero_of_numbers hne)]

/-! ### Different aliases -/

/-- The aggregate is in the list, once, and no other one has its alias. -/
def AggSpec.HasOwnAlias (spec : AggSpec) (aggs : List AggSpec) : Prop :=
  (aggs.filter fun s => s.effectiveAlias = spec.effectiveAlias) = [spec]

instance (spec : AggSpec) (aggs : List AggSpec) : Decidable (spec.HasOwnAlias aggs) :=
  inferInstanceAs (Decidable (_ = _))

namespace AggSpec.HasOwnAlias

variable {aggs : List AggSpec} {spec : AggSpec}

theorem of_nodup (haliases : (aggs.map AggSpec.effectiveAlias).Nodup) (hspec : spec ∈ aggs) :
    spec.HasOwnAlias aggs := by
  have hinj : ∀ s ∈ aggs, (s.effectiveAlias = spec.effectiveAlias ↔ s = spec) := fun s hs =>
    ⟨fun h => List.inj_on_of_nodup_map haliases hs hspec h, fun h => by rw [h]⟩
  have hfilter : (aggs.filter fun s => s.effectiveAlias = spec.effectiveAlias) =
      aggs.filter fun s => s = spec :=
    List.filter_congr fun s hs => by rw [decide_eq_decide, hinj s hs]
  rw [HasOwnAlias, hfilter, List.filter_eq,
    List.count_eq_one_of_mem (List.Nodup.of_map _ haliases) hspec]
  rfl

theorem numbers_eq (h : spec.HasOwnAlias aggs) (rs : List (Record (Value φ ω))) :
    numbers aggs spec.effectiveAlias rs = rs.filterMap spec.numberIn := by
  rw [numbers, h, List.filterMap_eq_flatMap_toList]
  refine List.flatMap_congr fun r _ => ?_
  cases hr : spec.numberIn r <;> simp [hr]

theorem hits_eq (h : spec.HasOwnAlias aggs) (rs : List (Record (Value φ ω))) :
    Processor.hits aggs spec.effectiveAlias rs = (rs.filter spec.hits).length := by
  have hone := hits_append_cons [] spec [] rs
  rw [HasOwnAlias] at h
  simpa [Processor.hits, h] using hone

theorem isAvg_eq (h : spec.HasOwnAlias aggs) :
    isAvg aggs spec.effectiveAlias = decide (spec.func = "avg") := by
  rw [isAvg, ← List.any_filter, h]
  simp

end AggSpec.HasOwnAlias

/-- With different aliases an alias shows its own aggregate. -/
theorem shown_of_nodup {aggs : List AggSpec} (F : FloatOps φ α)
    (hfuncs : ∀ spec ∈ aggs, spec.func ∈ ["count", "sum", "avg"])
    (haliases : (aggs.map AggSpec.effectiveAlias).Nodup) {spec : AggSpec} (hspec : spec ∈ aggs)
    {rs : List (Record (Value φ ω))} (hrs : rs ≠ []) :
    shown F aggs spec.effectiveAlias rs = spec.expected F rs := by
  have hown := AggSpec.HasOwnAlias.of_nodup haliases hspec
  rw [shown, hown.numbers_eq, hown.hits_eq, hown.isAvg_eq, AggSpec.expected]
  by_cases hcount : spec.func = "count"
  · rw [List.filterMap_eq_nil_iff.mpr fun r _ => AggSpec.numberIn_of_count hcount r,
      AggSpec.filter_hits_of_count hcount, if_pos rfl, if_pos hcount,
      countEntry_of_ne_zero (mt List.length_eq_zero_iff.mp hrs)]
    rfl
  · have hsum : spec.func = "sum" ∨ spec.func = "avg" := by
      have hfunc := hfuncs spec hspec
      simp only [List.mem_cons, List.not_mem_nil, or_false] at hfunc
      exact hfunc.resolve_left hcount
    have hnumber : (spec.numberIn : Record (Value φ ω) → Option (ℤ ⊕ φ)) =
        fun r => ((fields r)[spec.field]?).bind Value.number := by
      funext r
      rw [AggSpec.numberIn, if_pos hsum]
    rw [if_neg hcount, AggSpec.length_filter_hits_of_ne_count hcount, hnumber]
    simp only [decide_eq_true_eq]
    split
    · next hnil =>
        rw [hnil]
        rfl
    · rfl

namespace AggregateFuncsOperator

theorem isSome_getElem?_groups (a : AggregateFuncsOperator) (fmt : Sprintf φ ω) (F : FloatOps φ α)
    (input : List (Record (Value φ ω))) (g : String) :
    ((a.groups fmt F input)[g]?).isSome ↔ ∃ r ∈ input, groupKey fmt a.key r = g := by
  rw [getElem?_groups, groupOf]
  split
  · next hnil =>
      refine iff_of_false Bool.false_ne_true ?_
      rintro ⟨r, hr, hg⟩
      exact List.filter_eq_nil_iff.mp hnil r hr (decide_eq_true hg)
  · next hne =>
      refine iff_of_true rfl ?_
      obtain ⟨r, hr⟩ := List.exists_mem_of_ne_nil _ hne
      obtain ⟨hmem, hg⟩ := List.mem_filter.mp hr
      exact ⟨r, hmem, of_decide_eq_true hg⟩

theorem getElem?_of_groups {a : AggregateFuncsOperator} {fmt : Sprintf φ ω} {F : FloatOps φ α}
    {input : List (Record (Value φ ω))} {g : String} {vals : OrdMap String (AggValue α)}
    (h : (a.groups fmt F input)[g]? = some vals) (al : String) :
    groupOf fmt a.key g input ≠ [] ∧ vals[al]? = shown F a.aggs al (groupOf fmt a.key g input) := by
  rw [getElem?_groups, Option.ite_none_left_eq_some, Option.some.injEq] at h
  obtain ⟨hne, rfl⟩ := h
  exact ⟨hne, getElem?_renderGroup_groupAcc F a.aggs _ al⟩

/-- Operators whose groups show the same emit the same. -/
theorem groups_eq_iff {a a' : AggregateFuncsOperator} (hkey : a'.key = a.key) (fmt : Sprintf φ ω)
    (F F' : FloatOps φ α) (input : List (Record (Value φ ω))) :
    a'.groups fmt F' input = a.groups fmt F input ↔
      ∀ g, groupOf fmt a.key g input ≠ [] → ∀ al,
        shown F' a'.aggs al (groupOf fmt a.key g input) =
          shown F a.aggs al (groupOf fmt a.key g input) := by
  constructor
  · intro heq g hne al
    have hg := congrArg (fun m : OrdMap String (OrdMap String (AggValue α)) => m[g]?) heq
    rw [getElem?_groups, getElem?_groups, hkey, if_neg hne, if_neg hne] at hg
    rw [← getElem?_renderGroup_groupAcc, ← getElem?_renderGroup_groupAcc, Option.some.inj hg]
  · intro hshown
    apply Std.ExtTreeMap.ext_getElem?
    intro g
    rw [getElem?_groups, getElem?_groups, hkey]
    split
    · rfl
    · next hne =>
        congr 1
        apply Std.ExtTreeMap.ext_getElem?
        intro al
        rw [getElem?_renderGroup_groupAcc, getElem?_renderGroup_groupAcc, hshown g hne]

theorem process_eq_iff {a a' : AggregateFuncsOperator} {fmt : Sprintf φ ω} {F F' : FloatOps φ α}
    {input : List (Record (Value φ ω))} :
    a'.process fmt F' input = a.process fmt F input ↔
      a'.groups fmt F' input = a.groups fmt F input := by
  rw [process, process, List.cons.injEq, and_iff_left rfl, (recordOf_injective "groups").eq_iff,
    Aggregated.groups.injEq]

/-- With functions `count`, `sum` and `avg` and different aliases the operator emits one map: it
has an entry for each group, with the aggregates of the records of the group, and no division by
zero is made. -/
theorem process_correct (a : AggregateFuncsOperator) (fmt : Sprintf φ ω) (F : FloatOps φ α)
    (input : List (Record (Value φ ω)))
    (hfuncs : ∀ spec ∈ a.aggs, spec.func ∈ ["count", "sum", "avg"])
    (haliases : (a.aggs.map AggSpec.effectiveAlias).Nodup) :
    ∃ groups, a.process fmt F input = [recordOf "groups" (.groups groups)] ∧
      (∀ g, (groups[g]?).isSome ↔ ∃ r ∈ input, groupKey fmt a.key r = g) ∧
      (∀ g vals, groups[g]? = some vals → ∀ spec ∈ a.aggs,
        vals[spec.effectiveAlias]? = spec.expected F (groupOf fmt a.key g input)) ∧
      ∀ F' : FloatOps φ α, F.EqOffZero F' → a.process fmt F' input = a.process fmt F input := by
  refine ⟨a.groups fmt F input, rfl, a.isSome_getElem?_groups fmt F input, ?_, ?_⟩
  · intro g vals hvals spec hspec
    obtain ⟨hne, hval⟩ := getElem?_of_groups hvals spec.effectiveAlias
    rw [hval, shown_of_nodup F hfuncs haliases hspec hne]
  · intro F' hF
    rw [process_eq_iff, groups_eq_iff rfl]
    exact fun g _ al => hF.shown a.aggs al _

end AggregateFuncsOperator

/-- Integers in place of `float64`, for examples. -/
def intOps : FloatOps ℤ ℤ := ⟨0, id, id, (· + ·), fun x n => x / n⟩

/-- The text of integers, for examples. -/
def intFormat : Sprintf ℤ Empty := ⟨toString, Empty.elim⟩

/-- A record with a group and a number, for examples. -/
def groupedRecord (g : String) (n : ℤ) : Record (Value ℤ Empty) :=
  some (((∅ : OrdMap String (Value ℤ Empty)).insert "g" (.string g)).insert "x" (.int n))

namespace AggregateFuncsOperator

/-- The average of 1 and 5 by group. -/
theorem process_correct_average :
    ∃ groups, process ⟨"g", [⟨"avg", "x", ""⟩]⟩ intFormat intOps
        [groupedRecord "a" 1, groupedRecord "a" 5] = [recordOf "groups" (.groups groups)] ∧
      (∀ g, (groups[g]?).isSome ↔
        ∃ r ∈ [groupedRecord "a" 1, groupedRecord "a" 5], groupKey intFormat "g" r = g) ∧
      (∀ g vals, groups[g]? = some vals → ∀ spec ∈ [(⟨"avg", "x", ""⟩ : AggSpec)],
        vals[spec.effectiveAlias]? = spec.expected intOps
          (groupOf intFormat "g" g [groupedRecord "a" 1, groupedRecord "a" 5])) ∧
      ∀ F' : FloatOps ℤ ℤ, intOps.EqOffZero F' →
        process ⟨"g", [⟨"avg", "x", ""⟩]⟩ intFormat F' [groupedRecord "a" 1, groupedRecord "a" 5] =
          process ⟨"g", [⟨"avg", "x", ""⟩]⟩ intFormat intOps
            [groupedRecord "a" 1, groupedRecord "a" 5] :=
  process_correct _ _ _ _ (by simp) (by simp)

end AggregateFuncsOperator

/-! ### A spec that is there twice -/

section Twice

variable {aggs : List AggSpec} {spec : AggSpec}

theorem isAvg_append_self (hspec : spec ∈ aggs) (al : String) :
    isAvg (aggs ++ [spec]) al = isAvg aggs al := by
  rw [isAvg, List.any_append, isAvg, Bool.eq_iff_iff, Bool.or_eq_true, or_iff_left_iff_imp]
  intro hlast
  refine List.any_eq_true.mpr ⟨spec, hspec, ?_⟩
  simpa using hlast

theorem shown_append_of_ne (hspec : spec ∈ aggs) (F : FloatOps φ α) {al : String}
    (hal : spec.effectiveAlias ≠ al) (rs : List (Record (Value φ ω))) :
    shown F (aggs ++ [spec]) al rs = shown F aggs al rs := by
  have hfilter : ((aggs ++ [spec]).filter fun s => s.effectiveAlias = al) =
      aggs.filter fun s => s.effectiveAlias = al := by
    rw [List.filter_append, List.filter_singleton, decide_eq_false hal]
    exact List.append_nil _
  rw [shown, shown, numbers, numbers, hits, hits, hfilter, isAvg_append_self hspec]

/-- The spec that is there again brings its numbers and hits once more. -/
theorem filter_append_self (aggs : List AggSpec) (spec : AggSpec) :
    ((aggs ++ [spec]).filter fun s => s.effectiveAlias = spec.effectiveAlias) =
      (aggs.filter fun s => s.effectiveAlias = spec.effectiveAlias) ++ [spec] := by
  rw [List.filter_append, List.filter_singleton, decide_eq_true rfl]
  rfl

/-- A spec with a number in one of the records adds to the numbers. -/
theorem length_numbers_append (aggs : List AggSpec) {rs : List (Record (Value φ ω))}
    {r : Record (Value φ ω)} (hr : r ∈ rs) (hsome : (spec.numberIn r).isSome) :
    (numbers aggs spec.effectiveAlias rs).length <
      (numbers (aggs ++ [spec]) spec.effectiveAlias rs).length := by
  rw [numbers, numbers, filter_append_self, List.length_flatMap, List.length_flatMap]
  refine List.sum_lt_sum _ _ (fun r' _ => ?_) ⟨r, hr, ?_⟩
  · rw [List.filterMap_append, List.length_append]
    exact Nat.le_add_right _ _
  · rw [List.filterMap_append, List.length_append]
    obtain ⟨n, hn⟩ := Option.isSome_iff_exists.mp hsome
    simp [hn]

/-- A spec of the list with a number in one of the records brings it. -/
theorem numbers_ne_nil (hspec : spec ∈ aggs) {rs : List (Record (Value φ ω))}
    {r : Record (Value φ ω)} (hr : r ∈ rs) (hsome : (spec.numberIn r).isSome) :
    numbers aggs spec.effectiveAlias rs ≠ [] := by
  obtain ⟨n, hn⟩ := Option.isSome_iff_exists.mp hsome
  refine List.ne_nil_of_mem (List.mem_flatMap.mpr ⟨r, hr, List.mem_filterMap.mpr ⟨spec, ?_, hn⟩⟩)
  exact List.mem_filter.mpr ⟨hspec, decide_eq_true rfl⟩

theorem exists_of_numbers_ne_nil {al : String} {rs : List (Record (Value φ ω))}
    (h : numbers aggs al rs ≠ []) :
    ∃ r ∈ rs, ∃ s ∈ aggs, s.effectiveAlias = al ∧ (s.numberIn r).isSome := by
  obtain ⟨n, hn⟩ := List.exists_mem_of_ne_nil _ h
  obtain ⟨r, hr, hn⟩ := List.mem_flatMap.mp hn
  obtain ⟨s, hs, hn⟩ := List.mem_filterMap.mp hn
  obtain ⟨hs, hal⟩ := List.mem_filter.mp hs
  exact ⟨r, hr, s, hs, of_decide_eq_true hal, by rw [hn, Option.isSome_some]⟩

/-- An arithmetic in which a sum shows how many numbers were added. -/
def lengthOps (φ : Type) : FloatOps φ ℕ :=
  ⟨0, fun _ => 0, fun _ => 0, fun x _ => x + 1, fun x _ => x⟩

/-- An arithmetic in which an average shows by what was divided. -/
def divisorOps (φ : Type) : FloatOps φ ℕ :=
  ⟨0, fun _ => 0, fun _ => 0, fun x _ => x, fun _ n => n⟩

theorem total_lengthOps (ns : List (ℤ ⊕ φ)) : (lengthOps φ).total ns = ns.length := by
  rw [FloatOps.total, lengthOps]
  simp only [List.foldl_add_const, Nat.zero_add, Nat.one_mul]

theorem shown_lengthOps {al : String} {rs : List (Record (Value φ ω))}
    (h : numbers aggs al rs ≠ []) :
    shown (lengthOps φ) aggs al rs = some (.float64 (numbers aggs al rs).length) := by
  rw [shown, if_neg h, total_lengthOps]
  exact ite_self _

theorem shown_divisorOps {al : String} {rs : List (Record (Value φ ω))}
    (h : numbers aggs al rs ≠ []) (havg : isAvg aggs al = true) :
    shown (divisorOps φ) aggs al rs = some (.float64 (hits aggs al rs)) := by
  rw [shown, if_neg h, if_pos havg]
  rfl

/-- Repeating a spec that finds a number in a record changes the sum. -/
theorem shown_append_ne_of_number (hspec : spec ∈ aggs) {rs : List (Record (Value φ ω))}
    {r : Record (Value φ ω)} (hr : r ∈ rs) (hsome : (spec.numberIn r).isSome) :
    shown (lengthOps φ) (aggs ++ [spec]) spec.effectiveAlias rs ≠
      shown (lengthOps φ) aggs spec.effectiveAlias rs := by
  have hlt := length_numbers_append aggs hr hsome
  rw [shown_lengthOps (numbers_ne_nil hspec hr hsome),
    shown_lengthOps (List.ne_nil_of_length_pos (Nat.zero_lt_of_lt hlt))]
  simpa using hlt.ne'

/-- Repeating a count changes what is shown unless it is hidden by a sum that is not an average. -/
theorem numbers_ne_nil_of_count (hspec : spec ∈ aggs) (hcount : spec.func = "count")
    {rs : List (Record (Value φ ω))} (hrs : rs ≠ [])
    (hsame : ∀ F : FloatOps φ ℕ, shown F (aggs ++ [spec]) spec.effectiveAlias rs =
      shown F aggs spec.effectiveAlias rs) :
    numbers aggs spec.effectiveAlias rs ≠ [] ∧ isAvg aggs spec.effectiveAlias = false := by
  have hnumbers : numbers (aggs ++ [spec]) spec.effectiveAlias rs =
      numbers aggs spec.effectiveAlias rs := by
    rw [numbers_append_cons_of_none fun r _ => AggSpec.numberIn_of_count hcount r, List.append_nil]
  have hmore : hits (aggs ++ [spec]) spec.effectiveAlias rs ≠
      hits aggs spec.effectiveAlias rs := by
    have hpos := List.length_pos_iff.mpr hrs
    rw [hits_append_cons, AggSpec.filter_hits_of_count hcount, List.append_nil]
    omega
  have hne : numbers aggs spec.effectiveAlias rs ≠ [] := by
    intro hnil
    have hF := hsame (lengthOps φ)
    rw [shown, shown, hnumbers, if_pos hnil, if_pos hnil] at hF
    exact hmore (countEntry_injective
      (Option.map_injective (fun _ _ h => AggValue.int.inj h) hF))
  refine ⟨hne, ?_⟩
  by_contra havg
  have havg := Bool.not_eq_false _ ▸ havg
  have hF := hsame (divisorOps φ)
  rw [shown_divisorOps (hnumbers ▸ hne) (isAvg_append_self hspec _ ▸ havg),
    shown_divisorOps hne havg] at hF
  exact hmore (AggValue.float64.inj (Option.some.inj hF))

end Twice

/-- The spec finds no number in the records; and if it is a count, its alias shows a sum in every
group. -/
def Unaffected (fmt : Sprintf φ ω) (key : String) (aggs : List AggSpec) (spec : AggSpec)
    (input : List (Record (Value φ ω))) : Prop :=
  (∀ r ∈ input, spec.numberIn r = none) ∧
    (spec.func = "count" → ∀ r ∈ input, isAvg aggs spec.effectiveAlias = false ∧
      ∃ r' ∈ input, groupKey fmt key r' = groupKey fmt key r ∧
        ∃ s ∈ aggs, s.effectiveAlias = spec.effectiveAlias ∧ (s.numberIn r').isSome)

namespace AggregateFuncsOperator

theorem shown_append_self {fmt : Sprintf φ ω} {key : String} {aggs : List AggSpec}
    {spec : AggSpec} (hspec : spec ∈ aggs) {input : List (Record (Value φ ω))}
    (h : Unaffected fmt key aggs spec input) (F : FloatOps φ α) {g : String}
    (hne : groupOf fmt key g input ≠ []) (al : String) :
    shown F (aggs ++ [spec]) al (groupOf fmt key g input) =
      shown F aggs al (groupOf fmt key g input) := by
  by_cases hal : spec.effectiveAlias = al
  · subst hal
    have hnone : ∀ r ∈ groupOf fmt key g input, spec.numberIn r = none :=
      fun r hr => h.1 r (List.mem_filter.mp hr).1
    rw [shown, shown, numbers_append_cons_of_none hnone, hits_append_cons, List.append_nil,
      isAvg_append_self hspec]
    by_cases hcount : spec.func = "count"
    · -- the count is hidden by the sum
      obtain ⟨r, hr⟩ := List.exists_mem_of_ne_nil _ hne
      obtain ⟨hr, hg⟩ := List.mem_filter.mp hr
      obtain ⟨havg, r', hr', hkey, s, hs, hal, hsome⟩ := h.2 hcount r hr
      have hmem : r' ∈ groupOf fmt key g input :=
        List.mem_filter.mpr ⟨hr', decide_eq_true (hkey.trans (of_decide_eq_true hg))⟩
      have hnumbers := hal ▸ numbers_ne_nil hs hmem hsome
      rw [if_neg hnumbers, if_neg hnumbers, havg]
      rfl
    · rw [AggSpec.length_filter_hits_of_ne_count hcount, List.filterMap_eq_nil_iff.mpr hnone,
        List.length_nil, Nat.zero_add]
  · exact shown_append_of_ne hspec F hal _

/-- Repeating a spec is not seen in the result, whatever the arithmetic, exactly when the spec finds
no number and is not a count that is shown. -/
theorem process_append_self_iff (fmt : Sprintf φ ω) (key : String) {aggs : List AggSpec}
    {spec : AggSpec} (hspec : spec ∈ aggs) (input : List (Record (Value φ ω))) :
    (∀ (α : Type) (F : FloatOps φ α), process ⟨key, aggs ++ [spec]⟩ fmt F input =
      process ⟨key, aggs⟩ fmt F input) ↔ Unaffected fmt key aggs spec input := by
  simp only [process_eq_iff, groups_eq_iff]
  constructor
  · intro hsame
    have hgroup : ∀ r ∈ input, r ∈ groupOf fmt key (groupKey fmt key r) input :=
      fun r hr => List.mem_filter.mpr ⟨hr, decide_eq_true rfl⟩
    refine ⟨fun r hr => ?_, fun hcount r hr => ?_⟩
    · by_contra hsome
      exact shown_append_ne_of_number hspec (hgroup r hr) (Option.ne_none_iff_isSome.mp hsome)
        (hsame ℕ (lengthOps φ) _ (List.ne_nil_of_mem (hgroup r hr)) _)
    · have hne := List.ne_nil_of_mem (hgroup r hr)
      obtain ⟨hnumbers, havg⟩ := numbers_ne_nil_of_count hspec hcount hne
        fun F => hsame ℕ F _ hne spec.effectiveAlias
      obtain ⟨r', hr', s, hs, hal, hsome⟩ := exists_of_numbers_ne_nil hnumbers
      obtain ⟨hr', hkey⟩ := List.mem_filter.mp hr'
      exact ⟨havg, r', hr', of_decide_eq_true hkey, s, hs, hal, hsome⟩
  · intro h α F g hne al
    exact shown_append_self hspec h F hne al

/-- A function that is none of the three can be repeated. -/
theorem process_append_self_max :
    Unaffected intFormat "g" [⟨"max", "x", ""⟩] ⟨"max", "x", ""⟩ [groupedRecord "a" 1] ∧
    ∀ (α : Type) (F : FloatOps ℤ α),
      process ⟨"g", [⟨"max", "x", ""⟩] ++ [⟨"max", "x", ""⟩]⟩ intFormat F [groupedRecord "a" 1] =
        process ⟨"g", [⟨"max", "x", ""⟩]⟩ intFormat F [groupedRecord "a" 1] := by
  have hmax : Unaffected intFormat "g" [⟨"max", "x", ""⟩] ⟨"max", "x", ""⟩
      [groupedRecord "a" 1] := ⟨fun _ _ => rfl, by simp⟩
  exact ⟨hmax, (process_append_self_iff _ _ (by simp) _).mpr hmax⟩

/-- `SUM(x), SUM(x)` shows twice the sum. -/
theorem process_append_self_sum :
    process ⟨"g", [⟨"sum", "x", ""⟩] ++ [⟨"sum", "x", ""⟩]⟩ intFormat intOps
        [groupedRecord "a" 1] ≠
      process ⟨"g", [⟨"sum", "x", ""⟩]⟩ intFormat intOps [groupedRecord "a" 1] := by
  intro heq
  have hsame := (groups_eq_iff (by rfl) intFormat intOps intOps _).mp (process_eq_iff.mp heq)
  exact absurd (hsame "a" (by decide) "sum_x") (by decide)

end AggregateFuncsOperator

end StreamFlow.Processor
