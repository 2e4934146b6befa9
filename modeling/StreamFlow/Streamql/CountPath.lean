import StreamFlow.Streamql.Executor

/-!
# The two ways to count

A plan with `COUNT(*)` as its only aggregate counts with `AggregateOperator`, and one that has other
aggregates beside it with `AggregateFuncsOperator`. The first skips the records without the field of
the group and the second puts them in the group of the empty text; and the second counts for an
alias, which another aggregate may have as well. `counts_agree_iff` says that these are the only
differences.
-/

namespace StreamFlow.Streamql

open Processor Grouping

variable {φ ω α : Type}

section Count

variable {c : AggSpec} {pre post : List AggSpec}

theorem hits_eq_zero_iff {aggs : List AggSpec} {al : String} {rs : List (Row φ ω)} :
    hits aggs al rs = 0 ↔
      ∀ r ∈ rs, ∀ s ∈ aggs, s.effectiveAlias = al → s.hits r = false := by
  rw [hits, List.length_eq_zero_iff, List.flatMap_eq_nil_iff]
  simp only [List.filter_eq_nil_iff, List.mem_filter, decide_eq_true_eq, Bool.not_eq_true, and_imp]

/-- The alias of a count shows a number of records, at most all, exactly when it is all and no
other aggregate with this alias has a hit. -/
theorem map_countEntry_eq_shown_iff (hc : c.func = "count") (F : FloatOps φ α)
    {rs : List (Row φ ω)} {n : ℕ} (hn : n ≤ rs.length) :
    (countEntry n).map AggValue.int = shown F (pre ++ c :: post) c.effectiveAlias rs ↔
      n = rs.length ∧ hits (pre ++ post) c.effectiveAlias rs = 0 := by
  rw [shown, numbers_append_cons_of_none fun r _ => AggSpec.numberIn_of_count hc r,
    hits_append_cons, AggSpec.filter_hits_of_count hc]
  constructor
  · intro h
    split at h
    · have hn' := countEntry_injective (Option.map_injective (fun _ _ h => AggValue.int.inj h) h)
      omega
    · have hcount : ∀ x : α, (countEntry n).map AggValue.int ≠ some (.float64 x) := by
        intro x hx
        obtain ⟨m, -, hm⟩ := Option.map_eq_some_iff.mp hx
        cases hm
      split at h
      · exact absurd h (hcount _)
      · exact absurd h (hcount _)
  · rintro ⟨rfl, hzero⟩
    have hnil : numbers (pre ++ post) c.effectiveAlias rs = [] := by
      by_contra hne
      exact hits_ne_zero_of_numbers hne hzero
    rw [if_pos hnil, hzero, Nat.add_zero]

end Count

/-- The count of a group, as the other operator would show it. -/
def countOf (a : AggregateOperator) (fmt : Sprintf φ ω) (input : List (Row φ ω))
    (g : String) : Option (AggValue α) :=
  ((a.counts fmt input)[g]?).map .int

/-- What is shown under an alias of a group. -/
def valueOf (a : AggregateFuncsOperator) (fmt : Sprintf φ ω) (F : FloatOps φ α)
    (input : List (Row φ ω)) (g al : String) : Option (AggValue α) :=
  ((a.groups fmt F input)[g]?).bind fun m => m[al]?

/-- The records that are counted as a text are those of the group that have the key. -/
theorem filter_countedAs (fmt : Sprintf φ ω) (key g : String) (input : List (Row φ ω)) :
    (input.filter fun r => AggregateOperator.countedAs ⟨key⟩ fmt r = some g) =
      (groupOf fmt key g input).filter fun r => ((fields r)[key]?).isSome := by
  rw [groupOf, List.filter_filter]
  refine List.filter_congr fun r _ => ?_
  rw [AggregateOperator.countedAs, groupKey]
  cases (fields r)[key]? <;> simp

/-- The two ways to count agree on a group exactly when its records have the key and no other
aggregate with the alias of the count has a hit in them. -/
theorem counts_eq_groups_iff (fmt : Sprintf φ ω) (F : FloatOps φ α) (key : String) {c : AggSpec}
    (hc : c.func = "count") (pre post : List AggSpec) (input : List (Row φ ω))
    (g : String) :
    countOf ⟨key⟩ fmt input g = valueOf ⟨key, pre ++ c :: post⟩ fmt F input g c.effectiveAlias ↔
      ∀ r ∈ groupOf fmt key g input, ((fields r)[key]?).isSome ∧
        ∀ s ∈ pre ++ post, s.effectiveAlias = c.effectiveAlias → s.hits r = false := by
  rw [countOf, valueOf, AggregateOperator.getElem?_counts, filter_countedAs,
    AggregateFuncsOperator.getElem?_groups]
  split
  · next hnil => simp [hnil, countEntry]
  · rw [Option.bind_some, getElem?_renderGroup_groupAcc,
      map_countEntry_eq_shown_iff hc F (List.length_filter_le _ _),
      List.length_filter_eq_length_iff, hits_eq_zero_iff]
    exact forall₂_and.symm

theorem aggregates_ne_nil_of_specs {p : Plan} (h : p.specs ≠ []) : p.aggregates ≠ [] := by
  intro hnil
  rw [Plan.specs, hnil] at h
  exact h rfl

/-- Two aggregates are not counted in the short way. -/
theorem onlyCountsAll_append {c : AggSpec} {pre post : List AggSpec} (h : pre ++ post ≠ []) :
    onlyCountsAll (pre ++ c :: post) = false := by
  cases pre with
  | nil =>
      cases post with
      | nil => exact absurd rfl h
      | cons s post => rfl
  | cons s pre => cases pre <;> rfl

/-- A plan whose only aggregate is `COUNT(*)` and one that has others beside it make the same counts
exactly when all records have the field of the group and the alias of the count is not hit by
another aggregate. -/
theorem counts_agree_iff (fmt : Sprintf φ ω) (F : FloatOps φ α) {p q : Plan} {key : String}
    {keys : List String} (hp : p.groupBy = key :: keys) (hq : q.groupBy = key :: keys)
    {c : AggSpec} (hc : c.func = "count" ∧ c.field = "*") (hpspecs : p.specs = [c])
    {pre post : List AggSpec} (hqspecs : q.specs = pre ++ c :: post) (hother : pre ++ post ≠ [])
    (hwindow : q.windowMs ≤ 0) (input : List (Row φ ω)) :
    ∃ (a : AggregateOperator) (b : AggregateFuncsOperator),
      (buildOperators p : Operators φ ω).last = .aggregate a ∧
      (buildOperators q : Operators φ ω).last = .aggregateFuncs b ∧
      ((∀ g, countOf a fmt input g = valueOf b fmt F input g c.effectiveAlias) ↔
        ∀ r ∈ input, ((fields r)[key]?).isSome ∧
          ∀ s ∈ pre ++ post, s.effectiveAlias = c.effectiveAlias → s.hits r = false) := by
  refine ⟨⟨key⟩, ⟨key, q.specs⟩, ?_, ?_, ?_⟩
  · rw [buildOperators, buildLast_eq hp (aggregates_ne_nil_of_specs (by simp [hpspecs])), hpspecs]
    simp [onlyCountsAll, hc]
  · rw [buildOperators, buildLast_eq hq (aggregates_ne_nil_of_specs (by simp [hqspecs])), hqspecs,
      onlyCountsAll_append hother, if_neg Bool.false_ne_true, if_neg (not_lt.mpr hwindow)]
  · rw [hqspecs]
    simp only [counts_eq_groups_iff fmt F key hc.1]
    constructor
    · intro h r hr
      exact h (groupKey fmt key r) r (List.mem_filter.mpr ⟨hr, decide_eq_true rfl⟩)
    · intro h g r hr
      exact h r (List.mem_filter.mp hr).1

/-- The counts of two groups, alone and beside a sum. -/
theorem counts_agree_two : ∃ (a : AggregateOperator) (b : AggregateFuncsOperator),
    (buildOperators (planify ⟨["COUNT(*)"], "s", "", ["g"], 0⟩) : Operators ℤ Empty).last =
      .aggregate a ∧
    (buildOperators (planify ⟨["COUNT(*)", "SUM(x)"], "s", "", ["g"], 0⟩) :
      Operators ℤ Empty).last = .aggregateFuncs b ∧
    ((∀ g, countOf a intFormat [groupedRecord "a" 1, groupedRecord "b" 2] g =
        valueOf b intFormat intOps [groupedRecord "a" 1, groupedRecord "b" 2] g "count_*") ↔
      ∀ r ∈ [groupedRecord "a" 1, groupedRecord "b" 2], ((fields r)["g"]?).isSome ∧
        ∀ s ∈ [(⟨"sum", "x", ""⟩ : AggSpec)], s.effectiveAlias = "count_*" → s.hits r = false) :=
  counts_agree_iff intFormat intOps rfl rfl (by decide)
    (rfl : Plan.specs (planify ⟨["COUNT(*)"], "s", "", ["g"], 0⟩) = [⟨"count", "*", ""⟩])
    (rfl : Plan.specs (planify ⟨["COUNT(*)", "SUM(x)"], "s", "", ["g"], 0⟩) =
      [] ++ ⟨"count", "*", ""⟩ :: [⟨"sum", "x", ""⟩])
    (show ([] : List AggSpec) ++ [⟨"sum", "x", ""⟩] ≠ [] by decide) le_rfl _

/-- A record without the field of the group is counted in the group of the empty text beside a sum,
and not counted alone. -/
theorem counts_disagree :
    countOf ⟨"h"⟩ intFormat [groupedRecord "a" 1] "" ≠
      valueOf ⟨"h", [⟨"count", "*", ""⟩, ⟨"sum", "x", ""⟩]⟩ intFormat intOps
        [groupedRecord "a" 1] "" "count_*" := by
  decide

end StreamFlow.Streamql
