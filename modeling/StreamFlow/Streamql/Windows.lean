import Mathlib.Data.List.Perm.Basic
import StreamFlow.Streamql.CountPath

/-!
# Windows of a plan

A plan with a window emits aggregates of the records between two ticks, unless `COUNT(*)` is its
only aggregate: `BuildOperators` looks for this case first, and its operator has no ticker. What
such a plan emits is about one window if and only if the records that it counts all arrived in one.
-/

namespace StreamFlow.Streamql

open Processor Grouping

variable {φ ω α ν : Type}

/-- The records that arrive before the first tick, between two ticks and after the last one. -/
def windows (arrivals : List (Arrival ν)) : List (List (Processor.Record ν)) :=
  (arrivals.splitOnP Arrival.isTick).map (List.filterMap Arrival.record?)

/-- A record is the aggregate of some of the records of one window. -/
def OfOneWindow (p : Plan) (fmt : Sprintf φ ω) (F : FloatOps φ α)
    (arrivals : List (Arrival (Value φ ω))) (o : Row φ ω ⊕ Emitted α) : Prop :=
  ∃ run ∈ windows arrivals, ∃ rs : List (Row φ ω), rs.Sublist run ∧
    ∃ outs, runPlan p fmt F (rs.map .record) = some outs ∧ o ∈ outs

/-! ### The windows of what passes -/

theorem runsBetweenTicks_eq_filter (arrivals : List (Arrival ν)) :
    runsBetweenTicks arrivals = (windows arrivals).filter (· ≠ []) := rfl

theorem windows_tick (arrivals : List (Arrival ν)) :
    windows (.tick :: arrivals) = [] :: windows arrivals := by
  rw [windows, List.splitOnP_cons_eq_if_modifyHead]
  rfl

theorem windows_record (r : Processor.Record ν) (arrivals : List (Arrival ν)) :
    windows (.record r :: arrivals) = (windows arrivals).modifyHead (r :: ·) := by
  rw [windows, List.splitOnP_cons_eq_if_modifyHead, if_neg (by simp [Arrival.isTick]), windows]
  cases arrivals.splitOnP Arrival.isTick <;> rfl

theorem windows_ne_nil (arrivals : List (Arrival ν)) : windows arrivals ≠ [] := by
  rw [windows, Ne, List.map_eq_nil_iff]
  exact List.splitOnP_ne_nil _ _

theorem flatten_windows (arrivals : List (Arrival ν)) :
    (windows arrivals).flatten = arrivals.filterMap Arrival.record? := by
  induction arrivals with
  | nil => rfl
  | cons x arrivals ih =>
      cases x with
      | record r =>
          rw [windows_record, List.filterMap_cons, ← ih]
          cases hw : windows arrivals with
          | nil => exact absurd hw (windows_ne_nil arrivals)
          | cons run runs => rfl
      | tick =>
          rw [windows_tick, List.filterMap_cons, ← ih]
          rfl

theorem windows_passed (p : Plan) (arrivals : List (Arrival (Value φ ω))) :
    windows (passed p arrivals) = (windows arrivals).map (List.filter (passes p)) := by
  induction arrivals with
  | nil => rfl
  | cons x arrivals ih =>
      cases x with
      | record r =>
          rw [windows_record, passed, List.filter_cons, ← passed]
          by_cases hr : passes p r
          · rw [if_pos (by simpa [Arrival.record?] using hr), windows_record, ih]
            cases windows arrivals <;> simp [hr]
          · rw [if_neg (by simpa [Arrival.record?] using hr), ih]
            cases windows arrivals <;> simp [hr]
      | tick =>
          rw [windows_tick, List.map_cons, ← ih]
          exact windows_tick (passed p arrivals)

/-! ### Parts of a list -/

section Parts

variable {β : Type} {parts : List (List β)}

/-- A part that is as long as the whole is the only one with elements. -/
theorem length_filter_le_one {l : List β} (hl : l ∈ parts)
    (hle : parts.flatten.length ≤ l.length) : (parts.filter (· ≠ [])).length ≤ 1 := by
  obtain ⟨before, after, rfl⟩ := List.append_of_mem hl
  rw [List.flatten_append, List.flatten_cons, List.length_append, List.length_append] at hle
  have hempty : ∀ parts : List (List β), parts.flatten.length = 0 →
      parts.filter (· ≠ []) = [] := by
    intro parts hparts
    rw [List.length_eq_zero_iff, List.flatten_eq_nil_iff] at hparts
    simpa [List.filter_eq_nil_iff] using hparts
  rw [List.filter_append, List.filter_cons, hempty before (by omega), hempty after (by omega)]
  split <;> simp

/-- If at most one part has elements, one part is the whole. -/
theorem flatten_mem (hne : parts ≠ []) (hle : (parts.filter (· ≠ [])).length ≤ 1) :
    parts.flatten ∈ parts := by
  have hflatten : (parts.filter (· ≠ [])).flatten = parts.flatten := List.flatten_filter_ne_nil
  match hfilter : parts.filter (· ≠ []) with
  | [] =>
      obtain ⟨l, hl⟩ := List.exists_mem_of_ne_nil parts hne
      have hnil : l = [] := by simpa using List.filter_eq_nil_iff.mp hfilter l hl
      rw [hfilter, List.flatten_nil] at hflatten
      rwa [← hflatten, ← hnil]
  | [l] =>
      have hl : l ∈ parts := List.mem_of_mem_filter (hfilter ▸ List.mem_singleton_self l)
      rw [hfilter, List.flatten_singleton] at hflatten
      rwa [← hflatten]
  | _ :: _ :: _ =>
      rw [hfilter] at hle
      simp at hle

end Parts

/-! ### Counts -/

/-- Two runs have the same counts exactly when they have the same texts up to their order. -/
theorem counts_eq_iff (a : AggregateOperator) (fmt : Sprintf φ ω) (input input' : List (Row φ ω)) :
    a.counts fmt input = a.counts fmt input' ↔
      (input.filterMap (a.countedAs fmt)).Perm (input'.filterMap (a.countedAs fmt)) := by
  have hcount : ∀ (rs : List (Row φ ω)) (g : String), (a.counts fmt rs)[g]? =
      countEntry ((rs.filterMap (a.countedAs fmt)).count g) := by
    intro rs g
    rw [a.getElem?_counts, List.count_filterMap, List.countP_eq_length_filter]
    simp only [beq_eq_decide]
  rw [List.perm_iff_count]
  constructor
  · intro h g
    refine countEntry_injective ?_
    rw [← hcount, ← hcount, h]
  · intro h
    refine Std.ExtTreeMap.ext_getElem? fun g => ?_
    rw [hcount, hcount, h]

/-- A record that a plan with `COUNT(*)` counts. -/
def counted (p : Plan) (key : String) (r : Row φ ω) : Bool :=
  passes p r && ((fields r)[key]?).isSome

section Plan

variable {p : Plan} {key : String} {keys : List String}

/-- The texts that are counted in a run. -/
def countedTexts (p : Plan) (fmt : Sprintf φ ω) (key : String) (rs : List (Row φ ω)) :
    List String :=
  (rs.filter (passes p)).filterMap (AggregateOperator.countedAs ⟨key⟩ fmt)

theorem countedTexts_ne_nil_iff (fmt : Sprintf φ ω) (rs : List (Row φ ω)) :
    countedTexts p fmt key rs ≠ [] ↔ rs.any (counted p key) = true := by
  simp [countedTexts, counted, AggregateOperator.countedAs, List.filterMap_eq_nil_iff]

theorem countedTexts_flatten (fmt : Sprintf φ ω) (runs : List (List (Row φ ω))) :
    countedTexts p fmt key runs.flatten = (runs.map (countedTexts p fmt key)).flatten := by
  rw [countedTexts, List.filter_flatten, List.filterMap_flatten, List.map_map]
  rfl

/-- What a plan with `COUNT(*)` alone emits. -/
theorem runPlan_counts (hkey : p.groupBy = key :: keys) (haggs : p.aggregates ≠ [])
    (honly : onlyCountsAll p.specs = true) (fmt : Sprintf φ ω) (F : FloatOps φ α)
    (arrivals : List (Arrival (Value φ ω))) :
    runPlan p fmt F arrivals = some [.inr (recordOf "counts" (.counts
      (AggregateOperator.counts ⟨key⟩ fmt ((windows arrivals).flatten.filter (passes p)))))] := by
  rw [runPlan, buildOperators, buildLast_eq hkey haggs, if_pos honly,
    filterMap_record?_passed_eq_filter, flatten_windows]
  rfl

/-- Counts are about one window exactly when their texts are those of some of its records. -/
theorem ofOneWindow_counts_iff (hkey : p.groupBy = key :: keys) (haggs : p.aggregates ≠ [])
    (honly : onlyCountsAll p.specs = true) (fmt : Sprintf φ ω) (F : FloatOps φ α)
    (arrivals : List (Arrival (Value φ ω))) (input : List (Row φ ω)) :
    OfOneWindow p fmt F arrivals (.inr (recordOf "counts" (.counts
        (AggregateOperator.counts ⟨key⟩ fmt (input.filter (passes p)))))) ↔
      ∃ run ∈ windows arrivals, ∃ rs : List (Row φ ω), rs.Sublist run ∧
        (countedTexts p fmt key input).Perm (countedTexts p fmt key rs) := by
  simp only [OfOneWindow, runPlan_map_record hkey haggs, if_pos honly, Option.some.injEq,
    exists_eq_left', AggregateOperator.process, List.map_singleton, List.mem_singleton,
    Sum.inr.injEq, (recordOf_injective _).eq_iff, Aggregated.counts.injEq, counts_eq_iff,
    countedTexts]

/-- A plan that only counts emits counts of one window exactly when at most one window has a record
that is counted. -/
theorem onlyCountsAll_window_iff (hkey : p.groupBy = key :: keys) (haggs : p.aggregates ≠ [])
    (honly : onlyCountsAll p.specs = true) (fmt : Sprintf φ ω) (F : FloatOps φ α)
    (arrivals : List (Arrival (Value φ ω))) :
    (∀ outs, runPlan p fmt F arrivals = some outs → ∀ o ∈ outs, OfOneWindow p fmt F arrivals o) ↔
      ((windows arrivals).filter fun run => run.any (counted p key)).length ≤ 1 := by
  have hlength : ((windows arrivals).filter fun run => run.any (counted p key)).length =
      (((windows arrivals).map (countedTexts p fmt key)).filter (· ≠ [])).length := by
    rw [List.filter_map, List.length_map]
    refine congrArg List.length (List.filter_congr fun run _ => ?_)
    rw [Bool.eq_iff_iff, ← countedTexts_ne_nil_iff fmt]
    simp
  rw [hlength, runPlan_counts hkey haggs honly]
  simp only [Option.some.injEq, forall_eq', List.mem_singleton, forall_eq,
    ofOneWindow_counts_iff hkey haggs honly, countedTexts_flatten]
  constructor
  · rintro ⟨run, hrun, rs, hsub, hperm⟩
    refine length_filter_le_one (List.mem_map_of_mem hrun) ?_
    rw [hperm.length_eq]
    exact ((hsub.filter _).filterMap _).length_le
  · intro hle
    have hne : (windows arrivals).map (countedTexts p fmt key) ≠ [] := by
      simpa using windows_ne_nil arrivals
    obtain ⟨run, hrun, htexts⟩ := List.mem_map.mp (flatten_mem hne hle)
    exact ⟨run, hrun, run, List.Sublist.refl run, List.Perm.of_eq htexts.symm⟩

/-- With another aggregate the plan has a ticker, and emits what it has at each tick. -/
theorem ofOneWindow_of_not_onlyCountsAll (hkey : p.groupBy = key :: keys)
    (haggs : p.aggregates ≠ []) (honly : ¬ onlyCountsAll p.specs = true)
    (hwindow : 0 < p.windowMs) {fmt : Sprintf φ ω} {F : FloatOps φ α}
    {arrivals : List (Arrival (Value φ ω))} {outs : List (Row φ ω ⊕ Emitted α)}
    (h : runPlan p fmt F arrivals = some outs) : ∀ o ∈ outs, OfOneWindow p fmt F arrivals o := by
  intro o ho
  let t : TimeWindowAggregateOperator := ⟨key, p.specs, p.windowMs⟩
  rw [runPlan, buildOperators, buildLast_eq hkey haggs, if_neg honly, if_pos hwindow] at h
  obtain ⟨emitted, hprocess, rfl⟩ := Option.map_eq_some_iff.mp h
  change t.process fmt F _ = some emitted at hprocess
  rw [t.process_eq_flatMap_runs] at hprocess
  obtain ⟨hperiod, hemitted⟩ := Option.ite_none_right_eq_some.mp hprocess
  obtain ⟨e, he, rfl⟩ := List.mem_map.mp ho
  rw [← Option.some.inj hemitted, List.mem_flatMap] at he
  obtain ⟨kept, hkept, he⟩ := he
  rw [runsBetweenTicks_eq_filter, windows_passed, List.mem_filter, List.mem_map] at hkept
  obtain ⟨⟨run, hrun, rfl⟩, hne⟩ := hkept
  refine ⟨run, hrun, run, List.Sublist.refl run, _, ?_, List.mem_map_of_mem he⟩
  have hfilter : [run.filter (passes p)].filter (· ≠ []) = [run.filter (passes p)] := by
    simpa using hne
  rw [runPlan_map_record hkey haggs, if_neg honly, if_pos hwindow,
    TimeWindowAggregateOperator.loop_map_record, hfilter, List.flatMap_singleton]
  exact if_pos hperiod

end Plan

/-- Each record that a plan with a window emits is about one window, unless the plan only counts and
two windows have records that it counts. -/
theorem window_honoured_iff (fmt : Sprintf φ ω) (F : FloatOps φ α) {q : Query} {key : String}
    {keys : List String} (hkey : q.groupBy = key :: keys) (hspecs : (planify q).specs ≠ [])
    (hwindow : 0 < q.windowMs) (arrivals : List (Arrival (Value φ ω))) :
    (∀ outs, runPlan (planify q) fmt F arrivals = some outs →
      ∀ o ∈ outs, OfOneWindow (planify q) fmt F arrivals o) ↔
    (onlyCountsAll (planify q).specs = true →
      ((windows arrivals).filter fun run => run.any (counted (planify q) key)).length ≤ 1) := by
  have haggs := aggregates_ne_nil_of_specs hspecs
  by_cases honly : onlyCountsAll (planify q).specs = true
  · rw [onlyCountsAll_window_iff hkey haggs honly, forall_prop_of_true honly]
  · refine iff_of_true (fun outs houts => ?_) fun h => absurd h honly
    exact ofOneWindow_of_not_onlyCountsAll hkey haggs honly hwindow houts

theorem window_honoured_sum :
    (planify ⟨["SUM(x)"], "s", "", ["g"], 5⟩).specs ≠ [] ∧
    ∀ outs, runPlan (planify ⟨["SUM(x)"], "s", "", ["g"], 5⟩) intFormat intOps
        [.record (groupedRecord "a" 1), .tick, .record (groupedRecord "a" 2)] = some outs →
      ∀ o ∈ outs, OfOneWindow (planify ⟨["SUM(x)"], "s", "", ["g"], 5⟩) intFormat intOps
        [.record (groupedRecord "a" 1), .tick, .record (groupedRecord "a" 2)] o :=
  ⟨by decide, (window_honoured_iff intFormat intOps (q := ⟨["SUM(x)"], "s", "", ["g"], 5⟩) rfl
    (by decide) (by decide) _).mpr (by decide)⟩

/-- A window of five milliseconds, and the records of two windows in one count. -/
theorem window_ignored :
    ∃ q, parse "SELECT COUNT(*) FROM s GROUP BY g WINDOW 5" = .ok q ∧ q.groupBy ≠ [] ∧
      (planify q).specs ≠ [] ∧ 0 < q.windowMs ∧
      ∃ outs, runPlan (planify q) intFormat intOps
          [.record (groupedRecord "a" 1), .tick, .record (groupedRecord "a" 2)] = some outs ∧
        ∃ o ∈ outs, ¬ OfOneWindow (planify q) intFormat intOps
          [.record (groupedRecord "a" 1), .tick, .record (groupedRecord "a" 2)] o := by
  refine ⟨⟨["COUNT(*)"], "s", "", ["g"], 5⟩, by decide +kernel, by decide, by decide, by decide, ?_⟩
  have hnot := mt (onlyCountsAll_window_iff (p := planify ⟨["COUNT(*)"], "s", "", ["g"], 5⟩) rfl
    (by decide) (by decide) intFormat intOps
    [.record (groupedRecord "a" 1), .tick, .record (groupedRecord "a" 2)]).mp (by decide)
  push Not at hnot
  exact hnot

end StreamFlow.Streamql
