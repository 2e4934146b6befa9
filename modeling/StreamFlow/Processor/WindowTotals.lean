import StreamFlow.Processor.Operators

/-!
# Windows of time add up

A `TimeWindowAggregateOperator` at the end of a pipeline. The ticks of its ticker come whenever they
come, so the windows of two runs differ. What does not depend on them is which records are
counted: the counts of the windows of one run add up to the number of records of each group, no
record is lost at a tick or counted on both sides of it, and no window is empty.
-/

namespace StreamFlow.Processor

open Run Network Grouping

variable {φ ω α ν : Type}

/-- The windows are made of all records in their order. -/
theorem flatten_runsBetweenTicks (arrivals : List (Arrival ν)) :
    (runsBetweenTicks arrivals).flatten = arrivals.filterMap Arrival.record? := by
  have hrest : ∀ rs : List (Record ν), (runsBetweenTicks (rs.map .record ++ arrivals)).flatten =
      rs ++ arrivals.filterMap Arrival.record? := by
    have hone : ∀ rs : List (Record ν), ([rs].filter (· ≠ [])).flatten = rs := by
      intro rs
      cases rs <;> simp
    induction arrivals with
    | nil =>
        intro rs
        rw [List.append_nil, runsBetweenTicks_map_record, hone]
        exact (List.append_nil rs).symm
    | cons x arrivals ih =>
        intro rs
        cases x with
        | tick =>
            rw [runsBetweenTicks_append_tick, List.flatten_append, hone]
            exact congrArg (rs ++ ·) (ih [])
        | record r =>
            have hsplit : rs.map Arrival.record ++ .record r :: arrivals =
                (rs ++ [r]).map Arrival.record ++ arrivals := by simp
            rw [hsplit, ih, List.append_assoc]
            rfl
  exact hrest []

theorem length_groupOf_flatten (fmt : Sprintf φ ω) (key g : String)
    (ls : List (List (Record (Value φ ω)))) :
    (ls.map fun rs => (groupOf fmt key g rs).length).sum =
      (groupOf fmt key g ls.flatten).length := by
  induction ls with
  | nil => rfl
  | cons rs ls ih =>
      rw [List.map_cons, List.sum_cons, ih, List.flatten_cons, groupOf, groupOf, groupOf,
        List.filter_append, List.length_append]

/-- The count that a record with groups shows for a group under an alias; a group or an alias that
is not there counts nothing. -/
def windowCount (g al : String) (r : Record (Aggregated α)) : ℕ :=
  match (fields r)["groups"]? with
  | some (.groups m) =>
      match (m[g]?).bind fun vals => vals[al]? with
      | some (.int n) => n
      | _ => 0
  | _ => 0

/-- A count under an alias of its own shows the number of records. -/
theorem shown_count {aggs : List AggSpec} {spec : AggSpec} (hown : spec.HasOwnAlias aggs)
    (hcount : spec.func = "count") (F : FloatOps φ α) (rs : List (Record (Value φ ω))) :
    shown F aggs spec.effectiveAlias rs = (countEntry rs.length).map .int := by
  have hnumbers : rs.filterMap spec.numberIn = [] :=
    List.filterMap_eq_nil_iff.mpr fun r _ => AggSpec.numberIn_of_count hcount r
  rw [shown, hown.numbers_eq, hown.hits_eq, hnumbers, if_pos rfl,
    AggSpec.filter_hits_of_count hcount]

theorem windowCount_process (a : AggregateFuncsOperator) {spec : AggSpec}
    (hown : spec.HasOwnAlias a.aggs) (hcount : spec.func = "count") (fmt : Sprintf φ ω)
    (F : FloatOps φ α) (rs : List (Record (Value φ ω))) (g : String) :
    (a.process fmt F rs).map (windowCount g spec.effectiveAlias) =
      [(groupOf fmt a.key g rs).length] := by
  have hget : (fields (recordOf "groups" (.groups (a.groups fmt F rs)) :
      Record (Aggregated α)))["groups"]? = some (.groups (a.groups fmt F rs)) :=
    OrdMap.getElem?_insert_self' _ _ _
  rw [AggregateFuncsOperator.process, List.map_singleton, windowCount, hget]
  dsimp only
  rw [a.getElem?_groups]
  by_cases hnil : groupOf fmt a.key g rs = []
  · rw [if_pos hnil, hnil]
    rfl
  · rw [if_neg hnil, Option.bind_some, getElem?_renderGroup_groupAcc,
      shown_count hown hcount,
      countEntry_of_ne_zero (mt List.length_eq_zero_iff.mp hnil)]
    rfl

namespace TimeWindowAggregateOperator

variable {t : TimeWindowAggregateOperator} {spec : AggSpec}

/-- The counts of the windows add up to the number of records. -/
theorem sum_windowCount_loop (hown : spec.HasOwnAlias t.aggs)
    (hcount : spec.func = "count") (fmt : Sprintf φ ω) (F : FloatOps φ α)
    (arrivals : List (Arrival (Value φ ω))) (g : String) :
    ((t.loop fmt F .empty arrivals).map (windowCount g spec.effectiveAlias)).sum =
      (groupOf fmt t.key g (arrivals.filterMap Arrival.record?)).length := by
  have hloop := t.loop_eq fmt F [] arrivals
  rw [List.foldl_nil, List.map_nil, List.nil_append] at hloop
  have hwindow : ∀ rs, (t.plain.process fmt F rs).map (windowCount g spec.effectiveAlias) =
      [(groupOf fmt t.key g rs).length] :=
    fun rs => windowCount_process t.plain hown hcount fmt F rs g
  rw [hloop, List.map_flatMap]
  simp only [hwindow]
  rw [← flatten_runsBetweenTicks, ← length_groupOf_flatten, ← List.map_eq_flatMap]

/-- No window is empty. -/
theorem exists_windowCount_pos (hown : spec.HasOwnAlias t.aggs)
    (hcount : spec.func = "count") (fmt : Sprintf φ ω) (F : FloatOps φ α)
    {arrivals : List (Arrival (Value φ ω))} {o : Record (Aggregated α)}
    (ho : o ∈ t.loop fmt F .empty arrivals) : ∃ g, 0 < windowCount g spec.effectiveAlias o := by
  have hloop := t.loop_eq fmt F [] arrivals
  rw [List.foldl_nil, List.map_nil, List.nil_append] at hloop
  rw [hloop] at ho
  obtain ⟨rs, hrs, ho⟩ := List.mem_flatMap.mp ho
  have hne : rs ≠ [] := of_decide_eq_true (List.mem_filter.mp hrs).2
  obtain ⟨r, hr⟩ := List.exists_mem_of_ne_nil rs hne
  refine ⟨groupKey fmt t.key r, ?_⟩
  have hwindow := windowCount_process t.plain hown hcount fmt F rs (groupKey fmt t.key r)
  have hmem : windowCount (groupKey fmt t.key r) spec.effectiveAlias o ∈
      [(groupOf fmt t.plain.key (groupKey fmt t.key r) rs).length] := by
    rw [← hwindow]
    exact List.mem_map_of_mem ho
  rw [List.mem_singleton.mp hmem]
  exact List.length_pos_of_mem (List.mem_filter.mpr ⟨hr, decide_eq_true rfl⟩)

end TimeWindowAggregateOperator

theorem emits_append {fmt : Sprintf φ ω} {F : FloatOps φ α} {box : Aggregated α → ω}
    {ops ops' : List (AnyOperator φ ω)} {input output : List (Record (Value φ ω))} :
    Emits fmt F box (ops ++ ops') input output ↔
      ∃ l, Emits fmt F box ops input l ∧ Emits fmt F box ops' l output := by
  induction ops generalizing input with
  | nil => simp [Emits]
  | cons op ops ih =>
      simp only [List.cons_append, Emits, ih]
      constructor
      · rintro ⟨arrivals, hinput, l, hl, houtput⟩
        exact ⟨l, ⟨arrivals, hinput, hl⟩, houtput⟩
      · rintro ⟨l, ⟨arrivals, hinput, hl⟩, houtput⟩
        exact ⟨arrivals, hinput, l, hl, houtput⟩

/-- Windows of time add up behind any operators without a ticker. For a count under an alias of its
own, every complete run receives windows whose counts add up, group by group, to the numbers of
the records that reach the operator, wherever the ticks fall. None of the windows is empty. -/
theorem windows_add_up {fmt : Sprintf φ ω} {F : FloatOps φ α} {box : Aggregated α → ω}
    {ops : List (AnyOperator φ ω)} (huntimed : ∀ op ∈ ops, op.untimed = true)
    {t : TimeWindowAggregateOperator} {spec : AggSpec} (hown : spec.HasOwnAlias t.aggs)
    (hcount : spec.func = "count")
    {input : List (Record (Value φ ω))} {line : Line (Record (Value φ ω))}
    (hlaunch : launch fmt F box (ops ++ [.timeWindow t]) (.source input) = some line)
    {moves : List Move} {s : Line (Record (Value φ ω))}
    (hrun : exec Line.step line moves = some s) (hclosed : s.chan.closed = true) :
    ∃ windows : List (Record (Aggregated α)), s.received = windows.map (boxed box) ∧
      (∀ g, (windows.map (windowCount g spec.effectiveAlias)).sum =
        (groupOf fmt t.key g (processAll fmt F box ops input)).length) ∧
      ∀ w ∈ windows, ∃ g, 0 < windowCount g spec.effectiveAlias w := by
  have hemits := emits_iff_exists_source.mp
    ((exists_run_iff_of_launch hlaunch).mp ⟨moves, s, hrun, hclosed, rfl⟩)
  obtain ⟨l, hl, arrivals, rfl, hreceived⟩ := emits_append.mp hemits
  rw [emits_iff_of_untimed fmt F box huntimed] at hl
  refine ⟨t.loop fmt F .empty arrivals, hreceived, fun g => ?_, fun w hw => ?_⟩
  · rw [t.sum_windowCount_loop hown hcount, hl]
  · exact t.exists_windowCount_pos hown hcount fmt F hw

def sampleCounter : TimeWindowAggregateOperator := ⟨"g", [⟨"count", "*", ""⟩], 10⟩

/-- A tick after the first of two records that the join lets through. -/
def sampleTicks : List Move :=
  [.advance 1, .advance 0, .tick 0, .take, .advance 1, .advance 1, .advance 0, .advance 2,
    .advance 1, .advance 1, .advance 0, .take, .advance 0]

theorem windows_add_up_sample :
    ∃ s, exec Line.step ⟨pipeline sampleFormat intOps id
        [.join sampleJoin, .timeWindow sampleCounter]
        (.source [sampleGroup "a", sampleGroup "b", sampleGroup "a"]), []⟩ sampleTicks = some s ∧
      s.received.length = 2 ∧
      ∃ windows : List (Record (Aggregated ℤ)), s.received = windows.map (boxed id) ∧
        (∀ g, (windows.map (windowCount g "count_*")).sum =
          (groupOf sampleFormat "g" g (processAll sampleFormat intOps id [.join sampleJoin]
            [sampleGroup "a", sampleGroup "b", sampleGroup "a"])).length) ∧
        ∀ w ∈ windows, ∃ g, 0 < windowCount g "count_*" w := by
  have hlaunch : launch sampleFormat intOps id ([.join sampleJoin] ++ [.timeWindow sampleCounter])
      (.source [sampleGroup "a", sampleGroup "b", sampleGroup "a"]) = some _ := if_pos (by decide)
  obtain ⟨s, hrun, hclosed, hlength⟩ : ∃ s, exec Line.step ⟨pipeline sampleFormat intOps id
      [.join sampleJoin, .timeWindow sampleCounter]
      (.source [sampleGroup "a", sampleGroup "b", sampleGroup "a"]), []⟩ sampleTicks = some s ∧
        s.chan.closed = true ∧ s.received.length = 2 :=
    exists_exec_of_any (by decide +kernel)
  have hown : (⟨"count", "*", ""⟩ : AggSpec).HasOwnAlias sampleCounter.aggs := by decide
  exact ⟨s, hrun, hlength, windows_add_up (by simp [AnyOperator.untimed]) hown rfl hlaunch hrun
    hclosed⟩

end StreamFlow.Processor
