import StreamFlow.Processor.AggregateFuncs

/-!
# Aggregates by window of time

`TimeWindowAggregateOperator` of `op.go` accumulates records as `AggregateFuncsOperator` does, emits
and forgets what it has at each tick of a ticker, and once more when its input is closed. What its
`select` receives is a list of records and ticks in any order. `process_eq_flatMap_runs` says that
the operator is the plain one on the records between two ticks.
-/

namespace StreamFlow.Processor

variable {φ ω α ν : Type}

/-- What the `select` of the operator receives. -/
inductive Arrival (ν : Type) where
  | record (r : Record ν)
  | tick

namespace Arrival

def isTick : Arrival ν → Bool
  | record _ => false
  | tick => true

def record? : Arrival ν → Option (Record ν)
  | record r => some r
  | tick => none

end Arrival

/-- The runs of records between ticks that have a record. -/
def runsBetweenTicks (arrivals : List (Arrival ν)) : List (List (Record ν)) :=
  ((arrivals.splitOnP Arrival.isTick).map (List.filterMap Arrival.record?)).filter (· ≠ [])

theorem filterMap_record?_map_record (rs : List (Record ν)) :
    (rs.map Arrival.record).filterMap Arrival.record? = rs := by
  rw [List.filterMap_map]
  exact List.filterMap_some

theorem isTick_of_mem_map_record {rs : List (Record ν)} {x : Arrival ν}
    (hx : x ∈ rs.map Arrival.record) : x.isTick = false := by
  obtain ⟨r, -, rfl⟩ := List.mem_map.mp hx
  rfl

theorem runsBetweenTicks_map_record (rs : List (Record ν)) :
    runsBetweenTicks (rs.map .record) = [rs].filter (· ≠ []) := by
  rw [runsBetweenTicks, List.splitOnP_eq_singleton fun x hx => isTick_of_mem_map_record hx,
    List.map_singleton, filterMap_record?_map_record]

theorem runsBetweenTicks_append_tick (rs : List (Record ν)) (arrivals : List (Arrival ν)) :
    runsBetweenTicks (rs.map .record ++ .tick :: arrivals) =
      [rs].filter (· ≠ []) ++ runsBetweenTicks arrivals := by
  rw [runsBetweenTicks, List.splitOnP_append_cons_of_forall_mem
    (fun x hx => isTick_of_mem_map_record hx) _ rfl, List.map_cons, filterMap_record?_map_record,
    ← List.singleton_append, List.filter_append]
  rfl

structure TimeWindowAggregateOperator where
  key : String
  aggs : List AggSpec
  duration : ℤ

namespace TimeWindowAggregateOperator

/-- `time.Duration(t.Duration) * time.Millisecond`, a number of nanoseconds. -/
def tickerPeriod (t : TimeWindowAggregateOperator) : ℤ := (t.duration * 1000000).bmod (2 ^ 64)

/-- `flush`: what it emits and the maps it leaves. -/
def flush (t : TimeWindowAggregateOperator) (F : FloatOps φ α) (st : AggState α) :
    List (Record (Aggregated α)) × AggState α :=
  if st.sums.isEmpty && st.counts.isEmpty then ([], st)
  else ([recordOf "groups" (.groups (render F t.aggs st))], .empty)

/-- The loop of the operator; the list ends when the input is closed. -/
def loop (t : TimeWindowAggregateOperator) (fmt : Sprintf φ ω) (F : FloatOps φ α) :
    AggState α → List (Arrival (Value φ ω)) → List (Record (Aggregated α))
  | st, [] => (t.flush F st).1
  | st, .record r :: rest => t.loop fmt F (accumulate fmt F t.key t.aggs st r) rest
  | st, .tick :: rest => (t.flush F st).1 ++ t.loop fmt F (t.flush F st).2 rest

/-- `TimeWindowAggregateOperator.Process`: what it emits. `none` is the panic of `time.NewTicker`
for a period that is not positive. -/
def process (t : TimeWindowAggregateOperator) (fmt : Sprintf φ ω) (F : FloatOps φ α)
    (arrivals : List (Arrival (Value φ ω))) : Option (List (Record (Aggregated α))) :=
  if 0 < t.tickerPeriod then some (t.loop fmt F .empty arrivals) else none

/-- The plain operator with the same key and specs. -/
def plain (t : TimeWindowAggregateOperator) : AggregateFuncsOperator := ⟨t.key, t.aggs⟩

theorem isEmpty_sums_accumulate (fmt : Sprintf φ ω) (F : FloatOps φ α) (key : String)
    (aggs : List AggSpec) (st : AggState α) (r : Record (Value φ ω)) :
    (accumulate fmt F key aggs st r).sums.isEmpty = false := by
  rw [accumulate, Std.ExtTreeMap.isEmpty_eq_false_iff]
  exact Std.ExtTreeMap.insert_ne_empty

/-- A flush emits what the plain operator emits for the records since the last one, if there are
any, and leaves empty maps. -/
theorem flush_foldl_accumulate (t : TimeWindowAggregateOperator) (fmt : Sprintf φ ω)
    (F : FloatOps φ α) (rs : List (Record (Value φ ω))) :
    t.flush F (rs.foldl (accumulate fmt F t.key t.aggs) .empty) =
      (([rs].filter (· ≠ [])).flatMap (t.plain.process fmt F), .empty) := by
  rcases List.eq_nil_or_concat rs with rfl | ⟨rs, r, rfl⟩
  · rfl
  · rw [flush, List.concat_eq_append, List.foldl_append, List.foldl_cons, List.foldl_nil,
      isEmpty_sums_accumulate, Bool.false_and, if_neg Bool.false_ne_true]
    have hne : [rs ++ [r]].filter (· ≠ []) = [rs ++ [r]] := by simp
    rw [hne, List.flatMap_singleton, AggregateFuncsOperator.process, AggregateFuncsOperator.groups,
      plain, List.foldl_append]
    rfl

/-- The loop after some records since the last flush. -/
theorem loop_eq (t : TimeWindowAggregateOperator) (fmt : Sprintf φ ω) (F : FloatOps φ α)
    (rs : List (Record (Value φ ω))) (arrivals : List (Arrival (Value φ ω))) :
    t.loop fmt F (rs.foldl (accumulate fmt F t.key t.aggs) .empty) arrivals =
      (runsBetweenTicks (rs.map .record ++ arrivals)).flatMap (t.plain.process fmt F) := by
  induction arrivals generalizing rs with
  | nil => rw [loop, flush_foldl_accumulate, List.append_nil, runsBetweenTicks_map_record]
  | cons x arrivals ih =>
      cases x with
      | record r =>
          have hsplit : rs.map Arrival.record ++ .record r :: arrivals =
              (rs ++ [r]).map Arrival.record ++ arrivals := by simp
          rw [loop, hsplit, ← ih, List.foldl_append]
          rfl
      | tick =>
          rw [loop, flush_foldl_accumulate, runsBetweenTicks_append_tick, List.flatMap_append]
          exact congrArg _ (ih [])

/-- Without a tick, all records are in one run. -/
theorem loop_map_record (t : TimeWindowAggregateOperator) (fmt : Sprintf φ ω) (F : FloatOps φ α)
    (rs : List (Record (Value φ ω))) :
    t.loop fmt F .empty (rs.map .record) =
      ([rs].filter (· ≠ [])).flatMap (t.plain.process fmt F) := by
  rw [← runsBetweenTicks_map_record]
  exact t.loop_eq fmt F [] (rs.map .record)

/-- The operator emits what the plain one emits for each run of records between ticks, in order and
nothing else. -/
theorem process_eq_flatMap_runs (t : TimeWindowAggregateOperator) (fmt : Sprintf φ ω)
    (F : FloatOps φ α) (arrivals : List (Arrival (Value φ ω))) :
    t.process fmt F arrivals =
      if 0 < t.tickerPeriod then
        some ((runsBetweenTicks arrivals).flatMap (t.plain.process fmt F))
      else none := by
  rw [process]
  exact congrArg (fun emitted => if 0 < t.tickerPeriod then some emitted else none)
    (t.loop_eq fmt F [] arrivals)

end TimeWindowAggregateOperator

end StreamFlow.Processor
