import StreamFlow.Processor.Operators
import StreamFlow.Schema.Registry
import StreamFlow.Streamql.Executor

/-!
# Jobs

`connectors/simple.go`: `InMemorySource` sends its records that pass the check of a schema, if it
has one, and `InMemorySink` collects what it reads. A job, as in `streamql-runner`, puts the
operators of a plan between the two. The source, the operators and the sink are goroutines;
`job_collects` says what the sink has when they are done.
-/

namespace StreamFlow.Connectors

open Run Network Processor Streamql

variable {φ ω α : Type}

structure InMemorySource (φ ω : Type) where
  records : List (Row φ ω)
  registry : Option Schema.Registry
  schemaName : String

namespace InMemorySource

/-- The record is not left out by the `continue` of the loop. -/
def sends (s : InMemorySource φ ω) (r : Row φ ω) : Bool :=
  match s.registry with
  | some reg => s.schemaName = "" || reg.validate s.schemaName r
  | none => true

/-- `Run`: the goroutine goes through the records, with the registry as it is meanwhile. -/
def run (s : InMemorySource φ ω) : Chan (Row φ ω) :=
  (Chan.source s.records).start (relayMachine (Option.guard fun r => s.sends r))

theorem outputs_run (s : InMemorySource φ ω) {l : List (Row φ ω)} :
    s.run.Outputs l ↔ l = s.records.filter s.sends := by
  have hquiet : s.run.Quiet := ⟨trivial, fun _ => rfl⟩
  rw [hquiet.outputs_iff]
  change l = (relayMachine (Option.guard fun r => s.sends r)).emitAll () s.records ↔ _
  rw [emitAll_relayMachine, List.filterMap_eq_filter]

end InMemorySource

structure InMemorySink (φ ω : Type) where
  collected : List (Row φ ω)

/-! ### The operators of a plan -/

/-- The last operator of a plan in a pipeline. -/
def lastOperator : LastOperator φ ω → AnyOperator φ ω
  | .map m => .map m
  | .aggregate a => .aggregate a
  | .aggregateFuncs a => .aggregateFuncs a
  | .timeWindow t => .timeWindow t

/-- The list that `BuildOperators` returns. -/
def planOperators (p : Plan) : List (AnyOperator φ ω) :=
  (buildOperators p).filter.toList.map .filter ++ [lastOperator (buildOperators p).last]

/-- A record of the output of a plan as the pipeline emits it. -/
def emitted (box : Aggregated α → ω) : Row φ ω ⊕ Emitted α → Row φ ω := Sum.elim id (boxed box)

/-- Ticks between the records that pass a filter can be placed between all records. -/
theorem exists_arrivals_of_filter (pass : Row φ ω → Bool) {input : List (Row φ ω)}
    {arrivals : List (Arrival (Value φ ω))}
    (h : arrivals.filterMap Arrival.record? = input.filter pass) :
    ∃ all : List (Arrival (Value φ ω)), all.filterMap Arrival.record? = input ∧
      all.filter (fun x => (x.record?.map pass).getD true) = arrivals := by
  induction arrivals generalizing input with
  | nil =>
      refine ⟨input.map .record, filterMap_record?_map_record input, ?_⟩
      rw [List.filter_map]
      exact List.map_eq_nil_iff.mpr h.symm
  | cons x arrivals ih =>
      cases x with
      | tick =>
          obtain ⟨all, hall, hfilter⟩ := ih h
          exact ⟨.tick :: all, hall, by rw [List.filter_cons_of_pos rfl, hfilter]⟩
      | record r =>
          obtain ⟨l₁, l₂, rfl, hl₁, hr, hl₂⟩ := List.filter_eq_cons_iff.mp h.symm
          obtain ⟨all, rfl, hfilter⟩ := ih hl₂.symm
          refine ⟨l₁.map .record ++ .record r :: all, ?_, ?_⟩
          · rw [List.filterMap_append, filterMap_record?_map_record]
            rfl
          · have hnone : (l₁.map Arrival.record).filter
                (fun x => (x.record?.map pass).getD true) = [] := by
              rw [List.filter_map]
              exact List.map_eq_nil_iff.mpr (List.filter_eq_nil_iff.mpr hl₁)
            rw [List.filter_append, hnone, List.nil_append,
              List.filter_cons_of_pos (by exact hr), hfilter]

variable (fmt : Sprintf φ ω) (F : FloatOps φ α) (box : Aggregated α → ω)

/-- The pipeline of a plan: the filter drops records, and the last operator gets the rest with the
ticks of its ticker between them. -/
theorem emits_planOperators {p : Plan} {input output : List (Row φ ω)} :
    Emits fmt F box (planOperators p) input output ↔
      ∃ arrivals, arrivals.filterMap Arrival.record? = input ∧
        output = (lastOperator (buildLast p)).process fmt F box (passed p arrivals) := by
  have hpassed : ∀ arrivals : List (Arrival (Value φ ω)),
      arrivals.filter (fun x => (x.record?.map (passes p)).getD true) = passed p arrivals :=
    fun _ => rfl
  unfold planOperators buildOperators
  cases hfilter : (buildFilter p : Option (FilterOperator (Value φ ω))) with
  | none =>
      have hall : ∀ arrivals : List (Arrival (Value φ ω)), passed p arrivals = arrivals := by
        intro arrivals
        refine List.filter_eq_self.mpr fun x _ => ?_
        cases x <;> simp [Arrival.record?, passes, hfilter]
      simp only [hall]
      exact Iff.rfl
  | some f =>
      have hpass : ∀ r, passes p r = f.pred r := by
        intro r
        rw [passes, hfilter]
        rfl
      constructor
      · rintro ⟨arrivals, rfl, arrivals', harrivals', rfl⟩
        have hkept : arrivals'.filterMap Arrival.record? =
            (arrivals.filterMap Arrival.record?).filter (passes p) :=
          harrivals'.trans (List.filter_congr fun r _ => (hpass r).symm)
        obtain ⟨all, hall, hpassedAll⟩ := exists_arrivals_of_filter (passes p) hkept
        exact ⟨all, hall, by rw [← hpassed, hpassedAll]⟩
      · rintro ⟨arrivals, rfl, rfl⟩
        refine ⟨arrivals, rfl, passed p arrivals, ?_, rfl⟩
        rw [filterMap_record?_passed_eq_filter]
        exact List.filter_congr fun r _ => hpass r

/-- The last operator of a plan emits what the plan does. -/
theorem runPlan_map_emitted {p : Plan}
    (hticker : (lastOperator (buildLast p) : AnyOperator φ ω).tickerOk = true)
    (arrivals : List (Arrival (Value φ ω))) :
    (runPlan p fmt F arrivals).map (List.map (emitted box)) =
      some ((lastOperator (buildLast p)).process fmt F box (passed p arrivals)) := by
  unfold runPlan buildOperators
  cases hlast : (buildLast p : LastOperator φ ω) with
  | map m => simp [lastOperator, AnyOperator.process, emitted, List.map_map]
  | aggregate a => simp [lastOperator, AnyOperator.process, emitted, List.map_map]
  | aggregateFuncs a => simp [lastOperator, AnyOperator.process, emitted, List.map_map]
  | timeWindow t =>
      rw [hlast] at hticker
      have hperiod : 0 < t.tickerPeriod := of_decide_eq_true hticker
      simp [lastOperator, AnyOperator.process, emitted, TimeWindowAggregateOperator.process,
        hperiod, List.map_map]

/-! ### Jobs -/

/-- `sink.Consume(streamql.RunPlan(plan, source.Run()))` before any move of a goroutine. `none`
is the panic of a ticker. -/
def startJob (source : InMemorySource φ ω) (p : Plan) (sink : InMemorySink φ ω) :
    Option (Line (Row φ ω)) :=
  (launch fmt F box (planOperators p) source.run).map fun line =>
    { line with received := sink.collected }

variable {fmt F box} {source : InMemorySource φ ω} {p : Plan} {sink : InMemorySink φ ω}
  {line : Line (Row φ ω)}

theorem tickerOk_of_startJob (h : startJob fmt F box source p sink = some line) :
    (lastOperator (buildLast p) : AnyOperator φ ω).tickerOk = true := by
  obtain ⟨line', hlaunch, -⟩ := Option.map_eq_some_iff.mp h
  have hall := List.all_eq_true.mp (Option.ite_none_right_eq_some.mp hlaunch).1
  exact hall _ (List.mem_append_right _ (List.mem_singleton_self _))

theorem eq_of_startJob (h : startJob fmt F box source p sink = some line) :
    line = ⟨pipeline fmt F box (planOperators p) source.run, sink.collected⟩ := by
  obtain ⟨line', hlaunch, rfl⟩ := Option.map_eq_some_iff.mp h
  rw [eq_of_launch hlaunch]

/-- A job from its source to its sink. Over all interleavings of the goroutines and all times of
the ticks, the sink ends with what it had and, behind it, what the plan emits for the valid
records of the source in their order, with ticks at some places; a job that cannot go on without
a tick is at its end. -/
theorem job_collects (hstart : startJob fmt F box source p sink = some line) :
    (∀ collected, (∃ moves s, exec Line.step line moves = some s ∧ s.chan.closed = true ∧
        s.received = sink.collected ++ collected) ↔
      ∃ arrivals outs, arrivals.filterMap Arrival.record? = source.records.filter source.sends ∧
        runPlan p fmt F arrivals = some outs ∧ collected = outs.map (emitted box)) ∧
    ∀ moves s, exec Line.step line moves = some s →
      (∀ m, m.isTick = false → s.step m = none) → s.chan.closed = true := by
  have hticker := tickerOk_of_startJob hstart
  refine ⟨fun collected => ?_, fun _ _ _ hstuck => Line.closed_of_stuck hstuck⟩
  rw [eq_of_startJob hstart, Line.exists_run_iff, outputs_pipeline]
  simp only [source.outputs_run, exists_eq_left, emits_planOperators]
  constructor
  · rintro ⟨arrivals, hinput, rfl⟩
    obtain ⟨outs, houts, heq⟩ :=
      Option.map_eq_some_iff.mp (runPlan_map_emitted fmt F box hticker arrivals)
    exact ⟨arrivals, outs, hinput, houts, heq.symm⟩
  · rintro ⟨arrivals, outs, hinput, houts, rfl⟩
    have heq := runPlan_map_emitted fmt F box hticker arrivals
    rw [houts] at heq
    exact ⟨arrivals, hinput, Option.some.inj heq⟩

/-- Three records, of which the second one does not have the type of the schema. -/
def sampleSource : InMemorySource ℤ (Aggregated ℤ) :=
  ⟨[recordOf "x" (.int 1), recordOf "x" (.string "2"), recordOf "x" (.int 3)],
    some (Schema.newRegistry.register "s" "\x7bx:int\x7d"), "s"⟩

def samplePlan : Plan := ⟨"s", ["x"], "x > 1", [], [], 0⟩

/-- The condition of the plan leaves one of the two valid records. -/
theorem job_collects_sample :
    ∃ line, startJob sampleFormat intOps id sampleSource samplePlan ⟨[none]⟩ = some line ∧
      ∃ moves s, exec Line.step line moves = some s ∧ s.chan.closed = true ∧
        s.received = [none, recordOf "x" (.int 3)] := by
  have hstart : startJob sampleFormat intOps id sampleSource samplePlan ⟨[none]⟩ = some _ := rfl
  have hcollects := (job_collects hstart).1 [recordOf "x" (.int 3)]
  exact ⟨_, hstart, hcollects.mpr ⟨[.record (recordOf "x" (.int 1)),
    .record (recordOf "x" (.int 3))], [.inl (recordOf "x" (.int 3))], rfl, rfl, rfl⟩⟩

end StreamFlow.Connectors
