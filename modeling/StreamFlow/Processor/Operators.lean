import StreamFlow.Foundation.Network
import StreamFlow.Processor.CountWindow
import StreamFlow.Processor.TimeWindow

/-!
# Pipelines of all operators

The seven operators of `op.go` behind each other, as `NewRuntime` and `Run` put them. Each one is a
machine of `Network`: `MapOperator`, `FilterOperator` and `JoinOperator` send one record or none
for each record, the aggregates keep maps and send at the end or at the end of a window, and the
operator with windows of time has a ticker. The output channels of `AggregateOperator` and
`AggregateFuncsOperator` hold one record, the others none.

The aggregates that one operator emits are values in the records that the next one reads; `box` says
which values. `Emits` describes a pipeline by the operators as functions on lists, one after the
other, with ticks at any places in front of an operator with windows of time.
`exists_run_iff_of_launch` compares it with the goroutines.
-/

namespace StreamFlow.Processor

open Run Network

variable {φ ω α : Type}

/-! ### The join with a table -/

structure JoinOperator (φ ω : Type) where
  leftKey : String
  rightKey : String
  rightMap : OrdMap String (Record (Value φ ω))

/-- The fields of a record and those of another, which come first. -/
def mergedRecord (l r : Record (Value φ ω)) : Record (Value φ ω) :=
  some (OrdMap.insertAll (OrdMap.insertAll ∅ (fields l).toList) (fields r).toList)

/-- The body of the loop in `JoinOperator.Process`; a record without the key is looked up under the
empty text. -/
def JoinOperator.body (j : JoinOperator φ ω) (fmt : Sprintf φ ω) (l : Record (Value φ ω)) :
    Option (Record (Value φ ω)) :=
  (j.rightMap[groupKey fmt j.leftKey l]?).map (mergedRecord l)

/-! ### Operators as machines -/

/-- `Operator` with all its implementations. -/
inductive AnyOperator (φ ω : Type) where
  | map (m : MapOperator (Value φ ω))
  | filter (f : FilterOperator (Value φ ω))
  | aggregate (a : AggregateOperator)
  | windowAggregate (w : WindowAggregateOperator)
  | join (j : JoinOperator φ ω)
  | aggregateFuncs (a : AggregateFuncsOperator)
  | timeWindow (t : TimeWindowAggregateOperator)

/-- A record with aggregates as a record for the next operator. -/
def boxed (box : Aggregated α → ω) (r : Record (Aggregated α)) : Record (Value φ ω) :=
  r.map fun m => m.map fun _ v => .other (box v)

section

variable (fmt : Sprintf φ ω) (F : FloatOps φ α) (box : Aggregated α → ω)

@[reducible]
def AggregateOperator.machine (a : AggregateOperator) :
    Machine (Record (Value φ ω)) (Record (Value φ ω)) where
  State := OrdMap String ℕ
  init := ∅
  read counts r := (a.count fmt counts r, [])
  tick _ := none
  finish counts := [boxed box (recordOf "counts" (.counts counts))]
  capacity := 1

/-- The state is the pair of `counts` and `seen`. -/
@[reducible]
def WindowAggregateOperator.machine (w : WindowAggregateOperator) :
    Machine (Record (Value φ ω)) (Record (Value φ ω)) where
  State := OrdMap String ℕ × ℕ
  init := (∅, 0)
  read st r :=
    let st' := w.step fmt ⟨st.1, st.2, []⟩ r
    ((st'.counts, st'.seen), st'.out.map fun m => boxed box (recordOf "counts" (.counts m)))
  tick _ := none
  finish st := if 0 < st.1.size then [boxed box (recordOf "counts" (.counts st.1))] else []
  capacity := 0

@[reducible]
def AggregateFuncsOperator.machine (a : AggregateFuncsOperator) :
    Machine (Record (Value φ ω)) (Record (Value φ ω)) where
  State := AggState α
  init := .empty
  read st r := (accumulate fmt F a.key a.aggs st r, [])
  tick _ := none
  finish st := [boxed box (recordOf "groups" (.groups (render F a.aggs st)))]
  capacity := 1

/-- The tick of the ticker and the end of the input are both a `flush`. -/
@[reducible]
def TimeWindowAggregateOperator.machine (t : TimeWindowAggregateOperator) :
    Machine (Record (Value φ ω)) (Record (Value φ ω)) where
  State := AggState α
  init := .empty
  read st r := (accumulate fmt F t.key t.aggs st r, [])
  tick st := some ((t.flush F st).2, (t.flush F st).1.map (boxed box))
  finish st := (t.flush F st).1.map (boxed box)
  capacity := 0

namespace AnyOperator

/-- The goroutine that `Process` starts, and its channel. -/
def machine : AnyOperator φ ω → Machine (Record (Value φ ω)) (Record (Value φ ω))
  | map m => relayMachine m.body
  | filter f => relayMachine f.body
  | aggregate a => a.machine fmt box
  | windowAggregate w => w.machine fmt box
  | join j => relayMachine (j.body fmt)
  | aggregateFuncs a => a.machine fmt F box
  | timeWindow t => t.machine fmt F box

/-- An operator as a function of the records that it reads, with ticks between them. -/
def process (op : AnyOperator φ ω) (arrivals : List (Arrival (Value φ ω))) :
    List (Record (Value φ ω)) :=
  let input := arrivals.filterMap Arrival.record?
  match op with
  | map m => (Operator.map m).apply input
  | filter f => (Operator.filter f).apply input
  | aggregate a => (a.process fmt input).map (boxed box)
  | windowAggregate w => (w.process fmt input).map (boxed box)
  | join j => input.filterMap (j.body fmt)
  | aggregateFuncs a => (a.process fmt F input).map (boxed box)
  | timeWindow t => (t.loop fmt F .empty arrivals).map (boxed box)

/-- `time.NewTicker` does not panic. -/
def tickerOk : AnyOperator φ ω → Bool
  | timeWindow t => 0 < t.tickerPeriod
  | _ => true

/-- The operator has no ticker. -/
def untimed : AnyOperator φ ω → Bool
  | timeWindow _ => false
  | _ => true

end AnyOperator

/-! ### Operators as functions -/

theorem AggregateOperator.emitAll_machine (a : AggregateOperator) (counts : OrdMap String ℕ)
    (l : List (Record (Value φ ω))) : (a.machine fmt box).emitAll counts l =
      [boxed box (recordOf "counts" (.counts (l.foldl (a.count fmt) counts)))] := by
  induction l generalizing counts with
  | nil => rfl
  | cons r l ih =>
      rw [Machine.emitAll_cons, List.foldl_cons, ← ih]
      rfl

theorem AggregateFuncsOperator.emitAll_machine (a : AggregateFuncsOperator) (st : AggState α)
    (l : List (Record (Value φ ω))) : (a.machine fmt F box).emitAll st l =
      [boxed box (recordOf "groups"
        (.groups (render F a.aggs (l.foldl (accumulate fmt F a.key a.aggs) st))))] := by
  induction l generalizing st with
  | nil => rfl
  | cons r l ih =>
      rw [Machine.emitAll_cons, List.foldl_cons, ← ih]
      rfl

/-- What the loop has sent before does not matter to it. -/
theorem WindowAggregateOperator.step_out (w : WindowAggregateOperator) (st : WindowCounts)
    (r : Record (Value φ ω)) : w.step fmt st r =
      ⟨(w.step fmt ⟨st.counts, st.seen, []⟩ r).counts,
        (w.step fmt ⟨st.counts, st.seen, []⟩ r).seen,
        st.out ++ (w.step fmt ⟨st.counts, st.seen, []⟩ r).out⟩ := by
  unfold step
  dsimp only
  split <;> simp

theorem WindowAggregateOperator.emitAll_machine (w : WindowAggregateOperator) (st : WindowCounts)
    (l : List (Record (Value φ ω))) :
    st.out.map (fun m => boxed box (recordOf "counts" (.counts m))) ++
        (w.machine fmt box).emitAll (st.counts, st.seen) l =
      (let st' := l.foldl (w.step fmt) st
        if 0 < st'.counts.size then st'.out ++ [st'.counts] else st'.out).map
        fun m => boxed box (recordOf "counts" (.counts m)) := by
  induction l generalizing st with
  | nil =>
      rw [Machine.emitAll_nil]
      dsimp only [List.foldl_nil]
      split <;> simp
  | cons r l ih =>
      rw [Machine.emitAll_cons, List.foldl_cons, ← ih, w.step_out fmt st r, List.map_append,
        List.append_assoc]

theorem TimeWindowAggregateOperator.emit_machine (t : TimeWindowAggregateOperator)
    (st : AggState α) (arrivals : List (Arrival (Value φ ω))) :
    (t.machine fmt F box).emit st (arrivals.map Arrival.record?) =
      (t.loop fmt F st arrivals).map (boxed box) := by
  induction arrivals generalizing st with
  | nil => rfl
  | cons x arrivals ih =>
      cases x with
      | record r =>
          rw [loop, ← ih]
          rfl
      | tick =>
          rw [loop, List.map_append, ← ih]
          rfl

namespace AnyOperator

theorem quiet_of_untimed {op : AnyOperator φ ω} (h : op.untimed = true) :
    (op.machine fmt F box).Quiet := by
  cases op with
  | timeWindow t => cases h
  | map m => exact fun _ => rfl
  | filter f => exact fun _ => rfl
  | aggregate a => exact fun _ => rfl
  | windowAggregate w => exact fun _ => rfl
  | join j => exact fun _ => rfl
  | aggregateFuncs a => exact fun _ => rfl

theorem emit_machine (op : AnyOperator φ ω) (arrivals : List (Arrival (Value φ ω))) :
    (op.machine fmt F box).emit (op.machine fmt F box).init (arrivals.map Arrival.record?) =
      op.process fmt F box arrivals := by
  have hinput : (arrivals.map Arrival.record?).reduceOption =
      arrivals.filterMap Arrival.record? := by
    rw [List.reduceOption, List.filterMap_map]
    rfl
  have hquiet := fun h : op.untimed = true => (quiet_of_untimed fmt F box h).emit
    (op.machine fmt F box).init (arrivals.map Arrival.record?)
  rw [hinput] at hquiet
  cases op with
  | timeWindow t => exact t.emit_machine fmt F box .empty arrivals
  | map m =>
      rw [hquiet rfl]
      exact (emitAll_relayMachine m.body _).trans ((Operator.map m).filterMap_body _)
  | filter f =>
      rw [hquiet rfl]
      exact (emitAll_relayMachine f.body _).trans ((Operator.filter f).filterMap_body _)
  | aggregate a =>
      rw [hquiet rfl]
      exact a.emitAll_machine fmt box ∅ _
  | windowAggregate w =>
      rw [hquiet rfl]
      have hemit := w.emitAll_machine fmt box ⟨∅, 0, []⟩ (arrivals.filterMap Arrival.record?)
      rw [process, WindowAggregateOperator.process, List.map_map]
      exact hemit
  | join j =>
      rw [hquiet rfl]
      exact emitAll_relayMachine (j.body fmt) _
  | aggregateFuncs a =>
      rw [hquiet rfl]
      exact a.emitAll_machine fmt F box .empty _

end AnyOperator

/-! ### Pipelines -/

/-- `Run` of `NewRuntime(ops...)`: every operator reads the channel of the one before it. -/
def pipeline (ops : List (AnyOperator φ ω)) (input : Chan (Record (Value φ ω))) :
    Chan (Record (Value φ ω)) :=
  ops.foldl (fun ch op => ch.start (op.machine fmt F box)) input

/-- The pipeline on a channel before its first move. `none` if `time.NewTicker` panics in one of the
goroutines, which ends the program. -/
def launch (ops : List (AnyOperator φ ω)) (input : Chan (Record (Value φ ω))) :
    Option (Line (Record (Value φ ω))) :=
  if ops.all AnyOperator.tickerOk then some ⟨pipeline fmt F box ops input, []⟩ else none

/-- The operators one after the other on lists, with ticks at any places. -/
def Emits : List (AnyOperator φ ω) → List (Record (Value φ ω)) → List (Record (Value φ ω)) → Prop
  | [], input, output => output = input
  | op :: ops, input, output =>
      ∃ arrivals, arrivals.filterMap Arrival.record? = input ∧
        Emits ops (op.process fmt F box arrivals) output

/-- The operators one after the other on lists, without ticks. -/
def processAll (ops : List (AnyOperator φ ω)) (input : List (Record (Value φ ω))) :
    List (Record (Value φ ω)) :=
  ops.foldl (fun l op => op.process fmt F box (l.map .record)) input

theorem outputs_start (op : AnyOperator φ ω) {c : Chan (Record (Value φ ω))}
    {l : List (Record (Value φ ω))} : (c.start (op.machine fmt F box)).Outputs l ↔
      ∃ arrivals, c.Outputs (arrivals.filterMap Arrival.record?) ∧
        l = op.process fmt F box arrivals := by
  have hmap : ∀ arrivals : List (Arrival (Value φ ω)),
      (arrivals.map Arrival.record?).reduceOption = arrivals.filterMap Arrival.record? :=
    fun arrivals => List.filterMap_map
  constructor
  · rintro ⟨arrivals, hinput, rfl⟩
    -- every list of records and missing records comes from arrivals
    obtain ⟨arrivals, rfl⟩ : ∃ as : List (Arrival (Value φ ω)), as.map Arrival.record? = arrivals :=
      ⟨arrivals.map fun o => o.elim .tick .record, by
        rw [List.map_map]
        exact (List.map_congr_left fun o _ => by cases o <;> rfl).trans (List.map_id arrivals)⟩
    rw [hmap] at hinput
    exact ⟨arrivals, hinput, op.emit_machine fmt F box arrivals⟩
  · rintro ⟨arrivals, hinput, rfl⟩
    refine ⟨arrivals.map Arrival.record?, ?_, (op.emit_machine fmt F box arrivals).symm⟩
    rwa [hmap]

theorem outputs_pipeline (ops : List (AnyOperator φ ω)) {c : Chan (Record (Value φ ω))}
    {l : List (Record (Value φ ω))} : (pipeline fmt F box ops c).Outputs l ↔
      ∃ input, c.Outputs input ∧ Emits fmt F box ops input l := by
  induction ops generalizing c with
  | nil => simp [pipeline, Emits]
  | cons op ops ih =>
      change (pipeline fmt F box ops (c.start (op.machine fmt F box))).Outputs l ↔ _
      rw [ih]
      constructor
      · rintro ⟨input, hinput, hemits⟩
        obtain ⟨arrivals, hc, rfl⟩ := (outputs_start fmt F box op).mp hinput
        exact ⟨_, hc, arrivals, rfl, hemits⟩
      · rintro ⟨input, hc, arrivals, rfl, hemits⟩
        exact ⟨_, (outputs_start fmt F box op).mpr ⟨arrivals, hc, rfl⟩, hemits⟩

theorem process_of_untimed {op : AnyOperator φ ω} (h : op.untimed = true)
    (arrivals : List (Arrival (Value φ ω))) : op.process fmt F box arrivals =
      op.process fmt F box ((arrivals.filterMap Arrival.record?).map .record) := by
  cases op with
  | timeWindow t => cases h
  | _ => simp only [AnyOperator.process, filterMap_record?_map_record]

theorem emits_iff_of_untimed {ops : List (AnyOperator φ ω)}
    (h : ∀ op ∈ ops, op.untimed = true) {input output : List (Record (Value φ ω))} :
    Emits fmt F box ops input output ↔ output = processAll fmt F box ops input := by
  induction ops generalizing input with
  | nil => exact Iff.rfl
  | cons op ops ih =>
      have hop := h op List.mem_cons_self
      have hops := fun op' hop' => h op' (List.mem_cons_of_mem op hop')
      constructor
      · rintro ⟨arrivals, rfl, hemits⟩
        rw [ih hops, process_of_untimed fmt F box hop] at hemits
        exact hemits
      · intro houtput
        exact ⟨input.map .record, filterMap_record?_map_record input, (ih hops).mpr houtput⟩

variable {fmt F box} {ops : List (AnyOperator φ ω)} {c : Chan (Record (Value φ ω))}
  {input : List (Record (Value φ ω))} {line : Line (Record (Value φ ω))}

theorem eq_of_launch (h : launch fmt F box ops c = some line) :
    line = ⟨pipeline fmt F box ops c, []⟩ :=
  (Option.some.inj (Option.ite_none_right_eq_some.mp h).2).symm

/-- The complete runs of a pipeline behind any channel. -/
theorem exists_run_iff_of_launch (h : launch fmt F box ops c = some line)
    {output : List (Record (Value φ ω))} :
    (∃ moves s, exec Line.step line moves = some s ∧ s.chan.closed = true ∧
      s.received = output) ↔
      ∃ l, c.Outputs l ∧ Emits fmt F box ops l output := by
  rw [eq_of_launch h, ← outputs_pipeline, ← Line.exists_run_iff]
  rfl

theorem emits_iff_exists_source {output : List (Record (Value φ ω))} :
    (∃ l, (Chan.source input).Outputs l ∧ Emits fmt F box ops l output) ↔
      Emits fmt F box ops input output := by
  simp [Chan.Outputs]

/-- What comes out of a pipeline of any operators. The lists that are received in complete runs,
over all interleavings of the goroutines and all times of the ticks, are those that the operators
emit one after the other with ticks at some places; in between, the beginning of such a list has
been received. -/
theorem pipeline_outputs (hlaunch : launch fmt F box ops (.source input) = some line) :
    (∀ output, Emits fmt F box ops input output ↔
      ∃ moves s, exec Line.step line moves = some s ∧ s.chan.closed = true ∧
        s.received = output) ∧
    ∀ moves s, exec Line.step line moves = some s →
      ∃ output, Emits fmt F box ops input output ∧ s.received <+: output := by
  refine ⟨fun output => ?_, fun moves s hrun => ?_⟩
  · rw [exists_run_iff_of_launch hlaunch, emits_iff_exists_source]
  · rw [eq_of_launch hlaunch] at hrun
    obtain ⟨output, houtput, hle, -⟩ := Line.received_of_run hrun
    exact ⟨output, emits_iff_exists_source.mp ((outputs_pipeline fmt F box ops).mp houtput), hle⟩

/-- Aggregates are kept as they are in the records of the next operator. -/
def sampleFormat : Sprintf ℤ (Aggregated ℤ) := ⟨toString, fun _ => "map[]"⟩

def sampleGroup (g : String) : Record (Value ℤ (Aggregated ℤ)) := recordOf "g" (.string g)

/-- A join that adds a field to the records with `g = "a"` and drops the others. -/
def sampleJoin : JoinOperator ℤ (Aggregated ℤ) :=
  ⟨"g", "g", (∅ : OrdMap String _).insert "a" (recordOf "n" (.int 5))⟩

def sampleWindow : TimeWindowAggregateOperator := ⟨"g", [⟨"sum", "n", ""⟩], 10⟩

/-- A tick between two records of one group makes two windows. -/
theorem pipeline_outputs_sample :
    ∃ line, launch sampleFormat intOps id [.join sampleJoin, .timeWindow sampleWindow]
        (.source [sampleGroup "a", sampleGroup "b", sampleGroup "a"]) = some line ∧
      ∃ moves s, exec Line.step line moves = some s ∧ s.chan.closed = true ∧
        s.received.length = 2 := by
  have hlaunch : launch sampleFormat intOps id [.join sampleJoin, .timeWindow sampleWindow]
      (.source [sampleGroup "a", sampleGroup "b", sampleGroup "a"]) = some _ := if_pos (by decide)
  have hemits : Emits sampleFormat intOps id [.join sampleJoin, .timeWindow sampleWindow]
      [sampleGroup "a", sampleGroup "b", sampleGroup "a"]
      ((AnyOperator.timeWindow sampleWindow).process sampleFormat intOps id
        [.record (mergedRecord (sampleGroup "a") (recordOf "n" (.int 5))), .tick,
          .record (mergedRecord (sampleGroup "a") (recordOf "n" (.int 5)))]) :=
    ⟨[.record (sampleGroup "a"), .record (sampleGroup "b"), .record (sampleGroup "a")], rfl, _,
      rfl, rfl⟩
  obtain ⟨moves, s, hrun, hclosed, hreceived⟩ := ((pipeline_outputs hlaunch).1 _).mp hemits
  exact ⟨_, hlaunch, moves, s, hrun, hclosed, hreceived ▸ rfl⟩

/-- A pipeline of any operators does not get stuck. In every state that it reaches there is a bound
for the moves before the next tick, and when nothing can move without a tick the output is closed
and everything has been received. Without windows of time this is what the operators make of the
input one after the other, whatever the interleaving. -/
theorem pipeline_finishes (hlaunch : launch fmt F box ops (.source input) = some line)
    {moves : List Move} {s : Line (Record (Value φ ω))}
    (hrun : exec Line.step line moves = some s) :
    (∃ bound, ∀ moves' s', exec Line.step s moves' = some s' →
      (∀ m ∈ moves', m.isTick = false) → moves'.length ≤ bound) ∧
    ((∀ m, m.isTick = false → s.step m = none) →
      s.chan.closed = true ∧ Emits fmt F box ops input s.received ∧
      ((∀ op ∈ ops, op.untimed = true) → s.received = processAll fmt F box ops input)) := by
  refine ⟨⟨_, fun moves' s' hrun' hquiet => Line.length_le hrun' hquiet⟩, fun hstuck => ?_⟩
  have hclosed := Line.closed_of_stuck hstuck
  have hemits := emits_iff_exists_source.mp
    ((exists_run_iff_of_launch hlaunch).mp ⟨moves, s, hrun, hclosed, rfl⟩)
  exact ⟨hclosed, hemits, fun huntimed => (emits_iff_of_untimed fmt F box huntimed).mp hemits⟩

def sampleCount : List (AnyOperator ℤ (Aggregated ℤ)) := [.aggregate ⟨"g"⟩]

/-- The counts wait in the channel, which is closed before they are taken. -/
theorem pipeline_finishes_sample :
    ∃ line s, launch sampleFormat intOps id sampleCount (.source [sampleGroup "a"]) = some line ∧
      exec Line.step line [.advance 0, .advance 1, .advance 0, .advance 0, .advance 0, .take] =
        some s ∧ s.received.length = 1 ∧
      ((∀ m, m.isTick = false → s.step m = none) →
        s.chan.closed = true ∧ Emits sampleFormat intOps id sampleCount [sampleGroup "a"]
          s.received ∧
        ((∀ op ∈ sampleCount, op.untimed = true) →
          s.received = processAll sampleFormat intOps id sampleCount [sampleGroup "a"])) := by
  have hlaunch : launch sampleFormat intOps id sampleCount (.source [sampleGroup "a"]) = some _ :=
    if_pos (by decide)
  obtain ⟨s, hrun, hlength⟩ : ∃ s, exec Line.step
      ⟨pipeline sampleFormat intOps id sampleCount (.source [sampleGroup "a"]), []⟩
      [.advance 0, .advance 1, .advance 0, .advance 0, .advance 0, .take] = some s ∧
        s.received.length = 1 :=
    exists_exec_of_any (by decide +kernel)
  exact ⟨_, s, hlaunch, hrun, hlength, (pipeline_finishes hlaunch hrun).2⟩

end

end StreamFlow.Processor
