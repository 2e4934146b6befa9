import StreamFlow.Foundation.OrdMap
import StreamFlow.Foundation.Relay

/-!
# Operator pipelines

`op.go` and `runtime.go`: `Run` puts the operators one behind the other, each in a goroutine of
its own that reads the channel of the operator before it. The loops of `MapOperator` and
`FilterOperator` are relays: for each record they send one or none.

`run_output` compares the network of goroutines with the operators as functions on lists, for
every interleaving. `run_finishes` adds that the network does not get stuck: a run has a bounded
number of moves, and one that cannot go on has delivered everything and closed the output.
-/

namespace StreamFlow.Processor

open Run Relay

/-- A record is a map from names to values of any type; `none` is the nil map. -/
abbrev Record (ν : Type) := Option (OrdMap String ν)

structure MapOperator (ν : Type) where
  fn : Record ν → Record ν

structure FilterOperator (ν : Type) where
  pred : Record ν → Bool

inductive Operator (ν : Type) where
  | map (m : MapOperator ν)
  | filter (f : FilterOperator ν)

variable {ν : Type}

/-- The body of the loop in `MapOperator.Process`: what it sends for a record. -/
def MapOperator.body (m : MapOperator ν) (r : Record ν) : Option (Record ν) :=
  let nr := m.fn r
  if nr ≠ none then some nr else none

/-- The body of the loop in `FilterOperator.Process`. -/
def FilterOperator.body (f : FilterOperator ν) (r : Record ν) : Option (Record ν) :=
  if f.pred r then some r else none

namespace Operator

def body : Operator ν → Record ν → Option (Record ν)
  | map m => m.body
  | filter f => f.body

/-- `Process` starts the goroutine of the operator and returns its channel. -/
def process (op : Operator ν) (input : Chan (Record ν)) : Chan (Record ν) :=
  .relay input op.body .receiving

/-- An operator as a function on lists of records. -/
def apply : Operator ν → List (Record ν) → List (Record ν)
  | map m, l => (l.map m.fn).filter Option.isSome
  | filter f, l => l.filter f.pred

theorem filterMap_body (op : Operator ν) (l : List (Record ν)) :
    l.filterMap op.body = op.apply l := by
  cases op with
  | map m =>
      have hbody : m.body = Option.guard (fun nr => Option.isSome nr) ∘ m.fn := by
        funext r
        cases hr : m.fn r <;> simp [MapOperator.body, Option.guard, hr]
      rw [body, apply, hbody, ← List.filterMap_map, List.filterMap_eq_filter]
  | filter f =>
      have hbody : f.body = Option.guard f.pred := by
        funext r
        simp [FilterOperator.body, Option.guard]
      rw [body, apply, hbody, List.filterMap_eq_filter]

end Operator

structure Runtime (ν : Type) where
  ops : List (Operator ν)

def newRuntime (ops : List (Operator ν)) : Runtime ν := ⟨ops⟩

namespace Runtime

def run (r : Runtime ν) (input : Chan (Record ν)) : Chan (Record ν) :=
  r.ops.foldl (fun ch op => op.process ch) input

/-- The operators applied one after the other to a list of records. -/
def apply (r : Runtime ν) (input : List (Record ν)) : List (Record ν) :=
  r.ops.foldl (fun l op => op.apply l) input

/-- The pipeline on a channel that brings the records of a list, before its first move. -/
def start (r : Runtime ν) (input : List (Record ν)) : Line (Record ν) :=
  ⟨r.run (.source input), []⟩

theorem pending_run (r : Runtime ν) (input : Chan (Record ν)) :
    (r.run input).toNetwork.pending = r.apply input.toNetwork.pending := by
  obtain ⟨ops⟩ := r
  induction ops generalizing input with
  | nil => rfl
  | cons op ops ih =>
      have hfirst : (op.process input).toNetwork.pending = op.apply input.toNetwork.pending :=
        (Network.emitAll_relayMachine op.body _).trans (op.filterMap_body _)
      change (run ⟨ops⟩ (op.process input)).toNetwork.pending =
        apply ⟨ops⟩ (op.apply input.toNetwork.pending)
      rw [ih, hfirst]

theorem received_of_run (r : Runtime ν) (input : List (Record ν)) {moves : List Move}
    {s : Line (Record ν)} (hrun : exec Line.step (r.start input) moves = some s) :
    s.received <+: r.apply input ∧ (s.chan.closed = true → s.received = r.apply input) := by
  have hout := Line.received_of_run hrun
  rw [pending_run] at hout
  exact hout

/-- An operator sends at most as many records as it reads, so a pipeline has a bounded number of
moves. -/
theorem work_run (r : Runtime ν) (input : Chan (Record ν)) {n : ℕ}
    (hn : input.toNetwork.pending.length ≤ n) :
    (r.run input).toNetwork.pending.length ≤ n ∧
      (r.run input).toNetwork.work ≤ input.toNetwork.work + r.ops.length * (2 * n + 2) ∧
      (r.run input).computing = input.computing := by
  obtain ⟨ops⟩ := r
  induction ops generalizing input with
  | nil => exact ⟨hn, Nat.le_add_right _ _, rfl⟩
  | cons op ops ih =>
      have hsent : ((Network.relayMachine op.body).emitAll ()
          input.toNetwork.pending).length ≤ n := by
        rw [Network.emitAll_relayMachine]
        exact (List.length_filterMap_le _ _).trans hn
      have hwork : (op.process input).toNetwork.work =
          input.toNetwork.work + input.toNetwork.pending.length +
            ((Network.relayMachine op.body).emitAll () input.toNetwork.pending).length + 2 := rfl
      obtain ⟨hpending, hrest, hidle⟩ := ih (op.process input) hsent
      refine ⟨hpending, hrest.trans ?_, hidle⟩
      dsimp only
      rw [hwork, List.length_cons, Nat.succ_mul ops.length]
      omega

end Runtime

/-- Pipelines are independent of the schedule. For every list of operators, every finite input
and every interleaving of the goroutines, the records received so far are a prefix of what the
operators make of the input one after the other; they are all of it when the output is closed. -/
theorem run_output (ops : List (Operator ν)) (input : List (Record ν)) {moves : List Move}
    {s : Line (Record ν)} (hrun : exec Line.step ((newRuntime ops).start input) moves = some s) :
    s.received <+: (newRuntime ops).apply input ∧
      (s.chan.closed = true → s.received = (newRuntime ops).apply input) :=
  (newRuntime ops).received_of_run input hrun

/-- A pipeline of both operators: records with `x` below two pass the filter, and the map drops
those with `x = 1`. -/
def samplePipeline : List (Operator ℕ) :=
  [.filter ⟨fun r => r.any fun m => m["x"]?.any (· < 2)⟩,
    .map ⟨fun r => r.bind fun m => if m["x"]? = some 1 then none else some (m.insert "y" 7)⟩]

def sampleRecord (x : ℕ) : Record ℕ := some ((∅ : OrdMap String ℕ).insert "x" x)

/-- A run with both operators busy at the same time. -/
theorem run_output_sample :
    ∃ s, exec Line.step ((newRuntime samplePipeline).start
        [sampleRecord 0, none, sampleRecord 1, sampleRecord 0])
        [.advance 1, .advance 1, .advance 0, .advance 1, .advance 1, .advance 0, .take,
          .advance 1, .advance 1, .advance 0, .advance 0, .advance 1, .advance 1, .advance 2,
          .advance 0, .advance 0, .advance 1, .advance 1, .take, .advance 0, .advance 0] = some s ∧
      s.chan.closed = true ∧ s.received.length = 2 ∧
      s.received = (newRuntime samplePipeline).apply
        [sampleRecord 0, none, sampleRecord 1, sampleRecord 0] := by
  obtain ⟨s, hrun, hclosed, hlength⟩ : ∃ s, exec Line.step ((newRuntime samplePipeline).start
        [sampleRecord 0, none, sampleRecord 1, sampleRecord 0])
        [.advance 1, .advance 1, .advance 0, .advance 1, .advance 1, .advance 0, .take,
          .advance 1, .advance 1, .advance 0, .advance 0, .advance 1, .advance 1, .advance 2,
          .advance 0, .advance 0, .advance 1, .advance 1, .take, .advance 0, .advance 0] = some s ∧
      s.chan.closed = true ∧ s.received.length = 2 :=
    exists_exec_of_any (by decide +kernel)
  exact ⟨s, hrun, hclosed, hlength, (run_output samplePipeline _ hrun).2 hclosed⟩

/-- A pipeline finishes as long as somebody takes its output: a run has at most so many moves,
and when there is none left, all records have been received and the output is closed. -/
theorem run_finishes (ops : List (Operator ν)) (input : List (Record ν)) {moves : List Move}
    {s : Line (Record ν)} (hrun : exec Line.step ((newRuntime ops).start input) moves = some s) :
    moves.length ≤ 2 * (input.length + (1 + ops.length * (2 * input.length + 2))) ∧
      ((∀ m, s.step m = none) →
        s.chan.closed = true ∧ s.received = (newRuntime ops).apply input) := by
  constructor
  · obtain ⟨hpending, hwork, hidle⟩ :=
      (newRuntime ops).work_run (.source input) (Nat.le_refl input.length)
    have hlength := Line.length_le hrun
    dsimp only [Runtime.start] at hlength
    dsimp only [Chan.toNetwork, Network.Chan.work, Chan.computing, newRuntime] at *
    omega
  · intro hstuck
    have hclosed := Line.closed_of_stuck hstuck
    exact ⟨hclosed, ((newRuntime ops).received_of_run input hrun).2 hclosed⟩

end StreamFlow.Processor
