import Mathlib.Data.List.ReduceOption
import StreamFlow.Foundation.Run

/-!
# Chains of machines

A machine is a process that reads a channel until it is closed. It has a state, sends any number
of values for each value that it has read and at each tick of its ticker, if it has one, and sends
some more in the end before it closes its own channel. A channel holds up to `capacity` values
that its reader has not taken yet; with capacity zero a value is handed over when it is taken.

A value of `Chan β` is the reading end of a channel together with the processes behind it, which
may all work on different types. `advance c d` moves the process that is `d` places behind the
reader, and `tick c d` lets its ticker tick, so a list of moves is an interleaving.

`Outputs c l` says that `l` may still come out of the channel; it depends on the ticks alone. No
move adds to these lists, which is the whole argument for `outputs_of_run`: whatever the
interleaving, what arrives is what the machines make of their inputs one after the other. Without
ticks this is one list, `pending c`, and it is used up after a bounded number of moves.
-/

namespace Network

open Run

theorem reduceOption_map_some {α : Type} (l : List α) : (l.map some).reduceOption = l := by
  simp [List.reduceOption]

structure Machine (α β : Type) where
  State : Type
  init : State
  /-- The state after a value, and what is sent for it. -/
  read : State → α → State × List β
  /-- The same for a tick; `none` if there is no ticker. -/
  tick : State → Option (State × List β)
  /-- What is sent after the last value. -/
  finish : State → List β
  capacity : ℕ

namespace Machine

variable {α β : Type} (m : Machine α β)

/-- What a machine sends for values and ticks (`none`), in this order. -/
def emit : m.State → List (Option α) → List β
  | s, [] => m.finish s
  | s, some x :: rest => (m.read s x).2 ++ emit (m.read s x).1 rest
  | s, none :: rest =>
      match m.tick s with
      | none => emit s rest
      | some (s', out) => out ++ emit s' rest

/-- What a machine sends for values without a tick between them. -/
def emitAll (s : m.State) (l : List α) : List β := m.emit s (l.map some)

theorem emitAll_nil (s : m.State) : m.emitAll s [] = m.finish s := rfl

theorem emitAll_cons (s : m.State) (x : α) (l : List α) :
    m.emitAll s (x :: l) = (m.read s x).2 ++ m.emitAll (m.read s x).1 l := rfl

/-- A machine without a ticker. -/
def Quiet : Prop := ∀ s, m.tick s = none

variable {m}

theorem Quiet.emit (h : m.Quiet) (s : m.State) (arrivals : List (Option α)) :
    m.emit s arrivals = m.emitAll s arrivals.reduceOption := by
  induction arrivals generalizing s with
  | nil => rfl
  | cons a arrivals ih =>
      cases a with
      | none => rw [Machine.emit, h s, List.reduceOption_cons_of_none, ih]
      | some x => rw [Machine.emit, List.reduceOption_cons_of_some, emitAll_cons, ih]

end Machine

/-- A loop that sends one value or none for each value. -/
@[reducible]
def relayMachine {β : Type} (body : β → Option β) : Machine β β where
  State := Unit
  init := ()
  read _ x := ((), (body x).toList)
  tick _ := none
  finish _ := []
  capacity := 0

theorem emitAll_relayMachine {β : Type} (body : β → Option β) (l : List β) :
    (relayMachine body).emitAll () l = l.filterMap body := by
  induction l with
  | nil => rfl
  | cons x l ih =>
      rw [Machine.emitAll_cons, List.filterMap_cons]
      cases hx : body x <;> simp [relayMachine, hx, ← ih]

/-- Where a machine is: in its loop with values that it has still to send before it goes on,
behind its loop with such values, or done. -/
inductive Phase (σ β : Type) where
  | looping (s : σ) (outbox : List β)
  | leaving (outbox : List β)
  | closed

/-- The reading end of a channel: a source with the values that it has still to send, a source
that has closed its channel, or a machine behind another channel, with the values in its
channel. -/
inductive Chan : Type → Type 1 where
  | source {α : Type} (rest : List α) : Chan α
  | drained {α : Type} : Chan α
  | stage {α β : Type} (input : Chan α) (m : Machine α β) (phase : Phase m.State β)
      (buffer : List β) : Chan β

namespace Chan

variable {α β : Type}

/-- The machine at its start behind a channel. -/
def start (input : Chan α) (m : Machine α β) : Chan β := .stage input m (.looping m.init []) []

/-- The value that can be taken, and the channel after it is taken. -/
def offer : {β : Type} → Chan β → Option (β × Chan β)
  | _, source (x :: rest) => some (x, source rest)
  | _, stage input m phase (x :: buffer) => some (x, stage input m phase buffer)
  | _, stage input m (.looping s (x :: outbox)) [] => some (x, stage input m (.looping s outbox) [])
  | _, stage input m (.leaving (x :: outbox)) [] => some (x, stage input m (.leaving outbox) [])
  | _, _ => none

def closed : {β : Type} → Chan β → Bool
  | _, drained => true
  | _, stage _ _ .closed [] => true
  | _, _ => false

/-- A machine that reads its input: it takes what is offered, or leaves the loop when the input is
closed. -/
def receive (input : Chan α) (m : Machine α β) (s : m.State) (buffer : List β) : Option (Chan β) :=
  match input.offer with
  | some (x, input') => some (stage input' m (.looping (m.read s x).1 (m.read s x).2) buffer)
  | none => if input.closed then some (stage input m (.leaving (m.finish s)) buffer) else none

/-- The next move of the process `d` places behind the reader. A process that cannot put its value
into the channel waits until the value is taken. -/
def advance : {β : Type} → Chan β → ℕ → Option (Chan β)
  | _, source [], 0 => some drained
  | _, stage input m (.looping s []) buffer, 0 => receive input m s buffer
  | _, stage input m (.looping s (x :: outbox)) buffer, 0 =>
      if buffer.length < m.capacity then
        some (stage input m (.looping s outbox) (buffer ++ [x]))
      else none
  | _, stage input m (.leaving []) buffer, 0 => some (stage input m .closed buffer)
  | _, stage input m (.leaving (x :: outbox)) buffer, 0 =>
      if buffer.length < m.capacity then some (stage input m (.leaving outbox) (buffer ++ [x]))
      else none
  | _, stage input m phase buffer, d + 1 =>
      (advance input d).map fun input' => stage input' m phase buffer
  | _, _, _ => none

/-- A tick for the process `d` places behind the reader, which has to wait in its loop. -/
def tick : {β : Type} → Chan β → ℕ → Option (Chan β)
  | _, stage input m (.looping s []) buffer, 0 =>
      (m.tick s).map fun next => stage input m (.looping next.1 next.2) buffer
  | _, stage input m phase buffer, d + 1 =>
      (tick input d).map fun input' => stage input' m phase buffer
  | _, _, _ => none

/-- The lists of values that may still come out. -/
def Outputs : {β : Type} → Chan β → List β → Prop
  | _, source rest, l => l = rest
  | _, drained, l => l = []
  | _, stage input m (.looping s outbox) buffer, l =>
      ∃ arrivals, Outputs input arrivals.reduceOption ∧
        l = buffer ++ (outbox ++ m.emit s arrivals)
  | _, stage _ _ (.leaving outbox) buffer, l => l = buffer ++ outbox
  | _, stage _ _ .closed buffer, l => l = buffer

/-- The values that come out if no ticker ticks any more. -/
def pending : {β : Type} → Chan β → List β
  | _, source rest => rest
  | _, drained => []
  | _, stage input m (.looping s outbox) buffer =>
      buffer ++ (outbox ++ m.emitAll s (pending input))
  | _, stage _ _ (.leaving outbox) buffer => buffer ++ outbox
  | _, stage _ _ .closed buffer => buffer

/-- What a process can do, if the capacities let it. -/
inductive Moves : {β : Type} → Chan β → Chan β → Prop where
  | drains {β : Type} : Moves (source ([] : List β)) drained
  | behind {α β : Type} {input input' : Chan α} (h : Moves input input') (m : Machine α β)
      (phase : Phase m.State β) (buffer : List β) :
      Moves (stage input m phase buffer) (stage input' m phase buffer)
  | reads {α β : Type} {input input' : Chan α} {x : α} (h : input.offer = some (x, input'))
      (m : Machine α β) (s : m.State) (buffer : List β) :
      Moves (stage input m (.looping s []) buffer)
        (stage input' m (.looping (m.read s x).1 (m.read s x).2) buffer)
  | ends {α β : Type} {input : Chan α} (h : input.closed = true) (m : Machine α β) (s : m.State)
      (buffer : List β) :
      Moves (stage input m (.looping s []) buffer) (stage input m (.leaving (m.finish s)) buffer)
  | puts {α β : Type} (input : Chan α) (m : Machine α β) (s : m.State) (x : β)
      (outbox buffer : List β) :
      Moves (stage input m (.looping s (x :: outbox)) buffer)
        (stage input m (.looping s outbox) (buffer ++ [x]))
  | putsLast {α β : Type} (input : Chan α) (m : Machine α β) (x : β) (outbox buffer : List β) :
      Moves (stage input m (.leaving (x :: outbox)) buffer)
        (stage input m (.leaving outbox) (buffer ++ [x]))
  | closes {α β : Type} (input : Chan α) (m : Machine α β) (buffer : List β) :
      Moves (stage input m (.leaving []) buffer) (stage input m .closed buffer)

variable {c c' : Chan β} {d : ℕ} {x : β} {l : List β}

theorem moves_of_receive {input : Chan α} {m : Machine α β} {s : m.State} {buffer : List β}
    (h : receive input m s buffer = some c') : Moves (stage input m (.looping s []) buffer) c' := by
  unfold receive at h
  split at h
  · next x input' hoffer =>
      cases h
      exact .reads hoffer m s buffer
  · split at h
    · next hclosed =>
        cases h
        exact .ends hclosed m s buffer
    · cases h

theorem moves_of_advance (h : c.advance d = some c') : Moves c c' := by
  induction c generalizing d with
  | source rest =>
      cases rest with
      | nil =>
          cases d with
          | zero =>
              cases h
              exact .drains
          | succ d => cases h
      | cons x rest => cases h
  | drained => cases h
  | stage input m phase buffer ih =>
      cases d with
      | succ d =>
          simp only [advance, Option.map_eq_some_iff] at h
          obtain ⟨input', hinput, rfl⟩ := h
          exact .behind (ih hinput) m phase buffer
      | zero =>
          cases phase with
          | closed => cases h
          | leaving outbox =>
              cases outbox with
              | nil =>
                  cases h
                  exact .closes input m buffer
              | cons x outbox =>
                  obtain ⟨-, h⟩ := Option.ite_none_right_eq_some.mp h
                  cases h
                  exact .putsLast input m x outbox buffer
          | looping s outbox =>
              cases outbox with
              | nil => exact moves_of_receive h
              | cons x outbox =>
                  obtain ⟨-, h⟩ := Option.ite_none_right_eq_some.mp h
                  cases h
                  exact .puts input m s x outbox buffer

theorem outputs_of_offer (h : c.offer = some (x, c')) (hl : c'.Outputs l) : c.Outputs (x :: l) := by
  unfold offer at h
  split at h
  · cases h
    exact congrArg (List.cons x) hl
  · next phase x' buffer =>
      cases h
      cases phase with
      | looping s outbox =>
          obtain ⟨arrivals, hinput, rfl⟩ := hl
          exact ⟨arrivals, hinput, rfl⟩
      | leaving outbox => exact congrArg (List.cons x) hl
      | closed => exact congrArg (List.cons x) hl
  · cases h
    obtain ⟨arrivals, hinput, rfl⟩ := hl
    exact ⟨arrivals, hinput, rfl⟩
  · cases h
    exact congrArg (List.cons x) hl
  · cases h

theorem outputs_pending (c : Chan β) : c.Outputs c.pending := by
  induction c with
  | source rest => rfl
  | drained => rfl
  | stage input m phase buffer ih =>
      cases phase with
      | looping s outbox =>
          refine ⟨input.pending.map some, ?_, rfl⟩
          rw [reduceOption_map_some]
          exact ih
      | leaving outbox => rfl
      | closed => rfl

theorem pending_of_closed (h : c.closed = true) : c.pending = [] := by
  unfold closed at h
  split at h
  · rfl
  · rfl
  · cases h

theorem offer_of_closed (h : c.closed = true) : c.offer = none := by
  unfold closed at h
  split at h
  · rfl
  · rfl
  · cases h

theorem outputs_nil_of_closed (h : c.closed = true) : c.Outputs [] := by
  rw [← pending_of_closed h]
  exact outputs_pending c

/-- What may come out depends on the input only through what may come out of it. -/
theorem outputs_stage_mono {input input' : Chan α} {m : Machine α β} {phase : Phase m.State β}
    {buffer : List β} (h : ∀ l, input'.Outputs l → input.Outputs l)
    (hl : (stage input' m phase buffer).Outputs l) : (stage input m phase buffer).Outputs l := by
  cases phase with
  | looping s outbox =>
      obtain ⟨arrivals, hinput, hl⟩ := hl
      exact ⟨arrivals, h _ hinput, hl⟩
  | leaving outbox => exact hl
  | closed => exact hl

/-- A value that is put into the channel comes out in its turn. -/
theorem append_singleton_append (buffer : List β) (x : β) (rest : List β) :
    buffer ++ [x] ++ rest = buffer ++ (x :: rest) := by
  rw [List.append_assoc, List.singleton_append]

/-- No process adds to what may come out. -/
theorem Moves.outputs (h : Moves c c') (hl : c'.Outputs l) : c.Outputs l := by
  induction h with
  | drains => exact hl
  | behind _ m phase buffer ih => exact outputs_stage_mono (fun l hl => ih hl) hl
  | @reads _ _ input input' x hoffer m s buffer =>
      obtain ⟨arrivals, hinput, rfl⟩ := hl
      refine ⟨some x :: arrivals, ?_, rfl⟩
      rw [List.reduceOption_cons_of_some]
      exact outputs_of_offer hoffer hinput
  | ends hclosed => exact ⟨[], outputs_nil_of_closed hclosed, hl⟩
  | puts input m s x outbox buffer =>
      obtain ⟨arrivals, hinput, rfl⟩ := hl
      exact ⟨arrivals, hinput, append_singleton_append buffer x _⟩
  | putsLast input m x outbox buffer => exact hl.trans (append_singleton_append buffer x outbox)
  | closes => exact hl.trans (List.append_nil _).symm

theorem outputs_of_tick (h : c.tick d = some c') (hl : c'.Outputs l) : c.Outputs l := by
  induction c generalizing d with
  | source rest => cases d <;> cases h
  | drained => cases d <;> cases h
  | stage input m phase buffer ih =>
      cases d with
      | succ d =>
          simp only [tick, Option.map_eq_some_iff] at h
          obtain ⟨input', hinput, rfl⟩ := h
          exact outputs_stage_mono (fun l hl => ih hinput hl) hl
      | zero =>
          cases phase with
          | closed => cases h
          | leaving outbox => cases h
          | looping s outbox =>
              cases outbox with
              | cons x outbox => cases h
              | nil =>
                  simp only [tick, Option.map_eq_some_iff] at h
                  obtain ⟨⟨s', out⟩, htick, rfl⟩ := h
                  obtain ⟨arrivals, hinput, rfl⟩ := hl
                  refine ⟨none :: arrivals, hinput, ?_⟩
                  rw [Machine.emit, htick]
                  rfl

/-- None of the machines has a ticker. -/
def Quiet : {β : Type} → Chan β → Prop
  | _, source _ => True
  | _, drained => True
  | _, stage input m _ _ => Quiet input ∧ m.Quiet

theorem Quiet.outputs_iff (h : c.Quiet) : c.Outputs l ↔ l = c.pending := by
  induction c with
  | source rest => exact Iff.rfl
  | drained => exact Iff.rfl
  | stage input m phase buffer ih =>
      cases phase with
      | leaving outbox => exact Iff.rfl
      | closed => exact Iff.rfl
      | looping s outbox =>
          refine ⟨?_, fun hl => hl ▸ outputs_pending _⟩
          rintro ⟨arrivals, hinput, rfl⟩
          rw [h.2.emit, (ih h.1).mp hinput, pending]

/-! ### Runs without ticks -/

theorem pending_of_offer (h : c.offer = some (x, c')) : c.pending = x :: c'.pending := by
  unfold offer at h
  split at h
  · cases h
    rfl
  · next phase x' buffer =>
      cases h
      cases phase <;> rfl
  · cases h
    rfl
  · cases h
    rfl
  · cases h

theorem pending_stage_congr {input input' : Chan α} (h : input'.pending = input.pending)
    (m : Machine α β) (phase : Phase m.State β) (buffer : List β) :
    (stage input' m phase buffer).pending = (stage input m phase buffer).pending := by
  cases phase <;> simp only [pending, h]

/-- No process changes what is still to come out without ticks. -/
theorem Moves.pending (h : Moves c c') : c'.pending = c.pending := by
  induction h with
  | drains => rfl
  | behind _ m phase buffer ih => exact pending_stage_congr ih m phase buffer
  | reads hoffer => simp [Chan.pending, pending_of_offer hoffer, Machine.emitAll_cons]
  | ends hclosed => simp [Chan.pending, pending_of_closed hclosed, Machine.emitAll_nil]
  | puts | putsLast | closes => simp [Chan.pending]

/-- The moves that the processes can still make without ticks: one for each value that is read or
put into a channel, and two for each machine at the end. -/
def work : {β : Type} → Chan β → ℕ
  | _, source _ => 1
  | _, drained => 0
  | _, stage input m (.looping s outbox) _ =>
      work input + input.pending.length + (outbox ++ m.emitAll s input.pending).length + 2
  | _, stage input _ (.leaving outbox) _ => work input + outbox.length + 1
  | _, stage input _ .closed _ => work input

theorem work_of_offer (h : c.offer = some (x, c')) : c'.work ≤ c.work := by
  unfold offer at h
  split at h
  · cases h
    exact Nat.le_refl _
  · next phase x' buffer =>
      cases h
      cases phase <;> exact Nat.le_refl _
  · cases h
    simp [work]
  · cases h
    simp [work]
  · cases h

theorem Moves.work_lt (h : Moves c c') : c'.work < c.work := by
  induction h with
  | drains => exact Nat.one_pos
  | behind h m phase buffer ih =>
      cases phase with
      | looping s outbox =>
          simp only [work, h.pending]
          omega
      | leaving outbox =>
          simp only [work]
          omega
      | closed => exact ih
  | reads hoffer =>
      have hwork := work_of_offer hoffer
      simp only [work, pending_of_offer hoffer, Machine.emitAll_cons, List.nil_append,
        List.length_cons]
      omega
  | ends hclosed => simp [work, pending_of_closed hclosed, Machine.emitAll_nil]
  | puts | putsLast | closes => simp [work]

/-- As long as the channel is open, a process moves or a value can be taken. -/
theorem progress (c : Chan β) (h : c.closed = false) :
    (∃ d c', c.advance d = some c') ∨ ∃ x c', c.offer = some (x, c') := by
  induction c with
  | source rest =>
      cases rest with
      | nil => exact .inl ⟨0, drained, rfl⟩
      | cons x rest => exact .inr ⟨x, source rest, rfl⟩
  | drained => cases h
  | stage input m phase buffer ih =>
      cases buffer with
      | cons x buffer => exact .inr ⟨x, stage input m phase buffer, rfl⟩
      | nil =>
          cases phase with
          | closed => cases h
          | leaving outbox =>
              cases outbox with
              | nil => exact .inl ⟨0, stage input m .closed [], rfl⟩
              | cons x outbox => exact .inr ⟨x, stage input m (.leaving outbox) [], rfl⟩
          | looping s outbox =>
              cases outbox with
              | cons x outbox => exact .inr ⟨x, stage input m (.looping s outbox) [], rfl⟩
              | nil =>
                  left
                  cases hoffer : input.offer with
                  | some e =>
                      exact ⟨0, stage e.2 m (.looping (m.read s e.1).1 (m.read s e.1).2) [],
                        by simp [advance, receive, hoffer]⟩
                  | none =>
                      cases hclosed : input.closed with
                      | true =>
                          exact ⟨0, stage input m (.leaving (m.finish s)) [],
                            by simp [advance, receive, hoffer, hclosed]⟩
                      | false =>
                          rcases ih hclosed with ⟨d, input', hmove⟩ | ⟨x, input', hx⟩
                          · exact ⟨d + 1, stage input' m (.looping s []) [],
                              by simp [advance, hmove]⟩
                          · rw [hoffer] at hx
                            cases hx

/-! ### Every list of outputs comes out in some run -/

/-- The values of the list come out one after the other, and then the channel is closed. -/
inductive Delivers : Chan β → List β → Prop where
  | closed {c : Chan β} (h : c.closed = true) : Delivers c []
  | advance {c c' : Chan β} {l : List β} (d : ℕ) (h : c.advance d = some c')
      (rest : Delivers c' l) : Delivers c l
  | tick {c c' : Chan β} {l : List β} (d : ℕ) (h : c.tick d = some c')
      (rest : Delivers c' l) : Delivers c l
  | take {c c' : Chan β} {x : β} {l : List β} (h : c.offer = some (x, c'))
      (rest : Delivers c' l) : Delivers c (x :: l)

namespace Delivers

theorem outputs (h : Delivers c l) : c.Outputs l := by
  induction h with
  | closed h => exact outputs_nil_of_closed h
  | advance d h _ ih => exact (moves_of_advance h).outputs ih
  | tick d h _ ih => exact outputs_of_tick h ih
  | take h _ ih => exact outputs_of_offer h ih

section Stage

variable {input : Chan α} {m : Machine α β} {s : m.State} {buffer outbox out : List β}
  {phase : Phase m.State β} {values : List α}

theorem of_buffer (h : Delivers (stage input m phase []) out) :
    Delivers (stage input m phase buffer) (buffer ++ out) := by
  induction buffer with
  | nil => exact h
  | cons x buffer ih => exact .take rfl ih

theorem of_outbox (h : Delivers (stage input m (.looping s []) []) out) :
    Delivers (stage input m (.looping s outbox) []) (outbox ++ out) := by
  induction outbox with
  | nil => exact h
  | cons x outbox ih => exact .take rfl ih

theorem of_leaving : Delivers (stage input m (.leaving outbox) []) outbox := by
  induction outbox with
  | nil => exact .advance 0 rfl (.closed rfl)
  | cons x outbox ih => exact .take rfl ih

/-- The processes behind a machine move until the machine can read or sees that its input is
closed. -/
theorem of_ready (h : Delivers input values)
    (hclosed : ∀ input' : Chan α, input'.closed = true → values = [] →
      Delivers (stage input' m phase []) out)
    (hoffer : ∀ (input' input'' : Chan α) (x : α) (rest : List α),
      input'.offer = some (x, input'') → values = x :: rest → Delivers input'' rest →
      Delivers (stage input' m phase []) out) :
    Delivers (stage input m phase []) out := by
  induction h with
  | closed h => exact hclosed _ h rfl
  | advance d h _ ih => exact .advance (d + 1) (by simp [Chan.advance, h]) (ih hclosed hoffer)
  | tick d h _ ih => exact .tick (d + 1) (by simp [Chan.tick, h]) (ih hclosed hoffer)
  | take h rest _ => exact hoffer _ _ _ _ h rfl rest

theorem of_arrivals {arrivals : List (Option α)} (h : Delivers input arrivals.reduceOption) :
    Delivers (stage input m (.looping s []) []) (m.emit s arrivals) := by
  induction arrivals generalizing input s with
  | nil =>
      refine of_ready h (fun input' hclosed _ => ?_) fun _ _ _ _ _ hvalues _ => by cases hvalues
      have hoffer := offer_of_closed hclosed
      have hmove : (stage input' m (.looping s []) []).advance 0 =
          some (stage input' m (.leaving (m.finish s)) []) := by
        simp [Chan.advance, receive, hoffer, hclosed]
      exact .advance 0 hmove of_leaving
  | cons a arrivals ih =>
      cases a with
      | none =>
          cases htick : m.tick s with
          | none =>
              rw [Machine.emit, htick]
              exact ih h
          | some next =>
              rw [Machine.emit, htick]
              exact .tick 0 (by simp [Chan.tick, htick]) (of_outbox (ih h))
      | some x =>
          rw [List.reduceOption_cons_of_some] at h
          refine of_ready h (fun _ _ hvalues => by cases hvalues) ?_
          intro input' input'' y rest hoffer hvalues hrest
          cases hvalues
          exact .advance 0 (by simp [Chan.advance, receive, hoffer]) (of_outbox (ih hrest))

end Stage

theorem of_outputs (h : c.Outputs l) : Delivers c l := by
  induction c with
  | source rest =>
      cases h
      induction rest with
      | nil => exact .advance 0 rfl (.closed rfl)
      | cons x rest ih => exact .take rfl ih
  | drained =>
      cases h
      exact .closed rfl
  | stage input m phase buffer ih =>
      cases phase with
      | looping s outbox =>
          obtain ⟨arrivals, hinput, rfl⟩ := h
          exact of_buffer (of_outbox (of_arrivals (ih hinput)))
      | leaving outbox =>
          cases h
          exact of_buffer of_leaving
      | closed =>
          have hdone : Delivers (stage input m .closed []) [] := .closed rfl
          have hall : Delivers (stage input m .closed buffer) (buffer ++ []) := of_buffer hdone
          rw [show l = buffer from h]
          rwa [List.append_nil] at hall

end Delivers

end Chan

/-- A channel, and what its reader has received so far. -/
structure Line (β : Type) where
  chan : Chan β
  received : List β

/-- A process moves, a ticker ticks, or the reader takes a value. -/
inductive Move where
  | advance (d : ℕ)
  | tick (d : ℕ)
  | take
deriving DecidableEq

def Move.isTick : Move → Bool
  | tick _ => true
  | _ => false

namespace Line

variable {β : Type}

def step (s : Line β) : Move → Option (Line β)
  | .advance d => (s.chan.advance d).map fun c => ⟨c, s.received⟩
  | .tick d => (s.chan.tick d).map fun c => ⟨c, s.received⟩
  | .take => s.chan.offer.map fun e => ⟨e.2, s.received ++ [e.1]⟩

variable {s s' : Line β} {moves : List Move} {l : List β}

theorem outputs_of_step {m : Move} (h : s.step m = some s') (hl : s'.chan.Outputs l) :
    ∃ l₀, s.chan.Outputs l₀ ∧ s.received ++ l₀ = s'.received ++ l := by
  cases m with
  | advance d =>
      obtain ⟨c, hc, rfl⟩ := Option.map_eq_some_iff.mp h
      exact ⟨l, (Chan.moves_of_advance hc).outputs hl, rfl⟩
  | tick d =>
      obtain ⟨c, hc, rfl⟩ := Option.map_eq_some_iff.mp h
      exact ⟨l, Chan.outputs_of_tick hc hl, rfl⟩
  | take =>
      obtain ⟨⟨x, c⟩, hx, rfl⟩ := Option.map_eq_some_iff.mp h
      exact ⟨x :: l, Chan.outputs_of_offer hx hl, (Chan.append_singleton_append _ x l).symm⟩

/-- What has come out and what may still come out could come out at the beginning. -/
theorem outputs_of_run (hrun : exec step s moves = some s') (hl : s'.chan.Outputs l) :
    ∃ l₀, s.chan.Outputs l₀ ∧ s.received ++ l₀ = s'.received ++ l := by
  refine invariant (fun t => ∀ l, t.chan.Outputs l →
    ∃ l₀, s.chan.Outputs l₀ ∧ s.received ++ l₀ = t.received ++ l) ?_ hrun
      (fun l hl => ⟨l, hl, rfl⟩) l hl
  intro t m t' ht hstep l hl
  obtain ⟨l₁, hl₁, heq₁⟩ := outputs_of_step hstep hl
  obtain ⟨l₀, hl₀, heq₀⟩ := ht l₁ hl₁
  exact ⟨l₀, hl₀, heq₀.trans heq₁⟩

/-- What is received is the beginning of a list that could come out, and all of it when the
channel is closed. -/
theorem received_of_run {c : Chan β} (hrun : exec step ⟨c, []⟩ moves = some s') :
    ∃ l, c.Outputs l ∧ s'.received <+: l ∧ (s'.chan.closed = true → s'.received = l) := by
  cases hclosed : s'.chan.closed with
  | true =>
      obtain ⟨l, hl, heq⟩ := outputs_of_run hrun (Chan.outputs_nil_of_closed hclosed)
      rw [List.nil_append, List.append_nil] at heq
      exact ⟨l, hl, heq ▸ List.prefix_rfl, fun _ => heq.symm⟩
  | false =>
      obtain ⟨l, hl, heq⟩ := outputs_of_run hrun s'.chan.outputs_pending
      rw [List.nil_append] at heq
      exact ⟨l, hl, ⟨_, heq.symm⟩, fun h => by cases h⟩

theorem exists_run_of_delivers {c : Chan β} (h : c.Delivers l) (received : List β) :
    ∃ moves s', exec step ⟨c, received⟩ moves = some s' ∧ s'.chan.closed = true ∧
      s'.received = received ++ l := by
  induction h generalizing received with
  | closed h => exact ⟨[], _, rfl, h, (List.append_nil received).symm⟩
  | advance d h _ ih =>
      obtain ⟨moves, s', hrun, hs'⟩ := ih received
      refine ⟨.advance d :: moves, s', exec_cons_eq_some_iff.mpr ⟨_, ?_, hrun⟩, hs'⟩
      simp [step, h]
  | tick d h _ ih =>
      obtain ⟨moves, s', hrun, hs'⟩ := ih received
      refine ⟨.tick d :: moves, s', exec_cons_eq_some_iff.mpr ⟨_, ?_, hrun⟩, hs'⟩
      simp [step, h]
  | @take c c' x l h _ ih =>
      obtain ⟨moves, s', hrun, hclosed, heq⟩ := ih (received ++ [x])
      refine ⟨.take :: moves, s', exec_cons_eq_some_iff.mpr ⟨_, ?_, hrun⟩, hclosed, ?_⟩
      · simp [step, h]
      · rw [heq, Chan.append_singleton_append]

/-- The lists that come out of complete runs are the outputs. -/
theorem exists_run_iff {c : Chan β} {received : List β} :
    (∃ moves s', exec step ⟨c, received⟩ moves = some s' ∧ s'.chan.closed = true ∧
      s'.received = received ++ l) ↔ c.Outputs l := by
  constructor
  · rintro ⟨moves, s', hrun, hclosed, heq⟩
    obtain ⟨l₀, hl₀, happend⟩ := outputs_of_run hrun (Chan.outputs_nil_of_closed hclosed)
    rw [List.append_nil, heq] at happend
    rwa [← List.append_cancel_left happend]
  · exact fun h => exists_run_of_delivers (.of_outputs h) received

theorem step_lt {m : Move} (hm : m.isTick = false) (h : s.step m = some s') :
    s'.chan.work + s'.chan.pending.length < s.chan.work + s.chan.pending.length := by
  cases m with
  | advance d =>
      obtain ⟨c, hc, rfl⟩ := Option.map_eq_some_iff.mp h
      have hwork := (Chan.moves_of_advance hc).work_lt
      rw [(Chan.moves_of_advance hc).pending]
      dsimp only
      omega
  | tick d => cases hm
  | take =>
      obtain ⟨⟨x, c⟩, hx, rfl⟩ := Option.map_eq_some_iff.mp h
      have hwork := Chan.work_of_offer hx
      rw [Chan.pending_of_offer hx, List.length_cons]
      dsimp only
      omega

/-- Without ticks every run is finite. -/
theorem length_le (hrun : exec step s moves = some s') (hquiet : ∀ m ∈ moves, m.isTick = false) :
    moves.length ≤ s.chan.work + s.chan.pending.length := by
  induction moves generalizing s with
  | nil => exact Nat.zero_le _
  | cons m moves ih =>
      obtain ⟨s₁, hstep, hrest⟩ := exec_cons_eq_some_iff.mp hrun
      have hlt := step_lt (hquiet m List.mem_cons_self) hstep
      have hle := ih hrest fun m' hm' => hquiet m' (List.mem_cons_of_mem m hm')
      rw [List.length_cons]
      omega

/-- When no process can move and nothing can be taken, the channel is closed. -/
theorem closed_of_stuck (h : ∀ m, m.isTick = false → s.step m = none) : s.chan.closed = true := by
  by_contra hopen
  rcases s.chan.progress (Bool.eq_false_iff.mpr hopen) with ⟨d, c', hmove⟩ | ⟨x, c', hoffer⟩
  · have hnone := h (.advance d) rfl
    simp [step, hmove] at hnone
  · have hnone := h .take rfl
    simp [step, hoffer] at hnone

end Line

end Network
