import StreamFlow.Foundation.Network

/-!
# Relays

A relay is a process that reads a channel until it is closed, sends at most one value on for
each value it has read, and closes its own channel in the end. Channels have no buffer: a value
is handed over when the reader takes it.

A value of `Chan ρ` is the reading end of a channel, together with the processes that write to
it: a source, and relays one behind the other. `advance c d` moves the process that is `d`
places behind the reader, so a list of moves is an interleaving of the processes.

A relay is the machine `Network.relayMachine` with one more place where others may move: after it
has read a value it computes, and only then it sends. `toNetwork` forgets that place. A move of a
relay is then the same move of the machine, or no move at all when it ends the computing, so a
run of relays is a run of machines (`Line.toNetwork_run`), and the results about `Network` apply.
-/

namespace Relay

open Run

variable {ρ : Type}

/-- Where a relay is in its loop. -/
inductive Phase (ρ : Type) where
  | receiving
  | computing (r : ρ)
  | sending (r : ρ)
  | leaving
  | closed

/-- The reading end of a channel: a source with the values that it has still to send, a source
that has closed its channel, or a relay behind another channel. -/
inductive Chan (ρ : Type) where
  | source (rest : List ρ)
  | drained
  | relay (input : Chan ρ) (body : ρ → Option ρ) (phase : Phase ρ)

namespace Chan

/-- The value that the writer of the channel offers, and the channel after it is taken. -/
def offer : Chan ρ → Option (ρ × Chan ρ)
  | source (r :: rest) => some (r, source rest)
  | relay input body (.sending r) => some (r, relay input body .receiving)
  | _ => none

def closed : Chan ρ → Bool
  | drained => true
  | relay _ _ .closed => true
  | _ => false

/-- A relay that reads its input: it takes what is offered, or leaves the loop when the input
is closed. -/
def receive (input : Chan ρ) (body : ρ → Option ρ) : Option (Chan ρ) :=
  match input.offer with
  | some (r, input') => some (relay input' body (.computing r))
  | none => if input.closed then some (relay input body .leaving) else none

/-- The next move of the process `d` places behind the reader. A process that sends waits for
its reader, so it has no move of its own. -/
def advance : Chan ρ → ℕ → Option (Chan ρ)
  | source [], 0 => some drained
  | relay input body .receiving, 0 => receive input body
  | relay input body (.computing r), 0 =>
      match body r with
      | none => some (relay input body .receiving)
      | some r' => some (relay input body (.sending r'))
  | relay input body .leaving, 0 => some (relay input body .closed)
  | relay input body phase, d + 1 => (advance input d).map fun input' => relay input' body phase
  | _, _ => none

end Chan

/-- The machine has its values in the outbox as soon as it has read. -/
def Phase.toNetwork (body : ρ → Option ρ) : Phase ρ → Network.Phase Unit ρ
  | .receiving => .looping () []
  | .computing r => .looping () (body r).toList
  | .sending r => .looping () [r]
  | .leaving => .leaving []
  | .closed => .closed

namespace Chan

def toNetwork : Chan ρ → Network.Chan ρ
  | source rest => .source rest
  | drained => .drained
  | relay input body phase =>
      .stage input.toNetwork (Network.relayMachine body) (phase.toNetwork body) []

/-- The relays that compute. -/
def computing : Chan ρ → ℕ
  | relay input _ (.computing _) => input.computing + 1
  | relay input _ _ => input.computing
  | _ => 0

variable {c c' : Chan ρ} {d : ℕ} {r : ρ}

theorem quiet_toNetwork (c : Chan ρ) : c.toNetwork.Quiet := by
  induction c with
  | source rest => trivial
  | drained => trivial
  | relay input body phase ih => exact ⟨ih, fun _ => rfl⟩

theorem closed_toNetwork (c : Chan ρ) : c.toNetwork.closed = c.closed := by
  cases c with
  | source rest => rfl
  | drained => rfl
  | relay input body phase => cases phase <;> rfl

theorem offer_toNetwork (h : c.offer = some (r, c')) :
    c.toNetwork.offer = some (r, c'.toNetwork) ∧ c'.computing = c.computing := by
  unfold offer at h
  split at h
  · cases h
    exact ⟨rfl, rfl⟩
  · cases h
    exact ⟨rfl, rfl⟩
  · cases h

theorem receive_toNetwork {input : Chan ρ} {body : ρ → Option ρ}
    (h : receive input body = some c') :
    input.toNetwork.receive (Network.relayMachine body) () [] = some c'.toNetwork ∧
      c'.computing ≤ input.computing + 1 := by
  unfold receive at h
  split at h
  · next r input' hoffer =>
      cases h
      obtain ⟨hsame, hcount⟩ := offer_toNetwork hoffer
      rw [Network.Chan.receive, hsame]
      exact ⟨rfl, Nat.le_of_eq (congrArg (· + 1) hcount)⟩
  · split at h
    · next hclosed =>
        cases h
        rw [← closed_toNetwork] at hclosed
        rw [Network.Chan.receive, Network.Chan.offer_of_closed hclosed, if_pos hclosed]
        exact ⟨rfl, Nat.le_succ _⟩
    · cases h

/-- The machine makes the move of the relay, unless the relay has only ended its computing. -/
theorem advance_toNetwork (h : c.advance d = some c') :
    c.toNetwork.advance d = some c'.toNetwork ∧ c'.computing ≤ c.computing + 1 ∨
      c'.toNetwork = c.toNetwork ∧ c'.computing + 1 = c.computing := by
  induction c generalizing d c' with
  | source rest =>
      cases rest with
      | nil =>
          cases d with
          | zero =>
              cases h
              exact .inl ⟨rfl, Nat.le_succ _⟩
          | succ d => cases h
      | cons r rest => cases h
  | drained => cases h
  | relay input body phase ih =>
      cases d with
      | succ d =>
          simp only [advance, Option.map_eq_some_iff] at h
          obtain ⟨input', hinput, rfl⟩ := h
          rcases ih hinput with ⟨hmove, hcount⟩ | ⟨hsame, hcount⟩
          · refine .inl ⟨by simp [toNetwork, Network.Chan.advance, hmove], ?_⟩
            cases phase <;> simp only [computing] <;> omega
          · refine .inr ⟨by simp [toNetwork, hsame], ?_⟩
            cases phase <;> simp only [computing] <;> omega
      | zero =>
          cases phase with
          | receiving => exact .inl (receive_toNetwork h)
          | computing r =>
              right
              simp only [advance] at h
              split at h <;> next hbody =>
                cases h
                exact ⟨by simp [toNetwork, Phase.toNetwork, hbody], rfl⟩
          | leaving =>
              cases h
              exact .inl ⟨rfl, Nat.le_succ _⟩
          | sending r => cases h
          | closed => cases h

/-- As long as the channel is open, a process moves or its writer offers a value. -/
theorem progress (c : Chan ρ) (h : c.closed = false) :
    (∃ d c', c.advance d = some c') ∨ ∃ r c', c.offer = some (r, c') := by
  induction c with
  | source rest =>
      cases rest with
      | nil => exact Or.inl ⟨0, drained, rfl⟩
      | cons r rest => exact Or.inr ⟨r, source rest, rfl⟩
  | drained => cases h
  | relay input body phase ih =>
      cases phase with
      | receiving =>
          left
          cases hclosed : input.closed with
          | true =>
              cases hoffer : input.offer with
              | none => exact ⟨0, relay input body .leaving, by simp [advance, receive, *]⟩
              | some e => exact ⟨0, relay e.2 body (.computing e.1), by simp [advance, receive, *]⟩
          | false =>
              rcases ih hclosed with ⟨d, input', hmove⟩ | ⟨r, input', hoffer⟩
              · exact ⟨d + 1, relay input' body .receiving, by simp [advance, hmove]⟩
              · exact ⟨0, relay input' body (.computing r), by simp [advance, receive, hoffer]⟩
      | computing r =>
          cases hbody : body r with
          | none => exact Or.inl ⟨0, relay input body .receiving, by simp [advance, hbody]⟩
          | some r' => exact Or.inl ⟨0, relay input body (.sending r'), by simp [advance, hbody]⟩
      | sending r => exact Or.inr ⟨r, relay input body .receiving, rfl⟩
      | leaving => exact Or.inl ⟨0, relay input body .closed, rfl⟩
      | closed => cases h

end Chan

/-- A channel, and what its reader has received so far. -/
structure Line (ρ : Type) where
  chan : Chan ρ
  received : List ρ

/-- A process of the chain moves, or the reader takes a value. -/
inductive Move where
  | advance (d : ℕ)
  | take

namespace Line

def step (s : Line ρ) : Move → Option (Line ρ)
  | .advance d => (s.chan.advance d).map fun c => ⟨c, s.received⟩
  | .take => s.chan.offer.map fun e => ⟨e.2, s.received ++ [e.1]⟩

/-- The reader of the relays is a reader of machines. -/
def toNetwork (s : Line ρ) : Network.Line ρ := ⟨s.chan.toNetwork, s.received⟩

variable {s s' : Line ρ}

theorem step_toNetwork {m : Move} (h : s.step m = some s') :
    (∃ m' : Network.Move, m'.isTick = false ∧ s.toNetwork.step m' = some s'.toNetwork ∧
        s'.chan.computing ≤ s.chan.computing + 1) ∨
      s'.toNetwork = s.toNetwork ∧ s'.chan.computing + 1 = s.chan.computing := by
  cases m with
  | advance d =>
      obtain ⟨c, hc, rfl⟩ := Option.map_eq_some_iff.mp h
      rcases Chan.advance_toNetwork hc with ⟨hmove, hcount⟩ | ⟨hsame, hcount⟩
      · exact .inl ⟨.advance d, rfl, by simp [Network.Line.step, toNetwork, hmove], hcount⟩
      · exact .inr ⟨by simp [toNetwork, hsame], hcount⟩
  | take =>
      obtain ⟨e, he, rfl⟩ := Option.map_eq_some_iff.mp h
      obtain ⟨hoffer, hcount⟩ := Chan.offer_toNetwork he
      exact .inl ⟨.take, rfl, by simp [Network.Line.step, toNetwork, hoffer],
        Nat.le_succ_of_le (Nat.le_of_eq hcount)⟩

/-- A run of relays is a run of machines. Each of its moves brings at most one relay to computing,
so that at most half of the moves of the relays are not moves of the machines. -/
theorem toNetwork_run {moves : List Move} (hrun : exec step s moves = some s') :
    ∃ moves' : List Network.Move, (∀ m ∈ moves', m.isTick = false) ∧
      exec Network.Line.step s.toNetwork moves' = some s'.toNetwork ∧
      moves.length + s'.chan.computing ≤ 2 * moves'.length + s.chan.computing := by
  induction moves generalizing s with
  | nil =>
      cases hrun
      exact ⟨[], by simp, rfl, by simp⟩
  | cons m moves ih =>
      obtain ⟨s₁, hstep, hrest⟩ := exec_cons_eq_some_iff.mp hrun
      obtain ⟨moves', hquiet, hrun', hlength⟩ := ih hrest
      rcases step_toNetwork hstep with ⟨m', htick, hstep', hcount⟩ | ⟨hsame, hcount⟩
      · refine ⟨m' :: moves', List.forall_mem_cons.mpr ⟨htick, hquiet⟩,
          exec_cons_eq_some_iff.mpr ⟨_, hstep', hrun'⟩, ?_⟩
        simp only [List.length_cons]
        omega
      · refine ⟨moves', hquiet, hsame ▸ hrun', ?_⟩
        rw [List.length_cons]
        omega

/-- What is received is the beginning of what the machines send, and all of it when the channel
is closed. -/
theorem received_of_run {c : Chan ρ} {moves : List Move} (hrun : exec step ⟨c, []⟩ moves = some s) :
    s.received <+: c.toNetwork.pending ∧
      (s.chan.closed = true → s.received = c.toNetwork.pending) := by
  obtain ⟨moves', -, hrun', -⟩ := toNetwork_run hrun
  obtain ⟨l, hl, hreceived, hclosed⟩ := Network.Line.received_of_run hrun'
  rw [c.quiet_toNetwork.outputs_iff] at hl
  subst hl
  exact ⟨hreceived, fun h => hclosed (s.chan.closed_toNetwork.trans h)⟩

/-- Every run is finite. -/
theorem length_le {moves : List Move} (hrun : exec step s moves = some s') :
    moves.length ≤ 2 * (s.chan.toNetwork.work + s.chan.toNetwork.pending.length) +
      s.chan.computing := by
  obtain ⟨moves', hquiet, hrun', hlength⟩ := toNetwork_run hrun
  have hle := Network.Line.length_le hrun' hquiet
  dsimp only [toNetwork] at hle
  omega

/-- A run that cannot go on has closed the channel. -/
theorem closed_of_stuck (h : ∀ m, s.step m = none) : s.chan.closed = true := by
  by_contra hopen
  rcases s.chan.progress (Bool.eq_false_iff.mpr hopen) with ⟨d, c', hmove⟩ | ⟨r, c', hoffer⟩
  · have hnone := h (.advance d)
    simp [step, hmove] at hnone
  · have hnone := h .take
    simp [step, hoffer] at hnone

end Line

end Relay
