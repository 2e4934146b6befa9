import StreamFlow.Foundation.BigEndian
import StreamFlow.Foundation.OrdMap
import StreamFlow.Foundation.Run
import Mathlib.Logic.Function.Basic

/-!
# The in-process transport

`transport_inproc.go` delivers messages between the nodes of one process through buffered
channels. `Send` looks up the channel of its peer under the read lock and writes to it after it
has let go of the lock; `Unregister` and `Close` close channels. A write to a closed channel
panics, also in a `select` with a default case.

The state holds the transport, the channels it has made, and the calls of `Send` under way, so
that a run of `TransportSys.step` is an interleaving of any number of calls.
`sendsSafely_iff` shows what keeps senders safe: nobody closes the channel that a `Send` has
already looked up.
-/

namespace StreamFlow

open BigEndian Run

/-- A Go channel: its buffer, the receivers that wait for a value, and whether it has been
closed. -/
structure Channel where
  buffer : List Bytes
  waiting : ℕ
  closed : Bool
deriving DecidableEq

namespace Channel

def make : Channel := ⟨[], 0, false⟩

/-- `close`: the waiting receivers return. -/
def close (c : Channel) : Channel := { c with waiting := 0, closed := true }

/-- A receive takes the first value, or waits as long as the channel is open. -/
def receive (c : Channel) : Channel :=
  match c.buffer with
  | _ :: rest => { c with buffer := rest }
  | [] => if c.closed then c else { c with waiting := c.waiting + 1 }

/-- The channel operation of `Send` on an open channel of the given capacity: a waiting
receiver takes the value, or it goes into the buffer; otherwise the default case runs. -/
def trySend (buf : ℕ) (c : Channel) (payload : Bytes) : Option Channel :=
  if 0 < c.waiting then some { c with waiting := c.waiting - 1 }
  else if c.buffer.length < buf then some { c with buffer := c.buffer ++ [payload] }
  else none

end Channel

inductive TransportError where
  | transportClosed
  | alreadyRegistered (addr : String)
  | peerNotFound (addr : String)
  | channelFull (addr : String)
deriving DecidableEq, Repr

/-- The transport; a channel is known by its number. -/
structure InProcTransport where
  peers : OrdMap String ℕ
  buf : ℕ
  closed : Bool

def newInProcTransport (buf : ℕ) : InProcTransport := ⟨∅, buf, false⟩

/-- The transport with all channels made so far. -/
structure InProc where
  transport : InProcTransport
  channels : ℕ → Channel
  made : ℕ

namespace InProc

def start (buf : ℕ) : InProc := ⟨newInProcTransport buf, fun _ => .make, 0⟩

def register (s : InProc) (addr : String) : InProc × Except TransportError ℕ :=
  if s.transport.closed then (s, .error .transportClosed)
  else if (s.transport.peers[addr]?).isSome then (s, .error (.alreadyRegistered addr))
  else
    ({ transport := { s.transport with peers := s.transport.peers.insert addr s.made }
       channels := Function.update s.channels s.made .make
       made := s.made + 1 }, .ok s.made)

/-- Close the channels of a list. -/
def closeChannels (s : InProc) (chs : List ℕ) : InProc :=
  { s with channels := fun ch => if ch ∈ chs then (s.channels ch).close else s.channels ch }

def unregister (s : InProc) (addr : String) : InProc :=
  match s.transport.peers[addr]? with
  | none => s
  | some ch =>
      { s.closeChannels [ch] with
        transport := { s.transport with peers := s.transport.peers.erase addr } }

def close (s : InProc) : InProc :=
  if s.transport.closed then s
  else
    { s.closeChannels (s.transport.peers.toList.map Prod.snd) with
      transport := { s.transport with peers := ∅, closed := true } }

/-- The first step of `Send`. -/
def lookup (s : InProc) (addr : String) : Except TransportError ℕ :=
  match s.transport.peers[addr]? with
  | none => .error (.peerNotFound addr)
  | some ch => .ok ch

end InProc

/-- Where a call of `Send` is: it has looked up its channel, it has returned, or its channel
operation has panicked. -/
inductive SendPhase where
  | found (ch : ℕ)
  | returned (err : Option TransportError)
  | panicked
deriving DecidableEq

structure SendCall where
  addr : String
  payload : Bytes
  phase : SendPhase
deriving DecidableEq

structure TransportSys where
  net : InProc
  sends : OrdMap ℕ SendCall

/-- A critical section, a step of `Send`, or a receive. -/
inductive TransportOp where
  | register (addr : String)
  | unregister (addr : String)
  | close
  | lookup (call : ℕ) (addr : String) (payload : Bytes)
  | send (call : ℕ)
  | receive (ch : ℕ)

namespace TransportSys

def start (buf : ℕ) : TransportSys := ⟨.start buf, ∅⟩

def setCall (s : TransportSys) (call : ℕ) (c : SendCall) : TransportSys :=
  { s with sends := s.sends.insert call c }

def lookup (s : TransportSys) (call : ℕ) (addr : String) (payload : Bytes) :
    Option TransportSys :=
  if (s.sends[call]?).isSome then none
  else
    match s.net.lookup addr with
    | .error e => some (s.setCall call ⟨addr, payload, .returned (some e)⟩)
    | .ok ch => some (s.setCall call ⟨addr, payload, .found ch⟩)

/-- The second step of `Send`. -/
def send (s : TransportSys) (call : ℕ) : Option TransportSys :=
  match s.sends[call]? with
  | some ⟨addr, payload, .found ch⟩ =>
      if (s.net.channels ch).closed then some (s.setCall call ⟨addr, payload, .panicked⟩)
      else
        match (s.net.channels ch).trySend s.net.transport.buf payload with
        | none => some (s.setCall call ⟨addr, payload, .returned (some (.channelFull addr))⟩)
        | some c =>
            some (setCall
              { s with net := { s.net with channels := Function.update s.net.channels ch c } } call
              ⟨addr, payload, .returned none⟩)
  | _ => none

def step (s : TransportSys) : TransportOp → Option TransportSys
  | .register addr => some { s with net := (s.net.register addr).1 }
  | .unregister addr => some { s with net := s.net.unregister addr }
  | .close => some { s with net := s.net.close }
  | .lookup call addr payload => s.lookup call addr payload
  | .send call => s.send call
  | .receive ch =>
      some { s with net := { s.net with
        channels := Function.update s.net.channels ch (s.net.channels ch).receive } }

/-- A call of `Send` has looked up the channel and not yet written to it. -/
def Sending (s : TransportSys) (ch : ℕ) : Prop :=
  ∃ (call : ℕ) (c : SendCall), s.sends[call]? = some c ∧ c.phase = .found ch

/-- No channel operation of a `Send` has panicked, and none panics if it takes place next. -/
structure SendsSafely (s : TransportSys) : Prop where
  past : ∀ (call : ℕ) (c : SendCall), s.sends[call]? = some c → c.phase ≠ .panicked
  next : ∀ (call : ℕ) (s' : TransportSys) (c : SendCall), s.step (.send call) = some s' →
    s'.sends[call]? = some c → c.phase ≠ .panicked

/-- The channels that a step closes. -/
def closes (s : TransportSys) : TransportOp → List ℕ
  | .unregister addr => (s.net.transport.peers[addr]?).toList
  | .close => if s.net.transport.closed then [] else s.net.transport.peers.toList.map Prod.snd
  | _ => []

/-- A step closes no channel that a `Send` has looked up. -/
def SparesSenders (s : TransportSys) (op : TransportOp) : Prop :=
  ∀ ch ∈ s.closes op, ¬ s.Sending ch

theorem sending_iff_mem_toList (s : TransportSys) (ch : ℕ) :
    (∃ e ∈ s.sends.toList, e.2.phase = .found ch) ↔ s.Sending ch := by
  constructor
  · rintro ⟨⟨call, c⟩, hmem, hphase⟩
    exact ⟨call, c, (OrdMap.mem_toList_iff _).mp hmem, hphase⟩
  · rintro ⟨call, c, hc, hphase⟩
    exact ⟨(call, c), (OrdMap.mem_toList_iff _).mpr hc, hphase⟩

instance (s : TransportSys) (ch : ℕ) : Decidable (s.Sending ch) :=
  decidable_of_iff _ (sending_iff_mem_toList s ch)

instance (s : TransportSys) (op : TransportOp) : Decidable (s.SparesSenders op) :=
  inferInstanceAs (Decidable (∀ ch ∈ s.closes op, ¬ s.Sending ch))

variable {s s' : TransportSys} {op : TransportOp}

theorem receive_closed (c : Channel) : c.receive.closed = c.closed := by
  unfold Channel.receive
  split
  · rfl
  · split <;> rfl

theorem trySend_closed {buf : ℕ} {c c' : Channel} {payload : Bytes}
    (h : c.trySend buf payload = some c') : c'.closed = c.closed := by
  unfold Channel.trySend at h
  split at h
  · obtain rfl := Option.some.inj h
    rfl
  · split at h
    · obtain rfl := Option.some.inj h
      rfl
    · cases h

/-- Replacing a channel by one with the same flag closes nothing. -/
theorem closed_update {channels : ℕ → Channel} {ch : ℕ} {c : Channel}
    (hc : c.closed = (channels ch).closed) (ch' : ℕ) :
    (Function.update channels ch c ch').closed = (channels ch').closed := by
  by_cases heq : ch' = ch
  · rw [heq, Function.update_self, hc]
  · rw [Function.update_of_ne heq]

theorem register_cases (net : InProc) (addr : String) :
    (net.register addr).1 = net ∨
      (net.register addr).1 =
        { transport := { net.transport with peers := net.transport.peers.insert addr net.made }
          channels := Function.update net.channels net.made .make
          made := net.made + 1 } := by
  unfold InProc.register
  split
  · exact .inl rfl
  · split
    · exact .inl rfl
    · exact .inr rfl

theorem lookup_cases {call : ℕ} {addr : String} {payload : Bytes}
    (h : s.lookup call addr payload = some s') :
    s.sends[call]? = none ∧ ∃ phase, s' = s.setCall call ⟨addr, payload, phase⟩ ∧
      phase ≠ .panicked ∧ ∀ ch, phase = .found ch → s.net.transport.peers[addr]? = some ch := by
  unfold lookup InProc.lookup at h
  split at h
  · cases h
  · next hnone =>
      refine ⟨by simpa using hnone, ?_⟩
      cases hpeer : s.net.transport.peers[addr]? with
      | none =>
          rw [hpeer] at h
          exact ⟨_, (Option.some.inj h).symm, by simp, fun ch hch => by cases hch⟩
      | some ch =>
          rw [hpeer] at h
          refine ⟨_, (Option.some.inj h).symm, by simp, fun ch' hch => ?_⟩
          rw [SendPhase.found.inj hch]

theorem send_cases {call : ℕ} (h : s.send call = some s') :
    ∃ addr payload ch phase channels, s.sends[call]? = some ⟨addr, payload, .found ch⟩ ∧
      s' = setCall { s with net := { s.net with channels := channels } } call
        ⟨addr, payload, phase⟩ ∧
      (∀ ch', (channels ch').closed = (s.net.channels ch').closed) ∧
      (∀ ch', phase ≠ .found ch') ∧ (phase = .panicked ↔ (s.net.channels ch).closed = true) := by
  unfold send at h
  split at h
  · next addr payload ch hcall =>
      refine ⟨addr, payload, ch, ?_⟩
      split at h
      · next hclosed =>
          exact ⟨_, s.net.channels, hcall, (Option.some.inj h).symm, fun _ => rfl, by simp,
            by simp [hclosed]⟩
      · next hopen =>
          split at h
          · exact ⟨_, s.net.channels, hcall, (Option.some.inj h).symm, fun _ => rfl, by simp,
              by simp [hopen]⟩
          · next c hc =>
              exact ⟨_, _, hcall, (Option.some.inj h).symm, closed_update (trySend_closed hc),
                by simp, by simp [hopen]⟩
  · cases h

theorem closed_closeChannels (net : InProc) (chs : List ℕ) (ch : ℕ) :
    ((net.closeChannels chs).channels ch).closed = true ↔
      (net.channels ch).closed = true ∨ ch ∈ chs := by
  simp only [InProc.closeChannels]
  split
  · next hmem => simp [Channel.close, hmem]
  · next hmem => simp [hmem]

/-- A channel made before the step is closed after it if it was closed, or if the step closes
it. -/
theorem closed_step (hstep : s.step op = some s') {ch : ℕ} (hch : ch < s.net.made) :
    (s'.net.channels ch).closed = true ↔
      (s.net.channels ch).closed = true ∨ ch ∈ s.closes op := by
  cases op with
  | register addr =>
      obtain rfl := Option.some.inj hstep
      simp only [closes, List.not_mem_nil, or_false]
      rcases register_cases s.net addr with hsame | hnew
      · rw [hsame]
      · rw [hnew]
        dsimp only
        rw [Function.update_of_ne hch.ne]
  | unregister addr =>
      obtain rfl := Option.some.inj hstep
      simp only [closes, InProc.unregister]
      cases s.net.transport.peers[addr]? with
      | none => simp
      | some ch' => exact closed_closeChannels s.net [ch'] ch
  | close =>
      obtain rfl := Option.some.inj hstep
      simp only [closes, InProc.close]
      split
      · simp
      · exact closed_closeChannels s.net _ ch
  | lookup call addr payload =>
      obtain ⟨-, phase, rfl, -⟩ := lookup_cases hstep
      exact (or_iff_left List.not_mem_nil).symm
  | send call =>
      obtain ⟨addr, payload, ch', phase, channels, -, rfl, hsame, -⟩ := send_cases hstep
      exact (Bool.eq_iff_iff.mp (hsame ch)).trans (or_iff_left List.not_mem_nil).symm
  | receive ch' =>
      obtain rfl := Option.some.inj hstep
      exact (Bool.eq_iff_iff.mp (closed_update (receive_closed _) ch)).trans
        (or_iff_left List.not_mem_nil).symm

/-- The channels in use have been made, those in the table of peers are open, and no two
peers share one. -/
structure Inv (s : TransportSys) : Prop where
  peers : ∀ (addr : String) (ch : ℕ), s.net.transport.peers[addr]? = some ch →
    ch < s.net.made ∧ (s.net.channels ch).closed = false
  unshared : ∀ (addr addr' : String) (ch : ℕ), s.net.transport.peers[addr]? = some ch →
    s.net.transport.peers[addr']? = some ch → addr = addr'
  sending : ∀ ch, s.Sending ch → ch < s.net.made

theorem inv_start (buf : ℕ) : (start buf).Inv where
  peers := fun addr ch h => by simp [start, InProc.start, newInProcTransport] at h
  unshared := fun addr addr' ch h => by simp [start, InProc.start, newInProcTransport] at h
  sending := fun ch ⟨call, c, hc, _⟩ => by simp [start] at hc

/-- Steps that keep the table of peers, and add only channels from there to those in use. -/
theorem Inv.of_peers_eq (h : s.Inv) (hpeers : s'.net.transport.peers = s.net.transport.peers)
    (hmade : s'.net.made = s.net.made)
    (hclosed : ∀ ch, (s'.net.channels ch).closed = (s.net.channels ch).closed)
    (hsending : ∀ ch, s'.Sending ch → s.Sending ch ∨
      ∃ addr : String, s.net.transport.peers[addr]? = some ch) : s'.Inv := by
  refine ⟨?_, ?_, fun ch hch => ?_⟩
  · rw [hpeers, hmade]
    intro addr ch hch
    rw [hclosed]
    exact h.peers addr ch hch
  · rw [hpeers]
    exact h.unshared
  · rw [hmade]
    rcases hsending ch hch with hold | ⟨addr, hpeer⟩
    · exact h.sending ch hold
    · exact (h.peers addr ch hpeer).1

theorem sending_setCall {net : InProc} {call : ℕ} {c : SendCall} {ch : ℕ}
    (h : (setCall ⟨net, s.sends⟩ call c).Sending ch) : s.Sending ch ∨ c.phase = .found ch := by
  obtain ⟨call', c', hc', hphase⟩ := h
  rcases OrdMap.getElem?_insert_cases hc' with ⟨-, rfl⟩ | ⟨-, hc'⟩
  · exact Or.inr hphase
  · exact Or.inl ⟨call', c', hc', hphase⟩

/-- The new channel has a number that no peer had before. -/
theorem Inv.register (h : s.Inv) (addr : String) :
    Inv { s with net := (s.net.register addr).1 } := by
  rcases register_cases s.net addr with hsame | hnew
  · rw [hsame]
    exact h
  · rw [hnew]
    have hnot : ∀ b : String, s.net.transport.peers[b]? ≠ some s.net.made :=
      fun b hb => (h.peers b _ hb).1.ne rfl
    refine ⟨fun addr' ch hch => ?_, fun a a' ch ha ha' => ?_, fun ch hch => ?_⟩
    · dsimp only at hch ⊢
      rcases OrdMap.getElem?_insert_cases hch with ⟨-, rfl⟩ | ⟨-, hch⟩
      · exact ⟨Nat.lt_succ_self _, by rw [Function.update_self]; rfl⟩
      · obtain ⟨hlt, hopen⟩ := h.peers addr' ch hch
        exact ⟨hlt.trans (Nat.lt_succ_self _), by rw [Function.update_of_ne hlt.ne, hopen]⟩
    · rcases OrdMap.getElem?_insert_cases ha with ⟨heq, rfl⟩ | ⟨-, ha⟩ <;>
        rcases OrdMap.getElem?_insert_cases ha' with ⟨heq', hch⟩ | ⟨-, ha'⟩
      · exact heq.symm.trans heq'
      · exact absurd ha' (hnot a')
      · exact absurd ha (hch ▸ hnot a)
      · exact h.unshared a a' ch ha ha'
    · exact (h.sending ch hch).trans (Nat.lt_succ_self _)

/-- The channel that is closed has left the table, and no other peer had it. -/
theorem Inv.unregister (h : s.Inv) (addr : String) :
    Inv { s with net := s.net.unregister addr } := by
  rw [InProc.unregister]
  cases hpeer : s.net.transport.peers[addr]? with
  | none => exact h
  | some ch₀ =>
      refine ⟨fun addr' ch hch => ?_, fun a a' ch ha ha' => ?_, h.sending⟩
      · dsimp only at hch ⊢
        obtain ⟨hne, hch⟩ := OrdMap.getElem?_of_getElem?_erase hch
        obtain ⟨hlt, hopen⟩ := h.peers addr' ch hch
        refine ⟨hlt, Bool.eq_false_iff.mpr fun hc => ?_⟩
        rcases (closed_closeChannels s.net [ch₀] ch).mp hc with hold | hmem
        · rw [hopen] at hold
          cases hold
        · obtain rfl := List.mem_singleton.mp hmem
          exact hne (h.unshared addr addr' ch hpeer hch)
      · exact h.unshared a a' ch (OrdMap.getElem?_of_getElem?_erase ha).2
          (OrdMap.getElem?_of_getElem?_erase ha').2

theorem Inv.step (h : s.Inv) (hstep : s.step op = some s') : s'.Inv := by
  cases op with
  | register addr =>
      obtain rfl := Option.some.inj hstep
      exact h.register addr
  | unregister addr =>
      obtain rfl := Option.some.inj hstep
      exact h.unregister addr
  | close =>
      obtain rfl := Option.some.inj hstep
      simp only [InProc.close]
      split
      · exact h
      · exact ⟨fun addr ch hch => by simp at hch, fun a a' ch ha => by simp at ha, h.sending⟩
  | lookup call addr payload =>
      obtain ⟨-, phase, rfl, -, hpeer⟩ := lookup_cases hstep
      refine h.of_peers_eq rfl rfl (fun _ => rfl) fun ch hch => ?_
      exact (sending_setCall hch).imp_right fun hphase => ⟨addr, hpeer ch hphase⟩
  | send call =>
      obtain ⟨addr, payload, ch', phase, channels, -, rfl, hsame, hnot, -⟩ := send_cases hstep
      refine h.of_peers_eq rfl rfl hsame fun ch hch => Or.inl ?_
      exact (sending_setCall hch).resolve_right (hnot ch)
  | receive ch' =>
      obtain rfl := Option.some.inj hstep
      exact h.of_peers_eq rfl rfl (closed_update (receive_closed _)) fun ch hch => Or.inl hch

/-- A `Send` panics exactly on a closed channel. -/
theorem sendsSafely_iff_open :
    s.SendsSafely ↔
      (∀ (call : ℕ) (c : SendCall), s.sends[call]? = some c → c.phase ≠ .panicked) ∧
        ∀ ch, s.Sending ch → (s.net.channels ch).closed ≠ true := by
  constructor
  · intro h
    refine ⟨h.past, ?_⟩
    rintro ch ⟨call, ⟨addr, payload, phase⟩, hcall, rfl⟩ hclosed
    have hstep : s.step (.send call) = some (s.setCall call ⟨addr, payload, .panicked⟩) := by
      simp only [step, send, hcall, hclosed, if_true]
    exact h.next call _ _ hstep (OrdMap.getElem?_insert_self' _ _ _) rfl
  · rintro ⟨hpast, hopen⟩
    refine ⟨hpast, fun call s' c hstep hc => ?_⟩
    obtain ⟨addr, payload, ch, phase, channels, hcall, rfl, -, -, hpanic⟩ := send_cases hstep
    obtain rfl := Option.some.inj ((OrdMap.getElem?_insert_self' _ _ _).symm.trans hc)
    exact fun hphase => hopen ch ⟨call, _, hcall, rfl⟩ (hpanic.mp hphase)

/-- Steps that leave the calls under way alone. -/
theorem sendsSafely_iff_of_sends_eq (hinv : s.Inv) (hstep : s.step op = some s')
    (hsends : s'.sends = s.sends) : s'.SendsSafely ↔ s.SendsSafely ∧ s.SparesSenders op := by
  have hclosed : ∀ ch, s.Sending ch → ((s'.net.channels ch).closed = true ↔
      (s.net.channels ch).closed = true ∨ ch ∈ s.closes op) :=
    fun ch hch => closed_step hstep (hinv.sending ch hch)
  have hsame : s'.Sending = s.Sending := by
    funext ch
    rw [Sending, Sending, hsends]
  rw [sendsSafely_iff_open, sendsSafely_iff_open, hsends, hsame, and_assoc]
  refine and_congr_right fun _ => ⟨fun h => ⟨fun ch hch hc => ?_, fun ch hmem hch => ?_⟩, ?_⟩
  · exact h ch hch ((hclosed ch hch).mpr (Or.inl hc))
  · exact h ch hch ((hclosed ch hch).mpr (Or.inr hmem))
  · rintro ⟨hopen, hspares⟩ ch hch hc
    rcases (hclosed ch hch).mp hc with hold | hmem
    · exact hopen ch hch hold
    · exact hspares ch hmem hch

theorem sendsSafely_lookup_iff (hinv : s.Inv) {call : ℕ} {addr : String} {payload : Bytes}
    (h : s.lookup call addr payload = some s') : s'.SendsSafely ↔ s.SendsSafely := by
  obtain ⟨hnone, phase, rfl, hphase, hpeer⟩ := lookup_cases h
  have hold : ∀ (call' : ℕ) (c : SendCall), s.sends[call']? = some c →
      (s.setCall call ⟨addr, payload, phase⟩).sends[call']? = some c := by
    intro call' c hc
    refine (OrdMap.getElem?_insert_of_ne _ _ fun heq => ?_).trans hc
    rw [← heq, hnone] at hc
    cases hc
  rw [sendsSafely_iff_open, sendsSafely_iff_open]
  constructor
  · rintro ⟨hpast, hopen⟩
    refine ⟨fun call' c hc => hpast call' c (hold call' c hc), ?_⟩
    rintro ch ⟨call', c, hc, hfound⟩
    exact hopen ch ⟨call', c, hold call' c hc, hfound⟩
  · rintro ⟨hpast, hopen⟩
    refine ⟨fun call' c hc => ?_, fun ch hch => ?_⟩
    · rcases OrdMap.getElem?_insert_cases hc with ⟨-, rfl⟩ | ⟨-, hc⟩
      · exact hphase
      · exact hpast call' c hc
    · rcases sending_setCall hch with hsending | hfound
      · exact hopen ch hsending
      · exact Bool.eq_false_iff.mp (hinv.peers addr ch (hpeer ch hfound)).2

theorem sendsSafely_send_iff {call : ℕ} (h : s.send call = some s') :
    s'.SendsSafely ↔ s.SendsSafely := by
  obtain ⟨addr, payload, ch, phase, channels, hcall, rfl, hsame, hnot, hpanic⟩ := send_cases h
  have hget : ∀ call' : ℕ, (s.sends.insert call ⟨addr, payload, phase⟩)[call']? =
      if call = call' then some ⟨addr, payload, phase⟩ else s.sends[call']? :=
    fun call' => OrdMap.getElem?_insert _ _ _ _
  rw [sendsSafely_iff_open, sendsSafely_iff_open]
  constructor
  · rintro ⟨hpast, hopen⟩
    have hsafe : phase ≠ .panicked := hpast call _ (OrdMap.getElem?_insert_self' _ _ _)
    refine ⟨fun call' c hc => ?_, ?_⟩
    · by_cases heq : call = call'
      · rw [← heq, hcall] at hc
        obtain rfl := Option.some.inj hc
        simp
      · exact hpast call' c ((hget call').trans (by rw [if_neg heq, hc]))
    · rintro ch' ⟨call', c, hc, hfound⟩
      by_cases heq : call = call'
      · rw [← heq, hcall] at hc
        obtain rfl := Option.some.inj hc
        obtain rfl := SendPhase.found.inj hfound
        exact fun hclosed => hsafe (hpanic.mpr hclosed)
      · rw [← hsame ch']
        exact hopen ch' ⟨call', c, (hget call').trans (by rw [if_neg heq, hc]), hfound⟩
  · rintro ⟨hpast, hopen⟩
    refine ⟨fun call' c hc => ?_, fun ch' hch' => ?_⟩
    · have hc := (hget call').symm.trans hc
      split at hc
      · obtain rfl := Option.some.inj hc
        exact fun hphase => hopen ch ⟨call, _, hcall, rfl⟩ (hpanic.mp hphase)
      · exact hpast call' c hc
    · change (channels ch').closed ≠ true
      rw [hsame ch']
      exact hopen ch' ((sending_setCall hch').resolve_right (hnot ch'))

/-- A step ends safely exactly if it starts safely and spares the senders. -/
theorem sendsSafely_step_iff (hinv : s.Inv) (hstep : s.step op = some s') :
    s'.SendsSafely ↔ s.SendsSafely ∧ s.SparesSenders op := by
  cases op with
  | lookup call addr payload =>
      rw [sendsSafely_lookup_iff hinv hstep]
      exact (and_iff_left fun ch hmem => absurd hmem List.not_mem_nil).symm
  | send call =>
      rw [sendsSafely_send_iff hstep]
      exact (and_iff_left fun ch hmem => absurd hmem List.not_mem_nil).symm
  | _ =>
      refine sendsSafely_iff_of_sends_eq hinv hstep ?_
      obtain rfl := Option.some.inj hstep
      rfl

end TransportSys

/-- The in-process transport never sends on a closed channel, exactly under
`SparesSenders`. For every interleaving of any number of calls: no `Send` has panicked, and none
that is under way can panic with its next step, if and only if no `Unregister` or `Close`
closed a channel that a `Send` had looked up and not yet written to. -/
theorem sendsSafely_iff (buf : ℕ) {ops : List TransportOp} {s : TransportSys}
    (hrun : exec TransportSys.step (.start buf) ops = some s) :
    s.SendsSafely ↔ Guarded TransportSys.step TransportSys.SparesSenders (.start buf) ops := by
  have hstart : (TransportSys.start buf).SendsSafely := by
    rw [TransportSys.sendsSafely_iff_open]
    exact ⟨fun call c hc => by simp [TransportSys.start] at hc,
      fun ch ⟨call, c, hc, _⟩ => by simp [TransportSys.start] at hc⟩
  rw [iff_guarded TransportSys.Inv TransportSys.SendsSafely (fun s op s' h hs => h.step hs)
    (fun s op s' h hs => TransportSys.sendsSafely_step_iff h hs) hrun (TransportSys.inv_start buf)]
  exact and_iff_right hstart

/-- Sending to a peer, and unregistering it afterwards. -/
theorem sendsSafely_sample :
    ∃ s, exec TransportSys.step (.start 1)
        [.register "a", .lookup 0 "a" [1], .lookup 1 "a" [2], .send 0, .send 1, .unregister "a",
          .lookup 2 "a" [3], .close] = some s ∧
      (s.sends.toList.map fun e => e.2.phase) =
        [.returned none, .returned (some (.channelFull "a")),
          .returned (some (.peerNotFound "a"))] ∧
      s.SendsSafely := by
  obtain ⟨s, hrun, hphases⟩ : ∃ s, exec TransportSys.step (.start 1)
        [.register "a", .lookup 0 "a" [1], .lookup 1 "a" [2], .send 0, .send 1, .unregister "a",
          .lookup 2 "a" [3], .close] = some s ∧
      (s.sends.toList.map fun e => e.2.phase) =
        [.returned none, .returned (some (.channelFull "a")),
          .returned (some (.peerNotFound "a"))] :=
    exists_exec_of_any (by decide +kernel)
  exact ⟨s, hrun, hphases, (sendsSafely_iff 1 hrun).mpr (by decide +kernel)⟩

/-- `Unregister` and `Close` between the two steps of a `Send` make it panic. -/
theorem not_sendsSafely_unregister :
    (∃ s, exec TransportSys.step (.start 1)
        [.register "a", .lookup 0 "a" [1], .unregister "a", .send 0] = some s ∧
      (s.sends[0]?).map SendCall.phase = some .panicked) ∧
    ∃ s, exec TransportSys.step (.start 1)
        [.register "a", .lookup 0 "a" [1], .close, .send 0] = some s ∧
      (s.sends[0]?).map SendCall.phase = some .panicked :=
  ⟨exists_exec_of_any (by decide +kernel), exists_exec_of_any (by decide +kernel)⟩

end StreamFlow
