import StreamFlow.Foundation.Trace
import StreamFlow.Raft.InProcTransport

/-!
# What the in-process transport delivers

Each channel of the in-process transport is a queue. The calls of `Send` that return no error put
their payloads in at the end, or hand them to a receiver that waits; receivers take them out at the
front. Over any interleaving nothing is lost, repeated or reordered, also not by `Unregister` and
`Close`: a closed channel keeps what is in its buffer.
-/

namespace StreamFlow

open BigEndian Run

namespace Channel

/-- A receiver waits only for an empty buffer, and the buffer keeps to its capacity. -/
structure Ok (buf : ℕ) (c : Channel) : Prop where
  waiting : 0 < c.waiting → c.buffer = []
  length_le : c.buffer.length ≤ buf

/-- What a receive gets at once. -/
def front (c : Channel) : List Bytes := c.buffer.head?.toList

/-- What a receiver that waits gets from a send. -/
def handed (c : Channel) (payload : Bytes) : List Bytes := if 0 < c.waiting then [payload] else []

variable {buf : ℕ} {c c' : Channel} {payload : Bytes}

theorem ok_make (buf : ℕ) : make.Ok buf := ⟨fun _ => rfl, Nat.zero_le buf⟩

theorem Ok.close (h : c.Ok buf) : c.close.Ok buf :=
  ⟨fun h0 => absurd h0 (Nat.lt_irrefl 0), h.length_le⟩

theorem Ok.receive (h : c.Ok buf) : c.receive.Ok buf := by
  unfold Channel.receive
  split
  · next payload rest hbuffer =>
      refine ⟨fun hwait => ?_, ?_⟩
      · have hnil := h.waiting hwait
        rw [hbuffer] at hnil
        cases hnil
      · have hle := h.length_le
        rw [hbuffer, List.length_cons] at hle
        exact (Nat.le_succ _).trans hle
  · next hbuffer =>
      split
      · exact h
      · exact ⟨fun _ => hbuffer, h.length_le⟩

theorem front_append_receive (c : Channel) : c.front ++ c.receive.buffer = c.buffer := by
  unfold front receive
  cases hbuffer : c.buffer with
  | nil =>
      dsimp only
      split <;> simp [hbuffer]
  | cons payload rest => simp

theorem Ok.trySend (h : c.Ok buf) (hsend : c.trySend buf payload = some c') : c'.Ok buf := by
  unfold Channel.trySend at hsend
  split at hsend
  · next hwait =>
      obtain rfl := Option.some.inj hsend
      exact ⟨fun _ => h.waiting hwait, h.length_le⟩
  · next hwait =>
      split at hsend
      · next hlt =>
          obtain rfl := Option.some.inj hsend
          refine ⟨fun h0 => absurd h0 hwait, ?_⟩
          rw [List.length_append]
          exact hlt
      · cases hsend

/-- A payload goes to a receiver that waits, or to the end of the buffer. -/
theorem Ok.append_of_trySend (h : c.Ok buf) (hsend : c.trySend buf payload = some c') :
    c.buffer ++ [payload] = c.handed payload ++ c'.buffer := by
  unfold Channel.trySend at hsend
  unfold handed
  split at hsend
  · next hwait =>
      obtain rfl := Option.some.inj hsend
      rw [if_pos hwait, h.waiting hwait]
      rfl
  · next hwait =>
      split at hsend
      · obtain rfl := Option.some.inj hsend
        rw [if_neg hwait]
        rfl
      · cases hsend

end Channel

namespace TransportSys

/-- The payload that a step of `Send` gives to a channel: the call has looked up the channel and
returns no error. -/
def accepted (ch : ℕ) (s : TransportSys) : TransportOp → List Bytes
  | .send call =>
      match s.sends[call]?, (s.send call).bind fun s' => s'.sends[call]? with
      | some ⟨_, payload, .found ch'⟩, some ⟨_, _, .returned none⟩ =>
          if ch' = ch then [payload] else []
      | _, _ => []
  | _ => []

/-- What receivers get from a channel: at once, or from a `Send` that finds them waiting. -/
def received (ch : ℕ) (s : TransportSys) : TransportOp → List Bytes
  | .receive ch' => if ch' = ch then (s.net.channels ch).front else []
  | .send call => (s.accepted ch (.send call)).flatMap (s.net.channels ch).handed
  | _ => []

/-- All channels are in order, those not made yet are empty, and calls use those that have been
made. -/
structure Queues (s : TransportSys) : Prop where
  inv : s.Inv
  ok : ∀ ch, (s.net.channels ch).Ok s.net.transport.buf
  unmade : ∀ ch, s.net.made ≤ ch → (s.net.channels ch).buffer = []

variable {s s' : TransportSys} {op : TransportOp}

/-- What a channel operation of `Send` does: nothing to the channels, or the payload goes to the
channel that was looked up. -/
theorem send_channel_cases {call : ℕ} (h : s.send call = some s') :
    s'.net.transport = s.net.transport ∧ s'.net.made = s.net.made ∧
      (s'.net.channels = s.net.channels ∧ (∀ ch, s.accepted ch (.send call) = []) ∨
        ∃ payload ch c', s.Sending ch ∧
          (s.net.channels ch).trySend s.net.transport.buf payload = some c' ∧
          s'.net.channels = Function.update s.net.channels ch c' ∧
          ∀ ch', s.accepted ch' (.send call) = if ch = ch' then [payload] else []) := by
  have hsend := h
  unfold send at h
  split at h
  · next addr payload ch hcall =>
      have hget : ∀ (net : InProc) (c : SendCall),
          (setCall { s with net := net } call c).sends[call]? = some c :=
        fun net c => OrdMap.getElem?_insert_self' _ _ _
      split at h
      · obtain rfl := Option.some.inj h
        refine ⟨rfl, rfl, .inl ⟨rfl, fun ch' => ?_⟩⟩
        simp only [accepted, hcall, hsend, Option.bind_some, hget s.net]
      · split at h
        · obtain rfl := Option.some.inj h
          refine ⟨rfl, rfl, .inl ⟨rfl, fun ch' => ?_⟩⟩
          simp only [accepted, hcall, hsend, Option.bind_some, hget s.net]
        · next c' hc' =>
            obtain rfl := Option.some.inj h
            refine ⟨rfl, rfl, .inr ⟨payload, ch, c', ⟨call, _, hcall, rfl⟩, hc', rfl, ?_⟩⟩
            intro ch'
            simp only [accepted, hcall, hsend, Option.bind_some, hget]
  · cases h

theorem queues_start (buf : ℕ) : (start buf).Queues :=
  ⟨inv_start buf, fun _ => Channel.ok_make buf, fun _ _ => rfl⟩

/-- What a step leaves of a channel: it stays in order and conserves its messages. -/
structure Keeps (s : TransportSys) (op : TransportOp) (s' : TransportSys) (ch : ℕ) : Prop where
  ok : (s'.net.channels ch).Ok s'.net.transport.buf
  conserved : (s.net.channels ch).buffer ++ s.accepted ch op =
    s.received ch op ++ (s'.net.channels ch).buffer
  unmade : s'.net.made ≤ ch → (s'.net.channels ch).buffer = []

/-- Closing channels takes nothing from them. -/
theorem Queues.keeps_closeChannels (h : s.Queues) {chs : List ℕ} (ch : ℕ)
    (hchannels : s'.net.channels = (s.net.closeChannels chs).channels)
    (hbuf : s'.net.transport.buf = s.net.transport.buf) (hmade : s'.net.made = s.net.made)
    (hput : s.accepted ch op = []) (htook : s.received ch op = []) : s.Keeps op s' ch := by
  have hclosed : (s'.net.channels ch).Ok s.net.transport.buf ∧
      (s'.net.channels ch).buffer = (s.net.channels ch).buffer := by
    rw [hchannels]
    simp only [InProc.closeChannels]
    split
    · exact ⟨(h.ok ch).close, rfl⟩
    · exact ⟨h.ok ch, rfl⟩
  refine ⟨hbuf ▸ hclosed.1, ?_, fun hle => ?_⟩
  · rw [hput, htook, hclosed.2, List.append_nil, List.nil_append]
  · rw [hclosed.2]
    exact h.unmade ch (hmade ▸ hle)

theorem Queues.keeps_of_same (h : s.Queues) (ch : ℕ) (hnet : s'.net = s.net)
    (hput : s.accepted ch op = []) (htook : s.received ch op = []) : s.Keeps op s' ch := by
  refine ⟨?_, ?_, ?_⟩
  · rw [hnet]
    exact h.ok ch
  · rw [hnet, hput, htook, List.append_nil, List.nil_append]
  · rw [hnet]
    exact h.unmade ch

/-- A step that changes one channel. -/
theorem Queues.keeps_update (h : s.Queues) (ch₀ : ℕ) (c : Channel)
    (hchannels : s'.net.channels = Function.update s.net.channels ch₀ c)
    (hbuf : s'.net.transport.buf = s.net.transport.buf) (hmade : s.net.made ≤ s'.net.made)
    (hother : ∀ ch, ch ≠ ch₀ → s.accepted ch op = [] ∧ s.received ch op = [])
    (hok : c.Ok s.net.transport.buf)
    (hconserved : (s.net.channels ch₀).buffer ++ s.accepted ch₀ op =
      s.received ch₀ op ++ c.buffer)
    (hunmade : s'.net.made ≤ ch₀ → c.buffer = []) (ch : ℕ) : s.Keeps op s' ch := by
  by_cases heq : ch = ch₀
  · subst heq
    have hc : s'.net.channels ch = c := by rw [hchannels, Function.update_self]
    exact ⟨by rw [hc, hbuf]; exact hok, by rw [hc, hconserved], by rw [hc]; exact hunmade⟩
  · have hc : s'.net.channels ch = s.net.channels ch := by
      rw [hchannels, Function.update_of_ne heq]
    obtain ⟨hput, htook⟩ := hother ch heq
    refine ⟨by rw [hc, hbuf]; exact h.ok ch, by rw [hc, hput, htook]; simp, fun hle => ?_⟩
    rw [hc]
    exact h.unmade ch (hmade.trans hle)

theorem Queues.keeps_send (h : s.Queues) {call : ℕ} (hstep : s.send call = some s') (ch : ℕ) :
    s.Keeps (.send call) s' ch := by
  obtain ⟨htransport, hmade, hsame | hput⟩ := send_channel_cases hstep
  · obtain ⟨hchannels, hnone⟩ := hsame
    have hupdate : s'.net.channels = Function.update s.net.channels ch (s.net.channels ch) := by
      rw [hchannels, Function.update_eq_self]
    refine h.keeps_update ch (s.net.channels ch) hupdate (by rw [htransport]) hmade.ge
      (fun ch' _ => ⟨hnone ch', by rw [received, hnone ch', List.flatMap_nil]⟩)
      (h.ok ch) ?_ (fun hle => h.unmade ch (hmade ▸ hle)) ch
    rw [received, hnone ch]
    simp
  · obtain ⟨payload, ch₀, c', hsending, htry, hchannels, haccepted⟩ := hput
    refine h.keeps_update ch₀ c' hchannels (by rw [htransport]) hmade.ge (fun ch' hne => ?_)
      ((h.ok ch₀).trySend htry) ?_ (fun hle => ?_) ch
    · have hnone : s.accepted ch' (.send call) = [] := by
        rw [haccepted ch', if_neg fun heq => hne heq.symm]
      exact ⟨hnone, by rw [received, hnone, List.flatMap_nil]⟩
    · rw [received, haccepted ch₀, if_pos rfl, (h.ok ch₀).append_of_trySend htry]
      simp
    · rw [hmade] at hle
      exact absurd (h.inv.sending ch₀ hsending) (Nat.not_lt.mpr hle)

theorem Queues.keeps_register (h : s.Queues) (addr : String) (ch : ℕ) :
    s.Keeps (.register addr) { s with net := (s.net.register addr).1 } ch := by
  rcases register_cases s.net addr with hsame | hnew
  · exact h.keeps_of_same ch hsame rfl rfl
  · rw [hnew]
    -- the new channel is as empty as it was before it was made
    refine h.keeps_update s.net.made .make ?_ ?_ ?_ ?_ ?_ ?_ ?_ ch
    · rfl
    · rfl
    · exact Nat.le_succ _
    · exact fun _ _ => ⟨rfl, rfl⟩
    · exact Channel.ok_make _
    · rw [h.unmade _ (Nat.le_refl _)]
      rfl
    · exact fun _ => rfl

theorem Queues.keeps_receive (h : s.Queues) (ch₀ ch : ℕ) :
    s.Keeps (.receive ch₀) { s with net := { s.net with
      channels := Function.update s.net.channels ch₀ (s.net.channels ch₀).receive } } ch := by
  have hfront := (s.net.channels ch₀).front_append_receive
  refine h.keeps_update ch₀ (s.net.channels ch₀).receive ?_ ?_ ?_ ?_ ?_ ?_ ?_ ch
  · rfl
  · rfl
  · exact Nat.le_refl _
  · exact fun ch' hne => ⟨rfl, if_neg fun heq => hne heq.symm⟩
  · exact (h.ok ch₀).receive
  · rw [received, if_pos rfl, hfront]
    exact List.append_nil _
  · intro hle
    rw [h.unmade ch₀ hle, List.append_eq_nil_iff] at hfront
    exact hfront.2

theorem Queues.keeps (h : s.Queues) (hstep : s.step op = some s') (ch : ℕ) : s.Keeps op s' ch := by
  cases op with
  | register addr =>
      obtain rfl := Option.some.inj hstep
      exact h.keeps_register addr ch
  | unregister addr =>
      obtain rfl := Option.some.inj hstep
      simp only [InProc.unregister]
      cases s.net.transport.peers[addr]? with
      | none => exact h.keeps_of_same ch rfl rfl rfl
      | some ch₀ => exact h.keeps_closeChannels ch rfl rfl rfl rfl rfl
  | close =>
      obtain rfl := Option.some.inj hstep
      simp only [InProc.close]
      split
      · exact h.keeps_of_same ch rfl rfl rfl
      · exact h.keeps_closeChannels ch rfl rfl rfl rfl rfl
  | lookup call addr payload =>
      obtain ⟨-, phase, rfl, -⟩ := lookup_cases hstep
      exact h.keeps_of_same ch rfl rfl rfl
  | send call => exact h.keeps_send hstep ch
  | receive ch₀ =>
      obtain rfl := Option.some.inj hstep
      exact h.keeps_receive ch₀ ch

theorem Queues.step (h : s.Queues) (hstep : s.step op = some s') : s'.Queues :=
  ⟨h.inv.step hstep, fun ch => (h.keeps hstep ch).ok, fun ch => (h.keeps hstep ch).unmade⟩

theorem buf_step (hstep : s.step op = some s') : s'.net.transport.buf = s.net.transport.buf := by
  cases op with
  | register addr =>
      obtain rfl := Option.some.inj hstep
      rcases register_cases s.net addr with hsame | hnew
      · rw [hsame]
      · rw [hnew]
  | unregister addr =>
      obtain rfl := Option.some.inj hstep
      simp only [InProc.unregister]
      split <;> rfl
  | close =>
      obtain rfl := Option.some.inj hstep
      simp only [InProc.close]
      split <;> rfl
  | lookup call addr payload =>
      obtain ⟨-, phase, rfl, -⟩ := lookup_cases hstep
      rfl
  | send call => rw [(send_channel_cases hstep).1]
  | receive ch =>
      obtain rfl := Option.some.inj hstep
      rfl

end TransportSys

/-- The channels of the in-process transport are queues. For every interleaving of any number of
calls and receives, with peers that come and go: the payloads of the calls of `Send` that returned
no error on a channel are, in the order in which they did, those that its receivers have got and
those still in its buffer. So none is lost, repeated or overtaken, also when the channel has been
closed; and no more than the capacity wait in the buffer. -/
theorem inproc_conserves (buf : ℕ) {ops : List TransportOp} {s : TransportSys}
    (hrun : exec TransportSys.step (.start buf) ops = some s) (ch : ℕ) :
    emitted TransportSys.step (TransportSys.accepted ch) (.start buf) ops =
        emitted TransportSys.step (TransportSys.received ch) (.start buf) ops ++
          (s.net.channels ch).buffer ∧
      (s.net.channels ch).buffer.length ≤ buf := by
  have hstart := TransportSys.queues_start buf
  have hqueues : s.Queues := invariant TransportSys.Queues (fun _ _ _ h hs => h.step hs) hrun hstart
  have hbuf : s.net.transport.buf = buf :=
    invariant (fun s : TransportSys => s.net.transport.buf = buf)
      (fun _ _ _ h hs => (TransportSys.buf_step hs).trans h) hrun rfl
  refine ⟨?_, hbuf ▸ (hqueues.ok ch).length_le⟩
  exact conserved TransportSys.Queues (fun _ _ _ h hs => h.step hs)
    (fun s _ _ h hs => (h.keeps hs ch).conserved) hrun hstart

/-- A receiver waits for the first message, the peer is unregistered with one in the buffer, and the
address gets a new channel. -/
theorem inproc_conserves_sample :
    ∃ s, exec TransportSys.step (.start 1)
        [.register "a", .receive 0, .lookup 0 "a" [1], .lookup 1 "a" [2], .send 0, .send 1,
          .unregister "a", .register "a", .receive 0] = some s ∧
      emitted TransportSys.step (TransportSys.accepted 0) (.start 1)
        [.register "a", .receive 0, .lookup 0 "a" [1], .lookup 1 "a" [2], .send 0, .send 1,
          .unregister "a", .register "a", .receive 0] =
        [[1], [2]] ++ (s.net.channels 0).buffer := by
  obtain ⟨s, hrun, hreceived⟩ : ∃ s, exec TransportSys.step (.start 1)
        [.register "a", .receive 0, .lookup 0 "a" [1], .lookup 1 "a" [2], .send 0, .send 1,
          .unregister "a", .register "a", .receive 0] = some s ∧
      emitted TransportSys.step (TransportSys.received 0) (.start 1)
        [.register "a", .receive 0, .lookup 0 "a" [1], .lookup 1 "a" [2], .send 0, .send 1,
          .unregister "a", .register "a", .receive 0] = [[1], [2]] :=
    exists_exec_of_any (by decide +kernel)
  exact ⟨s, hrun, hreceived ▸ (inproc_conserves 1 hrun 0).1⟩

end StreamFlow
