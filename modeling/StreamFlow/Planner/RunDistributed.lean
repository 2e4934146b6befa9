import StreamFlow.Foundation.Lines
import StreamFlow.Foundation.RoundRobin
import StreamFlow.Foundation.Run
import Mathlib.Data.List.Flatten

/-!
# Distributed runs

`RunDistributed` sends the records of a source in turn to its workers, one JSON text on a
line, and collects what comes back. A worker decodes every line and sends it back encoded
again. The sending loop, the loop of every worker and the receiving loop of every client
run at once, and every connection can break at any time, in both directions and in the
middle of a line.

The records of a connection are at three places: collected, on the way back, and on the
way to the worker. `Conn.Flow` says that these are, in this order, the records that were
sent. When a connection breaks, what is on it stays there.
-/

namespace StreamFlow.Planner

open BigEndian Lines Run
open ByteFile (WriteOutcome)

structure PlanFragment where
  id : String
  address : String
  projections : List String

def distribute (addresses projections : List String) : List PlanFragment :=
  addresses.zipIdx.map fun a => ⟨toString a.2, a.1, projections⟩

theorem length_distribute (addresses projections : List String) :
    (distribute addresses projections).length = addresses.length := by
  rw [distribute, List.length_map, List.length_zipIdx]

def newline : UInt8 := 10

/-- `encoding/json` for the records. `unmarshal` tells what is in a new record after the
call, and whether the call has succeeded. -/
structure LineCodec (ρ : Type*) where
  marshal : ρ → Option Bytes
  unmarshal : Bytes → ρ × Bool

namespace LineCodec

variable {ρ : Type*} (c : LineCodec ρ)

/-- The bytes of `b, _ := json.Marshal(r)`. -/
def text (r : ρ) : Bytes := (c.marshal r).getD []

/-- The record that is sent for `r`: encoded and decoded again, errors ignored. -/
def normalise (r : ρ) : ρ := (c.unmarshal (c.text r)).1

/-- A record with an encoding on one line that decodes to the same record. -/
def Stable (r : ρ) : Prop :=
  newline ∉ c.text r ∧ (c.marshal r).isSome ∧ c.unmarshal (c.text r ++ [newline]) = (r, true)

/-- Decoded records consist of JSON values, so they can be encoded and decoded without a
change; `json.Marshal` writes no line breaks. -/
def Lawful : Prop := ∀ b, c.Stable (c.unmarshal b).1

variable {c} {w : Wire UInt8} {rs : List ρ}

theorem carries_write (h : w.Carries newline (rs.map c.text)) (r : ρ) (o : WriteOutcome) :
    (w.write (c.text r ++ [newline]) o).Carries newline ((rs ++ [r]).map c.text) := by
  rw [List.map_append, List.map_singleton]
  exact h.write (c.text r) o

/-- A complete line is the text of the first record on the wire. -/
theorem carries_read (h : w.Carries newline (rs.map c.text)) (hstable : ∀ r ∈ rs, c.Stable r)
    {line rest : Bytes} (hread : readLine newline w.queue = some (line, rest)) :
    ∃ r rs', rs = r :: rs' ∧ c.unmarshal line = (r, true) ∧
      Wire.Carries newline { w with queue := rest } (rs'.map c.text) := by
  have hlines : ∀ l ∈ rs.map c.text, newline ∉ l := by
    intro l hl
    obtain ⟨r, hr, rfl⟩ := List.mem_map.mp hl
    exact (hstable r hr).1
  obtain ⟨text, texts, hrs, rfl, hrest⟩ := h.read hlines hread
  obtain ⟨r, rs', rfl, rfl, rfl⟩ := List.map_eq_cons_iff.mp hrs
  exact ⟨r, rs', rfl, (hstable r List.mem_cons_self).2.2, hrest⟩

end LineCodec

/-- How the answer of a worker leaves: `Write` or `Flush` can fail after some bytes. -/
inductive EchoOutcome where
  | done
  | writeFails (written : ℕ)
  | flushFails (written : ℕ)

/-- How the bytes of an answer leave. -/
def EchoOutcome.write : EchoOutcome → WriteOutcome
  | done => .done
  | writeFails n => .failed n
  | flushFails n => .failed n

/-- The connection of one client with the loops at both ends. -/
structure Conn where
  up : Wire UInt8
  serving : Bool
  down : Wire UInt8
  receiving : Bool

namespace Conn

def opened : Conn := ⟨.empty, true, .empty, true⟩

variable {ρ : Type*}

/-- `ClientStream.Send`; the error of a buffered writer stays. -/
def send (c : LineCodec ρ) (k : Conn) (r : ρ) (o : WriteOutcome) : Conn :=
  match c.marshal r with
  | none => k
  | some b => { k with up := k.up.write (b ++ [newline]) o }

/-- One turn of `tcpProcessorServer.handle`. -/
def handle (c : LineCodec ρ) (k : Conn) (o : EchoOutcome) : Option Conn :=
  if k.serving then
    match readLine newline k.up.queue with
    | none => none
    | some (line, rest) =>
        let k := { k with up.queue := rest }
        match c.unmarshal line with
        | (_, false) => some k
        | (r, true) =>
            let b := c.text r ++ [newline]
            -- a writer that has failed before refuses the next line
            if k.down.broken then some { k with serving := false }
            else
              match o with
              | .done => some { k with down := k.down.write b .done }
              | .writeFails n =>
                  some { k with down := k.down.write b (.failed n), serving := false }
              | .flushFails n => some { k with down := k.down.write b (.failed n) }
  else none

/-- One turn of a receiving loop: the connection and the record, if the line is one. -/
def recv (c : LineCodec ρ) (k : Conn) : Option (Conn × Option ρ) :=
  if k.receiving then
    match readLine newline k.down.queue with
    | none => none
    | some (line, rest) =>
        let k := { k with down.queue := rest }
        match c.unmarshal line with
        | (_, false) => some ({ k with receiving := false }, none)
        | (r, true) => some (k, some r)
  else none

section Turns

variable {c : LineCodec ρ} {k k' : Conn}

/-- A worker reads a line and answers it if it is a record. -/
theorem exists_of_handle {o : EchoOutcome} (hstep : k.handle c o = some k') :
    ∃ line rest, readLine newline k.up.queue = some (line, rest) ∧
      k'.up = { k.up with queue := rest } ∧
      k'.down = if (c.unmarshal line).2 then
        k.down.write (c.text (c.unmarshal line).1 ++ [newline]) o.write else k.down := by
  obtain ⟨-, hstep⟩ := Option.ite_none_right_eq_some.mp hstep
  split at hstep
  · cases hstep
  · next line rest hread =>
      refine ⟨line, rest, hread, ?_⟩
      dsimp only at hstep
      split at hstep
      · next r hdecode =>
          obtain rfl := Option.some.inj hstep
          rw [hdecode]
          exact ⟨rfl, rfl⟩
      · next r hdecode =>
          rw [hdecode]
          split at hstep
          · next hbroken =>
              obtain rfl := Option.some.inj hstep
              exact ⟨rfl, (Wire.write_of_broken hbroken).symm⟩
          · cases o with
            | done =>
                obtain rfl := Option.some.inj hstep
                exact ⟨rfl, rfl⟩
            | writeFails n =>
                obtain rfl := Option.some.inj hstep
                exact ⟨rfl, rfl⟩
            | flushFails n =>
                obtain rfl := Option.some.inj hstep
                exact ⟨rfl, rfl⟩

/-- A client takes a line. -/
theorem exists_of_recv {r? : Option ρ} (hstep : k.recv c = some (k', r?)) :
    ∃ line rest, readLine newline k.down.queue = some (line, rest) ∧ k'.up = k.up ∧
      k'.down = { k.down with queue := rest } ∧
      r? = if (c.unmarshal line).2 then some (c.unmarshal line).1 else none := by
  obtain ⟨-, hstep⟩ := Option.ite_none_right_eq_some.mp hstep
  split at hstep
  · cases hstep
  · next line rest hread =>
      refine ⟨line, rest, hread, ?_⟩
      dsimp only at hstep
      split at hstep
      · next r hdecode =>
          obtain ⟨rfl, rfl⟩ := Prod.mk.inj (Option.some.inj hstep)
          rw [hdecode]
          exact ⟨rfl, rfl, rfl⟩
      · next r hdecode =>
          obtain ⟨rfl, rfl⟩ := Prod.mk.inj (Option.some.inj hstep)
          rw [hdecode]
          exact ⟨rfl, rfl, rfl⟩

end Turns

/-- The records sent are those collected, those on the way back and those on the way to
the worker. -/
def Flow (c : LineCodec ρ) (k : Conn) (sent received : List ρ) : Prop :=
  ∃ echoed waiting, sent = received ++ (echoed ++ waiting) ∧
    k.down.Carries newline (echoed.map c.text) ∧ k.up.Carries newline (waiting.map c.text)

namespace Flow

variable {c : LineCodec ρ} {k k' : Conn} {sent received : List ρ}

theorem opened (c : LineCodec ρ) : Conn.opened.Flow c [] [] :=
  ⟨[], [], rfl, Wire.carries_empty, Wire.carries_empty⟩

theorem send (h : k.Flow c sent received) {r : ρ} (hr : c.Stable r) (o : WriteOutcome) :
    (k.send c r o).Flow c (sent ++ [r]) received := by
  obtain ⟨echoed, waiting, hsent, hdown, hup⟩ := h
  obtain ⟨b, hb⟩ := Option.isSome_iff_exists.mp hr.2.1
  have hwrite := LineCodec.carries_write hup r o
  rw [LineCodec.text, hb] at hwrite
  refine ⟨echoed, waiting ++ [r], by rw [hsent]; simp only [List.append_assoc], ?_, ?_⟩
  · rw [Conn.send, hb]
    exact hdown
  · rw [Conn.send, hb]
    exact hwrite

/-- The records on the way are among those sent. -/
theorem exists_stable (h : k.Flow c sent received) (hstable : ∀ r ∈ sent, c.Stable r) :
    ∃ echoed waiting, sent = received ++ (echoed ++ waiting) ∧
      k.down.Carries newline (echoed.map c.text) ∧ (∀ r ∈ echoed, c.Stable r) ∧
      k.up.Carries newline (waiting.map c.text) ∧ ∀ r ∈ waiting, c.Stable r := by
  obtain ⟨echoed, waiting, rfl, hdown, hup⟩ := h
  refine ⟨echoed, waiting, rfl, hdown, fun r hr => ?_, hup, fun r hr => ?_⟩
  · exact hstable r (by simp [hr])
  · exact hstable r (by simp [hr])

theorem handle (h : k.Flow c sent received) (hstable : ∀ r ∈ sent, c.Stable r) {o : EchoOutcome}
    (hstep : k.handle c o = some k') : k'.Flow c sent received := by
  obtain ⟨echoed, waiting, hsent, hdown, -, hup, hwaiting⟩ := h.exists_stable hstable
  obtain ⟨line, rest, hread, hup', hdown'⟩ := exists_of_handle hstep
  obtain ⟨r, waiting', rfl, hdecode, hrest⟩ := LineCodec.carries_read hup hwaiting hread
  refine ⟨echoed ++ [r], waiting', ?_, ?_, ?_⟩
  · rw [hsent]
    simp only [List.append_assoc, List.singleton_append]
  · rw [hdown', hdecode]
    exact LineCodec.carries_write hdown r o.write
  · rw [hup']
    exact hrest

theorem recv (h : k.Flow c sent received) (hstable : ∀ r ∈ sent, c.Stable r) {r? : Option ρ}
    (hstep : k.recv c = some (k', r?)) : k'.Flow c sent (received ++ r?.toList) := by
  obtain ⟨echoed, waiting, hsent, hdown, hechoed, hup, -⟩ := h.exists_stable hstable
  obtain ⟨line, rest, hread, hup', hdown', rfl⟩ := exists_of_recv hstep
  obtain ⟨r, echoed', rfl, hdecode, hrest⟩ := LineCodec.carries_read hdown hechoed hread
  refine ⟨echoed', waiting, ?_, ?_, ?_⟩
  · rw [hsent, hdecode, if_pos rfl]
    simp only [Option.toList_some, List.append_assoc, List.cons_append, List.nil_append]
  · rw [hdown']
    exact hrest
  · rw [hup']
    exact hup

end Flow

end Conn

/-- `RunDistributed` at work: the records taken from the source, the connections, and the
collected records with the number of the client each has come from. -/
structure Dist (ρ : Type*) where
  taken : List ρ
  conns : ℕ → Conn
  outputs : List (ℕ × ρ)

inductive DistStep (ρ : Type*) where
  /-- The next record of the source is sent. -/
  | send (r : ρ) (o : WriteOutcome)
  | handle (j : ℕ) (o : EchoOutcome)
  /-- The worker cannot read any more. -/
  | handleStops (j : ℕ)
  | recv (j : ℕ)
  /-- The client cannot read any more. -/
  | recvStops (j : ℕ)

namespace Dist

variable {ρ : Type*}

def start : Dist ρ := ⟨[], fun _ => .opened, []⟩

def setConn (s : Dist ρ) (j : ℕ) (k : Conn) : Dist ρ :=
  { s with conns := Function.update s.conns j k }

def take (s : Dist ρ) (r : ρ) : Dist ρ := { s with taken := s.taken ++ [r] }

def collect (s : Dist ρ) (j : ℕ) (r : ρ) : Dist ρ := { s with outputs := s.outputs ++ [(j, r)] }

/-- A step of one of the loops, with `m` clients. -/
def step (c : LineCodec ρ) (m : ℕ) (s : Dist ρ) : DistStep ρ → Option (Dist ρ)
  | .send r o =>
      let j := s.taken.length % m
      some ((s.setConn j ((s.conns j).send c (c.normalise r) o)).take r)
  | .handle j o =>
      if j < m then ((s.conns j).handle c o).map fun k => s.setConn j k else none
  | .handleStops j =>
      if j < m then some (s.setConn j { s.conns j with serving := false }) else none
  | .recv j =>
      if j < m then
        match (s.conns j).recv c with
        | none => none
        | some (k, none) => some (s.setConn j k)
        | some (k, some r) => some ((s.setConn j k).collect j r)
      else none
  | .recvStops j =>
      if j < m then some (s.setConn j { s.conns j with receiving := false }) else none

/-- What has come from the worker `j`. -/
def received (s : Dist ρ) (j : ℕ) : List ρ :=
  (s.outputs.filter fun e => decide (e.1 = j)).map Prod.snd

/-- The records sent to the worker `j`. -/
def sent (c : LineCodec ρ) (m : ℕ) (s : Dist ρ) (j : ℕ) : List ρ :=
  RoundRobin.hand m (s.taken.map c.normalise) j

structure Sound (c : LineCodec ρ) (m : ℕ) (s : Dist ρ) : Prop where
  label : ∀ e ∈ s.outputs, e.1 < m
  flow : ∀ j < m, (s.conns j).Flow c (s.sent c m j) (s.received j)

variable {c : LineCodec ρ} {m : ℕ} {s s' : Dist ρ}

theorem sound_start (c : LineCodec ρ) (m : ℕ) : (start : Dist ρ).Sound c m :=
  ⟨fun _ he => absurd he List.not_mem_nil, fun _ _ => Conn.Flow.opened c⟩

theorem sent_take (s : Dist ρ) (r : ρ) (i : ℕ) :
    (s.take r).sent c m i =
      if s.taken.length % m = i then s.sent c m i ++ [c.normalise r] else s.sent c m i := by
  rw [sent, take, List.map_append, List.map_singleton, RoundRobin.hand_concat, List.length_map]
  rfl

theorem received_collect (s : Dist ρ) (j : ℕ) (r : ρ) (i : ℕ) :
    (s.collect j r).received i = if j = i then s.received i ++ [r] else s.received i := by
  rw [received, collect, List.filter_append, List.map_append, List.filter_singleton, received]
  by_cases hij : j = i
  · simp [hij]
  · simp [hij]

theorem stable_of_mem_sent (hc : c.Lawful) {j : ℕ} {r : ρ} (hr : r ∈ s.sent c m j) :
    c.Stable r := by
  obtain ⟨p, -, hp⟩ := List.mem_filterMap.mp hr
  obtain ⟨r', -, rfl⟩ := List.mem_map.mp (List.mem_of_getElem? hp)
  exact hc _

/-- A step that changes one connection. -/
theorem Sound.update (h : s.Sound c m) {j : ℕ} {k : Conn}
    (hconns : s'.conns = Function.update s.conns j k) (hlabel : ∀ e ∈ s'.outputs, e.1 < m)
    (hsent : ∀ i ≠ j, s'.sent c m i = s.sent c m i)
    (hreceived : ∀ i ≠ j, s'.received i = s.received i)
    (hk : k.Flow c (s'.sent c m j) (s'.received j)) : s'.Sound c m := by
  refine ⟨hlabel, fun i hi => ?_⟩
  rw [hconns]
  by_cases hij : i = j
  · subst hij
    rwa [Function.update_self]
  · rw [Function.update_of_ne hij, hsent i hij, hreceived i hij]
    exact h.flow i hi

theorem Sound.setConn (h : s.Sound c m) {j : ℕ} {k : Conn}
    (hk : k.Flow c (s.sent c m j) (s.received j)) : (s.setConn j k).Sound c m :=
  h.update rfl h.label (fun _ _ => rfl) (fun _ _ => rfl) hk

theorem Sound.send (h : s.Sound c m) (hc : c.Lawful) (hm : 0 < m) (r : ρ) (o : WriteOutcome) :
    ((s.setConn (s.taken.length % m)
      ((s.conns (s.taken.length % m)).send c (c.normalise r) o)).take r).Sound c m := by
  refine h.update rfl h.label (fun i hi => ?_) (fun _ _ => rfl) ?_
  · rw [sent_take]
    exact if_neg hi.symm
  · rw [sent_take]
    change Conn.Flow c _ (if s.taken.length % m = s.taken.length % m then _ else _) _
    rw [if_pos rfl]
    exact (h.flow _ (Nat.mod_lt _ hm)).send (hc _) o

theorem Sound.collect (h : s.Sound c m) {j : ℕ} (hj : j < m) {k : Conn} {r : ρ}
    (hk : k.Flow c (s.sent c m j) (s.received j ++ [r])) :
    ((s.setConn j k).collect j r).Sound c m := by
  refine h.update rfl ?_ (fun _ _ => rfl) (fun i hi => ?_) ?_
  · intro e he
    rcases List.mem_append.mp he with he | he
    · exact h.label e he
    · rw [List.mem_singleton.mp he]
      exact hj
  · rw [received_collect]
    exact if_neg hi.symm
  · rw [received_collect, if_pos rfl]
    exact hk

theorem Sound.step (h : s.Sound c m) (hc : c.Lawful) (hm : 0 < m) {a : DistStep ρ}
    (hstep : s.step c m a = some s') : s'.Sound c m := by
  cases a with
  | send r o =>
      obtain rfl := Option.some.inj hstep
      exact h.send hc hm r o
  | handle j o =>
      obtain ⟨hj, hstep⟩ := Option.ite_none_right_eq_some.mp hstep
      obtain ⟨k, hk, rfl⟩ := Option.map_eq_some_iff.mp hstep
      exact h.setConn ((h.flow j hj).handle (fun r hr => stable_of_mem_sent hc hr) hk)
  | handleStops j =>
      obtain ⟨hj, hstep⟩ := Option.ite_none_right_eq_some.mp hstep
      obtain rfl := Option.some.inj hstep
      exact h.setConn (h.flow j hj)
  | recv j =>
      obtain ⟨hj, hstep⟩ := Option.ite_none_right_eq_some.mp hstep
      have hstable : ∀ r ∈ s.sent c m j, c.Stable r := fun r hr => stable_of_mem_sent hc hr
      split at hstep
      · cases hstep
      · next k hk =>
          obtain rfl := Option.some.inj hstep
          have hflow := (h.flow j hj).recv hstable hk
          rw [Option.toList_none, List.append_nil] at hflow
          exact h.setConn hflow
      · next k r hk =>
          obtain rfl := Option.some.inj hstep
          exact h.collect hj ((h.flow j hj).recv hstable hk)
  | recvStops j =>
      obtain ⟨hj, hstep⟩ := Option.ite_none_right_eq_some.mp hstep
      obtain rfl := Option.some.inj hstep
      exact h.setConn (h.flow j hj)

/-- What has come back from a worker is a prefix of what was sent to it. -/
theorem Sound.received_prefix_sent (h : s.Sound c m) {j : ℕ} (hj : j < m) :
    s.received j <+: s.sent c m j := by
  obtain ⟨echoed, waiting, hsent, -, -⟩ := h.flow j hj
  exact ⟨echoed ++ waiting, hsent.symm⟩

theorem Sound.subperm (h : s.Sound c m) (hm : 0 < m) :
    (s.outputs.map Prod.snd).Subperm (s.taken.map c.normalise) := by
  have houtputs : ((List.range m).flatMap s.received).Perm (s.outputs.map Prod.snd) := by
    have hperm := (RoundRobin.flatMap_filter_perm Prod.fst m s.outputs h.label).map Prod.snd
    rwa [List.map_flatMap] at hperm
  have hsub : ((List.range m).flatMap s.received).Sublist
      ((List.range m).flatMap (s.sent c m)) :=
    .flatMap_right _ fun j hj => (h.received_prefix_sent (List.mem_range.mp hj)).sublist
  exact houtputs.symm.subperm.trans
    (hsub.subperm.trans (RoundRobin.flatMap_hand_perm hm (s.taken.map c.normalise)).subperm)

end Dist

/-- Distributed runs deliver at most once and in order per worker. For every non-empty list
of addresses and every interleaving of the sending loop, the workers and the receiving
loops, with connections that break at any time: the collected records are, as a multiset,
some of the normalised records taken from the source, and the `n`-th record from the `j`-th
of `m` workers is the one at position `j + m * n` of the source. -/
theorem runDistributed_atMostOnce {ρ : Type*} (c : LineCodec ρ) (hc : c.Lawful)
    {addrs : List String} (haddrs : addrs ≠ []) {steps : List (DistStep ρ)} {s : Dist ρ}
    (hrun : exec (Dist.step c (distribute addrs []).length) .start steps = some s) :
    (s.outputs.map Prod.snd).Subperm (s.taken.map c.normalise) ∧
      ∀ j < addrs.length, ∀ (n : ℕ) (r : ρ), (s.received j)[n]? = some r →
        (s.taken.map c.normalise)[j + addrs.length * n]? = some r := by
  have hm : 0 < addrs.length := List.length_pos_iff.mpr haddrs
  rw [length_distribute] at hrun
  have hsound : s.Sound c addrs.length := invariant (fun s => s.Sound c addrs.length)
    (fun _ _ _ h hs => h.step hc hm hs) hrun (Dist.sound_start c addrs.length)
  refine ⟨hsound.subperm hm, fun j hj n r hr => ?_⟩
  obtain ⟨rest, hrest⟩ := hsound.received_prefix_sent hj
  obtain ⟨hlt, -⟩ := List.getElem?_eq_some_iff.mp hr
  rw [← RoundRobin.getElem?_hand hj, ← Dist.sent, ← hrest, List.getElem?_append_left hlt, hr]

/-- The JSON texts of two records, the empty one and the nil one. -/
def sampleCodec : LineCodec Bool where
  marshal r := some (if r then [123, 125] else [110, 117, 108, 108])
  unmarshal b :=
    if b = [123, 125] ∨ b = [123, 125, newline] then (true, true)
    else if b = [110, 117, 108, 108] ∨ b = [110, 117, 108, 108, newline] then (false, true)
    else (false, false)

theorem sampleCodec_lawful : sampleCodec.Lawful := by
  intro b
  cases (sampleCodec.unmarshal b).1 with
  | true => exact ⟨by decide, by decide, by decide⟩
  | false => exact ⟨by decide, by decide, by decide⟩

/-- Two workers; the answer of the first breaks off, and the second one is still read. -/
def DistStep.sample : List (DistStep Bool) :=
  [.send true .done, .send false .done, .send true .done, .handle 1 .done, .handle 0 .done,
    .recv 1, .send true (.failed 2), .handle 0 (.flushFails 1), .recv 0, .recvStops 0,
    .handleStops 1, .send false .done]

theorem runDistributed_sample :
    ∃ s, exec (Dist.step sampleCodec (distribute ["a", "b"] []).length) .start DistStep.sample =
        some s ∧
      s.outputs = [(1, false), (0, true)] ∧
      (s.outputs.map Prod.snd).Subperm (s.taken.map sampleCodec.normalise) := by
  obtain ⟨s, hrun, houtputs⟩ : ∃ s, exec (Dist.step sampleCodec (distribute ["a", "b"] []).length)
      .start DistStep.sample = some s ∧ s.outputs = [(1, false), (0, true)] :=
    exists_exec_of_any (by decide +kernel)
  exact ⟨s, hrun, houtputs,
    (runDistributed_atMostOnce sampleCodec sampleCodec_lawful (by decide) hrun).1⟩

end StreamFlow.Planner
