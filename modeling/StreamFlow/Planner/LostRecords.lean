import Mathlib.Algebra.BigOperators.Group.Finset.Basic
import StreamFlow.Planner.RunDistributed

/-!
# Records that are lost

`RunDistributed` does not look at the error of `Send`, and its own error is that of a failed dial
alone. A record is lost when the line that carries it, to the worker or back, is not handed over
as a whole, or when the worker does not read it. The records on the way are counted by their line
breaks: a step keeps the number of records that are collected or on the way in step with those
taken from the source exactly if it hands its line over.
-/

namespace StreamFlow.Planner

open BigEndian Lines Run
open ByteFile (WriteOutcome)

variable {ρ : Type*}

inductive RunError where
  | dial (address : String)
deriving DecidableEq, Repr

/-- What `RunDistributed` returns: the error of the first dial that fails, or what has been
collected. -/
def runResult (dialed : PlanFragment → Bool) (frags : List PlanFragment) (s : Dist ρ) :
    List ρ × Option RunError :=
  match frags.find? fun f => !dialed f with
  | some f => ([], some (.dial f.address))
  | none => (s.outputs.map Prod.snd, none)

theorem runResult_of_nil {dialed : PlanFragment → Bool} {frags : List PlanFragment} {s : Dist ρ}
    (h : (runResult dialed frags s).2 = none) :
    (runResult dialed frags s).1 = s.outputs.map Prod.snd := by
  unfold runResult at h ⊢
  split at h
  · cases h
  · rfl

namespace Conn

/-- The number of whole lines on a connection, in both directions. -/
def onTheWay (k : Conn) : ℕ := k.up.queue.count newline + k.down.queue.count newline

variable {c : LineCodec ρ} {k k' : Conn} {sent received : List ρ}

theorem onTheWay_send {r : ρ} (hr : c.Stable r) (o : WriteOutcome) :
    (k.send c r o).onTheWay =
      k.onTheWay + if k.up.Takes (c.text r ++ [newline]) o then 1 else 0 := by
  obtain ⟨b, hb⟩ := Option.isSome_iff_exists.mp hr.2.1
  have htext : c.text r = b := by rw [LineCodec.text, hb, Option.getD_some]
  have hline : newline ∉ b := htext ▸ hr.1
  have hsend : k.send c r o = { k with up := k.up.write (b ++ [newline]) o } := by
    rw [send, hb]
  rw [hsend, htext, onTheWay, Wire.count_write hline, onTheWay]
  dsimp only
  omega

/-- A line goes from one direction to the other, unless it is not handed over. -/
theorem onTheWay_handle (h : k.Flow c sent received) (hstable : ∀ r ∈ sent, c.Stable r)
    {o : EchoOutcome} (hstep : k.handle c o = some k') :
    ∃ line rest, readLine newline k.up.queue = some (line, rest) ∧
      k'.onTheWay + 1 = k.onTheWay +
        if k.down.Takes (c.text (c.unmarshal line).1 ++ [newline]) o.write then 1 else 0 := by
  obtain ⟨echoed, waiting, -, -, -, hup, hwaiting⟩ := h.exists_stable hstable
  obtain ⟨line, rest, hread, hup', hdown'⟩ := exists_of_handle hstep
  obtain ⟨r, waiting', rfl, hdecode, -⟩ := LineCodec.carries_read hup hwaiting hread
  have hline : newline ∉ c.text r := (hwaiting r List.mem_cons_self).1
  refine ⟨line, rest, hread, ?_⟩
  rw [hdecode, if_pos rfl] at hdown'
  rw [onTheWay, hup', hdown', Wire.count_write hline, onTheWay, count_of_readLine hread, hdecode]
  dsimp only
  omega

theorem onTheWay_recv (h : k.Flow c sent received) (hstable : ∀ r ∈ sent, c.Stable r)
    {r? : Option ρ} (hstep : k.recv c = some (k', r?)) :
    r?.isSome ∧ k.onTheWay = k'.onTheWay + 1 := by
  obtain ⟨echoed, waiting, -, hdown, hechoed, -, -⟩ := h.exists_stable hstable
  obtain ⟨line, rest, hread, hup', hdown', rfl⟩ := exists_of_recv hstep
  obtain ⟨r, echoed', rfl, hdecode, -⟩ := LineCodec.carries_read hdown hechoed hread
  rw [hdecode]
  refine ⟨rfl, ?_⟩
  rw [onTheWay, count_of_readLine hread, onTheWay, hup', hdown', Nat.add_assoc]

end Conn

namespace Dist

/-- A step that writes a line hands all of it over. -/
def Delivers (c : LineCodec ρ) (m : ℕ) (s : Dist ρ) : DistStep ρ → Prop
  | .send r o =>
      (s.conns (s.taken.length % m)).up.Takes (c.text (c.normalise r) ++ [newline]) o
  | .handle j o =>
      match readLine newline (s.conns j).up.queue with
      | none => True
      | some (line, _) =>
          (s.conns j).down.Takes (c.text (c.unmarshal line).1 ++ [newline]) o.write
  | .handleStops _ => True
  | .recv _ => True
  | .recvStops _ => True

instance (c : LineCodec ρ) (m : ℕ) (s : Dist ρ) : ∀ a, Decidable (s.Delivers c m a)
  | .send r o => inferInstanceAs (Decidable ((s.conns (s.taken.length % m)).up.Takes
      (c.text (c.normalise r) ++ [newline]) o))
  | .handle j o =>
      match hread : readLine newline (s.conns j).up.queue with
      | none => isTrue (by simp [Delivers, hread])
      | some (line, _) =>
          decidable_of_iff
            ((s.conns j).down.Takes (c.text (c.unmarshal line).1 ++ [newline]) o.write)
            (by simp [Delivers, hread])
  | .handleStops _ => isTrue trivial
  | .recv _ => isTrue trivial
  | .recvStops _ => isTrue trivial

/-- The records that are collected or on the way. -/
def present (m : ℕ) (s : Dist ρ) : ℕ :=
  s.outputs.length + ∑ j ∈ Finset.range m, (s.conns j).onTheWay

variable {c : LineCodec ρ} {m : ℕ} {s s' : Dist ρ}

theorem present_setConn {j : ℕ} (hj : j < m) (k : Conn) :
    (s.setConn j k).present m + (s.conns j).onTheWay = s.present m + k.onTheWay := by
  have hupdate : ∀ f : ℕ → Conn, (∑ i ∈ Finset.range m, (f i).onTheWay) =
      (f j).onTheWay + ∑ i ∈ (Finset.range m).erase j, (f i).onTheWay := fun f =>
    (Finset.add_sum_erase _ (fun i => (f i).onTheWay) (Finset.mem_range.mpr hj)).symm
  have hother : (∑ i ∈ (Finset.range m).erase j, (Function.update s.conns j k i).onTheWay) =
      ∑ i ∈ (Finset.range m).erase j, (s.conns i).onTheWay :=
    Finset.sum_congr rfl fun i hi => by rw [Function.update_of_ne (Finset.ne_of_mem_erase hi)]
  have hconns : (s.setConn j k).conns = Function.update s.conns j k := rfl
  have houtputs : (s.setConn j k).outputs = s.outputs := rfl
  rw [present, present, hupdate, hupdate s.conns, hconns, houtputs, hother, Function.update_self]
  omega

theorem present_setConn_of_eq {j : ℕ} (hj : j < m) {k : Conn}
    (hk : k.onTheWay = (s.conns j).onTheWay) : (s.setConn j k).present m = s.present m := by
  have hset := s.present_setConn hj k
  rw [hk] at hset
  exact Nat.add_right_cancel hset

theorem present_start (m : ℕ) : (start : Dist ρ).present m = (start : Dist ρ).taken.length := by
  simp [present, start, Conn.onTheWay, Conn.opened, Wire.empty]

theorem length_taken_take (s : Dist ρ) (r : ρ) :
    (s.take r).taken.length = s.taken.length + 1 := by
  rw [take, List.length_append, List.length_singleton]

@[simp] theorem present_take (s : Dist ρ) (r : ρ) : (s.take r).present m = s.present m := rfl

theorem present_collect (s : Dist ρ) (j : ℕ) (r : ρ) :
    (s.collect j r).present m = s.present m + 1 := by
  have hconns : (s.collect j r).conns = s.conns := rfl
  have houtputs : (s.collect j r).outputs.length = s.outputs.length + 1 := by
    rw [collect, List.length_append, List.length_singleton]
  rw [present, present, hconns, houtputs]
  omega

theorem present_send (hc : c.Lawful) (hm : 0 < m) (s : Dist ρ) (r : ρ) (o : WriteOutcome) :
    (s.setConn (s.taken.length % m)
        ((s.conns (s.taken.length % m)).send c (c.normalise r) o)).present m +
      (if s.Delivers c m (.send r o) then 0 else 1) = s.present m + 1 := by
  have hr : c.Stable (c.normalise r) := hc (c.text r)
  have hset := s.present_setConn (Nat.mod_lt s.taken.length hm)
    ((s.conns (s.taken.length % m)).send c (c.normalise r) o)
  have hdelivers : s.Delivers c m (.send r o) ↔
      (s.conns (s.taken.length % m)).up.Takes (c.text (c.normalise r) ++ [newline]) o := .rfl
  rw [Conn.onTheWay_send hr] at hset
  simp only [hdelivers]
  split at hset
  · next htakes =>
      rw [if_pos htakes]
      omega
  · next htakes =>
      rw [if_neg htakes]
      omega

theorem present_handle (h : s.Sound c m) (hc : c.Lawful) {j : ℕ} (hj : j < m) {o : EchoOutcome}
    {k : Conn} (hk : (s.conns j).handle c o = some k) :
    (s.setConn j k).present m + (if s.Delivers c m (.handle j o) then 0 else 1) =
      s.present m := by
  obtain ⟨line, rest, hread, hway⟩ :=
    Conn.onTheWay_handle (h.flow j hj) (fun r hr => stable_of_mem_sent hc hr) hk
  have hset := s.present_setConn hj k
  have hdelivers : s.Delivers c m (.handle j o) ↔
      (s.conns j).down.Takes (c.text (c.unmarshal line).1 ++ [newline]) o.write := by
    rw [Delivers, hread]
  simp only [hdelivers]
  split at hway
  · next htakes =>
      rw [if_pos htakes]
      omega
  · next htakes =>
      rw [if_neg htakes]
      omega

/-- What a step does to the number of records: a record that is taken from the source is added,
and a line that is not handed over is missing. -/
theorem present_step (h : s.Sound c m) (hc : c.Lawful) (hm : 0 < m) {a : DistStep ρ}
    (hstep : s.step c m a = some s') :
    s'.present m + s.taken.length + (if s.Delivers c m a then 0 else 1) =
      s.present m + s'.taken.length := by
  cases a with
  | send r o =>
      obtain rfl := Option.some.inj hstep
      have hsend := s.present_send hc hm r o
      rw [present_take, length_taken_take]
      change _ = s.present m + (s.taken.length + 1)
      omega
  | handle j o =>
      obtain ⟨hj, hstep⟩ := Option.ite_none_right_eq_some.mp hstep
      obtain ⟨k, hk, rfl⟩ := Option.map_eq_some_iff.mp hstep
      have hhandle := present_handle h hc hj hk
      change _ = s.present m + s.taken.length
      omega
  | handleStops j =>
      obtain ⟨hj, hstep⟩ := Option.ite_none_right_eq_some.mp hstep
      obtain rfl := Option.some.inj hstep
      have hdelivers : s.Delivers c m (.handleStops j) := trivial
      rw [if_pos hdelivers]
      exact congrArg (· + s.taken.length) (present_setConn_of_eq hj rfl)
  | recv j =>
      obtain ⟨hj, hstep⟩ := Option.ite_none_right_eq_some.mp hstep
      have hdelivers : s.Delivers c m (.recv j) := trivial
      have hstable : ∀ r ∈ s.sent c m j, c.Stable r := fun r hr => stable_of_mem_sent hc hr
      rw [if_pos hdelivers]
      split at hstep
      · cases hstep
      · next k hk => cases (Conn.onTheWay_recv (h.flow j hj) hstable hk).1
      · next k r hk =>
          obtain rfl := Option.some.inj hstep
          have hset := s.present_setConn hj k
          have hrecv := (Conn.onTheWay_recv (h.flow j hj) hstable hk).2
          rw [present_collect]
          change _ = s.present m + s.taken.length
          omega
  | recvStops j =>
      obtain ⟨hj, hstep⟩ := Option.ite_none_right_eq_some.mp hstep
      obtain rfl := Option.some.inj hstep
      have hdelivers : s.Delivers c m (.recvStops j) := trivial
      rw [if_pos hdelivers]
      exact congrArg (· + s.taken.length) (present_setConn_of_eq hj rfl)

/-- No record is present twice. -/
structure Counted (c : LineCodec ρ) (m : ℕ) (s : Dist ρ) : Prop where
  sound : s.Sound c m
  le : s.present m ≤ s.taken.length

theorem Counted.step (h : s.Counted c m) (hc : c.Lawful) (hm : 0 < m) {a : DistStep ρ}
    (hstep : s.step c m a = some s') : s'.Counted c m := by
  refine ⟨h.sound.step hc hm hstep, ?_⟩
  have hpresent := present_step h.sound hc hm hstep
  have hle := h.le
  omega

/-- Nothing is missing after a step if and only if nothing was before and the step hands its line
over. -/
theorem Counted.eq_iff (h : s.Counted c m) (hc : c.Lawful) (hm : 0 < m) {a : DistStep ρ}
    (hstep : s.step c m a = some s') :
    s'.present m = s'.taken.length ↔ s.present m = s.taken.length ∧ s.Delivers c m a := by
  have hpresent := present_step h.sound hc hm hstep
  have hle := h.le
  split at hpresent
  · next hdelivers =>
      rw [and_iff_left hdelivers]
      omega
  · next hdelivers =>
      refine iff_of_false (fun heq => ?_) fun hboth => hdelivers hboth.2
      omega

theorem counted_start (c : LineCodec ρ) (m : ℕ) : (start : Dist ρ).Counted c m :=
  ⟨sound_start c m, (present_start m).le⟩

theorem Counted.run (hc : c.Lawful) (hm : 0 < m) {steps : List (DistStep ρ)}
    (hrun : exec (Dist.step c m) .start steps = some s) : s.Counted c m :=
  invariant (fun s => s.Counted c m) (fun _ _ _ h hs => h.step hc hm hs) hrun (counted_start c m)

/-- Nothing is missing after a run if and only if every line was handed over. -/
theorem present_eq_iff_guarded (hc : c.Lawful) (hm : 0 < m) {steps : List (DistStep ρ)}
    (hrun : exec (Dist.step c m) .start steps = some s) :
    s.present m = s.taken.length ↔ Guarded (Dist.step c m) (Dist.Delivers c m) .start steps := by
  have hiff := iff_guarded (fun s => s.Counted c m) (fun s => s.present m = s.taken.length)
    (fun _ _ _ h hs => h.step hc hm hs) (fun _ _ _ h hs => h.eq_iff hc hm hs) hrun
    (counted_start c m)
  rwa [and_iff_right (present_start m)] at hiff

/-- All records are collected if and only if none is missing and none is on the way. -/
theorem Counted.perm_iff (h : s.Counted c m) (hm : 0 < m) :
    (s.outputs.map Prod.snd).Perm (s.taken.map c.normalise) ↔
      s.present m = s.taken.length ∧ ∀ j < m, (s.conns j).onTheWay = 0 := by
  have hle := h.le
  have hzero : (∑ j ∈ Finset.range m, (s.conns j).onTheWay) = 0 ↔
      ∀ j < m, (s.conns j).onTheWay = 0 := by
    simp [Finset.sum_eq_zero_iff]
  rw [← hzero]
  constructor
  · intro hperm
    have hlength := hperm.length_eq
    rw [List.length_map, List.length_map] at hlength
    rw [present] at hle ⊢
    omega
  · rintro ⟨hpresent, hnone⟩
    refine (h.sound.subperm hm).perm_of_length_le ?_
    rw [present, hnone] at hpresent
    rw [List.length_map, List.length_map]
    omega

end Dist

/-- If every echo is received and `RunDistributed` reports no error, it returns all records of the
source if and only if each `Send` and each worker handed its whole line over, and the workers have
read all lines. -/
theorem runDistributed_complete_iff (c : LineCodec ρ) (hc : c.Lawful)
    {addrs : List String} (haddrs : addrs ≠ []) {dialed : PlanFragment → Bool}
    {steps : List (DistStep ρ)} {s : Dist ρ}
    (hrun : exec (Dist.step c (distribute addrs []).length) .start steps = some s)
    (hechoes : ∀ j < addrs.length, readLine newline (s.conns j).down.queue = none)
    (hnil : (runResult dialed (distribute addrs []) s).2 = none) :
    (runResult dialed (distribute addrs []) s).1.Perm (s.taken.map c.normalise) ↔
      Guarded (Dist.step c (distribute addrs []).length)
          (Dist.Delivers c (distribute addrs []).length) .start steps ∧
        ∀ j < addrs.length, readLine newline (s.conns j).up.queue = none := by
  have hm : 0 < addrs.length := List.length_pos_iff.mpr haddrs
  rw [length_distribute] at hrun ⊢
  rw [runResult_of_nil hnil, (Dist.Counted.run hc hm hrun).perm_iff hm,
    Dist.present_eq_iff_guarded hc hm hrun]
  refine and_congr_right fun _ => forall₂_congr fun j hj => ?_
  have hdown := readLine_eq_none_iff.mp (hechoes j hj)
  rw [readLine_eq_none_iff, Conn.onTheWay, hdown, Nat.add_zero]

/-- Two workers; the second `Send` reports an error after its whole line has left. -/
theorem runDistributed_complete_sample :
    ∃ s, exec (Dist.step sampleCodec (distribute ["a", "b"] []).length) .start
          [.send true .done, .send false (.failed 5), .handle 0 .done, .handle 1 .done, .recv 1,
            .recv 0] = some s ∧
      (∀ j < ["a", "b"].length, readLine newline (s.conns j).down.queue = none) ∧
      (runResult (fun _ => true) (distribute ["a", "b"] []) s).2 = none ∧
      (runResult (fun _ => true) (distribute ["a", "b"] []) s).1.Perm
        (s.taken.map sampleCodec.normalise) := by
  obtain ⟨s, hrun, hechoes, hread, hnil⟩ : ∃ s,
      exec (Dist.step sampleCodec (distribute ["a", "b"] []).length) .start
          [.send true .done, .send false (.failed 5), .handle 0 .done, .handle 1 .done, .recv 1,
            .recv 0] = some s ∧
      (∀ j < ["a", "b"].length, readLine newline (s.conns j).down.queue = none) ∧
      (∀ j < ["a", "b"].length, readLine newline (s.conns j).up.queue = none) ∧
      (runResult (fun _ => true) (distribute ["a", "b"] []) s).2 = none :=
    exists_exec_of_any (by decide +kernel)
  exact ⟨s, hrun, hechoes, hnil, (runDistributed_complete_iff sampleCodec sampleCodec_lawful
    (by decide) hrun hechoes hnil).mpr ⟨by decide +kernel, hread⟩⟩

/-- The only record is lost in a `Send` that fails, and no error is returned. -/
theorem runDistributed_loses_record :
    ∃ s, exec (Dist.step sampleCodec (distribute ["a"] []).length) .start
          [.send true (.failed 0)] = some s ∧
      (∀ j < ["a"].length, readLine newline (s.conns j).down.queue = none) ∧
      runResult (fun _ => true) (distribute ["a"] []) s = ([], none) ∧
      s.taken.map sampleCodec.normalise = [true] :=
  exists_exec_of_any (by decide +kernel)

end StreamFlow.Planner
