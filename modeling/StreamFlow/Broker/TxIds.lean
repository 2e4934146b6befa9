import StreamFlow.Broker.System
import StreamFlow.Broker.Sample
import StreamFlow.Foundation.Joined

/-!
# The ids of transactions

`BeginTransaction` joins the producer, the epoch and a clock reading with dashes and
stores the new transaction under this id, whatever is there. `txID_eq_iff` tells which
calls make the same id: they read the same nanosecond, and either have the same producer
and epoch, or one of them has a negative epoch whose sign the other has at the end of its
producer. `beginTransaction_keeps_iff` tells when a call does no harm to the others.
-/

namespace StreamFlow

open Run

/-- What the id of a transaction is made of. -/
structure BeginArgs where
  producerID : String
  epoch : ℤ
  now : Time

namespace BeginArgs

def txID (a : BeginArgs) : String := Broker.newTxID a.producerID a.epoch a.now

/-- The calls read the same nanosecond and have the same text before it. -/
def Collides (a a' : BeginArgs) : Prop :=
  unixNano a.now = unixNano a'.now ∧
    (a.producerID = a'.producerID ∧ a.epoch = a'.epoch ∨
      a.producerID = a'.producerID ++ "-" ∧ 0 < a.epoch ∧ a'.epoch = -a.epoch ∨
      a'.producerID = a.producerID ++ "-" ∧ 0 < a'.epoch ∧ a.epoch = -a'.epoch)

theorem Collides.txID_eq {a a' : BeginArgs} (h : a.Collides a') : a.txID = a'.txID := by
  rw [txID, txID, Broker.newTxID, Broker.newTxID, Joined.join_dash_eq_iff.mpr h.2, h.1]

/-- After the epoch of Unix time, only colliding calls make the same id. -/
theorem txID_eq_iff {a a' : BeginArgs} (h : 0 ≤ unixNano a.now) (h' : 0 ≤ unixNano a'.now) :
    a.txID = a'.txID ↔ a.Collides a' := by
  refine ⟨fun hid => ?_, Collides.txID_eq⟩
  rw [txID, txID, Broker.newTxID, Broker.newTxID, Joined.join_dash_eq_iff] at hid
  rcases hid with ⟨htext, hnano⟩ | ⟨-, hpos, hneg⟩ | ⟨-, hpos, hneg⟩
  · exact ⟨hnano, Joined.join_dash_eq_iff.mp htext⟩
  · omega
  · omega

end BeginArgs

/-- A transaction as `BeginTransaction` makes it. -/
def Transaction.Untouched (tx : Transaction) : Prop := tx.status = .opened ∧ tx.records = []

namespace Broker

/-- Every transaction of `b` is in `b'`, with its status and its staged records. -/
def KeepsTransactions (b b' : Broker) : Prop :=
  ∀ txID p tx, b.lookupTx txID = some (p, tx) →
    ∃ p' tx', b'.lookupTx txID = some (p', tx') ∧ tx'.status = tx.status ∧
      tx'.records = tx.records

theorem KeepsTransactions.refl (b : Broker) : b.KeepsTransactions b :=
  fun _ p tx h => ⟨p, tx, h, rfl, rfl⟩

/-- Entering a new transaction under `txID` replaces the one that was there. -/
theorem keepsTransactions_insert_iff {b : Broker} {txID : String} {new : Transaction}
    (hnew : new.Untouched) :
    b.KeepsTransactions { b with
        txState := b.txState.insert txID b.transactions.length
        transactions := b.transactions ++ [new] } ↔
      ∀ p tx, b.lookupTx txID = some (p, tx) → tx.Untouched := by
  have hself : lookupTx { b with
        txState := b.txState.insert txID b.transactions.length
        transactions := b.transactions ++ [new] } txID = some (b.transactions.length, new) := by
    rw [lookupTx_eq_some_iff]
    exact ⟨OrdMap.getElem?_insert_self' _ _ _, by simp⟩
  constructor
  · intro hkeep p tx htx
    obtain ⟨p', tx', htx', hstatus, hrecords⟩ := hkeep txID p tx htx
    obtain ⟨-, rfl⟩ := Prod.mk.inj (Option.some.inj (htx'.symm.trans hself))
    exact ⟨hstatus ▸ hnew.1, hrecords ▸ hnew.2⟩
  · intro huntouched id p tx htx
    by_cases hid : txID = id
    · subst hid
      obtain ⟨hstatus, hrecords⟩ := huntouched p tx htx
      exact ⟨_, new, hself, by rw [hnew.1, hstatus], by rw [hnew.2, hrecords]⟩
    · obtain ⟨hp, htx⟩ := lookupTx_eq_some_iff.mp htx
      refine ⟨p, tx, lookupTx_eq_some_iff.mpr ⟨?_, ?_⟩, rfl, rfl⟩
      · exact (OrdMap.getElem?_insert_of_ne _ _ hid).trans hp
      · rw [List.getElem?_append_left (List.getElem?_eq_some_iff.mp htx).1, htx]

end Broker

/-- A call of `BeginTransaction` leaves every transaction in the table with its status and
its staged records exactly if it fails, or if the transaction that has its id so far has got no
record and has not been closed. The id is that of every colliding call, and after the epoch of
Unix time of no other call. -/
theorem beginTransaction_keeps_iff (s : Sys) (a : BeginArgs) (createdAt : Time) :
    (s.world.broker.KeepsTransactions
        (s.beginTransaction a.producerID a.epoch a.now createdAt).world.broker ↔
      a.producerID = "" ∨ ∀ p tx,
        s.world.broker.lookupTx a.txID = some (p, tx) → tx.Untouched) ∧
    ∀ a' : BeginArgs, (a.Collides a' → a.txID = a'.txID) ∧
      (0 ≤ unixNano a.now → 0 ≤ unixNano a'.now → a.txID = a'.txID → a.Collides a') := by
  refine ⟨?_, fun a' => ⟨BeginArgs.Collides.txID_eq, fun h h' => (BeginArgs.txID_eq_iff h h').mp⟩⟩
  unfold Sys.beginTransaction Broker.beginTransaction
  by_cases hid : a.producerID = ""
  · rw [if_pos hid]
    exact iff_of_true (.refl _) (Or.inl hid)
  · rw [if_neg hid]
    exact (Broker.keepsTransactions_insert_iff ⟨rfl, rfl⟩).trans (or_iff_right hid).symm

/-- A call that reads the same nanosecond as an earlier one of the same producer and epoch
throws away its staged record, and so does one with the dash in another place. -/
theorem beginTransaction_not_keeps :
    (∃ s, exec (Sys.step sampleJson) (.init ⟨fun _ => none, .fresh ⟨true, ["d"]⟩⟩)
        [.beginTransaction "p" 1 5 5, .txProduce "p-1-5" "t" [] [] ∅] = some s ∧
      (s.world.broker.lookupTx "p-1-5").map (fun e => e.2.records) = some [⟨"t", [], [], ∅⟩] ∧
      ((s.beginTransaction "p" 1 5 5).world.broker.lookupTx "p-1-5").map
        (fun e => e.2.records) = some []) ∧
    ∃ s, exec (Sys.step sampleJson) (.init ⟨fun _ => none, .fresh ⟨true, ["d"]⟩⟩)
        [.beginTransaction "p" (-1) 5 5, .abortTransaction "p--1-5"] = some s ∧
      (s.world.broker.lookupTx "p--1-5").map (fun e => e.2.status) = some .aborted ∧
      ((s.beginTransaction "p-" 1 5 6).world.broker.lookupTx "p--1-5").map
        (fun e => e.2.status) = some .opened :=
  ⟨exists_exec_of_any (by decide +kernel), exists_exec_of_any (by decide +kernel)⟩

end StreamFlow
