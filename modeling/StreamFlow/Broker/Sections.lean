import StreamFlow.Broker.Basic

/-!
# The critical sections of the longer calls

`ProduceIdempotent` and `CommitTransaction` take the lock of the broker several
times and let go of it in between. Their locked sections are modelled one by one,
so that other calls can run between them; the calls of `Produce` and
`CreateTopic` they make are sections of their own. The remaining transaction calls
are one section each.

`txState` holds pointers: a section finds its transaction through the table, but
`CommitTransaction` keeps the pointer and uses it again at the end.
-/

namespace StreamFlow

open BigEndian

/-- The arguments of `ProduceIdempotent`. -/
structure IdemArgs where
  topicName : String
  key : Bytes
  value : Bytes
  headers : OrdMap String String
  producerID : String
  sequence : ℤ
deriving DecidableEq

namespace IdemArgs

def seqKey (a : IdemArgs) : String := a.topicName ++ "|" ++ a.producerID

def dedupKey (a : IdemArgs) : String := a.seqKey ++ "|" ++ toString a.sequence

/-- The topic, producer and sequence number that identify a message. -/
def triple (a : IdemArgs) : String × String × ℤ := (a.topicName, a.producerID, a.sequence)

theorem dedupKey_eq_of_triple_eq {a a' : IdemArgs} (h : a.triple = a'.triple) :
    a.dedupKey = a'.dedupKey := by
  obtain ⟨htopic, hrest⟩ := Prod.mk.inj h
  obtain ⟨hproducer, hsequence⟩ := Prod.mk.inj hrest
  rw [dedupKey, dedupKey, seqKey, seqKey, htopic, hproducer, hsequence]

end IdemArgs

/-- How the first section of `ProduceIdempotent` ends. -/
inductive IdemCheck where
  | cached (rec : Record)
  | outOfOrder
  | proceed
deriving DecidableEq

namespace Broker

/-- The first section of `ProduceIdempotent`. -/
def idemCheck (b : Broker) (a : IdemArgs) : IdemCheck :=
  match b.dedupCache[a.dedupKey]? with
  | some cached => .cached cached
  | none =>
      match b.producerSeq[a.seqKey]? with
      | some last => if a.sequence < last then .outOfOrder else .proceed
      | none => .proceed

/-- The last section of `ProduceIdempotent`; a missing sequence number reads as
0. -/
def idemRecord (b : Broker) (a : IdemArgs) (rec : Record) : Broker :=
  { b with
    producerSeq :=
      if (b.producerSeq[a.seqKey]?).getD 0 < a.sequence then
        b.producerSeq.insert a.seqKey a.sequence
      else b.producerSeq
    dedupCache := b.dedupCache.insert a.dedupKey rec }

theorem idemCheck_eq_cached_iff {b : Broker} {a : IdemArgs} {rec : Record} :
    b.idemCheck a = .cached rec ↔ b.dedupCache[a.dedupKey]? = some rec := by
  unfold idemCheck
  cases b.dedupCache[a.dedupKey]? with
  | some cached => simp
  | none =>
      dsimp only
      split
      · split <;> simp
      · simp

theorem dedupCache_eq_none_of_proceed {b : Broker} {a : IdemArgs}
    (h : b.idemCheck a = .proceed) : b.dedupCache[a.dedupKey]? = none := by
  cases hc : b.dedupCache[a.dedupKey]? with
  | none => rfl
  | some cached =>
      rw [idemCheck_eq_cached_iff.mpr hc] at h
      cases h

/-- The table of last sequence numbers after the last section. -/
theorem producerSeq_idemRecord (b : Broker) (a : IdemArgs) (rec : Record) (k : String) :
    (b.idemRecord a rec).producerSeq[k]? =
      if a.seqKey = k ∧ (b.producerSeq[a.seqKey]?).getD 0 < a.sequence then some a.sequence
      else b.producerSeq[k]? := by
  unfold idemRecord
  dsimp only
  by_cases hlt : (b.producerSeq[a.seqKey]?).getD 0 < a.sequence
  · rw [if_pos hlt, OrdMap.getElem?_insert]
    by_cases hk : a.seqKey = k
    · rw [if_pos hk, if_pos ⟨hk, hlt⟩]
    · rw [if_neg hk, if_neg fun hc => hk hc.1]
  · rw [if_neg hlt, if_neg fun hc => hlt hc.2]

/-- The last sequence numbers never go back. -/
theorem le_producerSeq_idemRecord {b : Broker} {k : String} {l : ℤ}
    (h : b.producerSeq[k]? = some l) (a : IdemArgs) (rec : Record) :
    ∃ l', (b.idemRecord a rec).producerSeq[k]? = some l' ∧ l ≤ l' := by
  rw [producerSeq_idemRecord]
  split
  · next hupdate =>
      rw [hupdate.1, h, Option.getD_some] at hupdate
      exact ⟨a.sequence, rfl, hupdate.2.le⟩
  · exact ⟨l, h, le_rfl⟩

/-- A positive sequence number is entered, unless there is a larger one. -/
theorem sequence_le_producerSeq_idemRecord (b : Broker) {a : IdemArgs} (hpos : 0 < a.sequence)
    (rec : Record) :
    ∃ l, (b.idemRecord a rec).producerSeq[a.seqKey]? = some l ∧ a.sequence ≤ l := by
  rw [producerSeq_idemRecord]
  split
  · exact ⟨a.sequence, rfl, le_rfl⟩
  · next hkeep =>
      cases hl : b.producerSeq[a.seqKey]? with
      | none =>
          rw [hl] at hkeep
          exact absurd ⟨rfl, hpos⟩ hkeep
      | some l =>
          rw [hl] at hkeep
          exact ⟨l, rfl, not_lt.mp fun hlt => hkeep ⟨rfl, hlt⟩⟩

theorem producerSeq_idemRecord_pos {b : Broker}
    (hb : ∀ (k : String) (l : ℤ), b.producerSeq[k]? = some l → 0 < l) {a : IdemArgs}
    {rec : Record} {k : String} {l : ℤ} (h : (b.idemRecord a rec).producerSeq[k]? = some l) :
    0 < l := by
  rw [producerSeq_idemRecord] at h
  split at h
  · next hupdate =>
      obtain rfl := Option.some.inj h
      cases hlast : b.producerSeq[a.seqKey]? with
      | none =>
          rw [hlast] at hupdate
          exact hupdate.2
      | some l =>
          rw [hlast] at hupdate
          exact (hb _ l hlast).trans hupdate.2
  · exact hb k l h

/-- The place and the contents of the transaction `txID`. -/
def lookupTx (b : Broker) (txID : String) : Option (ℕ × Transaction) :=
  match b.txState[txID]? with
  | none => none
  | some p => (b.transactions[p]?).map fun tx => (p, tx)

/-- The transaction at place `p` gets the contents `tx`. -/
def setTx (b : Broker) (p : ℕ) (tx : Transaction) : Broker :=
  { b with transactions := b.transactions.set p tx }

/-- The id of `BeginTransaction`, `fmt.Sprintf("%s-%d-%d", ...)`. -/
def newTxID (producerID : String) (epoch : ℤ) (now : Time) : String :=
  producerID ++ "-" ++ toString epoch ++ "-" ++ toString (unixNano now)

/-- `BeginTransaction`; the clock is read for the id and for the creation time. -/
def beginTransaction (b : Broker) (producerID : String) (epoch : ℤ) (now createdAt : Time) :
    Except BrokerError (Broker × String) :=
  if producerID = "" then .error .producerIDRequired
  else
    let txID := newTxID producerID epoch now
    let tx : Transaction :=
      { id := txID
        producerID := producerID
        epoch := epoch
        status := .opened
        createdAt := createdAt
        records := [] }
    .ok
      ({ b with
          txState := b.txState.insert txID b.transactions.length
          transactions := b.transactions ++ [tx] }, txID)

/-- The check that `TxProduce`, `CommitTransaction` and `AbortTransaction` share. -/
def openTx (b : Broker) (txID : String) : Except BrokerError (ℕ × Transaction) :=
  match b.lookupTx txID with
  | none => .error .txNotFound
  | some (p, tx) => if tx.status ≠ .opened then .error .txClosed else .ok (p, tx)

/-- `TxProduce`; also returns the place of the transaction. -/
def txProduce (b : Broker) (txID topic : String) (key value : Bytes)
    (headers : OrdMap String String) : Except BrokerError (Broker × ℕ) :=
  if topic = "" then .error .topicRequired
  else
    match b.openTx txID with
    | .error e => .error e
    | .ok (p, tx) =>
        let r : TxRecord := ⟨topic, key, value, cloneHeaders headers⟩
        .ok (b.setTx p { tx with records := tx.records ++ [r] }, p)

/-- The first section of `CommitTransaction`: the pointer and the copy of the
records it goes on with. -/
def commitStart (b : Broker) (txID : String) :
    Except BrokerError (Broker × ℕ × List TxRecord) :=
  match b.openTx txID with
  | .error e => .error e
  | .ok (p, tx) => .ok (b.setTx p { tx with status := .committing }, p, tx.records)

/-- The last section of `CommitTransaction`. -/
def commitFinish (b : Broker) (p : ℕ) : Broker :=
  match b.transactions[p]? with
  | none => b
  | some tx => b.setTx p { tx with status := .committed }

/-- `AbortTransaction`; also returns the place of the transaction. -/
def abortTransaction (b : Broker) (txID : String) : Except BrokerError (Broker × ℕ) :=
  match b.openTx txID with
  | .error e => .error e
  | .ok (p, tx) => .ok (b.setTx p { tx with status := .aborted, records := [] }, p)

theorem lookupTx_eq_some_iff {b : Broker} {txID : String} {p : ℕ} {tx : Transaction} :
    b.lookupTx txID = some (p, tx) ↔ b.txState[txID]? = some p ∧ b.transactions[p]? = some tx := by
  unfold lookupTx
  cases b.txState[txID]? with
  | none => simp
  | some q =>
      dsimp only
      rw [Option.map_eq_some_iff, Option.some.injEq]
      constructor
      · rintro ⟨tx', htx, heq⟩
        obtain ⟨rfl, rfl⟩ := Prod.mk.inj heq
        exact ⟨rfl, htx⟩
      · rintro ⟨rfl, htx⟩
        exact ⟨tx, htx, rfl⟩

theorem openTx_eq_ok_iff {b : Broker} {txID : String} {p : ℕ} {tx : Transaction} :
    b.openTx txID = .ok (p, tx) ↔
      b.txState[txID]? = some p ∧ b.transactions[p]? = some tx ∧ tx.status = .opened := by
  rw [← and_assoc, ← lookupTx_eq_some_iff]
  unfold openTx
  cases b.lookupTx txID with
  | none => simp
  | some found =>
      obtain ⟨q, tx'⟩ := found
      dsimp only
      by_cases hopen : tx'.status = .opened
      · rw [if_neg (not_not.mpr hopen), Except.ok.injEq, Option.some.injEq]
        exact ⟨fun h => ⟨h, by obtain ⟨-, rfl⟩ := Prod.mk.inj h; exact hopen⟩, And.left⟩
      · rw [if_pos hopen]
        constructor
        · intro h
          cases h
        · rintro ⟨h, hopen'⟩
          obtain ⟨-, rfl⟩ := Prod.mk.inj (Option.some.inj h)
          exact absurd hopen' hopen

end Broker

/-- `ConsumeReadCommitted`. -/
def World.consumeReadCommitted (json : RecordJson) (w : World) (topicName : String)
    (fromOffset max : ℤ) : Except BrokerError (List Record) :=
  w.consume json topicName fromOffset max

end StreamFlow
