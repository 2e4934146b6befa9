import StreamFlow.Broker.Sections
import StreamFlow.Foundation.Run

/-!
# Calls running at once

The broker together with the calls that are under way. Every critical section is
one step, so a run of `Sys.step` is an interleaving of the sections of any number of
calls. A call is known by a number, and keeps its local variables in `idem` or in
`commits` until it has returned.

Three histories record what cannot be read off the broker: which call wrote each
record of the logs, which records were staged by a `TxProduce` that returned
nil, and which transactions were aborted.
-/

namespace StreamFlow

open BigEndian

/-- Where a call of `ProduceIdempotent` is. -/
inductive IdemPhase where
  | checked
  | produced (rec : Record)
  | done (rec : Record) (duplicate : Bool)
  | failed (e : BrokerError)
deriving DecidableEq

structure IdemCall where
  args : IdemArgs
  phase : IdemPhase
deriving DecidableEq

/-- Where a call of `CommitTransaction` is: before the `CreateTopic` of the next
record (or before the last section), before its `Produce`, or returned. -/
inductive CommitPhase where
  | creating
  | producing
  | done
  | failed (e : BrokerError)
deriving DecidableEq

/-- A call of `CommitTransaction` that has found its transaction open: the id, the
place of the transaction, the copy of its records, and the number of records
committed. -/
structure CommitCall where
  id : String
  ptr : ℕ
  records : List TxRecord
  committed : ℕ
  phase : CommitPhase
deriving DecidableEq

/-- The call that has written a record. -/
inductive Source where
  | produce
  | idem (call : ℕ) (args : IdemArgs)
  | commit (call : ℕ) (id : String) (ptr : ℕ)
deriving DecidableEq

/-- A record written to the log of a topic. -/
structure Written where
  source : Source
  topic : String
  record : Record
deriving DecidableEq

/-- A record staged by a `TxProduce` that returned nil. -/
structure Staged where
  id : String
  ptr : ℕ
  record : TxRecord
deriving DecidableEq

structure Sys where
  world : World
  idem : OrdMap ℕ IdemCall
  commits : OrdMap ℕ CommitCall
  written : List Written
  staged : List Staged
  aborted : List (String × ℕ)

/-- A broker without calls under way. -/
def Sys.init (w : World) : Sys := ⟨w, ∅, ∅, [], [], []⟩

inductive Action where
  | createTopic (fault : Option CreateFault) (name : String)
  | produce (env : ProduceEnv) (topicName : String) (key value : Bytes)
      (headers : OrdMap String String)
  | drain (now d : Time)
  | idemCheck (call : ℕ) (args : IdemArgs)
  | idemProduce (call : ℕ) (env : ProduceEnv)
  | idemRecord (call : ℕ)
  | beginTransaction (producerID : String) (epoch : ℤ) (now createdAt : Time)
  | txProduce (txID topic : String) (key value : Bytes) (headers : OrdMap String String)
  | commitStart (call : ℕ) (txID : String)
  | commitCreate (call : ℕ) (fault : Option CreateFault)
  | commitProduce (call : ℕ) (env : ProduceEnv)
  | commitFinish (call : ℕ)
  | abortTransaction (txID : String)

namespace Sys

/-- The log of a topic: its records in order, and who has written them. -/
def log (s : Sys) (topic : String) : List Written :=
  s.written.filter fun w => decide (w.topic = topic)

def setBroker (s : Sys) (b : Broker) : Sys := { s with world := { s.world with broker := b } }

def setIdem (s : Sys) (call : ℕ) (c : IdemCall) : Sys :=
  { s with idem := s.idem.insert call c }

def setCommit (s : Sys) (call : ℕ) (c : CommitCall) : Sys :=
  { s with commits := s.commits.insert call c }

/-- A `CreateTopic` made by some call. -/
def createTopic (fault : Option CreateFault) (s : Sys) (name : String) :
    Sys × Except BrokerError Topic :=
  ({ s with world := (s.world.createTopic fault name).1 }, (s.world.createTopic fault name).2)

/-- A `Produce` made by some call. -/
def produce (json : RecordJson) (env : ProduceEnv) (source : Source) (s : Sys)
    (topicName : String) (key value : Bytes) (headers : OrdMap String String) :
    Sys × Except BrokerError Record :=
  ({ s with
      world := (s.world.produce json env topicName key value headers).1
      written := s.written ++
        ((s.world.appended json env topicName key value headers).map
          fun record => Written.mk source topicName record).toList },
    (s.world.produce json env topicName key value headers).2)

/-- The first section of `ProduceIdempotent`, with the check before it. -/
def idemCheck (s : Sys) (call : ℕ) (a : IdemArgs) : Option Sys :=
  if (s.idem[call]?).isSome then none
  else if a.producerID = "" then some (s.setIdem call ⟨a, .failed .producerIDRequired⟩)
  else
    match s.world.broker.idemCheck a with
    | .cached rec => some (s.setIdem call ⟨a, .done rec true⟩)
    | .outOfOrder => some (s.setIdem call ⟨a, .failed .outOfOrderSequence⟩)
    | .proceed => some (s.setIdem call ⟨a, .checked⟩)

def idemProduce (json : RecordJson) (s : Sys) (call : ℕ) (env : ProduceEnv) : Option Sys :=
  match s.idem[call]? with
  | some ⟨a, .checked⟩ =>
      match s.produce json env (.idem call a) a.topicName a.key a.value a.headers with
      | (s, .ok rec) => some (s.setIdem call ⟨a, .produced rec⟩)
      | (s, .error e) => some (s.setIdem call ⟨a, .failed e⟩)
  | _ => none

def idemRecord (s : Sys) (call : ℕ) : Option Sys :=
  match s.idem[call]? with
  | some ⟨a, .produced rec⟩ =>
      some ((s.setBroker (s.world.broker.idemRecord a rec)).setIdem call ⟨a, .done rec false⟩)
  | _ => none

/-- `TxProduce`; one that fails changes nothing. -/
def txProduce (s : Sys) (txID topic : String) (key value : Bytes)
    (headers : OrdMap String String) : Sys :=
  match s.world.broker.txProduce txID topic key value headers with
  | .error _ => s
  | .ok (b, p) =>
      { s.setBroker b with staged := s.staged ++ [⟨txID, p, ⟨topic, key, value, headers⟩⟩] }

/-- The first section of `CommitTransaction`; one that fails changes nothing. -/
def commitStart (s : Sys) (call : ℕ) (txID : String) : Option Sys :=
  if (s.commits[call]?).isSome then none
  else
    match s.world.broker.commitStart txID with
    | .error _ => some s
    | .ok (b, p, records) => some ((s.setBroker b).setCommit call ⟨txID, p, records, 0, .creating⟩)

/-- The `CreateTopic` of the next record of a commit. -/
def commitCreate (s : Sys) (call : ℕ) (fault : Option CreateFault) : Option Sys :=
  match s.commits[call]? with
  | some ⟨id, p, records, k, .creating⟩ =>
      match records[k]? with
      | none => none
      | some r =>
          match s.createTopic fault r.topic with
          | (s, .ok _) => some (s.setCommit call ⟨id, p, records, k, .producing⟩)
          | (s, .error e) => some (s.setCommit call ⟨id, p, records, k, .failed e⟩)
  | _ => none

/-- The `Produce` of the next record of a commit. -/
def commitProduce (json : RecordJson) (s : Sys) (call : ℕ) (env : ProduceEnv) : Option Sys :=
  match s.commits[call]? with
  | some ⟨id, p, records, k, .producing⟩ =>
      match records[k]? with
      | none => none
      | some r =>
          match s.produce json env (.commit call id p) r.topic r.key r.value r.headers with
          | (s, .ok _) => some (s.setCommit call ⟨id, p, records, k + 1, .creating⟩)
          | (s, .error e) => some (s.setCommit call ⟨id, p, records, k, .failed e⟩)
  | _ => none

/-- The last section of `CommitTransaction`, after all records. -/
def commitFinish (s : Sys) (call : ℕ) : Option Sys :=
  match s.commits[call]? with
  | some ⟨id, p, records, k, .creating⟩ =>
      if records.length ≤ k then
        some ((s.setBroker (s.world.broker.commitFinish p)).setCommit call
          ⟨id, p, records, k, .done⟩)
      else none
  | _ => none

/-- `AbortTransaction`; one that fails changes nothing. -/
def abortTransaction (s : Sys) (txID : String) : Sys :=
  match s.world.broker.abortTransaction txID with
  | .error _ => s
  | .ok (b, p) => { s.setBroker b with aborted := s.aborted ++ [(txID, p)] }

def beginTransaction (s : Sys) (producerID : String) (epoch : ℤ) (now createdAt : Time) : Sys :=
  match s.world.broker.beginTransaction producerID epoch now createdAt with
  | .error _ => s
  | .ok (b, _) => s.setBroker b

/-- One section of one call; `none` when the call is not there. -/
def step (json : RecordJson) (s : Sys) : Action → Option Sys
  | .createTopic fault name => some (s.createTopic fault name).1
  | .produce env topicName key value headers =>
      some (s.produce json env .produce topicName key value headers).1
  | .drain now d => some (s.setBroker (s.world.broker.drain now d))
  | .idemCheck call a => s.idemCheck call a
  | .idemProduce call env => s.idemProduce json call env
  | .idemRecord call => s.idemRecord call
  | .beginTransaction producerID epoch now createdAt =>
      some (s.beginTransaction producerID epoch now createdAt)
  | .txProduce txID topic key value headers => some (s.txProduce txID topic key value headers)
  | .commitStart call txID => s.commitStart call txID
  | .commitCreate call fault => s.commitCreate call fault
  | .commitProduce call env => s.commitProduce json call env
  | .commitFinish call => s.commitFinish call
  | .abortTransaction txID => some (s.abortTransaction txID)

variable {json : RecordJson} {s s' : Sys} {call : ℕ}

theorem idemCheck_cases {a : IdemArgs} (h : s.idemCheck call a = some s') :
    s.idem[call]? = none ∧ ∃ phase, s' = s.setIdem call ⟨a, phase⟩ ∧
      ((∃ e, phase = .failed e) ∨
        (∃ rec, phase = .done rec true ∧ s.world.broker.dedupCache[a.dedupKey]? = some rec) ∨
        phase = .checked ∧ s.world.broker.idemCheck a = .proceed) := by
  unfold idemCheck at h
  split at h
  · cases h
  · next hnone =>
      refine ⟨by simpa using hnone, ?_⟩
      split at h
      · exact ⟨_, (Option.some.inj h).symm, Or.inl ⟨_, rfl⟩⟩
      · split at h
        · next rec hcheck =>
            exact ⟨_, (Option.some.inj h).symm, Or.inr (Or.inl
              ⟨rec, rfl, Broker.idemCheck_eq_cached_iff.mp hcheck⟩)⟩
        · exact ⟨_, (Option.some.inj h).symm, Or.inl ⟨_, rfl⟩⟩
        · next hcheck => exact ⟨_, (Option.some.inj h).symm, Or.inr (Or.inr ⟨rfl, hcheck⟩)⟩

theorem idemProduce_cases {env : ProduceEnv} (h : s.idemProduce json call env = some s') :
    ∃ a, s.idem[call]? = some ⟨a, .checked⟩ ∧
      ((∃ rec, (s.produce json env (.idem call a) a.topicName a.key a.value a.headers).2 = .ok rec ∧
          s' = (s.produce json env (.idem call a) a.topicName a.key a.value a.headers).1.setIdem
            call ⟨a, .produced rec⟩) ∨
        ∃ e, (s.produce json env (.idem call a) a.topicName a.key a.value a.headers).2 = .error e ∧
          s' = (s.produce json env (.idem call a) a.topicName a.key a.value a.headers).1.setIdem
            call ⟨a, .failed e⟩) := by
  unfold idemProduce at h
  split at h
  · next a hcall =>
      refine ⟨a, hcall, ?_⟩
      split at h
      · next s₁ rec hp =>
          exact Or.inl ⟨rec, by rw [hp], by rw [hp]; exact (Option.some.inj h).symm⟩
      · next s₁ e hp =>
          exact Or.inr ⟨e, by rw [hp], by rw [hp]; exact (Option.some.inj h).symm⟩
  · cases h

theorem idemRecord_cases (h : s.idemRecord call = some s') :
    ∃ a rec, s.idem[call]? = some ⟨a, .produced rec⟩ ∧
      s' = (s.setBroker (s.world.broker.idemRecord a rec)).setIdem call ⟨a, .done rec false⟩ := by
  unfold idemRecord at h
  split at h
  · next a rec hcall => exact ⟨a, rec, hcall, (Option.some.inj h).symm⟩
  · cases h

theorem beginTransaction_cases (s : Sys) (producerID : String) (epoch : ℤ)
    (now createdAt : Time) :
    s.beginTransaction producerID epoch now createdAt = s ∨
      ∃ tx : Transaction, producerID ≠ "" ∧ tx.id = Broker.newTxID producerID epoch now ∧
        tx.status = .opened ∧ tx.records = [] ∧
        s.beginTransaction producerID epoch now createdAt =
          s.setBroker { s.world.broker with
            txState := s.world.broker.txState.insert tx.id s.world.broker.transactions.length
            transactions := s.world.broker.transactions ++ [tx] } := by
  unfold beginTransaction Broker.beginTransaction
  by_cases hid : producerID = ""
  · rw [if_pos hid]
    exact Or.inl rfl
  · rw [if_neg hid]
    exact Or.inr ⟨⟨Broker.newTxID producerID epoch now, producerID, epoch, .opened, createdAt, []⟩,
      hid, rfl, rfl, rfl, rfl⟩

theorem txProduce_cases (s : Sys) (txID topic : String) (key value : Bytes)
    (headers : OrdMap String String) :
    s.txProduce txID topic key value headers = s ∨
      ∃ p tx, s.world.broker.openTx txID = .ok (p, tx) ∧
        s.txProduce txID topic key value headers =
          { s.setBroker (s.world.broker.setTx p
              { tx with records := tx.records ++ [⟨topic, key, value, headers⟩] }) with
            staged := s.staged ++ [⟨txID, p, ⟨topic, key, value, headers⟩⟩] } := by
  unfold txProduce Broker.txProduce
  by_cases htopic : topic = ""
  · rw [if_pos htopic]
    exact Or.inl rfl
  · rw [if_neg htopic]
    cases hopen : s.world.broker.openTx txID with
    | error e => exact Or.inl rfl
    | ok found =>
        obtain ⟨p, tx⟩ := found
        exact Or.inr ⟨p, tx, rfl, by simp⟩

theorem abortTransaction_cases (s : Sys) (txID : String) :
    s.abortTransaction txID = s ∨
      ∃ p tx, s.world.broker.openTx txID = .ok (p, tx) ∧
        s.abortTransaction txID =
          { s.setBroker (s.world.broker.setTx p { tx with status := .aborted, records := [] }) with
            aborted := s.aborted ++ [(txID, p)] } := by
  unfold abortTransaction Broker.abortTransaction
  cases hopen : s.world.broker.openTx txID with
  | error e => exact Or.inl rfl
  | ok found =>
      obtain ⟨p, tx⟩ := found
      exact Or.inr ⟨p, tx, rfl, rfl⟩

theorem commitStart_cases {txID : String} (h : s.commitStart call txID = some s') :
    s.commits[call]? = none ∧
      (s' = s ∨ ∃ p tx, s.world.broker.openTx txID = .ok (p, tx) ∧
        s' = (s.setBroker (s.world.broker.setTx p { tx with status := .committing })).setCommit
          call ⟨txID, p, tx.records, 0, .creating⟩) := by
  unfold commitStart at h
  split at h
  · cases h
  · next hnone =>
      refine ⟨by simpa using hnone, ?_⟩
      unfold Broker.commitStart at h
      cases hopen : s.world.broker.openTx txID with
      | error e =>
          rw [hopen] at h
          exact Or.inl (Option.some.inj h).symm
      | ok found =>
          obtain ⟨p, tx⟩ := found
          rw [hopen] at h
          exact Or.inr ⟨p, tx, rfl, (Option.some.inj h).symm⟩

theorem commitCreate_cases {fault : Option CreateFault} (h : s.commitCreate call fault = some s') :
    ∃ id p records k r, s.commits[call]? = some ⟨id, p, records, k, .creating⟩ ∧
      records[k]? = some r ∧
      ((∃ topic, (s.createTopic fault r.topic).2 = .ok topic ∧
          s' = (s.createTopic fault r.topic).1.setCommit call ⟨id, p, records, k, .producing⟩) ∨
        ∃ e, (s.createTopic fault r.topic).2 = .error e ∧
          s' = (s.createTopic fault r.topic).1.setCommit call ⟨id, p, records, k, .failed e⟩) := by
  unfold commitCreate at h
  split at h
  · next id p records k hcall =>
      split at h
      · cases h
      · next r hr =>
          refine ⟨id, p, records, k, r, hcall, hr, ?_⟩
          split at h
          · next s₁ topic hc =>
              exact Or.inl ⟨topic, by rw [hc], by rw [hc]; exact (Option.some.inj h).symm⟩
          · next s₁ e hc =>
              exact Or.inr ⟨e, by rw [hc], by rw [hc]; exact (Option.some.inj h).symm⟩
  · cases h

theorem commitProduce_cases {env : ProduceEnv} (h : s.commitProduce json call env = some s') :
    ∃ id p records k r, s.commits[call]? = some ⟨id, p, records, k, .producing⟩ ∧
      records[k]? = some r ∧
      ((∃ rec, (s.produce json env (.commit call id p) r.topic r.key r.value r.headers).2 =
            .ok rec ∧
          s' = (s.produce json env (.commit call id p) r.topic r.key r.value
            r.headers).1.setCommit call ⟨id, p, records, k + 1, .creating⟩) ∨
        ∃ e, (s.produce json env (.commit call id p) r.topic r.key r.value r.headers).2 =
            .error e ∧
          s' = (s.produce json env (.commit call id p) r.topic r.key r.value
            r.headers).1.setCommit call ⟨id, p, records, k, .failed e⟩) := by
  unfold commitProduce at h
  split at h
  · next id p records k hcall =>
      split at h
      · cases h
      · next r hr =>
          refine ⟨id, p, records, k, r, hcall, hr, ?_⟩
          split at h
          · next s₁ rec hp =>
              exact Or.inl ⟨rec, by rw [hp], by rw [hp]; exact (Option.some.inj h).symm⟩
          · next s₁ e hp =>
              exact Or.inr ⟨e, by rw [hp], by rw [hp]; exact (Option.some.inj h).symm⟩
  · cases h

theorem commitFinish_cases (h : s.commitFinish call = some s') :
    ∃ id p records k, s.commits[call]? = some ⟨id, p, records, k, .creating⟩ ∧
      records.length ≤ k ∧
      s' = (s.setBroker (s.world.broker.commitFinish p)).setCommit call
        ⟨id, p, records, k, .done⟩ := by
  unfold commitFinish at h
  split at h
  · next id p records k hcall =>
      split at h
      · next hk => exact ⟨id, p, records, k, hcall, hk, (Option.some.inj h).symm⟩
      · cases h
  · cases h

/-- The states differ at most in their transactions and in what is known about
them. -/
structure SameLogs (s s' : Sys) : Prop where
  fs : s'.world.fs = s.world.fs
  dir : s'.world.broker.dir = s.world.broker.dir
  topics : s'.world.broker.topics = s.world.broker.topics
  dedupCache : s'.world.broker.dedupCache = s.world.broker.dedupCache
  idem : s'.idem = s.idem
  written : s'.written = s.written

theorem SameLogs.refl (s : Sys) : s.SameLogs s := ⟨rfl, rfl, rfl, rfl, rfl, rfl⟩

theorem sameLogs_beginTransaction (s : Sys) (producerID : String) (epoch : ℤ)
    (now createdAt : Time) : s.SameLogs (s.beginTransaction producerID epoch now createdAt) := by
  rcases s.beginTransaction_cases producerID epoch now createdAt with hs | ⟨tx, -, -, -, -, hs⟩
  · rw [hs]
    exact .refl s
  · rw [hs]
    exact ⟨rfl, rfl, rfl, rfl, rfl, rfl⟩

theorem sameLogs_txProduce (s : Sys) (txID topic : String) (key value : Bytes)
    (headers : OrdMap String String) : s.SameLogs (s.txProduce txID topic key value headers) := by
  rcases s.txProduce_cases txID topic key value headers with hs | ⟨p, tx, -, hs⟩
  · rw [hs]
    exact .refl s
  · rw [hs]
    exact ⟨rfl, rfl, rfl, rfl, rfl, rfl⟩

theorem sameLogs_abortTransaction (s : Sys) (txID : String) :
    s.SameLogs (s.abortTransaction txID) := by
  rcases s.abortTransaction_cases txID with hs | ⟨p, tx, -, hs⟩
  · rw [hs]
    exact .refl s
  · rw [hs]
    exact ⟨rfl, rfl, rfl, rfl, rfl, rfl⟩

theorem sameLogs_commitStart {txID : String} (h : s.commitStart call txID = some s') :
    s.SameLogs s' := by
  obtain ⟨-, rfl | ⟨p, tx, -, rfl⟩⟩ := commitStart_cases h
  · exact .refl _
  · exact ⟨rfl, rfl, rfl, rfl, rfl, rfl⟩

theorem sameLogs_commitFinish (h : s.commitFinish call = some s') : s.SameLogs s' := by
  obtain ⟨id, p, records, k, -, -, rfl⟩ := commitFinish_cases h
  unfold Broker.commitFinish
  split
  · exact ⟨rfl, rfl, rfl, rfl, rfl, rfl⟩
  · exact ⟨rfl, rfl, rfl, rfl, rfl, rfl⟩

end Sys

end StreamFlow
