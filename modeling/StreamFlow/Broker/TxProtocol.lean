import StreamFlow.Broker.System

/-!
# The transaction protocol

Seen from the transactions, a broker is the table of transactions, the commits
under way, and three histories: the records staged, the records committed, and the
aborts. `TxView.Step` says what one step can do to that view, and
`Sys.txView_step` that every step of the broker is one of these.

A commit owns its transaction: from the moment it has found it open, nothing but the
commit itself touches the transaction or writes for it. `TxInv` says so, and that
what a commit has written so far is the beginning of its copy of the records.
-/

namespace StreamFlow

open BigEndian Run

/-- What a commit has written, as it was staged. -/
def Written.committed? (w : Written) : Option Staged :=
  match w.source with
  | .commit _ id p => some ⟨id, p, ⟨w.topic, w.record.key, w.record.value, w.record.headers⟩⟩
  | _ => none

/-- The records of the transaction at place `p`. -/
def recordsAt (p : ℕ) (l : List Staged) : List TxRecord :=
  (l.filter fun e => decide (e.ptr = p)).map Staged.record

@[simp] theorem recordsAt_append (p : ℕ) (l l' : List Staged) :
    recordsAt p (l ++ l') = recordsAt p l ++ recordsAt p l' := by
  rw [recordsAt, List.filter_append, List.map_append]
  rfl

@[simp] theorem recordsAt_map_self (id : String) (p : ℕ) (rs : List TxRecord) :
    recordsAt p (rs.map (Staged.mk id p)) = rs := by
  induction rs with
  | nil => rfl
  | cons r rs ih =>
      rw [List.map_cons, recordsAt, List.filter_cons_of_pos (by simp), List.map_cons]
      exact congrArg (r :: ·) ih

theorem recordsAt_map_of_ne (id : String) {p q : ℕ} (h : q ≠ p) (rs : List TxRecord) :
    recordsAt p (rs.map (Staged.mk id q)) = [] := by
  induction rs with
  | nil => rfl
  | cons r rs ih =>
      rw [List.map_cons, recordsAt, List.filter_cons_of_neg (by simpa using h)]
      exact ih

theorem recordsAt_eq_nil {p : ℕ} {l : List Staged} (h : ∀ e ∈ l, e.ptr ≠ p) :
    recordsAt p l = [] := by
  rw [recordsAt, List.filter_eq_nil_iff.mpr (fun e he => by simpa using h e he), List.map_nil]

theorem mem_recordsAt {p : ℕ} {l : List Staged} {r : TxRecord} :
    r ∈ recordsAt p l ↔ ∃ e ∈ l, e.ptr = p ∧ e.record = r := by
  simp [recordsAt, and_assoc]

/-- The status of a transaction under a commit. -/
def CommitPhase.status : CommitPhase → TxStatus
  | .done => .committed
  | .creating | .producing | .failed _ => .committing

namespace CommitCall

/-- One turn of half the loop of `CommitTransaction`, writing the records `rs`. A
`Produce` that fails may have written its record. -/
inductive Moves (c : CommitCall) : List TxRecord → CommitCall → Prop
  | created (hphase : c.phase = .creating) : Moves c [] { c with phase := .producing }
  | produced {r : TxRecord} (hphase : c.phase = .producing)
      (hr : c.records[c.committed]? = some r) :
      Moves c [r] { c with committed := c.committed + 1, phase := .creating }
  | createFailed (hphase : c.phase = .creating) (e : BrokerError) :
      Moves c [] { c with phase := .failed e }
  | produceFailed {r : TxRecord} {rs : List TxRecord} (hphase : c.phase = .producing)
      (hr : c.records[c.committed]? = some r) (hrs : rs <+: [r]) (e : BrokerError) :
      Moves c rs { c with phase := .failed e }

/-- What a commit has written, by its phase. -/
def Progress (c : CommitCall) (written : List TxRecord) : Prop :=
  match c.phase with
  | .creating | .producing => written = c.records.take c.committed
  | .done => written = c.records
  | .failed _ => written <+: c.records

variable {c c' : CommitCall} {rs written : List TxRecord}

theorem take_append_of_prefix {r : TxRecord} (hr : c.records[c.committed]? = some r)
    (hrs : rs <+: [r]) : c.records.take c.committed ++ rs <+: c.records := by
  have htake : c.records.take c.committed ++ [r] = c.records.take (c.committed + 1) := by
    rw [List.take_add_one, hr]
    rfl
  have hprefix := (List.prefix_append_right_inj (c.records.take c.committed)).mpr hrs
  rw [htake] at hprefix
  exact hprefix.trans (List.take_prefix _ _)

theorem Moves.progress (h : c.Moves rs c') (hw : c.Progress written) :
    c'.Progress (written ++ rs) := by
  cases h with
  | created hphase =>
      rw [Progress, hphase] at hw
      rw [hw, List.append_nil]
      rfl
  | @produced r hphase hr =>
      rw [Progress, hphase] at hw
      change written ++ [r] = c.records.take (c.committed + 1)
      rw [hw, List.take_add_one, hr]
      rfl
  | createFailed hphase e =>
      rw [Progress, hphase] at hw
      change written ++ [] <+: c.records
      rw [hw, List.append_nil]
      exact List.take_prefix _ _
  | produceFailed hphase hr hrs e =>
      rw [Progress, hphase] at hw
      change written ++ rs <+: c.records
      rw [hw]
      exact take_append_of_prefix hr hrs

theorem Moves.keeps (h : c.Moves rs c') :
    c'.id = c.id ∧ c'.ptr = c.ptr ∧ c'.records = c.records ∧ c'.phase.status = c.phase.status := by
  cases h with
  | created hphase => rw [hphase]; exact ⟨rfl, rfl, rfl, rfl⟩
  | produced hphase hr => rw [hphase]; exact ⟨rfl, rfl, rfl, rfl⟩
  | createFailed hphase e => rw [hphase]; exact ⟨rfl, rfl, rfl, rfl⟩
  | produceFailed hphase hr hrs e => rw [hphase]; exact ⟨rfl, rfl, rfl, rfl⟩

end CommitCall

/-- The broker as its transactions see it. -/
structure TxView where
  txState : OrdMap String ℕ
  transactions : List Transaction
  commits : OrdMap ℕ CommitCall
  staged : List Staged
  committed : List Staged
  aborted : List (String × ℕ)

def Sys.txView (s : Sys) : TxView where
  txState := s.world.broker.txState
  transactions := s.world.broker.transactions
  commits := s.commits
  staged := s.staged
  committed := s.written.filterMap Written.committed?
  aborted := s.aborted

namespace TxView

/-- The id `id` leads to the open transaction `tx` at place `p`. -/
def Open (v : TxView) (id : String) (p : ℕ) (tx : Transaction) : Prop :=
  v.txState[id]? = some p ∧ v.transactions[p]? = some tx ∧ tx.status = .opened

/-- One step of the protocol, labelled with the id of a transaction it begins. -/
inductive Step (v : TxView) : Option String → TxView → Prop
  | idle (l : Option String) : Step v l v
  | begins (tx : Transaction) (hstatus : tx.status = .opened) (hrecords : tx.records = []) :
      Step v (some tx.id)
        { v with
          txState := v.txState.insert tx.id v.transactions.length
          transactions := v.transactions ++ [tx] }
  | stages {id : String} {p : ℕ} {tx : Transaction} (h : v.Open id p tx) (r : TxRecord) :
      Step v none
        { v with
          transactions := v.transactions.set p { tx with records := tx.records ++ [r] }
          staged := v.staged ++ [⟨id, p, r⟩] }
  | aborts {id : String} {p : ℕ} {tx : Transaction} (h : v.Open id p tx) :
      Step v none
        { v with
          transactions := v.transactions.set p { tx with status := .aborted, records := [] }
          aborted := v.aborted ++ [(id, p)] }
  | starts {call : ℕ} {id : String} {p : ℕ} {tx : Transaction} (hnone : v.commits[call]? = none)
      (h : v.Open id p tx) :
      Step v none
        { v with
          transactions := v.transactions.set p { tx with status := .committing }
          commits := v.commits.insert call ⟨id, p, tx.records, 0, .creating⟩ }
  | moves {call : ℕ} {c c' : CommitCall} {rs : List TxRecord} (hc : v.commits[call]? = some c)
      (h : c.Moves rs c') :
      Step v none
        { v with
          commits := v.commits.insert call c'
          committed := v.committed ++ rs.map (Staged.mk c.id c.ptr) }
  | finishes {call : ℕ} {c : CommitCall} {tx : Transaction} (hc : v.commits[call]? = some c)
      (hphase : c.phase = .creating) (hlen : c.records.length ≤ c.committed)
      (htx : v.transactions[c.ptr]? = some tx) :
      Step v none
        { v with
          transactions := v.transactions.set c.ptr { tx with status := .committed }
          commits := v.commits.insert call { c with phase := .done } }

/-- A commit that has returned stays as it is. -/
theorem Step.commits_of_returned {v v' : TxView} {l : Option String} (h : v.Step l v') {call : ℕ}
    {c : CommitCall} (hc : v.commits[call]? = some c) (hcreating : c.phase ≠ .creating)
    (hproducing : c.phase ≠ .producing) : v'.commits[call]? = some c := by
  have hkeep : ∀ {call₁ : ℕ} {c₁ : CommitCall}, call₁ ≠ call →
      (v.commits.insert call₁ c₁)[call]? = some c := by
    intro call₁ c₁ hne
    rw [OrdMap.getElem?_insert_of_ne _ _ hne, hc]
  cases h with
  | idle | begins | stages | aborts => exact hc
  | starts hnone =>
      refine hkeep ?_
      rintro rfl
      rw [hnone] at hc
      cases hc
  | moves hc₁ hmoves =>
      refine hkeep ?_
      rintro rfl
      obtain rfl := Option.some.inj (hc.symm.trans hc₁)
      cases hmoves with
      | created hphase | createFailed hphase => exact hcreating hphase
      | produced hphase | produceFailed hphase => exact hproducing hphase
  | finishes hc₁ hphase =>
      refine hkeep ?_
      rintro rfl
      obtain rfl := Option.some.inj (hc.symm.trans hc₁)
      exact hcreating hphase

end TxView

/-- Each commit owns its transaction, and what it has written is the beginning of its
records; a transaction without a commit has written nothing. -/
structure TxInv (v : TxView) : Prop where
  call : ∀ (call : ℕ) (c : CommitCall), v.commits[call]? = some c →
    (∃ tx : Transaction, v.transactions[c.ptr]? = some tx ∧ tx.status = c.phase.status ∧
      tx.records = c.records) ∧ c.Progress (recordsAt c.ptr v.committed)
  unique : ∀ (call call' : ℕ) (c c' : CommitCall), v.commits[call]? = some c →
    v.commits[call']? = some c' → c.ptr = c'.ptr → call = call'
  idle : ∀ p, (∀ (call : ℕ) (c : CommitCall), v.commits[call]? = some c → c.ptr ≠ p) →
    recordsAt p v.committed = []

namespace TxInv

variable {v v' : TxView} {l : Option String}

theorem status_ne_opened (h : TxInv v) {call : ℕ} {c : CommitCall}
    (hc : v.commits[call]? = some c) {tx : Transaction}
    (htx : v.transactions[c.ptr]? = some tx) : tx.status ≠ .opened := by
  obtain ⟨⟨tx', htx', hstatus, -⟩, -⟩ := h.call call c hc
  obtain rfl := Option.some.inj (htx.symm.trans htx')
  rw [hstatus]
  cases c.phase <;> exact fun hcontra => by cases hcontra

/-- Whatever is committed was written by a commit, and its transaction is committed
exactly when that commit has returned nil. -/
theorem exists_call (h : TxInv v) {e : Staged} (he : e ∈ v.committed) :
    ∃ (call : ℕ) (c : CommitCall) (tx : Transaction), v.commits[call]? = some c ∧
      c.ptr = e.ptr ∧ v.transactions[e.ptr]? = some tx ∧
      (tx.status = .committed ↔ c.phase = .done) := by
  obtain ⟨call, c, hc, hptr⟩ : ∃ (call : ℕ) (c : CommitCall), v.commits[call]? = some c ∧
      c.ptr = e.ptr := by
    by_contra hno
    have hnil := h.idle e.ptr fun call c hc heq => hno ⟨call, c, hc, heq⟩
    have hmem : e.record ∈ recordsAt e.ptr v.committed := mem_recordsAt.mpr ⟨e, he, rfl, rfl⟩
    rw [hnil] at hmem
    cases hmem
  obtain ⟨⟨tx, htx, hstatus, -⟩, -⟩ := h.call call c hc
  refine ⟨call, c, tx, hc, hptr, by rw [← hptr, htx], ?_⟩
  rw [hstatus]
  cases c.phase <;> simp [CommitPhase.status]

/-- No commit is under way for an open transaction. -/
theorem ptr_ne (h : TxInv v) {call : ℕ} {c : CommitCall} (hc : v.commits[call]? = some c)
    {id : String} {p : ℕ} {tx : Transaction} (hopen : v.Open id p tx) : c.ptr ≠ p := by
  rintro rfl
  exact h.status_ne_opened hc hopen.2.1 hopen.2.2

/-- A step that leaves the commits alone and touches no transaction of theirs. -/
theorem frame (h : TxInv v) (hcommits : v'.commits = v.commits)
    (hcommitted : v'.committed = v.committed)
    (htx : ∀ (call : ℕ) (c : CommitCall), v.commits[call]? = some c →
      v'.transactions[c.ptr]? = v.transactions[c.ptr]?) : TxInv v' := by
  refine ⟨?_, by rw [hcommits]; exact h.unique, by rw [hcommits, hcommitted]; exact h.idle⟩
  intro call c hc
  rw [hcommits] at hc
  obtain ⟨⟨tx, hfound, hrest⟩, hprogress⟩ := h.call call c hc
  rw [hcommitted]
  exact ⟨⟨tx, (htx call c hc).trans hfound, hrest⟩, hprogress⟩

/-- A commit moves on, and writes the records `rs`. -/
theorem set_call (h : TxInv v) {call : ℕ} {c c' : CommitCall} {rs : List TxRecord}
    (hcommits : v'.commits = v.commits.insert call c')
    (hcommitted : v'.committed = v.committed ++ rs.map (Staged.mk c.id c.ptr))
    (hptr : c'.ptr = c.ptr)
    (hself : (∃ tx : Transaction, v'.transactions[c.ptr]? = some tx ∧ tx.status = c'.phase.status ∧
      tx.records = c'.records) ∧ c'.Progress (recordsAt c.ptr v.committed ++ rs))
    (hsame : ∀ c₁, v.commits[call]? = some c₁ → c₁.ptr = c.ptr)
    (hothers : ∀ (call' : ℕ) (c₁ : CommitCall), v.commits[call']? = some c₁ → c₁.ptr = c.ptr →
      call' = call)
    (htx : ∀ p : ℕ, p ≠ c.ptr → v'.transactions[p]? = v.transactions[p]?) : TxInv v' := by
  have hlookup : ∀ (call₁ : ℕ) (c₁ : CommitCall), v'.commits[call₁]? = some c₁ →
      call = call₁ ∧ c' = c₁ ∨ call ≠ call₁ ∧ v.commits[call₁]? = some c₁ := by
    intro call₁ c₁ hc₁
    rw [hcommits] at hc₁
    exact OrdMap.getElem?_insert_cases hc₁
  have hwritten : ∀ p, p ≠ c.ptr → recordsAt p v'.committed = recordsAt p v.committed := by
    intro p hp
    rw [hcommitted, recordsAt_append, recordsAt_map_of_ne _ (Ne.symm hp), List.append_nil]
  refine ⟨?_, ?_, ?_⟩
  · intro call₁ c₁ hc₁
    rcases hlookup call₁ c₁ hc₁ with ⟨rfl, rfl⟩ | ⟨hne, hold⟩
    · rw [hptr, hcommitted, recordsAt_append, recordsAt_map_self]
      exact hself
    · have hp : c₁.ptr ≠ c.ptr := fun heq => hne (hothers call₁ c₁ hold heq).symm
      rw [hwritten _ hp, htx _ hp]
      exact h.call call₁ c₁ hold
  · intro call₁ call₂ c₁ c₂ hc₁ hc₂ heq
    rcases hlookup call₁ c₁ hc₁ with ⟨rfl, rfl⟩ | ⟨hne₁, hold₁⟩ <;>
      rcases hlookup call₂ c₂ hc₂ with ⟨rfl, rfl⟩ | ⟨hne₂, hold₂⟩
    · rfl
    · exact (hothers call₂ c₂ hold₂ (heq.symm.trans hptr)).symm
    · exact hothers call₁ c₁ hold₁ (heq.trans hptr)
    · exact h.unique call₁ call₂ c₁ c₂ hold₁ hold₂ heq
  · intro p hp
    have hself' : c'.ptr ≠ p := hp call c' (by rw [hcommits, OrdMap.getElem?_insert_self'])
    rw [hptr] at hself'
    rw [hwritten p (Ne.symm hself')]
    refine h.idle p fun call₁ c₁ hc₁ => ?_
    by_cases hcall : call₁ = call
    · subst hcall
      exact fun heq => hself' ((hsame c₁ hc₁).symm.trans heq)
    · exact hp call₁ c₁ (by rw [hcommits, OrdMap.getElem?_insert_of_ne _ _ (Ne.symm hcall), hc₁])

/-- Every step of the protocol keeps the ownership. -/
theorem step (h : TxInv v) (hstep : v.Step l v') : TxInv v' := by
  cases hstep with
  | idle => exact h
  | begins tx hstatus hrecords =>
      refine h.frame rfl rfl fun call c hc => ?_
      obtain ⟨⟨tx', htx', -⟩, -⟩ := h.call call c hc
      exact List.getElem?_append_left (List.getElem?_eq_some_iff.mp htx').1
  | stages hopen r =>
      exact h.frame rfl rfl fun call c hc => List.getElem?_set_ne (Ne.symm (h.ptr_ne hc hopen))
  | aborts hopen =>
      exact h.frame rfl rfl fun call c hc => List.getElem?_set_ne (Ne.symm (h.ptr_ne hc hopen))
  | @starts call id p tx hnone hopen =>
      have hnew : recordsAt p v.committed = [] := h.idle p fun call₁ c₁ hc₁ => h.ptr_ne hc₁ hopen
      have hcommitted : v.committed = v.committed ++ ([] : List TxRecord).map (Staged.mk id p) :=
        (List.append_nil _).symm
      refine h.set_call (c := ⟨id, p, tx.records, 0, .creating⟩) rfl hcommitted rfl ⟨?_, ?_⟩
        ?_ ?_ fun q hq => List.getElem?_set_ne (Ne.symm hq)
      · exact ⟨_, List.getElem?_set_self (List.getElem?_eq_some_iff.mp hopen.2.1).1, rfl, rfl⟩
      · rw [List.append_nil]
        exact hnew
      · intro c₁ hc₁
        rw [hnone] at hc₁
        cases hc₁
      · intro call' c₁ hc₁ heq
        exact absurd heq (h.ptr_ne hc₁ hopen)
  | @moves call c c' rs hc hmoves =>
      obtain ⟨-, hptr, hrecords, hstatus⟩ := hmoves.keeps
      obtain ⟨⟨tx, htx, htxstatus, htxrecords⟩, hprogress⟩ := h.call call c hc
      refine h.set_call rfl rfl hptr ⟨⟨tx, htx, ?_, ?_⟩, hmoves.progress hprogress⟩ ?_ ?_
        fun _ _ => rfl
      · rw [htxstatus, hstatus]
      · rw [htxrecords, hrecords]
      · intro c₁ hc₁
        rw [Option.some.inj (hc₁.symm.trans hc)]
      · intro call' c₁ hc₁ heq
        exact h.unique call' call c₁ c hc₁ hc heq
  | @finishes call c tx hc hphase hlen htx =>
      obtain ⟨⟨tx', htx', -, htxrecords⟩, hprogress⟩ := h.call call c hc
      obtain rfl := Option.some.inj (htx.symm.trans htx')
      have hcommitted :
          v.committed = v.committed ++ ([] : List TxRecord).map (Staged.mk c.id c.ptr) :=
        (List.append_nil _).symm
      refine h.set_call rfl hcommitted rfl ⟨?_, ?_⟩ ?_ ?_
        fun q hq => List.getElem?_set_ne (Ne.symm hq)
      · exact ⟨_, List.getElem?_set_self (List.getElem?_eq_some_iff.mp htx).1, rfl, htxrecords⟩
      · rw [CommitCall.Progress, hphase, List.take_of_length_le hlen] at hprogress
        rw [List.append_nil]
        exact hprogress
      · intro c₁ hc₁
        rw [Option.some.inj (hc₁.symm.trans hc)]
      · intro call' c₁ hc₁ heq
        exact h.unique call' call c₁ c hc₁ hc heq

end TxInv

/-- The id of the transaction an action begins. -/
def Action.begins : Action → Option String
  | .beginTransaction producerID epoch now _ =>
      if producerID = "" then none else some (Broker.newTxID producerID epoch now)
  | _ => none

namespace Sys

variable {json : RecordJson} {s s' : Sys}

theorem txView_produce_of_ne (s : Sys) (json : RecordJson) (env : ProduceEnv) (source : Source)
    (hsource : ∀ call id p, source ≠ .commit call id p) (topicName : String) (key value : Bytes)
    (headers : OrdMap String String) :
    (s.produce json env source topicName key value headers).1.txView = s.txView := by
  have hskip : ∀ record, Written.committed? ⟨source, topicName, record⟩ = none := by
    intro record
    cases source with
    | commit call id p => exact absurd rfl (hsource call id p)
    | produce => rfl
    | idem call a => rfl
  simp only [txView, produce, World.txState_produce, World.transactions_produce,
    List.filterMap_append]
  cases s.world.appended json env topicName key value headers with
  | none => simp
  | some record => simp [hskip record]

theorem txView_createTopic (fault : Option CreateFault) (s : Sys) (name : String) :
    (s.createTopic fault name).1.txView = s.txView := by
  simp [txView, createTopic]

/-- The `Produce` of a commit writes its record or nothing. -/
theorem txView_produce_commit (s : Sys) (json : RecordJson) (env : ProduceEnv) (call : ℕ)
    (id : String) (p : ℕ) (topicName : String) (key value : Bytes)
    (headers : OrdMap String String) :
    (s.produce json env (.commit call id p) topicName key value headers).1.txView =
      { s.txView with
        committed := s.txView.committed ++
          (if (s.world.appended json env topicName key value headers).isSome then
            [TxRecord.mk topicName key value headers] else []).map (Staged.mk id p) } := by
  simp only [txView, produce, World.txState_produce, World.transactions_produce,
    List.filterMap_append]
  cases happ : s.world.appended json env topicName key value headers with
  | none => simp
  | some record =>
      obtain ⟨hkey, hvalue, hheaders⟩ := World.appended_eq_some happ
      simp [Written.committed?, hkey, hvalue, hheaders]

/-- A commit moves on after writing the records `rs`. -/
theorem step_setCommit {s₁ : Sys} {call : ℕ} {c c' : CommitCall} {rs : List TxRecord}
    (hcall : s.commits[call]? = some c) (hmoves : c.Moves rs c')
    (hview : s₁.txView = { s.txView with
      committed := s.txView.committed ++ rs.map (Staged.mk c.id c.ptr) }) :
    s.txView.Step none (s₁.setCommit call c').txView := by
  have hset : (s₁.setCommit call c').txView =
      { s₁.txView with commits := s₁.txView.commits.insert call c' } := rfl
  rw [hset, hview]
  exact .moves hcall hmoves

theorem txView_commitCreate {call : ℕ} {fault : Option CreateFault}
    (h : s.commitCreate call fault = some s') : s.txView.Step none s'.txView := by
  obtain ⟨id, p, records, k, r, hcall, hr, hres⟩ := commitCreate_cases h
  have hview : (s.createTopic fault r.topic).1.txView = { s.txView with
      committed := s.txView.committed ++ ([] : List TxRecord).map (Staged.mk id p) } := by
    rw [txView_createTopic, List.map_nil, List.append_nil]
  rcases hres with ⟨topic, -, rfl⟩ | ⟨e, -, rfl⟩
  · exact step_setCommit hcall (.created rfl) hview
  · exact step_setCommit hcall (.createFailed rfl e) hview

theorem txView_commitProduce {call : ℕ} {env : ProduceEnv}
    (h : s.commitProduce json call env = some s') : s.txView.Step none s'.txView := by
  obtain ⟨id, p, records, k, r, hcall, hr, hres⟩ := commitProduce_cases h
  have hview := s.txView_produce_commit json env call id p r.topic r.key r.value r.headers
  rcases hres with ⟨rec, hok, rfl⟩ | ⟨e, -, rfl⟩
  · -- a `Produce` that returns a record has written it
    have happ : (s.world.appended json env r.topic r.key r.value r.headers).isSome := by
      rcases World.produce_result json env s.world r.topic r.key r.value r.headers with
        ⟨record, offset, happ, -⟩ | ⟨⟨e, herr⟩, -⟩
      · rw [happ]
        rfl
      · rw [produce, herr] at hok
        cases hok
    rw [if_pos happ] at hview
    exact step_setCommit hcall (.produced rfl hr) hview
  · refine step_setCommit hcall (.produceFailed rfl hr ?_ e) hview
    split
    · exact List.prefix_rfl
    · exact List.nil_prefix

theorem open_of_openTx {txID : String} {p : ℕ} {tx : Transaction}
    (h : s.world.broker.openTx txID = .ok (p, tx)) : s.txView.Open txID p tx :=
  Broker.openTx_eq_ok_iff.mp h

theorem txView_beginTransaction (s : Sys) (producerID : String) (epoch : ℤ)
    (now createdAt : Time) :
    s.txView.Step (Action.beginTransaction producerID epoch now createdAt).begins
      (s.beginTransaction producerID epoch now createdAt).txView := by
  rcases s.beginTransaction_cases producerID epoch now createdAt with
    hs | ⟨tx, hne, hid, hstatus, hrecords, hs⟩
  · rw [hs]
    exact .idle _
  · have hbegins : (Action.beginTransaction producerID epoch now createdAt).begins =
        some tx.id := by
      rw [hid]
      exact if_neg hne
    rw [hs, hbegins]
    exact .begins tx hstatus hrecords

theorem txView_commitFinish {call : ℕ} (hinv : TxInv s.txView)
    (h : s.commitFinish call = some s') : s.txView.Step none s'.txView := by
  obtain ⟨id, p, records, k, hcall, hlen, rfl⟩ := commitFinish_cases h
  obtain ⟨⟨tx, htx, -⟩, -⟩ := hinv.call call _ hcall
  change s.world.broker.transactions[p]? = some tx at htx
  rw [Broker.commitFinish, htx]
  exact TxView.Step.finishes (v := s.txView) hcall rfl hlen htx

/-- Every step of the broker is a step of the protocol. -/
theorem txView_step (hinv : TxInv s.txView) {action : Action}
    (h : s.step json action = some s') : s.txView.Step action.begins s'.txView := by
  cases action with
  | createTopic fault name =>
      obtain rfl := Option.some.inj h
      rw [txView_createTopic]
      exact .idle _
  | produce env topicName key value headers =>
      obtain rfl := Option.some.inj h
      rw [s.txView_produce_of_ne json env .produce (fun _ _ _ hc => by cases hc)]
      exact .idle _
  | drain now d =>
      obtain rfl := Option.some.inj h
      exact .idle _
  | idemCheck call a =>
      obtain ⟨-, phase, rfl, -⟩ := idemCheck_cases h
      exact .idle _
  | idemProduce call env =>
      obtain ⟨a, -, hres⟩ := idemProduce_cases h
      have hview := s.txView_produce_of_ne json env (.idem call a) (fun _ _ _ hc => by cases hc)
        a.topicName a.key a.value a.headers
      have hs' : s'.txView = s.txView := by
        rcases hres with ⟨rec, -, rfl⟩ | ⟨e, -, rfl⟩
        · exact hview
        · exact hview
      rw [hs']
      exact .idle _
  | idemRecord call =>
      obtain ⟨a, rec, -, rfl⟩ := idemRecord_cases h
      exact .idle _
  | beginTransaction producerID epoch now createdAt =>
      obtain rfl := Option.some.inj h
      exact s.txView_beginTransaction producerID epoch now createdAt
  | txProduce txID topic key value headers =>
      obtain rfl := Option.some.inj h
      rcases s.txProduce_cases txID topic key value headers with hs | ⟨p, tx, hopen, hs⟩
      · rw [hs]
        exact .idle _
      · rw [hs]
        exact .stages (open_of_openTx hopen) ⟨topic, key, value, headers⟩
  | commitStart call txID =>
      obtain ⟨hnone, rfl | ⟨p, tx, hopen, rfl⟩⟩ := commitStart_cases h
      · exact .idle _
      · exact .starts hnone (open_of_openTx hopen)
  | commitCreate call fault => exact txView_commitCreate h
  | commitProduce call env => exact txView_commitProduce h
  | commitFinish call => exact txView_commitFinish hinv h
  | abortTransaction txID =>
      obtain rfl := Option.some.inj h
      rcases s.abortTransaction_cases txID with hs | ⟨p, tx, hopen, hs⟩
      · rw [hs]
        exact .idle _
      · rw [hs]
        exact .aborts (open_of_openTx hopen)

theorem txInv_step {action : Action} (hinv : TxInv s.txView)
    (h : s.step json action = some s') : TxInv s'.txView :=
  hinv.step (txView_step hinv h)

/-- A broker without calls under way. -/
theorem txInv_init (w : World) : TxInv (Sys.init w).txView := by
  refine ⟨fun call c hc => ?_, fun call call' c c' hc => ?_, fun p _ => rfl⟩
  · simp [txView, Sys.init] at hc
  · simp [txView, Sys.init] at hc

theorem txInv_run {w : World} {actions : List Action}
    (hrun : exec (Sys.step json) (.init w) actions = some s) : TxInv s.txView :=
  invariant (fun s : Sys => TxInv s.txView) (fun _ _ _ => txInv_step) hrun (txInv_init w)

/-! ### The records of a transaction in a log -/

theorem filterMap_committed_log (s : Sys) (topic : String) :
    (s.log topic).filterMap Written.committed? =
      s.txView.committed.filter fun e => decide (e.record.topic = topic) := by
  rw [log, txView, List.filterMap_filter, List.filter_filterMap]
  congr 1
  funext w
  obtain ⟨source, topic', record⟩ := w
  cases source with
  | commit call id p =>
      simp only [Written.committed?, Option.filter_some]
  | produce => simp [Written.committed?]
  | idem call a => simp [Written.committed?]

/-- The records that commits of the transaction at place `p` have written to the log of a
topic. -/
def committedAt (s : Sys) (p : ℕ) (topic : String) : List TxRecord :=
  recordsAt p ((s.log topic).filterMap Written.committed?)

theorem committedAt_eq (s : Sys) (p : ℕ) (topic : String) :
    s.committedAt p topic =
      (recordsAt p s.txView.committed).filter fun r => decide (r.topic = topic) := by
  rw [committedAt, filterMap_committed_log, recordsAt, recordsAt, List.filter_map, List.filter_comm]
  rfl

end Sys

end StreamFlow
