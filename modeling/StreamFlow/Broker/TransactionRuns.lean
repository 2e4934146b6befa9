import StreamFlow.Broker.CommitRuns

/-!
# Transactions exactly once

`HistInv` ties the histories of staged, committed and aborted work to the
transactions, for runs in which no two transactions begin with the same id: the
staged records of a transaction that is not aborted are those it holds, and an id
stands for one transaction. Together with the ownership of `TxInv` it follows that a
committed transaction has written what was staged for it, once and in order. What is
written is in the logs as long as every topic has a directory of its own.
-/

namespace StreamFlow

open BigEndian Run

/-- A step of the status of a transaction; one that has not begun has none. -/
inductive TxStatus.Moves : Option TxStatus → Option TxStatus → Prop
  | stay (st : Option TxStatus) : Moves st st
  | begins : Moves none (some .opened)
  | starts : Moves (some .opened) (some .committing)
  | finishes : Moves (some .committing) (some .committed)
  | aborts : Moves (some .opened) (some .aborted)

theorem TxStatus.Moves.eq_of_aborted {st : Option TxStatus} (h : Moves (some .aborted) st) :
    st = some .aborted := by
  cases h
  rfl

namespace TxView

/-- The ids of the transactions, in the order they began. -/
def ids (v : TxView) : List String := v.transactions.map Transaction.id

/-- The status of the transaction an id stands for. -/
def status (v : TxView) (id : String) : Option TxStatus :=
  ((v.txState[id]?).bind fun p => v.transactions[p]?).map Transaction.status

variable {v v' : TxView} {l : Option String}

theorem ids_set {p : ℕ} {tx tx' : Transaction} (htx : v.transactions[p]? = some tx)
    (hid : tx'.id = tx.id) : (v.transactions.set p tx').map Transaction.id = v.ids := by
  apply List.ext_getElem?
  intro q
  rw [ids, List.getElem?_map, List.getElem?_map]
  by_cases heq : p = q
  · subst heq
    rw [List.getElem?_set_self (List.getElem?_eq_some_iff.mp htx).1, htx, Option.map_some, hid]
    rfl
  · rw [List.getElem?_set_ne heq]

/-- A step adds the transaction it begins, and leaves the ids alone otherwise. -/
theorem Step.ids_cases (h : v.Step l v') :
    (∃ id, l = some id ∧ v'.ids = v.ids ++ [id] ∧
        v'.txState = v.txState.insert id v.ids.length) ∨
      v'.ids = v.ids ∧ v'.txState = v.txState := by
  cases h with
  | idle => exact Or.inr ⟨rfl, rfl⟩
  | begins tx =>
      refine Or.inl ⟨tx.id, rfl, ?_, ?_⟩
      · rw [ids, List.map_append]
        rfl
      · rw [ids, List.length_map]
  | stages hopen => exact Or.inr ⟨ids_set hopen.2.1 rfl, rfl⟩
  | aborts hopen => exact Or.inr ⟨ids_set hopen.2.1 rfl, rfl⟩
  | starts hnone hopen => exact Or.inr ⟨ids_set hopen.2.1 rfl, rfl⟩
  | moves => exact Or.inr ⟨rfl, rfl⟩
  | finishes hc hphase hlen htx => exact Or.inr ⟨ids_set htx rfl, rfl⟩

theorem Step.ids_mono (h : v.Step l v') {p : ℕ} {id : String} (hp : v.ids[p]? = some id) :
    v'.ids[p]? = some id := by
  rcases h.ids_cases with ⟨id', -, hids, -⟩ | ⟨hids, -⟩
  · rw [hids, List.getElem?_append_left (List.getElem?_eq_some_iff.mp hp).1, hp]
  · rw [hids, hp]

/-- What a step makes of a transaction. -/
theorem Step.transaction (h : v.Step l v') (hinv : TxInv v) {p : ℕ} {tx : Transaction}
    (htx : v.transactions[p]? = some tx) :
    ∃ tx', v'.transactions[p]? = some tx' ∧ TxStatus.Moves (some tx.status) (some tx'.status) := by
  have hset : ∀ {q : ℕ} {tx₁ tx₂ : Transaction}, v.transactions[q]? = some tx₁ →
      TxStatus.Moves (some tx₁.status) (some tx₂.status) →
      ∃ tx', (v.transactions.set q tx₂)[p]? = some tx' ∧
        TxStatus.Moves (some tx.status) (some tx'.status) := by
    intro q tx₁ tx₂ hq hmoves
    by_cases heq : q = p
    · subst heq
      obtain rfl := Option.some.inj (hq.symm.trans htx)
      exact ⟨tx₂, List.getElem?_set_self (List.getElem?_eq_some_iff.mp hq).1, hmoves⟩
    · exact ⟨tx, by rw [List.getElem?_set_ne heq, htx], .stay _⟩
  cases h with
  | idle => exact ⟨tx, htx, .stay _⟩
  | begins =>
      refine ⟨tx, ?_, .stay _⟩
      rw [List.getElem?_append_left (List.getElem?_eq_some_iff.mp htx).1, htx]
  | stages hopen => exact hset hopen.2.1 (.stay _)
  | aborts hopen => exact hset hopen.2.1 (by rw [hopen.2.2]; exact .aborts)
  | starts hnone hopen => exact hset hopen.2.1 (by rw [hopen.2.2]; exact .starts)
  | moves => exact ⟨tx, htx, .stay _⟩
  | @finishes call c tx₁ hc hphase hlen htx₁ =>
      obtain ⟨⟨tx₂, htx₂, hstatus, -⟩, -⟩ := hinv.call call c hc
      obtain rfl := Option.some.inj (htx₁.symm.trans htx₂)
      rw [hphase] at hstatus
      exact hset htx₁ (by rw [hstatus]; exact .finishes)

end TxView

/-- The histories and the transactions they are about. -/
structure HistInv (v : TxView) : Prop where
  ids : ∀ (id : String) (p : ℕ), v.txState[id]? = some p ↔ v.ids[p]? = some id
  entries : ∀ e ∈ v.staged ++ v.committed, v.ids[e.ptr]? = some e.id
  calls : ∀ (call : ℕ) (c : CommitCall), v.commits[call]? = some c → v.ids[c.ptr]? = some c.id
  records : ∀ (p : ℕ) (tx : Transaction), v.transactions[p]? = some tx → tx.status ≠ .aborted →
    tx.records = recordsAt p v.staged
  aborted : ∀ e ∈ v.aborted, v.ids[e.2]? = some e.1 ∧
    ∃ tx : Transaction, v.transactions[e.2]? = some tx ∧ tx.status = .aborted

namespace HistInv

variable {v v' : TxView} {l : Option String}

/-- An id stands for one transaction. -/
theorem ptr_unique (h : HistInv v) {id : String} {p q : ℕ} (hp : v.ids[p]? = some id)
    (hq : v.ids[q]? = some id) : p = q := by
  rw [← h.ids] at hp hq
  exact Option.some.inj (hp.symm.trans hq)

/-- Selecting by the id of a transaction is selecting by its place. -/
theorem filter_id_eq (h : HistInv v) {id : String} {p : ℕ} (hp : v.ids[p]? = some id)
    {es : List Staged} (hes : ∀ e ∈ es, v.ids[e.ptr]? = some e.id) :
    (es.filter fun e => decide (e.id = id)).map Staged.record = recordsAt p es := by
  rw [recordsAt, List.filter_congr fun e he => decide_eq_decide.mpr ?_]
  constructor
  · rintro rfl
    exact h.ptr_unique (hes e he) hp
  · rintro rfl
    exact Option.some.inj ((hes e he).symm.trans hp)

theorem ids_step (h : HistInv v) (hstep : v.Step l v') (hfresh : ∀ id ∈ l, v.txState[id]? = none)
    (id : String) (p : ℕ) : v'.txState[id]? = some p ↔ v'.ids[p]? = some id := by
  rcases hstep.ids_cases with ⟨id', rfl, hids, hstate⟩ | ⟨hids, hstate⟩
  · have hnew : ∀ q : ℕ, v.ids[q]? ≠ some id' := by
      intro q hq
      rw [← h.ids, hfresh id' rfl] at hq
      cases hq
    rw [hids, hstate, OrdMap.getElem?_insert]
    by_cases heq : id' = id
    · subst heq
      rw [if_pos rfl, Option.some.injEq]
      constructor
      · rintro rfl
        simp
      · intro hp
        rw [List.getElem?_append] at hp
        split at hp
        · exact absurd hp (hnew p)
        · have hlt := (List.getElem?_eq_some_iff.mp hp).1
          rw [List.length_singleton] at hlt
          omega
    · rw [if_neg heq, h.ids, List.getElem?_append]
      split
      · rfl
      · next hlt =>
          rw [List.getElem?_eq_none (Nat.le_of_not_lt hlt), List.getElem?_singleton]
          split <;> simp [heq]
  · rw [hids, hstate]
    exact h.ids id p

/-- The records after a step that replaces the transaction at place `q`. -/
theorem records_set (h : HistInv v) {q : ℕ} {tx₁ tx₂ : Transaction}
    (hq : v.transactions[q]? = some tx₁) (rs : List Staged)
    (hother : ∀ p, q ≠ p → recordsAt p rs = [])
    (hself : tx₂.status ≠ .aborted →
      tx₁.status ≠ .aborted ∧ tx₂.records = tx₁.records ++ recordsAt q rs)
    {p : ℕ} {tx : Transaction} (htx : (v.transactions.set q tx₂)[p]? = some tx)
    (hstatus : tx.status ≠ .aborted) : tx.records = recordsAt p (v.staged ++ rs) := by
  rw [recordsAt_append]
  by_cases heq : q = p
  · subst heq
    rw [List.getElem?_set_self (List.getElem?_eq_some_iff.mp hq).1] at htx
    obtain rfl := Option.some.inj htx
    obtain ⟨hold, hrecords⟩ := hself hstatus
    rw [hrecords, h.records q tx₁ hq hold]
  · rw [List.getElem?_set_ne heq] at htx
    rw [hother p heq, List.append_nil]
    exact h.records p tx htx hstatus

theorem records_step (h : HistInv v) (hinv : TxInv v) (hstep : v.Step l v') {p : ℕ}
    {tx : Transaction} (htx : v'.transactions[p]? = some tx) (hstatus : tx.status ≠ .aborted) :
    tx.records = recordsAt p v'.staged := by
  -- a step that stages nothing and leaves the records of the transaction alone
  have hkeep : ∀ {q : ℕ} {tx₁ tx₂ : Transaction}, v.transactions[q]? = some tx₁ →
      (v.transactions.set q tx₂)[p]? = some tx →
      (tx₂.status ≠ .aborted → tx₁.status ≠ .aborted ∧ tx₂.records = tx₁.records) →
      tx.records = recordsAt p v.staged := by
    intro q tx₁ tx₂ hq htx hself
    have hset := h.records_set hq [] (fun _ _ => rfl)
      (fun hne => ⟨(hself hne).1, (hself hne).2.trans (List.append_nil _).symm⟩) htx hstatus
    rwa [List.append_nil] at hset
  cases hstep with
  | idle => exact h.records p tx htx hstatus
  | begins tx' _ hrecords =>
      change (v.transactions ++ [tx'])[p]? = some tx at htx
      rw [List.getElem?_append] at htx
      split at htx
      · exact h.records p tx htx hstatus
      · next hlt =>
          -- nothing was staged at a place that was not taken
          obtain rfl : tx' = tx := by
            rw [List.getElem?_singleton] at htx
            split at htx
            · exact Option.some.inj htx
            · cases htx
          rw [hrecords]
          refine (recordsAt_eq_nil fun e he heq => hlt ?_).symm
          have hid := h.entries e (List.mem_append_left _ he)
          have hlen := (List.getElem?_eq_some_iff.mp hid).1
          rw [TxView.ids, List.length_map, heq] at hlen
          exact hlen
  | @stages id q tx₁ hopen r =>
      refine h.records_set hopen.2.1 [⟨id, q, r⟩] (fun p hne => recordsAt_map_of_ne id hne [r])
        (fun _ => ⟨?_, ?_⟩) htx hstatus
      · rw [hopen.2.2]
        exact fun hc => by cases hc
      · exact congrArg (tx₁.records ++ ·) (recordsAt_map_self id q [r]).symm
  | aborts hopen => exact hkeep hopen.2.1 htx (fun hne => absurd rfl hne)
  | starts hnone hopen =>
      refine hkeep hopen.2.1 htx (fun _ => ⟨?_, rfl⟩)
      rw [hopen.2.2]
      exact fun hc => by cases hc
  | moves => exact h.records p tx htx hstatus
  | @finishes call c tx₁ hc hphase hlen htx₁ =>
      refine hkeep htx₁ htx (fun _ => ⟨?_, rfl⟩)
      obtain ⟨⟨tx₂, htx₂, hstatus₂, -⟩, -⟩ := hinv.call call c hc
      obtain rfl := Option.some.inj (htx₁.symm.trans htx₂)
      rw [hstatus₂, hphase]
      exact fun hc => by cases hc

theorem aborted_step (h : HistInv v) (hinv : TxInv v) (hstep : v.Step l v') :
    ∀ e ∈ v'.aborted, v'.ids[e.2]? = some e.1 ∧
      ∃ tx : Transaction, v'.transactions[e.2]? = some tx ∧ tx.status = .aborted := by
  have hold : ∀ e ∈ v.aborted, v'.ids[e.2]? = some e.1 ∧
      ∃ tx : Transaction, v'.transactions[e.2]? = some tx ∧ tx.status = .aborted := by
    intro e he
    obtain ⟨hid, tx, htx, hstatus⟩ := h.aborted e he
    obtain ⟨tx', htx', hmoves⟩ := hstep.transaction hinv htx
    refine ⟨hstep.ids_mono hid, tx', htx', ?_⟩
    rw [hstatus] at hmoves
    exact Option.some.inj hmoves.eq_of_aborted
  cases hstep with
  | @aborts id p tx hopen =>
      intro e he
      rcases List.mem_append.mp he with he | he
      · exact hold e he
      · obtain rfl := List.mem_singleton.mp he
        have hids : (v.transactions.set p { tx with status := .aborted, records := [] }).map
            Transaction.id = v.ids := TxView.ids_set hopen.2.1 rfl
        refine ⟨?_, _, List.getElem?_set_self (List.getElem?_eq_some_iff.mp hopen.2.1).1, rfl⟩
        rw [TxView.ids, hids]
        exact (h.ids id p).mp hopen.1
  | _ => exact hold

theorem entries_step (h : HistInv v) (hstep : v.Step l v') :
    ∀ e ∈ v'.staged ++ v'.committed, v'.ids[e.ptr]? = some e.id := by
  have hold : ∀ e ∈ v.staged ++ v.committed, v'.ids[e.ptr]? = some e.id :=
    fun e he => hstep.ids_mono (h.entries e he)
  intro e he
  have hmono := @hstep.ids_mono
  cases hstep with
  | @stages id p tx hopen r =>
      rw [List.append_assoc, List.mem_append, List.mem_append] at he
      rcases he with he | he | he
      · exact hold e (List.mem_append_left _ he)
      · obtain rfl := List.mem_singleton.mp he
        exact hmono ((h.ids id p).mp hopen.1)
      · exact hold e (List.mem_append_right _ he)
  | @moves call c c' rs hc hmoves =>
      rw [← List.append_assoc, List.mem_append] at he
      rcases he with he | he
      · exact hold e he
      · obtain ⟨r, -, rfl⟩ := List.mem_map.mp he
        exact hmono (h.calls call c hc)
  | _ => exact hold e he

theorem calls_step (h : HistInv v) (hstep : v.Step l v') {call : ℕ} {c : CommitCall}
    (hc : v'.commits[call]? = some c) : v'.ids[c.ptr]? = some c.id := by
  have hold : ∀ c, v.commits[call]? = some c → v'.ids[c.ptr]? = some c.id :=
    fun c hc => hstep.ids_mono (h.calls call c hc)
  -- a call that a step puts in place is about a known transaction
  have hinsert : ∀ {call₁ : ℕ} {c₁ : CommitCall}, (v.commits.insert call₁ c₁)[call]? = some c →
      v.ids[c₁.ptr]? = some c₁.id → v'.ids[c.ptr]? = some c.id := by
    intro call₁ c₁ hc hid
    rcases OrdMap.getElem?_insert_cases hc with ⟨-, rfl⟩ | ⟨-, hc⟩
    · exact hstep.ids_mono hid
    · exact hold c hc
  cases hstep with
  | @starts call₁ id p tx hnone hopen => exact hinsert hc ((h.ids id p).mp hopen.1)
  | @moves call₁ c₁ c₂ rs hc₁ hmoves =>
      refine hinsert hc ?_
      obtain ⟨hid, hptr, -⟩ := hmoves.keeps
      rw [hid, hptr]
      exact h.calls call₁ c₁ hc₁
  | @finishes call₁ c₁ tx hc₁ => exact hinsert hc (h.calls call₁ c₁ hc₁)
  | _ => exact hold c hc

/-- Every step keeps the histories, if a transaction that begins has a new id. -/
theorem step (h : HistInv v) (hinv : TxInv v) (hstep : v.Step l v')
    (hfresh : ∀ id ∈ l, v.txState[id]? = none) : HistInv v' :=
  ⟨h.ids_step hstep hfresh, h.entries_step hstep, fun _ _ => h.calls_step hstep,
    fun _ _ => h.records_step hinv hstep, h.aborted_step hinv hstep⟩

/-- Along every step a status only moves forward. -/
theorem status_step (h : HistInv v) (hinv : TxInv v) (hstep : v.Step l v')
    (hfresh : ∀ id ∈ l, v.txState[id]? = none) (id : String) :
    TxStatus.Moves (v.status id) (v'.status id) := by
  cases hp : v.txState[id]? with
  | some p =>
      -- the id stands for the same transaction after the step
      have hid := (h.ids id p).mp hp
      have hp' := (h.ids_step hstep hfresh id p).mpr (hstep.ids_mono hid)
      rw [TxView.ids, List.getElem?_map] at hid
      obtain ⟨tx, htx, -⟩ := Option.map_eq_some_iff.mp hid
      obtain ⟨tx', htx', hmoves⟩ := hstep.transaction hinv htx
      have hst : v.status id = some tx.status := by
        rw [TxView.status, hp, Option.bind_some, htx, Option.map_some]
      have hst' : v'.status id = some tx'.status := by
        rw [TxView.status, hp', Option.bind_some, htx', Option.map_some]
      rw [hst, hst']
      exact hmoves
  | none =>
      have hst : v.status id = none := by rw [TxView.status, hp]; rfl
      rw [hst]
      have hnone : v'.txState[id]? = none → TxStatus.Moves none (v'.status id) := by
        intro hp'
        rw [TxView.status, hp']
        exact .stay _
      cases hstep with
      | begins tx hstatus =>
          by_cases heq : tx.id = id
          · have hst' : TxView.status { v with
                txState := v.txState.insert tx.id v.transactions.length
                transactions := v.transactions ++ [tx] } id = some .opened := by
              simp [TxView.status, heq, hstatus]
            rw [hst']
            exact .begins
          · exact hnone (by rw [OrdMap.getElem?_insert_of_ne _ _ heq, hp])
      | _ => exact hnone hp

end HistInv

namespace Sys

/-- The records of the transaction `id` in the log of a topic. -/
def committedTo (s : Sys) (id topic : String) : List TxRecord :=
  (((s.log topic).filterMap Written.committed?).filter fun e => decide (e.id = id)).map
    Staged.record

/-- The records whose `TxProduce` for the transaction `id` returned nil. -/
def stagedFor (s : Sys) (id : String) : List TxRecord :=
  (s.staged.filter fun e => decide (e.id = id)).map Staged.record

/-- A transaction that begins gets an id that no transaction had before. -/
def FreshId (s : Sys) (action : Action) : Prop :=
  ∀ id ∈ action.begins, s.world.broker.txState[id]? = none

instance (s : Sys) (action : Action) : Decidable (s.FreshId action) :=
  inferInstanceAs (Decidable (∀ id ∈ action.begins, _))

variable {json : RecordJson} {s s' : Sys}

theorem committedTo_eq (s : Sys) (id topic : String) :
    s.committedTo id topic =
      ((s.txView.committed.filter fun e => decide (e.id = id)).map Staged.record).filter
        fun r => decide (r.topic = topic) := by
  rw [committedTo, filterMap_committed_log, List.filter_map, List.filter_comm]
  rfl

theorem histInv_init (fs : FileTree) (dir : SlashPath) :
    HistInv (Sys.init ⟨fs, .fresh dir⟩).txView := by
  refine ⟨fun id p => ?_, fun e he => ?_, fun call c hc => ?_, fun p tx htx => ?_,
    fun e he => ?_⟩
  · simp [txView, Sys.init, Broker.fresh, TxView.ids]
  · simp [txView, Sys.init] at he
  · simp [txView, Sys.init] at hc
  · simp [txView, Sys.init, Broker.fresh] at htx
  · simp [txView, Sys.init] at he

theorem histInv_run {fs : FileTree} {dir : SlashPath} {actions : List Action}
    (hrun : exec (Sys.step json) (.init ⟨fs, .fresh dir⟩) actions = some s)
    (hids : Guarded (Sys.step json) FreshId (.init ⟨fs, .fresh dir⟩) actions) :
    TxInv s.txView ∧ HistInv s.txView :=
  invariant_of_guarded (fun s : Sys => TxInv s.txView ∧ HistInv s.txView)
    (fun _ _ _ ⟨hinv, hhist⟩ hfresh hs =>
      ⟨txInv_step hinv hs, hhist.step hinv (txView_step hinv hs) hfresh⟩)
    hrun hids ⟨txInv_init _, histInv_init fs dir⟩

theorem committedTo_eq_recordsAt (h : HistInv s.txView) {id : String} {p : ℕ}
    (hp : s.txView.ids[p]? = some id) (topic : String) :
    s.committedTo id topic =
      (recordsAt p s.txView.committed).filter fun r => decide (r.topic = topic) := by
  rw [committedTo_eq, h.filter_id_eq hp fun e he => h.entries e (List.mem_append_right _ he)]

/-- A transaction that was aborted is in no log. -/
theorem committedTo_of_aborted (hinv : TxInv s.txView) (h : HistInv s.txView) {id : String}
    {p : ℕ} (hmem : (id, p) ∈ s.aborted) (topic : String) : s.committedTo id topic = [] := by
  obtain ⟨hid, tx, htx, hstatus⟩ := h.aborted (id, p) hmem
  have hidle : recordsAt p s.txView.committed = [] := by
    refine hinv.idle p fun call c hc => ?_
    rintro rfl
    obtain ⟨⟨tx', htx', hstatus', -⟩, -⟩ := hinv.call call c hc
    obtain rfl := Option.some.inj (htx.symm.trans htx')
    rw [hstatus] at hstatus'
    cases hphase : c.phase <;> rw [hphase] at hstatus' <;> cases hstatus'
  rw [committedTo_eq_recordsAt h hid, hidle]
  rfl

/-- A transaction whose commit returned nil is in the logs as it was staged. -/
theorem committedTo_of_done (hinv : TxInv s.txView) (h : HistInv s.txView) {call : ℕ}
    {c : CommitCall} (hc : s.commits[call]? = some c) (hdone : c.phase = .done)
    (topic : String) :
    s.committedTo c.id topic = (s.stagedFor c.id).filter fun r => decide (r.topic = topic) := by
  have hid := h.calls call c hc
  obtain ⟨⟨tx, htx, hstatus, hrecords⟩, hprogress⟩ := hinv.call call c hc
  rw [CommitCall.Progress, hdone] at hprogress
  have hstaged : tx.records = recordsAt c.ptr s.staged := by
    refine h.records c.ptr tx htx ?_
    rw [hstatus, hdone]
    exact fun hcontra => by cases hcontra
  have hfor : s.stagedFor c.id = recordsAt c.ptr s.staged :=
    h.filter_id_eq hid fun e he => h.entries e (List.mem_append_left _ he)
  rw [committedTo_eq_recordsAt h hid, hprogress, ← hrecords, hstaged, hfor]

end Sys

/-- Transactions exactly once: `Consume` shows the logs; the status of a transaction only moves
from open to committing to committed, or from open to aborted; a transaction that was aborted is
in no log; at most one commit of an id returns nil; and after it has, each log holds the records
staged for the transaction and this topic, each once and in the order of their staging. -/
structure ExactlyOnce (json : RecordJson) (f : Record → Record) (base : String → List Record)
    (w : World) (actions : List Action) (s : Sys) : Prop where
  logs : s.ShowsLogs json f base
  moves : ∀ before action after s₁ s₂, actions = before ++ action :: after →
    exec (Sys.step json) (.init w) before = some s₁ → s₁.step json action = some s₂ →
    ∀ id, TxStatus.Moves (s₁.txView.status id) (s₂.txView.status id)
  aborted : ∀ id p, (id, p) ∈ s.aborted → ∀ topic, s.committedTo id topic = []
  once : ∀ (call call' : ℕ) (c c' : CommitCall), s.commits[call]? = some c →
    s.commits[call']? = some c' → c.phase = .done → c'.phase = .done → c.id = c'.id → call = call'
  committed : ∀ (call : ℕ) (c : CommitCall), s.commits[call]? = some c → c.phase = .done →
    ∀ topic, s.committedTo c.id topic =
      (s.stagedFor c.id).filter fun r => decide (r.topic = topic)

/-- Transactions are carried out exactly once in every interleaving of any calls in which the
transactions begin with different ids and the topics are created in directories of their own. The
process starts on a directory with any logs `base`. -/
theorem transaction_exactly_once (json : RecordJson) {f : Record → Record}
    (hjson : json.Decodes f) (fs : FileTree) (dir : SlashPath) {base : String → List Record}
    (hw : World.Continues json base ⟨fs, .fresh dir⟩ fun _ => []) {actions : List Action} {s : Sys}
    (hrun : exec (Sys.step json) (.init ⟨fs, .fresh dir⟩) actions = some s)
    (hids : Guarded (Sys.step json) Sys.FreshId (.init ⟨fs, .fresh dir⟩) actions)
    (hown : Guarded (Sys.step json) Sys.OwnDirs (.init ⟨fs, .fresh dir⟩) actions) :
    ExactlyOnce json f base ⟨fs, .fresh dir⟩ actions s := by
  obtain ⟨hinv, hhist⟩ := Sys.histInv_run hrun hids
  refine ⟨Sys.showsLogs_run hjson hw hrun hown, ?_, ?_, ?_, ?_⟩
  · rintro before action after s₁ s₂ rfl hbefore hstep id
    obtain ⟨hinv₁, hhist₁⟩ := Sys.histInv_run hbefore (guarded_of_append hids)
    exact hhist₁.status_step hinv₁ (Sys.txView_step hinv₁ hstep)
      (guard_of_append_cons hids hbefore) id
  · exact fun id p hmem => Sys.committedTo_of_aborted hinv hhist hmem
  · intro call call' c c' hc hc' _ _ heq
    have hid := hhist.calls call c hc
    rw [heq] at hid
    exact hinv.unique call call' c c' hc hc' (hhist.ptr_unique hid (hhist.calls call' c' hc'))
  · exact fun call c hc hdone => Sys.committedTo_of_done hinv hhist hc hdone

/-- Two transactions and a producer on one topic: the first is committed, while a
record comes too late for it and another is produced between its own; the second is
aborted. -/
def interleavedSample : List Action :=
  [.beginTransaction "p" 1 0 0, .beginTransaction "p" 1 1 1,
    .txProduce "p-1-0" "t" (asciiBytes "k") (asciiBytes "v") ∅,
    .txProduce "p-1-1" "t" (asciiBytes "k") (asciiBytes "v") ∅,
    .txProduce "p-1-0" "t" (asciiBytes "k") (asciiBytes "v") ∅,
    .commitStart 0 "p-1-0", .txProduce "p-1-0" "t" [] [] ∅, .commitCreate 0 none,
    .commitProduce 0 ⟨0, 0, .ok⟩, .produce ⟨0, 0, .ok⟩ "t" (asciiBytes "k") (asciiBytes "v") ∅,
    .abortTransaction "p-1-1", .commitStart 1 "p-1-1", .commitCreate 0 none,
    .commitProduce 0 ⟨0, 0, .ok⟩, .commitFinish 0]

theorem transaction_exactly_once_sample :
    ∃ s, exec (Sys.step sampleJson) (.init ⟨fun _ => none, .fresh ⟨true, ["d"]⟩⟩)
        interleavedSample = some s ∧
      (s.world.consume sampleJson "t" 0 10 =
          .ok [sampleRecord 0, sampleRecord 1, sampleRecord 2] ∧
        s.aborted = [("p-1-1", 1)] ∧ (s.commits[0]?).map CommitCall.phase = some .done ∧
        (s.committedTo "p-1-0" "t").length = 2) ∧
      ExactlyOnce sampleJson id (fun _ => []) ⟨fun _ => none, .fresh ⟨true, ["d"]⟩⟩
        interleavedSample s := by
  obtain ⟨s, hrun, hs⟩ : ∃ s, exec (Sys.step sampleJson)
        (.init ⟨fun _ => none, .fresh ⟨true, ["d"]⟩⟩) interleavedSample = some s ∧
      s.world.consume sampleJson "t" 0 10 =
          .ok [sampleRecord 0, sampleRecord 1, sampleRecord 2] ∧
        s.aborted = [("p-1-1", 1)] ∧ (s.commits[0]?).map CommitCall.phase = some .done ∧
        (s.committedTo "p-1-0" "t").length = 2 :=
    exists_exec_of_any (by decide +kernel)
  exact ⟨s, hrun, hs, transaction_exactly_once sampleJson sampleJson_faithful (fun _ => none)
    ⟨true, ["d"]⟩ (.start rfl fun _ _ _ => rfl) hrun (by decide +kernel) (by decide +kernel)⟩

/-- A commit to two names of one directory returns nil, and the record with the value `w` is in no
log. -/
theorem not_exactly_once_overwrite :
    Guarded (Sys.step overwriteJson) Sys.FreshId
        (.init ⟨fun _ => none, .fresh ⟨true, ["d"]⟩⟩) overwriteSample ∧
    ∃ s, exec (Sys.step overwriteJson) (.init ⟨fun _ => none, .fresh ⟨true, ["d"]⟩⟩)
        overwriteSample = some s ∧
      ((s.commits[0]?).map CommitCall.phase = some .done ∧
        (s.world.consume overwriteJson "a" 0 10).map (List.map Record.value) =
          .ok [asciiBytes "v", asciiBytes "x"] ∧
        s.world.consume overwriteJson "a/" 0 10 = s.world.consume overwriteJson "a" 0 10) ∧
      ¬ ExactlyOnce overwriteJson id (fun _ => []) ⟨fun _ => none, .fresh ⟨true, ["d"]⟩⟩
        overwriteSample s := by
  obtain ⟨s, hrun, hread, hnot⟩ := overwrite_run
  exact ⟨by decide +kernel, s, hrun, hread, fun h => hnot h.logs⟩

end StreamFlow
