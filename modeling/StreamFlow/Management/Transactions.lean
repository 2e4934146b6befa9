import StreamFlow.Broker.TransactionRuns
import StreamFlow.Management.Acknowledged

/-!
# Transactions through the management API

The handlers of `/tx/begin`, `/tx/produce`, `/tx/commit` and `/tx/abort` among all others, with any
number of requests handled at once. `TxOk` ties the answers that were given to the histories of the
broker, and `SectionOk` is what each section has to leave for it. From the protocol of `TxProtocol`
it follows that a transaction is committed as its clients see it: what the logs hold for it are the
records whose requests were answered as buffered. The logs are those that `Consume` reads, as long
as no two topics share a directory.
-/

namespace StreamFlow.Management

open Run Segment

variable {α : Type} {lib : Library α}

/-! ### What a section does to the transactions -/

/-- The stages behind the first section in which no commit is under way. -/
def Stage.noCommit : Stage → Bool
  | .arrived => false
  | .committing _ => false
  | _ => true

/-- An answer that reports no change of a transaction. -/
def Silent (lib : Library α) (req : Request) (stage : Stage) : Prop :=
  ∀ resp, stage = .answered resp → resp.status = 200 →
    ∀ endpoint, route lib req = .handler endpoint → endpoint.changesTx = false

section Silent

variable {req : Request} {stage : Stage} {resp : Response}

theorem silent_of_status (h : resp.status ≠ 200) : Silent lib req (.answered resp) := by
  rintro _ ⟨⟩ hstatus
  exact absurd hstatus h

theorem silent_of_route {endpoint : Endpoint} (h : route lib req = .handler endpoint)
    (hchanges : endpoint.changesTx = false) : Silent lib req stage := by
  intro _ _ _ endpoint' hroute
  obtain rfl := Matched.handler.inj (h.symm.trans hroute)
  exact hchanges

theorem Plain.silent_answered (h : Plain lib req resp) : Silent lib req (.answered resp) := by
  rintro _ ⟨⟩
  exact h.silent

end Silent

/-- A committed offset is only a file. -/
theorem txView_commitOffset (sys : Sys) (mkdirOk : Bool) (o : ByteFile.ReplaceOutcome)
    (topic group : String) (offset : Offset) :
    Sys.txView { sys with world := (sys.world.commitOffset mkdirOk o topic group offset).1 } =
      sys.txView := by
  obtain ⟨fs, hworld, -⟩ := sys.world.exists_commitOffset mkdirOk o topic group offset
  rw [hworld]
  rfl

theorem txView_nextIdempotent {env : Outside} {sys sys' : Sys} {id : ℕ}
    (h : nextIdempotent lib env sys id = some sys') : sys'.txView = sys.txView := by
  unfold nextIdempotent at h
  split at h
  · obtain ⟨a, -, hres⟩ := Sys.idemProduce_cases h
    have hview := sys.txView_produce_of_ne lib.json env.produce (.idem id a) (fun _ _ _ => nofun)
      a.topicName a.key a.value a.headers
    rcases hres with ⟨rec, -, rfl⟩ | ⟨e, -, rfl⟩
    · exact hview
    · exact hview
  · obtain ⟨a, rec, -, rfl⟩ := Sys.idemRecord_cases h
    rfl
  · cases h

theorem noCommit_afterIdempotent (sys : Sys) (metrics : Metrics α) (id : ℕ) (topic : String) :
    (afterIdempotent sys metrics id topic).stage.noCommit = true := by
  unfold afterIdempotent
  split <;> rfl

/-- What the next section of a commit makes of its call. -/
structure CallMoves (sys : Sys) (id : ℕ) (sys' : Sys) (c c' : CommitCall) : Prop where
  before : sys.commits[id]? = some c
  commits : sys'.commits = sys.commits.insert id c'
  txID : c'.id = c.id
  bound : c.committed ≤ c.records.length → c'.committed ≤ c'.records.length
  done : c'.phase = .done → c'.records.length ≤ c'.committed
  staged : sys'.staged = sys.staged
  aborted : sys'.aborted = sys.aborted
  step : TxInv sys.txView → sys.txView.Step none sys'.txView

theorem nextCommit_cases {env : Outside} {sys sys' : Sys} {id : ℕ}
    (h : nextCommit lib env sys id = some sys') : ∃ c c', CallMoves sys id sys' c c' := by
  unfold nextCommit at h
  split at h
  · split at h
    · obtain ⟨txID, p, records, k, r, hcall, hr, hres⟩ := Sys.commitProduce_cases h
      have hstep := fun _ : TxInv sys.txView => Sys.txView_commitProduce h
      have hk : k < records.length := (List.getElem?_eq_some_iff.mp hr).1
      rcases hres with ⟨rec, -, rfl⟩ | ⟨e, -, rfl⟩
      · exact ⟨_, _, hcall, rfl, rfl, fun _ => hk, nofun, rfl, rfl, hstep⟩
      · exact ⟨_, _, hcall, rfl, rfl, fun hle => hle, nofun, rfl, rfl, hstep⟩
    · split at h
      · obtain ⟨txID, p, records, k, r, hcall, hr, hres⟩ := Sys.commitCreate_cases h
        have hstep := fun _ : TxInv sys.txView => Sys.txView_commitCreate h
        rcases hres with ⟨topic, -, rfl⟩ | ⟨e, -, rfl⟩
        · exact ⟨_, _, hcall, rfl, rfl, fun hle => hle, nofun, rfl, rfl, hstep⟩
        · exact ⟨_, _, hcall, rfl, rfl, fun hle => hle, nofun, rfl, rfl, hstep⟩
      · have hstep := fun hinv : TxInv sys.txView => Sys.txView_commitFinish hinv h
        obtain ⟨txID, p, records, k, hcall, hlen, rfl⟩ := Sys.commitFinish_cases h
        exact ⟨_, _, hcall, rfl, rfl, fun hle => hle, fun _ => hlen, rfl, rfl, hstep⟩
  · cases h

/-! ### Answers and histories -/

namespace Server

/-- The transaction and the record of a request that was answered as buffered. -/
def buffered? (lib : Library α) (a : Answer) : Option (String × TxRecord) :=
  if route lib a.req = .handler .txProduce ∧ a.resp.status = 200 then
    (lib.txProduce a.req.body).map fun p => (p.txID, p.staged)
  else none

/-- The transaction of a request that was answered as aborted. -/
def aborted? (lib : Library α) (a : Answer) : Option String :=
  if route lib a.req = .handler .txAbort ∧ a.resp.status = 200 then lib.txID a.req.body else none

/-- The records of a transaction that were answered as buffered, in their order. -/
def buffered (lib : Library α) (s : Server α) (txID : String) : List TxRecord :=
  ((s.answers.filterMap (buffered? lib)).filter fun e => decide (e.1 = txID)).map Prod.snd

/-- The id of the transaction that an event begins. -/
def begins (lib : Library α) (s : Server α) : Event → Option String
  | .arrive _ _ => none
  | .record _ _ => none
  | .advance id env =>
      match s.requests[id]? with
      | some (req, .arrived) => beginsTx lib req env.now
      | _ => none

/-- A transaction that begins gets an id that no transaction had before. -/
def FreshTx (lib : Library α) (s : Server α) (e : Event) : Prop :=
  ∀ txID ∈ s.begins lib e, s.sys.world.broker.txState[txID]? = none

instance (s : Server α) (e : Event) : Decidable (s.FreshTx lib e) :=
  inferInstanceAs (Decidable (∀ txID ∈ s.begins lib e, _))

/-- The answers agree with the histories of the broker, and the commits with their requests. -/
structure TxOk (lib : Library α) (s : Server α) : Prop where
  inv : TxInv s.sys.txView
  hist : HistInv s.sys.txView
  bound : ∀ (call : ℕ) (c : CommitCall), s.sys.commits[call]? = some c →
    c.committed ≤ c.records.length ∧ (c.phase = .done → c.records.length ≤ c.committed)
  stages : ∀ (id : ℕ) (req : Request) (stage : Stage), s.requests[id]? = some (req, stage) →
    StageOk lib req stage
  staged : s.sys.staged.map (fun e => (e.id, e.record)) = s.answers.filterMap (buffered? lib)
  aborted : s.sys.aborted.map Prod.fst = s.answers.filterMap (aborted? lib)
  running : ∀ (id : ℕ) (req : Request) (txID : String),
    s.requests[id]? = some (req, .committing txID) → ∃ c, s.sys.commits[id]? = some c ∧ c.id = txID
  unstarted : ∀ id : ℕ, (∀ (req : Request) (stage : Stage),
    s.requests[id]? = some (req, stage) → stage = .arrived) → s.sys.commits[id]? = none
  committed : ∀ a ∈ s.answers, route lib a.req = .handler .txCommit → a.resp.status = 200 →
    ∃ c, s.sys.commits[a.id]? = some c ∧ c.phase = .done ∧ lib.txID a.req.body = some c.id ∧
      a.resp.body = .committed c.committed

/-- What a section leaves for `TxOk`. -/
structure SectionOk (lib : Library α) (sys : Sys) (id : ℕ) (req : Request) (hd : Handled α) :
    Prop where
  stage : StageOk lib req hd.stage
  started : hd.stage ≠ .arrived
  step : ∃ l, sys.txView.Step l hd.sys.txView ∧
    ∀ txID ∈ l, sys.world.broker.txState[txID]? = none
  staged : hd.sys.staged.map (fun e => (e.id, e.record)) =
    sys.staged.map (fun e => (e.id, e.record)) ++
      (newAnswers id req hd.stage).filterMap (buffered? lib)
  aborted : hd.sys.aborted.map Prod.fst =
    sys.aborted.map Prod.fst ++ (newAnswers id req hd.stage).filterMap (aborted? lib)
  others : ∀ call : ℕ, id ≠ call → hd.sys.commits[call]? = sys.commits[call]?
  bound : ∀ c : CommitCall, hd.sys.commits[id]? = some c →
    c.committed ≤ c.records.length ∧ (c.phase = .done → c.records.length ≤ c.committed)
  running : ∀ txID, hd.stage = .committing txID →
    ∃ c, hd.sys.commits[id]? = some c ∧ c.id = txID
  committed : ∀ a ∈ newAnswers id req hd.stage, route lib req = .handler .txCommit →
    a.resp.status = 200 → ∃ c, hd.sys.commits[id]? = some c ∧ c.phase = .done ∧
      lib.txID req.body = some c.id ∧ a.resp.body = .committed c.committed

variable {s s' : Server α} {id : ℕ} {req : Request} {stage : Stage} {hd : Handled α}

theorem TxOk.put (h : s.TxOk lib) (hsec : SectionOk lib s.sys id req hd) :
    (s.put id req hd).TxOk lib := by
  obtain ⟨l, hstep, hfresh⟩ := hsec.step
  refine ⟨h.inv.step hstep, h.hist.step h.inv hstep hfresh, fun call c hc => ?_,
    fun id' req' stage' hreq' => ?_, ?_, ?_, fun id' req' txID hreq' => ?_, fun id' harrived => ?_,
    fun a ha hroute hstatus => ?_⟩
  · by_cases heq : id = call
    · subst heq
      exact hsec.bound c hc
    · exact h.bound call c ((hsec.others call heq).symm.trans hc)
  · rcases OrdMap.getElem?_insert_cases hreq' with ⟨rfl, heq⟩ | ⟨-, hold⟩
    · obtain ⟨rfl, rfl⟩ := Prod.mk.inj heq
      exact hsec.stage
    · exact h.stages id' req' stage' hold
  · exact hsec.staged.trans (by rw [h.staged, Server.put, List.filterMap_append])
  · exact hsec.aborted.trans (by rw [h.aborted, Server.put, List.filterMap_append])
  · rcases OrdMap.getElem?_insert_cases hreq' with ⟨rfl, heq⟩ | ⟨hne, hold⟩
    · exact hsec.running txID (Prod.mk.inj heq).2
    · obtain ⟨c, hc, hid⟩ := h.running id' req' txID hold
      exact ⟨c, (hsec.others id' hne).trans hc, hid⟩
  · by_cases heq : id = id'
    · subst heq
      exact absurd (harrived req hd.stage (OrdMap.getElem?_insert_self' _ _ _)) hsec.started
    · refine (hsec.others id' heq).trans (h.unstarted id' fun req' stage' hreq' => ?_)
      exact harrived req' stage' ((OrdMap.getElem?_insert_of_ne _ _ heq).trans hreq')
  · rcases List.mem_append.mp ha with ha | ha
    · obtain ⟨c, hc, hdone, hrest⟩ := h.committed a ha hroute hstatus
      -- a commit that has returned is never touched again
      exact ⟨c, hstep.commits_of_returned hc (by simp [hdone]) (by simp [hdone]), hdone, hrest⟩
    · obtain ⟨rfl, rfl, -⟩ := mem_newAnswers ha
      exact hsec.committed a ha hroute hstatus

/-! ### The cases keep it -/

theorem changesTx_of_silent (h : Silent lib req stage) {a : Answer}
    (ha : a ∈ newAnswers id req stage)
    (hstatus : a.resp.status = 200) {endpoint : Endpoint}
    (hroute : route lib a.req = .handler endpoint) : endpoint.changesTx = false := by
  obtain ⟨rfl, rfl, hstage⟩ := mem_newAnswers ha
  exact h a.resp hstage hstatus endpoint hroute

theorem filterMap_buffered_of_silent (h : Silent lib req stage) :
    (newAnswers id req stage).filterMap (buffered? lib) = [] :=
  List.filterMap_eq_nil_iff.mpr fun _ ha => if_neg fun ⟨hroute, hstatus⟩ => by
    cases changesTx_of_silent h ha hstatus hroute

theorem filterMap_aborted_of_silent (h : Silent lib req stage) :
    (newAnswers id req stage).filterMap (aborted? lib) = [] :=
  List.filterMap_eq_nil_iff.mpr fun _ ha => if_neg fun ⟨hroute, hstatus⟩ => by
    cases changesTx_of_silent h ha hstatus hroute

/-- A section that reports no change of a transaction and leaves the commits alone. -/
theorem sectionOk_of_silent (h : s.TxOk lib) (hstage : StageOk lib req hd.stage)
    (hcommit : hd.stage.noCommit = true) (hsilent : Silent lib req hd.stage)
    (hstep : ∃ l, s.sys.txView.Step l hd.sys.txView ∧
      ∀ txID ∈ l, s.sys.world.broker.txState[txID]? = none)
    (hstaged : hd.sys.staged = s.sys.staged) (haborted : hd.sys.aborted = s.sys.aborted)
    (hcommits : hd.sys.commits = s.sys.commits) : SectionOk lib s.sys id req hd := by
  refine ⟨hstage, fun hc => ?_, hstep, ?_, ?_, fun call _ => by rw [hcommits], fun c hc => ?_,
    fun txID hc => ?_, fun a ha hroute hstatus => ?_⟩
  · rw [hc] at hcommit
    cases hcommit
  · rw [hstaged, filterMap_buffered_of_silent hsilent, List.append_nil]
  · rw [haborted, filterMap_aborted_of_silent hsilent, List.append_nil]
  · rw [hcommits] at hc
    exact h.bound id c hc
  · rw [hc] at hcommit
    cases hcommit
  · obtain ⟨-, rfl, -⟩ := mem_newAnswers ha
    cases changesTx_of_silent hsilent ha hstatus hroute

/-- The call of a commit after the section that starts it. -/
theorem commitStart_of_ok {sys : Sys} {txID : String} {found : Broker × ℕ × List TxRecord}
    (hnone : sys.commits[id]? = none) (hstart : sys.world.broker.commitStart txID = .ok found) :
    ∃ p tx, sys.world.broker.openTx txID = .ok (p, tx) ∧ (sys.commitStart id txID).getD sys =
      (sys.setBroker (sys.world.broker.setTx p { tx with status := .committing })).setCommit id
        ⟨txID, p, tx.records, 0, .creating⟩ := by
  cases hopen : sys.world.broker.openTx txID with
  | error e =>
      rw [Broker.commitStart, hopen] at hstart
      cases hstart
  | ok opened =>
      refine ⟨opened.1, opened.2, rfl, ?_⟩
      simp [Sys.commitStart, hnone, Broker.commitStart, hopen]

/-- The answer of a commit that has moved on, by the phase of its call. -/
theorem afterCommit_cases {sys : Sys} {metrics : Metrics α} {txID : String} {c : CommitCall}
    (hc : sys.commits[id]? = some c) :
    (c.phase = .done ∧
      afterCommit sys metrics id txID = reply sys metrics ⟨200, .committed c.committed⟩) ∨
    (∃ e, afterCommit sys metrics id txID = reply sys metrics (.brokerError 409 e)) ∨
    afterCommit sys metrics id txID = ⟨sys, metrics, .committing txID⟩ := by
  unfold afterCommit
  rw [hc]
  cases hphase : c.phase with
  | done => exact .inl ⟨rfl, by simp [hphase]⟩
  | failed e => exact .inr (.inl ⟨e, by simp [hphase]⟩)
  | creating => exact .inr (.inr (by simp [hphase]))
  | producing => exact .inr (.inr (by simp [hphase]))

theorem sectionOk_of_commits (h : s.TxOk lib) {env : Outside} {txID : String}
    {metrics : Metrics α} {sys' : Sys} (hreq : s.requests[id]? = some (req, .committing txID))
    (hroute : route lib req = .handler .txCommit) (hbody : lib.txID req.body = some txID)
    (hnext : nextCommit lib env s.sys id = some sys') :
    SectionOk lib s.sys id req (afterCommit sys' metrics id txID) := by
  obtain ⟨c, c', hmoves⟩ := nextCommit_cases hnext
  obtain ⟨c₀, hc₀, hid⟩ := h.running id req txID hreq
  obtain rfl := Option.some.inj (hmoves.before.symm.trans hc₀)
  have hc' : sys'.commits[id]? = some c' := by
    rw [hmoves.commits, OrdMap.getElem?_insert_self']
  have hsys : (afterCommit sys' metrics id txID).sys = sys' := sys_afterCommit sys' metrics id txID
  have hquiet : ∀ a ∈ newAnswers id req (afterCommit sys' metrics id txID).stage,
      buffered? lib a = none ∧ aborted? lib a = none := by
    intro a ha
    obtain ⟨-, rfl, -⟩ := mem_newAnswers ha
    simp [buffered?, aborted?, hroute]
  refine ⟨?_, ?_, ⟨none, ?_, nofun⟩, ?_, ?_, fun call hne => ?_, fun c₁ hc₁ => ?_,
    fun txID' hstage => ?_, fun a ha _ hstatus => ?_⟩
  · rcases afterCommit_cases hc' with ⟨-, heq⟩ | ⟨e, heq⟩ | heq
    · rw [heq]
      trivial
    · rw [heq]
      trivial
    · rw [heq]
      exact ⟨hroute, hbody⟩
  · rcases afterCommit_cases hc' with ⟨-, heq⟩ | ⟨e, heq⟩ | heq <;> rw [heq] <;> nofun
  · rw [hsys]
    exact hmoves.step h.inv
  · rw [hsys, hmoves.staged, List.filterMap_eq_nil_iff.mpr fun a ha => (hquiet a ha).1,
      List.append_nil]
  · rw [hsys, hmoves.aborted, List.filterMap_eq_nil_iff.mpr fun a ha => (hquiet a ha).2,
      List.append_nil]
  · rw [hsys, hmoves.commits, OrdMap.getElem?_insert_of_ne _ _ hne]
  · rw [hsys, hc'] at hc₁
    obtain rfl := Option.some.inj hc₁
    exact ⟨hmoves.bound (h.bound id c hmoves.before).1, hmoves.done⟩
  · rw [hsys]
    refine ⟨c', hc', ?_⟩
    rcases afterCommit_cases hc' with ⟨-, heq⟩ | ⟨e, heq⟩ | heq
    · rw [heq] at hstage
      cases hstage
    · rw [heq] at hstage
      cases hstage
    · rw [heq] at hstage
      obtain rfl := Stage.committing.inj hstage
      exact hmoves.txID.trans hid
  · obtain ⟨-, -, hstage⟩ := mem_newAnswers ha
    rw [hsys]
    rcases afterCommit_cases hc' with ⟨hdone, heq⟩ | ⟨e, heq⟩ | heq
    · rw [heq] at hstage
      refine ⟨c', hc', hdone, by rw [hbody, hmoves.txID, hid], ?_⟩
      rw [← Stage.answered.inj hstage]
    · rw [heq] at hstage
      rw [← Stage.answered.inj hstage] at hstatus
      cases hstatus
    · rw [heq] at hstage
      cases hstage

theorem sectionOk_of_starts (h : s.TxOk lib) {txID : String} {metrics : Metrics α}
    {found : Broker × ℕ × List TxRecord} (hreq : s.requests[id]? = some (req, .arrived))
    (hroute : route lib req = .handler .txCommit) (hbody : lib.txID req.body = some txID)
    (hstart : s.sys.world.broker.commitStart txID = .ok found) :
    SectionOk lib s.sys id req
      ⟨(s.sys.commitStart id txID).getD s.sys, metrics, .committing txID⟩ := by
  have hnone : s.sys.commits[id]? = none := by
    refine h.unstarted id fun req' stage' hreq' => ?_
    rw [hreq] at hreq'
    exact (Prod.mk.inj (Option.some.inj hreq')).2.symm
  obtain ⟨p, tx, hopen, heq⟩ := commitStart_of_ok hnone hstart
  rw [heq]
  refine ⟨⟨hroute, hbody⟩, nofun, ⟨none, .starts hnone (Sys.open_of_openTx hopen), nofun⟩,
    (List.append_nil _).symm, (List.append_nil _).symm,
    fun call hne => OrdMap.getElem?_insert_of_ne _ _ hne, fun c hc => ?_, fun txID' hstage => ?_,
    fun a ha => by cases ha⟩
  · obtain rfl := Option.some.inj ((OrdMap.getElem?_insert_self' _ _ _).symm.trans hc)
    exact ⟨Nat.zero_le _, nofun⟩
  · obtain rfl := Stage.committing.inj hstage
    exact ⟨_, OrdMap.getElem?_insert_self' _ _ _, rfl⟩

theorem sectionOk_of_view (h : s.TxOk lib) (hstage : StageOk lib req hd.stage)
    (hcommit : hd.stage.noCommit = true) (hsilent : Silent lib req hd.stage)
    (hview : hd.sys.txView = s.sys.txView) : SectionOk lib s.sys id req hd := by
  refine sectionOk_of_silent h hstage hcommit hsilent ⟨none, ?_, nofun⟩
    (congrArg TxView.staged hview) (congrArg TxView.aborted hview) (congrArg TxView.commits hview)
  rw [hview]
  exact .idle _

theorem sectionOk_of_begins (h : s.TxOk lib) {env : Outside} {p : String × ℤ}
    {metrics : Metrics α} {resp : Response} (hreq : s.requests[id]? = some (req, .arrived))
    (hfresh : s.FreshTx lib (.advance id env)) (hsilent : Silent lib req (.answered resp))
    (hbegins : (Action.beginTransaction p.1 p.2 env.now env.createdAt).begins =
      beginsTx lib req env.now) :
    SectionOk lib s.sys id req
      (reply (s.sys.beginTransaction p.1 p.2 env.now env.createdAt) metrics resp) := by
  rw [FreshTx, Server.begins, hreq] at hfresh
  have hsame : ∀ sys', s.sys.beginTransaction p.1 p.2 env.now env.createdAt = sys' →
      sys'.staged = s.sys.staged ∧ sys'.aborted = s.sys.aborted ∧
        sys'.commits = s.sys.commits := by
    rintro _ rfl
    rcases s.sys.beginTransaction_cases p.1 p.2 env.now env.createdAt with
      heq | ⟨tx, -, -, -, -, heq⟩ <;> rw [heq] <;> exact ⟨rfl, rfl, rfl⟩
  obtain ⟨hstaged, haborted, hcommits⟩ := hsame _ rfl
  refine sectionOk_of_silent h trivial rfl hsilent
    ⟨_, s.sys.txView_beginTransaction p.1 p.2 env.now env.createdAt, ?_⟩ hstaged haborted hcommits
  rw [hbegins]
  exact hfresh

theorem sectionOk_of_section (h : s.TxOk lib) {env : Outside}
    (hreq : s.requests[id]? = some (req, stage)) (hfresh : s.FreshTx lib (.advance id env))
    (hsec : Section lib s.apiKey env s.sys s.metrics id req stage hd) :
    SectionOk lib s.sys id req hd := by
  have hstage := h.stages id req stage hreq
  have hstage' := hsec.stageOk hstage
  cases hsec with
  | stops =>
      exact sectionOk_of_view h hstage' rfl (silent_of_status (by simp [Response.message])) rfl
  | refuses hstatus =>
      refine sectionOk_of_view h hstage' rfl (silent_of_status fun h200 => ?_) rfl
      rw [h200] at hstatus
      simp at hstatus
  | opens hroute => exact sectionOk_of_view h hstage' rfl (silent_of_route hroute rfl) rfl
  | scrapes hnext =>
      refine sectionOk_of_view h hstage' ?_ (silent_of_route hstage rfl) rfl
      rcases hnext with ⟨sample, rfl⟩ | ⟨others, rfl⟩ | ⟨text, rfl⟩ <;> rfl
  | answers _ hplain => exact sectionOk_of_view h hstage' rfl hplain.silent_answered rfl
  | reads hroute => exact sectionOk_of_view h hstage' rfl (silent_of_route hroute rfl) rfl
  | @creates name _ _ hplain =>
      exact sectionOk_of_view h hstage' rfl hplain.silent_answered
        (s.sys.txView_createTopic env.fault name)
  | @createsFirst name next hcreated =>
      refine sectionOk_of_view h hstage' ?_ (fun resp hresp => ?_)
        (s.sys.txView_createTopic env.fault name)
      · cases next <;> first | rfl | cases hcreated
      · obtain rfl : next = .answered resp := hresp
        cases hcreated
  | produces | produceFails =>
      exact sectionOk_of_view h hstage' rfl (silent_of_route hstage.1 rfl)
        (s.sys.txView_produce_of_ne lib.json env.produce .produce (fun _ _ _ hc => by cases hc)
          _ _ _ _)
  | checks hcheck =>
      obtain ⟨-, phase, rfl, -⟩ := Sys.idemCheck_cases hcheck
      exact sectionOk_of_view h hstage' (noCommit_afterIdempotent _ _ _ _)
        (silent_of_route hstage.1 rfl) (by rw [sys_afterIdempotent]; rfl)
  | continues hnext =>
      exact sectionOk_of_view h hstage' (noCommit_afterIdempotent _ _ _ _)
        (silent_of_route hstage.1 rfl)
        (by rw [sys_afterIdempotent]; exact txView_nextIdempotent hnext)
  | commitsOffset hroute hnext =>
      refine sectionOk_of_view h hstage' ?_ (silent_of_route hroute rfl)
        (txView_commitOffset s.sys _ _ _ _ _)
      rcases hnext with rfl | ⟨e, rfl⟩ <;> rfl
  | measures => exact sectionOk_of_view h hstage' rfl (silent_of_route hstage rfl) rfl
  | drains hroute => exact sectionOk_of_view h hstage' rfl (silent_of_route hroute rfl) rfl
  | begins hroute hbegins =>
      exact sectionOk_of_begins h hreq hfresh (silent_of_route hroute rfl) hbegins
  | @stages p place tx htopic hopen =>
      refine ⟨hstage', by simp [reply], ⟨none, .stages (Sys.open_of_openTx hopen) p.staged, ?_⟩,
        ?_, ?_, fun _ _ => rfl, h.bound id, ?_, fun a ha hcommit => ?_⟩
      · exact fun _ hm => by cases hm
      · simp [reply, newAnswers, buffered?, hstage.1, hstage.2]
      · simp [reply, newAnswers, aborted?, hstage.1, Sys.setBroker]
      · exact fun _ hc => by cases hc
      · rw [hstage.1] at hcommit
        cases hcommit
  | starts hroute hbody hstart => exact sectionOk_of_starts h hreq hroute hbody hstart
  | commits hnext => exact sectionOk_of_commits h hreq hstage.1 hstage.2 hnext
  | @aborts txID place tx hroute hbody hopen =>
      refine ⟨hstage', by simp [reply], ⟨none, .aborts (Sys.open_of_openTx hopen), ?_⟩, ?_, ?_,
        fun _ _ => rfl, h.bound id, ?_, fun a ha hcommit => ?_⟩
      · exact fun _ hm => by cases hm
      · simp [reply, newAnswers, buffered?, hroute, Sys.setBroker]
      · simp [reply, newAnswers, aborted?, hroute, hbody]
      · exact fun _ hc => by cases hc
      · rw [hroute] at hcommit
        cases hcommit

theorem TxOk.step (h : s.TxOk lib) {e : Event} (hfresh : s.FreshTx lib e)
    (hstep : s.step lib e = some s') : s'.TxOk lib := by
  cases e with
  | arrive id req =>
      obtain ⟨hnone, rfl⟩ := step_arrive_cases hstep
      refine ⟨h.inv, h.hist, h.bound, fun id' req' stage' hreq' => ?_, h.staged, h.aborted,
        fun id' req' txID hreq' => ?_, fun id' harrived => ?_, h.committed⟩
      · rcases OrdMap.getElem?_insert_cases hreq' with ⟨-, heq⟩ | ⟨-, hold⟩
        · rw [← (Prod.mk.inj heq).2]
          trivial
        · exact h.stages id' req' stage' hold
      · rcases OrdMap.getElem?_insert_cases hreq' with ⟨-, heq⟩ | ⟨-, hold⟩
        · cases heq
        · exact h.running id' req' txID hold
      · refine h.unstarted id' fun req' stage' hreq' => ?_
        have hne : id ≠ id' := by
          rintro rfl
          rw [hnone] at hreq'
          cases hreq'
        exact harrived req' stage' ((OrdMap.getElem?_insert_of_ne _ _ hne).trans hreq')
  | advance id env =>
      obtain ⟨req, stage, hd, hreq, hresume, rfl⟩ := step_advance_cases hstep
      exact h.put (sectionOk_of_section h hreq hfresh (.of_resume hresume))
  | record id what =>
      obtain ⟨traffic, -, rfl⟩ := step_record_cases hstep
      exact ⟨h.inv, h.hist, h.bound, h.stages, h.staged, h.aborted, h.running, h.unstarted,
        h.committed⟩

theorem txOk_start (apiKey : String) (fs : FileTree) (dir : SlashPath) :
    (start apiKey ⟨fs, .fresh dir⟩ : Server α).TxOk lib := by
  refine ⟨Sys.txInv_init ⟨fs, .fresh dir⟩, Sys.histInv_init fs dir, ?_, ?_, rfl, rfl, ?_,
    fun _ _ => rfl, fun a ha => by cases ha⟩
  · simp [start, Sys.init]
  · simp [start]
  · simp [start]

theorem txOk_run {apiKey : String} {fs : FileTree} {dir : SlashPath} {events : List Event}
    (hrun : exec (Server.step lib) (start apiKey ⟨fs, .fresh dir⟩) events = some s)
    (hfresh : Guarded (Server.step lib) (FreshTx lib) (start apiKey ⟨fs, .fresh dir⟩) events) :
    s.TxOk lib :=
  invariant_of_guarded (TxOk lib) (fun _ _ _ h hguard hs => h.step hguard hs) hrun hfresh
    (txOk_start apiKey fs dir)

theorem stagedFor_eq_buffered (h : s.TxOk lib) (txID : String) :
    s.sys.stagedFor txID = s.buffered lib txID := by
  rw [Sys.stagedFor, buffered, ← h.staged, List.filter_map, List.map_map]
  rfl

/-- A commit that has returned took over what was answered as buffered. -/
theorem records_eq_buffered (h : s.TxOk lib) {call : ℕ} {c : CommitCall}
    (hc : s.sys.commits[call]? = some c) : c.records = s.buffered lib c.id := by
  obtain ⟨⟨tx, htx, hstatus, hrecords⟩, -⟩ := h.inv.call call c hc
  have hopen : tx.status ≠ .aborted := by
    rw [hstatus]
    cases c.phase <;> nofun
  rw [← stagedFor_eq_buffered h, Sys.stagedFor, ← hrecords, h.hist.records c.ptr tx htx hopen]
  exact (h.hist.filter_id_eq (h.hist.calls call c hc) fun e he =>
    h.hist.entries e (List.mem_append_left _ he)).symm

theorem exists_aborted (h : s.TxOk lib) {a : Answer} (ha : a ∈ s.answers)
    (hroute : route lib a.req = .handler .txAbort) (hstatus : a.resp.status = 200) {txID : String}
    (hbody : lib.txID a.req.body = some txID) : ∃ p, (txID, p) ∈ s.sys.aborted := by
  have hmem : txID ∈ s.answers.filterMap (aborted? lib) :=
    List.mem_filterMap.mpr ⟨a, ha, (if_pos ⟨hroute, hstatus⟩).trans hbody⟩
  rw [← h.aborted] at hmem
  obtain ⟨⟨_, p⟩, hp, rfl⟩ := List.mem_map.mp hmem
  exact ⟨p, hp⟩

end Server

/-- Transactions are exactly-once for the clients of the server, in every run on a new directory in
which transactions have different ids and no two topics share a directory, however the sections of
the requests interleave. What `Consume` returns are blocks of the logs. Once a commit is answered
with success, the logs hold for the transaction the records whose requests were answered as
buffered, each once and in that order; the answer counts them, and no second commit is answered so.
Nothing is in the logs for a transaction whose abort was answered with success. -/
theorem http_transactions_exactly_once {f : Record → Record} (hjson : lib.json.Decodes f)
    {apiKey : String} {fs : FileTree} {dir : SlashPath} {b : Broker} {events : List Event}
    {s : Server α} (hb : newBroker true dir = .ok b)
    (hfs : ∀ name, ∀ p ∈ files (b.segmentDir name), fs p = none)
    (hrun : exec (Server.step lib) (.start apiKey ⟨fs, b⟩) events = some s)
    (hfresh : Guarded (Server.step lib) (Server.FreshTx lib) (.start apiKey ⟨fs, b⟩) events)
    (hdirs : DistinctDirs s.sys.world) :
    s.sys.ShowsLogs lib.json f (fun _ => []) ∧
    (∀ a ∈ s.answers, route lib a.req = .handler .txCommit → a.resp.status = 200 →
      ∃ txID, lib.txID a.req.body = some txID ∧
        a.resp.body = .committed (s.buffered lib txID).length ∧
        (∀ topic, s.sys.committedTo txID topic =
          (s.buffered lib txID).filter fun r => decide (r.topic = topic)) ∧
        ∀ a' ∈ s.answers, route lib a'.req = .handler .txCommit → a'.resp.status = 200 →
          lib.txID a'.req.body = some txID → a'.id = a.id) ∧
    ∀ a ∈ s.answers, route lib a.req = .handler .txAbort → a.resp.status = 200 →
      ∀ txID, lib.txID a.req.body = some txID → ∀ topic, s.sys.committedTo txID topic = [] := by
  have hlog := Server.logOk_run hb hfs hjson hrun hdirs
  obtain rfl := eq_fresh_of_newBroker hb
  have h := Server.txOk_run hrun hfresh
  refine ⟨Sys.showsLogs_of_serves hjson hlog.serves, fun a ha hroute hstatus => ?_,
    fun a ha hroute hstatus txID hbody topic => ?_⟩
  · obtain ⟨c, hc, hdone, hbody, hresp⟩ := h.committed a ha hroute hstatus
    have hlength : c.committed = c.records.length :=
      le_antisymm (h.bound a.id c hc).1 ((h.bound a.id c hc).2 hdone)
    refine ⟨c.id, hbody, ?_, fun topic => ?_, fun a' ha' hroute' hstatus' hbody' => ?_⟩
    · rw [hresp, hlength, Server.records_eq_buffered h hc]
    · rw [Sys.committedTo_of_done h.inv h.hist hc hdone, Server.stagedFor_eq_buffered h]
    · obtain ⟨c', hc', -, hid, -⟩ := h.committed a' ha' hroute' hstatus'
      obtain heq := Option.some.inj (hid.symm.trans hbody')
      have hcalls := h.hist.calls a'.id c' hc'
      rw [heq] at hcalls
      exact h.inv.unique a'.id a.id c' c hc' hc
        (h.hist.ptr_unique hcalls (h.hist.calls a.id c hc))
  · obtain ⟨p, hp⟩ := Server.exists_aborted h ha hroute hstatus hbody
    exact Sys.committedTo_of_aborted h.inv h.hist hp topic

/-- Two transactions, the first with two records of requests that overlap. -/
def transactionsSample : List Event :=
  let go (id : ℕ) : Event := .advance id (sampleOutside 0)
  [.arrive 0 (samplePost "/tx/begin" []), go 0, .arrive 1 (samplePost "/tx/begin" []),
    .advance 1 (sampleOutside 1), .arrive 2 (samplePost "/tx/produce" []),
    .arrive 3 (samplePost "/tx/produce" []), go 2, go 3, go 3, go 2,
    .arrive 4 (samplePost "/tx/produce" [1]), go 4, go 4, .arrive 5 (samplePost "/tx/commit" []),
    .arrive 6 (samplePost "/tx/commit" []), .arrive 7 (samplePost "/tx/abort" [1]), go 5, go 6,
    go 5, go 5, go 7, go 5, go 5, go 5]

theorem http_transactions_exactly_once_sample :
    ∃ s a, exec (Server.step sampleLibrary) (.start "" ⟨fun _ => none, .fresh ⟨true, ["d"]⟩⟩)
        transactionsSample = some s ∧
      a ∈ s.answers ∧ route sampleLibrary a.req = .handler .txCommit ∧ a.resp.status = 200 ∧
      (s.buffered sampleLibrary "p-1-0").length = 2 ∧ a.resp.body = .committed 2 ∧
      s.sys.committedTo "p-1-0" "t" =
        (s.buffered sampleLibrary "p-1-0").filter fun r => decide (r.topic = "t") := by
  obtain ⟨s, hrun, -, hcommit, hlength, hdirs⟩ : ∃ s, exec (Server.step sampleLibrary)
        (.start "" ⟨fun _ => none, .fresh ⟨true, ["d"]⟩⟩) transactionsSample = some s ∧
      s.answers.map (fun a => (a.id, a.resp.status)) =
        [(0, 200), (1, 200), (3, 200), (2, 200), (4, 200), (6, 409), (7, 200), (5, 200)] ∧
      s.answers.any (fun a => decide (route sampleLibrary a.req = .handler .txCommit ∧
        a.resp.status = 200 ∧ a.req.body = [])) = true ∧
      (s.buffered sampleLibrary "p-1-0").length = 2 ∧ DistinctDirs s.sys.world :=
    exists_exec_of_any (by decide +kernel)
  obtain ⟨a, ha, hroute, hstatus, hbody⟩ : ∃ a ∈ s.answers,
      route sampleLibrary a.req = .handler .txCommit ∧ a.resp.status = 200 ∧ a.req.body = [] := by
    simpa using hcommit
  have hjson : sampleLibrary.json.Decodes id := sampleJson_faithful
  obtain ⟨-, hcommits, -⟩ := http_transactions_exactly_once hjson rfl (fun _ _ _ => rfl) hrun
    (by decide +kernel) hdirs
  obtain ⟨txID, htx, hresp, hlogs, -⟩ := hcommits a ha hroute hstatus
  obtain rfl : "p-1-0" = txID := by
    rw [hbody] at htx
    exact Option.some.inj htx
  exact ⟨s, a, hrun, ha, hroute, hstatus, hlength, by rw [hresp, hlength], hlogs "t"⟩

end StreamFlow.Management
