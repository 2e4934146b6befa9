import StreamFlow.Foundation.Purge
import StreamFlow.Management.Sections

/-!
# Requests that are refused

A request is refused with one of the codes 400, 401, 404 and 405. `withMetrics` counts it as any
other, so a reader of `/metrics` sees it, but this is all. `erase_run` is the argument behind both
results: if the sections of some requests change neither the broker nor the metrics of the handlers,
a run without these requests leads to the same state and gives the same answers to all others, up to
the values of the metrics of `withMetrics`. Requests that are refused are of this kind, and so are
those without the API key.
-/

namespace StreamFlow.Management

open BigEndian Run

variable {α : Type} {lib : Library α}

/-! ### Sections that refuse -/

section Sections

variable {apiKey : String} {env : Outside} {sys : Sys} {metrics : Metrics α} {traffic : Traffic}
  {id : ℕ} {req : Request} {stage : Stage} {hd : Handled α} {resp : Response}

theorem refused_afterIdempotent {topic : String}
    (h : (afterIdempotent sys metrics id topic).stage = .answered resp) : resp.refused = false := by
  unfold afterIdempotent at h
  split at h
  · cases h
    rfl
  · cases h
    rfl
  · cases h

/-- A handler refuses in its first section or not at all, and has changed nothing then. -/
theorem Section.answered_cases (h : Section lib apiKey env sys metrics id req stage hd)
    (hresp : hd.stage = .answered resp) :
    resp.refused = false ∨ (stage = .arrived ∧ hd.sys = sys ∧ hd.metrics = metrics ∧
      (resp.status = 401 → authorized apiKey req = false)) := by
  cases h with
  | stops hauth => exact .inr ⟨rfl, rfl, rfl, fun _ => hauth⟩
  | refuses hstatus =>
      obtain rfl := Stage.answered.inj hresp
      refine .inr ⟨rfl, rfl, rfl, fun h401 => ?_⟩
      rw [h401] at hstatus
      simp at hstatus
  | scrapes hnext =>
      rcases hnext with ⟨sample, rfl⟩ | ⟨others, rfl⟩ | ⟨text, rfl⟩
      · cases hresp
      · obtain rfl := Stage.answered.inj hresp
        exact .inl rfl
      · obtain rfl := Stage.answered.inj hresp
        exact .inl rfl
  | opens => cases hresp
  | answers haccepted | creates haccepted =>
      obtain rfl := Stage.answered.inj hresp
      exact .inl haccepted
  | createsFirst hcreated =>
      obtain rfl : _ = Stage.answered resp := hresp
      cases hcreated
  | produceFails hstatus =>
      obtain rfl := Stage.answered.inj hresp
      simp only [List.mem_cons, List.not_mem_nil, or_false] at hstatus
      rcases hstatus with rfl | rfl <;> exact .inl rfl
  | checks => exact .inl (refused_afterIdempotent hresp)
  | continues => exact .inl (refused_afterIdempotent hresp)
  | commits =>
      rcases stage_afterCommit _ metrics id _ with heq | ⟨resp', heq, hrefused, -⟩
      · cases heq.symm.trans hresp
      · cases heq.symm.trans hresp
        exact .inl hrefused
  | commitsOffset _ hnext =>
      rcases hnext with rfl | ⟨e, rfl⟩
      · cases hresp
      · obtain rfl := Stage.answered.inj hresp
        exact .inl rfl
  | starts => cases hresp
  | _ =>
      obtain rfl := Stage.answered.inj hresp
      exact .inl rfl

/-- No request is back at its beginning after a section. -/
theorem Section.moved (h : Section lib apiKey env sys metrics id req stage hd) :
    hd.stage ≠ .arrived := by
  cases h with
  | scrapes hnext => rcases hnext with ⟨sample, rfl⟩ | ⟨others, rfl⟩ | ⟨text, rfl⟩ <;> nofun
  | createsFirst hcreated =>
      rintro rfl
      cases hcreated
  | checks | continues =>
      unfold afterIdempotent
      split <;> nofun
  | commits =>
      rcases stage_afterCommit _ metrics id _ with heq | ⟨resp, heq, -⟩ <;> rw [heq] <;> nofun
  | commitsOffset _ hnext => rcases hnext with rfl | ⟨e, rfl⟩ <;> nofun
  | _ => nofun

/-- `withAuth` answers a request without the key itself. -/
theorem resume_of_unauthorized (h : authorized apiKey req = false) :
    resume lib apiKey env sys metrics traffic id req .arrived =
      some (reply sys metrics (.message 401 "unauthorized")) := by
  simp [resume, h]

end Sections

/-! ### Answers without the metrics of the traffic -/

/-- The samples of metrics that handlers change. -/
def hideTraffic (samples : List (MetricKey × Bytes)) : List (MetricKey × Bytes) :=
  samples.filter fun e => !e.1.traffic

def Response.hideTraffic : Response → Response
  | ⟨status, .metrics samples others⟩ => ⟨status, .metrics (Management.hideTraffic samples) others⟩
  | resp => resp

def Stage.hideTraffic : Stage → Stage
  | .scraping samples => .scraping (Management.hideTraffic samples)
  | .answered resp => .answered resp.hideTraffic
  | stage => stage

def Answer.hideTraffic (a : Answer) : Answer := { a with resp := a.resp.hideTraffic }

@[simp] theorem Response.status_hideTraffic (r : Response) : r.hideTraffic.status = r.status := by
  unfold hideTraffic
  split <;> rfl

/-- Stages that are the same when the traffic is hidden. -/
theorem Stage.hideTraffic_cases {stage stage' : Stage}
    (h : stage'.hideTraffic = stage.hideTraffic) :
    stage' = stage ∨
      (∃ samples samples', stage = .scraping samples ∧ stage' = .scraping samples' ∧
        Management.hideTraffic samples' = Management.hideTraffic samples) ∨
      ∃ resp resp', stage = .answered resp ∧ stage' = .answered resp' := by
  cases stage <;> cases stage' <;> first
    | exact .inl h
    | cases h
    | exact .inr (.inr ⟨_, _, rfl, rfl⟩)
    | exact .inr (.inl ⟨_, _, rfl, rfl, Stage.scraping.inj h⟩)

section Scrape

variable {env : Outside} {sys : Sys} {metrics : Metrics α}
  {samples samples' : List (MetricKey × Bytes)}

theorem hideTraffic_scrape (h : hideTraffic samples' = hideTraffic samples)
    (traffic traffic' : Traffic) :
    (scrape lib env sys metrics traffic' samples').sys =
        (scrape lib env sys metrics traffic samples).sys ∧
      (scrape lib env sys metrics traffic' samples').metrics =
        (scrape lib env sys metrics traffic samples).metrics ∧
      (scrape lib env sys metrics traffic' samples').stage.hideTraffic =
        (scrape lib env sys metrics traffic samples).stage.hideTraffic := by
  unfold scrape
  split
  · next key _ =>
      refine ⟨rfl, rfl, congrArg Stage.scraping ?_⟩
      rw [hideTraffic, hideTraffic, List.filter_append, List.filter_append]
      congr 1
      cases key <;> rfl
  · exact ⟨rfl, rfl, by simp [reply, Stage.hideTraffic, Response.hideTraffic, h]⟩
  · exact ⟨rfl, rfl, rfl⟩

end Scrape

/-! ### Runs without some requests -/

namespace Server

/-- The second server is the first one without some requests. What `withMetrics` has recorded are
the other requests, and this is all that an answer may show of the difference. -/
structure Erased (R : ℕ → Bool) (s t : Server α) : Prop where
  sys : t.sys = s.sys
  apiKey : t.apiKey = s.apiKey
  metrics : t.metrics = s.metrics
  counted : t.traffic.counted = s.traffic.counted.filter fun c => !R c.id
  timed : t.traffic.timed = s.traffic.timed.filter fun c => !R c.id
  requests : ∀ id, R id = false →
    (t.requests[id]?).map (Prod.map (fun req => req) Stage.hideTraffic) =
      (s.requests[id]?).map (Prod.map (fun req => req) Stage.hideTraffic)
  answers : t.answers.map Answer.hideTraffic =
    (s.answers.filter fun a => !R a.id).map Answer.hideTraffic

/-- A step that changes neither the broker nor the metrics of the handlers. -/
def Harmless (lib : Library α) (s : Server α) (e : Event) : Prop :=
  ∀ s', s.step lib e = some s' → s'.sys = s.sys ∧ s'.metrics = s.metrics

variable {R : ℕ → Bool} {s s' t : Server α} {e : Event}

theorem kept_and_id_eq {β : Type} (key : β → ℕ) {id : ℕ} (hid : R id = false) :
    (fun a => !R (key a) && decide (key a = id)) = fun a => decide (key a = id) := by
  funext a
  by_cases heq : key a = id
  · simp [heq, hid]
  · simp [heq]

theorem find?_filter_id {β : Type} (key : β → ℕ) (l : List β) {id : ℕ} (hid : R id = false) :
    (l.filter fun a => !R (key a)).find? (fun a => key a = id) =
      l.find? fun a => key a = id := by
  simp only [List.find?_filter, Bool.decide_and, Bool.decide_eq_true, kept_and_id_eq key hid]

theorem any_filter_id {β : Type} (key : β → ℕ) (l : List β) {id : ℕ} (hid : R id = false) :
    ((l.filter fun a => !R (key a)).any fun a => key a = id) = l.any fun a => key a = id := by
  rw [List.any_filter, kept_and_id_eq key hid]

/-- The other requests have the same answers, but for the traffic. -/
theorem Erased.find_answer (h : Erased R s t) {id : ℕ} (hid : R id = false) {a : Answer}
    (ha : s.answers.find? (fun a => a.id = id) = some a) :
    ∃ a', t.answers.find? (fun a => a.id = id) = some a' ∧ a'.hideTraffic = a.hideTraffic := by
  have hmap : ∀ l : List Answer, (l.map Answer.hideTraffic).find? (fun a => a.id = id) =
      (l.find? fun a => a.id = id).map Answer.hideTraffic := fun l => List.find?_map
  have hfind := hmap t.answers
  rw [h.answers, hmap, find?_filter_id Answer.id s.answers hid, ha] at hfind
  obtain ⟨a', ha', heq⟩ := Option.map_eq_some_iff.mp hfind.symm
  exact ⟨a', ha', heq⟩

theorem Erased.record (h : Erased R s t) {id : ℕ} (hid : R id = false) {what : Recorded}
    {traffic : Traffic} (hrecord : s.traffic.record s.answers id what = some traffic) :
    ∃ traffic', t.traffic.record t.answers id what = some traffic' ∧
      traffic'.counted = traffic.counted.filter (fun c => !R c.id) ∧
      traffic'.timed = traffic.timed.filter fun c => !R c.id := by
  cases what with
  | total =>
      obtain ⟨hnew, a, ha, rfl⟩ := Traffic.record_total_eq_some_iff.mp hrecord
      obtain ⟨a', ha', heq⟩ := h.find_answer hid ha
      have hreq : a'.hideTraffic.req = a.hideTraffic.req := congrArg Answer.req heq
      have hstatus : a'.hideTraffic.resp.status = a.hideTraffic.resp.status :=
        congrArg (fun a => a.resp.status) heq
      simp only [Answer.hideTraffic, Response.status_hideTraffic] at hreq hstatus
      refine ⟨_, Traffic.record_total_eq_some_iff.mpr ⟨?_, a', ha', rfl⟩, ?_, h.timed⟩
      · rw [h.counted, any_filter_id Counted.id s.traffic.counted hid, hnew]
      · simp [h.counted, hreq, hstatus, hid]
  | duration elapsed =>
      obtain ⟨hnew, c, hc, rfl⟩ := Traffic.record_duration_eq_some_iff.mp hrecord
      refine ⟨_, Traffic.record_duration_eq_some_iff.mpr ⟨?_, c, ?_, rfl⟩, h.counted, ?_⟩
      · rw [h.timed, any_filter_id Timed.id s.traffic.timed hid, hnew]
      · rw [h.counted, find?_filter_id Counted.id s.traffic.counted hid, hc]
      · simp [h.timed, hid]

/-- What is recorded for a request that is left out. -/
theorem filter_record {id : ℕ} (hid : R id = true) {what : Recorded} {answers : List Answer}
    {traffic traffic' : Traffic} (hrecord : traffic.record answers id what = some traffic') :
    traffic'.counted.filter (fun c => !R c.id) = traffic.counted.filter (fun c => !R c.id) ∧
      traffic'.timed.filter (fun c => !R c.id) = traffic.timed.filter fun c => !R c.id := by
  cases what with
  | total =>
      obtain ⟨-, a, -, rfl⟩ := Traffic.record_total_eq_some_iff.mp hrecord
      exact ⟨by simp [hid], rfl⟩
  | duration elapsed =>
      obtain ⟨-, c, -, rfl⟩ := Traffic.record_duration_eq_some_iff.mp hrecord
      exact ⟨rfl, by simp [hid]⟩

/-- A section of a request does the same in both servers, but for the traffic. -/
theorem Erased.resume (h : Erased R s t) {env : Outside} {id : ℕ} {req : Request}
    {stage stage' : Stage} (hstage : stage'.hideTraffic = stage.hideTraffic) {hd : Handled α}
    (hresume : resume lib s.apiKey env s.sys s.metrics s.traffic id req stage = some hd) :
    ∃ hd', Management.resume lib t.apiKey env t.sys t.metrics t.traffic id req stage' = some hd' ∧
      hd'.sys = hd.sys ∧ hd'.metrics = hd.metrics ∧
      hd'.stage.hideTraffic = hd.stage.hideTraffic := by
  rw [h.apiKey, h.sys, h.metrics]
  rcases Stage.hideTraffic_cases hstage with
    rfl | ⟨samples, samples', rfl, rfl, hsamples⟩ | ⟨resp, resp', rfl, -⟩
  · cases stage' with
    | scraping samples =>
        obtain rfl := Option.some.inj hresume
        exact ⟨_, rfl, hideTraffic_scrape rfl s.traffic t.traffic⟩
    | _ => exact ⟨hd, hresume, rfl, rfl, rfl⟩
  · obtain rfl := Option.some.inj hresume
    exact ⟨_, rfl, hideTraffic_scrape hsamples s.traffic t.traffic⟩
  · cases hresume

theorem mem_newAnswers {id : ℕ} {req : Request} {stage : Stage} {a : Answer}
    (h : a ∈ newAnswers id req stage) :
    a.id = id ∧ a.req = req ∧ stage = .answered a.resp := by
  cases stage with
  | answered resp =>
      obtain rfl := List.mem_singleton.mp h
      exact ⟨rfl, rfl, rfl⟩
  | _ => cases h

theorem map_hideTraffic_newAnswers (id : ℕ) (req : Request) (stage : Stage) :
    (newAnswers id req stage).map Answer.hideTraffic = newAnswers id req stage.hideTraffic := by
  cases stage <;> rfl

theorem erased_step (h : Erased R s t) (hid : R e.id = false) (hstep : s.step lib e = some s') :
    ∃ t', t.step lib e = some t' ∧ Erased R s' t' := by
  cases e with
  | arrive id req =>
      obtain ⟨hnone, rfl⟩ := step_arrive_cases hstep
      have hnone' : t.requests[id]? = none := by
        have hreq := h.requests id hid
        rwa [hnone, Option.map_none, Option.map_eq_none_iff] at hreq
      refine ⟨{ t with requests := t.requests.insert id (req, .arrived) }, ?_, h.sys, h.apiKey,
        h.metrics, h.counted, h.timed, fun id' hid' => ?_, h.answers⟩
      · rw [step, hnone']
        rfl
      · simp only [OrdMap.getElem?_insert]
        split
        · rfl
        · exact h.requests id' hid'
  | advance id env =>
      obtain ⟨req, stage, hd, hreq, hresume, rfl⟩ := step_advance_cases hstep
      obtain ⟨⟨req', stage'⟩, hreq', heq⟩ : ∃ x, t.requests[id]? = some x ∧
          x.map (fun req => req) Stage.hideTraffic = (req, stage.hideTraffic) := by
        have hreqs := h.requests id hid
        rw [hreq] at hreqs
        exact Option.map_eq_some_iff.mp hreqs
      obtain ⟨rfl, hstage⟩ := Prod.mk.inj heq
      obtain ⟨hd', hresume', hsys, hmetrics, hafter⟩ := h.resume hstage hresume
      refine ⟨t.put id req' hd', ?_, hsys, h.apiKey, hmetrics, h.counted, h.timed,
        fun id' hid' => ?_, ?_⟩
      · rw [step, hreq']
        dsimp only
        rw [hresume']
        rfl
      · simp only [put, OrdMap.getElem?_insert]
        split
        · simp [hafter]
        · exact h.requests id' hid'
      · have hkeep : (newAnswers id req' hd.stage).filter (fun a => !R a.id) =
            newAnswers id req' hd.stage := by
          refine List.filter_eq_self.mpr fun a ha => ?_
          rw [(mem_newAnswers ha).1, show R id = false from hid]
          rfl
        rw [put, put, List.map_append, List.filter_append, List.map_append, h.answers, hkeep,
          map_hideTraffic_newAnswers, map_hideTraffic_newAnswers, hafter]
  | record id what =>
      obtain ⟨traffic, hrecord, rfl⟩ := step_record_cases hstep
      obtain ⟨traffic', hrecord', hcounted, htimed⟩ :=
        h.record (show R id = false from hid) hrecord
      refine ⟨{ t with traffic := traffic' }, ?_, h.sys, h.apiKey, h.metrics, hcounted, htimed,
        h.requests, h.answers⟩
      rw [step, hrecord']
      rfl

theorem erased_skip (h : Erased R s t) (hid : R e.id = true) (hharmless : s.Harmless lib e)
    (hstep : s.step lib e = some s') : Erased R s' t := by
  obtain ⟨hsys, hmetrics⟩ := hharmless s' hstep
  have hne : ∀ {id}, R id = false → e.id ≠ id := by
    rintro id hfalse rfl
    rw [hid] at hfalse
    cases hfalse
  cases e with
  | arrive id req =>
      obtain ⟨-, rfl⟩ := step_arrive_cases hstep
      refine ⟨h.sys, h.apiKey, h.metrics, h.counted, h.timed, fun id' hid' => ?_, h.answers⟩
      rw [h.requests id' hid', OrdMap.getElem?_insert_of_ne _ _ (show id ≠ id' from hne hid')]
  | advance id env =>
      obtain ⟨req, stage, hd, -, -, rfl⟩ := step_advance_cases hstep
      refine ⟨h.sys.trans hsys.symm, h.apiKey, h.metrics.trans hmetrics.symm, h.counted, h.timed,
        fun id' hid' => ?_, ?_⟩
      · rw [h.requests id' hid', put,
          OrdMap.getElem?_insert_of_ne _ _ (show id ≠ id' from hne hid')]
      · have hdrop : (!R id) = false := by rw [show R id = true from hid]; rfl
        rw [put, List.filter_append, h.answers]
        cases hd.stage <;> simp [newAnswers, hdrop]
  | record id what =>
      obtain ⟨traffic, hrecord, rfl⟩ := step_record_cases hstep
      obtain ⟨hcounted, htimed⟩ := filter_record (show R id = true from hid) hrecord
      exact ⟨h.sys, h.apiKey, h.metrics, h.counted.trans hcounted.symm,
        h.timed.trans htimed.symm, h.requests, h.answers⟩

/-- A run without requests whose sections are harmless. -/
theorem erase_run {events : List Event} (hrun : exec (step lib) s events = some s')
    (hharmless : Guarded (step lib) (fun s e => R e.id = true → s.Harmless lib e) s events)
    (h : Erased R s t) :
    ∃ t', exec (step lib) t (events.filter fun e => !R e.id) = some t' ∧ Erased R s' t' := by
  rw [← purge_eq_filter (fun e : Event => R e.id) hrun]
  exact exec_purge _ (Erased R)
    (fun _ _ _ _ h hguard hid hstep => erased_skip h hid (hguard hid) hstep)
    (fun _ _ _ _ h _ hid hstep => erased_step h (Bool.eq_false_iff.mpr hid) hstep) hrun hharmless h

theorem Erased.refl_start (R : ℕ → Bool) (apiKey : String) (w : World) :
    Erased R (start apiKey w : Server α) (start apiKey w) :=
  ⟨rfl, rfl, rfl, rfl, rfl, fun _ _ => rfl, rfl⟩

/-! ### Answers and stages -/

/-- A step leaves a request alone or makes its next section. -/
theorem request_step_cases (hstep : s.step lib e = some s') {id : ℕ} {req : Request}
    {stage : Stage} (h : s.requests[id]? = some (req, stage)) :
    s'.requests[id]? = some (req, stage) ∨
      ∃ env hd, e = .advance id env ∧
        resume lib s.apiKey env s.sys s.metrics s.traffic id req stage = some hd ∧
        s' = s.put id req hd := by
  cases e with
  | arrive id' req' =>
      obtain ⟨hnone, rfl⟩ := step_arrive_cases hstep
      have hne : id' ≠ id := by
        rintro rfl
        rw [hnone] at h
        cases h
      exact .inl ((OrdMap.getElem?_insert_of_ne _ _ hne).trans h)
  | advance id' env =>
      obtain ⟨req', stage', hd, hreq', hresume, rfl⟩ := step_advance_cases hstep
      by_cases heq : id' = id
      · subst heq
        obtain ⟨rfl, rfl⟩ := Prod.mk.inj (Option.some.inj (hreq'.symm.trans h))
        exact .inr ⟨env, hd, rfl, hresume, rfl⟩
      · exact .inl ((OrdMap.getElem?_insert_of_ne _ _ heq).trans h)
  | record id' what =>
      obtain ⟨traffic, -, rfl⟩ := step_record_cases hstep
      exact .inl h

/-- A request keeps what it asked for. -/
theorem request_of_step (hstep : s.step lib e = some s') {id : ℕ} {req : Request} {stage : Stage}
    (h : s.requests[id]? = some (req, stage)) :
    ∃ stage', s'.requests[id]? = some (req, stage') := by
  rcases request_step_cases hstep h with hsame | ⟨env, hd, -, -, rfl⟩
  · exact ⟨stage, hsame⟩
  · exact ⟨hd.stage, OrdMap.getElem?_insert_self' _ _ _⟩

/-- A request that was answered stays so. -/
theorem answered_of_step (hstep : s.step lib e = some s') {id : ℕ} {req : Request}
    {resp : Response} (h : s.requests[id]? = some (req, .answered resp)) :
    s'.requests[id]? = some (req, .answered resp) := by
  rcases request_step_cases hstep h with hsame | ⟨env, hd, -, hresume, rfl⟩
  · exact hsame
  · cases hresume

/-- The answers are those of the requests that are done. -/
def AnswersOk (s : Server α) : Prop :=
  ∀ a ∈ s.answers, s.requests[a.id]? = some (a.req, .answered a.resp)

theorem answersOk_step (h : s.AnswersOk) (hstep : s.step lib e = some s') : s'.AnswersOk := by
  intro a ha
  have hold : a ∈ s.answers → s'.requests[a.id]? = some (a.req, .answered a.resp) :=
    fun hmem => answered_of_step hstep (h a hmem)
  cases e with
  | arrive id req =>
      obtain ⟨-, rfl⟩ := step_arrive_cases hstep
      exact hold ha
  | advance id env =>
      obtain ⟨req, stage, hd, -, -, rfl⟩ := step_advance_cases hstep
      rcases List.mem_append.mp ha with ha | ha
      · exact hold ha
      · obtain ⟨rfl, rfl, hstage⟩ := mem_newAnswers ha
        rw [put, hstage, OrdMap.getElem?_insert_self']
  | record id what =>
      obtain ⟨traffic, -, rfl⟩ := step_record_cases hstep
      exact hold ha

theorem answersOk_run {apiKey : String} {w : World} {events : List Event}
    (hrun : exec (step lib) (start apiKey w) events = some s) : s.AnswersOk :=
  invariant AnswersOk (fun _ _ _ => answersOk_step) hrun fun a ha => by cases ha

/-- The request is behind its first section and was not refused. -/
def Past (id : ℕ) (s : Server α) : Prop :=
  ∃ req stage, s.requests[id]? = some (req, stage) ∧ stage ≠ .arrived ∧
    ∀ resp, stage = .answered resp → resp.refused = false

theorem past_step {id : ℕ} (h : s.Past id) (hstep : s.step lib e = some s') : s'.Past id := by
  obtain ⟨req, stage, hreq, hstage, hresp⟩ := h
  rcases request_step_cases hstep hreq with hsame | ⟨env, hd, -, hresume, rfl⟩
  · exact ⟨req, stage, hsame, hstage, hresp⟩
  · have hsec := Section.of_resume hresume
    refine ⟨req, hd.stage, OrdMap.getElem?_insert_self' _ _ _, hsec.moved, fun resp hresp' => ?_⟩
    exact (hsec.answered_cases hresp').resolve_right fun hfirst => hstage hfirst.1

/-- A step is harmless if the section it makes is. -/
theorem harmless_of_resume (h : ∀ id env req stage hd, e = .advance id env →
    s.requests[id]? = some (req, stage) →
    resume lib s.apiKey env s.sys s.metrics s.traffic id req stage = some hd →
    s.step lib e = some (s.put id req hd) → hd.sys = s.sys ∧ hd.metrics = s.metrics) :
    s.Harmless lib e := by
  intro s' hstep
  cases e with
  | arrive id req =>
      obtain ⟨-, rfl⟩ := step_arrive_cases hstep
      exact ⟨rfl, rfl⟩
  | advance id env =>
      obtain ⟨req, stage, hd, hreq, hresume, rfl⟩ := step_advance_cases hstep
      exact h id env req stage hd rfl hreq hresume hstep
  | record id what =>
      obtain ⟨traffic, -, rfl⟩ := step_record_cases hstep
      exact ⟨rfl, rfl⟩

/-- Each section of a request that is refused in the end is harmless. -/
theorem harmless_of_not_past {s₁ : Server α} (hstep : s.step lib e = some s₁)
    (hpast : ¬ s₁.Past e.id) : s.Harmless lib e := by
  refine harmless_of_resume fun id env req stage hd he hreq hresume hput => ?_
  obtain rfl := Option.some.inj (hput.symm.trans hstep)
  subst he
  have hsec := Section.of_resume hresume
  have hrefused : ∃ resp, hd.stage = .answered resp ∧ resp.refused = true := by
    by_contra hno
    refine hpast ⟨req, hd.stage, OrdMap.getElem?_insert_self' _ _ _, hsec.moved,
      fun resp hresp => ?_⟩
    exact Bool.eq_false_iff.mpr fun htrue => hno ⟨resp, hresp, htrue⟩
  obtain ⟨resp, hresp, htrue⟩ := hrefused
  rcases hsec.answered_cases hresp with hfalse | ⟨-, hsys, hmetrics, -⟩
  · rw [hfalse] at htrue
    cases htrue
  · exact ⟨hsys, hmetrics⟩

/-- The number is that of a request that was refused. -/
def refusedIn (s : Server α) (id : ℕ) : Bool :=
  s.answers.any fun a => a.id = id && a.resp.refused

theorem not_past_of_refusedIn (h : s.AnswersOk) {id : ℕ} (hrefused : s.refusedIn id = true) :
    ¬ s.Past id := by
  obtain ⟨a, ha, hid⟩ := List.any_eq_true.mp hrefused
  obtain ⟨rfl, hresp⟩ : a.id = id ∧ a.resp.refused = true := by simpa using hid
  rintro ⟨req, stage, hreq, -, hnot⟩
  obtain ⟨-, rfl⟩ := Prod.mk.inj (Option.some.inj ((h a ha).symm.trans hreq))
  rw [hnot a.resp rfl] at hresp
  cases hresp

/-- A request without the key waits or has got the code 401, and no other gets this code. -/
structure AuthOk (apiKey : String) (req : Request) (stage : Stage) : Prop where
  stopped : authorized apiKey req = false →
    stage = .arrived ∨ stage = .answered (.message 401 "unauthorized")
  admitted : authorized apiKey req = true → ∀ resp, stage = .answered resp → resp.status ≠ 401

theorem authOk_resume {apiKey : String} {env : Outside} {sys : Sys} {metrics : Metrics α}
    {traffic : Traffic} {id : ℕ} {req : Request} {stage : Stage} {hd : Handled α}
    (hok : AuthOk apiKey req stage)
    (h : resume lib apiKey env sys metrics traffic id req stage = some hd) :
    AuthOk apiKey req hd.stage := by
  refine ⟨fun hno => ?_, fun hyes resp hresp hstatus => ?_⟩
  · rcases hok.stopped hno with rfl | rfl
    · rw [resume_of_unauthorized hno] at h
      obtain rfl := Option.some.inj h
      exact .inr rfl
    · cases h
  · rcases (Section.of_resume h).answered_cases hresp with hfalse | ⟨-, -, -, hauth⟩
    · simp [Response.refused, hstatus] at hfalse
    · rw [hauth hstatus] at hyes
      cases hyes

/-- The key of the server, and what it means for all requests. -/
def Guards (apiKey : String) (s : Server α) : Prop :=
  s.apiKey = apiKey ∧
    ∀ (id : ℕ) (req : Request) (stage : Stage), s.requests[id]? = some (req, stage) →
      AuthOk apiKey req stage

theorem guards_step {apiKey : String} (h : s.Guards apiKey) (hstep : s.step lib e = some s') :
    s'.Guards apiKey := by
  obtain ⟨hkey, hall⟩ := h
  cases e with
  | arrive id' req' =>
      obtain ⟨-, rfl⟩ := step_arrive_cases hstep
      refine ⟨hkey, fun id req stage hreq => ?_⟩
      rcases OrdMap.getElem?_insert_cases hreq with ⟨-, heq⟩ | ⟨-, hold⟩
      · cases heq
        exact ⟨fun _ => .inl rfl, fun _ _ hresp => by cases hresp⟩
      · exact hall id req stage hold
  | advance id' env =>
      obtain ⟨req', stage', hd, hreq', hresume, rfl⟩ := step_advance_cases hstep
      refine ⟨hkey, fun id req stage hreq => ?_⟩
      rcases OrdMap.getElem?_insert_cases hreq with ⟨-, heq⟩ | ⟨-, hold⟩
      · cases heq
        rw [hkey] at hresume
        exact authOk_resume (hall id' req' stage' hreq') hresume
      · exact hall id req stage hold
  | record id what =>
      obtain ⟨traffic, -, rfl⟩ := step_record_cases hstep
      exact ⟨hkey, hall⟩

theorem guards_start (apiKey : String) (w : World) : (start apiKey w : Server α).Guards apiKey :=
  ⟨rfl, fun id req stage h => by simp [start] at h⟩

/-- A request keeps what it asked for to the end of a run. -/
theorem request_of_run {events : List Event} (hrun : exec (step lib) s events = some s') {id : ℕ}
    {req : Request} {stage : Stage} (h : s.requests[id]? = some (req, stage)) :
    ∃ stage', s'.requests[id]? = some (req, stage') :=
  invariant (fun t : Server α => ∃ stage', t.requests[id]? = some (req, stage'))
    (fun _ _ _ ⟨_, ht⟩ hstep => request_of_step hstep ht) hrun ⟨stage, h⟩

theorem harmless_of_unauthorized {apiKey : String} (hguards : s.Guards apiKey)
    (h : ∀ (req : Request) (stage : Stage), s.requests[e.id]? = some (req, stage) →
      authorized apiKey req = false) : s.Harmless lib e := by
  refine harmless_of_resume fun id env req stage hd he hreq hresume _ => ?_
  subst he
  have hno := h req stage hreq
  rcases (hguards.2 id req stage hreq).stopped hno with rfl | rfl
  · rw [hguards.1, resume_of_unauthorized hno] at hresume
    obtain rfl := Option.some.inj hresume
    exact ⟨rfl, rfl⟩
  · cases hresume

/-- The number is that of a request without the key. -/
def unauthorizedIn (s : Server α) (id : ℕ) : Bool :=
  match s.requests[id]? with
  | some (req, _) => !authorized s.apiKey req
  | none => false

end Server

/-- The API key stops all other requests. In every run a request is answered with 401 exactly if it
does not have the key, unless the path is open to all or there is no key; and leaving out these
requests gives a run to the same broker, files and metrics of the handlers, in which `withMetrics`
has recorded the other requests as before and these are answered as before, but for the values that
`/metrics` shows of the metrics of `withMetrics`. -/
theorem unauthorized_requests_only_counted {apiKey : String} {w : World} {events : List Event}
    {s : Server α} (hrun : exec (Server.step lib) (.start apiKey w) events = some s) :
    (∀ a ∈ s.answers, (a.resp.status = 401 ↔ authorized apiKey a.req = false) ∧
      (authorized apiKey a.req = false → a.resp = .message 401 "unauthorized")) ∧
    ∃ t, exec (Server.step lib) (.start apiKey w)
        (events.filter fun e => !s.unauthorizedIn e.id) = some t ∧ s.Erased s.unauthorizedIn t := by
  have hguards := invariant (Server.Guards apiKey) (fun _ _ _ => Server.guards_step) hrun
    (Server.guards_start apiKey w)
  constructor
  · intro a ha
    have hok := hguards.2 _ _ _ (Server.answersOk_run hrun a ha)
    have hstopped : authorized apiKey a.req = false → a.resp = .message 401 "unauthorized" := by
      intro hno
      rcases hok.stopped hno with hstage | hstage
      · cases hstage
      · exact Stage.answered.inj hstage
    refine ⟨⟨fun hstatus => ?_, fun hno => by rw [hstopped hno]; rfl⟩, hstopped⟩
    exact Bool.eq_false_iff.mpr fun hyes => hok.admitted hyes a.resp rfl hstatus
  · refine Server.erase_run hrun ?_ (.refl_start _ apiKey w)
    refine guarded_of_forall_append_cons fun before e after s₁ hevents hbefore hid => ?_
    rw [hevents, exec_append_eq_some_iff] at hrun
    obtain ⟨s₁', hbefore', hrest⟩ := hrun
    obtain rfl := Option.some.inj (hbefore.symm.trans hbefore')
    have hguards₁ := invariant (Server.Guards apiKey) (fun _ _ _ => Server.guards_step) hbefore
      (Server.guards_start apiKey w)
    refine Server.harmless_of_unauthorized hguards₁ fun req stage hreq => ?_
    obtain ⟨stage', hend⟩ := Server.request_of_run hrest hreq
    rw [Server.unauthorizedIn, hend, hguards.1] at hid
    simpa using hid

/-- A request without the key among two with it, which overlap, and a reader of its counter. -/
def unauthorizedSample : List Event :=
  let admitted : Request := { samplePost "/produce" [1] with apiKey := "key" }
  let go (id : ℕ) : Event := .advance id (sampleOutside 0)
  [.arrive 0 admitted, .arrive 1 (samplePost "/produce" [1]), go 0, .arrive 2 admitted, go 1,
    .record 1 .total, go 2, go 2, go 0, .arrive 3 (samplePost "/metrics" []), go 3,
    .advance 3 { sampleOutside 0 with scrape := .read (.reqTotal .post "/produce" 401) }, go 3]

theorem unauthorized_requests_only_counted_sample :
    ∃ s t, exec (Server.step sampleLibrary) (.start "key" ⟨fun _ => none, .fresh ⟨true, ["d"]⟩⟩)
        unauthorizedSample = some s ∧
      (s.answers.map (fun a => (a.id, a.resp.status)) = [(1, 401), (2, 200), (0, 200), (3, 200)] ∧
        s.traffic.counted = [⟨1, .post, "/produce", 401⟩]) ∧
      exec (Server.step sampleLibrary) (.start "key" ⟨fun _ => none, .fresh ⟨true, ["d"]⟩⟩)
        (unauthorizedSample.filter fun e => !s.unauthorizedIn e.id) = some t ∧
      t.sys = s.sys := by
  obtain ⟨s, hrun, hs⟩ : ∃ s, exec (Server.step sampleLibrary)
        (.start "key" ⟨fun _ => none, .fresh ⟨true, ["d"]⟩⟩) unauthorizedSample = some s ∧
      (s.answers.map (fun a => (a.id, a.resp.status)) = [(1, 401), (2, 200), (0, 200), (3, 200)] ∧
        s.traffic.counted = [⟨1, .post, "/produce", 401⟩]) :=
    exists_exec_of_any (by decide +kernel)
  obtain ⟨-, t, hrun', herased⟩ := unauthorized_requests_only_counted hrun
  exact ⟨s, t, hrun, hs, hrun', herased.sys⟩

/-- Requests that are refused leave nothing but their counts. In every run, with any number of
requests handled at once, leaving out the requests that are answered with 400, 401, 404 or 405 gives
a run to the same broker, files and metrics of the handlers, in which `withMetrics` has recorded the
other requests as before and these are answered as before, but for the values that `/metrics` shows
of the metrics of `withMetrics`. -/
theorem refused_requests_only_counted {apiKey : String} {w : World} {events : List Event}
    {s : Server α} (hrun : exec (Server.step lib) (.start apiKey w) events = some s) :
    ∃ t, exec (Server.step lib) (.start apiKey w)
        (events.filter fun e => !s.refusedIn e.id) = some t ∧ s.Erased s.refusedIn t := by
  have hok := Server.answersOk_run hrun
  refine Server.erase_run hrun ?_ (.refl_start _ apiKey w)
  refine guarded_of_forall_append_cons fun before e after s₁ hevents hbefore hid => ?_
  rw [hevents, exec_append_eq_some_iff] at hrun
  obtain ⟨s₁', hbefore', hrest⟩ := hrun
  obtain rfl := Option.some.inj (hbefore.symm.trans hbefore')
  obtain ⟨s₂, hstep, hafter⟩ := exec_cons_eq_some_iff.mp hrest
  refine Server.harmless_of_not_past hstep fun hpast => ?_
  -- a request that is past its first section stays so until the end
  exact Server.not_past_of_refusedIn hok hid
    (invariant (Server.Past e.id) (fun _ _ _ => Server.past_step) hafter hpast)

/-- A request that cannot be decoded and one to an unknown path while another is handled. -/
def refusedSample : List Event :=
  [.arrive 0 (samplePost "/produce" [1]), .arrive 1 (samplePost "/produce" []),
    .advance 0 (sampleOutside 0), .arrive 2 (samplePost "/records" [1]),
    .advance 1 (sampleOutside 0), .advance 2 (sampleOutside 0), .advance 0 (sampleOutside 0)]

theorem refused_requests_only_counted_sample :
    ∃ s t, exec (Server.step sampleLibrary) (.start "" ⟨fun _ => none, .fresh ⟨true, ["d"]⟩⟩)
        refusedSample = some s ∧
      s.answers.map (fun a => (a.id, a.resp.status)) = [(1, 400), (2, 404), (0, 200)] ∧
      exec (Server.step sampleLibrary) (.start "" ⟨fun _ => none, .fresh ⟨true, ["d"]⟩⟩)
        (refusedSample.filter fun e => !s.refusedIn e.id) = some t ∧
      t.sys = s.sys := by
  obtain ⟨s, hrun, hanswers⟩ : ∃ s, exec (Server.step sampleLibrary)
        (.start "" ⟨fun _ => none, .fresh ⟨true, ["d"]⟩⟩) refusedSample = some s ∧
      s.answers.map (fun a => (a.id, a.resp.status)) = [(1, 400), (2, 404), (0, 200)] :=
    exists_exec_of_any (by decide +kernel)
  obtain ⟨t, hrun', herased⟩ := refused_requests_only_counted hrun
  exact ⟨s, t, hrun, hanswers, hrun', herased.sys⟩

end StreamFlow.Management
