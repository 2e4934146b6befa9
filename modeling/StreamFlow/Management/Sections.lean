import StreamFlow.Management.Server

/-!
# What a section of a handler does

`Section` lists, once for all handlers, what a section can do to the broker, where it leaves its
request, and what it answers; `Section.of_resume` says that there is nothing else. The results about
whole runs go through its cases. `StageOk` says what is known about a request that waits.
-/

namespace StreamFlow.Management

open BigEndian Run

variable {α : Type} {lib : Library α}

/-- The codes of a request that is not admitted or not understood. -/
def Response.refused (r : Response) : Bool :=
  r.status = 400 || r.status = 401 || r.status = 404 || r.status = 405

/-- A handler that waits has passed the checks of its endpoint. -/
def StageOk (lib : Library α) (req : Request) : Stage → Prop
  | .producing p => route lib req = .handler .produce ∧ lib.produce req.body = some p
  | .checking p => route lib req = .handler .produceIdempotent ∧ lib.idempotent req.body = some p
  | .idempotent topic => route lib req = .handler .produceIdempotent ∧
      ∃ p, lib.idempotent req.body = some p ∧ p.topic = topic
  | .measuring _ => route lib req = .handler .commitOffset
  | .staging p => route lib req = .handler .txProduce ∧ lib.txProduce req.body = some p
  | .committing txID => route lib req = .handler .txCommit ∧ lib.txID req.body = some txID
  | .scraping _ => route lib req = .handler .metrics
  | .arrived => True
  | .answered _ => True

/-- The stages behind a `CreateTopic`. -/
def Stage.created : Stage → Bool
  | .producing _ => true
  | .checking _ => true
  | .staging _ => true
  | _ => false

/-- The endpoints whose success is a change of a transaction. -/
def Endpoint.changesTx : Endpoint → Bool
  | .txProduce => true
  | .txCommit => true
  | .txAbort => true
  | _ => false

/-- Bodies without records. -/
def ResponseBody.plain : ResponseBody → Bool
  | .record _ => false
  | .idempotent _ _ => false
  | .records _ => false
  | _ => true

/-- A response that reports neither a change of a transaction nor a record. -/
structure Plain (lib : Library α) (req : Request) (resp : Response) : Prop where
  silent : resp.status = 200 →
    ∀ endpoint, route lib req = .handler endpoint → endpoint.changesTx = false
  body : resp.body.plain = true

/-- The id of the transaction that a request to begin one gets. -/
def beginsTx (lib : Library α) (req : Request) (now : Time) : Option String :=
  if route lib req = .handler .txBegin then
    (lib.txBegin req.body).bind fun p =>
      if p.1 = "" then none else some (Broker.newTxID p.1 p.2 now)
  else none

inductive Section (lib : Library α) (apiKey : String) (env : Outside) (sys : Sys)
    (metrics : Metrics α) (id : ℕ) (req : Request) : Stage → Handled α → Prop where
  | stops (hauth : authorized apiKey req = false) :
      Section lib apiKey env sys metrics id req .arrived
        (reply sys metrics (.message 401 "unauthorized"))
  | refuses {resp : Response} (hstatus : resp.status ∈ [400, 404, 405])
      (hbody : resp.body.plain = true) :
      Section lib apiKey env sys metrics id req .arrived (reply sys metrics resp)
  | scrapes {samples : List (MetricKey × Bytes)} {next : Stage}
      (hnext : (∃ sample, next = .scraping (samples ++ [sample])) ∨
        (∃ others, next = .answered ⟨200, .metrics samples others⟩) ∨
        ∃ text, next = .answered ⟨500, .text text⟩) :
      Section lib apiKey env sys metrics id req (.scraping samples) ⟨sys, metrics, next⟩
  | opens (hroute : route lib req = .handler .metrics) :
      Section lib apiKey env sys metrics id req .arrived ⟨sys, metrics, .scraping []⟩
  | answers {stage : Stage} {metrics' : Metrics α} {resp : Response}
      (haccepted : resp.refused = false) (hplain : Plain lib req resp) :
      Section lib apiKey env sys metrics id req stage (reply sys metrics' resp)
  | reads {recs : List Record} (hroute : route lib req = .handler .consume)
      (hconsume : sys.world.handleConsume lib.json req.method
        ⟨req.query "topic", req.query "offset", req.query "max"⟩ = .ok recs) :
      Section lib apiKey env sys metrics id req .arrived
        (reply sys metrics ⟨200, .records recs⟩)
  | creates {name : String} {resp : Response} (haccepted : resp.refused = false)
      (hplain : Plain lib req resp) :
      Section lib apiKey env sys metrics id req .arrived
        (reply (sys.createTopic env.fault name).1 metrics resp)
  | createsFirst {name : String} {next : Stage} (hcreated : next.created = true)
      (hnext : StageOk lib req next) :
      Section lib apiKey env sys metrics id req .arrived
        ⟨(sys.createTopic env.fault name).1, metrics, next⟩
  | produces {p : ProduceRequest} {rec : Record}
      (hok : (sys.produce lib.json env.produce .produce p.topic (Utf8.encode p.key)
        (Utf8.encode p.value) p.headers).2 = .ok rec) :
      Section lib apiKey env sys metrics id req (.producing p)
        (reply (sys.produce lib.json env.produce .produce p.topic (Utf8.encode p.key)
          (Utf8.encode p.value) p.headers).1 (metrics.produced p.topic) ⟨200, .record rec⟩)
  | produceFails {p : ProduceRequest} {status : ℕ} {e : BrokerError}
      (hstatus : status ∈ [409, 500]) :
      Section lib apiKey env sys metrics id req (.producing p)
        (reply (sys.produce lib.json env.produce .produce p.topic (Utf8.encode p.key)
          (Utf8.encode p.value) p.headers).1 metrics (.brokerError status e))
  | checks {p : IdempotentRequest} {sys' : Sys} (hcheck : sys.idemCheck id p.args = some sys') :
      Section lib apiKey env sys metrics id req (.checking p)
        (afterIdempotent sys' metrics id p.topic)
  | continues {topic : String} {sys' : Sys} (hnext : nextIdempotent lib env sys id = some sys') :
      Section lib apiKey env sys metrics id req (.idempotent topic)
        (afterIdempotent sys' metrics id topic)
  | commitsOffset {c : CommitRequest} {next : Stage}
      (hroute : route lib req = .handler .commitOffset)
      (hnext : next = .measuring c ∨ ∃ e, next = .answered ⟨500, .offsetError e⟩) :
      Section lib apiKey env sys metrics id req .arrived
        ⟨{ sys with world := (sys.world.commitOffset env.commit.mkdirOk env.commit.outcome c.topic
          c.group c.offset).1 }, metrics, next⟩
  | measures {c : CommitRequest} {metrics' : Metrics α} :
      Section lib apiKey env sys metrics id req (.measuring c)
        (reply sys metrics' ⟨200, .object [("status", "committed")]⟩)
  | drains {n : ℤ} (hroute : route lib req = .handler .drain) :
      Section lib apiKey env sys metrics id req .arrived
        (reply (sys.setBroker (sys.world.broker.drain env.now (n * 1000000000))) metrics
          ⟨200, .draining n⟩)
  | begins {p : String × ℤ} {txID : String} (hroute : route lib req = .handler .txBegin)
      (hbegins : (Action.beginTransaction p.1 p.2 env.now env.createdAt).begins =
        beginsTx lib req env.now) :
      Section lib apiKey env sys metrics id req .arrived
        (reply (sys.beginTransaction p.1 p.2 env.now env.createdAt) metrics
          ⟨200, .object [("tx_id", txID)]⟩)
  | stages {p : TxProduceRequest} {place : ℕ} {tx : Transaction} (htopic : p.topic ≠ "")
      (hopen : sys.world.broker.openTx p.txID = .ok (place, tx)) :
      Section lib apiKey env sys metrics id req (.staging p)
        (reply { sys.setBroker (sys.world.broker.setTx place
              { tx with records := tx.records ++ [p.staged] }) with
            staged := sys.staged ++ [⟨p.txID, place, p.staged⟩] } metrics
          ⟨200, .object [("status", "buffered")]⟩)
  | starts {txID : String} {found : Broker × ℕ × List TxRecord}
      (hroute : route lib req = .handler .txCommit) (hbody : lib.txID req.body = some txID)
      (hstart : sys.world.broker.commitStart txID = .ok found) :
      Section lib apiKey env sys metrics id req .arrived
        ⟨(sys.commitStart id txID).getD sys, metrics, .committing txID⟩
  | commits {txID : String} {sys' : Sys} (hnext : nextCommit lib env sys id = some sys') :
      Section lib apiKey env sys metrics id req (.committing txID)
        (afterCommit sys' metrics id txID)
  | aborts {txID : String} {place : ℕ} {tx : Transaction}
      (hroute : route lib req = .handler .txAbort) (hbody : lib.txID req.body = some txID)
      (hopen : sys.world.broker.openTx txID = .ok (place, tx)) :
      Section lib apiKey env sys metrics id req .arrived
        (reply { sys.setBroker (sys.world.broker.setTx place
              { tx with status := .aborted, records := [] }) with
            aborted := sys.aborted ++ [(txID, place)] } metrics
          ⟨200, .object [("status", "aborted")]⟩)

theorem plain_of_route {req : Request} {resp : Response} {endpoint : Endpoint}
    (hroute : route lib req = .handler endpoint) (hchanges : endpoint.changesTx = false)
    (hbody : resp.body.plain = true) : Plain lib req resp := by
  refine ⟨fun _ endpoint' hroute' => ?_, hbody⟩
  obtain rfl := Matched.handler.inj (hroute.symm.trans hroute')
  exact hchanges

theorem plain_brokerError {req : Request} {status : ℕ} (hstatus : status ≠ 200) (e : BrokerError) :
    Plain lib req (.brokerError status e) :=
  ⟨fun h => absurd h hstatus, rfl⟩

/-- The block of a log that a query asks for. -/
structure Request.Asks (req : Request) (topic : String) (fromOffset max : ℤ) : Prop where
  topic : Utf8.text? (req.query "topic") = some topic
  fromOffset :
    (if req.query "offset" = [] then some 0 else Decimal.parseInt? (req.query "offset")) =
    some fromOffset
  max : (if req.query "max" = [] then some 100
    else (Decimal.parseInt? (req.query "max")).filter fun n => decide (0 < n)) = some max

theorem handleConsume_cases (lib : Library α) (w : World) (req : Request) :
    (∃ e, w.handleConsume lib.json req.method
        ⟨req.query "topic", req.query "offset", req.query "max"⟩ = .error e ∧
      e.status ∈ [400, 404, 405]) ∨
    ∃ topic fromOffset max recs, req.Asks topic fromOffset max ∧ 0 < max ∧
      w.consume lib.json topic fromOffset max = .ok recs ∧
      w.handleConsume lib.json req.method
        ⟨req.query "topic", req.query "offset", req.query "max"⟩ = .ok recs := by
  unfold World.handleConsume
  split
  · exact .inl ⟨_, rfl, by decide⟩
  · split
    · exact .inl ⟨_, rfl, by decide⟩
    · split
      · exact .inl ⟨_, rfl, by decide⟩
      · next fromOffset hfrom =>
          split
          · exact .inl ⟨_, rfl, by decide⟩
          · next max hmax =>
              split
              · exact .inl ⟨_, rfl, by simp⟩
              · next topic htopic =>
                  have hpos : 0 < max := by
                    dsimp only at hmax
                    split at hmax
                    · cases hmax
                      decide
                    · exact of_decide_eq_true (Option.filter_eq_some_iff.mp hmax).2
                  cases hc : w.consume lib.json topic fromOffset max with
                  | error e => exact .inl ⟨_, rfl, by simp⟩
                  | ok recs =>
                      exact .inr ⟨topic, fromOffset, max, recs, ⟨htopic, hfrom, hmax⟩, hpos, hc,
                        rfl⟩

namespace Section

variable {apiKey : String} {env : Outside} {sys : Sys} {metrics : Metrics α} {id : ℕ}
  {req : Request} {stage : Stage}

/-! ### First sections -/

theorem of_message {status : ℕ} (hstatus : status ∈ [400, 404, 405]) (text : String) :
    Section lib apiKey env sys metrics id req .arrived
      (reply sys metrics (.message status text)) :=
  .refuses hstatus rfl

theorem of_onPost {β : Type} {decoded : Option β} {complete : β → Bool} {message : String}
    {next : β → Handled α} (hnext : ∀ x, decoded = some x → complete x = true →
      Section lib apiKey env sys metrics id req .arrived (next x)) :
    Section lib apiKey env sys metrics id req .arrived
      (onPost sys metrics req decoded complete message next) := by
  rcases onPost_cases decoded complete message next with
    ⟨text, heq⟩ | ⟨text, heq⟩ | ⟨x, hx, hcomplete, heq⟩
  · rw [heq]
    exact of_message (by decide) text
  · rw [heq]
    exact of_message (by decide) text
  · rw [heq]
    exact hnext x hx hcomplete

theorem of_createTopic {name : String} {next : Sys → Handled α}
    (hnext : Section lib apiKey env sys metrics id req .arrived
      (next (sys.createTopic env.fault name).1)) :
    Section lib apiKey env sys metrics id req .arrived
      (createTopic env sys metrics name next) := by
  rcases createTopic_cases name next with ⟨e, heq⟩ | heq
  · rw [heq]
    exact .creates rfl (plain_brokerError (by decide) e)
  · rw [heq]
    exact hnext

theorem of_handleTopics (hroute : route lib req = .handler .topics) :
    Section lib apiKey env sys metrics id req .arrived
      (handleTopics lib env sys metrics req) := by
  unfold handleTopics
  split
  · exact .answers rfl (plain_of_route hroute rfl rfl)
  · split
    · exact of_message (by decide) _
    · split
      · exact of_message (by decide) _
      · exact of_createTopic (.creates rfl (plain_of_route hroute rfl rfl))
  · exact of_message (by decide) _

theorem of_handleConsume (hroute : route lib req = .handler .consume) :
    Section lib apiKey env sys metrics id req .arrived (handleConsume lib sys metrics req) := by
  unfold handleConsume
  rcases handleConsume_cases lib sys.world req with
    ⟨e, herror, hstatus⟩ | ⟨topic, fromOffset, max, recs, -, -, -, hok⟩
  · rw [herror]
    exact .refuses hstatus rfl
  · rw [hok]
    exact .reads hroute hok

theorem of_handleCommitOffset (hroute : route lib req = .handler .commitOffset) :
    Section lib apiKey env sys metrics id req .arrived
      (handleCommitOffset lib env sys metrics req) := by
  refine of_onPost fun c _ _ => ?_
  have hcommits : ∀ next : Stage,
      (next = .measuring c ∨ ∃ e, next = .answered ⟨500, .offsetError e⟩) →
      Section lib apiKey env sys metrics id req .arrived
        ⟨{ sys with world := (sys.world.commitOffset env.commit.mkdirOk env.commit.outcome c.topic
          c.group c.offset).1 }, metrics, next⟩ := fun _ hnext => .commitsOffset hroute hnext
  split
  · next w e heq =>
      rw [heq] at hcommits
      exact hcommits _ (.inr ⟨e, rfl⟩)
  · next w u heq =>
      rw [heq] at hcommits
      exact hcommits _ (.inl rfl)

theorem of_handleOffset (hroute : route lib req = .handler .offset) :
    Section lib apiKey env sys metrics id req .arrived (handleOffset sys metrics req) := by
  unfold handleOffset
  split
  · exact of_message (by decide) _
  · split
    · exact of_message (by decide) _
    · split
      · split
        · exact .refuses (by simp) rfl
        · exact .answers rfl (plain_of_route hroute rfl rfl)
      · exact .refuses (by simp) rfl

theorem of_handleDrain (hroute : route lib req = .handler .drain) :
    Section lib apiKey env sys metrics id req .arrived (handleDrain lib env sys metrics req) := by
  refine of_onPost fun n _ _ => ?_
  split
  · exact of_message (by decide) _
  · exact .drains hroute

theorem of_handleTxBegin (hroute : route lib req = .handler .txBegin) :
    Section lib apiKey env sys metrics id req .arrived
      (handleTxBegin lib env sys metrics req) := by
  refine of_onPost fun p hp _ => ?_
  split
  · exact .answers rfl (plain_brokerError (by decide) _)
  · refine .begins hroute ?_
    rw [beginsTx, if_pos hroute, hp]
    rfl

theorem of_handleTxCommit (hroute : route lib req = .handler .txCommit) :
    Section lib apiKey env sys metrics id req .arrived
      (handleTxCommit lib sys metrics req id) := by
  refine of_onPost fun txID htx _ => ?_
  split
  · exact .answers rfl (plain_brokerError (by decide) _)
  · next found hstart => exact .starts hroute htx hstart

theorem of_handleTxAbort (hroute : route lib req = .handler .txAbort) :
    Section lib apiKey env sys metrics id req .arrived (handleTxAbort lib sys metrics req) := by
  refine of_onPost fun txID htx _ => ?_
  cases hopen : sys.world.broker.openTx txID with
  | error e =>
      have habort : sys.world.broker.abortTransaction txID = .error e := by
        rw [Broker.abortTransaction, hopen]
      rw [habort]
      exact .answers rfl (plain_brokerError (by decide) e)
  | ok found =>
      have habort : sys.world.broker.abortTransaction txID = .ok (sys.world.broker.setTx found.1
          { found.2 with status := .aborted, records := [] }, found.1) := by
        rw [Broker.abortTransaction, hopen]
      rw [Sys.abortTransaction, habort]
      exact .aborts hroute htx hopen

theorem of_handleGraphQL (hroute : route lib req = .handler .graphQL) :
    Section lib apiKey env sys metrics id req .arrived (handleGraphQL lib sys metrics req) := by
  refine of_onPost fun query _ _ => ?_
  dsimp only
  split
  · exact .answers rfl (plain_of_route hroute rfl rfl)
  · split
    · exact .answers rfl (plain_of_route hroute rfl rfl)
    · exact of_message (by decide) _

theorem of_serve : Section lib apiKey env sys metrics id req .arrived
    (serve lib env sys metrics req id (route lib req)) := by
  cases hroute : route lib req with
  | notFound => exact of_message (by decide) _
  | redirect location => exact .answers rfl ⟨nofun, rfl⟩
  | handler endpoint =>
      cases endpoint with
      | metrics => exact .opens hroute
      | health => exact .answers rfl (plain_of_route hroute rfl rfl)
      | topics => exact of_handleTopics hroute
      | produce =>
          exact of_onPost fun p hp _ => of_createTopic (.createsFirst rfl ⟨hroute, hp⟩)
      | produceIdempotent =>
          exact of_onPost fun p hp _ => of_createTopic (.createsFirst rfl ⟨hroute, hp⟩)
      | consume => exact of_handleConsume hroute
      | commitOffset => exact of_handleCommitOffset hroute
      | offset => exact of_handleOffset hroute
      | drain => exact of_handleDrain hroute
      | txBegin => exact of_handleTxBegin hroute
      | txProduce =>
          exact of_onPost fun p hp _ => of_createTopic (.createsFirst rfl ⟨hroute, hp⟩)
      | txCommit => exact of_handleTxCommit hroute
      | txAbort => exact of_handleTxAbort hroute
      | graphQL => exact of_handleGraphQL hroute
      | windowClose =>
          exact of_onPost fun ms _ _ => .answers rfl (plain_of_route hroute rfl rfl)

/-! ### Later sections -/

theorem of_finishProduce (p : ProduceRequest) :
    Section lib apiKey env sys metrics id req (.producing p)
      (finishProduce lib env sys metrics p) := by
  unfold finishProduce
  rcases hp : sys.produce lib.json env.produce .produce p.topic (Utf8.encode p.key)
    (Utf8.encode p.value) p.headers with ⟨sys', _ | rec⟩
  · obtain rfl : _ = sys' := congrArg Prod.fst hp
    exact .produceFails (by split <;> decide)
  · obtain rfl : _ = sys' := congrArg Prod.fst hp
    exact .produces (congrArg Prod.snd hp)

theorem of_finishTxProduce (p : TxProduceRequest) :
    Section lib apiKey env sys metrics id req (.staging p) (finishTxProduce sys metrics p) := by
  have hrefused : ∀ {e : BrokerError}, sys.world.broker.txProduce p.txID p.topic
      (Utf8.encode p.key) (Utf8.encode p.value) p.headers = .error e →
      Section lib apiKey env sys metrics id req (.staging p) (finishTxProduce sys metrics p) := by
    intro e he
    rw [finishTxProduce, he]
    exact .answers rfl (plain_brokerError (by decide) e)
  by_cases htopic : p.topic = ""
  · exact hrefused (if_pos htopic)
  · cases hopen : sys.world.broker.openTx p.txID with
    | error e => exact hrefused (by rw [Broker.txProduce, if_neg htopic, hopen])
    | ok found =>
        have hok : sys.world.broker.txProduce p.txID p.topic (Utf8.encode p.key)
            (Utf8.encode p.value) p.headers = .ok (sys.world.broker.setTx found.1
              { found.2 with records := found.2.records ++ [p.staged] }, found.1) := by
          rw [Broker.txProduce, if_neg htopic, hopen]
          simp [TxProduceRequest.staged]
        rw [finishTxProduce, hok, Sys.txProduce, hok]
        exact .stages htopic hopen

theorem of_scrape (traffic : Traffic) (samples : List (MetricKey × Bytes)) :
    Section lib apiKey env sys metrics id req (.scraping samples)
      (scrape lib env sys metrics traffic samples) := by
  unfold scrape
  split
  · exact .scrapes (.inl ⟨_, rfl⟩)
  · exact .scrapes (.inr (.inl ⟨_, rfl⟩))
  · exact .scrapes (.inr (.inr ⟨_, rfl⟩))

/-- Every section of a handler is one of the cases. -/
theorem of_resume {traffic : Traffic} {hd : Handled α}
    (h : resume lib apiKey env sys metrics traffic id req stage = some hd) :
    Section lib apiKey env sys metrics id req stage hd := by
  cases stage with
  | arrived =>
      rw [resume] at h
      split at h
      · obtain rfl := Option.some.inj h
        exact of_serve
      · next hauth =>
          obtain rfl := Option.some.inj h
          exact .stops (Bool.eq_false_iff.mpr hauth)
  | answered r => cases h
  | scraping samples =>
      obtain rfl := Option.some.inj h
      exact of_scrape traffic samples
  | producing p =>
      obtain rfl := Option.some.inj h
      exact of_finishProduce p
  | checking p =>
      obtain ⟨sys', hcheck, rfl⟩ := Option.map_eq_some_iff.mp h
      exact .checks hcheck
  | idempotent topic =>
      obtain ⟨sys', hnext, rfl⟩ := Option.map_eq_some_iff.mp h
      exact .continues hnext
  | staging p =>
      obtain rfl := Option.some.inj h
      exact of_finishTxProduce p
  | committing txID =>
      obtain ⟨sys', hnext, rfl⟩ := Option.map_eq_some_iff.mp h
      exact .commits hnext
  | measuring c =>
      obtain rfl := Option.some.inj h
      exact .measures

/-! ### Where it leaves the request -/

theorem stageOk_afterIdempotent {sys' : Sys} {topic : String}
    (h : StageOk lib req (.idempotent topic)) :
    StageOk lib req (afterIdempotent sys' metrics id topic).stage := by
  unfold afterIdempotent
  split
  · trivial
  · trivial
  · exact h

theorem stageOk_afterCommit {sys' : Sys} {txID : String}
    (h : StageOk lib req (.committing txID)) :
    StageOk lib req (afterCommit sys' metrics id txID).stage := by
  unfold afterCommit
  split
  · split
    · trivial
    · trivial
    · exact h
  · exact h

theorem stageOk {hd : Handled α} (h : Section lib apiKey env sys metrics id req stage hd)
    (hstage : StageOk lib req stage) : StageOk lib req hd.stage := by
  cases h with
  | scrapes hnext =>
      rcases hnext with ⟨sample, rfl⟩ | ⟨others, rfl⟩ | ⟨text, rfl⟩
      · exact hstage
      · trivial
      · trivial
  | opens hroute => exact hroute
  | createsFirst _ hnext => exact hnext
  | checks hcheck => exact stageOk_afterIdempotent ⟨hstage.1, _, hstage.2, rfl⟩
  | continues hnext => exact stageOk_afterIdempotent hstage
  | commitsOffset hroute hnext =>
      rcases hnext with rfl | ⟨e, rfl⟩
      · exact hroute
      · trivial
  | starts hroute hbody => exact ⟨hroute, hbody⟩
  | commits hnext => exact stageOk_afterCommit hstage
  | _ => trivial

end Section

/-! ### What it does to the broker -/

theorem sys_afterIdempotent (sys : Sys) (metrics : Metrics α) (id : ℕ) (topic : String) :
    (afterIdempotent sys metrics id topic).sys = sys := by
  unfold afterIdempotent
  split <;> rfl

theorem sys_afterCommit (sys : Sys) (metrics : Metrics α) (id : ℕ) (txID : String) :
    (afterCommit sys metrics id txID).sys = sys := by
  unfold afterCommit
  split
  · split <;> rfl
  · rfl

/-- A commit goes on, or it is answered. -/
theorem stage_afterCommit (sys : Sys) (metrics : Metrics α) (id : ℕ) (txID : String) :
    (afterCommit sys metrics id txID).stage = .committing txID ∨
      ∃ resp, (afterCommit sys metrics id txID).stage = .answered resp ∧ resp.refused = false ∧
        resp.body.plain = true := by
  unfold afterCommit
  split
  · split
    · exact .inr ⟨_, rfl, rfl, rfl⟩
    · exact .inr ⟨_, rfl, rfl, rfl⟩
    · exact .inl rfl
  · exact .inl rfl

/-- A section of a call of the broker, a commit of an offset, or nothing. -/
inductive BrokerMove (json : RecordJson) (sys : Sys) : Sys → Prop where
  | stays : BrokerMove json sys sys
  | acts {sys' : Sys} (action : Action) (hstep : sys.step json action = some sys') :
      BrokerMove json sys sys'
  | commitsOffset (mkdirOk : Bool) (o : ByteFile.ReplaceOutcome) (topic group : String)
      (offset : Offset) :
      BrokerMove json sys
        { sys with world := (sys.world.commitOffset mkdirOk o topic group offset).1 }

namespace Section

variable {apiKey : String} {env : Outside} {sys : Sys} {metrics : Metrics α} {id : ℕ}
  {req : Request} {stage : Stage} {hd : Handled α}

theorem brokerMove_nextIdempotent {sys' : Sys} (h : nextIdempotent lib env sys id = some sys') :
    BrokerMove lib.json sys sys' := by
  unfold nextIdempotent at h
  split at h
  · exact .acts (.idemProduce id env.produce) h
  · exact .acts (.idemRecord id) h
  · cases h

theorem brokerMove_nextCommit {sys' : Sys} (h : nextCommit lib env sys id = some sys') :
    BrokerMove lib.json sys sys' := by
  unfold nextCommit at h
  split at h
  · split at h
    · exact .acts (.commitProduce id env.produce) h
    · split at h
      · exact .acts (.commitCreate id env.fault) h
      · exact .acts (.commitFinish id) h
  · cases h

theorem brokerMove_commitStart (txID : String) :
    BrokerMove lib.json sys ((sys.commitStart id txID).getD sys) := by
  cases hstart : sys.commitStart id txID with
  | none => exact .stays
  | some sys' => exact .acts (.commitStart id txID) hstart

/-- Every section of a handler makes at most one section of a call of the broker. -/
theorem brokerMove (h : Section lib apiKey env sys metrics id req stage hd) :
    BrokerMove lib.json sys hd.sys := by
  cases h with
  | stops | refuses | scrapes | opens | answers | reads | measures => exact .stays
  | @creates name => exact .acts (.createTopic env.fault name) rfl
  | @createsFirst name => exact .acts (.createTopic env.fault name) rfl
  | @produces p | @produceFails p =>
      exact .acts (.produce env.produce p.topic (Utf8.encode p.key) (Utf8.encode p.value)
        p.headers) rfl
  | @checks p sys' hcheck =>
      rw [sys_afterIdempotent]
      exact .acts (.idemCheck id p.args) hcheck
  | continues hnext =>
      rw [sys_afterIdempotent]
      exact brokerMove_nextIdempotent hnext
  | commitsOffset => exact .commitsOffset _ _ _ _ _
  | @drains n => exact .acts (.drain env.now (n * 1000000000)) rfl
  | @begins p => exact .acts (.beginTransaction p.1 p.2 env.now env.createdAt) rfl
  | @stages p place tx htopic hopen =>
      refine .acts
        (.txProduce p.txID p.topic (Utf8.encode p.key) (Utf8.encode p.value) p.headers) ?_
      rw [Sys.step, Sys.txProduce, Broker.txProduce, if_neg htopic, hopen]
      simp [reply, TxProduceRequest.staged]
  | starts => exact brokerMove_commitStart _
  | commits hnext =>
      rw [sys_afterCommit]
      exact brokerMove_nextCommit hnext
  | @aborts txID place tx _ _ hopen =>
      refine .acts (.abortTransaction txID) ?_
      rw [Sys.step, Sys.abortTransaction, Broker.abortTransaction, hopen]
      rfl

end Section

end StreamFlow.Management
