import StreamFlow.Broker.Sample
import StreamFlow.Broker.System
import StreamFlow.Foundation.GoStrings
import StreamFlow.Management.Lag

/-!
# The management server

All of `management/api/server.go`. Requests are handled in goroutines of their own, so a handler is
cut where it calls the broker: between two sections of the lock the sections of other requests may
come. A request that has arrived has a `Stage`, and `Server.step` moves one request by one section.
`withMetrics` counts a request and takes its time when the handler is done, in two more sections.
An answer of `/metrics` shows values that are read one after the other while other requests go on.

The decoders of `encoding/json`, `strings.ToLower`, the arithmetic of `float64`, `http.ServeMux` and
the texts of `promhttp` are parameters. Paths and methods are texts. The log of the audit and the
spans of `otelhttp` are left out.
-/

namespace StreamFlow.Management

open BigEndian Run

/-! ### Requests and responses -/

structure Request where
  method : Method
  path : String
  /-- `r.URL.Query().Get`; a parameter that is not there is empty. -/
  query : String → Bytes
  /-- `r.Header.Get("X-API-Key")`. -/
  apiKey : String
  body : Bytes

/-- What `handleProduceIdempotent` decodes. -/
structure IdempotentRequest extends ProduceRequest where
  producerID : String
  sequence : ℤ

def IdempotentRequest.args (r : IdempotentRequest) : IdemArgs :=
  ⟨r.topic, Utf8.encode r.key, Utf8.encode r.value, r.headers, r.producerID, r.sequence⟩

/-- What `handleTxProduce` decodes. -/
structure TxProduceRequest extends ProduceRequest where
  txID : String

/-- The record that a request stages. -/
def TxProduceRequest.staged (r : TxProduceRequest) : TxRecord :=
  ⟨r.topic, Utf8.encode r.key, Utf8.encode r.value, r.headers⟩

/-- The metrics of the registry, each with its labels. -/
inductive MetricKey where
  | produceThroughput (topic : String)
  | consumerLag (topic group : String)
  | windowCloseLatency
  | reqTotal (method : Method) (path : String) (status : ℕ)
  | reqDuration (method : Method) (path : String)
deriving DecidableEq

/-- The metrics that `withMetrics` changes; the others are changed by handlers. -/
def MetricKey.traffic : MetricKey → Bool
  | reqTotal _ _ _ => true
  | reqDuration _ _ => true
  | _ => false

inductive ResponseBody where
  | error (body : ErrorBody)
  | offsetError (e : OffsetError)
  | text (body : String)
  | redirect (location : String)
  | metrics (samples : List (MetricKey × Bytes)) (others : Bytes)
  | topics (names : List String)
  | object (members : List (String × String))
  | record (r : Record)
  | idempotent (r : Record) (duplicate : Bool)
  | records (rs : List Record)
  | offset (topic group : String) (off : ℤ)
  | draining (durationSeconds : ℤ)
  | committed (records : ℕ)
  | graphQLTopics (names : List String)
  | graphQLHealth

structure Response where
  status : ℕ
  body : ResponseBody

/-- `http.Error` with a fixed message. -/
def Response.message (status : ℕ) (text : String) : Response := ⟨status, .error (.message text)⟩

/-- `http.Error` with an error of the broker. -/
def Response.brokerError (status : ℕ) (e : BrokerError) : Response := ⟨status, .error (.broker e)⟩

inductive Endpoint where
  | metrics
  | health
  | topics
  | produce
  | produceIdempotent
  | consume
  | commitOffset
  | offset
  | drain
  | txBegin
  | txProduce
  | txCommit
  | txAbort
  | graphQL
  | windowClose
deriving DecidableEq

/-- The patterns of `Handler`. -/
def routes : List (String × Endpoint) :=
  [("/metrics", .metrics), ("/health", .health), ("/topics", .topics), ("/produce", .produce),
    ("/produce/idempotent", .produceIdempotent), ("/consume", .consume),
    ("/offset/commit", .commitOffset), ("/offset", .offset), ("/admin/drain", .drain),
    ("/tx/begin", .txBegin), ("/tx/produce", .txProduce), ("/tx/commit", .txCommit),
    ("/tx/abort", .txAbort), ("/graphql", .graphQL), ("/admin/window-close", .windowClose)]

/-- What `http.ServeMux` finds for a request. -/
inductive Matched where
  | handler (endpoint : Endpoint)
  | redirect (location : String)
  | notFound
deriving DecidableEq

/-- The value of a metric: a counter, a gauge, or the observations of a histogram. -/
inductive MetricValue (α : Type) where
  | counter (n : ℕ)
  | gauge (value : Option α)
  | histogram (observed : List α)

/-- What the server takes from the libraries: `encoding/json` at the type of each request, where
`none` is an error, `http.ServeMux` with a list of patterns, the text of a value in an answer of
`promhttp`, `strings.ToLower`, and `float64`. -/
structure Library (α : Type) where
  json : RecordJson
  topic : Bytes → Option String
  produce : Bytes → Option ProduceRequest
  idempotent : Bytes → Option IdempotentRequest
  commitOffset : Bytes → Option CommitRequest
  durationSeconds : Bytes → Option ℤ
  txBegin : Bytes → Option (String × ℤ)
  txProduce : Bytes → Option TxProduceRequest
  txID : Bytes → Option String
  graphQL : Bytes → Option String
  latencyMS : Bytes → Option α
  mux : List (String × Endpoint) → Request → Matched
  promhttp : MetricValue α → Bytes
  toLower : String → String
  float64 : ℤ → α
  isNeg : α → Bool
  seconds : α → α
  /-- `time.Duration.Seconds`. -/
  elapsed : ℤ → α

/-- The mux with the patterns of `Handler`. -/
def route {α : Type} (lib : Library α) (req : Request) : Matched := lib.mux routes req

/-! ### Handlers -/

/-- Where the handler of a request is: before its first section, behind a section that was not its
last, or done. The calls of `ProduceIdempotent` and `CommitTransaction` have stages of their own in
the broker. A handler of `promhttp` has read some samples. -/
inductive Stage where
  | arrived
  | scraping (samples : List (MetricKey × Bytes))
  | producing (req : ProduceRequest)
  | checking (req : IdempotentRequest)
  | idempotent (topic : String)
  | staging (req : TxProduceRequest)
  | committing (txID : String)
  | measuring (req : CommitRequest)
  | answered (resp : Response)

/-- The metrics that the handlers change. -/
structure Metrics (α : Type) where
  produceThroughput : String → ℕ
  consumerLag : Gauges α
  windowCloseLatency : List α

/-- A request that `withMetrics` has counted. -/
structure Counted where
  id : ℕ
  method : Method
  path : String
  status : ℕ
deriving DecidableEq

/-- A request that `withMetrics` has timed. -/
structure Timed where
  id : ℕ
  method : Method
  path : String
  elapsed : ℤ
deriving DecidableEq

/-- What `withMetrics` has done so far; the two metrics it changes are read off it. -/
structure Traffic where
  counted : List Counted
  timed : List Timed

def Traffic.reqTotal (t : Traffic) (method : Method) (path : String) (status : ℕ) : ℕ :=
  (t.counted.filter fun c => c.method = method ∧ c.path = path ∧ c.status = status).length

def Traffic.reqDuration (t : Traffic) (method : Method) (path : String) : List ℤ :=
  (t.timed.filter fun c => c.method = method ∧ c.path = path).map Timed.elapsed

/-- The value of a metric at a moment. -/
def MetricKey.value {α : Type} (lib : Library α) (metrics : Metrics α) (traffic : Traffic) :
    MetricKey → MetricValue α
  | produceThroughput topic => .counter (metrics.produceThroughput topic)
  | consumerLag topic group => .gauge (metrics.consumerLag (topic, group))
  | windowCloseLatency => .histogram metrics.windowCloseLatency
  | reqTotal method path status => .counter (traffic.reqTotal method path status)
  | reqDuration method path => .histogram ((traffic.reqDuration method path).map lib.elapsed)

/-- The broker, the metrics and the stage after a section. -/
structure Handled (α : Type) where
  sys : Sys
  metrics : Metrics α
  stage : Stage

/-- The next step of `promhttp`: it reads a metric, is done, with what other collectors have
reported, or fails. -/
inductive Scrape where
  | read (key : MetricKey)
  | finish (others : Bytes)
  | fail (text : String)

/-- What a section finds outside the server: the readings of the clock, the outcomes of its file
operations and the order in which `promhttp` goes through the metrics. -/
structure Outside where
  now : Time
  createdAt : Time
  fault : Option CreateFault
  produce : ProduceEnv
  commit : CommitEnv
  scrape : Scrape

def Metrics.produced {α : Type} (m : Metrics α) (topic : String) : Metrics α :=
  { m with produceThroughput :=
      Function.update m.produceThroughput topic (m.produceThroughput topic + 1) }

section Handlers

variable {α β : Type} (lib : Library α) (env : Outside) (sys : Sys) (metrics : Metrics α)
  (req : Request)

/-- The handler ends here and has not changed anything. -/
def reply (resp : Response) : Handled α := ⟨sys, metrics, .answered resp⟩

/-- The beginning that the handlers of `POST` requests share: the method, the decoder and a check of
the fields that must be there. -/
def onPost (decoded : Option β) (complete : β → Bool) (message : String) (next : β → Handled α) :
    Handled α :=
  if req.method ≠ .post then reply sys metrics (.message 405 "method not allowed")
  else
    match decoded with
    | none => reply sys metrics (.message 400 message)
    | some x =>
        if complete x then next x else reply sys metrics (.message 400 message)

def handleHealth : Handled α := reply sys metrics ⟨200, .text "ok"⟩

/-- A `CreateTopic` whose failure ends the handler. -/
def createTopic (name : String) (next : Sys → Handled α) : Handled α :=
  match sys.createTopic env.fault name with
  | (sys, .error e) => reply sys metrics (.brokerError 500 e)
  | (sys, .ok _) => next sys

def handleTopics : Handled α :=
  match req.method with
  | .get => reply sys metrics ⟨200, .topics sys.world.broker.listTopics⟩
  | .post =>
      match lib.topic req.body with
      | none => reply sys metrics (.message 400 "invalid topic payload")
      | some name =>
          if name = "" then reply sys metrics (.message 400 "invalid topic payload")
          else createTopic env sys metrics name fun sys =>
            reply sys metrics ⟨201, .object [("topic", name)]⟩
  | .other _ => reply sys metrics (.message 405 "method not allowed")

def handleProduce : Handled α :=
  onPost sys metrics req (lib.produce req.body) (fun p => p.topic ≠ "") "invalid produce payload"
    fun p => createTopic env sys metrics p.topic fun sys => ⟨sys, metrics, .producing p⟩

/-- The rest of `handleProduce`. -/
def finishProduce (p : ProduceRequest) : Handled α :=
  match sys.produce lib.json env.produce .produce p.topic (Utf8.encode p.key) (Utf8.encode p.value)
      p.headers with
  | (sys, .error e) => reply sys metrics (.brokerError (if e = .draining then 409 else 500) e)
  | (sys, .ok rec) => reply sys (metrics.produced p.topic) ⟨200, .record rec⟩

def handleProduceIdempotent : Handled α :=
  onPost sys metrics req (lib.idempotent req.body) (fun p => p.topic ≠ "" ∧ p.producerID ≠ "")
    "invalid idempotent produce payload"
    fun p => createTopic env sys metrics p.topic fun sys => ⟨sys, metrics, .checking p⟩

/-- What a handler does after a section of its `ProduceIdempotent`. -/
def afterIdempotent (id : ℕ) (topic : String) : Handled α :=
  match (sys.idem[id]?).map IdemCall.phase with
  | some (.done rec duplicate) =>
      reply sys (metrics.produced topic) ⟨200, .idempotent rec duplicate⟩
  | some (.failed e) => reply sys metrics (.brokerError 409 e)
  | _ => ⟨sys, metrics, .idempotent topic⟩

/-- The next section of a call of `ProduceIdempotent`. -/
def nextIdempotent (id : ℕ) : Option Sys :=
  match (sys.idem[id]?).map IdemCall.phase with
  | some .checked => sys.idemProduce lib.json id env.produce
  | some (.produced _) => sys.idemRecord id
  | _ => none

def handleConsume : Handled α :=
  match sys.world.handleConsume lib.json req.method
      ⟨req.query "topic", req.query "offset", req.query "max"⟩ with
  | .error e => reply sys metrics ⟨e.status, .error e.body⟩
  | .ok recs => reply sys metrics ⟨200, .records recs⟩

def handleCommitOffset : Handled α :=
  onPost sys metrics req (lib.commitOffset req.body) (fun c => c.topic ≠ "" ∧ c.group ≠ "")
    "invalid offset commit payload"
    fun c =>
      match sys.world.commitOffset env.commit.mkdirOk env.commit.outcome c.topic c.group
          c.offset with
      | (w, .error e) => reply { sys with world := w } metrics ⟨500, .offsetError e⟩
      | (w, .ok _) => ⟨{ sys with world := w }, metrics, .measuring c⟩

/-- The rest of `handleCommitOffset`. -/
def finishCommitOffset (c : CommitRequest) : Handled α :=
  reply sys { metrics with
      consumerLag := sys.world.setLag lib.json lib.float64 metrics.consumerLag c }
    ⟨200, .object [("status", "committed")]⟩

/-- `handleOffset`; a name that is not a text has no file. -/
def handleOffset : Handled α :=
  if req.method ≠ .get then reply sys metrics (.message 405 "method not allowed")
  else if req.query "topic" = [] ∨ req.query "group" = [] then
    reply sys metrics (.message 400 "topic and group are required")
  else
    match Utf8.text? (req.query "topic"), Utf8.text? (req.query "group") with
    | some topic, some group =>
        match sys.world.loadOffset topic group with
        | .error e => reply sys metrics ⟨404, .offsetError e⟩
        | .ok off => reply sys metrics ⟨200, .offset topic group off⟩
    | _, _ => reply sys metrics ⟨404, .offsetError .readFile⟩

def handleDrain : Handled α :=
  onPost sys metrics req (lib.durationSeconds req.body) (fun _ => true) "invalid drain payload"
    fun n =>
      if n ≤ 0 ∨ 3600 < n then
        reply sys metrics (.message 400 "duration_seconds must be in range 1..3600")
      else
        reply (sys.setBroker (sys.world.broker.drain env.now (n * 1000000000))) metrics
          ⟨200, .draining n⟩

def handleTxBegin : Handled α :=
  onPost sys metrics req (lib.txBegin req.body) (fun p => p.1 ≠ "") "invalid tx begin payload"
    fun p =>
      match sys.world.broker.beginTransaction p.1 p.2 env.now env.createdAt with
      | .error e => reply sys metrics (.brokerError 500 e)
      | .ok (_, txID) =>
          reply (sys.beginTransaction p.1 p.2 env.now env.createdAt) metrics
            ⟨200, .object [("tx_id", txID)]⟩

def handleTxProduce : Handled α :=
  onPost sys metrics req (lib.txProduce req.body) (fun p => p.txID ≠ "" ∧ p.topic ≠ "")
    "invalid tx produce payload"
    fun p => createTopic env sys metrics p.topic fun sys => ⟨sys, metrics, .staging p⟩

/-- The rest of `handleTxProduce`. -/
def finishTxProduce (p : TxProduceRequest) : Handled α :=
  match sys.world.broker.txProduce p.txID p.topic (Utf8.encode p.key) (Utf8.encode p.value)
      p.headers with
  | .error e => reply sys metrics (.brokerError 409 e)
  | .ok _ =>
      reply (sys.txProduce p.txID p.topic (Utf8.encode p.key) (Utf8.encode p.value) p.headers)
        metrics ⟨200, .object [("status", "buffered")]⟩

/-- The first section of `handleTxCommit`; the calls of `CommitTransaction` are known by the numbers
of their requests. -/
def handleTxCommit (id : ℕ) : Handled α :=
  onPost sys metrics req (lib.txID req.body) (fun txID => txID ≠ "") "invalid tx commit payload"
    fun txID =>
      match sys.world.broker.commitStart txID with
      | .error e => reply sys metrics (.brokerError 409 e)
      | .ok _ => ⟨(sys.commitStart id txID).getD sys, metrics, .committing txID⟩

/-- The next section of a call of `CommitTransaction`. -/
def nextCommit (id : ℕ) : Option Sys :=
  match sys.commits[id]? with
  | some c =>
      if c.phase = .producing then sys.commitProduce lib.json id env.produce
      else if c.committed < c.records.length then sys.commitCreate id env.fault
      else sys.commitFinish id
  | none => none

/-- What a handler does after a section of its `CommitTransaction`. -/
def afterCommit (id : ℕ) (txID : String) : Handled α :=
  match sys.commits[id]? with
  | some c =>
      match c.phase with
      | .done => reply sys metrics ⟨200, .committed c.committed⟩
      | .failed e => reply sys metrics (.brokerError 409 e)
      | _ => ⟨sys, metrics, .committing txID⟩
  | none => ⟨sys, metrics, .committing txID⟩

def handleTxAbort : Handled α :=
  onPost sys metrics req (lib.txID req.body) (fun txID => txID ≠ "") "invalid tx abort payload"
    fun txID =>
      match sys.world.broker.abortTransaction txID with
      | .error e => reply sys metrics (.brokerError 409 e)
      | .ok _ => reply (sys.abortTransaction txID) metrics ⟨200, .object [("status", "aborted")]⟩

def handleGraphQL : Handled α :=
  onPost sys metrics req (lib.graphQL req.body) (fun _ => true) "invalid graphql payload"
    fun query =>
      let q := (lib.toLower query).toList
      if "topics".toList <:+: q then
        reply sys metrics ⟨200, .graphQLTopics sys.world.broker.listTopics⟩
      else if "health".toList <:+: q then reply sys metrics ⟨200, .graphQLHealth⟩
      else reply sys metrics (.message 400 "unsupported graphql query")

def handleWindowClose : Handled α :=
  onPost sys metrics req (lib.latencyMS req.body) (fun ms => !lib.isNeg ms) "invalid payload"
    fun ms =>
      reply sys { metrics with
          windowCloseLatency := metrics.windowCloseLatency ++ [lib.seconds ms] }
        ⟨200, .object [("status", "observed")]⟩

/-- The next section of `promhttp`. -/
def scrape (traffic : Traffic) (samples : List (MetricKey × Bytes)) : Handled α :=
  match env.scrape with
  | .read key =>
      let sample := (key, lib.promhttp (key.value lib metrics traffic))
      ⟨sys, metrics, .scraping (samples ++ [sample])⟩
  | .finish others => reply sys metrics ⟨200, .metrics samples others⟩
  | .fail text => reply sys metrics ⟨500, .text text⟩

/-- The first section of what the mux finds. -/
def serve (id : ℕ) : Matched → Handled α
  | .notFound => reply sys metrics (.message 404 "404 page not found")
  | .redirect location => reply sys metrics ⟨301, .redirect location⟩
  | .handler .metrics => ⟨sys, metrics, .scraping []⟩
  | .handler .health => handleHealth sys metrics
  | .handler .topics => handleTopics lib env sys metrics req
  | .handler .produce => handleProduce lib env sys metrics req
  | .handler .produceIdempotent => handleProduceIdempotent lib env sys metrics req
  | .handler .consume => handleConsume lib sys metrics req
  | .handler .commitOffset => handleCommitOffset lib env sys metrics req
  | .handler .offset => handleOffset sys metrics req
  | .handler .drain => handleDrain lib env sys metrics req
  | .handler .txBegin => handleTxBegin lib env sys metrics req
  | .handler .txProduce => handleTxProduce lib env sys metrics req
  | .handler .txCommit => handleTxCommit lib sys metrics req id
  | .handler .txAbort => handleTxAbort lib sys metrics req
  | .handler .graphQL => handleGraphQL lib sys metrics req
  | .handler .windowClose => handleWindowClose lib sys metrics req

end Handlers

/-- `withAuth`: the request passes to the handlers. -/
def authorized (apiKey : String) (req : Request) : Bool :=
  GoStrings.trimSpace apiKey.toList = [] || req.path = "/health" || req.path = "/metrics" ||
    req.apiKey = apiKey

/-- The next section of a handler; `none` if it is done. -/
def resume {α : Type} (lib : Library α) (apiKey : String) (env : Outside) (sys : Sys)
    (metrics : Metrics α) (traffic : Traffic) (id : ℕ) (req : Request) :
    Stage → Option (Handled α)
  | .arrived =>
      if authorized apiKey req then some (serve lib env sys metrics req id (route lib req))
      else some (reply sys metrics (.message 401 "unauthorized"))
  | .scraping samples => some (scrape lib env sys metrics traffic samples)
  | .producing p => some (finishProduce lib env sys metrics p)
  | .checking p =>
      (sys.idemCheck id p.args).map fun sys => afterIdempotent sys metrics id p.topic
  | .idempotent topic =>
      (nextIdempotent lib env sys id).map fun sys => afterIdempotent sys metrics id topic
  | .staging p => some (finishTxProduce sys metrics p)
  | .committing txID =>
      (nextCommit lib env sys id).map fun sys => afterCommit sys metrics id txID
  | .measuring c => some (finishCommitOffset lib sys metrics c)
  | .answered _ => none

/-! ### The server -/

/-- An answer, with the number of its request. -/
structure Answer where
  id : ℕ
  req : Request
  resp : Response

/-- The server with all requests that have arrived, and a history of the answers in their order. -/
structure Server (α : Type) where
  sys : Sys
  apiKey : String
  metrics : Metrics α
  traffic : Traffic
  requests : OrdMap ℕ (Request × Stage)
  answers : List Answer

/-- What `withMetrics` records. -/
inductive Recorded where
  | total
  | duration (elapsed : ℤ)

inductive Event where
  | arrive (id : ℕ) (req : Request)
  | advance (id : ℕ) (env : Outside)
  | record (id : ℕ) (what : Recorded)

def Event.id : Event → ℕ
  | arrive id _ => id
  | advance id _ => id
  | record id _ => id

/-- `withMetrics` after the handler: the request is counted, and then its time is observed. -/
def Traffic.record (t : Traffic) (answers : List Answer) (id : ℕ) : Recorded → Option Traffic
  | .total =>
      if t.counted.any fun c => c.id = id then none
      else (answers.find? fun a => a.id = id).map fun a =>
        { t with counted := t.counted ++ [⟨id, a.req.method, a.req.path, a.resp.status⟩] }
  | .duration elapsed =>
      if t.timed.any fun c => c.id = id then none
      else (t.counted.find? fun c => c.id = id).map fun c =>
        { t with timed := t.timed ++ [⟨id, c.method, c.path, elapsed⟩] }

theorem Traffic.record_total_eq_some_iff {t t' : Traffic} {answers : List Answer} {id : ℕ} :
    t.record answers id .total = some t' ↔
      (t.counted.any fun c => c.id = id) = false ∧
        ∃ a, answers.find? (fun a => a.id = id) = some a ∧
          t' = { t with
            counted := t.counted ++ [⟨id, a.req.method, a.req.path, a.resp.status⟩] } := by
  rw [record]
  split
  · next h => simp [h]
  · next h =>
      rw [Option.map_eq_some_iff, and_iff_right (Bool.eq_false_iff.mpr h)]
      exact exists_congr fun a => and_congr_right fun _ => eq_comm

theorem Traffic.record_duration_eq_some_iff {t t' : Traffic} {answers : List Answer} {id : ℕ}
    {elapsed : ℤ} :
    t.record answers id (.duration elapsed) = some t' ↔
      (t.timed.any fun c => c.id = id) = false ∧
        ∃ c, t.counted.find? (fun c => c.id = id) = some c ∧
          t' = { t with timed := t.timed ++ [⟨id, c.method, c.path, elapsed⟩] } := by
  rw [record]
  split
  · next h => simp [h]
  · next h =>
      rw [Option.map_eq_some_iff, and_iff_right (Bool.eq_false_iff.mpr h)]
      exact exists_congr fun c => and_congr_right fun _ => eq_comm

namespace Server

variable {α : Type}

/-- `NewServerWithAPIKey` on a broker; no metric has been touched. -/
def start (apiKey : String) (w : World) : Server α :=
  { sys := .init w
    apiKey := apiKey
    metrics := ⟨fun _ => 0, fun _ => none, []⟩
    traffic := ⟨[], []⟩
    requests := ∅
    answers := [] }

/-- The answer of a section, if it is the last one of its request. -/
def newAnswers (id : ℕ) (req : Request) : Stage → List Answer
  | .answered resp => [⟨id, req, resp⟩]
  | _ => []

/-- The server after a section of a request. -/
def put (s : Server α) (id : ℕ) (req : Request) (h : Handled α) : Server α :=
  { s with
    sys := h.sys
    metrics := h.metrics
    requests := s.requests.insert id (req, h.stage)
    answers := s.answers ++ newAnswers id req h.stage }

/-- A request arrives, the handler of one makes its next section, or `withMetrics` records one. -/
def step (lib : Library α) (s : Server α) : Event → Option (Server α)
  | .arrive id req =>
      if (s.requests[id]?).isSome then none
      else some { s with requests := s.requests.insert id (req, .arrived) }
  | .advance id env =>
      match s.requests[id]? with
      | some (req, stage) =>
          (resume lib s.apiKey env s.sys s.metrics s.traffic id req stage).map (s.put id req)
      | none => none
  | .record id what =>
      (s.traffic.record s.answers id what).map fun traffic => { s with traffic := traffic }

variable {lib : Library α} {s s' : Server α} {id : ℕ}

theorem step_arrive_cases {req : Request} (h : s.step lib (.arrive id req) = some s') :
    s.requests[id]? = none ∧ s' = { s with requests := s.requests.insert id (req, .arrived) } := by
  rw [step] at h
  split at h
  · cases h
  · next hnone => exact ⟨by simpa using hnone, (Option.some.inj h).symm⟩

theorem step_advance_cases {env : Outside} (h : s.step lib (.advance id env) = some s') :
    ∃ req stage hd, s.requests[id]? = some (req, stage) ∧
      resume lib s.apiKey env s.sys s.metrics s.traffic id req stage = some hd ∧
      s' = s.put id req hd := by
  rw [step] at h
  split at h
  · next req stage hreq =>
      obtain ⟨hd, hresume, rfl⟩ := Option.map_eq_some_iff.mp h
      exact ⟨req, stage, hd, hreq, hresume, rfl⟩
  · cases h

theorem step_record_cases {what : Recorded} (h : s.step lib (.record id what) = some s') :
    ∃ traffic, s.traffic.record s.answers id what = some traffic ∧
      s' = { s with traffic := traffic } := by
  obtain ⟨traffic, hrecord, rfl⟩ := Option.map_eq_some_iff.mp h
  exact ⟨traffic, hrecord, rfl⟩

end Server

/-! ### What a section does -/

section Cases

variable {α β : Type} {lib : Library α} {env : Outside} {sys : Sys} {metrics : Metrics α}
  {req : Request}

theorem onPost_cases (decoded : Option β) (complete : β → Bool) (message : String)
    (next : β → Handled α) :
    (∃ text, onPost sys metrics req decoded complete message next =
      reply sys metrics (.message 405 text)) ∨
    (∃ text, onPost sys metrics req decoded complete message next =
      reply sys metrics (.message 400 text)) ∨
    ∃ x, decoded = some x ∧ complete x = true ∧
      onPost sys metrics req decoded complete message next = next x := by
  unfold onPost
  by_cases hmethod : req.method ≠ .post
  · exact .inl ⟨_, if_pos hmethod⟩
  · rw [if_neg hmethod]
    cases decoded with
    | none => exact .inr (.inl ⟨_, rfl⟩)
    | some x =>
        cases hx : complete x with
        | false => exact .inr (.inl ⟨message, by simp [hx]⟩)
        | true => exact .inr (.inr ⟨x, rfl, hx, by simp [hx]⟩)

theorem createTopic_cases (name : String) (next : Sys → Handled α) :
    (∃ e, createTopic env sys metrics name next =
      reply (sys.createTopic env.fault name).1 metrics (.brokerError 500 e)) ∨
    createTopic env sys metrics name next = next (sys.createTopic env.fault name).1 := by
  unfold createTopic
  split
  · next sys' e heq => exact .inl ⟨e, by rw [heq]⟩
  · next sys' topic heq => exact .inr (by rw [heq])

end Cases

/-! ### Requests that are handled alone -/

section Alone

variable {α : Type} (lib : Library α) (env : Outside) (sys : Sys) (metrics : Metrics α)
  (req : Request)

/-- Both sections of a request to `/produce`, one right after the other. -/
def produceAlone : Handled α :=
  let hd := handleProduce lib env sys metrics req
  match hd.stage with
  | .producing p => finishProduce lib env hd.sys hd.metrics p
  | _ => hd

/-- If no other request comes between its sections, `handleProduce` is `World.handleProduce`. -/
theorem produceAlone_eq :
    (produceAlone lib env sys metrics req).sys.world =
        (sys.world.handleProduce lib.json env.fault env.produce req.method
          (lib.produce req.body)).1 ∧
      (produceAlone lib env sys metrics req).stage = .answered
        (match (sys.world.handleProduce lib.json env.fault env.produce req.method
            (lib.produce req.body)).2 with
        | .error e => ⟨e.status, .error e.body⟩
        | .ok rec => ⟨200, .record rec⟩) := by
  unfold produceAlone handleProduce onPost World.handleProduce
  by_cases hmethod : req.method ≠ .post
  · rw [if_pos hmethod, if_pos hmethod]
    exact ⟨rfl, rfl⟩
  rw [if_neg hmethod, if_neg hmethod]
  cases lib.produce req.body with
  | none => exact ⟨rfl, rfl⟩
  | some p =>
      by_cases htopic : p.topic = ""
      · simp [htopic, reply, Response.message]
      simp only [htopic, ne_eq, not_false_eq_true, decide_true, if_true, if_false]
      unfold createTopic Sys.createTopic
      rcases sys.world.createTopic env.fault p.topic with ⟨w, e | topic⟩
      · exact ⟨rfl, rfl⟩
      dsimp only
      unfold finishProduce Sys.produce
      rcases w.produce lib.json env.produce p.topic (Utf8.encode p.key) (Utf8.encode p.value)
        p.headers with ⟨w', e | rec⟩
      · exact ⟨rfl, rfl⟩
      · exact ⟨rfl, rfl⟩

/-- Both sections of a request to `/offset/commit`, one right after the other. -/
def commitAlone : Handled α :=
  let hd := handleCommitOffset lib env sys metrics req
  match hd.stage with
  | .measuring c => finishCommitOffset lib hd.sys hd.metrics c
  | _ => hd

/-- If no other request comes between its sections, `handleCommitOffset` is
`World.handleCommitOffset`. -/
theorem commitAlone_eq :
    (commitAlone lib env sys metrics req).sys.world =
        (sys.world.handleCommitOffset lib.json lib.float64 env.commit metrics.consumerLag
          req.method (lib.commitOffset req.body)).1 ∧
      (commitAlone lib env sys metrics req).metrics.consumerLag =
        (sys.world.handleCommitOffset lib.json lib.float64 env.commit metrics.consumerLag
          req.method (lib.commitOffset req.body)).2.1 ∧
      (commitAlone lib env sys metrics req).stage = .answered
        (match (sys.world.handleCommitOffset lib.json lib.float64 env.commit metrics.consumerLag
            req.method (lib.commitOffset req.body)).2.2 with
        | .error ⟨status, .inl text⟩ => .message status text
        | .error ⟨status, .inr e⟩ => ⟨status, .offsetError e⟩
        | .ok members => ⟨200, .object members⟩) := by
  unfold commitAlone handleCommitOffset onPost World.handleCommitOffset
  by_cases hmethod : req.method ≠ .post
  · rw [if_pos hmethod, if_pos hmethod]
    exact ⟨rfl, rfl, rfl⟩
  rw [if_neg hmethod, if_neg hmethod]
  cases lib.commitOffset req.body with
  | none => exact ⟨rfl, rfl, rfl⟩
  | some c =>
      by_cases hempty : c.topic = "" ∨ c.group = ""
      · have hincomplete : ¬ (c.topic ≠ "" ∧ c.group ≠ "") := by tauto
        simp [hempty, hincomplete, reply, Response.message]
      · have hcomplete : c.topic ≠ "" ∧ c.group ≠ "" := by tauto
        simp only [decide_eq_true hcomplete, if_true, if_neg hempty]
        rcases sys.world.commitOffset env.commit.mkdirOk env.commit.outcome c.topic c.group
          c.offset with ⟨w, e | u⟩
        · exact ⟨rfl, rfl, rfl⟩
        · exact ⟨rfl, rfl, rfl⟩

end Alone

/-! ### A sample -/

/-- Decoders that know a few requests: an empty body is about the transaction `p-1-0`, any other
about `p-1-1`. -/
def sampleLibrary : Library ℤ where
  json := sampleJson
  topic _ := some "t"
  produce body := if body = [] then none else some ⟨"t", "k", "v", ∅⟩
  idempotent _ := none
  commitOffset _ := none
  durationSeconds _ := none
  txBegin _ := some ("p", 1)
  txProduce body := some ⟨⟨"t", "k", "v", ∅⟩, if body = [] then "p-1-0" else "p-1-1"⟩
  txID body := some (if body = [] then "p-1-0" else "p-1-1")
  graphQL _ := none
  latencyMS _ := none
  mux routes req := (routes.lookup req.path).elim .notFound .handler
  promhttp
    | .counter n => [UInt8.ofNat n]
    | _ => []
  toLower := id
  float64 := id
  isNeg ms := ms < 0
  seconds := id
  elapsed := id

def samplePost (path : String) (body : Bytes) : Request := ⟨.post, path, fun _ => [], "", body⟩

/-- All file operations succeed. -/
def sampleOutside (now : Time) : Outside :=
  ⟨now, now, none, ⟨now, 0, .ok⟩, ⟨true, .done⟩, .finish []⟩

end StreamFlow.Management
