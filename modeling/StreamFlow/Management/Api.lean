import StreamFlow.Broker.Success
import StreamFlow.Foundation.Text

/-!
# The handlers of the management API

`handleProduce` and `handleConsume` of `management/api/server.go`, for a server without
an API key. The body of a request is a JSON object and its strings are texts; the
parameters of a query are bytes, since a query is escaped byte by byte. The topics of a
broker have texts as names, so a query whose topic encodes no text names none of them.
-/

namespace StreamFlow

open BigEndian

inductive Method where
  | get
  | post
  | other (name : String)
deriving DecidableEq, Repr

/-- What `http.Error` writes: a fixed message, the text of an error of the broker, or
that of `Consume` for a topic whose name is not a text. -/
inductive ErrorBody where
  | message (text : String)
  | broker (e : BrokerError)
  | topicNotFound (topic : Bytes)
deriving DecidableEq, Repr

structure HttpError where
  status : ℕ
  body : ErrorBody
deriving DecidableEq, Repr

/-- The fields that `handleProduce` decodes. -/
structure ProduceRequest where
  topic : String
  key : String
  value : String
  headers : OrdMap String String

/-- Fields that are absent keep their zero values. -/
def ProduceRequest.unmarshal (members : List (String × String)) : ProduceRequest :=
  { topic := (members.lookup "topic").getD ""
    key := (members.lookup "key").getD ""
    value := (members.lookup "value").getD ""
    headers := ∅ }

structure ConsumeQuery where
  topic : Bytes
  offset : Bytes
  max : Bytes

namespace World

/-- `handleProduce`; a body that is not decoded is `none`. -/
def handleProduce (json : RecordJson) (fault : Option CreateFault) (env : ProduceEnv) (w : World)
    (method : Method) (body : Option ProduceRequest) : World × Except HttpError Record :=
  if method ≠ .post then (w, .error ⟨405, .message "method not allowed"⟩)
  else
    match body with
    | none => (w, .error ⟨400, .message "invalid produce payload"⟩)
    | some req =>
        if req.topic = "" then (w, .error ⟨400, .message "invalid produce payload"⟩)
        else
          match w.createTopic fault req.topic with
          | (w, .error e) => (w, .error ⟨500, .broker e⟩)
          | (w, .ok _) =>
              match w.produce json env req.topic (Utf8.encode req.key) (Utf8.encode req.value)
                  req.headers with
              | (w, .error e) => (w, .error ⟨if e = .draining then 409 else 500, .broker e⟩)
              | (w, .ok record) => (w, .ok record)

def handleConsume (json : RecordJson) (w : World) (method : Method) (query : ConsumeQuery) :
    Except HttpError (List Record) :=
  if method ≠ .get then .error ⟨405, .message "method not allowed"⟩
  else if query.topic = [] then .error ⟨400, .message "topic is required"⟩
  else
    match if query.offset = [] then some 0 else Decimal.parseInt? query.offset with
    | none => .error ⟨400, .message "invalid offset"⟩
    | some offset =>
        match if query.max = [] then some 100
            else (Decimal.parseInt? query.max).filter fun n => decide (0 < n) with
        | none => .error ⟨400, .message "invalid max"⟩
        | some max =>
            match Utf8.text? query.topic with
            | none => .error ⟨404, .topicNotFound query.topic⟩
            | some name => (w.consume json name offset max).mapError fun e => ⟨404, .broker e⟩

/-- A request of `handleProduce` that succeeds has created its topic and appended its
record. -/
theorem handleProduce_eq_ok {json : RecordJson} {fault : Option CreateFault} {env : ProduceEnv}
    {w w' : World} {method : Method} {req : ProduceRequest} {record : Record}
    (h : w.handleProduce json fault env method (some req) = (w', .ok record)) :
    req.topic ≠ "" ∧ ∃ w₁ topic, w.createTopic fault req.topic = (w₁, .ok topic) ∧
      w₁.produce json env req.topic (Utf8.encode req.key) (Utf8.encode req.value) req.headers =
        (w', .ok record) := by
  unfold handleProduce at h
  split at h
  · cases (Prod.mk.inj h).2
  · dsimp only at h
    split at h
    · cases (Prod.mk.inj h).2
    · next htopic =>
        refine ⟨htopic, ?_⟩
        split at h
        · cases (Prod.mk.inj h).2
        · next w₁ topic hcreate =>
            refine ⟨w₁, topic, hcreate, ?_⟩
            split at h
            · cases (Prod.mk.inj h).2
            · next w₂ record' hproduce =>
                obtain ⟨rfl, hrecord⟩ := Prod.mk.inj h
                rw [hproduce, Except.ok.inj hrecord]

end World

end StreamFlow
