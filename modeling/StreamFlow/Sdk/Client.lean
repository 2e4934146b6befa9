import StreamFlow.Broker.Represents
import StreamFlow.Broker.Sample
import StreamFlow.Foundation.Run
import StreamFlow.Management.Api

/-!
# The SDK client

`Client.Produce` and `Client.Consume` of `sdk/client.go` against the handlers of the
management API. `Produce` sends the value as a JSON string, `Consume` reads back the
field `value` of the records as a string, but the server writes it as a byte slice, in
base64. So a value is delivered as the base64 text of its bytes, and only the empty
value is its own base64 text.
-/

namespace StreamFlow

open BigEndian Run

/-- Decoding an encoded record gives a record of the same value. -/
def RecordJson.KeepsValue (json : RecordJson) : Prop :=
  ∃ f, json.Decodes f ∧ ∀ r, (f r).value = r.value

theorem RecordJson.Faithful.keepsValue {json : RecordJson} (h : json.Faithful) : json.KeepsValue :=
  ⟨id, h, fun _ => rfl⟩

/-- The JSON values that a byte slice is encoded as. -/
inductive JsonString where
  | null
  | str (s : String)
deriving DecidableEq, Repr

/-- `json.Marshal` of a byte slice. `Produce` stores an empty value as nil. -/
def JsonString.marshalBytes (b : Bytes) : JsonString :=
  if b = [] then .null else .str (String.ofList (Base64.encode b))

/-- `json.Unmarshal` into a string; `null` leaves it empty. -/
def JsonString.unmarshalString : JsonString → String
  | .null => ""
  | .str s => s

/-- `json.Marshal` of a map of strings. -/
def marshalStrings (payload : List (String × Bytes)) : List (String × String) :=
  payload.map fun member => (member.1, Utf8.sanitize member.2)

namespace Client

def produce (json : RecordJson) (fault : Option CreateFault) (env : ProduceEnv) (w : World)
    (topic key value : Bytes) : World × Option HttpError :=
  let payload := [("topic", topic), ("key", key), ("value", value)]
  match w.handleProduce json fault env .post (some (.unmarshal (marshalStrings payload))) with
  | (w, .error e) => (w, some e)
  | (w, .ok _) => (w, none)

/-- The field `value` of the records that the server returns. -/
def getRecords (json : RecordJson) (w : World) (topic : Bytes) :
    Except HttpError (List String) :=
  (w.handleConsume json .get ⟨topic, Utf8.encode "0", Utf8.encode "100"⟩).map fun records =>
    records.map fun r => (JsonString.marshalBytes r.value).unmarshalString

/-- What the channel of `Consume` delivers until it is closed. -/
def consume (json : RecordJson) (w : World) (topic : Bytes) : List Bytes :=
  match getRecords json w topic with
  | .error _ => []
  | .ok values => values.map Utf8.encode

/-- A call of `Produce`: what it sends, and how the file operations of the server end. -/
structure Send where
  fault : Option CreateFault
  env : ProduceEnv
  key : Bytes
  value : Bytes

/-- A call of `Produce` that returns nil. -/
def send (json : RecordJson) (topic : Bytes) (w : World) (call : Send) : Option World :=
  match produce json call.fault call.env w topic call.key call.value with
  | (w, none) => some w
  | (_, some _) => none

/-- The bytes that are stored for a value. -/
def stored (value : Bytes) : Bytes := Utf8.encode (Utf8.sanitize value)

/-- The bytes that are delivered for a stored value. -/
def delivered (value : Bytes) : Bytes :=
  Utf8.encode (JsonString.marshalBytes value).unmarshalString

/-- Base64 makes bytes longer. -/
theorem length_lt_delivered {value : Bytes} (h : value ≠ []) :
    value.length < (delivered value).length := by
  have hletters := Utf8.length_le_encode (String.ofList (Base64.encode value))
  rw [String.toList_ofList, Base64.length_encode] at hletters
  have hpos := List.length_pos_iff.mpr h
  rw [delivered, JsonString.marshalBytes, if_neg h, JsonString.unmarshalString]
  omega

theorem delivered_stored_eq_self_iff (value : Bytes) :
    delivered (stored value) = value ↔ value = [] := by
  constructor
  · intro h
    by_contra hne
    have hstored := Utf8.length_le_encode_sanitize value
    have hpos := List.length_pos_iff.mpr hne
    have hlong : (stored value).length < (delivered (stored value)).length := by
      refine length_lt_delivered fun hnil => ?_
      rw [← stored, hnil, List.length_nil] at hstored
      omega
    rw [h, stored] at hlong
    omega
  · rintro rfl
    rfl

/-- The broker has one topic at most, and the records of this topic carry the values. -/
structure Holds (json : RecordJson) (w : World) (name : String) (values : List Bytes) : Prop where
  serves : ∃ logs, w.Serves json logs ∧ (logs name).map Record.value = values
  only : ∀ name' topic, w.broker.topics[name']? = some topic → name' = name
  known : values ≠ [] → (w.broker.topics[name]?).isSome

variable {json : RecordJson} {w w' : World} {name : String} {values : List Bytes}

theorem Holds.start (name : String) {fs : FileTree} {dir : SlashPath}
    (hfs : ∀ name, ∀ p ∈ Segment.files ((Broker.fresh dir).segmentDir name), fs p = none) :
    Holds json ⟨fs, .fresh dir⟩ name [] where
  serves := ⟨_, World.Serves.start rfl hfs, rfl⟩
  only name' topic ht := by cases ht
  known h := absurd rfl h

/-- The topic of the name is the only one that is ever added. -/
theorem Holds.insert (h : Holds json w name values) {topic : Topic}
    (hb : w'.broker = { w.broker with topics := w.broker.topics.insert name topic })
    {logs : String → List Record} (hserves : w'.Serves json logs) {values' : List Bytes}
    (hvalues : (logs name).map Record.value = values') : Holds json w' name values' := by
  refine ⟨⟨logs, hserves, hvalues⟩, fun name' t ht => ?_, fun _ => ?_⟩
  · rw [hb] at ht
    rcases OrdMap.getElem?_insert_cases ht with ⟨heq, -⟩ | ⟨-, ht⟩
    · exact heq.symm
    · exact h.only name' t ht
  · rw [hb, OrdMap.getElem?_insert_self']
    rfl

theorem Holds.createTopic (h : Holds json w name values) {fault : Option CreateFault}
    {topic : Topic} (hc : w.createTopic fault name = (w', .ok topic)) :
    Holds json w' name values := by
  obtain ⟨logs, hserves, hvalues⟩ := h.serves
  obtain ⟨hserves', hb⟩ := hserves.createTopic (fun name' t ht _ => h.only name' t ht) hc
  rcases hb with hb | ⟨t, -, -, hb⟩
  · refine ⟨⟨logs, hserves', hvalues⟩, ?_, ?_⟩
    · rw [hb]
      exact h.only
    · rw [hb]
      exact h.known
  · exact h.insert hb hserves' hvalues

theorem Holds.produce (h : Holds json w name values) {env : ProduceEnv} {key value : Bytes}
    {headers : OrdMap String String} {record : Record}
    (hp : w.produce json env name key value headers = (w', .ok record)) :
    Holds json w' name (values ++ [value]) := by
  obtain ⟨logs, hserves, hvalues⟩ := h.serves
  rcases hserves.produce hp with ⟨-, ⟨e, he⟩, -⟩ | ⟨t, t', ht, -, hb, hserves', -⟩
  · cases he
  · refine h.insert hb hserves' ?_
    rw [Function.update_self, List.map_append, hvalues]
    rfl

theorem Holds.send {topic : Bytes} (h : Holds json w (Utf8.sanitize topic) values) {call : Send}
    (hsend : send json topic w call = some w') :
    topic ≠ [] ∧ Holds json w' (Utf8.sanitize topic) (values ++ [stored call.value]) := by
  unfold Client.send Client.produce at hsend
  dsimp only at hsend
  split at hsend
  · next w₁ hcall =>
      obtain rfl := Option.some.inj hsend
      split at hcall
      · cases (Prod.mk.inj hcall).2
      · next w₂ record hhandle =>
          obtain ⟨rfl, -⟩ := Prod.mk.inj hcall
          obtain ⟨htopic, w₃, t, hcreate, hproduce⟩ := World.handleProduce_eq_ok hhandle
          refine ⟨?_, (h.createTopic hcreate).produce hproduce⟩
          rintro rfl
          exact htopic rfl
  · cases hsend

theorem Holds.run {topic : Bytes} {calls : List Send}
    (h : Holds json w (Utf8.sanitize topic) values)
    (hrun : exec (Client.send json topic) w calls = some w') :
    Holds json w' (Utf8.sanitize topic) (values ++ calls.map fun call => stored call.value) ∧
      (calls ≠ [] → topic ≠ []) := by
  induction calls generalizing w values with
  | nil =>
      obtain rfl := Option.some.inj hrun
      rw [List.map_nil, List.append_nil]
      exact ⟨h, fun hne => absurd rfl hne⟩
  | cons call calls ih =>
      obtain ⟨w₁, hsend, hrest⟩ := exec_cons_eq_some_iff.mp hrun
      obtain ⟨htopic, h₁⟩ := h.send hsend
      have hrun' := (ih h₁ hrest).1
      rw [List.append_assoc] at hrun'
      exact ⟨hrun', fun _ => htopic⟩

/-- The query of `getRecords` asks for the first hundred records. -/
theorem handleConsume_query (json : RecordJson) (w : World) {topic : Bytes} (h : topic ≠ []) :
    w.handleConsume json .get ⟨topic, Utf8.encode "0", Utf8.encode "100"⟩ =
      match Utf8.text? topic with
      | none => .error ⟨404, .topicNotFound topic⟩
      | some name => (w.consume json name 0 100).mapError fun e => ⟨404, .broker e⟩ := by
  have hoffset : (if Utf8.encode "0" = [] then some 0 else Decimal.parseInt? (Utf8.encode "0")) =
      some 0 := by decide +kernel
  have hmax : (if Utf8.encode "100" = [] then some 100
      else (Decimal.parseInt? (Utf8.encode "100")).filter fun n => decide (0 < n)) =
      some 100 := by decide +kernel
  unfold World.handleConsume
  rw [if_neg (by decide), if_neg h]
  cases Utf8.text? topic with
  | none => simp only [hoffset, hmax]
  | some name => simp only [hoffset, hmax]

theorem consume_of_text?_eq_none (json : RecordJson) (w : World) {topic : Bytes}
    (h : Utf8.text? topic = none) : Client.consume json w topic = [] := by
  have hne : topic ≠ [] := by
    rintro rfl
    cases h
  rw [Client.consume, getRecords, handleConsume_query json w hne, h]
  rfl

/-- A client reads the first hundred values, each in base64. -/
theorem Holds.consume (h : Holds json w name values) (hjson : json.KeepsValue) {topic : Bytes}
    (htext : Utf8.text? topic = some name) (hne : values ≠ [] → topic ≠ []) :
    Client.consume json w topic = (values.take 100).map delivered := by
  obtain ⟨f, hf, hvalue⟩ := hjson
  obtain ⟨logs, hserves, hvalues⟩ := h.serves
  by_cases htopic : topic = []
  · have hempty : values = [] := by
      by_contra hc
      exact hne hc htopic
    rw [htopic, hempty]
    rfl
  · rw [Client.consume, getRecords, handleConsume_query json w htopic, htext]
    dsimp only
    cases ht : w.broker.topics[name]? with
    | none =>
        have hempty : values = [] := by
          by_contra hc
          have hsome := h.known hc
          rw [ht] at hsome
          cases hsome
        rw [World.consume, ht, hempty]
        rfl
    | some t =>
        have hread : ((((logs name).map f).drop (0 : ℤ).toNat).take
            (Segment.effectiveMax 100).toNat).map Record.value = values.take 100 := by
          rw [Int.toNat_zero, List.drop_zero, List.map_take, List.map_map, ← hvalues]
          exact congrArg (List.take 100) (List.map_congr_left fun r _ => hvalue r)
        rw [hserves.consume_eq hf ht, ← hread, List.map_map]
        exact List.map_map

theorem map_take_eq_map_iff {α β : Type*} (f g : α → β) (l : List α) (n : ℕ) :
    (l.map f).take n = l.map g ↔ l.length ≤ n ∧ ∀ a ∈ l, f a = g a := by
  constructor
  · intro h
    have hlen := congrArg List.length h
    rw [List.length_take, List.length_map, List.length_map] at hlen
    rw [List.take_of_length_le (by rw [List.length_map]; omega)] at h
    exact ⟨by omega, fun a ha => List.map_inj_left.mp h a ha⟩
  · rintro ⟨hlen, h⟩
    rw [List.take_of_length_le (by rwa [List.length_map])]
    exact List.map_inj_left.mpr h

end Client

/-- What is sent to a topic is delivered unchanged only if all that is sent are empty
values, a hundred at most, and the name of the topic is a text. -/
theorem client_roundTrip_iff (json : RecordJson) (hjson : json.KeepsValue) (fs : FileTree)
    (dir : SlashPath)
    (hfs : ∀ name, ∀ p ∈ Segment.files ((Broker.fresh dir).segmentDir name), fs p = none)
    (topic : Bytes) {calls : List Client.Send} {w : World}
    (hrun : exec (Client.send json topic) ⟨fs, .fresh dir⟩ calls = some w) :
    Client.consume json w topic = calls.map Client.Send.value ↔
      (∀ call ∈ calls, call.value = []) ∧ calls.length ≤ 100 ∧
        (calls = [] ∨ ∃ name, Utf8.encode name = topic) := by
  obtain ⟨hholds, hne⟩ := (Client.Holds.start (Utf8.sanitize topic) hfs).run hrun
  rw [List.nil_append] at hholds
  cases htext : Utf8.text? topic with
  | none =>
      have hnot : ¬ ∃ name, Utf8.encode name = topic := by
        rintro ⟨name, hname⟩
        rw [Utf8.text?_eq_some_iff.mpr hname] at htext
        cases htext
      rw [Client.consume_of_text?_eq_none json w htext, eq_comm, List.map_eq_nil_iff]
      constructor
      · rintro rfl
        exact ⟨fun call hcall => absurd hcall List.not_mem_nil, Nat.zero_le _, .inl rfl⟩
      · rintro ⟨-, -, hcalls⟩
        exact hcalls.resolve_right hnot
  | some name =>
      have hname := Utf8.text?_eq_some_iff.mp htext
      have hsanitize : Utf8.sanitize topic = name := by
        rw [← hname, Utf8.sanitize_encode]
      rw [hsanitize] at hholds
      have htopic : calls.map (fun call => Client.stored call.value) ≠ [] → topic ≠ [] := by
        intro hvalues
        exact hne fun hcalls => hvalues (by rw [hcalls]; rfl)
      rw [hholds.consume hjson htext htopic, List.map_take, List.map_map,
        Client.map_take_eq_map_iff]
      simp only [Function.comp_apply, Client.delivered_stored_eq_self_iff]
      constructor
      · rintro ⟨hlen, hempty⟩
        exact ⟨hempty, hlen, .inr ⟨name, hname⟩⟩
      · rintro ⟨hempty, hlen, -⟩
        exact ⟨hlen, hempty⟩

/-- A call with the key `k` whose file operations succeed, at the Unix epoch. -/
def Client.Send.sample (value : Bytes) : Client.Send := ⟨none, ⟨0, 0, .ok⟩, asciiBytes "k", value⟩

/-- The text of `json.Marshal` for a record without a value. -/
def emptyValueJson : RecordJson :=
  .ofTable [({ sampleRecord 0 with value := [] }, asciiBytes
    "\x7b\"key\":\"aw==\",\"value\":null,\"timestamp\":\"1970-01-01T00:00:00Z\",\"offset\":0\x7d")]

theorem client_roundTrip_sample :
    ∃ w, exec (Client.send emptyValueJson (asciiBytes "t")) ⟨fun _ => none, .fresh ⟨true, ["d"]⟩⟩
        [.sample []] = some w ∧
      Client.consume emptyValueJson w (asciiBytes "t") = [[]] := by
  have hjson : emptyValueJson.Faithful :=
    fun _ _ hb => CodecTable.decode_of_encode (by decide +kernel) hb
  obtain ⟨w, hrun, -⟩ : ∃ w, exec (Client.send emptyValueJson (asciiBytes "t"))
        ⟨fun _ => none, .fresh ⟨true, ["d"]⟩⟩ [.sample []] = some w ∧ True :=
    exists_exec_of_any (by decide +kernel)
  refine ⟨w, hrun, (client_roundTrip_iff emptyValueJson hjson.keepsValue (fun _ => none)
    ⟨true, ["d"]⟩ (fun _ _ _ => rfl) (asciiBytes "t") hrun).mpr ⟨?_, by decide, .inr ⟨"t", ?_⟩⟩⟩
  · simp [Client.Send.sample]
  · decide +kernel

/-- The value `v` is delivered as `dg==`. -/
theorem client_roundTrip_base64 :
    ∃ w, exec (Client.send sampleJson (asciiBytes "t")) ⟨fun _ => none, .fresh ⟨true, ["d"]⟩⟩
        [.sample (asciiBytes "v")] = some w ∧
      Client.consume sampleJson w (asciiBytes "t") = [asciiBytes "dg=="] ∧
      Client.consume sampleJson w (asciiBytes "t") ≠ [asciiBytes "v"] :=
  exists_exec_of_any (by decide +kernel)

end StreamFlow
