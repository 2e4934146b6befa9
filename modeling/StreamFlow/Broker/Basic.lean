import StreamFlow.Broker.Segment.Basic

/-!
# The broker

The operations of `broker/broker.go` on topics. Each takes the readings of the
clock and the outcomes of the file operations it makes, and returns the files and
the broker after the call together with its result.
-/

namespace StreamFlow

open BigEndian ByteFile

/-- The zero value of `time.Time`, the first instant of the year 1. -/
def zeroTime : Time := -62135596800000000000

/-- A broker without topics, producers or transactions. -/
def Broker.fresh (dir : SlashPath) : Broker :=
  { dir := dir
    topics := ∅
    drainingTill := zeroTime
    producerSeq := ∅
    dedupCache := ∅
    txState := ∅
    transactions := [] }

/-- `NewBroker`; the flag tells whether the directory could be created. -/
def newBroker (mkdirOk : Bool) (dir : SlashPath) : Except BrokerError Broker :=
  if mkdirOk then .ok (.fresh dir) else .error .createBrokerDir

theorem eq_fresh_of_newBroker {mkdirOk : Bool} {dir : SlashPath} {b : Broker}
    (h : newBroker mkdirOk dir = .ok b) : b = .fresh dir := by
  cases mkdirOk with
  | false => cases h
  | true => exact (Except.ok.inj h).symm

/-- The file operation of `CreateTopic` that fails, if any. -/
inductive CreateFault where
  | topicDir
  | segment (fault : OpenFault)
deriving DecidableEq, Repr

def CreateFault.openFault : CreateFault → Option OpenFault
  | topicDir => none
  | segment fault => some fault

def cloneHeaders (headers : OrdMap String String) : OrdMap String String :=
  if headers.size = 0 then ∅ else OrdMap.insertAll ∅ headers.toList

@[simp] theorem cloneHeaders_eq (headers : OrdMap String String) :
    cloneHeaders headers = headers := by
  unfold cloneHeaders
  split
  · next hsize => exact (Std.ExtTreeMap.eq_empty_iff_size_eq_zero.mpr hsize).symm
  · exact OrdMap.insertAll_empty_toList headers

/-- What a `Produce` call finds outside the broker: the clock when it checks for
draining and when it stamps the record, and the outcomes of its file writes. -/
structure ProduceEnv where
  now : Time
  timestamp : Time
  io : AppendIO
deriving DecidableEq, Repr

namespace Broker

def isDrainingLocked (b : Broker) (now : Time) : Bool :=
  if b.drainingTill = zeroTime then false
  else if b.drainingTill < now then false
  else true

def drain (b : Broker) (now d : Time) : Broker := { b with drainingTill := now + d }

def listTopics (b : Broker) : List String :=
  b.topics.keys.insertionSort (· ≤ ·)

end Broker

namespace Topic

/-- The segment `Produce` appends to. -/
def lastSegment (t : Topic) : Segment := t.segments.getLast t.segments_ne

/-- The last segment after an append. -/
def setLastSegment (t : Topic) (s : Segment) : Topic :=
  { t with
    segments := t.segments.dropLast ++ [s]
    segments_ne := by simp }

end Topic

namespace World

/-- `CreateTopic`: the segment directory is `000000` in the topic's own. -/
def createTopic (fault : Option CreateFault) (w : World) (name : String) :
    World × Except BrokerError Topic :=
  match w.broker.topics[name]? with
  | some topic => (w, .ok topic)
  | none =>
      let topicDir := w.broker.dir.join name
      if fault = some .topicDir then (w, .error .createTopicDir)
      else
        match newSegment (fault.bind CreateFault.openFault) w.fs (topicDir.join "000000") 0 with
        | (fs, .error e) => ({ w with fs := fs }, .error e)
        | (fs, .ok seg) =>
            let topic : Topic :=
              { name := name
                dir := topicDir
                segments := [seg]
                nextOffset := 0
                segments_ne := by simp }
            ({ fs := fs
               broker := { w.broker with topics := w.broker.topics.insert name topic } },
              .ok topic)

/-- What a `CreateTopic` call can do. -/
inductive CreateCase (fault : Option CreateFault) (w : World) (name : String) :
    World → Except BrokerError Topic → Prop where
  | known {topic : Topic} (ht : w.broker.topics[name]? = some topic) :
      CreateCase fault w name w (.ok topic)
  | noDir (ht : w.broker.topics[name]? = none) :
      CreateCase fault w name w (.error .createTopicDir)
  | noSegment {fs : FileTree} {e : BrokerError} (ht : w.broker.topics[name]? = none)
      (hnew : newSegment (fault.bind CreateFault.openFault) w.fs
        ((w.broker.dir.join name).join "000000") 0 = (fs, .error e)) :
      CreateCase fault w name ⟨fs, w.broker⟩ (.error e)
  | opened {fs : FileTree} {seg : Segment} {topic : Topic} (ht : w.broker.topics[name]? = none)
      (hnew : newSegment (fault.bind CreateFault.openFault) w.fs
        ((w.broker.dir.join name).join "000000") 0 = (fs, .ok seg))
      (hseg : topic.segments = [seg]) (hnext : topic.nextOffset = 0) :
      CreateCase fault w name
        ⟨fs, { w.broker with topics := w.broker.topics.insert name topic }⟩ (.ok topic)

theorem createTopic_cases {fault : Option CreateFault} {w w' : World} {name : String}
    {res : Except BrokerError Topic} (h : w.createTopic fault name = (w', res)) :
    CreateCase fault w name w' res := by
  unfold createTopic at h
  split at h
  · next topic ht =>
      obtain ⟨rfl, rfl⟩ := Prod.mk.inj h
      exact .known ht
  · next ht =>
      dsimp only at h
      split at h
      · obtain ⟨rfl, rfl⟩ := Prod.mk.inj h
        exact .noDir ht
      · split at h
        · next hnew =>
            obtain ⟨rfl, rfl⟩ := Prod.mk.inj h
            exact .noSegment ht hnew
        · next hnew =>
            obtain ⟨rfl, rfl⟩ := Prod.mk.inj h
            exact .opened ht hnew rfl rfl

/-- `CreateTopic` adds at most its topic to the broker. -/
theorem createTopic_broker (fault : Option CreateFault) (w : World) (name : String) :
    (w.createTopic fault name).1.broker = w.broker ∨
      w.broker.topics[name]? = none ∧
        ∃ topic, (w.createTopic fault name).1.broker =
          { w.broker with topics := w.broker.topics.insert name topic } := by
  rcases hc : w.createTopic fault name with ⟨w', res⟩
  cases createTopic_cases hc with
  | known => exact .inl rfl
  | noDir => exact .inl rfl
  | noSegment => exact .inl rfl
  | opened ht => exact .inr ⟨ht, _, rfl⟩

@[simp] theorem txState_createTopic (fault : Option CreateFault) (w : World) (name : String) :
    (w.createTopic fault name).1.broker.txState = w.broker.txState := by
  rcases createTopic_broker fault w name with hb | ⟨-, topic, hb⟩ <;> rw [hb]

@[simp] theorem transactions_createTopic (fault : Option CreateFault) (w : World) (name : String) :
    (w.createTopic fault name).1.broker.transactions = w.broker.transactions := by
  rcases createTopic_broker fault w name with hb | ⟨-, topic, hb⟩ <;> rw [hb]

@[simp] theorem dedupCache_createTopic (fault : Option CreateFault) (w : World) (name : String) :
    (w.createTopic fault name).1.broker.dedupCache = w.broker.dedupCache := by
  rcases createTopic_broker fault w name with hb | ⟨-, topic, hb⟩ <;> rw [hb]

@[simp] theorem producerSeq_createTopic (fault : Option CreateFault) (w : World) (name : String) :
    (w.createTopic fault name).1.broker.producerSeq = w.broker.producerSeq := by
  rcases createTopic_broker fault w name with hb | ⟨-, topic, hb⟩ <;> rw [hb]

/-- The record `Produce` hands to the segment. -/
def newRecord (topic : Topic) (timestamp : Time) (key value : Bytes)
    (headers : OrdMap String String) : Record :=
  { key := key
    value := value
    headers := cloneHeaders headers
    timestamp := timestamp
    offset := topic.nextOffset }

def produce (json : RecordJson) (env : ProduceEnv) (w : World) (topicName : String)
    (key value : Bytes) (headers : OrdMap String String) : World × Except BrokerError Record :=
  if w.broker.isDrainingLocked env.now then (w, .error .draining)
  else
    match w.broker.topics[topicName]? with
    | none => (w, .error (.topicNotFound topicName))
    | some topic =>
        let record := newRecord topic env.timestamp key value headers
        match topic.lastSegment.append json env.io w.fs record with
        -- the segment may have changed even when the append fails
        | (fs, seg, .error e) =>
            ({ fs := fs
               broker := { w.broker with
                 topics := w.broker.topics.insert topicName (topic.setLastSegment seg) } },
              .error e)
        | (fs, seg, .ok offset) =>
            ({ fs := fs
               broker := { w.broker with
                 topics := w.broker.topics.insert topicName
                   { topic.setLastSegment seg with nextOffset := offset + 1 } } },
              .ok { record with offset := offset })

/-- What a `Produce` call can do. -/
inductive ProduceCase (json : RecordJson) (env : ProduceEnv) (w : World) (topicName : String)
    (key value : Bytes) (headers : OrdMap String String) :
    World → Except BrokerError Record → Prop where
  | draining (hdrain : w.broker.isDrainingLocked env.now = true) :
      ProduceCase json env w topicName key value headers w (.error .draining)
  | noTopic (hdrain : w.broker.isDrainingLocked env.now = false)
      (ht : w.broker.topics[topicName]? = none) :
      ProduceCase json env w topicName key value headers w (.error (.topicNotFound topicName))
  | failed {topic : Topic} {fs : FileTree} {seg : Segment} {e : BrokerError}
      (hdrain : w.broker.isDrainingLocked env.now = false)
      (ht : w.broker.topics[topicName]? = some topic)
      (happ : topic.lastSegment.append json env.io w.fs
        (newRecord topic env.timestamp key value headers) = (fs, seg, .error e)) :
      ProduceCase json env w topicName key value headers
        ⟨fs, { w.broker with
          topics := w.broker.topics.insert topicName (topic.setLastSegment seg) }⟩ (.error e)
  | appended {topic : Topic} {fs : FileTree} {seg : Segment} {offset : ℤ}
      (hdrain : w.broker.isDrainingLocked env.now = false)
      (ht : w.broker.topics[topicName]? = some topic)
      (happ : topic.lastSegment.append json env.io w.fs
        (newRecord topic env.timestamp key value headers) = (fs, seg, .ok offset)) :
      ProduceCase json env w topicName key value headers
        ⟨fs, { w.broker with
          topics := w.broker.topics.insert topicName
            { topic.setLastSegment seg with nextOffset := offset + 1 } }⟩
        (.ok { newRecord topic env.timestamp key value headers with offset := offset })

theorem produce_cases {json : RecordJson} {env : ProduceEnv} {w w' : World} {topicName : String}
    {key value : Bytes} {headers : OrdMap String String} {res : Except BrokerError Record}
    (h : w.produce json env topicName key value headers = (w', res)) :
    ProduceCase json env w topicName key value headers w' res := by
  unfold produce at h
  split at h
  · next hdrain =>
      obtain ⟨rfl, rfl⟩ := Prod.mk.inj h
      exact .draining hdrain
  · next hdrain =>
      rw [Bool.not_eq_true] at hdrain
      split at h
      · next ht =>
          obtain ⟨rfl, rfl⟩ := Prod.mk.inj h
          exact .noTopic hdrain ht
      · next ht =>
          dsimp only at h
          split at h
          · next happ =>
              obtain ⟨rfl, rfl⟩ := Prod.mk.inj h
              exact .failed hdrain ht happ
          · next happ =>
              obtain ⟨rfl, rfl⟩ := Prod.mk.inj h
              exact .appended hdrain ht happ

/-- `Produce` replaces at most the topic it appends to. -/
theorem produce_broker (json : RecordJson) (env : ProduceEnv) (w : World) (topicName : String)
    (key value : Bytes) (headers : OrdMap String String) :
    (w.produce json env topicName key value headers).1.broker = w.broker ∨
      ∃ topic topic', w.broker.topics[topicName]? = some topic ∧
        (w.produce json env topicName key value headers).1.broker =
          { w.broker with topics := w.broker.topics.insert topicName topic' } := by
  rcases hp : w.produce json env topicName key value headers with ⟨w', res⟩
  cases produce_cases hp with
  | draining => exact .inl rfl
  | noTopic => exact .inl rfl
  | failed _ ht => exact .inr ⟨_, _, ht, rfl⟩
  | appended _ ht => exact .inr ⟨_, _, ht, rfl⟩

@[simp] theorem txState_produce (json : RecordJson) (env : ProduceEnv) (w : World)
    (topicName : String) (key value : Bytes) (headers : OrdMap String String) :
    (w.produce json env topicName key value headers).1.broker.txState = w.broker.txState := by
  rcases produce_broker json env w topicName key value headers with hb | ⟨topic, topic', -, hb⟩ <;>
    rw [hb]

@[simp] theorem transactions_produce (json : RecordJson) (env : ProduceEnv) (w : World)
    (topicName : String) (key value : Bytes) (headers : OrdMap String String) :
    (w.produce json env topicName key value headers).1.broker.transactions =
      w.broker.transactions := by
  rcases produce_broker json env w topicName key value headers with hb | ⟨topic, topic', -, hb⟩ <;>
    rw [hb]

@[simp] theorem dedupCache_produce (json : RecordJson) (env : ProduceEnv) (w : World)
    (topicName : String) (key value : Bytes) (headers : OrdMap String String) :
    (w.produce json env topicName key value headers).1.broker.dedupCache = w.broker.dedupCache := by
  rcases produce_broker json env w topicName key value headers with hb | ⟨topic, topic', -, hb⟩ <;>
    rw [hb]

@[simp] theorem producerSeq_produce (json : RecordJson) (env : ProduceEnv) (w : World)
    (topicName : String) (key value : Bytes) (headers : OrdMap String String) :
    (w.produce json env topicName key value headers).1.broker.producerSeq =
      w.broker.producerSeq := by
  rcases produce_broker json env w topicName key value headers with hb | ⟨topic, topic', -, hb⟩ <;>
    rw [hb]

/-- The record whose frame a `Produce` call writes to the log, if it gets so far.
The call may still fail after that, when an index file cannot be written. -/
def appended (json : RecordJson) (env : ProduceEnv) (w : World) (topicName : String)
    (key value : Bytes) (headers : OrdMap String String) : Option Record :=
  if w.broker.isDrainingLocked env.now then none
  else
    match w.broker.topics[topicName]? with
    | none => none
    | some topic =>
        let record := newRecord topic env.timestamp key value headers
        if (topic.lastSegment.writeFrame json env.io w.fs record).2.isOk then some record else none

theorem appended_of_topic {json : RecordJson} {env : ProduceEnv} {w : World} {topicName : String}
    {topic : Topic} (hdrain : w.broker.isDrainingLocked env.now = false)
    (ht : w.broker.topics[topicName]? = some topic) (key value : Bytes)
    (headers : OrdMap String String) :
    w.appended json env topicName key value headers =
      if (topic.lastSegment.writeFrame json env.io w.fs
          (newRecord topic env.timestamp key value headers)).2.isOk then
        some (newRecord topic env.timestamp key value headers)
      else none := by
  rw [appended, hdrain, if_neg Bool.false_ne_true, ht]

theorem appended_eq_some {json : RecordJson} {env : ProduceEnv} {w : World} {topicName : String}
    {key value : Bytes} {headers : OrdMap String String} {record : Record}
    (h : w.appended json env topicName key value headers = some record) :
    record.key = key ∧ record.value = value ∧ record.headers = headers := by
  unfold appended at h
  split at h
  · cases h
  · split at h
    · cases h
    · dsimp only at h
      split at h
      · obtain rfl := Option.some.inj h
        exact ⟨rfl, rfl, cloneHeaders_eq headers⟩
      · cases h

/-- A `Produce` succeeds when it has written its record and both index files, and
returns the record under the offset the segment gave it. -/
theorem produce_result (json : RecordJson) (env : ProduceEnv) (w : World) (topicName : String)
    (key value : Bytes) (headers : OrdMap String String) :
    (∃ record offset, w.appended json env topicName key value headers = some record ∧
        env.io.index = .done ∧ env.io.timeIndex = .done ∧
        (w.produce json env topicName key value headers).2 =
          .ok { record with offset := offset }) ∨
      (∃ e, (w.produce json env topicName key value headers).2 = .error e) ∧
        (w.appended json env topicName key value headers = none ∨
          ¬ (env.io.index = .done ∧ env.io.timeIndex = .done)) := by
  rcases hp : w.produce json env topicName key value headers with ⟨w', res⟩
  cases produce_cases hp with
  | draining hdrain => exact .inr ⟨⟨_, rfl⟩, .inl (if_pos hdrain)⟩
  | noTopic hdrain ht => exact .inr ⟨⟨_, rfl⟩, .inl (by simp [appended, ht])⟩
  | failed hdrain ht happ =>
      refine .inr ⟨⟨_, rfl⟩, ?_⟩
      rcases Segment.append_eq_error happ with hw | ⟨-, -, hio⟩
      · rw [appended_of_topic hdrain ht, hw]
        exact .inl rfl
      · exact .inr hio
  | appended hdrain ht happ =>
      obtain ⟨hw, -, hindex, htime⟩ := Segment.append_eq_ok happ
      rw [appended_of_topic hdrain ht, if_pos hw]
      exact .inl ⟨_, _, rfl, hindex, htime, rfl⟩

/-- The loop of `Consume` over the segments. -/
def consumeLoop (json : RecordJson) (fs : FileTree) (fromOffset max : ℤ) :
    List Segment → List Record → Except BrokerError (List Record)
  | [], result => .ok result
  | seg :: segments, result =>
      match seg.readRange json fs fromOffset (max - result.length) with
      | .error e => .error e
      | .ok recs =>
          if max ≤ (result ++ recs).length then .ok (result ++ recs)
          else consumeLoop json fs fromOffset max segments (result ++ recs)

def consume (json : RecordJson) (w : World) (topicName : String) (fromOffset max : ℤ) :
    Except BrokerError (List Record) :=
  match w.broker.topics[topicName]? with
  | none => .error (.topicNotFound topicName)
  | some topic =>
      consumeLoop json w.fs fromOffset (Segment.effectiveMax max) topic.segments []

/-- The loop of `FetchRaw` over the segments. -/
def fetchRawLoop (fs : FileTree) (offset : ℤ) :
    List Segment → Except BrokerError (SlashPath × ℤ × ℤ)
  | [] => .error (.offsetNotFound offset)
  | seg :: segments =>
      match seg.offsets[offset]? with
      | none => fetchRawLoop fs offset segments
      | some pos =>
          match slice (fs.contents seg.logPath) pos 4 with
          | none => .error .readPayloadLength
          | some sizeBuf => .ok (seg.logPath, pos + 4, uint32 sizeBuf)

/-- `FetchRaw`: the log file with the start and the length of a payload. -/
def fetchRaw (w : World) (topicName : String) (offset : ℤ) :
    Except BrokerError (SlashPath × ℤ × ℤ) :=
  match w.broker.topics[topicName]? with
  | none => .error (.topicNotFound topicName)
  | some topic => fetchRawLoop w.fs offset topic.segments

end World

end StreamFlow
