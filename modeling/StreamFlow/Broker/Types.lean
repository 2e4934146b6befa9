import StreamFlow.Foundation.OrdMap
import StreamFlow.Foundation.SlashPath

/-!
# Records, segments, topics and brokers

The data model of the package `broker`. Offsets, positions and sequence numbers are
integers, times are nanoseconds since the Unix epoch, byte slices are lists (nil
and empty slices are not told apart), and Go maps are ordered maps. Locks,
`Topic.Partition` and the unused `IndexFile` handle carry no data and are left
out; a `LogFile` handle is the path it was opened at. The consumer group
coordinator of a broker takes no part in the operations on topics.

`encoding/json` enters as a pair of functions. `Decodes f` says what decoding makes
of an encoded record, `Faithful` that it is the record itself, and the weaker
`KeepsOffset` that at least the offset field survives.
-/

namespace StreamFlow

open BigEndian

/-- An instant, in nanoseconds since the Unix epoch. -/
abbrev Time := ℤ

/-- `Time.UnixNano`: the instant as a signed 64-bit number, wrapping around. -/
def unixNano (t : Time) : ℤ := t.bmod (2 ^ 64)

theorem unixNano_bounds (t : Time) : -2 ^ 63 ≤ unixNano t ∧ unixNano t < 2 ^ 63 := by
  constructor
  · exact Int.le_bmod (by norm_num)
  · exact Int.bmod_lt (by norm_num)

structure Record where
  key : Bytes
  value : Bytes
  headers : OrdMap String String
  timestamp : Time
  offset : ℤ
deriving DecidableEq

/-- `json.Marshal` and `json.Unmarshal` at the type `Record`; `none` is an
error. -/
structure RecordJson where
  marshal : Record → Option Bytes
  unmarshal : Bytes → Option Record

namespace RecordJson

/-- Decoding an encoded record gives its image under `f`. -/
def Decodes (json : RecordJson) (f : Record → Record) : Prop :=
  ∀ r b, json.marshal r = some b → json.unmarshal b = some (f r)

/-- Decoding an encoded record gives the record back. -/
def Faithful (json : RecordJson) : Prop := json.Decodes id

/-- Decoding an encoded record gives a record of the same offset. -/
def KeepsOffset (json : RecordJson) : Prop :=
  ∃ f, json.Decodes f ∧ ∀ r, (f r).offset = r.offset

theorem Faithful.keepsOffset {json : RecordJson} (h : json.Faithful) : json.KeepsOffset :=
  ⟨id, h, fun _ => rfl⟩

end RecordJson

structure Segment where
  path : SlashPath
  logPath : SlashPath
  indexPath : SlashPath
  timeIndex : SlashPath
  position : ℤ
  nextOffset : ℤ
  offsets : OrdMap ℤ ℤ
  timeOffsets : OrdMap ℤ ℤ
deriving DecidableEq

/-- A topic always has a last segment, the one `Produce` appends to. -/
structure Topic where
  name : String
  dir : SlashPath
  segments : List Segment
  nextOffset : ℤ
  segments_ne : segments ≠ []
deriving DecidableEq

structure TxRecord where
  topic : String
  key : Bytes
  value : Bytes
  headers : OrdMap String String
deriving DecidableEq

inductive TxStatus where
  | opened
  | committing
  | committed
  | aborted
deriving DecidableEq, Repr

structure Transaction where
  id : String
  producerID : String
  epoch : ℤ
  status : TxStatus
  createdAt : Time
  records : List TxRecord
deriving DecidableEq

/-- The state of a broker. `txState` holds pointers, here places in the list of
the transactions created so far. -/
structure Broker where
  dir : SlashPath
  topics : OrdMap String Topic
  drainingTill : Time
  producerSeq : OrdMap String ℤ
  dedupCache : OrdMap String Record
  txState : OrdMap String ℕ
  transactions : List Transaction

/-- A broker process and the files it works on. -/
structure World where
  fs : FileTree
  broker : Broker

/-- The errors the broker package makes. A wrapped operating system error is
not recorded. -/
inductive BrokerError where
  | createBrokerDir
  | draining
  | topicNotFound (name : String)
  | createTopicDir
  | createSegmentDir
  | openLog
  | statLog
  | openIndex
  | loadIndexes
  | marshalRecord
  | recordTooLarge
  | writeLengthPrefix
  | writePayload
  | persistIndex
  | offsetNotInSegment (offset : ℤ)
  | readPayloadLength
  | readPayload
  | unmarshalRecord
  | offsetNotFound (offset : ℤ)
  | producerIDRequired
  | outOfOrderSequence
  | topicRequired
  | txNotFound
  | txClosed
deriving DecidableEq, Repr

end StreamFlow
