import StreamFlow.Broker.Types
import StreamFlow.Foundation.CodecTable

/-!
# A sample of `encoding/json`

`RecordJson.ofTable` is the codec that knows the JSON texts of a finite list of
records. `sampleJson` lists the texts `json.Marshal` gives to a record with key
`k`, value `v`, no headers and the Unix epoch as its timestamp, at the first few
offsets; concrete runs use it.
-/

namespace StreamFlow

open BigEndian

/-- The codec of a finite table of records and their texts. -/
def RecordJson.ofTable (t : List (Record × Bytes)) : RecordJson where
  marshal := CodecTable.encode t
  unmarshal := CodecTable.decode t

/-- The bytes of an ASCII text. -/
def asciiBytes (text : String) : Bytes := text.toList.map fun c => UInt8.ofNat c.toNat

def sampleRecord (offset : ℤ) : Record :=
  { key := asciiBytes "k"
    value := asciiBytes "v"
    headers := ∅
    timestamp := 0
    offset := offset }

/-- The text of `json.Marshal` for a sample record with this value in base64. -/
def sampleTextOf (value : String) (offset : ℤ) : String :=
  "\x7b\"key\":\"aw==\",\"value\":\"" ++ value ++
    "\",\"timestamp\":\"1970-01-01T00:00:00Z\",\"offset\":" ++ toString offset ++ "\x7d"

def sampleText (offset : ℤ) : String := sampleTextOf "dg==" offset

def sampleJson : RecordJson :=
  .ofTable ([0, 1, 2, 3].map fun o => (sampleRecord o, asciiBytes (sampleText o)))

theorem sampleJson_faithful : sampleJson.Faithful :=
  fun _ _ hb => CodecTable.decode_of_encode (by decide +kernel) hb

end StreamFlow
