import StreamFlow.Broker.Segment.Index

/-!
# Segments

The operations of `broker/types.go`. A segment keeps its records in one log file,
each as a 4-byte length and a JSON payload, and remembers in memory at which
position each offset starts. Every append rewrites both index files, and
`newSegment` reads them back.

Each operation takes the way its file operations end as an argument. What a
crash inside an append leaves on the disk is what the same append leaves when
the file operation under way stops there, so the outcomes describe crashes too.
-/

namespace StreamFlow

open BigEndian ByteFile

/-- `binary.BigEndian.PutUint32`. -/
def putUint32 (v : ℕ) : Bytes := encode 4 v

/-- `binary.BigEndian.Uint32`. -/
def uint32 (b : Bytes) : ℕ := decode b

@[simp] theorem length_putUint32 (v : ℕ) : (putUint32 v).length = 4 := length_encode 4 v

theorem uint32_putUint32 {v : ℕ} (h : v < 2 ^ 32) : uint32 (putUint32 v) = v :=
  decode_encode_of_lt (by norm_num at h ⊢; exact h)

/-- The file operation of `newSegment` that fails, if any. -/
inductive OpenFault where
  | createSegmentDir
  | openLog
  | statLog
  | openIndex
  | readIndex
  | readTimeIndex
deriving DecidableEq, Repr

namespace Segment

/-- One turn of the first loop of `loadIndexes`. -/
def loadEntry (s : Segment) (e : ℤ × ℤ) : Segment :=
  { s with
    offsets := s.offsets.insert e.1 e.2
    nextOffset := if s.nextOffset ≤ e.1 then e.1 + 1 else s.nextOffset }

/-- One turn of the second loop of `loadIndexes`. -/
def loadTimeEntry (s : Segment) (e : ℤ × ℤ) : Segment :=
  { s with timeOffsets := s.timeOffsets.insert e.1 e.2 }

/-- `loadIndexes`; a missing time index is no error. -/
def loadIndexes (fault : Option OpenFault) (fs : FileTree) (s : Segment) : Option Segment :=
  if fault = some .readIndex then none
  else
    let s := (entriesOf (fs.contents s.indexPath)).foldl loadEntry s
    match fs s.timeIndex with
    | none => some s
    | some timeData =>
        if fault = some .readTimeIndex then none
        else some ((entriesOf timeData).foldl loadTimeEntry s)

end Segment

def newSegment (fault : Option OpenFault) (fs : FileTree) (path : SlashPath)
    (startOffset : ℤ) : FileTree × Except BrokerError Segment :=
  if fault = some .createSegmentDir then (fs, .error .createSegmentDir)
  else if fault = some .openLog then (fs, .error .openLog)
  else
    let fs := fs.create (path.join "segment.log")
    if fault = some .statLog then (fs, .error .statLog)
    else if fault = some .openIndex then (fs, .error .openIndex)
    else
      let seg : Segment :=
        { path := path
          logPath := path.join "segment.log"
          indexPath := path.join "segment.index"
          timeIndex := path.join "segment.timeindex"
          position := (fs.contents (path.join "segment.log")).length
          nextOffset := startOffset
          offsets := ∅
          timeOffsets := ∅ }
      let fs := fs.create (path.join "segment.index")
      match seg.loadIndexes fault fs with
      | none => (fs, .error .loadIndexes)
      | some seg =>
          if seg.nextOffset < startOffset then (fs, .ok { seg with nextOffset := startOffset })
          else (fs, .ok seg)

/-- How the four file writes of one `Append` end. -/
structure AppendIO where
  lengthWrite : WriteOutcome
  payloadWrite : WriteOutcome
  index : ReplaceOutcome
  timeIndex : ReplaceOutcome
deriving DecidableEq, Repr

/-- All four writes succeed. -/
def AppendIO.ok : AppendIO := ⟨.done, .done, .done, .done⟩

namespace Segment

/-- `persistIndexes`; the flag tells whether it succeeded. -/
def persistIndexes (io : AppendIO) (fs : FileTree) (s : Segment) : FileTree × Bool :=
  match fs.writeFile s.indexPath (indexBuf s.offsets) io.index with
  | (fs, false) => (fs, false)
  | (fs, true) => fs.writeFile s.timeIndex (timeBuf s.timeOffsets) io.timeIndex

/-- The first half of `Append`, up to and including the two writes to the log;
on success it returns the length of the payload. -/
def writeFrame (json : RecordJson) (io : AppendIO) (fs : FileTree) (s : Segment)
    (record : Record) : FileTree × Except BrokerError ℤ :=
  match json.marshal record with
  | none => (fs, .error .marshalRecord)
  | some payload =>
      let length : ℤ := payload.length
      if length > 0xFFFFFFFF then (fs, .error .recordTooLarge)
      else
        match fs.writeAt s.logPath s.position (putUint32 payload.length) io.lengthWrite with
        | (fs, false) => (fs, .error .writeLengthPrefix)
        | (fs, true) =>
            match fs.writeAt s.logPath (s.position + 4) payload io.payloadWrite with
            | (fs, false) => (fs, .error .writePayload)
            | (fs, true) => (fs, .ok length)

/-- The in-memory update of `Append` after a payload of the given length. -/
def advance (s : Segment) (record : Record) (length : ℤ) : Segment :=
  { s with
    offsets := s.offsets.insert s.nextOffset s.position
    timeOffsets := s.timeOffsets.insert (unixNano record.timestamp) s.nextOffset
    position := s.position + (4 + length)
    nextOffset := s.nextOffset + 1 }

/-- `Append`: the files, the segment and the offset of the record. A failure to
persist the indexes is reported after the segment has been updated. -/
def append (json : RecordJson) (io : AppendIO) (fs : FileTree) (s : Segment)
    (record : Record) : FileTree × Segment × Except BrokerError ℤ :=
  match s.writeFrame json io fs record with
  | (fs, .error e) => (fs, s, .error e)
  | (fs, .ok length) =>
      let offset := s.nextOffset
      let s := s.advance record length
      match s.persistIndexes io fs with
      | (fs, false) => (fs, s, .error .persistIndex)
      | (fs, true) => (fs, s, .ok offset)

/-- An append that wrote its frame succeeds when both index files are written. -/
theorem append_result (json : RecordJson) (io : AppendIO) (fs : FileTree) (s : Segment)
    (record : Record) :
    (s.append json io fs record).2.2 =
      match (s.writeFrame json io fs record).2 with
      | .error e => .error e
      | .ok _ =>
          if io.index = .done ∧ io.timeIndex = .done then .ok s.nextOffset
          else .error .persistIndex := by
  unfold append
  split
  · next hw => rw [hw]
  · next fs₁ length hw =>
      rw [hw]
      dsimp only
      unfold persistIndexes
      simp only [FileTree.writeFile_eq]
      by_cases hi : io.index = .done
      · by_cases ht : io.timeIndex = .done
        · simp [hi, ht]
        · simp [hi, ht]
      · simp [hi]

theorem append_eq_ok {json : RecordJson} {io : AppendIO} {fs fs' : FileTree} {s s' : Segment}
    {record : Record} {offset : ℤ} (h : s.append json io fs record = (fs', s', .ok offset)) :
    (s.writeFrame json io fs record).2.isOk = true ∧ offset = s.nextOffset ∧
      io.index = .done ∧ io.timeIndex = .done := by
  have hres := append_result json io fs s record
  rw [h] at hres
  cases hw : (s.writeFrame json io fs record).2 with
  | error e =>
      rw [hw] at hres
      cases hres
  | ok length =>
      rw [hw] at hres
      dsimp only at hres
      split at hres
      · next hio => exact ⟨rfl, Except.ok.inj hres, hio⟩
      · cases hres

/-- An append fails because of its frame, or because of an index file. -/
theorem append_eq_error {json : RecordJson} {io : AppendIO} {fs fs' : FileTree} {s s' : Segment}
    {record : Record} {e : BrokerError} (h : s.append json io fs record = (fs', s', .error e)) :
    (s.writeFrame json io fs record).2 = .error e ∨
      (s.writeFrame json io fs record).2.isOk = true ∧ e = .persistIndex ∧
        ¬ (io.index = .done ∧ io.timeIndex = .done) := by
  have hres := append_result json io fs s record
  rw [h] at hres
  cases hw : (s.writeFrame json io fs record).2 with
  | error e' =>
      rw [hw] at hres
      exact .inl hres.symm
  | ok length =>
      rw [hw] at hres
      dsimp only at hres
      split at hres
      · cases hres
      · next hio => exact .inr ⟨rfl, Except.error.inj hres, hio⟩

def readByOffset (json : RecordJson) (fs : FileTree) (s : Segment) (offset : ℤ) :
    Except BrokerError Record :=
  match s.offsets[offset]? with
  | none => .error (.offsetNotInSegment offset)
  | some pos =>
      match slice (fs.contents s.logPath) pos 4 with
      | none => .error .readPayloadLength
      | some sizeBuf =>
          match slice (fs.contents s.logPath) (pos + 4) (uint32 sizeBuf) with
          | none => .error .readPayload
          | some payload =>
              match json.unmarshal payload with
              | none => .error .unmarshalRecord
              | some rec => .ok rec

/-- The keys `ReadRange` goes through: the offsets from `fromOffset` on, sorted. -/
def rangeKeys (s : Segment) (fromOffset : ℤ) : List ℤ :=
  (s.offsets.keys.filter fun offset => decide (fromOffset ≤ offset)).insertionSort (· ≤ ·)

/-- The reading loop of `ReadRange`. -/
def readLoop (json : RecordJson) (fs : FileTree) (s : Segment) (max : ℤ) :
    List ℤ → List Record → Except BrokerError (List Record)
  | [], result => .ok result
  | offset :: keys, result =>
      if max ≤ result.length then .ok result
      else
        match s.readByOffset json fs offset with
        | .error e => .error e
        | .ok rec => readLoop json fs s max keys (result ++ [rec])

/-- The default of `Consume` and `ReadRange` for a non-positive maximum. -/
def effectiveMax (max : ℤ) : ℤ := if max ≤ 0 then 100 else max

def readRange (json : RecordJson) (fs : FileTree) (s : Segment) (fromOffset max : ℤ) :
    Except BrokerError (List Record) :=
  s.readLoop json fs (effectiveMax max) (s.rangeKeys fromOffset) []

end Segment

end StreamFlow
