import StreamFlow.Broker.Basic
import StreamFlow.Broker.Segment.Reopen

/-!
# When `CreateTopic` and `Produce` succeed

Both calls report only their own outcome. Here their success is expressed by what
they find: the broker and the files before the call, the clock, and the way the
file operations end.
-/

namespace StreamFlow

open BigEndian ByteFile

namespace Segment

/-- What `Append` needs: the record has an encoding that fits the length prefix and
the log, and all four writes go through. -/
def CanAppend (json : RecordJson) (io : AppendIO) (s : Segment) (record : Record) : Prop :=
  ∃ payload ∈ json.marshal record, payload.length ≤ 0xFFFFFFFF ∧ 0 ≤ s.position ∧
    s.position + 4 + payload.length ≤ maxSize ∧ io = .ok

instance (json : RecordJson) (io : AppendIO) (s : Segment) (record : Record) :
    Decidable (s.CanAppend json io record) :=
  inferInstanceAs (Decidable (∃ payload ∈ json.marshal record, _))

/-- How the writes to the log end: what the files hold does not matter. -/
theorem writeFrame_snd (json : RecordJson) (io : AppendIO) (fs : FileTree) (s : Segment)
    (record : Record) :
    (s.writeFrame json io fs record).2 =
      match json.marshal record with
      | none => .error .marshalRecord
      | some payload =>
          if 0xFFFFFFFF < payload.length then .error .recordTooLarge
          else if io.lengthWrite = .done ∧ 0 ≤ s.position ∧ s.position + 4 ≤ maxSize then
            if io.payloadWrite = .done ∧ s.position + 4 + payload.length ≤ maxSize then
              .ok payload.length
            else .error .writePayload
          else .error .writeLengthPrefix := by
  unfold writeFrame
  cases json.marshal record with
  | none => rfl
  | some payload =>
      dsimp only
      split
      · next hlarge => rw [if_pos (by omega)]
      · next hlarge =>
          rw [if_neg (by omega)]
          have hlength := FileTree.writeAt_ok_iff fs s.logPath s.position
            (putUint32 payload.length) io.lengthWrite
          rw [length_putUint32] at hlength
          split
          · next fs₁ hw =>
              rw [hw] at hlength
              rw [if_neg]
              intro h
              exact Bool.false_ne_true (hlength.mpr ⟨h.1, h.2.1, by omega⟩)
          · next fs₁ hw =>
              rw [hw] at hlength
              obtain ⟨hdone, hpos, hroom⟩ := hlength.mp rfl
              have hpayload := FileTree.writeAt_ok_iff fs₁ s.logPath (s.position + 4)
                payload io.payloadWrite
              rw [if_pos ⟨hdone, hpos, by omega⟩]
              split
              · next fs₂ hw₂ =>
                  rw [hw₂] at hpayload
                  rw [if_neg]
                  intro h
                  exact Bool.false_ne_true (hpayload.mpr ⟨h.1, by omega, by omega⟩)
              · next fs₂ hw₂ =>
                  rw [hw₂] at hpayload
                  obtain ⟨hdone₂, -, hroom₂⟩ := hpayload.mp rfl
                  rw [if_pos ⟨hdone₂, by omega⟩]

theorem writeFrame_isOk_iff {json : RecordJson} {io : AppendIO} {fs : FileTree} {s : Segment}
    {record : Record} :
    (s.writeFrame json io fs record).2.isOk = true ↔
      ∃ payload ∈ json.marshal record, payload.length ≤ 0xFFFFFFFF ∧ 0 ≤ s.position ∧
        s.position + 4 + payload.length ≤ maxSize ∧
        io.lengthWrite = .done ∧ io.payloadWrite = .done := by
  rw [writeFrame_snd]
  cases hp : json.marshal record with
  | none => simp [Except.isOk, Except.toBool]
  | some payload =>
      simp only [Option.mem_def, Option.some.injEq, exists_eq_left']
      split
      · next hlarge => exact iff_of_false Bool.false_ne_true fun h => by omega
      · next hlarge =>
          split
          · next hlength =>
              split
              · next hpayload =>
                  exact iff_of_true rfl
                    ⟨by omega, hlength.2.1, hpayload.2, hlength.1, hpayload.1⟩
              · next hpayload =>
                  exact iff_of_false Bool.false_ne_true
                    fun h => hpayload ⟨h.2.2.2.2, h.2.2.1⟩
          · next hlength =>
              exact iff_of_false Bool.false_ne_true
                fun h => hlength ⟨h.2.2.2.1, h.2.1, by omega⟩

theorem append_isOk_iff {json : RecordJson} {io : AppendIO} {fs : FileTree} {s : Segment}
    {record : Record} :
    (s.append json io fs record).2.2.isOk = true ↔ s.CanAppend json io record := by
  have hio : io = .ok ↔ (io.lengthWrite = .done ∧ io.payloadWrite = .done) ∧
      io.index = .done ∧ io.timeIndex = .done := by
    cases io
    simp [ AppendIO.ok, and_assoc]
  have hframe : s.CanAppend json io record ↔
      (s.writeFrame json io fs record).2.isOk = true ∧
        io.index = .done ∧ io.timeIndex = .done := by
    rw [writeFrame_isOk_iff, CanAppend, hio]
    constructor
    · rintro ⟨payload, hmem, hlen, hpos, hroom, hlog, hindex⟩
      exact ⟨⟨payload, hmem, hlen, hpos, hroom, hlog⟩, hindex⟩
    · rintro ⟨⟨payload, hmem, hlen, hpos, hroom, hlog⟩, hindex⟩
      exact ⟨payload, hmem, hlen, hpos, hroom, hlog, hindex⟩
  rw [append_result, hframe]
  cases (s.writeFrame json io fs record).2 with
  | error e => exact iff_of_false Bool.false_ne_true fun h => Bool.false_ne_true h.1
  | ok length =>
      dsimp only
      split
      · next hindex => exact iff_of_true rfl ⟨rfl, hindex⟩
      · next hindex => exact iff_of_false Bool.false_ne_true fun h => hindex h.2

end Segment

/-- `newSegment` fails only by a file operation; the time index is read only when
there is one. -/
theorem newSegment_isOk_iff {fault : Option OpenFault} {fs : FileTree} {path : SlashPath}
    {startOffset : ℤ} :
    (newSegment fault fs path startOffset).2.isOk = true ↔
      fault = none ∨
        fault = some .readTimeIndex ∧ fs (path.join "segment.timeindex") = none := by
  cases fault with
  | none =>
      rw [newSegment_none]
      exact iff_of_true rfl (Or.inl rfl)
  | some f =>
      cases f with
      | readTimeIndex =>
          unfold newSegment Segment.loadIndexes
          simp only [Option.some.injEq, reduceCtorEq, if_false, Segment.foldl_loadEntry,
            create_timeIndex]
          cases fs (path.join "segment.timeindex") with
          | none =>
              dsimp only
              split
              · simp [Except.isOk, Except.toBool]
              · simp [Except.isOk, Except.toBool]
          | some timeData => simp [Except.isOk, Except.toBool]
      | _ => simp [newSegment, Segment.loadIndexes, Except.isOk, Except.toBool]

namespace World

/-- What `CreateTopic` needs: the topic is there already, or its directory and its
segment can be created. -/
def CanCreateTopic (fault : Option CreateFault) (w : World) (name : String) : Prop :=
  (w.broker.topics[name]?).isSome ∨ fault = none ∨
    fault = some (.segment .readTimeIndex) ∧
      w.fs (((w.broker.dir.join name).join "000000").join "segment.timeindex") = none

instance (fault : Option CreateFault) (w : World) (name : String) :
    Decidable (w.CanCreateTopic fault name) :=
  inferInstanceAs (Decidable (_ ∨ _))

theorem createTopic_isOk_of_none {fault : Option CreateFault} {w : World} {name : String}
    (ht : w.broker.topics[name]? = none) (hdir : fault ≠ some .topicDir) :
    (w.createTopic fault name).2.isOk =
      (newSegment (fault.bind CreateFault.openFault) w.fs
        ((w.broker.dir.join name).join "000000") 0).2.isOk := by
  unfold createTopic
  rw [ht]
  dsimp only
  rw [if_neg hdir]
  split
  · next hseg => rw [hseg]; rfl
  · next hseg => rw [hseg]; rfl

theorem createTopic_isOk_iff {fault : Option CreateFault} {w : World} {name : String} :
    (w.createTopic fault name).2.isOk = true ↔ w.CanCreateTopic fault name := by
  cases ht : w.broker.topics[name]? with
  | some topic =>
      unfold createTopic CanCreateTopic
      rw [ht]
      exact iff_of_true rfl (Or.inl rfl)
  | none =>
      cases fault with
      | none =>
          rw [createTopic_isOk_of_none ht (by simp), newSegment_isOk_iff]
          exact iff_of_true (Or.inl rfl) (Or.inr (Or.inl rfl))
      | some fault =>
          cases fault with
          | topicDir => simp [createTopic, CanCreateTopic, ht, Except.isOk, Except.toBool]
          | segment f =>
              rw [createTopic_isOk_of_none ht (by simp), newSegment_isOk_iff]
              simp [CanCreateTopic, ht, CreateFault.openFault]

/-- What `Produce` needs: the broker does not drain, the topic exists, and its
segment can take the record. -/
def CanProduce (json : RecordJson) (env : ProduceEnv) (w : World) (topicName : String)
    (key value : Bytes) (headers : OrdMap String String) : Prop :=
  w.broker.isDrainingLocked env.now = false ∧
    ∃ topic ∈ w.broker.topics[topicName]?,
      topic.lastSegment.CanAppend json env.io (newRecord topic env.timestamp key value headers)

instance (json : RecordJson) (env : ProduceEnv) (w : World) (topicName : String)
    (key value : Bytes) (headers : OrdMap String String) :
    Decidable (w.CanProduce json env topicName key value headers) :=
  inferInstanceAs (Decidable (_ ∧ ∃ topic ∈ w.broker.topics[topicName]?, _))

theorem produce_isOk_iff {json : RecordJson} {env : ProduceEnv} {w : World} {topicName : String}
    {key value : Bytes} {headers : OrdMap String String} :
    (w.produce json env topicName key value headers).2.isOk = true ↔
      w.CanProduce json env topicName key value headers := by
  unfold produce CanProduce
  by_cases hdrain : w.broker.isDrainingLocked env.now = true
  · rw [if_pos hdrain, hdrain]
    exact iff_of_false Bool.false_ne_true fun h => Bool.noConfusion h.1
  · rw [if_neg hdrain]
    cases ht : w.broker.topics[topicName]? with
    | none => simp [Except.isOk, Except.toBool]
    | some topic =>
        have happ := @Segment.append_isOk_iff json env.io w.fs topic.lastSegment
          (newRecord topic env.timestamp key value headers)
        simp only [Option.mem_def, Option.some.injEq, exists_eq_left', ← happ, hdrain, true_and]
        split
        · next hres => rw [hres]; simp [Except.isOk, Except.toBool]
        · next hres => rw [hres]; simp [Except.isOk, Except.toBool]

end World

end StreamFlow
