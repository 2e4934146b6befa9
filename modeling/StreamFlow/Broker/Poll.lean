import StreamFlow.Broker.Represents
import StreamFlow.Broker.Sample
import StreamFlow.Foundation.Run

/-!
# A polling consumer

One consumer polls a topic while clients create topics and produce records: it
calls `Consume(topic, next, max)` with any `max` and continues behind the last
record it got. `received_prefix_produced` states that it sees every record once
and in order.
-/

namespace StreamFlow

open BigEndian Segment Run

/-- The broker, the next offset of the consumer, all it has received, and the
records returned by the successful `Produce` calls on its topic. -/
structure PollState where
  world : World
  next : ℤ
  received : List Record
  produced : List Record

inductive PollOp where
  | createTopic (name : String)
  | produce (now timestamp : Time) (topicName : String) (key value : Bytes)
      (headers : OrdMap String String)
  | poll (max : ℤ)

namespace PollState

/-- The next offset after a batch. -/
def nextAfterBatch (next : ℤ) (batch : List Record) : ℤ :=
  match batch.getLast? with
  | none => next
  | some rec => rec.offset + 1

/-- One call on the broker, all of whose file operations succeed. -/
def step (json : RecordJson) (topic : String) (st : PollState) : PollOp → Option PollState
  | .createTopic name => some { st with world := (st.world.createTopic none name).1 }
  | .produce now timestamp topicName key value headers =>
      match st.world.produce json ⟨now, timestamp, .ok⟩ topicName key value headers with
      | (w, .error _) => some { st with world := w }
      | (w, .ok rec) => some { st with
          world := w
          produced := if topicName = topic then st.produced ++ [rec] else st.produced }
  | .poll max =>
      match st.world.consume json topic st.next max with
      | .error _ => some st
      | .ok batch => some { st with
          next := nextAfterBatch st.next batch
          received := st.received ++ batch }

/-- A topic is created in a directory of its own. -/
def OwnDirs (st : PollState) : PollOp → Prop
  | .createTopic name => st.world.OwnDir name
  | _ => True

instance (st : PollState) : ∀ op, Decidable (st.OwnDirs op)
  | .createTopic name => inferInstanceAs (Decidable (st.world.OwnDir name))
  | .produce .. | .poll _ => inferInstanceAs (Decidable True)

/-- The logs of the broker hold each record under its own offset, the counters of
the topics agree with them, and the consumer has read a prefix of its log. -/
structure Inv (json : RecordJson) (topic : String) (st : PollState)
    (logs : String → List Record) : Prop where
  serves : st.world.Serves json logs
  counters : ∀ (name : String) (t : Topic), st.world.broker.topics[name]? = some t →
    t.nextOffset = (logs name).length
  numbered : ∀ name, Numbered (logs name)
  produced : st.produced = logs topic
  received : st.received = (logs topic).take st.received.length
  next : st.next = st.received.length

variable {json : RecordJson} {topic : String} {st st' : PollState} {logs : String → List Record}

/-- The offsets of a block of a log lead the consumer behind it. -/
theorem nextAfterBatch_eq {log : List Record} (h : Numbered log) (n m : ℕ) :
    nextAfterBatch n ((log.drop n).take m) = n + ((log.drop n).take m).length := by
  unfold nextAfterBatch
  split
  · next hnone => rw [List.getLast?_eq_none_iff.mp hnone, List.length_nil, Nat.cast_zero, add_zero]
  · next rec hlast =>
      have hpos : 0 < ((log.drop n).take m).length := by
        rw [List.length_pos_iff]
        intro hnil
        rw [hnil] at hlast
        cases hlast
      rw [List.getLast?_eq_getElem?, List.getElem?_take] at hlast
      split at hlast
      · next hlt =>
          rw [List.getElem?_drop] at hlast
          have hoffset := h _ rec hlast
          omega
      · cases hlast

theorem Inv.length_le (h : st.Inv json topic logs) : st.received.length ≤ (logs topic).length := by
  have hlen := congrArg List.length h.received
  rw [List.length_take] at hlen
  omega

/-- What one poll receives. -/
theorem Inv.consume_eq (h : st.Inv json topic logs) (hjson : json.Faithful) {t : Topic}
    (ht : st.world.broker.topics[topic]? = some t) (max : ℤ) :
    st.world.consume json topic st.next max =
      .ok ((st.produced.drop st.received.length).take (effectiveMax max).toNat) := by
  rw [h.serves.consume_eq hjson ht, h.next, Int.toNat_natCast, h.produced, List.map_id]

theorem Inv.counted (h : st.Inv json topic logs) : st.world.Counted json logs :=
  ⟨h.serves, h.counters⟩

/-- Calls that change no log keep the invariant. -/
theorem Inv.setWorld (h : st.Inv json topic logs) {w : World} (hw : w.Counted json logs) :
    Inv json topic { st with world := w } logs :=
  ⟨hw.serves, hw.counters, h.numbered, h.produced, h.received, h.next⟩

/-- A record with the next number goes to the end of its log. -/
theorem Inv.produce (h : st.Inv json topic logs) {name : String} {rec : Record} {w : World}
    (hrec : rec.offset = (logs name).length)
    (hw : w.Counted json (Function.update logs name (logs name ++ [rec]))) :
    Inv json topic { st with
      world := w
      produced := if name = topic then st.produced ++ [rec] else st.produced }
      (Function.update logs name (logs name ++ [rec])) := by
  refine ⟨hw.serves, hw.counters, ?_, ?_, ?_, h.next⟩
  · intro name'
    by_cases heq : name' = name
    · rw [heq, Function.update_self]
      exact (h.numbered name).append_singleton hrec
    · rw [Function.update_of_ne heq]
      exact h.numbered name'
  · dsimp only
    split
    · next heq => rw [← heq, Function.update_self, h.produced, heq]
    · next hne => rw [Function.update_of_ne (Ne.symm hne), h.produced]
  · dsimp only
    by_cases heq : topic = name
    · have hle := h.length_le
      rw [heq] at hle
      rw [heq, Function.update_self, List.take_append_of_le_length hle, ← heq]
      exact h.received
    · rw [Function.update_of_ne heq]
      exact h.received

/-- A poll continues behind what was received before. -/
theorem Inv.poll (h : st.Inv json topic logs) (n : ℕ) :
    Inv json topic { st with
      next := nextAfterBatch st.next (((logs topic).drop st.received.length).take n)
      received := st.received ++ ((logs topic).drop st.received.length).take n } logs := by
  refine ⟨h.serves, h.counters, h.numbered, h.produced, ?_, ?_⟩
  · dsimp only
    rw [List.length_append, List.take_add, ← h.received,
      ← List.prefix_iff_eq_take.mp (List.take_prefix _ _)]
  · dsimp only
    rw [h.next, nextAfterBatch_eq (h.numbered topic), List.length_append]
    push_cast
    rfl

/-- The logs only grow, and only by records that their topic's counter numbers. -/
theorem Inv.step (h : st.Inv json topic logs) (hjson : json.Faithful) {op : PollOp}
    (hown : st.OwnDirs op) (hstep : st.step json topic op = some st') :
    ∃ logs', st'.Inv json topic logs' := by
  cases op with
  | createTopic name =>
      obtain rfl := Option.some.inj hstep
      exact ⟨logs, h.setWorld (h.counted.createTopic hown Prod.mk.eta.symm)⟩
  | produce now timestamp topicName key value headers =>
      rcases hp : st.world.produce json ⟨now, timestamp, .ok⟩ topicName key value headers with
        ⟨w, res⟩
      rw [PollState.step, hp] at hstep
      rcases h.counted.produce rfl rfl hp with
        ⟨e, rfl, -, hcounted⟩ | ⟨rec, topics, rfl, hoffset, -, hcounted⟩
      · obtain rfl := Option.some.inj hstep
        exact ⟨logs, h.setWorld hcounted⟩
      · obtain rfl := Option.some.inj hstep
        exact ⟨_, h.produce hoffset hcounted⟩
  | poll max =>
      rw [PollState.step] at hstep
      split at hstep
      · obtain rfl := Option.some.inj hstep
        exact ⟨logs, h⟩
      · next batch hbatch =>
          obtain rfl := Option.some.inj hstep
          cases ht : st.world.broker.topics[topic]? with
          | none =>
              rw [World.consume, ht] at hbatch
              cases hbatch
          | some t =>
              rw [h.consume_eq hjson ht, h.produced] at hbatch
              obtain rfl := Except.ok.inj hbatch
              exact ⟨logs, h.poll _⟩

/-- The consumer before its first call, on a broker just started. -/
def start (fs : FileTree) (b : Broker) : PollState := ⟨⟨fs, b⟩, 0, [], []⟩

theorem inv_start {fs : FileTree} {b : Broker} (hb : b.topics = ∅)
    (hfs : ∀ name, ∀ p ∈ files (b.segmentDir name), fs p = none) :
    (start fs b).Inv json topic fun _ => [] :=
  ⟨World.Serves.start hb hfs, fun name t ht => by simp [start, hb] at ht,
    fun name i r hr => by simp at hr, rfl, rfl, rfl⟩

end PollState

/-- A polling consumer sees every record exactly once and in order. On a broker
started where no topic has left files, whatever topics are created (each in a
directory of its own) and whatever is produced, the batches returned so far are
together a prefix of the records produced on the topic. A further call fails only
as long as the topic does not exist, and its batch is shorter than the maximum only
when it reaches the end of the log. -/
theorem received_prefix_produced (json : RecordJson) (hjson : json.Faithful) (fs : FileTree)
    (dir : SlashPath) {b : Broker} (hb : newBroker true dir = .ok b)
    (hfs : ∀ name, ∀ p ∈ files (b.segmentDir name), fs p = none) (topic : String)
    {ops : List PollOp} {st : PollState}
    (hrun : exec (PollState.step json topic) (.start fs b) ops = some st)
    (hown : Guarded (PollState.step json topic) PollState.OwnDirs (.start fs b) ops) :
    st.received <+: st.produced ∧
      ∀ max, (st.world.broker.topics[topic]? = none ∧
          st.world.consume json topic st.next max = .error (.topicNotFound topic)) ∨
        ∃ batch, st.world.consume json topic st.next max = .ok batch ∧
          st.received ++ batch <+: st.produced ∧
          (batch.length < effectiveMax max → st.received ++ batch = st.produced) := by
  obtain ⟨logs, hinv⟩ := invariant_of_guarded (fun s => ∃ logs, s.Inv json topic logs)
    (fun s op s' ⟨logs, h⟩ hg hs => h.step hjson hg hs) hrun hown
    ⟨_, PollState.inv_start (by rw [eq_fresh_of_newBroker hb]; rfl) hfs⟩
  have hreceived := hinv.received
  rw [← hinv.produced] at hreceived
  refine ⟨by rw [hreceived]; exact List.take_prefix _ _, fun max => ?_⟩
  cases ht : st.world.broker.topics[topic]? with
  | none => exact Or.inl ⟨rfl, by rw [World.consume, ht]⟩
  | some t =>
      have hsplit := List.take_append_drop st.received.length st.produced
      rw [← hreceived] at hsplit
      refine Or.inr ⟨_, hinv.consume_eq hjson ht max, ?_, ?_⟩
      · nth_rewrite 2 [← hsplit]
        rw [List.prefix_append_right_inj]
        exact List.take_prefix _ _
      · intro hshort
        have hall : (st.produced.drop st.received.length).length ≤ (effectiveMax max).toNat := by
          rw [List.length_take] at hshort
          omega
        rw [List.take_of_length_le hall, hsplit]

/-- A consumer that polls too early, then in batches of one and of up to 100. -/
def pollSample : List PollOp :=
  [.poll 3, .createTopic "t", .produce 0 0 "t" (asciiBytes "k") (asciiBytes "v") ∅, .poll 1,
    .createTopic "u", .produce 0 0 "t" (asciiBytes "k") (asciiBytes "v") ∅, .poll 0]

theorem received_prefix_produced_sample :
    ∃ st, exec (PollState.step sampleJson "t") (.start (fun _ => none) (.fresh ⟨true, ["d"]⟩))
        pollSample = some st ∧
      st.received = [sampleRecord 0, sampleRecord 1] ∧ st.received <+: st.produced := by
  obtain ⟨st, hrun, hst⟩ : ∃ st, exec (PollState.step sampleJson "t")
        (.start (fun _ => none) (.fresh ⟨true, ["d"]⟩)) pollSample = some st ∧
      st.received = [sampleRecord 0, sampleRecord 1] :=
    exists_exec_of_any (by decide +kernel)
  exact ⟨st, hrun, hst, (received_prefix_produced sampleJson sampleJson_faithful (fun _ => none)
    ⟨true, ["d"]⟩ rfl (fun _ _ _ => rfl) "t" hrun (by decide +kernel)).1⟩

end StreamFlow
