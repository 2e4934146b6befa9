import StreamFlow.Broker.IdempotentCalls
import StreamFlow.Broker.Success

/-!
# The order of sequence numbers

`ProduceIdempotent` rejects a sequence number below the last one of its producer. The table of
last numbers is read with a test whether there is an entry, but written only when the new
number exceeds the entry or, if there is none, 0. So numbers up to 0 never get an entry, and
as long as there is none, nothing is rejected.

`inOrder_iff` states when all is well: the records of each producer are appended with
increasing sequence numbers, and nothing else but late numbers is rejected, exactly if a
number up to 0 that finds no entry exceeds all numbers appended before.
-/

namespace StreamFlow

open BigEndian Segment Run

namespace Segment

/-- The counter of a segment never goes back, and a successful append moves it on. -/
theorem append_nextOffset {json : RecordJson} {io : AppendIO} {fs fs' : FileTree}
    {s s' : Segment} {record : Record} {res : Except BrokerError ℤ}
    (h : s.append json io fs record = (fs', s', res)) :
    s.nextOffset ≤ s'.nextOffset ∧ ∀ offset, res = .ok offset → offset < s'.nextOffset := by
  unfold append at h
  split at h
  · obtain ⟨-, hrest⟩ := Prod.mk.inj h
    obtain ⟨rfl, rfl⟩ := Prod.mk.inj hrest
    exact ⟨le_rfl, fun _ hok => by cases hok⟩
  · next fs₁ length hw =>
      have hnext : (s.advance record length).nextOffset = s.nextOffset + 1 := rfl
      dsimp only at h
      split at h
      · obtain ⟨-, hrest⟩ := Prod.mk.inj h
        obtain ⟨rfl, rfl⟩ := Prod.mk.inj hrest
        exact ⟨by omega, fun _ hok => by cases hok⟩
      · obtain ⟨-, hrest⟩ := Prod.mk.inj h
        obtain ⟨rfl, rfl⟩ := Prod.mk.inj hrest
        refine ⟨by omega, fun offset hok => ?_⟩
        obtain rfl := Except.ok.inj hok
        omega

end Segment

namespace World

/-- Every topic of `w` is in `w'`, with a counter that has not gone back. -/
def Advances (w w' : World) : Prop :=
  ∀ (name : String) (topic : Topic), w.broker.topics[name]? = some topic →
    ∃ topic', w'.broker.topics[name]? = some topic' ∧
      topic.lastSegment.nextOffset ≤ topic'.lastSegment.nextOffset

theorem advances_of_topics_eq {w w' : World} (h : w'.broker.topics = w.broker.topics) :
    w.Advances w' :=
  fun _ topic ht => ⟨topic, by rw [h, ht], le_rfl⟩

theorem advances_insert {w w' : World} {name : String} {topic' : Topic}
    (ht : ∀ t, w.broker.topics[name]? = some t →
      t.lastSegment.nextOffset ≤ topic'.lastSegment.nextOffset)
    (hb : w'.broker.topics = w.broker.topics.insert name topic') : w.Advances w' := by
  intro name' t ht'
  rw [hb, OrdMap.getElem?_insert]
  split
  · next heq => exact ⟨topic', rfl, ht t (heq ▸ ht')⟩
  · exact ⟨t, ht', le_rfl⟩

theorem createTopic_advances (fault : Option CreateFault) (w : World) (name : String) :
    w.Advances (w.createTopic fault name).1 := by
  rcases createTopic_broker fault w name with hb | ⟨hnone, topic, hb⟩
  · exact advances_of_topics_eq (by rw [hb])
  · refine advances_insert (fun t ht => ?_) (congrArg Broker.topics hb)
    rw [hnone] at ht
    cases ht

/-- `Produce` returns the counter of the segment as the offset, and moves it on. -/
theorem produce_nextOffset {json : RecordJson} {env : ProduceEnv} {w w' : World} {name : String}
    {key value : Bytes} {headers : OrdMap String String} {res : Except BrokerError Record}
    (hp : w.produce json env name key value headers = (w', res)) :
    w.Advances w' ∧ ∀ rec, res = .ok rec →
      ∃ topic topic', w.broker.topics[name]? = some topic ∧
        w'.broker.topics[name]? = some topic' ∧
        rec.offset = topic.lastSegment.nextOffset ∧
        rec.offset < topic'.lastSegment.nextOffset := by
  have hlast : ∀ (t : Topic) (s : Segment), (t.setLastSegment s).lastSegment = s := by
    intro t s
    simp [Topic.setLastSegment, Topic.lastSegment]
  cases produce_cases hp with
  | draining => exact ⟨advances_of_topics_eq rfl, fun rec hrec => by cases hrec⟩
  | noTopic => exact ⟨advances_of_topics_eq rfl, fun rec hrec => by cases hrec⟩
  | @failed topic fs seg e _ ht happ =>
      refine ⟨advances_insert (fun t ht' => ?_) rfl, fun rec hrec => by cases hrec⟩
      obtain rfl := Option.some.inj (ht.symm.trans ht')
      rw [hlast]
      exact (append_nextOffset happ).1
  | @appended topic fs seg offset _ ht happ =>
      obtain ⟨hle, hlt⟩ := append_nextOffset happ
      refine ⟨advances_insert (fun t ht' => ?_) rfl, fun rec hrec => ?_⟩
      · obtain rfl := Option.some.inj (ht.symm.trans ht')
        change _ ≤ (topic.setLastSegment seg).lastSegment.nextOffset
        rw [hlast]
        exact hle
      · obtain rfl := Except.ok.inj hrec
        refine ⟨topic, _, ht, OrdMap.getElem?_insert_self' _ _ _, (append_eq_ok happ).2.1, ?_⟩
        change offset < (topic.setLastSegment seg).lastSegment.nextOffset
        rw [hlast]
        exact hlt offset rfl

/-- `Produce` itself knows nothing of sequence numbers. -/
theorem produce_ne_outOfOrder (json : RecordJson) (env : ProduceEnv) (w : World) (name : String)
    (key value : Bytes) (headers : OrdMap String String) :
    (w.produce json env name key value headers).2 ≠ .error .outOfOrderSequence := by
  have hframe : ∀ (s : Segment) (record : Record),
      (s.writeFrame json env.io w.fs record).2 ≠ .error .outOfOrderSequence := by
    intro s record
    rw [writeFrame_snd]
    split
    · simp
    · split
      · simp
      · split
        · split <;> simp
        · simp
  rcases hp : w.produce json env name key value headers with ⟨w', res⟩
  cases produce_cases hp with
  | draining => simp
  | noTopic => simp
  | failed _ _ happ =>
      intro he
      obtain rfl := Except.error.inj he
      rcases append_eq_error happ with hw | ⟨-, hpersist, -⟩
      · exact hframe _ _ hw
      · cases hpersist
  | appended => simp

end World

namespace CallState

/-- The calls of one producer to one topic that appended a record, in order. -/
def freshOf (st : CallState) (pair : String × String) : List (IdemArgs × Record) :=
  st.fresh.filter fun e => decide (e.1.pair = pair)

/-- The records of each producer are in the log of their topic in the order of their
sequence numbers, and a call fails only for a number that comes too late. -/
structure InOrder (st : CallState) : Prop where
  increasing : ∀ pair, (st.freshOf pair).Pairwise fun e e' =>
    e.1.sequence < e'.1.sequence ∧ e.2.offset < e'.2.offset
  rejected : ∀ e ∈ st.history, ∀ err, e.2 = .error err → err = .outOfOrderSequence

/-- What a call needs: a producer, a `Produce` that succeeds if it gets so far, and, if its
number is not positive and finds no entry, no greater number before it. -/
def Ordered (json : RecordJson) (st : CallState) : CallOp → Prop
  | .call env a => a.producerID ≠ "" ∧
      (st.world.broker.idemCheck a = .proceed →
        st.world.CanProduce json env a.topicName a.key a.value a.headers ∧
          (a.sequence ≤ 0 → st.world.broker.producerSeq[a.seqKey]? = none →
            ∀ e ∈ st.freshOf a.pair, e.1.sequence < a.sequence))
  | _ => True

instance (json : RecordJson) (st : CallState) : ∀ op, Decidable (st.Ordered json op)
  | .createTopic _ _ | .drain _ _ => inferInstanceAs (Decidable True)
  | .call _ _ => inferInstanceAs (Decidable (_ ∧ (_ → _ ∧ (_ → _ → _))))

/-- What the tables of the broker know of the appended records: each is cached, a positive
number has an entry at least as large, all entries are positive, and the counter of its
topic has passed its offset. -/
structure Known (st : CallState) : Prop where
  cached : ∀ e ∈ st.fresh, st.world.broker.dedupCache[e.1.dedupKey]? ≠ none
  last : ∀ e ∈ st.fresh, 0 < e.1.sequence →
    ∃ l, st.world.broker.producerSeq[e.1.seqKey]? = some l ∧ e.1.sequence ≤ l
  positive : ∀ (k : String) (l : ℤ), st.world.broker.producerSeq[k]? = some l → 0 < l
  offsets : ∀ e ∈ st.fresh, ∃ topic, st.world.broker.topics[e.1.topicName]? = some topic ∧
    e.2.offset < topic.lastSegment.nextOffset

variable {json : RecordJson} {st st' : CallState} {op : CallOp}

theorem InOrder.of_append {w w' : World} {history : List Answer} {e : Answer}
    (h : InOrder ⟨w', history ++ [e]⟩) : InOrder ⟨w, history⟩ := by
  refine ⟨fun pair => ?_, fun e' he' => h.rejected e' (List.mem_append_left _ he')⟩
  have hpair := h.increasing pair
  rw [freshOf, fresh_append, List.filter_append] at hpair
  exact (List.pairwise_append.mp hpair).1

/-- Disorder stays in the history. -/
theorem inOrder_of_step (hstep : st.step json op = some st') (h : st'.InOrder) : st.InOrder := by
  cases op with
  | createTopic fault name =>
      obtain rfl := Option.some.inj hstep
      exact ⟨h.increasing, h.rejected⟩
  | drain now d =>
      obtain rfl := Option.some.inj hstep
      exact ⟨h.increasing, h.rejected⟩
  | call env a =>
      obtain rfl := Option.some.inj hstep
      exact h.of_append

theorem Known.setWorld (h : st.Known) {w : World} (hadvance : st.world.Advances w)
    (hcache : w.broker.dedupCache = st.world.broker.dedupCache)
    (hseq : w.broker.producerSeq = st.world.broker.producerSeq) : Known { st with world := w } := by
  refine ⟨by rw [hcache]; exact h.cached, by rw [hseq]; exact h.last,
    by rw [hseq]; exact h.positive, fun e he => ?_⟩
  obtain ⟨topic, ht, hlt⟩ := h.offsets e he
  obtain ⟨topic', ht', hle⟩ := hadvance _ topic ht
  exact ⟨topic', ht', hlt.trans_le hle⟩

/-- The numbers appended so far are smaller than one that the code lets pass, if it is
positive or finds an entry. -/
theorem Known.sequence_lt (h : st.Known) {a : IdemArgs}
    (hcheck : st.world.broker.idemCheck a = .proceed)
    (hguard : 0 < a.sequence ∨ st.world.broker.producerSeq[a.seqKey]? ≠ none)
    {e : IdemArgs × Record} (he : e ∈ st.freshOf a.pair) : e.1.sequence < a.sequence := by
  obtain ⟨hmem, hpair⟩ := List.mem_filter.mp he
  have hpair : e.1.pair = a.pair := of_decide_eq_true hpair
  have hkey := IdemArgs.seqKey_eq_of_pair_eq hpair
  have hnone := Broker.dedupCache_eq_none_of_proceed hcheck
  cases hlast : st.world.broker.producerSeq[a.seqKey]? with
  | none =>
      have hpos : 0 < a.sequence := hguard.resolve_right (not_not.mpr hlast)
      by_contra hge
      obtain ⟨l, hl, -⟩ := h.last e hmem (by omega)
      rw [hkey, hlast] at hl
      cases hl
  | some l =>
      have hle : l ≤ a.sequence := by
        unfold Broker.idemCheck at hcheck
        rw [hnone, hlast] at hcheck
        dsimp only at hcheck
        split at hcheck
        · cases hcheck
        · omega
      have hel : e.1.sequence ≤ l := by
        by_cases hpos : 0 < e.1.sequence
        · obtain ⟨l', hl', hle'⟩ := h.last e hmem hpos
          rw [hkey, hlast] at hl'
          obtain rfl := Option.some.inj hl'
          exact hle'
        · have := h.positive a.seqKey l hlast
          omega
      refine lt_of_le_of_ne (hel.trans hle) fun heq => h.cached e hmem ?_
      rw [(IdemArgs.dedupKey_eq_iff_of_pair_eq hpair).mpr heq, hnone]

/-- A call that appends enters its record in all tables. -/
theorem Known.append (h : st.Known) {env : ProduceEnv} {a : IdemArgs} {w : World} {rec : Record}
    (hp : st.world.produce json env a.topicName a.key a.value a.headers = (w, .ok rec)) :
    Known ⟨{ w with broker := w.broker.idemRecord a rec },
      st.history ++ [(a, .ok (rec, false))]⟩ := by
  obtain ⟨hadvance, hnew⟩ := World.produce_nextOffset hp
  obtain ⟨-, topic', -, ht', -, hlt'⟩ := hnew rec rfl
  obtain ⟨hseq, hcache⟩ := World.tables_of_produce hp
  have hold := h.setWorld hadvance hcache hseq
  have hfresh : ∀ {e}, e ∈ fresh ⟨{ w with broker := w.broker.idemRecord a rec },
      st.history ++ [(a, .ok (rec, false))]⟩ → e ∈ st.fresh ∨ e = (a, rec) := by
    intro e he
    rw [fresh_append] at he
    rcases List.mem_append.mp he with hmem | hmem
    · exact Or.inl hmem
    · exact Or.inr (List.mem_singleton.mp hmem)
  refine ⟨fun e he => ?_, fun e he hpos => ?_, fun k l hl => ?_, fun e he => ?_⟩
  · change (w.broker.dedupCache.insert a.dedupKey rec)[e.1.dedupKey]? ≠ none
    rw [OrdMap.getElem?_insert]
    split
    · simp
    · next hne =>
        rcases hfresh he with hmem | rfl
        · exact hold.cached e hmem
        · exact absurd rfl hne
  · rcases hfresh he with hmem | rfl
    · obtain ⟨l, hl, hle⟩ := hold.last e hmem hpos
      obtain ⟨l', hl', hle'⟩ := Broker.le_producerSeq_idemRecord hl a rec
      exact ⟨l', hl', hle.trans hle'⟩
    · exact w.broker.sequence_le_producerSeq_idemRecord hpos rec
  · exact Broker.producerSeq_idemRecord_pos hold.positive hl
  · rcases hfresh he with hmem | rfl
    · exact hold.offsets e hmem
    · exact ⟨topic', ht', hlt'⟩

theorem InOrder.answer (h : st.InOrder) {e : Answer} (hnone : e.appended = none) (w : World)
    (herr : ∀ err, e.2 = .error err → err = .outOfOrderSequence) :
    InOrder ⟨w, st.history ++ [e]⟩ := by
  refine ⟨fun pair => ?_, fun e' he' => ?_⟩
  · rw [freshOf, fresh_append, hnone, Option.toList_none, List.append_nil]
    exact h.increasing pair
  · rcases List.mem_append.mp he' with hold | hnew
    · exact h.rejected e' hold
    · obtain rfl := List.mem_singleton.mp hnew
      exact herr

/-- An appended record keeps the order exactly if its number exceeds the earlier ones. -/
theorem inOrder_append_iff (h : st.InOrder) (hknown : st.Known) {env : ProduceEnv} {a : IdemArgs}
    {w w' : World} {rec : Record}
    (hp : st.world.produce json env a.topicName a.key a.value a.headers = (w', .ok rec)) :
    InOrder ⟨w, st.history ++ [(a, .ok (rec, false))]⟩ ↔
      ∀ e ∈ st.freshOf a.pair, e.1.sequence < a.sequence := by
  have hfresh : ∀ pair, freshOf ⟨w, st.history ++ [(a, .ok (rec, false))]⟩ pair =
      st.freshOf pair ++ if a.pair = pair then [(a, rec)] else [] := by
    intro pair
    rw [freshOf, fresh_append, List.filter_append]
    congr 1
    by_cases hpair : a.pair = pair
    · simp [Answer.appended, hpair]
    · simp [Answer.appended, hpair]
  constructor
  · intro hin e he
    have hpair := hin.increasing a.pair
    rw [hfresh, if_pos rfl, List.pairwise_append] at hpair
    exact (hpair.2.2 e he (a, rec) (List.mem_singleton_self _)).1
  · intro hlt
    refine ⟨fun pair => ?_, fun e he err herr => ?_⟩
    · rw [hfresh, List.pairwise_append]
      refine ⟨h.increasing pair, by split <;> simp, fun e he e' he' => ?_⟩
      split at he'
      · next heq =>
          obtain rfl := List.mem_singleton.mp he'
          obtain rfl := heq
          refine ⟨hlt e he, ?_⟩
          obtain ⟨hmem, hpair⟩ := List.mem_filter.mp he
          obtain ⟨htopic, -⟩ := Prod.mk.inj (of_decide_eq_true hpair)
          obtain ⟨topic, -, ht, -, hoffset, -⟩ := (World.produce_nextOffset hp).2 rec rfl
          obtain ⟨topic', ht', hlt'⟩ := hknown.offsets e hmem
          rw [htopic, ht] at ht'
          obtain rfl := Option.some.inj ht'
          dsimp only
          rw [hoffset]
          exact hlt'
      · cases he'
    · rcases List.mem_append.mp he with hold | hnew
      · exact h.rejected e hold err herr
      · obtain rfl := List.mem_singleton.mp hnew
        cases herr

/-- A call keeps the order exactly if it finds what it needs. -/
theorem inOrder_call_iff (h : st.InOrder) (hknown : st.Known) (env : ProduceEnv) (a : IdemArgs) :
    InOrder ⟨(st.world.produceIdempotent json env a).1,
        st.history ++ [(a, (st.world.produceIdempotent json env a).2)]⟩ ↔
      st.Ordered json (.call env a) := by
  have hcan := @World.produce_isOk_iff json env st.world a.topicName a.key a.value a.headers
  have hresult := st.world.idemResult json env a
  generalize st.world.produceIdempotent json env a = result at hresult
  have hlast : ∀ {w : World} {res : Except BrokerError (Record × Bool)},
      (a, res) ∈ CallState.history ⟨w, st.history ++ [(a, res)]⟩ :=
    List.mem_append_right _ (List.mem_singleton_self _)
  cases hresult with
  | unnamed hid =>
      refine iff_of_false (fun hin => ?_) fun hneeds => hneeds.1 hid
      exact absurd (hin.rejected _ hlast _ rfl) (by decide)
  | duplicate hid hcached =>
      refine iff_of_true (h.answer rfl _ fun err herr => by cases herr) ⟨hid, fun hproceed => ?_⟩
      rw [Broker.idemCheck_eq_cached_iff.mpr hcached] at hproceed
      cases hproceed
  | late hid hcheck =>
      refine iff_of_true (h.answer rfl _ fun err herr => (Except.error.inj herr).symm)
        ⟨hid, fun hproceed => ?_⟩
      rw [hcheck] at hproceed
      cases hproceed
  | failed hid hcheck hp =>
      refine iff_of_false (fun hin => ?_) fun hneeds => ?_
      · refine World.produce_ne_outOfOrder json env st.world a.topicName a.key a.value a.headers ?_
        rw [hp, hin.rejected _ hlast _ rfl]
      · have hok := hcan.mpr (hneeds.2 hcheck).1
        rw [hp] at hok
        cases hok
  | fresh hid hcheck hp =>
      rw [inOrder_append_iff h hknown hp]
      rw [hp] at hcan
      constructor
      · exact fun hlt => ⟨hid, fun _ => ⟨hcan.mp rfl, fun _ _ => hlt⟩⟩
      · intro hneeds e he
        by_cases hguard : 0 < a.sequence ∨ st.world.broker.producerSeq[a.seqKey]? ≠ none
        · exact hknown.sequence_lt hcheck hguard he
        · rw [not_or, not_lt, not_not] at hguard
          exact (hneeds.2 hcheck).2 hguard.1 hguard.2 e he

theorem Known.step (h : st.Known) (hstep : st.step json op = some st') : st'.Known := by
  cases op with
  | createTopic fault name =>
      obtain rfl := Option.some.inj hstep
      exact h.setWorld (World.createTopic_advances fault st.world name) (by simp) (by simp)
  | drain now d =>
      obtain rfl := Option.some.inj hstep
      exact h.setWorld (World.advances_of_topics_eq rfl) rfl rfl
  | call env a =>
      obtain rfl := Option.some.inj hstep
      have hanswer : ∀ {st : CallState} {e : Answer}, st.Known → e.appended = none →
          Known ⟨st.world, st.history ++ [e]⟩ := by
        intro st e hst hnone
        have hfresh : fresh ⟨st.world, st.history ++ [e]⟩ = st.fresh := by
          rw [fresh_append, hnone]
          exact List.append_nil _
        exact ⟨by rw [hfresh]; exact hst.cached, by rw [hfresh]; exact hst.last, hst.positive,
          by rw [hfresh]; exact hst.offsets⟩
      have hresult := st.world.idemResult json env a
      generalize st.world.produceIdempotent json env a = result at hresult
      cases hresult with
      | unnamed _ => exact hanswer h rfl
      | duplicate _ _ => exact hanswer h rfl
      | late _ _ => exact hanswer h rfl
      | failed _ _ hp =>
          obtain ⟨hseq, hcache⟩ := World.tables_of_produce hp
          exact hanswer (h.setWorld (World.produce_nextOffset hp).1 hcache hseq) rfl
      | fresh _ _ hp => exact h.append hp

theorem known_start (fs : FileTree) (dir : SlashPath) : (start fs (.fresh dir)).Known where
  cached := fun e he => absurd he List.not_mem_nil
  last := fun e he => absurd he List.not_mem_nil
  positive := fun k l hl => by simp [start, Broker.fresh] at hl
  offsets := fun e he => absurd he List.not_mem_nil

/-- A step keeps the order exactly if it starts in order and its call finds what it needs. -/
theorem Known.inOrder_step_iff (h : st.Known) (hstep : st.step json op = some st') :
    st'.InOrder ↔ st.InOrder ∧ st.Ordered json op := by
  refine ⟨fun hin' => ?_, fun ⟨hin, hop⟩ => ?_⟩
  · have hin := inOrder_of_step hstep hin'
    refine ⟨hin, ?_⟩
    cases op with
    | createTopic fault name => trivial
    | drain now d => trivial
    | call env a =>
        obtain rfl := Option.some.inj hstep
        exact (inOrder_call_iff hin h env a).mp hin'
  · cases op with
    | createTopic fault name =>
        obtain rfl := Option.some.inj hstep
        exact ⟨hin.increasing, hin.rejected⟩
    | drain now d =>
        obtain rfl := Option.some.inj hstep
        exact ⟨hin.increasing, hin.rejected⟩
    | call env a =>
        obtain rfl := Option.some.inj hstep
        exact (inOrder_call_iff hin h env a).mpr hop

end CallState

/-- Producer sequences are appended in order, exactly under `Ordered`. For every run of
calls on a new broker, of any producers to any topics with any sequence numbers, between which
topics are created and the broker is drained: the records of each producer are in the log in
the order of their sequence numbers, and every call that neither appended nor found a
duplicate was rejected as out of order, if and only if each call found what it needs. -/
theorem inOrder_iff (json : RecordJson) (fs : FileTree) (dir : SlashPath) {b : Broker}
    (hb : newBroker true dir = .ok b) {ops : List CallOp} {st : CallState}
    (hrun : exec (CallState.step json) (.start fs b) ops = some st) :
    st.InOrder ↔ Guarded (CallState.step json) (CallState.Ordered json) (.start fs b) ops := by
  obtain rfl := eq_fresh_of_newBroker hb
  have hstart : (CallState.start fs (.fresh dir)).InOrder :=
    ⟨fun _ => List.Pairwise.nil, fun e he => absurd he List.not_mem_nil⟩
  rw [iff_guarded CallState.Known CallState.InOrder (fun _ _ _ h hs => h.step hs)
    (fun _ _ _ h hs => h.inOrder_step_iff hs) hrun (CallState.known_start fs dir)]
  exact and_iff_right hstart

/-- Numbers may be repeated, come too late, and start below 0. -/
theorem inOrder_sample :
    ∃ st, exec (CallState.step sampleJson) (.start (fun _ => none) (.fresh ⟨true, ["d"]⟩))
        [.createTopic none "t", .sample 0 (-3), .sample 0 4, .sample 0 4, .sample 0 (-1),
          .sample 0 9] = some st ∧
      st.fresh.map (fun e => (e.1.sequence, e.2.offset)) = [(-3, 0), (4, 1), (9, 2)] ∧
      st.InOrder := by
  obtain ⟨st, hrun, hfresh⟩ : ∃ st, exec (CallState.step sampleJson)
        (.start (fun _ => none) (.fresh ⟨true, ["d"]⟩))
        [.createTopic none "t", .sample 0 (-3), .sample 0 4, .sample 0 4, .sample 0 (-1),
          .sample 0 9] = some st ∧
      st.fresh.map (fun e => (e.1.sequence, e.2.offset)) = [(-3, 0), (4, 1), (9, 2)] :=
    exists_exec_of_any (by decide +kernel)
  exact ⟨st, hrun, hfresh, (inOrder_iff sampleJson (fun _ => none) ⟨true, ["d"]⟩ rfl hrun).mpr
    (by decide +kernel)⟩

/-- Of two negative numbers, the second may be the smaller one. -/
theorem not_inOrder_negative :
    ∃ st, exec (CallState.step sampleJson) (.start (fun _ => none) (.fresh ⟨true, ["d"]⟩))
        [.createTopic none "t", .sample 0 (-1), .sample 0 (-5)] = some st ∧
      (st.freshOf ("t", "p")).map (fun e => (e.1.sequence, e.2.offset)) = [(-1, 0), (-5, 1)] ∧
      ¬ st.InOrder := by
  obtain ⟨st, hrun, hfresh⟩ : ∃ st, exec (CallState.step sampleJson)
        (.start (fun _ => none) (.fresh ⟨true, ["d"]⟩))
        [.createTopic none "t", .sample 0 (-1), .sample 0 (-5)] = some st ∧
      (st.freshOf ("t", "p")).map (fun e => (e.1.sequence, e.2.offset)) = [(-1, 0), (-5, 1)] :=
    exists_exec_of_any (by decide +kernel)
  refine ⟨st, hrun, hfresh, fun hin => ?_⟩
  have hpair := hin.increasing ("t", "p")
  rw [← List.pairwise_map (f := fun e : IdemArgs × Record => (e.1.sequence, e.2.offset))
    (R := fun x y : ℤ × ℤ => x.1 < y.1 ∧ x.2 < y.2), hfresh] at hpair
  exact absurd hpair (by decide)

end StreamFlow
