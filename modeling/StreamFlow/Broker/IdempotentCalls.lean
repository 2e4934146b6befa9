import StreamFlow.Broker.Represents
import StreamFlow.Broker.System
import StreamFlow.Broker.Sample
import StreamFlow.Foundation.Joined

/-!
# Idempotent calls, one at a time

`World.produceIdempotent` is a call of `ProduceIdempotent` whose sections follow each other
without another call between them; `produceIdempotent_sections` says so. `IdemResult` lists
the five ways it can end, and all statements about it are read off there.

A run of such calls keeps a history of what each was asked and what it answered. The
records of the calls that appended are `CallState.fresh`. `idempotent_one_at_a_time` is about
the calls of one producer to one topic.
-/

namespace StreamFlow

open BigEndian Segment Run

namespace IdemArgs

/-- The topic and the producer, for which sequence numbers are counted. -/
def pair (a : IdemArgs) : String × String := (a.topicName, a.producerID)

theorem dedupKey_eq_iff {a a' : IdemArgs} :
    a.dedupKey = a'.dedupKey ↔ a.seqKey = a'.seqKey ∧ a.sequence = a'.sequence :=
  Joined.join_eq_iff rfl (by decide) (by decide)

theorem seqKey_eq_of_pair_eq {a a' : IdemArgs} (h : a.pair = a'.pair) : a.seqKey = a'.seqKey := by
  obtain ⟨htopic, hproducer⟩ := Prod.mk.inj h
  rw [seqKey, seqKey, htopic, hproducer]

theorem dedupKey_eq_iff_of_pair_eq {a a' : IdemArgs} (h : a.pair = a'.pair) :
    a.dedupKey = a'.dedupKey ↔ a.sequence = a'.sequence := by
  rw [dedupKey_eq_iff, and_iff_right (seqKey_eq_of_pair_eq h)]

end IdemArgs

namespace World

/-- `Produce` leaves the two tables of sequence state alone. -/
theorem tables_of_produce {json : RecordJson} {env : ProduceEnv} {w w' : World} {name : String}
    {key value : Bytes} {headers : OrdMap String String} {res : Except BrokerError Record}
    (hp : w.produce json env name key value headers = (w', res)) :
    w'.broker.producerSeq = w.broker.producerSeq ∧
      w'.broker.dedupCache = w.broker.dedupCache := by
  rw [← producerSeq_produce json env w name key value headers,
    ← dedupCache_produce json env w name key value headers, hp]
  exact ⟨rfl, rfl⟩

/-- `ProduceIdempotent`, with no other call between its sections. -/
def produceIdempotent (json : RecordJson) (env : ProduceEnv) (w : World) (a : IdemArgs) :
    World × Except BrokerError (Record × Bool) :=
  if a.producerID = "" then (w, .error .producerIDRequired)
  else
    match w.broker.idemCheck a with
    | .cached rec => (w, .ok (rec, true))
    | .outOfOrder => (w, .error .outOfOrderSequence)
    | .proceed =>
        match w.produce json env a.topicName a.key a.value a.headers with
        | (w, .error e) => (w, .error e)
        | (w, .ok rec) => ({ w with broker := w.broker.idemRecord a rec }, .ok (rec, false))

/-- The ways a call can end. -/
inductive IdemResult (json : RecordJson) (env : ProduceEnv) (w : World) (a : IdemArgs) :
    World × Except BrokerError (Record × Bool) → Prop where
  | unnamed (hid : a.producerID = "") :
      IdemResult json env w a (w, .error .producerIDRequired)
  | duplicate (hid : a.producerID ≠ "") {rec : Record}
      (hcached : w.broker.dedupCache[a.dedupKey]? = some rec) :
      IdemResult json env w a (w, .ok (rec, true))
  | late (hid : a.producerID ≠ "") (hcheck : w.broker.idemCheck a = .outOfOrder) :
      IdemResult json env w a (w, .error .outOfOrderSequence)
  | failed (hid : a.producerID ≠ "") (hcheck : w.broker.idemCheck a = .proceed) {w' : World}
      {e : BrokerError}
      (hp : w.produce json env a.topicName a.key a.value a.headers = (w', .error e)) :
      IdemResult json env w a (w', .error e)
  | fresh (hid : a.producerID ≠ "") (hcheck : w.broker.idemCheck a = .proceed) {w' : World}
      {rec : Record}
      (hp : w.produce json env a.topicName a.key a.value a.headers = (w', .ok rec)) :
      IdemResult json env w a ({ w' with broker := w'.broker.idemRecord a rec }, .ok (rec, false))

theorem idemResult (json : RecordJson) (env : ProduceEnv) (w : World) (a : IdemArgs) :
    w.IdemResult json env a (w.produceIdempotent json env a) := by
  unfold produceIdempotent
  split
  · next hid => exact .unnamed hid
  · next hid =>
      split
      · next rec hcheck => exact .duplicate hid (Broker.idemCheck_eq_cached_iff.mp hcheck)
      · next hcheck => exact .late hid hcheck
      · next hcheck =>
          split
          · next hp => exact .failed hid hcheck hp
          · next hp => exact .fresh hid hcheck hp

end World

/-- The phase in which a call has returned its answer. -/
def IdemPhase.answered : Except BrokerError (Record × Bool) → IdemPhase
  | .ok (rec, duplicate) => .done rec duplicate
  | .error e => .failed e

theorem Sys.idemCheck_of_proceed {s : Sys} {call : ℕ} {a : IdemArgs} (hcall : s.idem[call]? = none)
    (hid : a.producerID ≠ "") (hcheck : s.world.broker.idemCheck a = .proceed) :
    s.idemCheck call a = some (s.setIdem call ⟨a, .checked⟩) := by
  simp [idemCheck, hcall, hid, hcheck]

/-- A call whose sections follow each other is a run of the system. -/
theorem produceIdempotent_sections (json : RecordJson) (env : ProduceEnv) (s : Sys) (call : ℕ)
    (a : IdemArgs) (hcall : s.idem[call]? = none) :
    ∃ actions s', actions <+: [.idemCheck call a, .idemProduce call env, .idemRecord call] ∧
      exec (Sys.step json) s actions = some s' ∧
      s'.world = (s.world.produceIdempotent json env a).1 ∧
      s'.idem[call]? = some ⟨a, .answered (s.world.produceIdempotent json env a).2⟩ := by
  have hself : ∀ (m : OrdMap ℕ IdemCall) (c : IdemCall), (m.insert call c)[call]? = some c :=
    fun m c => OrdMap.getElem?_insert_self' m call c
  have hresult := s.world.idemResult json env a
  generalize s.world.produceIdempotent json env a = result at hresult
  cases hresult with
  | unnamed hid =>
      refine ⟨[.idemCheck call a], s.setIdem call ⟨a, .failed .producerIDRequired⟩, by simp, ?_,
        rfl, hself _ _⟩
      exact exec_cons_eq_some_iff.mpr ⟨_, by simp [Sys.step, Sys.idemCheck, hcall, hid], rfl⟩
  | @duplicate hid rec hcached =>
      have hcheck := Broker.idemCheck_eq_cached_iff.mpr hcached
      refine ⟨[.idemCheck call a], s.setIdem call ⟨a, .done rec true⟩, by simp, ?_, rfl, hself _ _⟩
      refine exec_cons_eq_some_iff.mpr ⟨_, ?_, rfl⟩
      simp [Sys.step, Sys.idemCheck, hcall, hid, hcheck]
  | late hid hcheck =>
      refine ⟨[.idemCheck call a], s.setIdem call ⟨a, .failed .outOfOrderSequence⟩, by simp, ?_,
        rfl, hself _ _⟩
      refine exec_cons_eq_some_iff.mpr ⟨_, ?_, rfl⟩
      simp [Sys.step, Sys.idemCheck, hcall, hid, hcheck]
  | @failed hid hcheck w' e hp =>
      refine ⟨[.idemCheck call a, .idemProduce call env],
        ((s.setIdem call ⟨a, .checked⟩).produce json env (.idem call a) a.topicName a.key a.value
          a.headers).1.setIdem call ⟨a, .failed e⟩,
        by simp, ?_, by simp [Sys.setIdem, Sys.produce, hp], hself _ _⟩
      refine exec_cons_eq_some_iff.mpr ⟨_, Sys.idemCheck_of_proceed hcall hid hcheck, ?_⟩
      refine exec_cons_eq_some_iff.mpr ⟨_, ?_, rfl⟩
      simp [Sys.step, Sys.idemProduce, Sys.setIdem, Sys.produce, hp]
  | @fresh hid hcheck w' rec hp =>
      refine ⟨[.idemCheck call a, .idemProduce call env, .idemRecord call],
        (((((s.setIdem call ⟨a, .checked⟩).produce json env (.idem call a) a.topicName a.key a.value
          a.headers).1.setIdem call ⟨a, .produced rec⟩).setBroker
            (w'.broker.idemRecord a rec)).setIdem call ⟨a, .done rec false⟩),
        List.prefix_rfl, ?_, by simp [Sys.setIdem, Sys.setBroker, Sys.produce, hp], hself _ _⟩
      refine exec_cons_eq_some_iff.mpr ⟨_, Sys.idemCheck_of_proceed hcall hid hcheck, ?_⟩
      refine exec_cons_eq_some_iff.mpr
        ⟨((s.setIdem call ⟨a, .checked⟩).produce json env (.idem call a) a.topicName a.key a.value
          a.headers).1.setIdem call ⟨a, .produced rec⟩, ?_, ?_⟩
      · simp [Sys.step, Sys.idemProduce, Sys.setIdem, Sys.produce, hp]
      · refine exec_cons_eq_some_iff.mpr ⟨_, ?_, rfl⟩
        simp [Sys.step, Sys.idemRecord, Sys.setIdem, Sys.setBroker, Sys.produce, hp]

/-- A call and its answer. -/
abbrev Answer := IdemArgs × Except BrokerError (Record × Bool)

/-- The record a call has appended, as its answer tells. -/
def Answer.appended : Answer → Option (IdemArgs × Record)
  | (a, .ok (rec, false)) => some (a, rec)
  | _ => none

theorem Answer.appended_eq_some_iff {e : Answer} {a : IdemArgs} {rec : Record} :
    Answer.appended e = some (a, rec) ↔ e = (a, .ok (rec, false)) := by
  obtain ⟨a', res⟩ := e
  match res with
  | .ok (rec', false) => simp [appended]
  | .ok (rec', true) => simp [appended]
  | .error e => simp [appended]

/-- A broker that serves one call after the other, and all answers so far. -/
structure CallState where
  world : World
  history : List Answer

inductive CallOp where
  | createTopic (fault : Option CreateFault) (name : String)
  | drain (now d : Time)
  | call (env : ProduceEnv) (a : IdemArgs)

namespace CallState

def step (json : RecordJson) (st : CallState) : CallOp → Option CallState
  | .createTopic fault name => some { st with world := (st.world.createTopic fault name).1 }
  | .drain now d =>
      some { st with world := { st.world with broker := st.world.broker.drain now d } }
  | .call env a =>
      some ⟨(st.world.produceIdempotent json env a).1,
        st.history ++ [(a, (st.world.produceIdempotent json env a).2)]⟩

/-- The calls that appended a record, in order. -/
def fresh (st : CallState) : List (IdemArgs × Record) := st.history.filterMap Answer.appended

@[simp] theorem fresh_append (w : World) (history : List Answer) (e : Answer) :
    fresh ⟨w, history ++ [e]⟩ = fresh ⟨w, history⟩ ++ e.appended.toList := by
  rw [fresh, fresh, List.filterMap_append]
  cases h : e.appended with
  | none => simp [h]
  | some r => simp [h]

theorem mem_fresh_iff {st : CallState} {a : IdemArgs} {rec : Record} :
    (a, rec) ∈ st.fresh ↔ (a, .ok (rec, false)) ∈ st.history := by
  simp [fresh, Answer.appended_eq_some_iff]

/-- The calls of one producer to one topic, whose files can be written; topics are created
in directories of their own. -/
def OneProducer (topic producerID : String) (st : CallState) : CallOp → Prop
  | .createTopic _ name => st.world.OwnDir name
  | .drain _ _ => True
  | .call env a => a.pair = (topic, producerID) ∧ env.io = .ok

instance (topic producerID : String) (st : CallState) :
    ∀ op, Decidable (st.OneProducer topic producerID op)
  | .createTopic _ name => inferInstanceAs (Decidable (st.world.OwnDir name))
  | .drain _ _ => inferInstanceAs (Decidable True)
  | .call _ _ => inferInstanceAs (Decidable (_ ∧ _))

/-- The log of the topic consists of the records of the calls that appended. They have
different sequence numbers, and the cache holds just these records. -/
structure Inv (json : RecordJson) (topic producerID : String) (st : CallState)
    (logs : String → List Record) : Prop where
  counted : st.world.Counted json logs
  log : logs topic = st.fresh.map Prod.snd
  nodup : (st.fresh.map fun e => e.1.sequence).Nodup
  cache : ∀ a : IdemArgs, a.pair = (topic, producerID) → ∀ rec,
    st.world.broker.dedupCache[a.dedupKey]? = some rec ↔
      ∃ e ∈ st.fresh, e.1.sequence = a.sequence ∧ e.2 = rec
  answered : ∀ e ∈ st.history, ∀ rec duplicate, e.2 = .ok (rec, duplicate) →
    ∃ e' ∈ st.fresh, e'.1.sequence = e.1.sequence ∧ e'.2 = rec
  named : st.fresh ≠ [] → producerID ≠ ""

variable {json : RecordJson} {topic producerID : String} {st st' : CallState}
  {logs : String → List Record}

/-- Calls that neither append nor touch the cache keep the invariant. -/
theorem Inv.setWorld (h : st.Inv json topic producerID logs) {w : World}
    (hw : w.Counted json logs) (hcache : w.broker.dedupCache = st.world.broker.dedupCache) :
    Inv json topic producerID { st with world := w } logs :=
  ⟨hw, h.log, h.nodup, by rw [hcache]; exact h.cache, h.answered, h.named⟩

/-- An answer that tells of no new record is added to the history. -/
theorem Inv.answer (h : st.Inv json topic producerID logs) {e : Answer}
    (hnone : e.appended = none)
    (hrec : ∀ rec duplicate, e.2 = .ok (rec, duplicate) →
      ∃ e' ∈ st.fresh, e'.1.sequence = e.1.sequence ∧ e'.2 = rec) :
    Inv json topic producerID ⟨st.world, st.history ++ [e]⟩ logs := by
  have hfresh : fresh ⟨st.world, st.history ++ [e]⟩ = st.fresh := by
    rw [fresh_append, hnone]
    exact List.append_nil _
  refine ⟨h.counted, by rw [hfresh]; exact h.log, by rw [hfresh]; exact h.nodup,
    by rw [hfresh]; exact h.cache, ?_, by rw [hfresh]; exact h.named⟩
  rw [hfresh]
  intro e' he'
  rcases List.mem_append.mp he' with hold | hnew
  · exact h.answered e' hold
  · obtain rfl := List.mem_singleton.mp hnew
    exact hrec

/-- A call with a new sequence number extends the log and the cache. -/
theorem Inv.append (h : st.Inv json topic producerID logs) {a : IdemArgs}
    (ha : a.pair = (topic, producerID)) (hid : a.producerID ≠ "")
    (hnew : st.world.broker.dedupCache[a.dedupKey]? = none)
    {w : World} {rec : Record}
    (hw : w.Counted json (Function.update logs topic (logs topic ++ [rec])))
    (hcache : w.broker.dedupCache = st.world.broker.dedupCache.insert a.dedupKey rec) :
    Inv json topic producerID ⟨w, st.history ++ [(a, .ok (rec, false))]⟩
      (Function.update logs topic (logs topic ++ [rec])) := by
  have hfresh : fresh ⟨w, st.history ++ [(a, .ok (rec, false))]⟩ = st.fresh ++ [(a, rec)] :=
    fresh_append _ _ _
  have hnotin : ∀ e ∈ st.fresh, e.1.sequence ≠ a.sequence := by
    intro e he hseq
    rw [(h.cache a ha e.2).mpr ⟨e, he, hseq, rfl⟩] at hnew
    cases hnew
  refine ⟨hw, ?_, ?_, ?_, ?_, fun _ => (Prod.mk.inj ha).2 ▸ hid⟩
  · rw [hfresh, Function.update_self, h.log, List.map_append]
    rfl
  · rw [hfresh, List.map_append, List.nodup_append]
    refine ⟨h.nodup, List.nodup_singleton _, ?_⟩
    intro n hn m hm
    obtain ⟨e, he, rfl⟩ := List.mem_map.mp hn
    obtain rfl := List.mem_singleton.mp hm
    exact hnotin e he
  · intro a' ha' rec'
    have hkey := IdemArgs.dedupKey_eq_iff_of_pair_eq (ha.trans ha'.symm)
    have hsplit : (∃ e ∈ st.fresh ++ [(a, rec)], e.1.sequence = a'.sequence ∧ e.2 = rec') ↔
        (∃ e ∈ st.fresh, e.1.sequence = a'.sequence ∧ e.2 = rec') ∨
          a.sequence = a'.sequence ∧ rec = rec' := by
      simp only [List.mem_append, List.mem_singleton, or_and_right, exists_or, exists_eq_left]
    rw [hcache, hfresh, OrdMap.getElem?_insert, hsplit, ← h.cache a' ha' rec']
    split
    · next heq =>
        rw [← heq, hnew, Option.some.injEq, or_iff_right nofun, and_iff_right (hkey.mp heq)]
    · next hne => rw [or_iff_left fun hlast => hne (hkey.mpr hlast.1)]
  · rw [hfresh]
    intro e he rec' duplicate hok
    rcases List.mem_append.mp he with hold | hnew
    · obtain ⟨e', he', hrest⟩ := h.answered e hold rec' duplicate hok
      exact ⟨e', List.mem_append_left _ he', hrest⟩
    · obtain rfl := List.mem_singleton.mp hnew
      obtain ⟨rfl, -⟩ := Prod.mk.inj (Except.ok.inj hok)
      exact ⟨(a, rec), List.mem_append_right _ (List.mem_singleton_self _), rfl, rfl⟩

end CallState

namespace World

variable {json : RecordJson} {env : ProduceEnv} {w : World} {a : IdemArgs}
  {logs : String → List Record}

/-- A call reports a duplicate exactly when the cache knows its key. -/
theorem produceIdempotent_duplicate_iff {rec : Record} :
    (w.produceIdempotent json env a).2 = .ok (rec, true) ↔
      a.producerID ≠ "" ∧ w.broker.dedupCache[a.dedupKey]? = some rec := by
  constructor
  · intro hres
    have hresult := w.idemResult json env a
    generalize w.produceIdempotent json env a = result at hresult hres
    cases hresult with
    | unnamed _ => cases hres
    | duplicate hid hcached =>
        obtain ⟨rfl, -⟩ := Prod.mk.inj (Except.ok.inj hres)
        exact ⟨hid, hcached⟩
    | late _ _ => cases hres
    | failed _ _ _ => cases hres
    | fresh _ _ _ => cases hres
  · rintro ⟨hid, hcached⟩
    rw [produceIdempotent, if_neg hid, Broker.idemCheck_eq_cached_iff.mpr hcached]

/-- A call that fails changes nothing in the broker, when the files can be written. -/
theorem Counted.produceIdempotent_error (h : w.Counted json logs) (hio : env.io = .ok)
    {e : BrokerError} (he : (w.produceIdempotent json env a).2 = .error e) :
    (w.produceIdempotent json env a).1.broker = w.broker ∧
      (w.produceIdempotent json env a).1.Counted json logs := by
  have hresult := w.idemResult json env a
  generalize w.produceIdempotent json env a = result at hresult he
  cases hresult with
  | unnamed _ => exact ⟨rfl, h⟩
  | duplicate _ _ => exact ⟨rfl, h⟩
  | late _ _ => exact ⟨rfl, h⟩
  | failed _ _ hp =>
      rcases h.produce (by rw [hio]; rfl) (by rw [hio]; rfl) hp with
        ⟨-, -, hb, hcounted⟩ | ⟨rec, topics, hok, -⟩
      · exact ⟨hb, hcounted⟩
      · cases hok
  | fresh _ _ _ => cases he

end World

namespace CallState

variable {json : RecordJson} {topic producerID : String} {st st' : CallState}
  {logs : String → List Record}

theorem Inv.call (h : st.Inv json topic producerID logs) {env : ProduceEnv} {a : IdemArgs}
    (ha : a.pair = (topic, producerID)) (hio : env.io = .ok) :
    ∃ logs', Inv json topic producerID
      ⟨(st.world.produceIdempotent json env a).1,
        st.history ++ [(a, (st.world.produceIdempotent json env a).2)]⟩ logs' := by
  have herror := @World.Counted.produceIdempotent_error json env st.world a logs h.counted hio
  have hresult := st.world.idemResult json env a
  generalize st.world.produceIdempotent json env a = result at hresult herror
  cases hresult with
  | unnamed _ => exact ⟨logs, h.answer rfl fun rec duplicate hok => by cases hok⟩
  | duplicate _ hcached =>
      refine ⟨logs, h.answer rfl fun rec duplicate hok => ?_⟩
      obtain ⟨rfl, -⟩ := Prod.mk.inj (Except.ok.inj hok)
      exact (h.cache a ha _).mp hcached
  | late _ _ => exact ⟨logs, h.answer rfl fun rec duplicate hok => by cases hok⟩
  | failed _ _ _ =>
      obtain ⟨hb, hcounted⟩ := herror rfl
      have hworld := h.setWorld hcounted (congrArg Broker.dedupCache hb)
      exact ⟨logs, hworld.answer rfl fun rec duplicate hok => by cases hok⟩
  | fresh hid hcheck hp =>
      rcases h.counted.produce (by rw [hio]; rfl) (by rw [hio]; rfl) hp with
        ⟨e, herr, -⟩ | ⟨rec, topics, hok, -, hb, hcounted⟩
      · cases herr
      · obtain rfl := Except.ok.inj hok
        obtain ⟨rfl, -⟩ := Prod.mk.inj ha
        refine ⟨_, h.append ha hid (Broker.dedupCache_eq_none_of_proceed hcheck)
          (hcounted.congr_broker ?_ ?_) ?_⟩
        · rfl
        · rfl
        · rw [Broker.idemRecord, hb]

theorem Inv.step (h : st.Inv json topic producerID logs) {op : CallOp}
    (hop : st.OneProducer topic producerID op) (hstep : st.step json op = some st') :
    ∃ logs', st'.Inv json topic producerID logs' := by
  cases op with
  | createTopic fault name =>
      obtain rfl := Option.some.inj hstep
      exact ⟨logs, h.setWorld (h.counted.createTopic hop Prod.mk.eta.symm) (by simp)⟩
  | drain now d =>
      obtain rfl := Option.some.inj hstep
      exact ⟨logs, h.setWorld (h.counted.congr_broker rfl rfl) rfl⟩
  | call env a =>
      obtain rfl := Option.some.inj hstep
      exact h.call hop.1 hop.2

/-- A broker before the first call. -/
def start (fs : FileTree) (b : Broker) : CallState := ⟨⟨fs, b⟩, []⟩

theorem inv_start {fs : FileTree} {dir : SlashPath}
    (hfs : ∀ name, ∀ p ∈ files ((Broker.fresh dir).segmentDir name), fs p = none) :
    (start fs (.fresh dir)).Inv json topic producerID fun _ => [] where
  counted := .start rfl hfs
  log := rfl
  nodup := List.nodup_nil
  cache := fun a _ rec => by simp [start, Broker.fresh, fresh]
  answered := fun e he => absurd he List.not_mem_nil
  named := fun hne => absurd rfl hne

end CallState

/-- Idempotent produce, one call at a time. After every run of calls of one producer to one
topic, with any sequence numbers, between which topics are created and the broker is
drained: the log of the topic consists of the records of the calls that appended one, and no
sequence number occurs twice among them. The next call reports a duplicate exactly when an
earlier call with its sequence number has succeeded, and returns the record of that call; and
if it fails, the logs and the whole broker are as before. -/
theorem idempotent_one_at_a_time (json : RecordJson) (fs : FileTree) (dir : SlashPath)
    {b : Broker} (hb : newBroker true dir = .ok b)
    (hfs : ∀ name, ∀ p ∈ files (b.segmentDir name), fs p = none) (topic producerID : String)
    {ops : List CallOp} {st : CallState}
    (hrun : exec (CallState.step json) (.start fs b) ops = some st)
    (hops : Guarded (CallState.step json) (CallState.OneProducer topic producerID)
      (.start fs b) ops) :
    ∃ logs, st.world.Serves json logs ∧ logs topic = st.fresh.map Prod.snd ∧
      (st.fresh.map fun e => e.1.sequence).Nodup ∧
      ∀ env a, a.pair = (topic, producerID) → env.io = .ok →
        (∀ rec, (st.world.produceIdempotent json env a).2 = .ok (rec, true) ↔
          ∃ e ∈ st.history, e.1.sequence = a.sequence ∧
            ∃ duplicate, e.2 = .ok (rec, duplicate)) ∧
        ∀ e, (st.world.produceIdempotent json env a).2 = .error e →
          (st.world.produceIdempotent json env a).1.Serves json logs ∧
            (st.world.produceIdempotent json env a).1.broker = st.world.broker := by
  obtain rfl := eq_fresh_of_newBroker hb
  obtain ⟨logs, hinv⟩ := invariant_of_guarded (fun s => ∃ logs, s.Inv json topic producerID logs)
    (fun s op s' ⟨logs, h⟩ hop hstep => h.step hop hstep) hrun hops
    ⟨_, CallState.inv_start hfs⟩
  refine ⟨logs, hinv.counted.serves, hinv.log, hinv.nodup, fun env a ha hio => ⟨fun rec => ?_, ?_⟩⟩
  · rw [World.produceIdempotent_duplicate_iff, hinv.cache a ha]
    constructor
    · rintro ⟨-, e, he, hseq, rfl⟩
      exact ⟨_, CallState.mem_fresh_iff.mp he, hseq, false, rfl⟩
    · rintro ⟨e, he, hseq, duplicate, hok⟩
      obtain ⟨e', he', hseq', hrec⟩ := hinv.answered e he rec duplicate hok
      refine ⟨?_, e', he', hseq'.trans hseq, hrec⟩
      rw [(Prod.mk.inj ha).2]
      exact hinv.named (List.ne_nil_of_mem he')
  · intro e he
    obtain ⟨hb, hcounted⟩ := hinv.counted.produceIdempotent_error hio he
    exact ⟨hcounted.serves, hb⟩

/-- A sample call at a given time. -/
def CallOp.sample (now : Time) (sequence : ℤ) : CallOp :=
  .call ⟨now, 0, .ok⟩ ⟨"t", asciiBytes "k", asciiBytes "v", ∅, "p", sequence⟩

/-- Calls before the topic exists, with a repeated number, while the broker drains, again
afterwards, and with a number that comes too late. -/
theorem idempotent_one_at_a_time_sample :
    ∃ st logs, exec (CallState.step sampleJson) (.start (fun _ => none) (.fresh ⟨true, ["d"]⟩))
        [.sample 0 5, .createTopic none "t", .sample 0 5, .sample 0 5, .drain 10 5, .sample 12 7,
          .sample 16 7, .sample 17 3] = some st ∧
      st.history.map Prod.snd =
        [.error (.topicNotFound "t"), .ok (sampleRecord 0, false), .ok (sampleRecord 0, true),
          .error .draining, .ok (sampleRecord 1, false), .error .outOfOrderSequence] ∧
      st.world.Serves sampleJson logs ∧ logs "t" = [sampleRecord 0, sampleRecord 1] := by
  obtain ⟨st, hrun, hhistory, hfresh⟩ : ∃ st, exec (CallState.step sampleJson)
        (.start (fun _ => none) (.fresh ⟨true, ["d"]⟩))
        [.sample 0 5, .createTopic none "t", .sample 0 5, .sample 0 5, .drain 10 5, .sample 12 7,
          .sample 16 7, .sample 17 3] = some st ∧
      st.history.map Prod.snd =
        [.error (.topicNotFound "t"), .ok (sampleRecord 0, false), .ok (sampleRecord 0, true),
          .error .draining, .ok (sampleRecord 1, false), .error .outOfOrderSequence] ∧
      st.fresh.map Prod.snd = [sampleRecord 0, sampleRecord 1] :=
    exists_exec_of_any (by decide +kernel)
  obtain ⟨logs, hserves, hlog, -⟩ := idempotent_one_at_a_time sampleJson (fun _ => none)
    ⟨true, ["d"]⟩ rfl (fun _ _ _ => rfl) "t" "p" hrun (by decide +kernel)
  exact ⟨st, logs, hrun, hhistory, hserves, hlog.trans hfresh⟩

end StreamFlow
