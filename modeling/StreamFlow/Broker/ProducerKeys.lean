import StreamFlow.Broker.IdempotentCalls
import StreamFlow.Broker.Success
import Mathlib.Data.Set.Function

/-!
# Producers that do not interfere

The broker keeps the sequence state of all producers in two tables, under keys joined from the
topic, the producer and the sequence number. The abstract behaviour is `SeqTables`: every pair
of a topic and a producer has a state of its own, which no other pair sets or reads.

`separate_iff` compares the two. The calls of a set of pairs get the answers they would get
from states of their own if and only if no two pairs of the set are joined to the same text.
A producer may contain the separator, so this can happen.
-/

namespace StreamFlow

open BigEndian Segment Run

/-- Sequence state kept for each topic and producer by itself. -/
structure SeqTables where
  last : String × String → Option ℤ
  cached : String × String × ℤ → Option Record

namespace SeqTables

def empty : SeqTables := ⟨fun _ => none, fun _ => none⟩

/-- What `Broker.idemCheck` should see. -/
def check (t : SeqTables) (a : IdemArgs) : IdemCheck :=
  match t.cached a.triple with
  | some cached => .cached cached
  | none =>
      match t.last a.pair with
      | some last => if a.sequence < last then .outOfOrder else .proceed
      | none => .proceed

/-- What `Broker.idemRecord` should do. -/
def record (t : SeqTables) (a : IdemArgs) (rec : Record) : SeqTables where
  last :=
    if (t.last a.pair).getD 0 < a.sequence then Function.update t.last a.pair (some a.sequence)
    else t.last
  cached := Function.update t.cached a.triple (some rec)

end SeqTables

/-- A broker with separate sequence states, and all answers so far. -/
structure SeparateState where
  world : World
  tables : SeqTables
  history : List Answer

namespace SeparateState

/-- `ProduceIdempotent` on separate sequence states. -/
def call (json : RecordJson) (env : ProduceEnv) (st : SeparateState) (a : IdemArgs) :
    SeparateState :=
  if a.producerID = "" then
    { st with history := st.history ++ [(a, .error .producerIDRequired)] }
  else
    match st.tables.check a with
    | .cached rec => { st with history := st.history ++ [(a, .ok (rec, true))] }
    | .outOfOrder => { st with history := st.history ++ [(a, .error .outOfOrderSequence)] }
    | .proceed =>
        match st.world.produce json env a.topicName a.key a.value a.headers with
        | (w, .error e) => ⟨w, st.tables, st.history ++ [(a, .error e)]⟩
        | (w, .ok rec) => ⟨w, st.tables.record a rec, st.history ++ [(a, .ok (rec, false))]⟩

def step (json : RecordJson) (st : SeparateState) : CallOp → Option SeparateState
  | .createTopic fault name => some { st with world := (st.world.createTopic fault name).1 }
  | .drain now d =>
      some { st with world := { st.world with broker := st.world.broker.drain now d } }
  | .call env a => some (st.call json env a)

def start (fs : FileTree) (b : Broker) : SeparateState := ⟨⟨fs, b⟩, .empty, []⟩

end SeparateState

namespace World

/-- The same broker with empty tables of sequence state. -/
def forget (w : World) : World :=
  { w with broker := { w.broker with producerSeq := ∅, dedupCache := ∅ } }

theorem createTopic_forget (fault : Option CreateFault) (w : World) (name : String) :
    (w.forget.createTopic fault name).1 = (w.createTopic fault name).1.forget := by
  unfold createTopic
  simp only [forget]
  cases w.broker.topics[name]? with
  | some topic => rfl
  | none =>
      dsimp only
      split
      · rfl
      · split <;> rfl

theorem produce_forget (json : RecordJson) (env : ProduceEnv) (w : World) (name : String)
    (key value : Bytes) (headers : OrdMap String String) :
    w.forget.produce json env name key value headers =
      ((w.produce json env name key value headers).1.forget,
        (w.produce json env name key value headers).2) := by
  have hdrain : w.forget.broker.isDrainingLocked env.now = w.broker.isDrainingLocked env.now := rfl
  unfold produce
  rw [hdrain]
  split
  · rfl
  · simp only [forget]
    cases w.broker.topics[name]? with
    | none => rfl
    | some topic =>
        dsimp only
        split <;> rfl

end World

/-- The calls of the run belong to pairs of the set. -/
def CallOp.Within (S : Set (String × String)) : CallOp → Prop
  | .call _ a => a.pair ∈ S
  | _ => True

/-- The key of the last sequence number, as a function of the pair. -/
def pairKey (x : String × String) : String := x.1 ++ "|" ++ x.2

/-- The calls of the pairs in `S` get the answers they would get from sequence states of their
own. In particular, a call with a new topic, producer and sequence number never gets a
duplicate, and its record is appended to its own topic. -/
def Separate (json : RecordJson) (S : Set (String × String)) : Prop :=
  ∀ (fs : FileTree) (dir : SlashPath) (ops : List CallOp) (st : CallState) (sep : SeparateState),
    (∀ op ∈ ops, op.Within S) → exec (CallState.step json) (.start fs (.fresh dir)) ops = some st →
    exec (SeparateState.step json) (.start fs (.fresh dir)) ops = some sep →
    st.history = sep.history ∧
      ∀ env a, a.pair ∈ S → (∀ e ∈ st.history, e.1.triple ≠ a.triple) →
        ∀ rec duplicate, (st.world.produceIdempotent json env a).2 = .ok (rec, duplicate) →
          duplicate = false ∧ ∃ record offset,
            st.world.appended json env a.topicName a.key a.value a.headers = some record ∧
              rec = { record with offset := offset }

/-- The two brokers have the same files, topics and answers, and agree on the sequence states
of the pairs in `S`; every cached record belongs to an earlier call. -/
structure Agree (S : Set (String × String)) (st : CallState) (sep : SeparateState) : Prop where
  world : sep.world = st.world.forget
  history : st.history = sep.history
  last : ∀ a : IdemArgs, a.pair ∈ S →
    st.world.broker.producerSeq[a.seqKey]? = sep.tables.last a.pair
  cached : ∀ a : IdemArgs, a.pair ∈ S →
    st.world.broker.dedupCache[a.dedupKey]? = sep.tables.cached a.triple
  used : ∀ t, sep.tables.cached t ≠ none → ∃ e ∈ sep.history, e.1.triple = t

namespace Agree

variable {json : RecordJson} {S : Set (String × String)} {st : CallState} {sep : SeparateState}

theorem check_eq (h : Agree S st sep) {a : IdemArgs} (ha : a.pair ∈ S) :
    sep.tables.check a = st.world.broker.idemCheck a := by
  have hlast := h.last a ha
  have hcached := h.cached a ha
  unfold SeqTables.check Broker.idemCheck
  cases hc : sep.tables.cached a.triple with
  | some cached =>
      rw [hc] at hcached
      simp only [hcached]
  | none =>
      rw [hc] at hcached
      cases hl : sep.tables.last a.pair with
      | none =>
          rw [hl] at hlast
          simp only [hcached, hlast]
      | some last =>
          rw [hl] at hlast
          simp only [hcached, hlast]

/-- A call that appends nothing. -/
theorem answer (h : Agree S st sep) (e : Answer) :
    Agree S ⟨st.world, st.history ++ [e]⟩ { sep with history := sep.history ++ [e] } := by
  refine ⟨h.world, congrArg (· ++ [e]) h.history, h.last, h.cached, fun t ht => ?_⟩
  obtain ⟨e', he', htriple⟩ := h.used t ht
  exact ⟨e', List.mem_append_left _ he', htriple⟩

theorem setWorld (h : Agree S st sep) {w : World}
    (hseq : w.broker.producerSeq = st.world.broker.producerSeq)
    (hcache : w.broker.dedupCache = st.world.broker.dedupCache) :
    Agree S { st with world := w } { sep with world := w.forget } :=
  ⟨rfl, h.history, by rw [hseq]; exact h.last, by rw [hcache]; exact h.cached, h.used⟩

/-- A call that appends sets the state of its own pair in both brokers, since no other pair
of the set has its key. -/
theorem record (h : Agree S st sep) (hinj : Set.InjOn pairKey S) {a : IdemArgs} (ha : a.pair ∈ S)
    (rec : Record) :
    Agree S ⟨{ st.world with broker := st.world.broker.idemRecord a rec },
        st.history ++ [(a, .ok (rec, false))]⟩
      ⟨sep.world, sep.tables.record a rec, sep.history ++ [(a, .ok (rec, false))]⟩ := by
  have hkey : ∀ a' : IdemArgs, a'.pair ∈ S → (a.seqKey = a'.seqKey ↔ a'.pair = a.pair) :=
    fun a' ha' => ⟨fun heq => (hinj ha ha' heq).symm,
      fun heq => IdemArgs.seqKey_eq_of_pair_eq heq.symm⟩
  refine ⟨h.world, congrArg (· ++ [_]) h.history, fun a' ha' => ?_, fun a' ha' => ?_,
    fun t ht => ?_⟩
  · dsimp only
    rw [Broker.producerSeq_idemRecord, h.last a ha, h.last a' ha', SeqTables.record]
    simp only [hkey a' ha']
    by_cases hlt : (sep.tables.last a.pair).getD 0 < a.sequence
    · rw [if_pos hlt, Function.update_apply]
      simp only [hlt, and_true]
    · rw [if_neg hlt, if_neg fun hc => hlt hc.2]
  · change (st.world.broker.dedupCache.insert a.dedupKey rec)[a'.dedupKey]? =
      Function.update sep.tables.cached a.triple (some rec) a'.triple
    have htriple : a.dedupKey = a'.dedupKey ↔ a'.triple = a.triple := by
      rw [IdemArgs.dedupKey_eq_iff, hkey a' ha']
      constructor
      · rintro ⟨hpair, hseq⟩
        obtain ⟨htopic, hproducer⟩ := Prod.mk.inj hpair
        exact Prod.ext htopic (Prod.ext hproducer hseq.symm)
      · intro heq
        obtain ⟨htopic, hrest⟩ := Prod.mk.inj heq
        obtain ⟨hproducer, hseq⟩ := Prod.mk.inj hrest
        exact ⟨Prod.ext htopic hproducer, hseq.symm⟩
    rw [OrdMap.getElem?_insert, Function.update_apply, h.cached a' ha']
    simp only [htriple]
  · by_cases heq : t = a.triple
    · exact ⟨_, List.mem_append_right _ (List.mem_singleton_self _), heq.symm⟩
    · change Function.update sep.tables.cached a.triple (some rec) t ≠ none at ht
      rw [Function.update_of_ne heq] at ht
      obtain ⟨e, he, htriple⟩ := h.used t ht
      exact ⟨e, List.mem_append_left _ he, htriple⟩

theorem call (h : Agree S st sep) (hinj : Set.InjOn pairKey S) (env : ProduceEnv) {a : IdemArgs}
    (ha : a.pair ∈ S) :
    Agree S ⟨(st.world.produceIdempotent json env a).1,
      st.history ++ [(a, (st.world.produceIdempotent json env a).2)]⟩ (sep.call json env a) := by
  have hproduce := World.produce_forget json env st.world a.topicName a.key a.value a.headers
  rw [← h.world] at hproduce
  unfold SeparateState.call
  rw [h.check_eq ha, hproduce]
  have hresult := st.world.idemResult json env a
  generalize st.world.produceIdempotent json env a = result at hresult
  cases hresult with
  | unnamed hid =>
      rw [if_pos hid]
      exact h.answer _
  | duplicate hid hcached =>
      rw [if_neg hid, Broker.idemCheck_eq_cached_iff.mpr hcached]
      exact h.answer _
  | late hid hcheck =>
      rw [if_neg hid, hcheck]
      exact h.answer _
  | failed hid hcheck hp =>
      rw [if_neg hid, hcheck, hp]
      obtain ⟨hseq, hcache⟩ := World.tables_of_produce hp
      exact (h.setWorld hseq hcache).answer _
  | fresh hid hcheck hp =>
      rw [if_neg hid, hcheck, hp]
      obtain ⟨hseq, hcache⟩ := World.tables_of_produce hp
      exact (h.setWorld hseq hcache).record hinj ha _

theorem step (h : Agree S st sep) (hinj : Set.InjOn pairKey S) {op : CallOp} (hop : op.Within S)
    {st' : CallState} {sep' : SeparateState} (hstep : st.step json op = some st')
    (hsep : sep.step json op = some sep') : Agree S st' sep' := by
  cases op with
  | createTopic fault name =>
      obtain rfl := Option.some.inj hstep
      obtain rfl := Option.some.inj hsep
      rw [h.world, World.createTopic_forget]
      exact h.setWorld (by simp) (by simp)
  | drain now d =>
      obtain rfl := Option.some.inj hstep
      obtain rfl := Option.some.inj hsep
      rw [h.world]
      exact h.setWorld rfl rfl
  | call env a =>
      obtain rfl := Option.some.inj hstep
      obtain rfl := Option.some.inj hsep
      exact h.call hinj env hop

theorem exec (h : Agree S st sep) (hinj : Set.InjOn pairKey S) {ops : List CallOp}
    (hops : ∀ op ∈ ops, op.Within S) {st' : CallState} {sep' : SeparateState}
    (hrun : Run.exec (CallState.step json) st ops = some st')
    (hsep : Run.exec (SeparateState.step json) sep ops = some sep') : Agree S st' sep' := by
  induction ops generalizing st sep with
  | nil =>
      obtain rfl := Option.some.inj hrun
      obtain rfl := Option.some.inj hsep
      exact h
  | cons op ops ih =>
      obtain ⟨st₁, hstep, hrest⟩ := exec_cons_eq_some_iff.mp hrun
      obtain ⟨sep₁, hstep', hrest'⟩ := exec_cons_eq_some_iff.mp hsep
      exact ih (h.step hinj (hops op List.mem_cons_self) hstep hstep')
        (fun op' hop' => hops op' (List.mem_cons_of_mem _ hop')) hrest hrest'

theorem start (S : Set (String × String)) (fs : FileTree) (dir : SlashPath) :
    Agree S (.start fs (.fresh dir)) (.start fs (.fresh dir)) where
  world := rfl
  history := rfl
  last := fun a _ => by simp [CallState.start, Broker.fresh, SeparateState.start, SeqTables.empty]
  cached := fun a _ => by simp [CallState.start, Broker.fresh, SeparateState.start, SeqTables.empty]
  used := fun t ht => absurd rfl ht

/-- A call with a new topic, producer and sequence number appends to its own topic, or
fails. -/
theorem fresh_call (h : Agree S st sep) {env : ProduceEnv} {a : IdemArgs} (ha : a.pair ∈ S)
    (hnew : ∀ e ∈ st.history, e.1.triple ≠ a.triple) {rec : Record} {duplicate : Bool}
    (hok : (st.world.produceIdempotent json env a).2 = .ok (rec, duplicate)) :
    duplicate = false ∧ ∃ record offset,
      st.world.appended json env a.topicName a.key a.value a.headers = some record ∧
        rec = { record with offset := offset } := by
  have hresult := st.world.idemResult json env a
  generalize st.world.produceIdempotent json env a = result at hresult hok
  cases hresult with
  | unnamed _ => cases hok
  | duplicate _ hcached =>
      obtain ⟨e, he, htriple⟩ := h.used a.triple (by rw [← h.cached a ha, hcached]; simp)
      rw [← h.history] at he
      exact absurd htriple (hnew e he)
  | late _ _ => cases hok
  | failed _ _ _ => cases hok
  | fresh _ _ hp =>
      obtain ⟨rfl, rfl⟩ := Prod.mk.inj (Except.ok.inj hok)
      refine ⟨rfl, ?_⟩
      rcases World.produce_result json env st.world a.topicName a.key a.value a.headers with
        ⟨record, offset, happ, -, -, hres⟩ | ⟨⟨e, herr⟩, -⟩
      · rw [hp] at hres
        exact ⟨record, offset, happ, Except.ok.inj hres⟩
      · rw [hp] at herr
        cases herr

end Agree

/-- Some record can be stored as the first one of a log. -/
def RecordJson.Stores (json : RecordJson) : Prop :=
  ∃ r payload, r.offset = 0 ∧ json.marshal r = some payload ∧ payload.length ≤ 0xFFFFFFFF

/-- A record that can be stored is stored in a topic just created in an empty directory. -/
theorem World.canProduce_first {json : RecordJson} {r : Record} {payload : Bytes}
    (hoffset : r.offset = 0) (hm : json.marshal r = some payload)
    (hlen : payload.length ≤ 0xFFFFFFFF) (dir : SlashPath) (name : String) :
    (World.createTopic none ⟨fun _ => none, .fresh dir⟩ name).1.CanProduce json
      ⟨0, r.timestamp, .ok⟩ name r.key r.value r.headers := by
  obtain ⟨topic, ht, hseg, hnext⟩ : ∃ topic : Topic,
      (World.createTopic none ⟨fun _ => none, .fresh dir⟩ name).1.broker.topics[name]? =
          some topic ∧
        topic.segments = [opened (fun _ => none) ((dir.join name).join "000000") 0] ∧
        topic.nextOffset = 0 := by
    have hnone : (Broker.fresh dir).topics[name]? = none := by simp [Broker.fresh]
    rw [World.createTopic, hnone]
    dsimp only
    rw [if_neg (by simp), Option.bind_none, newSegment_none]
    exact ⟨_, OrdMap.getElem?_insert_self' _ _ _, rfl, rfl⟩
  have hrecord : newRecord topic r.timestamp r.key r.value r.headers = r := by
    rw [newRecord, cloneHeaders_eq, hnext, ← hoffset]
  refine ⟨?_, topic, ht, payload, ?_, hlen, ?_, ?_, rfl⟩
  · rcases createTopic_broker none ⟨fun _ => none, .fresh dir⟩ name with hb | ⟨-, t, hb⟩ <;>
      rw [hb] <;> rfl
  · rw [hrecord]
    exact hm
  · rw [Topic.lastSegment_of_segments hseg]
    exact Int.natCast_nonneg _
  · rw [Topic.lastSegment_of_segments hseg]
    simp only [opened, FileTree.contents, Option.getD_none, List.length_nil, ByteFile.maxSize]
    omega

/-- Of two pairs with the same key, the first call of one can get the record of the other. -/
theorem exists_duplicate_of_pairKey_eq {json : RecordJson} (hjson : json.Stores)
    {x y : String × String} (hx : x.2 ≠ "") (hy : y.2 ≠ "") (hkey : pairKey x = pairKey y) :
    ∃ (dir : SlashPath) (name : String) (env : ProduceEnv) (a a' : IdemArgs) (st : CallState)
      (rec : Record), a.pair = y ∧ a'.pair = x ∧
      exec (CallState.step json) (.start (fun _ => none) (.fresh dir))
        [.createTopic none name, .call env a] = some st ∧
      (∀ e ∈ st.history, e.1 = a) ∧
      (st.world.produceIdempotent json env a').2 = .ok (rec, true) := by
  obtain ⟨r, payload, hoffset, hm, hlen⟩ := hjson
  have hcan := World.canProduce_first hoffset hm hlen ⟨true, []⟩ y.1
  generalize hw : (World.createTopic none ⟨fun _ => none, .fresh ⟨true, []⟩⟩ y.1).1 = w at hcan
  have hcheck : ∀ a, w.broker.idemCheck a = .proceed := by
    intro a
    simp [Broker.idemCheck, ← hw, Broker.fresh]
  have hok := World.produce_isOk_iff.mpr hcan
  rcases hp : w.produce json ⟨0, r.timestamp, .ok⟩ y.1 r.key r.value r.headers with ⟨w', res⟩
  rw [hp] at hok
  cases res with
  | error e => cases hok
  | ok rec =>
      have hcall : w.produceIdempotent json ⟨0, r.timestamp, .ok⟩
          ⟨y.1, r.key, r.value, r.headers, y.2, 0⟩ =
            ({ w' with
                broker := w'.broker.idemRecord ⟨y.1, r.key, r.value, r.headers, y.2, 0⟩ rec },
              .ok (rec, false)) := by
        rw [World.produceIdempotent, if_neg hy, hcheck]
        dsimp only
        rw [hp]
      refine ⟨⟨true, []⟩, y.1, ⟨0, r.timestamp, .ok⟩, ⟨y.1, r.key, r.value, r.headers, y.2, 0⟩,
        ⟨x.1, r.key, r.value, r.headers, x.2, 0⟩, _, rec, rfl, rfl,
        exec_cons_eq_some_iff.mpr ⟨_, rfl, exec_cons_eq_some_iff.mpr ⟨_, rfl, rfl⟩⟩, ?_, ?_⟩
      · intro e he
        exact congrArg Prod.fst (List.mem_singleton.mp he)
      · change (World.produceIdempotent json _ (World.produceIdempotent json _
          (World.createTopic none ⟨fun _ => none, .fresh ⟨true, []⟩⟩ y.1).1 _).1 _).2 = _
        rw [hw, hcall, World.produceIdempotent_duplicate_iff]
        refine ⟨hx, ?_⟩
        have hsame : IdemArgs.dedupKey ⟨y.1, r.key, r.value, r.headers, y.2, 0⟩ =
            IdemArgs.dedupKey ⟨x.1, r.key, r.value, r.headers, x.2, 0⟩ :=
          IdemArgs.dedupKey_eq_iff.mpr ⟨hkey.symm, rfl⟩
        rw [← hsame]
        exact OrdMap.getElem?_insert_self' _ _ _

theorem Separate.injOn {json : RecordJson} {S : Set (String × String)} (h : Separate json S)
    (hjson : json.Stores) (hS : ∀ x ∈ S, x.2 ≠ "") : Set.InjOn pairKey S := by
  intro x hx y hy hkey
  by_contra hne
  obtain ⟨dir, name, env, a, a', st, rec, ha, ha', hrun, hhistory, hdup⟩ :=
    exists_duplicate_of_pairKey_eq hjson (hS x hx) (hS y hy) hkey
  obtain ⟨-, hfresh⟩ := h (fun _ => none) dir _ st _ (by simpa [CallOp.Within, ha] using hy) hrun
    (exec_cons_eq_some_iff.mpr ⟨_, rfl, exec_cons_eq_some_iff.mpr ⟨_, rfl, rfl⟩⟩)
  have hnew : ∀ e ∈ st.history, e.1.triple ≠ a'.triple := by
    intro e he htriple
    rw [hhistory e he] at htriple
    obtain ⟨htopic, hrest⟩ := Prod.mk.inj htriple
    apply hne
    rw [← ha, ← ha']
    exact Prod.ext htopic.symm (Prod.mk.inj hrest).1.symm
  exact absurd (hfresh env a' (ha' ▸ hx) hnew rec true hdup).1 (by decide)

/-- Producers do not interfere exactly if their keys differ. For every set of pairs of
non-empty topics and producers: in all runs of calls of these pairs, the answers are those of
separate sequence states, if and only if no two pairs are joined to the same key. -/
theorem separate_iff (json : RecordJson) (hjson : json.Stores) {S : Set (String × String)}
    (hS : ∀ x ∈ S, x.1 ≠ "" ∧ x.2 ≠ "") : Separate json S ↔ Set.InjOn pairKey S := by
  refine ⟨fun hsep => hsep.injOn hjson fun x hx => (hS x hx).2, ?_⟩
  intro hinj fs dir ops st sep hops hrun hsep
  have hagree := (Agree.start S fs dir).exec hinj hops hrun hsep
  exact ⟨hagree.history, fun env a ha hnew rec duplicate hok => hagree.fresh_call ha hnew hok⟩

theorem sampleJson_stores : sampleJson.Stores :=
  ⟨sampleRecord 0, asciiBytes (sampleText 0), rfl, by decide +kernel, by decide +kernel⟩

/-- Two producers of one topic and one of another. -/
theorem separate_sample :
    Separate sampleJson {("a", "p"), ("a", "q|p"), ("b", "p")} :=
  (separate_iff sampleJson sampleJson_stores (by simp)).mpr (by simp [Set.InjOn, pairKey])

/-- The first call of the producer `c` to the topic `a|b` is told that it is a duplicate and
gets the record that `b|c` has produced to the topic `a`; its own topic stays empty. -/
theorem not_separate_bar :
    (∃ st, exec (CallState.step sampleJson) (.start (fun _ => none) (.fresh ⟨true, ["d"]⟩))
        [.createTopic none "a", .createTopic none "a|b",
          .call ⟨0, 0, .ok⟩ ⟨"a", asciiBytes "k", asciiBytes "v", ∅, "b|c", 1⟩,
          .call ⟨0, 0, .ok⟩ ⟨"a|b", asciiBytes "k", asciiBytes "v", ∅, "c", 1⟩] = some st ∧
      st.history.map Prod.snd = [.ok (sampleRecord 0, false), .ok (sampleRecord 0, true)] ∧
      st.world.consume sampleJson "a|b" 0 10 = .ok []) ∧
    ¬ Separate sampleJson {("a", "b|c"), ("a|b", "c")} := by
  refine ⟨exists_exec_of_any (by decide +kernel), fun hsep => ?_⟩
  have hinj := hsep.injOn sampleJson_stores (by simp)
  exact absurd (hinj (Or.inl rfl) (Or.inr rfl) rfl) (by decide)

end StreamFlow
