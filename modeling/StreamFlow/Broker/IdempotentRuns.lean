import StreamFlow.Broker.System
import StreamFlow.Broker.Sample

/-!
# Idempotent producers

`ProduceIdempotent` looks into the cache, appends, and fills the cache, letting go
of the lock in between. Per cache key the protocol has four states: nothing
happened, one call has passed the check, one call has appended, or the result is
cached. `KeyInv` ties a state to the calls under way, the cache and the log.

The four states describe every run in which a call passes the check only when no
other call with its key is under way, and in which no append fails after the
record has been written. Two concurrent retries break the first condition.
-/

namespace StreamFlow

open BigEndian Run

/-- The cache key under which a record was written. -/
def Written.dedupKey? (w : Written) : Option String :=
  match w.source with
  | .idem _ a => some a.dedupKey
  | _ => none

/-- The topic, producer and sequence number for which a record was written. -/
def Written.triple? (w : Written) : Option (String × String × ℤ) :=
  match w.source with
  | .idem _ a => some a.triple
  | _ => none

/-- The call has passed the check and has not returned. -/
def IdemPhase.Pending : IdemPhase → Prop
  | .checked | .produced _ => True
  | .done _ _ | .failed _ => False

instance : ∀ phase : IdemPhase, Decidable phase.Pending
  | .checked | .produced _ => inferInstanceAs (Decidable True)
  | .done _ _ | .failed _ => inferInstanceAs (Decidable False)

namespace Sys

def writtenUnder (s : Sys) (k : String) : List Written :=
  s.written.filter fun w => decide (w.dedupKey? = some k)

/-- The records written for a topic, producer and sequence number. -/
def writtenFor (s : Sys) (t : String × String × ℤ) : List Written :=
  s.written.filter fun w => decide (w.triple? = some t)

section Produce

variable (json : RecordJson) (env : ProduceEnv) (source : Source) (s : Sys) (topicName : String)
  (key value : Bytes) (headers : OrdMap String String) (k : String)

theorem writtenUnder_produce_of_ne (hsource : ∀ call a, source = .idem call a → a.dedupKey ≠ k) :
    (s.produce json env source topicName key value headers).1.writtenUnder k =
      s.writtenUnder k := by
  have hskip : ∀ record, Written.dedupKey? ⟨source, topicName, record⟩ ≠ some k := by
    intro record
    cases source with
    | idem call a => exact fun hc => hsource call a rfl (Option.some.inj hc)
    | produce => exact fun hc => by cases hc
    | commit call id ptr => exact fun hc => by cases hc
  unfold writtenUnder produce
  rw [List.filter_append]
  cases s.world.appended json env topicName key value headers with
  | none => simp
  | some record => simp [hskip record]

theorem length_writtenUnder_produce_le :
    ((s.produce json env source topicName key value headers).1.writtenUnder k).length ≤
      (s.writtenUnder k).length + 1 := by
  unfold writtenUnder produce
  rw [List.filter_append, List.length_append]
  refine Nat.add_le_add_left ((List.length_filter_le _ _).trans ?_) _
  cases s.world.appended json env topicName key value headers <;> simp

theorem writtenUnder_produce_of_none
    (happ : s.world.appended json env topicName key value headers = none) :
    (s.produce json env source topicName key value headers).1.writtenUnder k =
      s.writtenUnder k := by
  unfold writtenUnder produce
  rw [happ]
  simp

end Produce

/-- A call passes the check only when no call with its cache key is under way, and
an append that has written its record also writes the index files. -/
def Undisturbed (json : RecordJson) (s : Sys) : Action → Prop
  | .idemCheck _ a => s.world.broker.idemCheck a = .proceed →
      ∀ e ∈ s.idem.toList, e.2.args.dedupKey = a.dedupKey → ¬ e.2.phase.Pending
  | .idemProduce call env => ∀ c ∈ s.idem[call]?,
      (s.world.appended json env c.args.topicName c.args.key c.args.value
        c.args.headers).isSome → env.io.index = .done ∧ env.io.timeIndex = .done
  | _ => True

instance (json : RecordJson) (s : Sys) : ∀ action, Decidable (s.Undisturbed json action)
  | .idemCheck _ _ => inferInstanceAs (Decidable (_ → ∀ e ∈ s.idem.toList, _))
  | .idemProduce call _ => inferInstanceAs (Decidable (∀ c ∈ s.idem[call]?, _))
  | .createTopic .. | .produce .. | .drain .. | .idemRecord _ | .beginTransaction ..
  | .txProduce .. | .commitStart .. | .commitCreate .. | .commitProduce .. | .commitFinish _
  | .abortTransaction _ => inferInstanceAs (Decidable True)

/-- A failed call has written nothing, or else it would have returned the record. -/
theorem appended_eq_none_of_error {json : RecordJson} {s : Sys} {call : ℕ} {env : ProduceEnv}
    {a : IdemArgs} {phase : IdemPhase} {e : BrokerError}
    (hguard : s.Undisturbed json (.idemProduce call env)) (hcall : s.idem[call]? = some ⟨a, phase⟩)
    (herr : (s.world.produce json env a.topicName a.key a.value a.headers).2 = .error e) :
    s.world.appended json env a.topicName a.key a.value a.headers = none := by
  rcases World.produce_result json env s.world a.topicName a.key a.value a.headers with
    ⟨record, offset, -, -, -, hok⟩ | ⟨-, hnone | hio⟩
  · rw [hok] at herr
    cases herr
  · exact hnone
  · by_contra hsome
    exact hio (hguard ⟨a, phase⟩ hcall (Option.isSome_iff_ne_none.mpr hsome))

end Sys

/-- The progress of the calls with one cache key. -/
inductive KeyState where
  | idle
  | checked (call : ℕ)
  | produced (call : ℕ) (rec : Record)
  | cached (rec : Record)

namespace KeyState

/-- What the cache holds. -/
def cache : KeyState → Option Record
  | cached rec => some rec
  | _ => none

/-- How many records have been written at most. -/
def limit : KeyState → ℕ
  | idle | checked _ => 0
  | produced _ _ | cached _ => 1

/-- The phases a call with the key may be in. -/
def Allows (st : KeyState) (call : ℕ) : IdemPhase → Prop
  | .checked => st = checked call
  | .produced rec => st = produced call rec
  | .done rec _ => st = cached rec
  | .failed _ => True

/-- A call that the key does not wait for may have failed only, if nothing is cached. -/
theorem Allows.of_ne {st : KeyState} {call : ℕ} {phase : IdemPhase} (h : st.Allows call phase)
    (hchecked : st ≠ checked call) (hproduced : ∀ rec, st ≠ produced call rec)
    (hcached : ∀ rec, st ≠ cached rec) (st' : KeyState) : st'.Allows call phase := by
  cases phase with
  | checked => exact absurd h hchecked
  | produced rec => exact absurd h (hproduced rec)
  | done rec duplicate => exact absurd h (hcached rec)
  | failed e => trivial

end KeyState

/-- The calls with the cache key `k` are in the state `st`. -/
structure KeyInv (s : Sys) (k : String) (st : KeyState) : Prop where
  cache : s.world.broker.dedupCache[k]? = st.cache
  calls : ∀ call c, s.idem[call]? = some c → c.args.dedupKey = k → st.Allows call c.phase
  live : ∀ call, (st = .checked call ∨ ∃ rec, st = .produced call rec) →
    ∃ c, s.idem[call]? = some c ∧ c.args.dedupKey = k ∧ c.phase.Pending
  written : (s.writtenUnder k).length ≤ st.limit

namespace KeyInv

variable {json : RecordJson} {s s' : Sys} {k : String} {st : KeyState}

/-- A step that touches neither the calls nor the cache. -/
theorem frame (h : KeyInv s k st) (hidem : s'.idem = s.idem)
    (hcache : s'.world.broker.dedupCache = s.world.broker.dedupCache)
    (hwritten : s'.writtenUnder k = s.writtenUnder k) : KeyInv s' k st := by
  refine ⟨by rw [hcache]; exact h.cache, by rw [hidem]; exact h.calls,
    by rw [hidem]; exact h.live, by rw [hwritten]; exact h.written⟩

theorem sameLogs (h : KeyInv s k st) (hs : s.SameLogs s') : KeyInv s' k st := by
  refine h.frame hs.idem hs.dedupCache ?_
  rw [Sys.writtenUnder, Sys.writtenUnder, hs.written]

/-- A call with another key moves on. -/
theorem set_other (h : KeyInv s k st) {call : ℕ} {a : IdemArgs} {phase : IdemPhase}
    (hne : a.dedupKey ≠ k) (hold : ∀ c, s.idem[call]? = some c → c.args.dedupKey ≠ k)
    (hidem : s'.idem = s.idem.insert call ⟨a, phase⟩)
    (hcache : s'.world.broker.dedupCache[k]? = s.world.broker.dedupCache[k]?)
    (hwritten : s'.writtenUnder k = s.writtenUnder k) : KeyInv s' k st := by
  refine ⟨hcache.trans h.cache, ?_, ?_, by rw [hwritten]; exact h.written⟩
  · intro call' c hc hkey
    rw [hidem] at hc
    rcases OrdMap.getElem?_insert_cases hc with ⟨-, rfl⟩ | ⟨-, hc⟩
    · exact absurd hkey hne
    · exact h.calls call' c hc hkey
  · intro call' hst
    obtain ⟨c, hc, hkey, hpending⟩ := h.live call' hst
    refine ⟨c, ?_, hkey, hpending⟩
    rw [hidem, OrdMap.getElem?_insert_of_ne _ _ ?_, hc]
    rintro rfl
    exact hold c hc hkey

/-- A new call with the key that has already returned. -/
theorem add_returned (h : KeyInv s k st) {call : ℕ} {a : IdemArgs} {phase : IdemPhase}
    (hnone : s.idem[call]? = none) (hphase : st.Allows call phase) :
    KeyInv (s.setIdem call ⟨a, phase⟩) k st := by
  refine ⟨h.cache, ?_, ?_, h.written⟩
  · intro call' c hc hkey
    rcases OrdMap.getElem?_insert_cases hc with ⟨rfl, rfl⟩ | ⟨-, hc⟩
    · exact hphase
    · exact h.calls call' c hc hkey
  · intro call' hst
    obtain ⟨c, hc, hkey, hpending⟩ := h.live call' hst
    refine ⟨c, ?_, hkey, hpending⟩
    change (s.idem.insert call ⟨a, phase⟩)[call']? = some c
    rw [OrdMap.getElem?_insert_of_ne _ _ ?_, hc]
    rintro rfl
    rw [hnone] at hc
    cases hc

/-- A call with the key moves on, and the key with it. -/
theorem set_self (h : KeyInv s k st) {call : ℕ} {a : IdemArgs} {phase : IdemPhase}
    (hkey : a.dedupKey = k) {st' : KeyState}
    (hidem : s'.idem = s.idem.insert call ⟨a, phase⟩)
    (hcache : s'.world.broker.dedupCache[k]? = st'.cache) (hphase : st'.Allows call phase)
    (hothers : ∀ call' phase', call ≠ call' → st.Allows call' phase' → st'.Allows call' phase')
    (hlive : ∀ call', (st' = .checked call' ∨ ∃ rec, st' = .produced call' rec) →
      call' = call ∧ phase.Pending)
    (hwritten : (s'.writtenUnder k).length ≤ st'.limit) : KeyInv s' k st' := by
  refine ⟨hcache, ?_, ?_, hwritten⟩
  · intro call' c hc hkey'
    rw [hidem] at hc
    rcases OrdMap.getElem?_insert_cases hc with ⟨rfl, rfl⟩ | ⟨hne, hc⟩
    · exact hphase
    · exact hothers call' c.phase hne (h.calls call' c hc hkey')
  · intro call' hst
    obtain ⟨rfl, hpending⟩ := hlive call' hst
    refine ⟨⟨a, phase⟩, ?_, hkey, hpending⟩
    rw [hidem, OrdMap.getElem?_insert_self']

theorem idemCheck (h : KeyInv s k st) {call : ℕ} {a : IdemArgs}
    (hguard : s.Undisturbed json (.idemCheck call a)) (hstep : s.idemCheck call a = some s') :
    ∃ st', KeyInv s' k st' := by
  obtain ⟨hnone, phase, rfl, hphase⟩ := Sys.idemCheck_cases hstep
  by_cases hkey : a.dedupKey = k
  · rcases hphase with ⟨e, rfl⟩ | ⟨rec, rfl, hcached⟩ | ⟨rfl, hproceed⟩
    · exact ⟨st, h.add_returned hnone trivial⟩
    · refine ⟨st, h.add_returned hnone ?_⟩
      rw [hkey, h.cache] at hcached
      cases st with
      | cached rec' => rw [Option.some.inj hcached]; rfl
      | _ => cases hcached
    · -- nothing is cached and no call is under way, so the key is idle
      have hidle : st = .idle := by
        have hcache := Broker.dedupCache_eq_none_of_proceed hproceed
        rw [hkey, h.cache] at hcache
        have hnolive : ∀ call', ¬ (st = .checked call' ∨ ∃ rec, st = .produced call' rec) := by
          intro call' hst
          obtain ⟨c, hc, hkey', hpending⟩ := h.live call' hst
          exact hguard hproceed (call', c) ((OrdMap.mem_toList_iff _).mpr hc)
            (hkey'.trans hkey.symm) hpending
        cases st with
        | idle => rfl
        | checked call' => exact absurd (Or.inl rfl) (hnolive call')
        | produced call' rec => exact absurd (Or.inr ⟨rec, rfl⟩) (hnolive call')
        | cached rec => cases hcache
      subst hidle
      refine ⟨.checked call, h.set_self hkey rfl h.cache rfl ?_ ?_ h.written⟩
      · exact fun call' phase' _ hallows => hallows.of_ne nofun nofun nofun _
      · rintro call' (heq | ⟨rec, heq⟩)
        · exact ⟨(KeyState.checked.inj heq).symm, trivial⟩
        · cases heq
  · exact ⟨st, h.set_other hkey (fun c hc => by rw [hnone] at hc; cases hc) rfl rfl rfl⟩

theorem idemProduce (h : KeyInv s k st) {call : ℕ} {env : ProduceEnv}
    (hguard : s.Undisturbed json (.idemProduce call env))
    (hstep : s.idemProduce json call env = some s') : ∃ st', KeyInv s' k st' := by
  obtain ⟨a, hcall, hres⟩ := Sys.idemProduce_cases hstep
  have hcache : (s.produce json env (.idem call a) a.topicName a.key a.value
      a.headers).1.world.broker.dedupCache = s.world.broker.dedupCache :=
    World.dedupCache_produce json env s.world a.topicName a.key a.value a.headers
  by_cases hkey : a.dedupKey = k
  · obtain rfl : st = .checked call := h.calls call _ hcall hkey
    have hothers : ∀ st' call' phase', call ≠ call' →
        (KeyState.checked call).Allows call' phase' → KeyState.Allows st' call' phase' :=
      fun st' call' phase' hne hallows =>
        hallows.of_ne (fun heq => hne (KeyState.checked.inj heq)) nofun nofun st'
    have hcache' := h.cache
    rw [← hcache] at hcache'
    have hlen := h.written
    rcases hres with ⟨rec, -, rfl⟩ | ⟨e, herr, rfl⟩
    · refine ⟨.produced call rec, h.set_self hkey rfl hcache' rfl (hothers _) ?_ ?_⟩
      · rintro call' (heq | ⟨rec', heq⟩)
        · cases heq
        · exact ⟨(KeyState.produced.inj heq).1.symm, trivial⟩
      · refine (Sys.length_writtenUnder_produce_le json env (.idem call a) s a.topicName a.key
          a.value a.headers k).trans ?_
        exact Nat.add_le_add_right hlen 1
    · have happ := Sys.appended_eq_none_of_error hguard hcall herr
      refine ⟨.idle, h.set_self hkey rfl hcache' trivial (hothers _) ?_ ?_⟩
      · rintro call' (heq | ⟨rec', heq⟩)
        · cases heq
        · cases heq
      · exact (Sys.writtenUnder_produce_of_none json env (.idem call a) s a.topicName a.key
          a.value a.headers k happ).symm ▸ hlen
  · have hold : ∀ c, s.idem[call]? = some c → c.args.dedupKey ≠ k := by
      intro c hc
      obtain rfl := Option.some.inj (hcall.symm.trans hc)
      exact hkey
    have hwritten := Sys.writtenUnder_produce_of_ne json env (.idem call a) s a.topicName a.key
      a.value a.headers k (by rintro _ _ ⟨rfl, rfl⟩; exact hkey)
    rcases hres with ⟨rec, -, rfl⟩ | ⟨e, -, rfl⟩
    · exact ⟨st, h.set_other hkey hold rfl (by rw [← hcache]; rfl) hwritten⟩
    · exact ⟨st, h.set_other hkey hold rfl (by rw [← hcache]; rfl) hwritten⟩

theorem idemRecord (h : KeyInv s k st) {call : ℕ} (hstep : s.idemRecord call = some s') :
    ∃ st', KeyInv s' k st' := by
  obtain ⟨a, rec, hcall, rfl⟩ := Sys.idemRecord_cases hstep
  by_cases hkey : a.dedupKey = k
  · obtain rfl : st = .produced call rec := h.calls call _ hcall hkey
    refine ⟨.cached rec, h.set_self hkey rfl ?_ rfl ?_ ?_ h.written⟩
    · change (s.world.broker.dedupCache.insert a.dedupKey rec)[k]? = some rec
      rw [hkey, OrdMap.getElem?_insert_self']
    · exact fun call' phase' hne hallows =>
        hallows.of_ne nofun (fun rec' heq => hne (KeyState.produced.inj heq).1) nofun _
    · rintro call' (heq | ⟨rec', heq⟩)
      · cases heq
      · cases heq
  · refine ⟨st, h.set_other hkey ?_ rfl ?_ rfl⟩
    · intro c hc
      obtain rfl := Option.some.inj (hcall.symm.trans hc)
      exact hkey
    · change (s.world.broker.dedupCache.insert a.dedupKey rec)[k]? = _
      rw [OrdMap.getElem?_insert_of_ne _ _ hkey]

/-- Every step keeps the four states, under the condition on checks and appends. -/
theorem step (h : KeyInv s k st) {action : Action} (hguard : s.Undisturbed json action)
    (hstep : s.step json action = some s') : ∃ st', KeyInv s' k st' := by
  cases action with
  | idemCheck call a => exact h.idemCheck hguard hstep
  | idemProduce call env => exact h.idemProduce hguard hstep
  | idemRecord call => exact h.idemRecord hstep
  | createTopic fault name =>
      obtain rfl := Option.some.inj hstep
      exact ⟨st, h.frame rfl (World.dedupCache_createTopic _ _ _) rfl⟩
  | produce env topicName key value headers =>
      obtain rfl := Option.some.inj hstep
      exact ⟨st, h.frame rfl (World.dedupCache_produce _ _ _ _ _ _ _)
        (Sys.writtenUnder_produce_of_ne _ _ _ _ _ _ _ _ _ (fun _ _ hc => by cases hc))⟩
  | drain now d =>
      obtain rfl := Option.some.inj hstep
      exact ⟨st, h.frame rfl rfl rfl⟩
  | beginTransaction producerID epoch now createdAt =>
      obtain rfl := Option.some.inj hstep
      exact ⟨st, h.sameLogs (s.sameLogs_beginTransaction producerID epoch now createdAt)⟩
  | txProduce txID topic key value headers =>
      obtain rfl := Option.some.inj hstep
      exact ⟨st, h.sameLogs (s.sameLogs_txProduce txID topic key value headers)⟩
  | abortTransaction txID =>
      obtain rfl := Option.some.inj hstep
      exact ⟨st, h.sameLogs (s.sameLogs_abortTransaction txID)⟩
  | commitStart call txID => exact ⟨st, h.sameLogs (Sys.sameLogs_commitStart hstep)⟩
  | commitFinish call => exact ⟨st, h.sameLogs (Sys.sameLogs_commitFinish hstep)⟩
  | commitCreate call fault =>
      obtain ⟨id, p, records, n, r, -, -, ⟨topic, -, rfl⟩ | ⟨e, -, rfl⟩⟩ :=
        Sys.commitCreate_cases hstep
      · exact ⟨st, h.frame rfl (World.dedupCache_createTopic _ _ _) rfl⟩
      · exact ⟨st, h.frame rfl (World.dedupCache_createTopic _ _ _) rfl⟩
  | commitProduce call env =>
      have hframe : ∀ id p (r : TxRecord) c,
          KeyInv ((s.produce json env (.commit call id p) r.topic r.key r.value
            r.headers).1.setCommit call c) k st :=
        fun id p r c => h.frame rfl (World.dedupCache_produce _ _ _ _ _ _ _)
          (Sys.writtenUnder_produce_of_ne _ _ _ _ _ _ _ _ _ (fun _ _ hc => by cases hc))
      obtain ⟨id, p, records, n, r, -, -, ⟨rec, -, rfl⟩ | ⟨e, -, rfl⟩⟩ :=
        Sys.commitProduce_cases hstep
      · exact ⟨st, hframe id p r _⟩
      · exact ⟨st, hframe id p r _⟩

theorem init (w : World) (k : String) : ∃ st, KeyInv (.init w) k st := by
  cases hcache : w.broker.dedupCache[k]? with
  | none =>
      refine ⟨.idle, hcache, fun call c hc => ?_, ?_, le_rfl⟩
      · simp [Sys.init] at hc
      · rintro call (heq | ⟨rec, heq⟩)
        · cases heq
        · cases heq
  | some rec =>
      refine ⟨.cached rec, hcache, fun call c hc => ?_, ?_, Nat.zero_le _⟩
      · simp [Sys.init] at hc
      · rintro call (heq | ⟨rec', heq⟩)
        · cases heq
        · cases heq

end KeyInv

/-- What a call that returned without an error returned. -/
def IdemCall.returned? (c : IdemCall) : Option Record :=
  match c.phase with
  | .done rec _ => some rec
  | _ => none

/-- For a topic, producer and sequence number at most one record is in the logs, and
all successful calls have returned the same record. -/
def Sys.AtMostOnce (s : Sys) (t : String × String × ℤ) : Prop :=
  (s.writtenFor t).length ≤ 1 ∧
    ∀ e ∈ s.idem.toList, ∀ e' ∈ s.idem.toList, e.2.args.triple = t → e'.2.args.triple = t →
      ∀ rec ∈ e.2.returned?, ∀ rec' ∈ e'.2.returned?, rec = rec'

instance (s : Sys) (t : String × String × ℤ) : Decidable (s.AtMostOnce t) :=
  inferInstanceAs (Decidable (_ ∧ ∀ e ∈ s.idem.toList, _))

theorem Sys.length_writtenFor_le (s : Sys) (a : IdemArgs) :
    (s.writtenFor a.triple).length ≤ (s.writtenUnder a.dedupKey).length := by
  unfold writtenFor writtenUnder
  refine (List.monotone_filter_right _ ?_).length_le
  intro w hw
  obtain ⟨source, topic, record⟩ := w
  cases source with
  | idem call a' =>
      have htriple : a'.triple = a.triple := Option.some.inj (of_decide_eq_true hw)
      exact decide_eq_true (congrArg some (IdemArgs.dedupKey_eq_of_triple_eq htriple))
  | produce => cases of_decide_eq_true hw
  | commit call id ptr => cases of_decide_eq_true hw

namespace KeyInv

variable {s : Sys} {a : IdemArgs} {st : KeyState}

theorem returned (h : KeyInv s a.dedupKey st) {call : ℕ} {c : IdemCall} {rec : Record}
    (hc : (call, c) ∈ s.idem.toList) (ht : c.args.triple = a.triple)
    (hrec : rec ∈ c.returned?) : st = .cached rec := by
  have hallows := h.calls call c ((OrdMap.mem_toList_iff _).mp hc)
    (IdemArgs.dedupKey_eq_of_triple_eq ht)
  obtain ⟨args, phase⟩ := c
  cases phase with
  | done rec' duplicate =>
      obtain rfl : rec' = rec := Option.some.inj hrec
      exact hallows
  | checked => cases hrec
  | produced rec' => cases hrec
  | failed e => cases hrec

theorem atMostOnce (h : KeyInv s a.dedupKey st) : s.AtMostOnce a.triple := by
  constructor
  · refine (s.length_writtenFor_le a).trans (h.written.trans ?_)
    cases st <;> simp [KeyState.limit]
  · rintro ⟨call, c⟩ hc ⟨call', c'⟩ hc' ht ht' rec hrec rec' hrec'
    have heq := (h.returned hc ht hrec).symm.trans (h.returned hc' ht' hrec')
    exact KeyState.cached.inj heq

end KeyInv

/-- Idempotent produce under concurrency. Take any broker, and any interleaving of
any calls in which a call of `ProduceIdempotent` passes its check only when no other
call with its cache key is under way, and in which no append of such a call fails
after it has written its record. Then every topic, producer and sequence number has
at most one record, whichever number of calls were made for it, and all of them that
succeeded returned the same record. -/
theorem atMostOnce_of_undisturbed (json : RecordJson) (w : World) {actions : List Action}
    {s : Sys} (hrun : exec (Sys.step json) (.init w) actions = some s)
    (hguard : Guarded (Sys.step json) (Sys.Undisturbed json) (.init w) actions)
    (t : String × String × ℤ) : s.AtMostOnce t := by
  let a : IdemArgs := ⟨t.1, [], [], ∅, t.2.1, t.2.2⟩
  obtain ⟨st, h⟩ := invariant_of_guarded (fun s => ∃ st, KeyInv s a.dedupKey st)
    (fun s action s' ⟨st, h⟩ hg hs => h.step hg hs) hrun hguard (KeyInv.init w a.dedupKey)
  exact h.atMostOnce

def sampleEnv : ProduceEnv := ⟨0, 0, .ok⟩

/-- A message of the producer `p`. -/
def sampleIdemArgs (sequence : ℤ) : IdemArgs :=
  ⟨"t", asciiBytes "k", asciiBytes "v", ∅, "p", sequence⟩

/-- A producer sends a message, sends it again, and goes on to the next. -/
def retrySample : List Action :=
  [.createTopic none "t", .idemCheck 0 (sampleIdemArgs 1), .idemProduce 0 sampleEnv,
    .idemRecord 0, .idemCheck 1 (sampleIdemArgs 1), .idemCheck 2 (sampleIdemArgs 2),
    .idemProduce 2 sampleEnv, .idemRecord 2]

theorem atMostOnce_of_undisturbed_sample :
    ∃ s, exec (Sys.step sampleJson) (.init ⟨fun _ => none, .fresh ⟨true, ["d"]⟩⟩) retrySample =
        some s ∧
      s.idem[1]? = some ⟨sampleIdemArgs 1, .done (sampleRecord 0) true⟩ ∧
      s.AtMostOnce ("t", "p", 1) := by
  obtain ⟨s, hrun, hs⟩ : ∃ s, exec (Sys.step sampleJson)
        (.init ⟨fun _ => none, .fresh ⟨true, ["d"]⟩⟩) retrySample = some s ∧
      s.idem[1]? = some ⟨sampleIdemArgs 1, .done (sampleRecord 0) true⟩ :=
    exists_exec_of_any (by decide +kernel)
  exact ⟨s, hrun, hs, atMostOnce_of_undisturbed sampleJson _ hrun (by decide +kernel) _⟩

/-- Two retries of one message at once: both pass the check before either of them
has filled the cache. -/
def raceSample : List Action :=
  [.createTopic none "t", .idemCheck 0 (sampleIdemArgs 1), .idemCheck 1 (sampleIdemArgs 1),
    .idemProduce 0 sampleEnv, .idemProduce 1 sampleEnv, .idemRecord 0, .idemRecord 1]

theorem not_atMostOnce_race :
    ∃ s, exec (Sys.step sampleJson) (.init ⟨fun _ => none, .fresh ⟨true, ["d"]⟩⟩) raceSample =
        some s ∧
      (s.writtenFor ("t", "p", 1)).map Written.record = [sampleRecord 0, sampleRecord 1] ∧
      s.idem[0]? = some ⟨sampleIdemArgs 1, .done (sampleRecord 0) false⟩ ∧
      s.idem[1]? = some ⟨sampleIdemArgs 1, .done (sampleRecord 1) false⟩ ∧
      ¬ s.AtMostOnce ("t", "p", 1) :=
  exists_exec_of_any (by decide +kernel)

end StreamFlow
