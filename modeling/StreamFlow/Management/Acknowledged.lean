import Mathlib.Order.Monotone.Basic
import StreamFlow.Broker.ReadCommitted
import StreamFlow.Management.Refused

/-!
# Records that were acknowledged

What clients of `/produce`, `/produce/idempotent` and `/consume` see, with any number of requests
of all kinds handled at once. Whatever a section does, the logs only grow (`LogMoves`), and each log
is read back from its files as long as no two topics share a directory. `Seen` says what an answer
tells about the logs at the moment in which it is given, and `LogOk` keeps this for all answers of a
run, each with the lengths that the logs had at its moment.
-/

namespace StreamFlow.Management

open BigEndian Run Segment

variable {α : Type} {lib : Library α}

/-! ### Logs -/

/-- Every topic has a directory of its own. -/
def DistinctDirs (w : World) : Prop := ∀ e ∈ w.broker.topics.toList, w.OwnDir e.1

instance (w : World) : Decidable (DistinctDirs w) :=
  inferInstanceAs (Decidable (∀ e ∈ w.broker.topics.toList, _))

section Logs

variable {json : RecordJson} {w w' : World} {logs : String → List Record}

theorem DistinctDirs.ownDir (h : DistinctDirs w) {name : String} {topic : Topic}
    (ht : w.broker.topics[name]? = some topic) : w.OwnDir name :=
  h (name, topic) ((OrdMap.mem_toList_iff _).mpr ht)

/-- The topics of an earlier state have directories of their own if those of a later one do. -/
theorem DistinctDirs.of_subset (h : DistinctDirs w')
    (hdir : w'.broker.segmentDir = w.broker.segmentDir)
    (htopics : ∀ name : String, (w.broker.topics[name]?).isSome →
      (w'.broker.topics[name]?).isSome) : DistinctDirs w := by
  rintro ⟨name, topic⟩ hmem name' topic' ht' heq
  have ht := (OrdMap.mem_toList_iff _).mp hmem
  obtain ⟨t, ht₁⟩ := Option.isSome_iff_exists.mp (htopics name (by rw [ht]; rfl))
  obtain ⟨t', ht₁'⟩ := Option.isSome_iff_exists.mp (htopics name' (by rw [ht']; rfl))
  exact h.ownDir ht₁ name' t' ht₁' (by rw [hdir]; exact heq)

theorem serves_congr_files (h : w.Serves json logs) {fs : FileTree}
    (hfs : ∀ name, ∀ p ∈ files (w.broker.segmentDir name), fs.contents p = w.fs.contents p) :
    World.Serves json ⟨fs, w.broker⟩ logs := by
  obtain ⟨⟨disk, hrep, hlogs, hclosed⟩, hunknown⟩ := h
  exact ⟨⟨disk, hrep.congr_files hfs, hlogs, hclosed⟩, hunknown⟩

/-- A `CreateTopic` that fails changes no log, whatever directory it has tried. -/
theorem serves_createTopic (h : w.Serves json logs) {fault : Option CreateFault} {name : String}
    (hdirs : DistinctDirs (w.createTopic fault name).1) :
    (w.createTopic fault name).1.Serves json logs := by
  rcases w.createTopic_broker fault name with hb | ⟨-, topic, hb⟩
  · have hserves : World.Serves json ⟨(w.createTopic fault name).1.fs, w.broker⟩ logs :=
      serves_congr_files h fun _ p _ => World.contents_createTopic fault w name p
    rw [← hb] at hserves
    exact hserves
  · have htopics : ∀ name' : String, (w.createTopic fault name).1.broker.topics[name']? =
        if name = name' then some topic else w.broker.topics[name']? :=
      World.topics_of_insert hb
    refine (h.createTopic (fun name' topic' ht' heq => ?_) Prod.mk.eta.symm).1
    have hself : (w.createTopic fault name).1.OwnDir name :=
      hdirs.ownDir ((htopics name).trans (if_pos rfl))
    by_contra hne
    refine hne (hself name' topic' ?_ ?_)
    · rw [htopics, if_neg (Ne.symm hne), ht']
    · rw [World.segmentDir_of_insert hb, heq]

theorem serves_commitOffset (h : w.Serves json logs) (mkdirOk : Bool) (o : ByteFile.ReplaceOutcome)
    (topic group : String) (offset : Offset) :
    (w.commitOffset mkdirOk o topic group offset).1.Serves json logs := by
  obtain ⟨fs, hw, hoff⟩ := w.exists_commitOffset mkdirOk o topic group offset
  rw [hw]
  refine serves_congr_files h fun name p hp => hoff.contents_eq ?_
  rw [List.mem_singleton]
  rintro rfl
  exact World.offsetPath_notMem_files _ _ _ hp

end Logs

/-- What a section does to the logs. -/
structure LogMoves (json : RecordJson) (sys sys' : Sys) : Prop where
  dirs : DistinctDirs sys'.world → DistinctDirs sys.world
  serves : DistinctDirs sys'.world → sys.world.Serves json sys.logs →
    sys'.world.Serves json sys'.logs
  grows : ∀ topic, sys.logs topic <+: sys'.logs topic

namespace LogMoves

variable {json : RecordJson} {sys sys' : Sys}

theorem refl (sys : Sys) : LogMoves json sys sys :=
  ⟨id, fun _ h => h, fun _ => List.prefix_rfl⟩

theorem grows_produce (json : RecordJson) (sys : Sys) (env : ProduceEnv) (source : Source)
    (topicName : String)
    (key value : Bytes) (headers : OrdMap String String) (topic : String) :
    sys.logs topic <+:
      (sys.produce json env source topicName key value headers).1.logs topic := by
  rw [Sys.logs_produce]
  by_cases heq : topic = topicName
  · subst heq
    simp
  · rw [Function.update_of_ne heq]

theorem of_step {action : Action} (h : sys.step json action = some sys') :
    LogMoves json sys sys' := by
  cases Sys.effect_of_step h with
  | quiet hfs hdir htopics _ hwritten =>
      refine ⟨fun hdirs => hdirs.of_subset (Broker.segmentDir_congr hdir) ?_,
        fun _ hserves => ?_, ?_⟩
      · intro name hname
        rwa [htopics]
      · have hworld := hserves.congr_broker htopics hdir
        rw [← hfs] at hworld
        rw [Sys.logs_congr hwritten]
        exact hworld
      · rw [Sys.logs_congr hwritten]
        exact fun _ => List.prefix_rfl
  | create fault name _ hworld hwritten =>
      rw [Sys.createTopic] at hworld
      refine ⟨fun hdirs => ?_, fun hdirs hserves => ?_, ?_⟩
      · rw [hworld] at hdirs
        refine hdirs.of_subset (World.segmentDir_createTopic fault sys.world name)
          fun name' h' => ?_
        rcases sys.world.createTopic_broker fault name with hb | ⟨-, topic, hb⟩
        · rwa [hb]
        · rw [World.topics_of_insert hb]
          split <;> simp [h']
      · rw [hworld] at hdirs
        rw [hworld, Sys.logs_congr hwritten]
        exact serves_createTopic hserves hdirs
      · rw [Sys.logs_congr hwritten]
        exact fun _ => List.prefix_rfl
  | produce env r source _ hworld hwritten =>
      refine ⟨fun hdirs => ?_, fun _ hserves => ?_, ?_⟩
      · rw [hworld] at hdirs
        refine hdirs.of_subset ?_ fun name' h' => ?_
        · rcases sys.world.produce_broker json env r.topic r.key r.value r.headers with
            hb | ⟨topic, topic', -, hb⟩
          · exact Broker.segmentDir_congr (congrArg Broker.dir hb)
          · exact World.segmentDir_of_insert hb
        · exact (World.isSome_topics_produce json env sys.world r.topic r.key r.value r.headers
            name').mpr h'
      · rw [hworld, Sys.logs_congr hwritten, Sys.logs_produce]
        exact (World.tracks_serves json).produce env r.topic r.key r.value r.headers hserves
      · rw [Sys.logs_congr hwritten]
        exact grows_produce json sys env source r.topic r.key r.value r.headers

theorem of_brokerMove (h : BrokerMove json sys sys') : LogMoves json sys sys' := by
  cases h with
  | stays => exact refl sys
  | acts action hstep => exact of_step hstep
  | commitsOffset mkdirOk o topic group offset =>
      obtain ⟨fs, hw, -⟩ := sys.world.exists_commitOffset mkdirOk o topic group offset
      refine ⟨fun hdirs => ?_, fun _ hserves => ?_, fun _ => List.prefix_rfl⟩
      · rw [hw] at hdirs
        exact hdirs
      · exact serves_commitOffset hserves mkdirOk o topic group offset

end LogMoves

/-! ### Records at their offsets -/

/-- The log has a record with these contents at the offset of `r`. -/
def HeldAt (log : List Record) (sent : TxRecord) (r : Record) : Prop :=
  0 ≤ r.offset ∧ ∃ stored, log[r.offset.toNat]? = some stored ∧ stored.key = sent.key ∧
    stored.value = sent.value ∧ stored.headers = sent.headers

theorem HeldAt.mono {log log' : List Record} {sent : TxRecord} {r : Record}
    (h : HeldAt log sent r) (hle : log <+: log') : HeldAt log' sent r := by
  obtain ⟨hpos, stored, hget, hsame⟩ := h
  obtain ⟨rest, rfl⟩ := hle
  refine ⟨hpos, stored, ?_, hsame⟩
  rw [List.getElem?_append_left (List.getElem?_eq_some_iff.mp hget).1, hget]

/-- A `Produce` that succeeds returns the offset at which its record is. -/
theorem heldAt_produce {json : RecordJson} {sys : Sys} {env : ProduceEnv} {source : Source}
    (sent : TxRecord) {rec : Record} (hserves : sys.world.Serves json sys.logs)
    (hok : (sys.produce json env source sent.topic sent.key sent.value sent.headers).2 = .ok rec) :
    HeldAt ((sys.produce json env source sent.topic sent.key sent.value sent.headers).1.logs
      sent.topic) sent rec := by
  have hp : sys.world.produce json env sent.topic sent.key sent.value sent.headers =
      ((sys.produce json env source sent.topic sent.key sent.value sent.headers).1.world,
        .ok rec) := by
    rw [← hok]
    rfl
  rcases hserves.produce hp with ⟨-, ⟨e, he⟩, -⟩ | ⟨topic, topic', -, happ, -, -, hres⟩
  · cases he
  · rcases hres with ⟨hrec, -⟩ | ⟨he, -⟩
    · obtain rfl := Except.ok.inj hrec
      rw [Sys.logs_produce, happ, Function.update_self]
      refine ⟨Int.natCast_nonneg _, _, ?_, World.appended_eq_some happ⟩
      simp
    · cases he

/-! ### What an answer tells -/

/-- The record that a request asks to append. -/
def ProduceRequest.sent (p : ProduceRequest) : TxRecord :=
  ⟨p.topic, Utf8.encode p.key, Utf8.encode p.value, p.headers⟩

def IdemArgs.sent (a : IdemArgs) : TxRecord := ⟨a.topicName, a.key, a.value, a.headers⟩

/-- The record that an answer reports as appended, and what was sent for it. -/
def Answer.stored? (lib : Library α) (a : Answer) : Option (TxRecord × Record) :=
  match a.resp.body with
  | .record r => (lib.produce a.req.body).map fun p => (ProduceRequest.sent p, r)
  | .idempotent r false => (lib.idempotent a.req.body).map fun p => (IdemArgs.sent p.args, r)
  | _ => none

/-- What an answer tells about the logs; `f` is what decoding makes of a stored record. -/
structure Seen (f : Record → Record) (lib : Library α) (logs : String → List Record) (a : Answer) :
    Prop where
  stored : ∀ sent r, a.stored? lib = some (sent, r) → HeldAt (logs sent.topic) sent r
  read : ∀ recs, a.resp.body = .records recs → ∃ topic fromOffset max,
    a.req.Asks topic fromOffset max ∧
      recs = (((logs topic).map f).drop fromOffset.toNat).take max.toNat

theorem seen_of_plain {f : Record → Record} {logs : String → List Record} {a : Answer}
    (h : a.resp.body.plain = true) : Seen f lib logs a := by
  refine ⟨fun sent r hstored => ?_, fun recs hrecs => ?_⟩
  · unfold Answer.stored? at hstored
    split at hstored
    · next heq =>
        rw [heq] at h
        cases h
    · next heq =>
        rw [heq] at h
        cases h
    · cases hstored
  · rw [hrecs] at h
    cases h

theorem seen_of_reads {f : Record → Record} (hjson : lib.json.Decodes f) {sys : Sys}
    (hserves : sys.world.Serves lib.json sys.logs) {id : ℕ} {req : Request} {recs : List Record}
    (h : sys.world.handleConsume lib.json req.method
      ⟨req.query "topic", req.query "offset", req.query "max"⟩ = .ok recs) :
    Seen f lib sys.logs ⟨id, req, ⟨200, .records recs⟩⟩ := by
  refine ⟨nofun, fun recs' hrecs => ?_⟩
  obtain rfl : recs = recs' := by cases hrecs; rfl
  rcases handleConsume_cases lib sys.world req with
    ⟨e, herror, -⟩ | ⟨topic, fromOffset, max, recs', hasks, hpos, hconsume, hok⟩
  · cases h.symm.trans herror
  obtain rfl := Except.ok.inj (h.symm.trans hok)
  refine ⟨topic, fromOffset, max, hasks, ?_⟩
  cases ht : sys.world.broker.topics[topic]? with
  | none =>
      rw [World.consume, ht] at hconsume
      cases hconsume
  | some t =>
      rw [hserves.consume_eq hjson ht, Segment.effectiveMax, if_neg (by omega)] at hconsume
      exact (Except.ok.inj hconsume).symm

/-! ### Calls of `ProduceIdempotent` -/

/-- What the calls have appended is in the logs. -/
def IdemHeld (sys : Sys) : Prop :=
  ∀ (call : ℕ) (c : IdemCall), sys.idem[call]? = some c → ∀ rec,
    (c.phase = .produced rec ∨ c.phase = .done rec false) →
      HeldAt (sys.logs c.args.topicName) (IdemArgs.sent c.args) rec

theorem IdemHeld.mono {sys sys' : Sys} (h : IdemHeld sys)
    (hgrows : ∀ topic, sys.logs topic <+: sys'.logs topic) (hidem : sys'.idem = sys.idem) :
    IdemHeld sys' := by
  intro call c hc rec hphase
  rw [hidem] at hc
  exact (h call c hc rec hphase).mono (hgrows _)

theorem IdemHeld.setIdem {sys : Sys} (h : IdemHeld sys) {id : ℕ} {c : IdemCall}
    (hc : ∀ rec, (c.phase = .produced rec ∨ c.phase = .done rec false) →
      HeldAt (sys.logs c.args.topicName) (IdemArgs.sent c.args) rec) :
    IdemHeld (sys.setIdem id c) := by
  intro call c' hc' rec hphase
  rcases OrdMap.getElem?_insert_cases hc' with ⟨rfl, rfl⟩ | ⟨-, hold⟩
  · exact hc rec hphase
  · exact h call c' hold rec hphase

/-- A call in its next phase. -/
structure IdemMoves (sys : Sys) (id : ℕ) (sys' : Sys) (c c' : IdemCall) : Prop where
  before : sys.idem[id]? = some c
  after : sys'.idem = sys.idem.insert id c'
  args : c'.args = c.args
  held : IdemHeld sys'

theorem nextIdempotent_cases {env : Outside} {sys sys' : Sys} {id : ℕ}
    (hserves : sys.world.Serves lib.json sys.logs) (hheld : IdemHeld sys)
    (h : nextIdempotent lib env sys id = some sys') : ∃ c c', IdemMoves sys id sys' c c' := by
  unfold nextIdempotent at h
  split at h
  · obtain ⟨a, hcall, hres⟩ := Sys.idemProduce_cases h
    have hheld' := hheld.mono (LogMoves.grows_produce lib.json sys env.produce (.idem id a)
      a.topicName a.key a.value a.headers) rfl
    rcases hres with ⟨rec, hok, rfl⟩ | ⟨e, -, rfl⟩
    · refine ⟨_, ⟨a, .produced rec⟩, hcall, rfl, rfl, hheld'.setIdem ?_⟩
      rintro rec' (heq | heq)
      · cases heq
        exact heldAt_produce (IdemArgs.sent a) hserves hok
      · cases heq
    · refine ⟨_, ⟨a, .failed e⟩, hcall, rfl, rfl, hheld'.setIdem ?_⟩
      rintro rec' (heq | heq) <;> cases heq
  · obtain ⟨a, rec, hcall, rfl⟩ := Sys.idemRecord_cases h
    refine ⟨_, ⟨a, .done rec false⟩, hcall, rfl, rfl, IdemHeld.setIdem hheld ?_⟩
    rintro rec' (heq | heq)
    · cases heq
    · cases heq
      exact hheld id _ hcall rec (.inl rfl)
  · cases h

theorem idem_nextCommit {env : Outside} {sys sys' : Sys} {id : ℕ}
    (h : nextCommit lib env sys id = some sys') : sys'.idem = sys.idem := by
  unfold nextCommit at h
  split at h
  · split at h
    · obtain ⟨txID, p, records, k, r, -, -, ⟨rec, -, rfl⟩ | ⟨e, -, rfl⟩⟩ :=
        Sys.commitProduce_cases h <;> rfl
    · split at h
      · obtain ⟨txID, p, records, k, r, -, -, ⟨topic, -, rfl⟩ | ⟨e, -, rfl⟩⟩ :=
          Sys.commitCreate_cases h <;> rfl
      · exact (Sys.sameLogs_commitFinish h).idem
  · cases h

theorem idem_commitStart (sys : Sys) (id : ℕ) (txID : String) :
    ((sys.commitStart id txID).getD sys).idem = sys.idem := by
  cases hstart : sys.commitStart id txID with
  | none => rfl
  | some sys' => exact (Sys.sameLogs_commitStart hstart).idem

/-! ### All answers of a run -/

namespace Server

structure LogOk (f : Record → Record) (lib : Library α) (s : Server α) : Prop where
  serves : s.sys.world.Serves lib.json s.sys.logs
  stages : ∀ (id : ℕ) (req : Request) (stage : Stage), s.requests[id]? = some (req, stage) →
    StageOk lib req stage
  held : IdemHeld s.sys
  calls : ∀ (id : ℕ) (req : Request) (topic : String),
    s.requests[id]? = some (req, .idempotent topic) →
      ∃ c p, s.sys.idem[id]? = some c ∧ lib.idempotent req.body = some p ∧ c.args = p.args
  seen : ∃ size : String → ℕ → ℕ, (∀ topic, Monotone (size topic)) ∧
    (∀ topic i, size topic i ≤ (s.sys.logs topic).length) ∧
    ∀ (i : ℕ) (a : Answer), s.answers[i]? = some a →
      Seen f lib (fun topic => (s.sys.logs topic).take (size topic i)) a

/-- What a section leaves for `LogOk`. -/
structure LogSection (f : Record → Record) (lib : Library α) (sys : Sys) (id : ℕ) (req : Request)
    (hd : Handled α) : Prop where
  moves : LogMoves lib.json sys hd.sys
  held : IdemHeld hd.sys
  others : ∀ call : ℕ, id ≠ call → hd.sys.idem[call]? = sys.idem[call]?
  call : ∀ topic, hd.stage = .idempotent topic →
    ∃ c p, hd.sys.idem[id]? = some c ∧ lib.idempotent req.body = some p ∧ c.args = p.args
  seen : ∀ a ∈ newAnswers id req hd.stage, Seen f lib hd.sys.logs a

variable {f : Record → Record} {s s' : Server α} {id : ℕ} {req : Request} {stage : Stage}
  {hd : Handled α}

/-- A section without a call of `ProduceIdempotent`. -/
theorem logSection_of_idem (h : s.LogOk f lib) (hmoves : LogMoves lib.json s.sys hd.sys)
    (hidem : hd.sys.idem = s.sys.idem) (hcall : ∀ topic, hd.stage ≠ .idempotent topic)
    (hseen : ∀ resp, hd.stage = .answered resp → Seen f lib hd.sys.logs ⟨id, req, resp⟩) :
    LogSection f lib s.sys id req hd := by
  refine ⟨hmoves, h.held.mono hmoves.grows hidem, fun call _ => by rw [hidem],
    fun topic htopic => absurd htopic (hcall topic), fun a ha => ?_⟩
  obtain ⟨rfl, rfl, hstage⟩ := mem_newAnswers ha
  exact hseen a.resp hstage

theorem logSection_of_plain (h : s.LogOk f lib) (hmoves : LogMoves lib.json s.sys hd.sys)
    (hidem : hd.sys.idem = s.sys.idem) {resp : Response} (hstage : hd.stage = .answered resp)
    (hplain : resp.body.plain = true) : LogSection f lib s.sys id req hd := by
  refine logSection_of_idem h hmoves hidem (fun topic hc => ?_) fun resp' hresp => ?_
  · rw [hstage] at hc
    cases hc
  · obtain rfl := Stage.answered.inj (hstage.symm.trans hresp)
    exact seen_of_plain hplain

theorem logSection_afterIdempotent {sys sys' : Sys} {metrics : Metrics α} {topic : String}
    (hmoves : LogMoves lib.json sys sys') (hheld : IdemHeld sys') {c : IdemCall}
    (hidem : sys'.idem = sys.idem.insert id c) {p : IdempotentRequest}
    (hp : lib.idempotent req.body = some p) (hargs : c.args = p.args) :
    LogSection f lib sys id req (afterIdempotent sys' metrics id topic) := by
  have hc : sys'.idem[id]? = some c := by
    rw [hidem, OrdMap.getElem?_insert_self']
  have hsys := sys_afterIdempotent sys' metrics id topic
  refine ⟨by rwa [hsys], by rwa [hsys], fun call hne => ?_, fun _ _ => ?_, fun a ha => ?_⟩
  · rw [hsys, hidem, OrdMap.getElem?_insert_of_ne _ _ hne]
  · rw [hsys]
    exact ⟨c, p, hc, hp, hargs⟩
  · rw [hsys]
    obtain ⟨rfl, rfl, hstage⟩ := mem_newAnswers ha
    unfold afterIdempotent at hstage
    rw [hc] at hstage
    split at hstage
    · next rec duplicate hphase =>
        have hbody : a.resp.body = .idempotent rec duplicate := by
          rw [← Stage.answered.inj hstage]
        refine ⟨fun sent r hstored => ?_, fun recs hrecs => ?_⟩
        · cases duplicate with
          | true => simp [Answer.stored?, hbody] at hstored
          | false =>
              simp only [Answer.stored?, hbody, hp, Option.map_some, Option.some.injEq,
                Prod.mk.injEq] at hstored
              obtain ⟨rfl, rfl⟩ := hstored
              rw [← hargs]
              exact hheld a.id c hc rec (.inr (Option.some.inj hphase))
        · rw [hbody] at hrecs
          cases hrecs
    · refine seen_of_plain ?_
      rw [← Stage.answered.inj hstage]
      rfl
    · cases hstage

theorem logSection_of_section (h : s.LogOk f lib) (hjson : lib.json.Decodes f) {env : Outside}
    (hreq : s.requests[id]? = some (req, stage))
    (hsec : Section lib s.apiKey env s.sys s.metrics id req stage hd) :
    LogSection f lib s.sys id req hd := by
  have hstage := h.stages id req stage hreq
  have hmoves := LogMoves.of_brokerMove hsec.brokerMove
  cases hsec with
  | stops | produceFails | measures | drains | stages | aborts =>
      exact logSection_of_plain h hmoves rfl rfl rfl
  | refuses _ hbody => exact logSection_of_plain h hmoves rfl rfl hbody
  | opens => exact logSection_of_idem h hmoves rfl (fun _ => nofun) (fun _ => nofun)
  | scrapes hnext =>
      rcases hnext with ⟨sample, rfl⟩ | ⟨others, rfl⟩ | ⟨text, rfl⟩
      · exact logSection_of_idem h hmoves rfl (fun _ => nofun) (fun _ => nofun)
      · exact logSection_of_plain h hmoves rfl rfl rfl
      · exact logSection_of_plain h hmoves rfl rfl rfl
  | answers _ hplain | creates _ hplain => exact logSection_of_plain h hmoves rfl rfl hplain.body
  | begins =>
      exact logSection_of_plain h hmoves (s.sys.sameLogs_beginTransaction _ _ _ _).idem rfl rfl
  | reads hroute hconsume =>
      refine logSection_of_idem h hmoves rfl (fun _ => nofun) ?_
      rintro _ ⟨⟩
      exact seen_of_reads hjson h.serves hconsume
  | createsFirst hcreated hnext =>
      refine logSection_of_idem h hmoves rfl (fun topic hc => ?_) fun resp hc => ?_
      · obtain rfl : _ = Stage.idempotent topic := hc
        cases hcreated
      · obtain rfl : _ = Stage.answered resp := hc
        cases hcreated
  | @produces p rec hok =>
      refine logSection_of_idem h hmoves rfl (fun _ => nofun) ?_
      rintro _ ⟨⟩
      refine ⟨fun sent r hstored => ?_, nofun⟩
      rw [Answer.stored?, hstage.2] at hstored
      obtain ⟨rfl, rfl⟩ := Prod.mk.inj (Option.some.inj hstored)
      exact heldAt_produce (ProduceRequest.sent p) h.serves hok
  | checks hcheck =>
      rw [sys_afterIdempotent] at hmoves
      obtain ⟨-, phase, rfl, hphase⟩ := Sys.idemCheck_cases hcheck
      refine logSection_afterIdempotent hmoves (h.held.setIdem ?_) rfl hstage.2 rfl
      -- the check appends nothing
      rintro rec (rfl | rfl) <;>
        rcases hphase with ⟨e, heq⟩ | ⟨rec', heq, -⟩ | ⟨heq, -⟩ <;> cases heq
  | continues hnext =>
      rw [sys_afterIdempotent] at hmoves
      obtain ⟨c, c', hcall⟩ := nextIdempotent_cases h.serves h.held hnext
      obtain ⟨c₀, p, hc₀, hp, hargs⟩ := h.calls id req _ hreq
      obtain rfl := Option.some.inj (hcall.before.symm.trans hc₀)
      exact logSection_afterIdempotent hmoves hcall.held hcall.after hp (hcall.args.trans hargs)
  | commitsOffset hroute hnext =>
      refine logSection_of_idem h hmoves rfl (fun topic hc => ?_) fun resp hc => ?_
      · rcases hnext with rfl | ⟨e, rfl⟩ <;> cases hc
      · rcases hnext with rfl | ⟨e, rfl⟩
        · cases hc
        · cases hc
          exact seen_of_plain rfl
  | starts =>
      exact logSection_of_idem h hmoves (idem_commitStart _ _ _) (fun _ => nofun) (fun _ => nofun)
  | @commits txID sys' hnext =>
      have hidem : (afterCommit sys' s.metrics id txID).sys.idem = s.sys.idem := by
        rw [sys_afterCommit, idem_nextCommit hnext]
      rcases stage_afterCommit sys' s.metrics id txID with heq | ⟨resp, heq, -, hplain⟩
      · refine logSection_of_idem h hmoves hidem (fun topic hc => ?_) fun resp hc => ?_
        · cases heq.symm.trans hc
        · cases heq.symm.trans hc
      · exact logSection_of_plain h hmoves hidem heq hplain

/-- The logs up to the lengths they had are as they were. -/
theorem seen_mono {logs logs' : String → List Record} (hgrows : ∀ topic, logs topic <+: logs' topic)
    {size : String → ℕ} (hsize : ∀ topic, size topic ≤ (logs topic).length) {a : Answer}
    (h : Seen f lib (fun topic => (logs topic).take (size topic)) a) :
    Seen f lib (fun topic => (logs' topic).take (size topic)) a := by
  have hsame : (fun topic => (logs' topic).take (size topic)) =
      fun topic => (logs topic).take (size topic) := by
    funext topic
    obtain ⟨rest, hrest⟩ := hgrows topic
    rw [← hrest, List.take_append_of_le_length (hsize topic)]
  rwa [hsame]

theorem LogOk.put (h : s.LogOk f lib) {env : Outside}
    (hreq : s.requests[id]? = some (req, stage)) (hdirs : DistinctDirs hd.sys.world)
    (hsec : Section lib s.apiKey env s.sys s.metrics id req stage hd)
    (hlog : LogSection f lib s.sys id req hd) : (s.put id req hd).LogOk f lib := by
  refine ⟨hlog.moves.serves hdirs h.serves, fun id' req' stage' hreq' => ?_, hlog.held,
    fun id' req' topic hreq' => ?_, ?_⟩
  · rcases OrdMap.getElem?_insert_cases hreq' with ⟨rfl, heq⟩ | ⟨-, hold⟩
    · obtain ⟨rfl, rfl⟩ := Prod.mk.inj heq
      exact hsec.stageOk (h.stages id req stage hreq)
    · exact h.stages id' req' stage' hold
  · rcases OrdMap.getElem?_insert_cases hreq' with ⟨rfl, heq⟩ | ⟨hne, hold⟩
    · obtain ⟨rfl, hstage⟩ := Prod.mk.inj heq
      exact hlog.call topic hstage
    · obtain ⟨c, p, hc, hrest⟩ := h.calls id' req' topic hold
      exact ⟨c, p, (hlog.others id' hne).trans hc, hrest⟩
  · obtain ⟨size, hmono, hle, hseen⟩ := h.seen
    -- the answers from here on see the logs as they are now
    refine ⟨fun topic i => if i < s.answers.length then size topic i
      else (hd.sys.logs topic).length, fun topic i j hij => ?_, fun topic i => ?_,
      fun i a ha => ?_⟩
    · have hlong := (hlog.moves.grows topic).length_le
      dsimp only
      split
      · split
        · exact hmono topic hij
        · exact (hle topic i).trans hlong
      · rw [if_neg (by omega)]
    · dsimp only
      split
      · exact (hle topic i).trans (hlog.moves.grows topic).length_le
      · exact Nat.le_refl _
    · by_cases hi : i < s.answers.length
      · rw [Server.put, List.getElem?_append_left hi] at ha
        simp only [if_pos hi]
        exact seen_mono hlog.moves.grows (fun topic => hle topic i) (hseen i a ha)
      · rw [Server.put, List.getElem?_append_right (by omega)] at ha
        simp only [if_neg hi]
        have hfull := hlog.seen a (List.mem_of_getElem? ha)
        simpa [Server.put] using hfull

theorem LogOk.step (h : s.LogOk f lib) (hjson : lib.json.Decodes f) {e : Event}
    (hdirs : DistinctDirs s'.sys.world) (hstep : s.step lib e = some s') : s'.LogOk f lib := by
  cases e with
  | arrive id req =>
      obtain ⟨-, rfl⟩ := step_arrive_cases hstep
      refine ⟨h.serves, fun id' req' stage' hreq' => ?_, h.held, fun id' req' topic hreq' => ?_,
        h.seen⟩
      · rcases OrdMap.getElem?_insert_cases hreq' with ⟨-, heq⟩ | ⟨-, hold⟩
        · rw [← (Prod.mk.inj heq).2]
          trivial
        · exact h.stages id' req' stage' hold
      · rcases OrdMap.getElem?_insert_cases hreq' with ⟨-, heq⟩ | ⟨-, hold⟩
        · cases heq
        · exact h.calls id' req' topic hold
  | advance id env =>
      obtain ⟨req, stage, hd, hreq, hresume, rfl⟩ := step_advance_cases hstep
      have hsec := Section.of_resume hresume
      exact h.put hreq hdirs hsec (logSection_of_section h hjson hreq hsec)
  | record id what =>
      obtain ⟨traffic, -, rfl⟩ := step_record_cases hstep
      exact ⟨h.serves, h.stages, h.held, h.calls, h.seen⟩

theorem distinctDirs_of_step {e : Event} (hstep : s.step lib e = some s')
    (hdirs : DistinctDirs s'.sys.world) : DistinctDirs s.sys.world := by
  cases e with
  | arrive id req =>
      obtain ⟨-, rfl⟩ := step_arrive_cases hstep
      exact hdirs
  | advance id env =>
      obtain ⟨req, stage, hd, -, hresume, rfl⟩ := step_advance_cases hstep
      exact (LogMoves.of_brokerMove (Section.of_resume hresume).brokerMove).dirs hdirs
  | record id what =>
      obtain ⟨traffic, -, rfl⟩ := step_record_cases hstep
      exact hdirs

theorem logOk_start {fs : FileTree} {dir : SlashPath} {b : Broker}
    (hb : newBroker true dir = .ok b)
    (hfs : ∀ name, ∀ p ∈ files (b.segmentDir name), fs p = none) (apiKey : String) :
    (start apiKey ⟨fs, b⟩ : Server α).LogOk f lib := by
  refine ⟨World.Serves.start (by rw [eq_fresh_of_newBroker hb]; rfl) hfs, ?_, ?_, ?_,
    ⟨fun _ _ => 0, fun _ => monotone_const, fun _ _ => Nat.zero_le _, ?_⟩⟩
  · simp [start]
  · simp [IdemHeld, start, Sys.init]
  · simp [start]
  · simp [start]

theorem logOk_run {fs : FileTree} {dir : SlashPath} {b : Broker} {apiKey : String}
    {events : List Event} (hb : newBroker true dir = .ok b)
    (hfs : ∀ name, ∀ p ∈ files (b.segmentDir name), fs p = none) (hjson : lib.json.Decodes f)
    (hrun : exec (Server.step lib) (start apiKey ⟨fs, b⟩) events = some s)
    (hdirs : DistinctDirs s.sys.world) : s.LogOk f lib :=
  invariant (fun t : Server α => DistinctDirs t.sys.world → t.LogOk f lib)
    (fun _ _ _ ih hstep hdirs' => (ih (distinctDirs_of_step hstep hdirs')).step hjson hdirs' hstep)
    hrun (fun _ => logOk_start hb hfs apiKey) hdirs

end Server

/-- What was acknowledged can be read. In every run of the server on a new directory in which no two
topics share a directory, with any number of requests handled at once and any failures of file
operations: the log of each topic has at each moment at which an answer is given some length, which
never decreases. A record that an answer reports as appended is at its offset of the log within this
length, with the key, the value and the headers that were sent, and an answer of `/consume` is the
block of exactly this part of the log that the query asks for. So all records that were acknowledged
before, and what was read before, are seen again by every later reader. -/
theorem acknowledged_records_readable {f : Record → Record} (hjson : lib.json.Decodes f)
    {apiKey : String} {fs : FileTree} {dir : SlashPath} {b : Broker} {events : List Event}
    {s : Server α} (hb : newBroker true dir = .ok b)
    (hfs : ∀ name, ∀ p ∈ files (b.segmentDir name), fs p = none)
    (hrun : exec (Server.step lib) (.start apiKey ⟨fs, b⟩) events = some s)
    (hdirs : DistinctDirs s.sys.world) :
    ∃ size : String → ℕ → ℕ, (∀ topic, Monotone (size topic)) ∧
      ∀ (i : ℕ) (a : Answer), s.answers[i]? = some a →
        (∀ sent r, a.stored? lib = some (sent, r) →
          HeldAt ((s.sys.logs sent.topic).take (size sent.topic i)) sent r) ∧
        ∀ recs, a.resp.body = .records recs → ∃ topic fromOffset max,
          a.req.Asks topic fromOffset max ∧
          recs = ((((s.sys.logs topic).take (size topic i)).map f).drop fromOffset.toNat).take
            max.toNat := by
  obtain ⟨size, hmono, -, hseen⟩ := (Server.logOk_run hb hfs hjson hrun hdirs).seen
  exact ⟨size, hmono, fun i a ha => ⟨(hseen i a ha).stored, (hseen i a ha).read⟩⟩

/-- Two requests that append while a third one reads. -/
def acknowledgedSample : List Event :=
  let go (id : ℕ) : Event := .advance id (sampleOutside 0)
  let consume : Request :=
    ⟨.get, "/consume", fun name => if name = "topic" then asciiBytes "t" else [], "", []⟩
  [.arrive 0 (samplePost "/produce" [1]), .arrive 1 (samplePost "/produce" [1]), go 0, go 1, go 1,
    .arrive 2 consume, go 2, go 0]

theorem acknowledged_records_readable_sample :
    ∃ (s : Server ℤ) (size : String → ℕ → ℕ),
      exec (Server.step sampleLibrary) (.start "" ⟨fun _ => none, .fresh ⟨true, ["d"]⟩⟩)
        acknowledgedSample = some s ∧
      s.answers.map Answer.id = [1, 2, 0] ∧
      (s.answers.filterMap (Answer.stored? sampleLibrary)).map (fun e => e.2.offset) = [0, 1] ∧
      (∀ topic, Monotone (size topic)) ∧
      ∀ (i : ℕ) (a : Answer), s.answers[i]? = some a →
        ∀ sent r, a.stored? sampleLibrary = some (sent, r) →
          HeldAt ((s.sys.logs sent.topic).take (size sent.topic i)) sent r := by
  obtain ⟨s, hrun, hids, hoffsets, hdirs⟩ : ∃ s, exec (Server.step sampleLibrary)
        (.start "" ⟨fun _ => none, .fresh ⟨true, ["d"]⟩⟩) acknowledgedSample = some s ∧
      s.answers.map Answer.id = [1, 2, 0] ∧
      (s.answers.filterMap (Answer.stored? sampleLibrary)).map (fun e => e.2.offset) = [0, 1] ∧
      DistinctDirs s.sys.world :=
    exists_exec_of_any (by decide +kernel)
  have hjson : sampleLibrary.json.Decodes id := sampleJson_faithful
  obtain ⟨size, hmono, hall⟩ :=
    acknowledged_records_readable hjson rfl (fun _ _ _ => rfl) hrun hdirs
  exact ⟨s, size, hrun, hids, hoffsets, hmono, fun i a ha => (hall i a ha).1⟩

end StreamFlow.Management
