import StreamFlow.Broker.Logs
import StreamFlow.Broker.Success
import StreamFlow.Broker.TxProtocol
import StreamFlow.Broker.Sample

/-!
# Commits that fail

`CommitTransaction` marks its transaction, then creates the topic of each staged
record and appends the record, giving up at the first error. It takes nothing back:
a commit is all or nothing exactly when every `CreateTopic` and every `Produce` it
makes finds what it needs.
-/

namespace StreamFlow

open BigEndian Run

/-- The call has returned an error. -/
def CommitCall.Failed (c : CommitCall) : Prop :=
  match c.phase with
  | .failed _ => True
  | _ => False

namespace Sys

/-- `Consume` shows the logs; if the commit has returned an error, none of them has a record of
its transaction and the transaction is open; if it has returned nil, each of them has the
records of the transaction for its topic, once and in their order. -/
def AllOrNothing (json : RecordJson) (f : Record → Record) (base : String → List Record)
    (s : Sys) (c : CommitCall) : Prop :=
  match c.phase with
  | .creating | .producing => True
  | .done => s.ShowsLogs json f base ∧ ∃ tx, s.world.broker.transactions[c.ptr]? = some tx ∧
      ∀ topic, s.committedAt c.ptr topic = tx.records.filter fun r => decide (r.topic = topic)
  | .failed _ => s.ShowsLogs json f base ∧ (∀ topic, s.committedAt c.ptr topic = []) ∧
      (s.world.broker.transactions[c.ptr]?).map Transaction.status = some .opened

/-- The record the commit `call` is at. -/
def nextRecord (s : Sys) (call : ℕ) : Option TxRecord :=
  (s.commits[call]?).bind fun c => c.records[c.committed]?

/-- The `CreateTopic` or the `Produce` that the commit `call` makes in this step, if it
makes one, finds what it needs. -/
def CommitUnhindered (json : RecordJson) (call : ℕ) (s : Sys) : Action → Prop
  | .commitCreate call' fault => call' = call → ∀ r ∈ s.nextRecord call,
      s.world.CanCreateTopic fault r.topic
  | .commitProduce call' env => call' = call → ∀ r ∈ s.nextRecord call,
      s.world.CanProduce json env r.topic r.key r.value r.headers
  | _ => True

instance (json : RecordJson) (call : ℕ) (s : Sys) :
    ∀ action, Decidable (s.CommitUnhindered json call action)
  | .commitCreate _ _ => inferInstanceAs (Decidable (_ → ∀ r ∈ s.nextRecord call, _))
  | .commitProduce _ _ => inferInstanceAs (Decidable (_ → ∀ r ∈ s.nextRecord call, _))
  | .createTopic .. | .produce .. | .drain .. | .idemCheck .. | .idemProduce .. | .idemRecord _
  | .beginTransaction .. | .txProduce .. | .commitStart .. | .commitFinish _
  | .abortTransaction _ => inferInstanceAs (Decidable True)

/-- The commit `call` has returned an error. -/
def CommitFailed (call : ℕ) (s : Sys) : Prop := ∃ c, s.commits[call]? = some c ∧ c.Failed

variable {json : RecordJson} {s s' : Sys} {call call' : ℕ} {c : CommitCall}

theorem commitFailed_congr (h : s'.commits[call]? = s.commits[call]?) :
    s'.CommitFailed call ↔ s.CommitFailed call := by
  rw [CommitFailed, CommitFailed, h]

theorem commitFailed_setCommit_self : (s.setCommit call c).CommitFailed call ↔ c.Failed := by
  have hget : (s.setCommit call c).commits[call]? = some c := OrdMap.getElem?_insert_self' _ _ _
  rw [CommitFailed, hget]
  exact ⟨fun ⟨c', hc', hfailed⟩ => Option.some.inj hc' ▸ hfailed, fun hfailed => ⟨c, rfl, hfailed⟩⟩

theorem commitFailed_setCommit_of_ne (hne : call' ≠ call) :
    (s.setCommit call' c).CommitFailed call ↔ s.CommitFailed call :=
  commitFailed_congr (OrdMap.getElem?_insert_of_ne _ _ hne)

theorem nextRecord_eq {r : TxRecord} (hc : s.commits[call]? = some c)
    (hr : c.records[c.committed]? = some r) : s.nextRecord call = some r := by
  rw [nextRecord, hc, Option.bind_some, hr]

/-- A commit takes a turn and fails or not; only this commit is concerned. -/
theorem commitFailed_turn {s₁ : Sys} (hcommits : s₁.commits = s.commits)
    (hno : ¬ s.CommitFailed call) {ok : Prop} (hfailed : c.Failed ↔ ¬ ok) :
    (s₁.setCommit call' c).CommitFailed call ↔ ¬ (call' = call → ok) := by
  by_cases heq : call' = call
  · subst heq
    rw [commitFailed_setCommit_self, hfailed, forall_prop_of_true rfl]
  · have hold : s₁.CommitFailed call ↔ s.CommitFailed call :=
      commitFailed_congr (by rw [hcommits])
    rw [commitFailed_setCommit_of_ne heq, hold]
    exact iff_of_false hno (not_not.mpr fun hc => absurd hc heq)

/-- A commit whose `CreateTopic` or `Produce` has the result `res` fails exactly when
that is an error. -/
theorem commitFailed_of_result {α : Type} {s₁ : Sys} {res : Except BrokerError α}
    {next : CommitCall} {stop : BrokerError → CommitCall}
    (hres : (∃ a, res = .ok a ∧ s' = s₁.setCommit call' next) ∨
      ∃ e, res = .error e ∧ s' = s₁.setCommit call' (stop e))
    (hcommits : s₁.commits = s.commits) (hno : ¬ s.CommitFailed call)
    (hnext : ¬ next.Failed) (hstop : ∀ e, (stop e).Failed) :
    s'.CommitFailed call ↔ ¬ (call' = call → res.isOk = true) := by
  rcases hres with ⟨a, rfl, rfl⟩ | ⟨e, rfl, rfl⟩
  · exact commitFailed_turn hcommits hno (iff_of_false hnext (not_not.mpr rfl))
  · exact commitFailed_turn hcommits hno (iff_of_true (hstop e) Bool.false_ne_true)

theorem commitFailed_commitCreate {fault : Option CreateFault} (hno : ¬ s.CommitFailed call)
    (h : s.commitCreate call' fault = some s') :
    s'.CommitFailed call ↔ ¬ s.CommitUnhindered json call (.commitCreate call' fault) := by
  obtain ⟨id, p, records, k, r, hcall, hr, hres⟩ := commitCreate_cases h
  have hguard : s.CommitUnhindered json call (.commitCreate call' fault) ↔
      (call' = call → (s.createTopic fault r.topic).2.isOk = true) := by
    refine forall_congr' fun heq => ?_
    rw [← heq, nextRecord_eq hcall hr, createTopic, World.createTopic_isOk_iff]
    simp
  rw [hguard]
  exact commitFailed_of_result hres rfl hno (fun hf => hf) (fun _ => trivial)

theorem commitFailed_commitProduce {env : ProduceEnv} (hno : ¬ s.CommitFailed call)
    (h : s.commitProduce json call' env = some s') :
    s'.CommitFailed call ↔ ¬ s.CommitUnhindered json call (.commitProduce call' env) := by
  obtain ⟨id, p, records, k, r, hcall, hr, hres⟩ := commitProduce_cases h
  have hguard : s.CommitUnhindered json call (.commitProduce call' env) ↔ (call' = call →
      (s.produce json env (.commit call' id p) r.topic r.key r.value r.headers).2.isOk =
        true) := by
    refine forall_congr' fun heq => ?_
    rw [← heq, nextRecord_eq hcall hr, produce, World.produce_isOk_iff]
    simp
  rw [hguard]
  exact commitFailed_of_result hres rfl hno (fun hf => hf) (fun _ => trivial)

/-- The remaining steps fail no commit. -/
theorem not_commitFailed_step {action : Action} (hno : ¬ s.CommitFailed call)
    (hcreate : ∀ call' fault, action ≠ .commitCreate call' fault)
    (hproduce : ∀ call' env, action ≠ .commitProduce call' env)
    (h : s.step json action = some s') : ¬ s'.CommitFailed call := by
  have hset : ∀ {s₁ : Sys} {call' : ℕ} {c : CommitCall}, s₁.commits = s.commits → ¬ c.Failed →
      ¬ (s₁.setCommit call' c).CommitFailed call := by
    intro s₁ call' c hcommits hc
    rw [commitFailed_turn hcommits hno (iff_of_false hc (not_not.mpr trivial))]
    exact not_not.mpr fun _ => trivial
  cases action with
  | commitCreate call' fault => exact absurd rfl (hcreate call' fault)
  | commitProduce call' env => exact absurd rfl (hproduce call' env)
  | commitStart call' txID =>
      obtain ⟨-, rfl | ⟨p, tx, -, rfl⟩⟩ := commitStart_cases h
      · exact hno
      · exact hset rfl fun hfailed => hfailed
  | commitFinish call' =>
      obtain ⟨id, p, records, k, -, -, rfl⟩ := commitFinish_cases h
      exact hset rfl fun hfailed => hfailed
  | createTopic fault name =>
      obtain rfl := Option.some.inj h
      exact hno
  | produce env topicName key value headers =>
      obtain rfl := Option.some.inj h
      exact hno
  | drain now d =>
      obtain rfl := Option.some.inj h
      exact hno
  | idemCheck call' a =>
      obtain ⟨-, phase, rfl, -⟩ := idemCheck_cases h
      exact hno
  | idemProduce call' env =>
      obtain ⟨a, -, ⟨rec, -, rfl⟩ | ⟨e, -, rfl⟩⟩ := idemProduce_cases h
      · exact hno
      · exact hno
  | idemRecord call' =>
      obtain ⟨a, rec, -, rfl⟩ := idemRecord_cases h
      exact hno
  | beginTransaction producerID epoch now createdAt =>
      obtain rfl := Option.some.inj h
      rcases s.beginTransaction_cases producerID epoch now createdAt with
        hs | ⟨tx, -, -, -, -, hs⟩
      · rwa [hs]
      · rwa [hs]
  | txProduce txID topic key value headers =>
      obtain rfl := Option.some.inj h
      rcases s.txProduce_cases txID topic key value headers with hs | ⟨p, tx, -, hs⟩
      · rwa [hs]
      · rwa [hs]
  | abortTransaction txID =>
      obtain rfl := Option.some.inj h
      rcases s.abortTransaction_cases txID with hs | ⟨p, tx, -, hs⟩
      · rwa [hs]
      · rwa [hs]

/-- A commit fails in a step exactly when the `CreateTopic` or `Produce` it makes in
the step misses what it needs. -/
theorem commitFailed_step {action : Action} (hno : ¬ s.CommitFailed call)
    (h : s.step json action = some s') :
    s'.CommitFailed call ↔ ¬ s.CommitUnhindered json call action := by
  cases action with
  | commitCreate call' fault => exact commitFailed_commitCreate hno h
  | commitProduce call' env => exact commitFailed_commitProduce hno h
  | _ =>
      have hstill := not_commitFailed_step hno (fun _ _ hc => by cases hc)
        (fun _ _ hc => by cases hc) h
      exact iff_of_false hstill (not_not.mpr trivial)

/-- A commit that has returned an error does nothing more. -/
theorem CommitFailed.step {action : Action} (hfailed : s.CommitFailed call)
    (hinv : TxInv s.txView) (h : s.step json action = some s') : s'.CommitFailed call := by
  obtain ⟨c, hc, hphase⟩ := hfailed
  refine ⟨c, (txView_step hinv h).commits_of_returned hc ?_ ?_, hphase⟩
  · intro heq
    rw [CommitCall.Failed, heq] at hphase
    exact hphase
  · intro heq
    rw [CommitCall.Failed, heq] at hphase
    exact hphase

/-- A commit has not failed after a step exactly if it had not failed before and the step found
what it needs. -/
theorem not_commitFailed_step_iff {action : Action} (hinv : TxInv s.txView)
    (h : s.step json action = some s') :
    ¬ s'.CommitFailed call ↔ ¬ s.CommitFailed call ∧ s.CommitUnhindered json call action := by
  constructor
  · intro hno'
    have hno : ¬ s.CommitFailed call := fun hfailed => hno' (hfailed.step hinv h)
    exact ⟨hno, not_not.mp (mt (commitFailed_step hno h).mpr hno')⟩
  · rintro ⟨hno, hfree⟩ hfailed
    exact (commitFailed_step hno h).mp hfailed hfree

/-- As the commit leaves its transaction marked, it is all or nothing only if it has
not failed. -/
theorem allOrNothing_iff_not_failed {f : Record → Record} {base : String → List Record}
    (hlogs : s.ShowsLogs json f base) (hinv : TxInv s.txView) (hc : s.commits[call]? = some c) :
    s.AllOrNothing json f base c ↔ ¬ c.Failed := by
  obtain ⟨⟨tx, htx, hstatus, hrecords⟩, hprogress⟩ := hinv.call call c hc
  change s.world.broker.transactions[c.ptr]? = some tx at htx
  rw [AllOrNothing, CommitCall.Failed]
  cases hphase : c.phase with
  | creating => simp
  | producing => simp
  | done =>
      rw [CommitCall.Progress, hphase] at hprogress
      refine iff_of_true ⟨hlogs, tx, htx, fun topic => ?_⟩ fun hfailed => hfailed
      rw [committedAt_eq, hprogress, hrecords]
  | failed e =>
      refine iff_of_false (fun h => ?_) (not_not.mpr trivial)
      have hopened := h.2.2
      rw [htx, Option.map_some, hstatus, hphase] at hopened
      cases hopened

end Sys

/-- A commit is all or nothing, for every broker and every open transaction and whatever runs at
the same time with topics in directories of their own, exactly when each `CreateTopic` and each
`Produce` it makes finds what it needs. The broker starts on a directory with any logs `base`
(`World.Continues.start` for a new one, `World.Continues.restart` for one that was used). -/
theorem allOrNothing_iff (json : RecordJson) {f : Record → Record} (hjson : json.Decodes f)
    (w : World) {base : String → List Record} (hw : w.Continues json base fun _ => [])
    {actions : List Action} {s : Sys} (hrun : exec (Sys.step json) (.init w) actions = some s)
    (hown : Guarded (Sys.step json) Sys.OwnDirs (.init w) actions) {call : ℕ} {c : CommitCall}
    (hc : s.commits[call]? = some c) :
    s.AllOrNothing json f base c ↔
      Guarded (Sys.step json) (Sys.CommitUnhindered json call) (.init w) actions := by
  have hfailed : s.CommitFailed call ↔ c.Failed := by
    rw [Sys.CommitFailed, hc]
    exact ⟨fun ⟨c', hc', hf⟩ => Option.some.inj hc' ▸ hf, fun hf => ⟨c, rfl, hf⟩⟩
  have hinit : ¬ (Sys.init w).CommitFailed call := by
    rintro ⟨c', hc', -⟩
    simp [Sys.init] at hc'
  have hlogs := Sys.showsLogs_run hjson hw hrun hown
  rw [Sys.allOrNothing_iff_not_failed hlogs (Sys.txInv_run hrun) hc, ← hfailed]
  rw [iff_guarded (fun s : Sys => TxInv s.txView) (fun s => ¬ s.CommitFailed call)
    (fun _ _ _ hinv hstep => Sys.txInv_step hinv hstep)
    (fun _ _ _ hinv hstep => Sys.not_commitFailed_step_iff hinv hstep) hrun (Sys.txInv_init w)]
  exact and_iff_right hinit

/-- The transaction of the runs below, with two records staged for the topic `t`. -/
def sampleStaging : List Action :=
  [.beginTransaction "p" 1 0 0, .txProduce "p-1-0" "t" (asciiBytes "k") (asciiBytes "v") ∅,
    .txProduce "p-1-0" "t" (asciiBytes "k") (asciiBytes "v") ∅]

/-- One record of a commit. -/
def sampleTurn (call : ℕ) : List Action :=
  [.commitCreate call none, .commitProduce call ⟨0, 0, .ok⟩]

def commitSample : List Action :=
  sampleStaging ++ .commitStart 0 "p-1-0" :: sampleTurn 0 ++ sampleTurn 0 ++ [.commitFinish 0]

theorem allOrNothing_iff_sample :
    ∃ s c, exec (Sys.step sampleJson) (.init ⟨fun _ => none, .fresh ⟨true, ["d"]⟩⟩) commitSample =
        some s ∧
      s.commits[0]? = some c ∧ c.phase = .done ∧
      s.AllOrNothing sampleJson id (fun _ => []) c := by
  obtain ⟨s, hrun, hs⟩ : ∃ s, exec (Sys.step sampleJson)
        (.init ⟨fun _ => none, .fresh ⟨true, ["d"]⟩⟩) commitSample = some s ∧
      (s.commits[0]?).map CommitCall.phase = some .done :=
    exists_exec_of_any (by decide +kernel)
  obtain ⟨c, hc, hphase⟩ := Option.map_eq_some_iff.mp hs
  exact ⟨s, c, hrun, hc, hphase, (allOrNothing_iff sampleJson sampleJson_faithful _
    (.start rfl fun _ _ _ => rfl) hrun (by decide +kernel) hc).mpr (by decide +kernel)⟩

/-- A drain between the two records. -/
def drainSample : List Action :=
  sampleStaging ++ .commitStart 0 "p-1-0" :: sampleTurn 0 ++ .drain 0 60 :: sampleTurn 0

/-- Three records with the values `v`, `w` and `x`. -/
def overwriteJson : RecordJson :=
  .ofTable ([("v", "dg==", 0), ("w", "dw==", 0), ("x", "eA==", 1)].map fun e =>
    ({ sampleRecord e.2.2 with value := asciiBytes e.1 }, asciiBytes (sampleTextOf e.2.1 e.2.2)))

/-- A transaction with records for two names of one directory, and its commit. -/
def overwriteSample : List Action :=
  [.beginTransaction "p" 1 0 0, .txProduce "p-1-0" "a" (asciiBytes "k") (asciiBytes "v") ∅,
    .txProduce "p-1-0" "a/" (asciiBytes "k") (asciiBytes "w") ∅,
    .txProduce "p-1-0" "a" (asciiBytes "k") (asciiBytes "x") ∅, .commitStart 0 "p-1-0"] ++
    sampleTurn 0 ++ sampleTurn 0 ++ sampleTurn 0 ++ [.commitFinish 0]

/-- The commit returns nil, but the record with the value `w` has been overwritten. -/
theorem overwrite_run :
    ∃ s, exec (Sys.step overwriteJson) (.init ⟨fun _ => none, .fresh ⟨true, ["d"]⟩⟩)
        overwriteSample = some s ∧
      ((s.commits[0]?).map CommitCall.phase = some .done ∧
        (s.world.consume overwriteJson "a" 0 10).map (List.map Record.value) =
          .ok [asciiBytes "v", asciiBytes "x"] ∧
        s.world.consume overwriteJson "a/" 0 10 = s.world.consume overwriteJson "a" 0 10) ∧
      ¬ s.ShowsLogs overwriteJson id fun _ => [] := by
  obtain ⟨s, hrun, hphase, hread, hsame, hlog, hknown⟩ : ∃ s, exec (Sys.step overwriteJson)
        (.init ⟨fun _ => none, .fresh ⟨true, ["d"]⟩⟩) overwriteSample = some s ∧
      (s.commits[0]?).map CommitCall.phase = some .done ∧
      (s.world.consume overwriteJson "a" 0 10).map (List.map Record.value) =
        .ok [asciiBytes "v", asciiBytes "x"] ∧
      s.world.consume overwriteJson "a/" 0 10 = s.world.consume overwriteJson "a" 0 10 ∧
      (s.logs "a/").length = 1 ∧ (s.world.broker.topics["a/"]?).isSome = true :=
    exists_exec_of_any (by decide +kernel)
  refine ⟨s, hrun, ⟨hphase, hread, hsame⟩, fun hshows => ?_⟩
  obtain ⟨t, ht⟩ := Option.isSome_iff_exists.mp hknown
  have hread' := hshows "a/"
  rw [ht] at hread'
  have hconsume := hread' 0 10
  -- two records are read, but only one was written
  rw [hsame] at hconsume
  rw [hconsume, Except.map, Except.ok.injEq] at hread
  have hlength := congrArg List.length hread
  simp [hlog, Segment.effectiveMax] at hlength

/-- After a drain between two records, the first one is in the log and the transaction can be
neither committed again nor aborted. After a commit to two names of one directory, a record is
in no log. -/
theorem not_allOrNothing_drain :
    (∃ s, exec (Sys.step sampleJson) (.init ⟨fun _ => none, .fresh ⟨true, ["d"]⟩⟩) drainSample =
        some s ∧
      ((s.commits[0]?).map CommitCall.phase = some (.failed .draining) ∧
        s.world.consume sampleJson "t" 0 10 = .ok [sampleRecord 0] ∧
        (s.world.broker.lookupTx "p-1-0").map (fun e => e.2.status) = some .committing) ∧
      ∀ f base, ∀ c ∈ s.commits[0]?, ¬ s.AllOrNothing sampleJson f base c) ∧
    ∃ s, exec (Sys.step overwriteJson) (.init ⟨fun _ => none, .fresh ⟨true, ["d"]⟩⟩)
        overwriteSample = some s ∧
      ((s.commits[0]?).map CommitCall.phase = some .done ∧
        (s.world.consume overwriteJson "a" 0 10).map (List.map Record.value) =
          .ok [asciiBytes "v", asciiBytes "x"] ∧
        s.world.consume overwriteJson "a/" 0 10 = s.world.consume overwriteJson "a" 0 10) ∧
      ∀ c ∈ s.commits[0]?, ¬ s.AllOrNothing overwriteJson id (fun _ => []) c := by
  constructor
  · obtain ⟨s, hrun, hphase, hread, hstatus, hopened⟩ : ∃ s, exec (Sys.step sampleJson)
          (.init ⟨fun _ => none, .fresh ⟨true, ["d"]⟩⟩) drainSample = some s ∧
        (s.commits[0]?).map CommitCall.phase = some (.failed .draining) ∧
        s.world.consume sampleJson "t" 0 10 = .ok [sampleRecord 0] ∧
        (s.world.broker.lookupTx "p-1-0").map (fun e => e.2.status) = some .committing ∧
        ∀ c ∈ s.commits[0]?,
          (s.world.broker.transactions[c.ptr]?).map Transaction.status ≠ some .opened :=
      exists_exec_of_any (by decide +kernel)
    refine ⟨s, hrun, ⟨hphase, hread, hstatus⟩, fun f base c hc hall => hopened c hc ?_⟩
    rw [Option.mem_def.mp hc, Option.map_some, Option.some.injEq] at hphase
    rw [Sys.AllOrNothing, hphase] at hall
    exact hall.2.2
  · obtain ⟨s, hrun, ⟨hphase, hread⟩, hnot⟩ := overwrite_run
    refine ⟨s, hrun, ⟨hphase, hread⟩, fun c hc hall => hnot ?_⟩
    rw [Option.mem_def.mp hc, Option.map_some, Option.some.injEq] at hphase
    rw [Sys.AllOrNothing, hphase] at hall
    exact hall.1

end StreamFlow
