import StreamFlow.Broker.System

/-!
# What a step does to the broker

Most sections of the calls change only the tables of the producers and of the
transactions. Those that can change the topics or their files make one call of
`CreateTopic` or of `Produce`. `effect_of_step` says which, once for all steps, and
the invariants of topics and files are proved by its three cases.
-/

namespace StreamFlow

open BigEndian

namespace Sys

/-- The topic that a step opens or creates. -/
def createdTopic (s : Sys) : Action → Option String
  | .createTopic _ name => some name
  | .commitCreate call _ =>
      ((s.commits[call]?).bind fun c => c.records[c.committed]?).map TxRecord.topic
  | _ => none

/-- The `Produce` call that a step makes. -/
def producedRecord (s : Sys) : Action → Option (ProduceEnv × TxRecord)
  | .produce env topicName key value headers => some (env, ⟨topicName, key, value, headers⟩)
  | .idemProduce call env =>
      (s.idem[call]?).map fun c =>
        (env, ⟨c.args.topicName, c.args.key, c.args.value, c.args.headers⟩)
  | .commitProduce call env =>
      ((s.commits[call]?).bind fun c => c.records[c.committed]?).map fun r => (env, r)
  | _ => none

/-- The broker, its files and the logs after a step. -/
inductive Effect (json : RecordJson) (action : Action) (s s' : Sys) : Prop where
  | quiet (fs : s'.world.fs = s.world.fs) (dir : s'.world.broker.dir = s.world.broker.dir)
      (topics : s'.world.broker.topics = s.world.broker.topics)
      (drainingTill : (∀ now d, action ≠ .drain now d) →
        s'.world.broker.drainingTill = s.world.broker.drainingTill)
      (written : s'.written = s.written)
  | create (fault : Option CreateFault) (name : String)
      (created : s.createdTopic action = some name)
      (world : s'.world = (s.createTopic fault name).1.world) (written : s'.written = s.written)
  | produce (env : ProduceEnv) (r : TxRecord) (source : Source)
      (produced : s.producedRecord action = some (env, r))
      (world : s'.world =
        (s.produce json env source r.topic r.key r.value r.headers).1.world)
      (written : s'.written =
        (s.produce json env source r.topic r.key r.value r.headers).1.written)

theorem effect_of_step {json : RecordJson} {s s' : Sys} {action : Action}
    (h : s.step json action = some s') : Effect json action s s' := by
  cases action with
  | createTopic fault name =>
      obtain rfl := Option.some.inj h
      exact .create fault name rfl rfl rfl
  | produce env topicName key value headers =>
      obtain rfl := Option.some.inj h
      exact .produce env ⟨topicName, key, value, headers⟩ .produce rfl rfl rfl
  | drain now d =>
      obtain rfl := Option.some.inj h
      exact .quiet rfl rfl rfl (fun hne => absurd rfl (hne now d)) rfl
  | idemCheck call a =>
      obtain ⟨-, phase, rfl, -⟩ := idemCheck_cases h
      exact .quiet rfl rfl rfl (fun _ => rfl) rfl
  | idemProduce call env =>
      obtain ⟨a, hcall, hres⟩ := idemProduce_cases h
      have hproduced : s.producedRecord (.idemProduce call env) =
          some (env, ⟨a.topicName, a.key, a.value, a.headers⟩) := by
        rw [producedRecord, hcall]
        rfl
      rcases hres with ⟨rec, -, rfl⟩ | ⟨e, -, rfl⟩
      · exact .produce env _ (.idem call a) hproduced rfl rfl
      · exact .produce env _ (.idem call a) hproduced rfl rfl
  | idemRecord call =>
      obtain ⟨a, rec, -, rfl⟩ := idemRecord_cases h
      exact .quiet rfl rfl rfl (fun _ => rfl) rfl
  | beginTransaction producerID epoch now createdAt =>
      obtain rfl := Option.some.inj h
      rcases s.beginTransaction_cases producerID epoch now createdAt with hs | ⟨tx, -, -, -, -, hs⟩
      · rw [hs]
        exact .quiet rfl rfl rfl (fun _ => rfl) rfl
      · rw [hs]
        exact .quiet rfl rfl rfl (fun _ => rfl) rfl
  | txProduce txID topic key value headers =>
      obtain rfl := Option.some.inj h
      rcases s.txProduce_cases txID topic key value headers with hs | ⟨p, tx, -, hs⟩
      · rw [hs]
        exact .quiet rfl rfl rfl (fun _ => rfl) rfl
      · rw [hs]
        exact .quiet rfl rfl rfl (fun _ => rfl) rfl
  | abortTransaction txID =>
      obtain rfl := Option.some.inj h
      rcases s.abortTransaction_cases txID with hs | ⟨p, tx, -, hs⟩
      · rw [hs]
        exact .quiet rfl rfl rfl (fun _ => rfl) rfl
      · rw [hs]
        exact .quiet rfl rfl rfl (fun _ => rfl) rfl
  | commitStart call txID =>
      obtain ⟨-, rfl | ⟨p, tx, -, rfl⟩⟩ := commitStart_cases h
      · exact .quiet rfl rfl rfl (fun _ => rfl) rfl
      · exact .quiet rfl rfl rfl (fun _ => rfl) rfl
  | commitFinish call =>
      obtain ⟨id, p, records, k, -, -, rfl⟩ := commitFinish_cases h
      unfold Broker.commitFinish
      split
      · exact .quiet rfl rfl rfl (fun _ => rfl) rfl
      · exact .quiet rfl rfl rfl (fun _ => rfl) rfl
  | commitCreate call fault =>
      obtain ⟨id, p, records, k, r, hcall, hr, hres⟩ := commitCreate_cases h
      have hcreated : s.createdTopic (.commitCreate call fault) = some r.topic := by
        simp [createdTopic, hcall, hr]
      rcases hres with ⟨topic, -, rfl⟩ | ⟨e, -, rfl⟩
      · exact .create fault r.topic hcreated rfl rfl
      · exact .create fault r.topic hcreated rfl rfl
  | commitProduce call env =>
      obtain ⟨id, p, records, k, r, hcall, hr, hres⟩ := commitProduce_cases h
      have hproduced : s.producedRecord (.commitProduce call env) = some (env, r) := by
        simp [producedRecord, hcall, hr]
      rcases hres with ⟨rec, -, rfl⟩ | ⟨e, -, rfl⟩
      · exact .produce env r (.commit call id p) hproduced rfl rfl
      · exact .produce env r (.commit call id p) hproduced rfl rfl

end Sys

end StreamFlow
