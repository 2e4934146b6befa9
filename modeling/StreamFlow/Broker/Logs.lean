import StreamFlow.Broker.Effects
import StreamFlow.Broker.Placement

/-!
# The logs of a run

The history of `Sys` says which call has written each record. It is tied to the files here: if
every topic is opened in a directory of its own, `Consume` returns for a topic the records that
the process has found in the directory of the topic and then those of the history, in their order
(`Sys.showsLogs_run`). Without the directories of their own this is false, since topics that share
a directory overwrite each other's records.

`World.Serves` relates a broker to its logs in the first process on a directory, and
`World.Continues` in any later one too. Both are kept by `CreateTopic` and `Produce`, and
`World.Tracks.run` carries such a relation through the interleavings.
-/

namespace StreamFlow

open BigEndian Run Segment

namespace World

/-- The broker continues the logs `base` by `added`: for an open topic it holds the records
`base` that it has found in the directory of the topic, and after them the records `added`. In
the directory of a topic that is not open it will find `base`. -/
structure Continues (json : RecordJson) (base : String → List Record) (w : World)
    (added : String → List Record) : Prop where
  represents : ∃ disk, w.Represents json disk ∧
    (∀ name topic, w.broker.topics[name]? = some topic →
      (disk (w.broker.segmentDir name)).map Prod.snd = base name ++ added name) ∧
    ∀ name, (∀ name' topic, w.broker.topics[name']? = some topic →
        w.broker.segmentDir name' ≠ w.broker.segmentDir name) →
      ((disk (w.broker.segmentDir name)).take
        ((w.fs.contents ((w.broker.segmentDir name).join "segment.index")).length / 16)).map
          Prod.snd = base name
  unknown : ∀ name, w.broker.topics[name]? = none → added name = []

namespace Continues

variable {json : RecordJson} {base added : String → List Record} {w w' : World} {name : String}

/-- In a directory where no topic has left files there is nothing to find. -/
theorem start {fs : FileTree} {b : Broker} (hb : b.topics = ∅)
    (hfs : ∀ name, ∀ p ∈ files (b.segmentDir name), fs p = none) :
    Continues json (fun _ => []) ⟨fs, b⟩ fun _ => [] :=
  ⟨⟨fun _ => [], Represents.start hb hfs, fun _ _ _ => rfl, fun _ _ => by simp⟩, fun _ _ => rfl⟩

/-- A new process finds the logs of the last one, without the records that are missing in the
index files. -/
theorem restart {disk : SlashPath → List (ℤ × Record)} (h : w.Represents json disk) {b : Broker}
    (hb : b.topics = ∅) (hdir : b.dir = w.broker.dir) :
    Continues json (fun name => ((disk (w.broker.segmentDir name)).take
        ((w.fs.contents ((w.broker.segmentDir name).join "segment.index")).length / 16)).map
          Prod.snd) ⟨w.fs, b⟩ fun _ => [] := by
  refine ⟨⟨disk, h.restart hb hdir, fun name topic ht => ?_, fun name _ => ?_⟩, fun _ _ => rfl⟩
  · simp [hb] at ht
  · dsimp only
    rw [Broker.segmentDir_congr hdir]

theorem congr_broker (h : w.Continues json base added) {b : Broker}
    (htopics : b.topics = w.broker.topics) (hdir : b.dir = w.broker.dir) :
    Continues json base ⟨w.fs, b⟩ added := by
  obtain ⟨⟨disk, hrep, hopen, hclosed⟩, hunknown⟩ := h
  refine ⟨⟨disk, hrep.congr_broker htopics hdir, ?_⟩, ?_⟩ <;> dsimp only <;> rw [htopics]
  · rw [Broker.segmentDir_congr hdir]
    exact ⟨hopen, hclosed⟩
  · exact hunknown

theorem createTopic (h : w.Continues json base added) {fault : Option CreateFault}
    (hown : w.OwnDir name) : (w.createTopic fault name).1.Continues json base added := by
  obtain ⟨⟨disk, hrep, hopen, hclosed⟩, hunknown⟩ := h
  have hfs := contents_createTopic fault w name
  rcases hrep.createTopic hown Prod.mk.eta.symm with
    ⟨hb, hrep', -⟩ | ⟨topic, hnone, -, -, hb, hrep'⟩
  · refine ⟨⟨disk, hrep', ?_⟩, ?_⟩ <;> simp only [hb, hfs]
    · exact ⟨hopen, hclosed⟩
    · exact hunknown
  · -- the log that is opened is what the directory held
    have hfound := hclosed name fun name' topic' ht hdir => by
      rw [hown name' topic' ht hdir, hnone] at ht
      cases ht
    have hlogs := logs_of_insert hb ((disk (w.broker.segmentDir name)).take
      ((w.fs.contents ((w.broker.segmentDir name).join "segment.index")).length / 16)) hown hopen
    have hsame : Function.update (fun name => base name ++ added name) name (base name) =
        fun name => base name ++ added name := by
      rw [Function.update_eq_self_iff, hunknown name hnone, List.append_nil]
    rw [hfound, hsame] at hlogs
    refine ⟨⟨_, hrep', hlogs, fun name' hno => ?_⟩, fun name' hnone' => ?_⟩
    · obtain ⟨hno, -, hdisk⟩ := closed_of_insert hb _ hno
      rw [hdisk, hfs, segmentDir_of_insert hb, hclosed name' hno]
    · rw [topics_of_insert hb] at hnone'
      split at hnone'
      · cases hnone'
      · exact hunknown name' hnone'

theorem produce (h : w.Continues json base added) (env : ProduceEnv) (key value : Bytes)
    (headers : OrdMap String String) :
    (w.produce json env name key value headers).1.Continues json base
      (Function.update added name
        (added name ++ (w.appended json env name key value headers).toList)) := by
  obtain ⟨⟨disk, hrep, hopen, hclosed⟩, hunknown⟩ := h
  have hindex : ∀ name', (∀ name'' topic, w.broker.topics[name'']? = some topic →
        w.broker.segmentDir name'' ≠ w.broker.segmentDir name') →
      (w.produce json env name key value headers).1.fs.contents
          ((w.broker.segmentDir name').join "segment.index") =
        w.fs.contents ((w.broker.segmentDir name').join "segment.index") := by
    intro name' hno
    cases ht : w.broker.topics[name]? with
    | none => rw [produce_of_none ht]
    | some topic =>
        exact (SameFiles.of_eqOff (produce_own ht (hrep.inDir ht) json env key value headers).1
          (hno name topic ht).symm).index
  have hp : w.produce json env name key value headers = (_, _) := Prod.mk.eta.symm
  rcases hrep.produce hp with
    ⟨happ, -, hb, hrep', -⟩ | ⟨topic, topic', ht, happ, hb, hrep', -⟩
  · rw [happ, Option.toList_none, List.append_nil, Function.update_eq_self]
    refine ⟨⟨disk, hrep', ?_⟩, ?_⟩ <;> rw [hb]
    · exact ⟨hopen, fun name' hno => by rw [hindex name' hno, hclosed name' hno]⟩
    · exact hunknown
  · rw [happ, Option.toList_some]
    refine ⟨⟨_, hrep', ?_, fun name' hno => ?_⟩, fun name' hnone => ?_⟩
    · intro name' topic'' ht'
      rw [logs_of_insert hb _ (hrep.ownDir ht) hopen name' topic'' ht', List.map_append,
        hopen name topic ht]
      by_cases heq : name' = name
      · subst heq
        simp
      · simp [Function.update_of_ne heq]
    · obtain ⟨hno, -, hdisk⟩ := closed_of_insert hb _ hno
      rw [hdisk, segmentDir_of_insert hb, hindex name' hno, hclosed name' hno]
    · rw [topics_of_insert hb] at hnone
      split at hnone
      · cases hnone
      · next hne => rw [Function.update_of_ne (Ne.symm hne), hunknown name' hnone]

/-- `Consume` reads a block of a log. -/
theorem consume_eq (h : w.Continues json base added) {f : Record → Record} (hjson : json.Decodes f)
    {topic : Topic} (ht : w.broker.topics[name]? = some topic) (fromOffset max : ℤ) :
    w.consume json name fromOffset max =
      .ok ((((base name ++ added name).map f).drop fromOffset.toNat).take
        (effectiveMax max).toNat) := by
  obtain ⟨⟨disk, hrep, hopen, -⟩, -⟩ := h
  obtain ⟨seg, -, -, hsound, hread⟩ := hrep.consume_eq ht fromOffset max
  rw [hread, hsound.readRange_eq hjson, hopen name topic ht, sub_zero]

end Continues

/-- A relation of a broker and its logs that `CreateTopic` and `Produce` keep. -/
structure Tracks (json : RecordJson) (R : World → (String → List Record) → Prop) : Prop where
  congr_broker : ∀ {w logs} {b : Broker}, R w logs → b.topics = w.broker.topics →
    b.dir = w.broker.dir → R ⟨w.fs, b⟩ logs
  createTopic : ∀ {w logs name} (fault : Option CreateFault), R w logs → w.OwnDir name →
    R (w.createTopic fault name).1 logs
  produce : ∀ {w logs} env name key value headers, R w logs →
    R (w.produce json env name key value headers).1
      (Function.update logs name
        (logs name ++ (w.appended json env name key value headers).toList))

theorem tracks_continues (json : RecordJson) (base : String → List Record) :
    Tracks json (Continues json base) :=
  ⟨fun h => h.congr_broker, fun _ h hown => h.createTopic hown,
    fun env _ key value headers h => h.produce env key value headers⟩

theorem tracks_serves (json : RecordJson) : Tracks json (Serves json) where
  congr_broker h := h.congr_broker
  createTopic _ h hown := (h.createTopic hown Prod.mk.eta.symm).1
  produce {w logs} env name key value headers h := by
    have hp : w.produce json env name key value headers = (_, _) := Prod.mk.eta.symm
    rcases h.produce hp with ⟨happ, -, -, hserves⟩ | ⟨topic, topic', -, happ, -, hserves, -⟩
    · rwa [happ, Option.toList_none, List.append_nil, Function.update_eq_self]
    · rwa [happ, Option.toList_some]

end World

namespace Sys

/-- The logs of all topics. -/
def logs (s : Sys) (topic : String) : List Record := (s.log topic).map Written.record

/-- Every topic has a directory of its own. -/
def OwnDirs (s : Sys) (action : Action) : Prop :=
  ∀ name ∈ s.createdTopic action, s.world.OwnDir name

instance (s : Sys) (action : Action) : Decidable (s.OwnDirs action) :=
  inferInstanceAs (Decidable (∀ name ∈ s.createdTopic action, _))

variable {json : RecordJson} {s s' : Sys}

theorem logs_congr (h : s'.written = s.written) : s'.logs = s.logs := by
  funext topic
  rw [logs, logs, log, log, h]

theorem logs_produce (env : ProduceEnv) (source : Source) (s : Sys) (topicName : String)
    (key value : Bytes) (headers : OrdMap String String) :
    (s.produce json env source topicName key value headers).1.logs =
      Function.update s.logs topicName (s.logs topicName ++
        (s.world.appended json env topicName key value headers).toList) := by
  funext topic
  unfold logs log produce
  rw [List.filter_append, List.map_append]
  by_cases heq : topic = topicName
  · subst heq
    cases s.world.appended json env topic key value headers <;> simp
  · cases s.world.appended json env topicName key value headers <;>
      simp [Function.update_of_ne heq, Ne.symm heq]

/-- Every step that opens topics in directories of their own keeps the logs. -/
theorem tracks_step {R : World → (String → List Record) → Prop} (hR : World.Tracks json R)
    {action : Action} (h : R s.world s.logs) (hown : s.OwnDirs action)
    (hstep : s.step json action = some s') : R s'.world s'.logs := by
  cases effect_of_step hstep with
  | quiet hfs hdir htopics _ hwritten =>
      have hworld := hR.congr_broker h htopics hdir
      rw [← hfs] at hworld
      rw [logs_congr hwritten]
      exact hworld
  | create fault name hcreated hworld hwritten =>
      rw [hworld, logs_congr hwritten]
      exact hR.createTopic fault h (hown name hcreated)
  | produce env r source _ hworld hwritten =>
      rw [hworld, logs_congr hwritten, logs_produce]
      exact hR.produce env r.topic r.key r.value r.headers h

theorem tracks_run {R : World → (String → List Record) → Prop} (hR : World.Tracks json R)
    {w : World} (hw : R w fun _ => []) {actions : List Action}
    (hrun : exec (Sys.step json) (.init w) actions = some s)
    (hown : Guarded (Sys.step json) OwnDirs (.init w) actions) : R s.world s.logs :=
  invariant_of_guarded (fun s : Sys => R s.world s.logs)
    (fun _ _ _ h hg hs => tracks_step hR h hg hs) hrun hown hw

/-- The logs of a broker started where no topic has left files are what the calls of
the run have written. -/
theorem serves_run {fs : FileTree} {dir : SlashPath} {b : Broker}
    (hb : newBroker true dir = .ok b)
    (hfs : ∀ name, ∀ p ∈ files (b.segmentDir name), fs p = none) {actions : List Action}
    (hrun : exec (Sys.step json) (.init ⟨fs, b⟩) actions = some s)
    (hown : Guarded (Sys.step json) OwnDirs (.init ⟨fs, b⟩) actions) :
    s.world.Serves json s.logs :=
  tracks_run (World.tracks_serves json)
    (World.Serves.start (by rw [eq_fresh_of_newBroker hb]; rfl) hfs) hrun hown

/-- What `Consume` returns for a topic are blocks of the list of the records that the process has
found in its directory and those that its calls have written, as they are decoded; nothing was
written for a topic that is not there. -/
def ShowsLogs (json : RecordJson) (f : Record → Record) (base : String → List Record) (s : Sys) :
    Prop :=
  ∀ topic, match s.world.broker.topics[topic]? with
    | none => s.log topic = []
    | some _ => ∀ fromOffset max, s.world.consume json topic fromOffset max =
        .ok ((((base topic ++ s.logs topic).map f).drop fromOffset.toNat).take
          (effectiveMax max).toNat)

theorem showsLogs_of_continues {f : Record → Record} (hjson : json.Decodes f)
    {base : String → List Record} (h : s.world.Continues json base s.logs) :
    s.ShowsLogs json f base := by
  intro topic
  split
  · next hnone => exact List.map_eq_nil_iff.mp (h.unknown topic hnone)
  · next t ht => exact h.consume_eq hjson ht

theorem showsLogs_of_serves {f : Record → Record} (hjson : json.Decodes f)
    (h : s.world.Serves json s.logs) : s.ShowsLogs json f fun _ => [] := by
  intro topic
  split
  · next hnone => exact List.map_eq_nil_iff.mp (h.unknown topic hnone)
  · next t ht => exact h.consume_eq hjson ht

/-- With topics in directories of their own, reading shows the history. -/
theorem showsLogs_run {f : Record → Record} (hjson : json.Decodes f)
    {base : String → List Record} {w : World} (hw : w.Continues json base fun _ => [])
    {actions : List Action} (hrun : exec (Sys.step json) (.init w) actions = some s)
    (hown : Guarded (Sys.step json) OwnDirs (.init w) actions) : s.ShowsLogs json f base :=
  showsLogs_of_continues hjson (tracks_run (World.tracks_continues json base) hw hrun hown)

end Sys

end StreamFlow
