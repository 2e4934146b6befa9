import StreamFlow.Broker.Effects
import StreamFlow.Broker.Represents
import StreamFlow.Broker.Sample

/-!
# Draining

`Drain` stores a deadline, and `Produce` refuses to append until the clock has passed
it. The other calls that write records go through `Produce`, so they are held back
too, also those that were under way when `Drain` was called.

The sections of a run are put on a clock: `Tick` adds to a section the moment at which
it lets go of the lock, and `OnClock` says that these moments and the readings of
`time.Now` come in the order of the clock.
-/

namespace StreamFlow

open BigEndian Run

namespace Action

/-- The times a section reads from the clock, in order. -/
def readings : Action → List Time
  | produce env _ _ _ _ => [env.now, env.timestamp]
  | drain now _ => [now]
  | idemProduce _ env => [env.now, env.timestamp]
  | beginTransaction _ _ now createdAt => [now, createdAt]
  | commitProduce _ env => [env.now, env.timestamp]
  | _ => []

end Action

/-- A section and the moment at which it ends. -/
structure Tick where
  action : Action
  time : Time

namespace Tick

def moments (e : Tick) : List Time := e.action.readings ++ [e.time]

def step (json : RecordJson) (s : Sys) (e : Tick) : Option Sys := s.step json e.action

end Tick

/-- The clock never goes back, and shows times after the zero value of `time.Time`. -/
structure OnClock (es : List Tick) : Prop where
  sorted : (es.flatMap Tick.moments).Pairwise (· ≤ ·)
  zero_lt : ∀ u ∈ es.flatMap Tick.moments, zeroTime < u

namespace OnClock

/-- The first reading of a section is its earliest moment. -/
theorem head_le {es : List Tick} (h : OnClock es) {e : Tick} (he : e ∈ es) {u v : Time}
    (hu : u ∈ e.action.readings.head?) (hv : v ∈ e.moments) : u ≤ v := by
  obtain ⟨rest, hrest⟩ := List.head?_eq_some_iff.mp hu
  have hsorted := (List.pairwise_flatMap.mp h.sorted).1 e he
  rw [Tick.moments, hrest, List.cons_append] at hsorted hv
  rcases List.mem_cons.mp hv with rfl | hv
  · exact le_rfl
  · exact (List.pairwise_cons.mp hsorted).1 v hv

/-- The moments of a section come before those of later sections. -/
theorem le_of_mem {before after : List Tick} {e e' : Tick} (h : OnClock (before ++ e :: after))
    (he' : e' ∈ after) {u v : Time} (hu : u ∈ e.moments) (hv : v ∈ e'.moments) : u ≤ v := by
  have hsorted := h.sorted
  rw [List.flatMap_append, List.flatMap_cons] at hsorted
  have htail := (List.pairwise_append.mp (List.pairwise_append.mp hsorted).2.1).2.2
  exact htail u hu v (List.mem_flatMap.mpr ⟨e', he', hv⟩)

end OnClock

namespace Sys

/-- The files, the topics the broker had, and the history of the logs are the same. -/
structure LogsKept (s s' : Sys) : Prop where
  contents : ∀ p, s'.world.fs.contents p = s.world.fs.contents p
  topics : ∀ (name : String) (topic : Topic), s.world.broker.topics[name]? = some topic →
    s'.world.broker.topics[name]? = some topic
  written : s'.written = s.written

variable {json : RecordJson} {s s' : Sys} {action : Action}

namespace LogsKept

@[refl] theorem refl (s : Sys) : s.LogsKept s := ⟨fun _ => rfl, fun _ _ => id, rfl⟩

@[trans] theorem trans {s₁ s₂ s₃ : Sys} (h₁ : s₁.LogsKept s₂) (h₂ : s₂.LogsKept s₃) :
    s₁.LogsKept s₃ :=
  ⟨fun p => (h₂.contents p).trans (h₁.contents p),
    fun name topic ht => h₂.topics name topic (h₁.topics name topic ht),
    h₂.written.trans h₁.written⟩

end LogsKept

/-- A refused `Produce` does nothing. -/
theorem produce_of_draining {env : ProduceEnv} {source : Source} {topicName : String}
    {key value : Bytes} {headers : OrdMap String String}
    (h : s.world.broker.isDrainingLocked env.now = true) :
    s.produce json env source topicName key value headers = (s, .error .draining) := by
  unfold produce World.produce World.appended
  rw [if_pos h, if_pos h]
  simp

/-- No section but that of `Drain` moves the deadline. -/
theorem drainingTill_step (hstep : s.step json action = some s')
    (hne : ∀ now d, action ≠ .drain now d) :
    s'.world.broker.drainingTill = s.world.broker.drainingTill := by
  cases effect_of_step hstep with
  | quiet _ _ _ hdrain _ => exact hdrain hne
  | create fault name _ hworld _ =>
      rw [hworld]
      change (s.world.createTopic fault name).1.broker.drainingTill = _
      rcases World.createTopic_broker fault s.world name with hb | ⟨-, topic, hb⟩
      · rw [hb]
      · rw [hb]
  | produce env r source _ hworld _ =>
      rw [hworld]
      change (s.world.produce json env r.topic r.key r.value r.headers).1.broker.drainingTill = _
      rcases World.produce_broker json env s.world r.topic r.key r.value r.headers with
        hb | ⟨topic, topic', -, hb⟩
      · rw [hb]
      · rw [hb]

/-- A section keeps the logs if the `Produce` call it makes is refused. -/
theorem logsKept_step (hstep : s.step json action = some s')
    (hdrain : ∀ env r, s.producedRecord action = some (env, r) →
      s.world.broker.isDrainingLocked env.now = true) : s.LogsKept s' := by
  cases effect_of_step hstep with
  | quiet hfs _ htopics _ hwritten =>
      exact ⟨fun p => by rw [hfs], fun name topic ht => by rw [htopics, ht], hwritten⟩
  | create fault name _ hworld hwritten =>
      refine ⟨fun p => ?_, fun name' topic ht => ?_, hwritten⟩
      · rw [hworld]
        exact World.contents_createTopic fault s.world name p
      · rw [hworld]
        change (s.world.createTopic fault name).1.broker.topics[name']? = _
        rcases World.createTopic_broker fault s.world name with hb | ⟨hnone, topic', hb⟩
        · rw [hb, ht]
        · rw [hb]
          refine (OrdMap.getElem?_insert_of_ne _ _ ?_).trans ht
          rintro rfl
          rw [hnone] at ht
          cases ht
  | produce env r source hproduced hworld hwritten =>
      rw [produce_of_draining (hdrain env r hproduced)] at hworld hwritten
      exact ⟨fun p => by rw [hworld], fun name topic ht => by rw [hworld, ht], hwritten⟩

/-- The section of a `Produce` call reads the clock first for the check. -/
theorem head_readings {env : ProduceEnv} {r : TxRecord}
    (h : s.producedRecord action = some (env, r)) : action.readings.head? = some env.now := by
  cases action with
  | produce env' topicName key value headers =>
      obtain ⟨rfl, -⟩ := Prod.mk.inj (Option.some.inj h)
      rfl
  | idemProduce call env' =>
      obtain ⟨c, -, hc⟩ := Option.map_eq_some_iff.mp h
      obtain ⟨rfl, -⟩ := Prod.mk.inj hc
      rfl
  | commitProduce call env' =>
      obtain ⟨c, -, hc⟩ := Option.map_eq_some_iff.mp h
      obtain ⟨rfl, -⟩ := Prod.mk.inj hc
      rfl
  | createTopic fault name => cases h
  | drain now d => cases h
  | idemCheck call a => cases h
  | idemRecord call => cases h
  | beginTransaction producerID epoch now createdAt => cases h
  | txProduce txID topic key value headers => cases h
  | commitStart call txID => cases h
  | commitCreate call fault => cases h
  | commitFinish call => cases h
  | abortTransaction txID => cases h

end Sys

namespace Broker

theorem isDrainingLocked_of_le {b : Broker} {now : Time} (hset : zeroTime < b.drainingTill)
    (hle : now ≤ b.drainingTill) : b.isDrainingLocked now = true := by
  unfold isDrainingLocked
  rw [if_neg hset.ne', if_neg (not_lt.mpr hle)]

end Broker

/-- Sections that begin by the deadline keep the logs and the deadline. -/
theorem logsKept_of_deadline {json : RecordJson} {s s' : Sys} {es : List Tick}
    (hrun : exec (Tick.step json) s es = some s')
    (hset : zeroTime < s.world.broker.drainingTill)
    (hother : ∀ e ∈ es, ∀ now d, e.action ≠ .drain now d)
    (hread : ∀ e ∈ es, ∀ u ∈ e.action.readings.head?, u ≤ s.world.broker.drainingTill) :
    s.LogsKept s' := by
  induction es generalizing s with
  | nil =>
      obtain rfl := Option.some.inj hrun
      rfl
  | cons e es ih =>
      obtain ⟨s₁, hstep, hrest⟩ := exec_cons_eq_some_iff.mp hrun
      have htill := Sys.drainingTill_step hstep (hother e List.mem_cons_self)
      have hkept : s.LogsKept s₁ := Sys.logsKept_step hstep fun env r hproduced =>
        Broker.isDrainingLocked_of_le hset
          (hread e List.mem_cons_self env.now (Sys.head_readings hproduced))
      refine hkept.trans (ih hrest (htill ▸ hset) ?_ ?_)
      · exact fun e' he' => hother e' (List.mem_cons_of_mem _ he')
      · rw [htill]
        exact fun e' he' => hread e' (List.mem_cons_of_mem _ he')

/-- Draining blocks every write path. In any interleaving of calls on a clock that does
not go back, if `Drain(d)` reads the time `t` and no other `Drain` follows, no section
that has begun by `t + d` changes a log. -/
theorem drain_blocks_writes (json : RecordJson) {before after : List Tick} {t d τ : Time}
    (hclock : OnClock (before ++ ⟨.drain t d, τ⟩ :: after)) {s₀ s s' : Sys}
    (hbefore : exec (Tick.step json) s₀ before = some s)
    (hrun : exec (Tick.step json) s₀ (before ++ ⟨.drain t d, τ⟩ :: after) = some s')
    (hother : ∀ e ∈ after, ∀ now d', e.action ≠ .drain now d')
    (hbegun : ∀ e ∈ after, ∃ u ∈ e.moments, u ≤ t + d) : s.LogsKept s' := by
  obtain ⟨s₁, hbefore', htail⟩ := exec_append_eq_some_iff.mp hrun
  obtain rfl := Option.some.inj (hbefore.symm.trans hbefore')
  obtain ⟨s₂, hdrain, hrest⟩ := exec_cons_eq_some_iff.mp htail
  obtain rfl := Option.some.inj hdrain
  have hkept : s.LogsKept (s.setBroker (s.world.broker.drain t d)) :=
    ⟨fun _ => rfl, fun _ _ => id, rfl⟩
  refine hkept.trans ?_
  cases after with
  | nil =>
      obtain rfl := Option.some.inj hrest
      rfl
  | cons e after =>
      -- some section has begun between `t` and `t + d`, so the deadline is not before `t`
      have ht : t ∈ (⟨.drain t d, τ⟩ : Tick).moments := List.mem_cons_self
      have hzero : zeroTime < t := by
        refine hclock.zero_lt t (List.mem_flatMap.mpr ⟨_, ?_, ht⟩)
        exact List.mem_append_right _ List.mem_cons_self
      obtain ⟨u, hu, hle⟩ := hbegun e List.mem_cons_self
      have hdeadline : t ≤ t + d := (hclock.le_of_mem List.mem_cons_self ht hu).trans hle
      refine logsKept_of_deadline hrest (hzero.trans_le hdeadline) hother ?_
      intro e' he' v hv
      obtain ⟨u', hu', hle'⟩ := hbegun e' he'
      have he'' : e' ∈ before ++ ⟨.drain t d, τ⟩ :: e :: after :=
        List.mem_append_right _ (List.mem_cons_of_mem _ he')
      exact (hclock.head_le he'' hv hu').trans hle'

/-- The calls of the sample run: each way to write a record, while the broker drains. -/
def Tick.sampleDrained : List Tick :=
  [⟨.produce ⟨2, 2, .ok⟩ "t" (asciiBytes "k") (asciiBytes "v") ∅, 2⟩,
    ⟨.createTopic none "u", 3⟩,
    ⟨.idemCheck 0 ⟨"t", asciiBytes "k", asciiBytes "v", ∅, "p", 1⟩, 3⟩,
    ⟨.idemProduce 0 ⟨4, 4, .ok⟩, 4⟩,
    ⟨.beginTransaction "p" 0 5 5, 5⟩,
    ⟨.txProduce "p-0-5" "t" (asciiBytes "k") (asciiBytes "v") ∅, 6⟩,
    ⟨.commitStart 1 "p-0-5", 7⟩,
    ⟨.commitCreate 1 none, 7⟩,
    ⟨.commitProduce 1 ⟨11, 12, .ok⟩, 13⟩]

/-- A record, a `Drain` for 10 ns, and then a call of each kind. -/
theorem drain_blocks_writes_sample :
    ∃ s s', exec (Tick.step sampleJson) (.init ⟨fun _ => none, .fresh ⟨true, ["d"]⟩⟩)
        [⟨.createTopic none "t", 0⟩,
          ⟨.produce ⟨0, 0, .ok⟩ "t" (asciiBytes "k") (asciiBytes "v") ∅, 0⟩] = some s ∧
      (s.log "t").length = 1 ∧
      exec (Tick.step sampleJson) s (⟨.drain 1 10, 1⟩ :: Tick.sampleDrained) = some s' ∧
      s.LogsKept s' := by
  obtain ⟨s, hbefore, hlog, hafter⟩ : ∃ s, exec (Tick.step sampleJson)
        (.init ⟨fun _ => none, .fresh ⟨true, ["d"]⟩⟩)
        [⟨.createTopic none "t", 0⟩,
          ⟨.produce ⟨0, 0, .ok⟩ "t" (asciiBytes "k") (asciiBytes "v") ∅, 0⟩] = some s ∧
      (s.log "t").length = 1 ∧
      (exec (Tick.step sampleJson) s (⟨.drain 1 10, 1⟩ :: Tick.sampleDrained)).isSome = true :=
    exists_exec_of_any (by decide +kernel)
  obtain ⟨s', hrun⟩ := Option.isSome_iff_exists.mp hafter
  refine ⟨s, s', hbefore, hlog, hrun, ?_⟩
  refine drain_blocks_writes sampleJson ⟨by decide +kernel, by decide +kernel⟩ hbefore
    (exec_append_eq_some_iff.mpr ⟨s, hbefore, hrun⟩) ?_ (by decide +kernel)
  simp [Tick.sampleDrained]

end StreamFlow
