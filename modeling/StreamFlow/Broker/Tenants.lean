import StreamFlow.Broker.Placement
import StreamFlow.Broker.Restart
import StreamFlow.Broker.Sample
import StreamFlow.Foundation.Purge

/-!
# Tenants

`CreateTopicNS` of `broker/multitenant.go` gives the topics of a namespace a directory
of their own, but keeps them in the one table of the broker, under their plain names.
The second namespace that asks for a name is given the topic of the first. Neither are the
directories apart: the namespace and the name are joined to one path, which other names may
lead to as well.

`Tenants` keeps account of the topics that are handed out. Isolation is stated by comparing a run
with another one, in which the calls of a namespace are left out (`purge`): what the other
namespaces read must be the same. The two runs are related by `Alike`.
-/

namespace StreamFlow

open BigEndian ByteFile Segment Run

/-- The file operation of `CreateTopicNS` that fails, if any. -/
inductive TenantFault where
  | nsDir
  | topicDir
  | segment (fault : OpenFault)
deriving DecidableEq, Repr

def TenantFault.openFault : TenantFault → Option OpenFault
  | segment fault => some fault
  | _ => none

/-- The errors of `CreateTopicNS`: its own, and those it has in common with `CreateTopic`. -/
inductive TenantError where
  | createNsDir
  | broker (e : BrokerError)
deriving DecidableEq, Repr

/-- The directory of the segment of a namespace's topic. -/
def Broker.tenantDir (b : Broker) (ns name : String) : SlashPath :=
  ((b.dir.join ns).join name).join "000000"

theorem Broker.tenantDir_congr {b b' : Broker} (h : b'.dir = b.dir) :
    b'.tenantDir = b.tenantDir := by
  funext ns name
  rw [tenantDir, tenantDir, h]

namespace World

/-- The topic that `CreateTopicNS` enters in the table. -/
def newTopicNS (b : Broker) (ns name : String) (seg : Segment) : Topic where
  name := name
  dir := (b.dir.join ns).join name
  segments := [seg]
  nextOffset := 0
  segments_ne := List.cons_ne_nil seg []

/-- `CreateTopicNS`: both directories are made before the table is looked at. -/
def createTopicNS (fault : Option TenantFault) (w : World) (ns name : String) :
    World × Except TenantError Topic :=
  if fault = some .nsDir then (w, .error .createNsDir)
  else if fault = some .topicDir then (w, .error (.broker .createTopicDir))
  else
    match w.broker.topics[name]? with
    | some topic => (w, .ok topic)
    | none =>
        match newSegment (fault.bind TenantFault.openFault) w.fs (w.broker.tenantDir ns name) 0 with
        | (fs, .error e) => ({ w with fs := fs }, .error (.broker e))
        | (fs, .ok seg) =>
            let topic := newTopicNS w.broker ns name seg
            ({ fs := fs
               broker := { w.broker with topics := w.broker.topics.insert name topic } }, .ok topic)

/-- What a call of `CreateTopicNS` can do. -/
inductive CreateTopicNSCase (fault : Option TenantFault) (w : World) (ns name : String) :
    World → Except TenantError Topic → Prop where
  | noDir {e : TenantError} (hfault : fault = some .nsDir ∨ fault = some .topicDir) :
      CreateTopicNSCase fault w ns name w (.error e)
  | known {topic : Topic} (hmade : fault ≠ some .nsDir ∧ fault ≠ some .topicDir)
      (ht : w.broker.topics[name]? = some topic) : CreateTopicNSCase fault w ns name w (.ok topic)
  | noSegment {fs : FileTree} {e : BrokerError}
      (hmade : fault ≠ some .nsDir ∧ fault ≠ some .topicDir) (ht : w.broker.topics[name]? = none)
      (hnew : newSegment (fault.bind TenantFault.openFault) w.fs (w.broker.tenantDir ns name) 0 =
        (fs, .error e)) :
      CreateTopicNSCase fault w ns name { w with fs := fs } (.error (.broker e))
  | opened {fs : FileTree} {seg : Segment}
      (hmade : fault ≠ some .nsDir ∧ fault ≠ some .topicDir) (ht : w.broker.topics[name]? = none)
      (hnew : newSegment (fault.bind TenantFault.openFault) w.fs (w.broker.tenantDir ns name) 0 =
        (fs, .ok seg)) :
      CreateTopicNSCase fault w ns name
        { fs := fs
          broker := { w.broker with
            topics := w.broker.topics.insert name (newTopicNS w.broker ns name seg) } }
        (.ok (newTopicNS w.broker ns name seg))

theorem createTopicNS_of_noDir {fault : Option TenantFault} (w : World) (ns name : String)
    (h : ¬ (fault ≠ some .nsDir ∧ fault ≠ some .topicDir)) :
    (w.createTopicNS fault ns name).1 = w := by
  unfold createTopicNS
  split
  · rfl
  · next hns => rw [if_pos (not_not.mp fun htop => h ⟨hns, htop⟩)]

theorem createTopicNS_cases {fault : Option TenantFault} {w w' : World} {ns name : String}
    {res : Except TenantError Topic} (h : w.createTopicNS fault ns name = (w', res)) :
    CreateTopicNSCase fault w ns name w' res := by
  unfold createTopicNS at h
  split at h
  · next hfault =>
      obtain ⟨rfl, rfl⟩ := Prod.mk.inj h
      exact .noDir (.inl hfault)
  next hns =>
  split at h
  · next hfault =>
      obtain ⟨rfl, rfl⟩ := Prod.mk.inj h
      exact .noDir (.inr hfault)
  next htop =>
  split at h
  · next ht =>
      obtain ⟨rfl, rfl⟩ := Prod.mk.inj h
      exact .known ⟨hns, htop⟩ ht
  next ht =>
  split at h
  · next hnew =>
      obtain ⟨rfl, rfl⟩ := Prod.mk.inj h
      exact .noSegment ⟨hns, htop⟩ ht hnew
  · next hnew =>
      obtain ⟨rfl, rfl⟩ := Prod.mk.inj h
      exact .opened ⟨hns, htop⟩ ht hnew

end World

/-- The calls of tenants. `Produce` is the broker's and takes the name of the topic. -/
inductive TenantCall where
  | createTopicNS (fault : Option TenantFault) (ns name : String)
  | produce (env : ProduceEnv) (name : String) (key value : Bytes)
      (headers : OrdMap String String)

/-- A topic that `CreateTopicNS` has returned. -/
structure Grant where
  ns : String
  name : String
  address : ℕ
deriving DecidableEq, Repr

/-- No other namespace has the name, or the directory that it leads to. -/
def Broker.FreeFor (b : Broker) (grants : List Grant) (ns name : String) : Prop :=
  ∀ g ∈ grants, g.ns ≠ ns → g.name ≠ name ∧ b.tenantDir g.ns g.name ≠ b.tenantDir ns name

instance (b : Broker) (grants : List Grant) (ns name : String) :
    Decidable (b.FreeFor grants ns name) :=
  inferInstanceAs (Decidable (∀ g ∈ grants, _))

/-- The topics given out after a call of `CreateTopicNS`. -/
def Grant.addIfOk (g : Grant) (res : Except TenantError Topic) (grants : List Grant) :
    List Grant :=
  match res with
  | .error _ => grants
  | .ok _ => g :: grants

/-- A broker shared by tenants. The table of the broker holds pointers, so a name stands for the
same topic in every call; the address of a topic is its place in the order of the allocations. -/
structure Tenants where
  world : World
  allocated : List String
  grants : List Grant
  known : ∀ name, name ∈ allocated ↔ (world.broker.topics[name]?).isSome
  granted : ∀ g ∈ grants, allocated[g.address]? = some g.name

namespace Tenants

/-- Before the first call. -/
def start (fs : FileTree) (dir : SlashPath) : Tenants where
  world := ⟨fs, .fresh dir⟩
  allocated := []
  grants := []
  known _ := by simp [Broker.fresh]
  granted _ hg := absurd hg List.not_mem_nil

theorem known_of_ok {s : Tenants} {fault : Option TenantFault} {ns name : String}
    {w : World} {topic : Topic} (h : s.world.createTopicNS fault ns name = (w, .ok topic))
    (name' : String) :
    (name' ∈ if name ∈ s.allocated then s.allocated else s.allocated ++ [name]) ↔
      (w.broker.topics[name']?).isSome := by
  cases World.createTopicNS_cases h with
  | known _ ht => rw [if_pos ((s.known name).mpr (by rw [ht]; rfl)), s.known]
  | opened _ ht =>
      have hnew : name ∉ s.allocated := by
        rw [s.known, ht]
        exact Bool.false_ne_true
      rw [if_neg hnew, List.mem_append, List.mem_singleton, s.known, or_comm,
        @eq_comm _ name' name]
      exact (OrdMap.isSome_getElem?_insert s.world.broker.topics name name' _).symm

theorem broker_of_error {w w' : World} {fault : Option TenantFault} {ns name : String}
    {e : TenantError} (h : w.createTopicNS fault ns name = (w', .error e)) :
    w'.broker = w.broker := by
  cases World.createTopicNS_cases h <;> rfl

theorem getElem?_idxOf_allocated (l : List String) (name : String) :
    (if name ∈ l then l else l ++ [name])[l.idxOf name]? = some name := by
  split
  · next hmem => exact List.getElem?_idxOf hmem
  · next hmem => rw [List.idxOf_eq_length hmem, List.getElem?_concat_length]

/-- `CreateTopicNS` by a tenant that keeps the topic it is given. -/
def createTopicNS (fault : Option TenantFault) (s : Tenants) (ns name : String) : Tenants :=
  match h : s.world.createTopicNS fault ns name with
  | (w, .error _) =>
      { s with
        world := w
        known := by rw [broker_of_error h]; exact s.known }
  | (w, .ok _) =>
      { world := w
        allocated := if name ∈ s.allocated then s.allocated else s.allocated ++ [name]
        grants := ⟨ns, name, s.allocated.idxOf name⟩ :: s.grants
        known := known_of_ok h
        granted := by
          intro g hg
          rcases List.mem_cons.mp hg with rfl | hg
          · exact getElem?_idxOf_allocated s.allocated name
          · have hold := s.granted g hg
            split
            · exact hold
            · rw [List.getElem?_append_left (List.getElem?_eq_some_iff.mp hold).1, hold] }

def produce (json : RecordJson) (env : ProduceEnv) (s : Tenants) (name : String)
    (key value : Bytes) (headers : OrdMap String String) : Tenants :=
  { s with
    world := (s.world.produce json env name key value headers).1
    known := fun name' => by rw [World.isSome_topics_produce]; exact s.known name' }

def step (json : RecordJson) (s : Tenants) : TenantCall → Option Tenants
  | .createTopicNS fault ns name => some (s.createTopicNS fault ns name)
  | .produce env name key value headers => some (s.produce json env name key value headers)

/-- The calls of a namespace: those that create its topics, and those that produce to a
topic it was given. -/
def OfTenant (ns : String) (s : Tenants) : TenantCall → Prop
  | .createTopicNS _ ns' _ => ns' = ns
  | .produce _ name _ _ _ => ∃ g ∈ s.grants, g.ns = ns ∧ g.name = name

instance (ns : String) (s : Tenants) : ∀ call, Decidable (OfTenant ns s call)
  | .createTopicNS _ ns' _ => inferInstanceAs (Decidable (ns' = ns))
  | .produce _ name _ _ _ => inferInstanceAs (Decidable (∃ g ∈ s.grants, g.ns = ns ∧ g.name = name))

/-- Tenants are isolated after a run: namespaces have topics of their own, and what a namespace
reads is what it would read if the calls of another one had not been made. -/
structure Isolated (json : RecordJson) (fs : FileTree) (dir : SlashPath) (calls : List TenantCall)
    (s : Tenants) : Prop where
  topics : ∀ g₁ ∈ s.grants, ∀ g₂ ∈ s.grants, g₁.ns ≠ g₂.ns → g₁.address ≠ g₂.address
  reads : ∀ ns, ∀ g ∈ s.grants, g.ns ≠ ns →
    ∃ s', exec (step json) (start fs dir)
        (purge (step json) (OfTenant ns) (start fs dir) calls) = some s' ∧
      ∀ fromOffset max, s.world.consume json g.name fromOffset max =
        s'.world.consume json g.name fromOffset max

/-- A call that goes on to the table finds that no other namespace has its name or directory. -/
def Unclaimed (s : Tenants) : TenantCall → Prop
  | .createTopicNS fault ns name =>
      fault ≠ some .nsDir ∧ fault ≠ some .topicDir → s.world.broker.FreeFor s.grants ns name
  | .produce .. => True

instance (s : Tenants) : ∀ call, Decidable (s.Unclaimed call)
  | .createTopicNS .. => inferInstanceAs (Decidable (_ → _))
  | .produce .. => inferInstanceAs (Decidable True)

theorem createTopicNS_spec (fault : Option TenantFault) (s : Tenants) (ns name : String) :
    ∃ w res, s.world.createTopicNS fault ns name = (w, res) ∧
      (s.createTopicNS fault ns name).world = w ∧
      (s.createTopicNS fault ns name).grants =
        Grant.addIfOk ⟨ns, name, s.allocated.idxOf name⟩ res s.grants := by
  unfold createTopicNS
  split
  · next h => exact ⟨_, _, h, rfl, rfl⟩
  · next h => exact ⟨_, _, h, rfl, rfl⟩

/-- Names stand for topics: a name has one address. -/
theorem name_eq_of_address_eq (s : Tenants) {g₁ g₂ : Grant} (h₁ : g₁ ∈ s.grants)
    (h₂ : g₂ ∈ s.grants) (h : g₁.address = g₂.address) : g₁.name = g₂.name := by
  have h₁' := s.granted g₁ h₁
  rw [h, s.granted g₂ h₂] at h₁'
  exact (Option.some.inj h₁').symm

end Tenants

/-! ### Where the topics of tenants lie -/

/-- Every topic lies in the directory of a namespace that was given it, and different namespaces
have different names and directories. -/
structure Owned (w : World) (grants : List Grant) : Prop where
  topic : ∀ name t, w.broker.topics[name]? = some t →
    ∃ g ∈ grants, g.name = name ∧ t.InDir (w.broker.tenantDir g.ns name)
  apart : ∀ g₁ ∈ grants, ∀ g₂ ∈ grants, g₁.ns ≠ g₂.ns → g₁.name ≠ g₂.name ∧
    w.broker.tenantDir g₁.ns g₁.name ≠ w.broker.tenantDir g₂.ns g₂.name

namespace Owned

variable {w w' : World} {grants : List Grant} {ns name : String}

/-- A topic lies in the directory of every namespace that was given it. -/
theorem inDir (h : Owned w grants) {t : Topic} (ht : w.broker.topics[name]? = some t) {g : Grant}
    (hg : g ∈ grants) (hname : g.name = name) : t.InDir (w.broker.tenantDir g.ns name) := by
  obtain ⟨g', hg', hname', hin⟩ := h.topic name t ht
  by_cases hns : g'.ns = g.ns
  · rw [← hns]
    exact hin
  · exact absurd (hname'.trans hname.symm) (h.apart g' hg' g hg hns).1

theorem grant (h : Owned w grants) (hfree : w.broker.FreeFor grants ns name) (address : ℕ) :
    Owned w (⟨ns, name, address⟩ :: grants) := by
  refine ⟨fun name' t ht => ?_, fun g₁ h₁ g₂ h₂ hns => ?_⟩
  · obtain ⟨g, hg, hrest⟩ := h.topic name' t ht
    exact ⟨g, List.mem_cons_of_mem _ hg, hrest⟩
  · rcases List.mem_cons.mp h₁ with rfl | h₁ <;> rcases List.mem_cons.mp h₂ with rfl | h₂
    · exact absurd rfl hns
    · obtain ⟨hname, hdir⟩ := hfree g₂ h₂ hns.symm
      exact ⟨hname.symm, hdir.symm⟩
    · exact hfree g₁ h₁ hns
    · exact h.apart g₁ h₁ g₂ h₂ hns

/-- The table gets a topic that lies where a grant says. -/
theorem insert (h : Owned w grants) {t : Topic} {g : Grant} (hg : g ∈ grants)
    (hname : g.name = name)
    (hin : t.InDir (w.broker.tenantDir g.ns name))
    (hbroker : w'.broker = { w.broker with topics := w.broker.topics.insert name t }) :
    Owned w' grants := by
  rw [show w' = ⟨w'.fs, w'.broker⟩ from rfl, hbroker]
  refine ⟨fun name' t' ht' => ?_, h.apart⟩
  rcases OrdMap.getElem?_insert_cases ht' with ⟨rfl, rfl⟩ | ⟨_, hold⟩
  · exact ⟨g, hg, hname, hin⟩
  · exact h.topic name' t' hold

theorem produce (h : Owned w grants) (json : RecordJson) (env : ProduceEnv) (name : String)
    (key value : Bytes) (headers : OrdMap String String) :
    Owned (w.produce json env name key value headers).1 grants := by
  cases ht : w.broker.topics[name]? with
  | none =>
      rw [World.produce_of_none ht]
      exact h
  | some t =>
      obtain ⟨g, hg, hname, hin⟩ := h.topic name t ht
      obtain ⟨_, t', hin', hbroker⟩ := World.produce_own ht hin json env key value headers
      exact h.insert hg hname hin' hbroker

theorem createTopicNS (h : Owned w grants) {fault : Option TenantFault} {w' : World}
    {res : Except TenantError Topic} (hcreate : w.createTopicNS fault ns name = (w', res))
    (hfree : fault ≠ some .nsDir ∧ fault ≠ some .topicDir →
      w.broker.FreeFor grants ns name) (address : ℕ) :
    Owned w' (Grant.addIfOk ⟨ns, name, address⟩ res grants) := by
  cases World.createTopicNS_cases hcreate with
  | noDir => exact h
  | known hmade => exact h.grant (hfree hmade) address
  | noSegment => exact ⟨h.topic, h.apart⟩
  | opened hmade _ hnew =>
      refine (h.grant (hfree hmade) address).insert List.mem_cons_self rfl ?_ rfl
      obtain rfl := (newSegment_cases hnew).2 _ rfl
      exact ⟨_, rfl, ⟨rfl, rfl, rfl⟩, rfl⟩

end Owned

/-! ### A run without the calls of a namespace -/

/-- The namespaces other than `ns` find the same in both worlds. -/
structure Alike (ns : String) (grants : List Grant) (w w' : World) : Prop where
  dir : w'.broker.dir = w.broker.dir
  drainingTill : w'.broker.drainingTill = w.broker.drainingTill
  topics : ∀ name, (∀ g ∈ grants, g.ns = ns → g.name ≠ name) →
    w'.broker.topics[name]? = w.broker.topics[name]?
  files : ∀ path, (∀ g ∈ grants, g.ns = ns → w.broker.tenantDir g.ns g.name ≠ path) →
    SameFiles path w.fs w'.fs

namespace Alike

variable {ns : String} {grants : List Grant} {w w' : World}

theorem mono (h : Alike ns grants w w') {grants' : List Grant} (hsub : grants ⊆ grants') :
    Alike ns grants' w w' where
  dir := h.dir
  drainingTill := h.drainingTill
  topics name hname := h.topics name fun g hg => hname g (hsub hg)
  files path hpath := h.files path fun g hg => hpath g (hsub hg)

/-- Files of other directories are written in the first world. -/
theorem left {w₁ : World} {name : String} {t : Topic}
    (h : Alike ns grants w w') {g : Grant} (hg : g ∈ grants) (hns : g.ns = ns)
    (hname : g.name = name)
    (hfiles : ∀ path', w.broker.tenantDir g.ns g.name ≠ path' → SameFiles path' w.fs w₁.fs)
    (hbroker : w₁.broker = { w.broker with topics := w.broker.topics.insert name t }) :
    Alike ns grants w₁ w' := by
  rw [show w₁ = ⟨w₁.fs, w₁.broker⟩ from rfl, hbroker]
  refine ⟨h.dir, h.drainingTill, fun name' hname' => ?_, fun path' hpath' => ?_⟩
  · rw [h.topics name' hname', OrdMap.getElem?_insert_of_ne _ _ (hname ▸ hname' g hg hns)]
  · exact (hfiles path' (hpath' g hg hns)).symm.trans (h.files path' hpath')

theorem fs (h : Alike ns grants w w') {fs fs' : FileTree} (hfs : ∀ path, SameFiles path w.fs fs)
    (hfs' : ∀ path, SameFiles path w'.fs fs') :
    Alike ns grants { w with fs := fs } { w' with fs := fs' } where
  dir := h.dir
  drainingTill := h.drainingTill
  topics := h.topics
  files path hpath := ((hfs path).symm.trans (h.files path hpath)).trans (hfs' path)

/-- The namespace itself asks for a topic, in the first run only. -/
theorem skip_createTopicNS (h : Alike ns grants w w') {fault : Option TenantFault} {name : String}
    {w₁ : World} {res : Except TenantError Topic}
    (hcreate : w.createTopicNS fault ns name = (w₁, res)) (address : ℕ) :
    Alike ns (Grant.addIfOk ⟨ns, name, address⟩ res grants) w₁ w' := by
  cases World.createTopicNS_cases hcreate with
  | noDir => exact h
  | known => exact h.mono (List.subset_cons_self _ _)
  | noSegment _ _ hnew => exact h.fs (sameFiles_newSegment hnew) fun path => .refl path _
  | opened _ _ hnew =>
      exact (h.mono (List.subset_cons_self _ _)).left List.mem_cons_self rfl rfl
        (fun path' _ => sameFiles_newSegment hnew path') rfl

/-- Another namespace asks for a topic, in both runs. -/
theorem keep_createTopicNS (h : Alike ns grants w w') (fault : Option TenantFault)
    {ns' name : String} (hns : ns' ≠ ns)
    (hfree : fault ≠ some .nsDir ∧ fault ≠ some .topicDir →
      w.broker.FreeFor grants ns' name) :
    Alike ns grants (w.createTopicNS fault ns' name).1 (w'.createTopicNS fault ns' name).1 := by
  by_cases hmade : fault ≠ some .nsDir ∧ fault ≠ some .topicDir
  · have hother : ∀ g ∈ grants, g.ns = ns → g.name ≠ name ∧
        w.broker.tenantDir g.ns g.name ≠ w.broker.tenantDir ns' name :=
      fun g hg hgns => hfree hmade g hg fun heq => hns (heq.symm.trans hgns)
    have htopics := h.topics name fun g hg hgns => (hother g hg hgns).1
    have hsame := h.files (w.broker.tenantDir ns' name) fun g hg hgns => (hother g hg hgns).2
    have hnew := newSegment_congr hsame (fault.bind TenantFault.openFault) 0
    unfold World.createTopicNS
    rw [if_neg hmade.1, if_neg hmade.2, if_neg hmade.1, if_neg hmade.2, htopics,
      Broker.tenantDir_congr h.dir]
    cases w.broker.topics[name]? with
    | some t => exact h
    | none =>
        dsimp only
        rcases hw : newSegment (fault.bind TenantFault.openFault) w.fs
          (w.broker.tenantDir ns' name) 0 with ⟨fs₁, res⟩
        rcases hw' : newSegment (fault.bind TenantFault.openFault) w'.fs
          (w.broker.tenantDir ns' name) 0 with ⟨fs₁', res'⟩
        rw [hw, hw'] at hnew
        obtain rfl : res' = res := hnew
        have hboth := h.fs (sameFiles_newSegment hw) (sameFiles_newSegment hw')
        cases res' with
        | error e => exact hboth
        | ok seg =>
            refine ⟨h.dir, h.drainingTill, fun name' hname' => ?_, hboth.files⟩
            have hbefore := h.topics name' hname'
            have htopic : World.newTopicNS w'.broker ns' name seg =
                World.newTopicNS w.broker ns' name seg := by
              unfold World.newTopicNS
              rw [h.dir]
            simp only [OrdMap.getElem?_insert, htopic, hbefore]
  · rw [World.createTopicNS_of_noDir w ns' name hmade,
      World.createTopicNS_of_noDir w' ns' name hmade]
    exact h

/-- The namespace itself produces a record, in the first run only. -/
theorem skip_produce (h : Alike ns grants w w') (howned : Owned w grants) {g : Grant}
    (hg : g ∈ grants) (hns : g.ns = ns) (json : RecordJson) (env : ProduceEnv)
    (key value : Bytes) (headers : OrdMap String String) :
    Alike ns grants (w.produce json env g.name key value headers).1 w' := by
  cases ht : w.broker.topics[g.name]? with
  | none =>
      rw [World.produce_of_none ht]
      exact h
  | some t =>
      have hin := howned.inDir ht hg rfl
      obtain ⟨hoff, t', _, hbroker⟩ := World.produce_own ht hin json env key value headers
      exact h.left hg hns rfl (fun path' hne => .of_eqOff hoff hne.symm) hbroker

/-- Another namespace produces a record, in both runs. -/
theorem keep_produce (h : Alike ns grants w w') (howned : Owned w grants) {name : String}
    (hother : ¬ ∃ g ∈ grants, g.ns = ns ∧ g.name = name) (json : RecordJson) (env : ProduceEnv)
    (key value : Bytes) (headers : OrdMap String String) :
    Alike ns grants (w.produce json env name key value headers).1
      (w'.produce json env name key value headers).1 := by
  have htopics := h.topics name fun g hg hns hname => hother ⟨g, hg, hns, hname⟩
  cases ht : w.broker.topics[name]? with
  | none =>
      rw [World.produce_of_none ht, World.produce_of_none (htopics.trans ht)]
      exact h
  | some t =>
      have ht' := htopics.trans ht
      obtain ⟨g, hg, hname, hin⟩ := howned.topic name t ht
      have hns : g.ns ≠ ns := fun hns => hother ⟨g, hg, hns, hname⟩
      have hsame : SameFiles (w.broker.tenantDir g.ns name) w.fs w'.fs := by
        refine h.files _ fun g' hg' hns' => ?_
        rw [← hname]
        exact (howned.apart g' hg' g hg fun heq => hns (heq.symm.trans hns')).2
      obtain ⟨hoff, t₁, _, hb⟩ := World.produce_own ht hin json env key value headers
      obtain ⟨hoff', t₁', _, hb'⟩ := World.produce_own ht' hin json env key value headers
      obtain ⟨hfiles, hafter⟩ :=
        World.produce_congr ht hin ht' h.drainingTill hsame json env key value headers
      refine ⟨by rw [hb, hb']; exact h.dir, by rw [hb, hb']; exact h.drainingTill,
        fun name' hname' => ?_, fun path hpath => ?_⟩
      · by_cases heq : name = name'
        · rw [← heq]
          exact hafter
        · rw [hb, hb', OrdMap.getElem?_insert_of_ne _ _ heq, OrdMap.getElem?_insert_of_ne _ _ heq]
          exact h.topics name' hname'
      · by_cases heq : path = w.broker.tenantDir g.ns name
        · rw [heq]
          exact hfiles
        · rw [Broker.tenantDir_congr (show _ = w.broker.dir by rw [hb])] at hpath
          exact ((SameFiles.of_eqOff hoff heq).symm.trans (h.files path hpath)).trans
            (.of_eqOff hoff' heq)

/-- What another namespace reads. -/
theorem consume_eq (h : Alike ns grants w w') (howned : Owned w grants) {g : Grant}
    (hg : g ∈ grants) (hns : g.ns ≠ ns) (json : RecordJson) (fromOffset max : ℤ) :
    w.consume json g.name fromOffset max = w'.consume json g.name fromOffset max := by
  have hapart : ∀ g' ∈ grants, g'.ns = ns → g'.name ≠ g.name ∧
      w.broker.tenantDir g'.ns g'.name ≠ w.broker.tenantDir g.ns g.name :=
    fun g' hg' hns' => howned.apart g' hg' g hg fun heq => hns (heq.symm.trans hns')
  refine (World.consume_congr (h.topics g.name fun g' hg' hns' => (hapart g' hg' hns').1)
    (fun t ht => ?_) fromOffset max).symm
  exact World.log_eq_of_inDir (howned.inDir ht hg rfl)
    (h.files _ fun g' hg' hns' => (hapart g' hg' hns').2)

end Alike

namespace Tenants

variable {json : RecordJson} {s s' : Tenants} {call : TenantCall}

theorem owned_step (h : Owned s.world s.grants) (hfree : s.Unclaimed call)
    (hstep : s.step json call = some s') : Owned s'.world s'.grants := by
  cases call with
  | createTopicNS fault ns name =>
      obtain rfl := Option.some.inj hstep
      obtain ⟨w, res, hcreate, hworld, hgrants⟩ := s.createTopicNS_spec fault ns name
      rw [hworld, hgrants]
      exact h.createTopicNS hcreate hfree _
  | produce env name key value headers =>
      obtain rfl := Option.some.inj hstep
      exact h.produce json env name key value headers

theorem alike_skip {ns : String} {w' : World} (h : Alike ns s.grants s.world w')
    (howned : Owned s.world s.grants) (hcall : OfTenant ns s call)
    (hstep : s.step json call = some s') : Alike ns s'.grants s'.world w' := by
  cases call with
  | createTopicNS fault ns' name =>
      obtain rfl := Option.some.inj hstep
      obtain rfl : ns' = ns := hcall
      obtain ⟨w, res, hcreate, hworld, hgrants⟩ := s.createTopicNS_spec fault ns' name
      rw [hworld, hgrants]
      exact h.skip_createTopicNS hcreate _
  | produce env name key value headers =>
      obtain rfl := Option.some.inj hstep
      obtain ⟨g, hg, hns, rfl⟩ := hcall
      exact h.skip_produce howned hg hns json env key value headers

theorem alike_keep {ns : String} {t : Tenants} (h : Alike ns s.grants s.world t.world)
    (howned : Owned s.world s.grants) (hfree : s.Unclaimed call) (hcall : ¬ OfTenant ns s call)
    (hstep : s.step json call = some s') :
    ∃ t', t.step json call = some t' ∧ Alike ns s'.grants s'.world t'.world := by
  cases call with
  | createTopicNS fault ns' name =>
      obtain rfl := Option.some.inj hstep
      refine ⟨_, rfl, ?_⟩
      obtain ⟨w, res, hcreate, hworld, hgrants⟩ := s.createTopicNS_spec fault ns' name
      obtain ⟨w', res', hcreate', hworld', -⟩ := t.createTopicNS_spec fault ns' name
      have hboth := h.keep_createTopicNS fault hcall hfree
      rw [hcreate, hcreate'] at hboth
      rw [hworld, hworld', hgrants]
      cases res with
      | error e => exact hboth
      | ok topic => exact hboth.mono (List.subset_cons_self _ _)
  | produce env name key value headers =>
      obtain rfl := Option.some.inj hstep
      exact ⟨_, rfl, h.keep_produce howned hcall json env key value headers⟩

theorem owned_start (fs : FileTree) (dir : SlashPath) :
    Owned (start fs dir).world (start fs dir).grants where
  topic _ _ ht := by simp [start, Broker.fresh] at ht
  apart _ hg := absurd hg List.not_mem_nil

end Tenants

/-- Tenants are isolated on any disk as long as `CreateTopicNS` is never asked for a name, or led
to a directory, that another namespace has. -/
theorem tenants_isolated (json : RecordJson) (fs : FileTree) (dir : SlashPath)
    {calls : List TenantCall} {s : Tenants}
    (hrun : exec (Tenants.step json) (.start fs dir) calls = some s)
    (hfree : Guarded (Tenants.step json) Tenants.Unclaimed (.start fs dir) calls) :
    s.Isolated json fs dir calls := by
  have howned : Owned s.world s.grants :=
    invariant_of_guarded (fun s => Owned s.world s.grants)
      (fun _ _ _ h ha hstep => Tenants.owned_step h ha hstep) hrun hfree
      (Tenants.owned_start fs dir)
  refine ⟨fun g₁ h₁ g₂ h₂ hns haddress => ?_, fun ns g hg hns => ?_⟩
  · exact (howned.apart g₁ h₁ g₂ h₂ hns).1 (s.name_eq_of_address_eq h₁ h₂ haddress)
  · obtain ⟨s', hrun', -, halike⟩ := exec_purge (Tenants.OfTenant ns)
      (fun s t => Owned s.world s.grants ∧ Alike ns s.grants s.world t.world)
      (fun _ _ _ _ h ha hcall hstep =>
        ⟨Tenants.owned_step h.1 ha hstep, Tenants.alike_skip h.2 h.1 hcall hstep⟩)
      (fun _ _ _ _ h ha hcall hstep => by
        obtain ⟨t', hstep', halike⟩ := Tenants.alike_keep h.2 h.1 ha hcall hstep
        exact ⟨t', hstep', Tenants.owned_step h.1 ha hstep, halike⟩)
      hrun hfree ⟨Tenants.owned_start fs dir, rfl, rfl, fun _ _ => rfl, fun path _ => .refl path fs⟩
    exact ⟨s', hrun', halike.consume_eq howned hg hns json⟩

/-- A record for a topic. -/
def TenantCall.sampleProduce (name : String) : TenantCall :=
  .produce ⟨0, 0, .ok⟩ name (asciiBytes "k") (asciiBytes "v") ∅

/-- Two namespaces with a topic each, under different names. -/
theorem tenants_isolated_sample :
    ∃ s, exec (Tenants.step sampleJson) (.start (fun _ => none) ⟨true, ["d"]⟩)
        [.createTopicNS none "x" "t", .createTopicNS none "y" "u", .sampleProduce "t"] = some s ∧
      (s.grants = [⟨"y", "u", 1⟩, ⟨"x", "t", 0⟩] ∧
        s.world.consume sampleJson "t" 0 10 = .ok [sampleRecord 0] ∧
        s.world.consume sampleJson "u" 0 10 = .ok []) ∧
      s.Isolated sampleJson (fun _ => none) ⟨true, ["d"]⟩
        [.createTopicNS none "x" "t", .createTopicNS none "y" "u", .sampleProduce "t"] := by
  obtain ⟨s, hrun, hs⟩ : ∃ s, exec (Tenants.step sampleJson)
        (.start (fun _ => none) ⟨true, ["d"]⟩)
        [.createTopicNS none "x" "t", .createTopicNS none "y" "u", .sampleProduce "t"] = some s ∧
      (s.grants = [⟨"y", "u", 1⟩, ⟨"x", "t", 0⟩] ∧
        s.world.consume sampleJson "t" 0 10 = .ok [sampleRecord 0] ∧
        s.world.consume sampleJson "u" 0 10 = .ok []) :=
    exists_exec_of_any (by decide +kernel)
  exact ⟨s, hrun, hs,
    tenants_isolated sampleJson (fun _ => none) ⟨true, ["d"]⟩ hrun (by decide +kernel)⟩

/-- The calls of two namespaces that ask for one name. -/
def sharedName : List TenantCall :=
  [.createTopicNS none "x" "t", .createTopicNS none "y" "t", .sampleProduce "t"]

/-- The calls of two namespaces that ask for different names in one directory. -/
def sharedDir : List TenantCall :=
  [.createTopicNS none "x" "y/t", .sampleProduce "y/t", .createTopicNS none "x/y" "t"]

/-- Two namespaces that ask for one name are given the topic at address 0. Two namespaces that ask
for different names in one directory are given two topics, and the second one reads what was
produced for the first. -/
theorem tenants_not_isolated :
    (∃ s, exec (Tenants.step sampleJson) (.start (fun _ => none) ⟨true, ["d"]⟩) sharedName =
        some s ∧
      (s.grants = [⟨"y", "t", 0⟩, ⟨"x", "t", 0⟩] ∧
        s.world.consume sampleJson "t" 0 10 = .ok [sampleRecord 0]) ∧
      ¬ s.Isolated sampleJson (fun _ => none) ⟨true, ["d"]⟩ sharedName) ∧
    ∃ s, exec (Tenants.step sampleJson) (.start (fun _ => none) ⟨true, ["d"]⟩) sharedDir =
        some s ∧
      (s.grants = [⟨"x/y", "t", 1⟩, ⟨"x", "y/t", 0⟩] ∧
        s.world.consume sampleJson "t" 0 10 = .ok [sampleRecord 0]) ∧
      ¬ s.Isolated sampleJson (fun _ => none) ⟨true, ["d"]⟩ sharedDir := by
  constructor
  · obtain ⟨s, hrun, hgrants, hread⟩ : ∃ s, exec (Tenants.step sampleJson)
        (.start (fun _ => none) ⟨true, ["d"]⟩) sharedName = some s ∧
        s.grants = [⟨"y", "t", 0⟩, ⟨"x", "t", 0⟩] ∧
        s.world.consume sampleJson "t" 0 10 = .ok [sampleRecord 0] :=
      exists_exec_of_any (by decide +kernel)
    refine ⟨s, hrun, ⟨hgrants, hread⟩, fun h => ?_⟩
    exact h.topics ⟨"x", "t", 0⟩ (by simp [hgrants]) ⟨"y", "t", 0⟩ (by simp [hgrants])
      (by decide) rfl
  · obtain ⟨s, hrun, hgrants, hread⟩ : ∃ s, exec (Tenants.step sampleJson)
        (.start (fun _ => none) ⟨true, ["d"]⟩) sharedDir = some s ∧
        s.grants = [⟨"x/y", "t", 1⟩, ⟨"x", "y/t", 0⟩] ∧
        s.world.consume sampleJson "t" 0 10 = .ok [sampleRecord 0] :=
      exists_exec_of_any (by decide +kernel)
    refine ⟨s, hrun, ⟨hgrants, hread⟩, fun h => ?_⟩
    obtain ⟨s', hrun', hsame⟩ := h.reads "x" ⟨"x/y", "t", 1⟩ (by simp [hgrants]) (by decide)
    -- without the calls of the first namespace nothing was produced
    obtain ⟨t, hpurged, hnone⟩ : ∃ t, exec (Tenants.step sampleJson)
        (.start (fun _ => none) ⟨true, ["d"]⟩)
        (purge (Tenants.step sampleJson) (Tenants.OfTenant "x")
          (.start (fun _ => none) ⟨true, ["d"]⟩) sharedDir) = some t ∧
        t.world.consume sampleJson "t" 0 10 = .ok [] :=
      exists_exec_of_any (by decide +kernel)
    obtain rfl := Option.some.inj (hrun'.symm.trans hpurged)
    have heq := hsame 0 10
    rw [hread, hnone] at heq
    cases heq

end StreamFlow
