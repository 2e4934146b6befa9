import StreamFlow.Foundation.OrdMap
import StreamFlow.Foundation.Run
import StreamFlow.Foundation.Text

/-!
# The schema registry

`schema/advanced_registry.go`: versions of schemas under a name, with ids from one counter
for all names. `Register` compares a new version with the last one of its name only. The
history of a registry is the list of the versions it has accepted; `registry_history`
reads off it what a registry holds after any calls, accepted or rejected.

Strings are lists of bytes, as `len` counts bytes. Ids are unbounded.
-/

namespace StreamFlow.Schema

open BigEndian Run

structure SchemaFormat where
  text : Bytes
deriving DecidableEq, Repr

def formatJSONSchema : SchemaFormat := ⟨Utf8.encode "jsonschema"⟩

def formatAvro : SchemaFormat := ⟨Utf8.encode "avro"⟩

def formatProtobuf : SchemaFormat := ⟨Utf8.encode "protobuf"⟩

structure SchemaVersion where
  id : ℕ
  name : Bytes
  format : SchemaFormat
  content : Bytes
deriving DecidableEq, Repr

structure AdvancedRegistry where
  nextID : ℕ
  versions : OrdMap Bytes (List SchemaVersion)
deriving DecidableEq

inductive RegistryError where
  | required
  | unsupportedFormat
  | notBackwardCompatible
deriving DecidableEq, Repr

def newAdvancedRegistry : AdvancedRegistry := ⟨1, ∅⟩

def isBackwardCompatible (oldSchema newSchema : Bytes) : Bool :=
  if oldSchema = [] then true else decide (oldSchema.length ≤ newSchema.length)

/-- The arguments of `Register`. -/
structure RegisterCall where
  name : Bytes
  format : SchemaFormat
  content : Bytes
deriving DecidableEq, Repr

namespace AdvancedRegistry

/-- The versions of a name; a missing entry reads as an empty list. -/
def versionsOf (r : AdvancedRegistry) (name : Bytes) : List SchemaVersion :=
  (r.versions[name]?).getD []

/-- The check against the last version of the name. -/
def compatible (r : AdvancedRegistry) (name content : Bytes) : Bool :=
  match (r.versionsOf name).getLast? with
  | none => true
  | some last => isBackwardCompatible last.content content

def register (r : AdvancedRegistry) (c : RegisterCall) :
    AdvancedRegistry × Except RegistryError SchemaVersion :=
  if c.name = [] ∨ c.content = [] then (r, .error .required)
  else if c.format ≠ formatJSONSchema ∧ c.format ≠ formatAvro ∧ c.format ≠ formatProtobuf then
    (r, .error .unsupportedFormat)
  else if !r.compatible c.name c.content then (r, .error .notBackwardCompatible)
  else
    let sv : SchemaVersion := ⟨r.nextID, c.name, c.format, c.content⟩
    ({ nextID := r.nextID + 1
       versions := r.versions.insert c.name (r.versionsOf c.name ++ [sv]) }, .ok sv)

def latest (r : AdvancedRegistry) (name : Bytes) : Option SchemaVersion :=
  (r.versionsOf name).getLast?

end AdvancedRegistry

/-- A registry and the versions it has accepted, in this order. -/
structure History where
  registry : AdvancedRegistry
  accepted : List SchemaVersion

namespace History

def start : History := ⟨newAdvancedRegistry, []⟩

/-- One call of `Register`. -/
def step (s : History) (c : RegisterCall) : Option History :=
  match s.registry.register c with
  | (r, .ok sv) => some ⟨r, s.accepted ++ [sv]⟩
  | (r, .error _) => some ⟨r, s.accepted⟩

/-- The accepted versions of a name. -/
def acceptedOf (s : History) (name : Bytes) : List SchemaVersion :=
  s.accepted.filter fun sv => decide (sv.name = name)

end History

theorem isBackwardCompatible_iff {oldSchema newSchema : Bytes} :
    isBackwardCompatible oldSchema newSchema = true ↔ oldSchema.length ≤ newSchema.length := by
  unfold isBackwardCompatible
  split
  · next hnil => simp [hnil]
  · exact decide_eq_true_iff

namespace AdvancedRegistry

variable {r : AdvancedRegistry} {c : RegisterCall}

/-- A call is rejected and changes nothing, or its version is added under the next id. -/
theorem register_cases (r : AdvancedRegistry) (c : RegisterCall) :
    (∃ e, r.register c = (r, .error e)) ∨
      r.compatible c.name c.content = true ∧
        r.register c =
          ({ nextID := r.nextID + 1
             versions := r.versions.insert c.name
               (r.versionsOf c.name ++ [⟨r.nextID, c.name, c.format, c.content⟩]) },
            .ok ⟨r.nextID, c.name, c.format, c.content⟩) := by
  unfold register
  split
  · exact .inl ⟨_, rfl⟩
  · split
    · exact .inl ⟨_, rfl⟩
    · split
      · exact .inl ⟨_, rfl⟩
      · next hcompatible =>
          rw [Bool.not_eq_true, Bool.not_eq_false'] at hcompatible
          exact .inr ⟨hcompatible, rfl⟩

theorem versionsOf_insert (r : AdvancedRegistry) (nextID : ℕ) (name name' : Bytes)
    (versions : List SchemaVersion) :
    versionsOf ⟨nextID, r.versions.insert name versions⟩ name' =
      if name = name' then versions else r.versionsOf name' := by
  rw [versionsOf, OrdMap.getElem?_insert]
  split <;> rfl

end AdvancedRegistry

namespace History

/-- What the history tells about a registry. -/
structure Sound (s : History) : Prop where
  ids : (s.accepted.map SchemaVersion.id).Pairwise (· < ·)
  lt_nextID : ∀ sv ∈ s.accepted, sv.id < s.registry.nextID
  versions : ∀ name, s.registry.versionsOf name = s.acceptedOf name
  compatible : ∀ name, (s.registry.versionsOf name).Pairwise fun a b =>
    isBackwardCompatible a.content b.content = true

variable {s s' : History} {c : RegisterCall}

theorem sound_start : start.Sound where
  ids := List.Pairwise.nil
  lt_nextID _ hsv := absurd hsv List.not_mem_nil
  versions _ := rfl
  compatible _ := List.Pairwise.nil

/-- A call leaves everything as it was, or adds a version that is compatible with the last one
of its name. -/
theorem step_cases (h : s.step c = some s') :
    s' = s ∨
      s.registry.compatible c.name c.content = true ∧
        ∃ sv : SchemaVersion, sv.id = s.registry.nextID ∧ sv.name = c.name ∧
          sv.content = c.content ∧ s'.accepted = s.accepted ++ [sv] ∧
          s'.registry.nextID = s.registry.nextID + 1 ∧
          ∀ name, s'.registry.versionsOf name =
            if c.name = name then s.registry.versionsOf name ++ [sv]
            else s.registry.versionsOf name := by
  unfold step at h
  rcases s.registry.register_cases c with ⟨e, he⟩ | ⟨hcompatible, hok⟩
  · rw [he] at h
    exact .inl (Option.some.inj h).symm
  · rw [hok] at h
    obtain rfl := Option.some.inj h
    refine .inr ⟨hcompatible, _, rfl, rfl, rfl, rfl, rfl, fun name => ?_⟩
    rw [AdvancedRegistry.versionsOf_insert]
    split
    · next heq => rw [heq]
    · rfl

/-- The versions of a name are ordered by length, so the check against the last one is enough
for all of them. -/
theorem forall_compatible {versions : List SchemaVersion} {content : Bytes}
    (h : versions.Pairwise fun a b => isBackwardCompatible a.content b.content = true)
    (hlast : ∀ last ∈ versions.getLast?, isBackwardCompatible last.content content = true) :
    ∀ a ∈ versions, isBackwardCompatible a.content content = true := by
  intro a ha
  obtain ⟨earlier, last, rfl⟩ : ∃ earlier last, versions = earlier ++ [last] :=
    ⟨_, _, (List.dropLast_append_getLast (List.ne_nil_of_mem ha)).symm⟩
  have hcontent := hlast last (by rw [List.getLast?_concat]; rfl)
  rcases List.mem_append.mp ha with hearlier | hsame
  · have hab := (List.pairwise_append.mp h).2.2 a hearlier last (List.mem_singleton_self last)
    rw [isBackwardCompatible_iff] at hab hcontent ⊢
    exact hab.trans hcontent
  · rwa [List.mem_singleton.mp hsame]

theorem Sound.step (h : s.Sound) (hstep : s.step c = some s') : s'.Sound := by
  rcases step_cases hstep with rfl | ⟨hcompatible, sv, hid, hname, hcontent, hacc, hnext, hvers⟩
  · exact h
  · have hacceptedOf : ∀ name, s'.acceptedOf name =
        if c.name = name then s.acceptedOf name ++ [sv] else s.acceptedOf name := by
      intro name
      rw [acceptedOf, hacc, List.filter_append, acceptedOf, List.filter_singleton, hname]
      split <;> simp_all
    refine ⟨?_, ?_, fun name => ?_, fun name => ?_⟩
    · rw [hacc, List.map_append, List.pairwise_append]
      refine ⟨h.ids, List.pairwise_singleton _ _, fun a ha b hb => ?_⟩
      obtain ⟨sv', hsv', rfl⟩ := List.mem_map.mp ha
      rw [List.map_singleton, List.mem_singleton] at hb
      rw [hb, hid]
      exact h.lt_nextID sv' hsv'
    · intro sv' hsv'
      rw [hacc, List.mem_append, List.mem_singleton] at hsv'
      rw [hnext]
      rcases hsv' with hold | rfl
      · exact (h.lt_nextID sv' hold).trans (Nat.lt_succ_self _)
      · rw [hid]
        exact Nat.lt_succ_self _
    · rw [hvers, hacceptedOf, h.versions]
    · rw [hvers]
      split
      · next heq =>
          rw [List.pairwise_append]
          refine ⟨h.compatible name, List.pairwise_singleton _ _, fun a ha b hb => ?_⟩
          rw [List.mem_singleton.mp hb, hcontent]
          refine forall_compatible (h.compatible name) (fun last hlast => ?_) a ha
          rw [AdvancedRegistry.compatible, heq, Option.mem_def.mp hlast] at hcompatible
          exact hcompatible
      · exact h.compatible name

theorem isPrefix_step (hstep : s.step c = some s') (name : Bytes) :
    s.registry.versionsOf name <+: s'.registry.versionsOf name := by
  rcases step_cases hstep with rfl | ⟨-, sv, -, -, -, -, -, hvers⟩
  · exact List.prefix_rfl
  · rw [hvers]
    split
    · exact List.prefix_append _ _
    · exact List.prefix_rfl

end History

/-- After any calls of `Register`: ids increase in the order of acceptance and are distinct,
a later version of a name is compatible with all earlier ones, `Latest` returns the version
accepted last, and a rejected call changes nothing. Any further calls extend the version
lists at their ends. -/
theorem registry_history {calls more : List RegisterCall} {s s' : History}
    (hrun : exec History.step .start calls = some s)
    (hmore : exec History.step s more = some s') :
    (s.accepted.map SchemaVersion.id).Pairwise (· < ·) ∧
      (s.accepted.map SchemaVersion.id).Nodup ∧
      (∀ name, s.registry.versionsOf name <+: s'.registry.versionsOf name) ∧
      (∀ name (i j : ℕ) a b, i < j → (s.registry.versionsOf name)[i]? = some a →
        (s.registry.versionsOf name)[j]? = some b →
        isBackwardCompatible a.content b.content = true) ∧
      (∀ name, s.registry.latest name = (s.acceptedOf name).getLast?) ∧
      ∀ c e, (s.registry.register c).2 = .error e → (s.registry.register c).1 = s.registry := by
  have hsound : s.Sound :=
    invariant History.Sound (fun s c s' h hstep => h.step hstep) hrun History.sound_start
  refine ⟨hsound.ids, hsound.ids.imp Nat.ne_of_lt, fun name => ?_, ?_, fun name => ?_, ?_⟩
  · refine invariant (fun s' => s.registry.versionsOf name <+: s'.registry.versionsOf name)
      (fun s₁ c s₂ h hstep => ?_) hmore List.prefix_rfl
    exact h.trans (History.isPrefix_step hstep name)
  · intro name i j a b hij ha hb
    obtain ⟨hi, rfl⟩ := List.getElem?_eq_some_iff.mp ha
    obtain ⟨hj, rfl⟩ := List.getElem?_eq_some_iff.mp hb
    exact List.pairwise_iff_getElem.mp (hsound.compatible name) i j hi hj hij
  · rw [AdvancedRegistry.latest, hsound.versions]
  · intro c e herror
    rcases s.registry.register_cases c with ⟨e', he'⟩ | ⟨-, hok⟩
    · rw [he']
    · rw [hok] at herror
      cases herror

/-- A call for a JSON schema. -/
def RegisterCall.sample (name content : String) : RegisterCall :=
  ⟨Utf8.encode name, formatJSONSchema, Utf8.encode content⟩

theorem registry_history_sample :
    ∃ s s', exec History.step .start [.sample "orders" "12", .sample "users" "1",
          .sample "orders" "1", .sample "orders" "123"] = some s ∧
      exec History.step s [.sample "orders" "", .sample "orders" "456"] = some s' ∧
      (s.accepted.length = 3 ∧ s'.accepted.length = 4) ∧
      s.registry.versionsOf (Utf8.encode "orders") <+:
        s'.registry.versionsOf (Utf8.encode "orders") ∧
      s.registry.latest (Utf8.encode "orders") =
        (s.acceptedOf (Utf8.encode "orders")).getLast? := by
  obtain ⟨s, hrun, hs⟩ : ∃ s, exec History.step .start [.sample "orders" "12",
      .sample "users" "1", .sample "orders" "1", .sample "orders" "123"] = some s ∧
      s.accepted.length = 3 ∧ (exec History.step s [.sample "orders" "",
        .sample "orders" "456"]).any (fun s' => decide (s'.accepted.length = 4)) = true :=
    exists_exec_of_any (by decide +kernel)
  obtain ⟨s', hmore, hs'⟩ := exists_exec_of_any hs.2
  obtain ⟨-, -, hgrow, -, hlatest, -⟩ := registry_history hrun hmore
  exact ⟨s, s', hrun, hmore, ⟨hs.1, hs'⟩, hgrow _, hlatest _⟩

end StreamFlow.Schema
