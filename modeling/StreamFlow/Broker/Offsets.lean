import StreamFlow.Broker.Basic
import StreamFlow.Foundation.Numeral
import StreamFlow.Foundation.Run
import Mathlib.Data.List.Induction
import Mathlib.Data.Set.Function

/-!
# Committed offsets

`CommitOffset` keeps the offset of a consumer group on a topic as a decimal text in a
file, whose path is joined from the names of both. `filepath.Join` cleans the path, so
different names can lead to the same file. `keyedMap_iff` says what this means for the
table of committed offsets: the pairs of a set have entries of their own if and only if
they have files of their own.
-/

namespace StreamFlow

open BigEndian ByteFile Run

/-- The values of an `int64`. -/
abbrev Offset := {n : ℤ // Int64Range n}

/-- The errors of `CommitOffset` and `LoadOffset`. -/
inductive OffsetError where
  | createGroupDir
  | writeFile
  | readFile
  | scan
deriving DecidableEq, Repr

/-- The file of `LoadOffset` for a topic and a group. -/
def offsetPath (dir : SlashPath) (x : String × String) : SlashPath :=
  ["groups", x.2, x.1 ++ ".offset"].foldl SlashPath.join dir

namespace World

/-- `CommitOffset`; the flag tells whether the directory of the group could be created. -/
def commitOffset (mkdirOk : Bool) (o : ReplaceOutcome) (w : World) (topicName groupID : String)
    (offset : Offset) : World × Except OffsetError Unit :=
  let groupDir := ["groups", groupID].foldl SlashPath.join w.broker.dir
  if ¬ mkdirOk then (w, .error .createGroupDir)
  else
    let path := groupDir.join (topicName ++ ".offset")
    match w.fs.writeFile path (Numeral.print offset) o with
    | (fs, true) => ({ w with fs := fs }, .ok ())
    | (fs, false) => ({ w with fs := fs }, .error .writeFile)

def loadOffset (w : World) (topicName groupID : String) : Except OffsetError ℤ :=
  match w.fs (offsetPath w.broker.dir (topicName, groupID)) with
  | none => .error .readFile
  | some data =>
      match Numeral.scan data with
      | none => .error .scan
      | some off => .ok off

theorem commitOffset_true (o : ReplaceOutcome) (w : World) (topicName groupID : String)
    (offset : Offset) :
    w.commitOffset true o topicName groupID offset =
      ({ w with fs := (w.fs.writeFile (offsetPath w.broker.dir (topicName, groupID))
          (Numeral.print offset) o).1 },
        if o = .done then .ok () else .error .writeFile) := by
  cases o with
  | done => rfl
  | notOpened => rfl
  | failed n => rfl

theorem loadOffset_of_print {w : World} {topicName groupID : String} {offset : Offset}
    (h : w.fs (offsetPath w.broker.dir (topicName, groupID)) = some (Numeral.print offset)) :
    w.loadOffset topicName groupID = .ok offset.1 := by
  rw [loadOffset, h]
  dsimp only
  rw [Numeral.scan_print offset.2]

end World

/-- A call of `CommitOffset` with the outcomes of its file operations. -/
structure OffsetCommit where
  topicName : String
  groupID : String
  offset : Offset
  mkdirOk : Bool
  outcome : ReplaceOutcome

namespace OffsetCommit

def pair (c : OffsetCommit) : String × String := (c.topicName, c.groupID)

/-- A call whose file operations succeed. -/
def ok (topicName groupID : String) (offset : Offset) : OffsetCommit :=
  ⟨topicName, groupID, offset, true, .done⟩

/-- A successful call. -/
def step (w : World) (c : OffsetCommit) : Option World :=
  match w.commitOffset c.mkdirOk c.outcome c.topicName c.groupID c.offset with
  | (w, .ok _) => some w
  | (_, .error _) => none

theorem step_cases {w w' : World} {c : OffsetCommit} (h : step w c = some w') :
    w' = ⟨w.fs.set (offsetPath w.broker.dir c.pair) (some (Numeral.print c.offset)), w.broker⟩ := by
  obtain ⟨topicName, groupID, offset, mkdirOk, outcome⟩ := c
  unfold step at h
  cases mkdirOk with
  | false => cases h
  | true =>
      dsimp only at h
      rw [World.commitOffset_true] at h
      cases outcome with
      | done => exact (Option.some.inj h).symm
      | notOpened => cases h
      | failed n => cases h

/-- The offset of the last call for a pair. -/
def latest (calls : List OffsetCommit) (x : String × String) : Option Offset :=
  ((calls.filter fun c => decide (c.pair = x)).getLast?).map offset

theorem latest_concat (calls : List OffsetCommit) (c : OffsetCommit) (x : String × String) :
    latest (calls ++ [c]) x = if c.pair = x then some c.offset else latest calls x := by
  unfold latest
  rw [List.filter_append, List.filter_singleton]
  by_cases hx : c.pair = x
  · simp [hx]
  · simp [hx]

end OffsetCommit

/-- The committed offsets are a map from the pairs of a set: after any successful calls for
them, `LoadOffset` returns the last offset committed for its own pair, or what it returned
before if there is none. -/
def KeyedMap (dir : SlashPath) (S : Set (String × String)) : Prop :=
  ∀ (w w' : World) (calls : List OffsetCommit), w.broker.dir = dir → (∀ c ∈ calls, c.pair ∈ S) →
    exec OffsetCommit.step w calls = some w' → ∀ x ∈ S,
      w'.loadOffset x.1 x.2 =
        match OffsetCommit.latest calls x with
        | some offset => .ok offset.1
        | none => w.loadOffset x.1 x.2

theorem keyedMap_of_injOn {dir : SlashPath} {S : Set (String × String)}
    (hinj : Set.InjOn (offsetPath dir) S) : KeyedMap dir S := by
  intro w w' calls hdir hcalls hrun x hx
  -- the broker is carried along, because the paths depend on its directory
  suffices hmain : w'.broker = w.broker ∧ ∀ x ∈ S, w'.loadOffset x.1 x.2 =
      match OffsetCommit.latest calls x with
      | some offset => .ok offset.1
      | none => w.loadOffset x.1 x.2 from hmain.2 x hx
  clear hx x
  induction calls using List.reverseRecOn generalizing w' with
  | nil =>
      obtain rfl := Option.some.inj hrun
      exact ⟨rfl, fun _ _ => rfl⟩
  | append_singleton calls c ih =>
      obtain ⟨w₁, hrest, hlast⟩ := exec_append_eq_some_iff.mp hrun
      obtain ⟨w₂, hstep, hnil⟩ := exec_cons_eq_some_iff.mp hlast
      obtain rfl := Option.some.inj hnil
      obtain ⟨hb, hload⟩ := ih w₁ (fun d hd => hcalls d (List.mem_append_left _ hd)) hrest
      obtain rfl := OffsetCommit.step_cases hstep
      refine ⟨hb, fun x hx => ?_⟩
      have hc : c.pair ∈ S := hcalls c (by simp)
      rw [OffsetCommit.latest_concat]
      by_cases heq : c.pair = x
      · rw [if_pos heq]
        apply World.loadOffset_of_print
        rw [heq]
        exact FileTree.set_self _ _ _
      · rw [if_neg heq, ← hload x hx]
        have hne : offsetPath w₁.broker.dir x ≠ offsetPath w₁.broker.dir c.pair := by
          rw [hb, hdir]
          exact fun hpath => heq (hinj hx hc hpath).symm
        unfold World.loadOffset
        dsimp only
        rw [FileTree.set_of_ne _ _ hne]

theorem KeyedMap.injOn {dir : SlashPath} {S : Set (String × String)} (h : KeyedMap dir S) :
    Set.InjOn (offsetPath dir) S := by
  intro x hx y hy hpath
  by_contra hne
  -- a commit for `y` on an empty disk is read back for `x`
  let w : World := ⟨fun _ => none, .fresh dir⟩
  let c : OffsetCommit := .ok y.1 y.2 ⟨0, by decide⟩
  have hload := h w _ [c] rfl (by simpa [c, OffsetCommit.ok, OffsetCommit.pair] using hy) rfl x hx
  have hlatest : OffsetCommit.latest [c] x = none := by
    have hcx : c.pair ≠ x := fun hcx => hne hcx.symm
    simp [OffsetCommit.latest, hcx]
  have hzero : (⟨w.fs.set (offsetPath dir y) (some (Numeral.print c.offset)), w.broker⟩ :
      World).loadOffset x.1 x.2 = .ok c.offset.1 := by
    apply World.loadOffset_of_print
    change FileTree.set _ (offsetPath dir y) _ (offsetPath dir x) = _
    rw [hpath, FileTree.set_self]
  rw [hlatest] at hload
  cases hzero.symm.trans hload

/-- Committed offsets form a map exactly on the pairs that have files of their own. For
every set of pairs of a topic and a group: in all runs of successful calls for these pairs,
`LoadOffset` returns the last offset committed for its pair and no other call changes it,
if and only if no two pairs of the set have the same path. -/
theorem keyedMap_iff (dir : SlashPath) (S : Set (String × String)) :
    KeyedMap dir S ↔ Set.InjOn (offsetPath dir) S :=
  ⟨KeyedMap.injOn, keyedMap_of_injOn⟩

theorem plain_offset {topicName : String} (h : '/' ∉ topicName.toList) :
    SlashPath.Plain (topicName ++ ".offset") := by
  apply SlashPath.plain_of_notMem
  · rw [String.toList_append, List.mem_append]
    rintro (hmem | hmem)
    · exact h hmem
    · exact absurd hmem (by decide)
  · rw [String.toList_append, List.length_append]
    exact Nat.lt_of_lt_of_le (by decide) (Nat.le_add_left _ _)

/-- Topics without a slash and groups that are ordinary names do not interfere. -/
theorem keyedMap_of_plain (dir : SlashPath) {S : Set (String × String)}
    (hS : ∀ x ∈ S, '/' ∉ x.1.toList ∧ SlashPath.Plain x.2) : KeyedMap dir S := by
  apply keyedMap_of_injOn
  intro x hx y hy hpath
  obtain ⟨htopic, hgroup⟩ := hS x hx
  obtain ⟨htopic', hgroup'⟩ := hS y hy
  obtain ⟨hdir, hfile⟩ := (SlashPath.join_eq_join_iff (plain_offset htopic)
    (plain_offset htopic')).mp hpath
  obtain ⟨-, hsame⟩ := (SlashPath.join_eq_join_iff hgroup hgroup').mp hdir
  exact Prod.ext ((String.append_left_inj ".offset").mp hfile) hsame

/-- Two names of one directory: the second commit replaces the offset of the first group.
With the slash in another place, a group reads an offset that was committed for another
topic of another group. -/
theorem not_keyedMap_cleaned :
    (∃ w, exec OffsetCommit.step ⟨fun _ => none, .fresh ⟨true, ["d"]⟩⟩
        [.ok "t" "a" ⟨1, by decide⟩, .ok "t" "./a" ⟨2, by decide⟩] = some w ∧
      w.loadOffset "t" "a" = .ok 2) ∧
    (∃ w, exec OffsetCommit.step ⟨fun _ => none, .fresh ⟨true, ["d"]⟩⟩
        [.ok "c" "a/b" ⟨7, by decide⟩] = some w ∧
      w.loadOffset "b/c" "a" = .ok 7) ∧
    ¬ KeyedMap ⟨true, ["d"]⟩ {x | x.1 ≠ "" ∧ x.2 ≠ ""} := by
  refine ⟨exists_exec_of_any (by decide +kernel), exists_exec_of_any (by decide +kernel), ?_⟩
  intro h
  have hpath : offsetPath ⟨true, ["d"]⟩ ("t", "a") = offsetPath ⟨true, ["d"]⟩ ("t", "./a") := by
    decide +kernel
  exact absurd (h.injOn ⟨by decide, by decide⟩ ⟨by decide, by decide⟩ hpath) (by decide)

end StreamFlow
