import Mathlib.Data.Finset.Card
import StreamFlow.Foundation.OrdMap

/-!
# Loops that group

A loop over a list that keeps a map with one entry per group changes, for each element, only the
entry of the group the element belongs to. What it leaves in one entry is then the same loop over
the elements of that group alone (`foldl_look`). The case used most is a map of lists to which
each element appends a value (`push`); `getElem?_pushAll` reads off its entries.
-/

open Std

namespace Grouping

variable {σ ε β γ : Type*}

/-- If an element changes a part of the state only when it belongs to a group, the part is computed
from the elements of the group. -/
theorem foldl_look (look : σ → β) {step : σ → ε → σ} (p : ε → Bool) (f : β → ε → β)
    (h : ∀ s e, look (step s e) = if p e then f (look s) e else look s) (l : List ε) (s : σ) :
    look (l.foldl step s) = (l.filter p).foldl f (look s) := by
  rw [List.foldl_filter]
  exact (List.foldl_hom look fun s e => (h s e).symm).symm

/-- The same for what an element brings to the part, if it brings anything. -/
theorem foldl_lookMap (look : σ → β) {step : σ → ε → σ} (c : ε → Option γ) (f : β → γ → β)
    (h : ∀ s e, look (step s e) = ((c e).map (f (look s))).getD (look s)) (l : List ε) (s : σ) :
    look (l.foldl step s) = (l.filterMap c).foldl f (look s) := by
  rw [List.foldl_filterMap]
  refine (List.foldl_hom look fun s e => ?_).symm
  rw [h]
  cases c e <;> rfl

/-- A loop that starts its part with the first element. -/
theorem foldl_some_getD (f : β → ε → β) (b : β) (l : List ε) :
    l.foldl (fun o e => some (f (o.getD b) e)) none =
      if l = [] then none else some (l.foldl f b) := by
  have hsome : ∀ b', l.foldl (fun o e => some (f (o.getD b) e)) (some b') =
      some (l.foldl f b') := by
    induction l with
    | nil => exact fun _ => rfl
    | cons e l ih => exact fun b' => ih (f b' e)
  cases l with
  | nil => rfl
  | cons e l =>
      rw [if_neg (List.cons_ne_nil e l)]
      exact hsome b

/-- A number as an entry of a map that has no zeros. -/
def countEntry (n : ℕ) : Option ℕ := if n = 0 then none else some n

theorem countEntry_of_ne_zero {n : ℕ} (h : n ≠ 0) : countEntry n = some n := if_neg h

theorem isSome_countEntry {n : ℕ} : (countEntry n).isSome ↔ n ≠ 0 := by
  unfold countEntry
  split <;> simp_all

theorem countEntry_injective : Function.Injective countEntry := by
  intro m n h
  unfold countEntry at h
  split at h <;> split at h <;> simp_all

theorem foldl_count (l : List ε) :
    l.foldl (fun o _ => some (o.getD 0 + 1)) none = countEntry l.length := by
  rw [foldl_some_getD (fun (n : ℕ) (_ : ε) => n + 1), countEntry]
  simp only [List.foldl_add_const, Nat.one_mul, Nat.zero_add, List.length_eq_zero_iff]

/-- The number of groups depends only on which elements are in the same group. -/
theorem card_image_eq_of_iff {ι α β : Type*} [DecidableEq α] [DecidableEq β] {s : Finset ι}
    {f : ι → α} {g : ι → β} (h : ∀ i ∈ s, ∀ j ∈ s, f i = f j ↔ g i = g j) :
    (s.image f).card = (s.image g).card := by
  have hfst : ((s.image fun i => (f i, g i)).image Prod.fst).card =
      (s.image fun i => (f i, g i)).card := by
    refine Finset.card_image_of_injOn ?_
    intro a ha b hb hab
    obtain ⟨i, hi, rfl⟩ := Finset.mem_image.mp ha
    obtain ⟨j, hj, rfl⟩ := Finset.mem_image.mp hb
    exact Prod.ext hab ((h i hi j hj).mp hab)
  have hsnd : ((s.image fun i => (f i, g i)).image Prod.snd).card =
      (s.image fun i => (f i, g i)).card := by
    refine Finset.card_image_of_injOn ?_
    intro a ha b hb hab
    obtain ⟨i, hi, rfl⟩ := Finset.mem_image.mp ha
    obtain ⟨j, hj, rfl⟩ := Finset.mem_image.mp hb
    exact Prod.ext ((h i hi j hj).mpr hab) hab
  rw [Finset.image_image] at hfst hsnd
  exact hfst.trans hsnd.symm

/-- A list as an entry of a map that has no empty lists. -/
def listEntry (l : List ε) : Option (List ε) := if l = [] then none else some l

@[simp] theorem listEntry_nil : listEntry ([] : List ε) = none := rfl

@[simp] theorem listEntry_eq_none_iff {l : List ε} : listEntry l = none ↔ l = [] := by
  simp [listEntry]

theorem listEntry_of_ne_nil {l : List ε} (h : l ≠ []) : listEntry l = some l := if_neg h

theorem isSome_listEntry {l : List ε} : (listEntry l).isSome ↔ l ≠ [] := by
  rw [← Option.ne_none_iff_isSome, Ne, listEntry_eq_none_iff]

theorem rel_listEntry {l l' : List ε} (h : l.Perm l') :
    Option.Rel List.Perm (listEntry l) (listEntry l') := by
  by_cases hl : l = []
  · subst hl
    rw [List.nil_perm.mp h]
    exact .none
  · have hl' : l' ≠ [] := fun heq => hl (List.perm_nil.mp (heq ▸ h))
    rw [listEntry_of_ne_nil hl, listEntry_of_ne_nil hl']
    exact .some h

end Grouping

namespace OrdMap

open Grouping

variable {κ ν ε : Type*} [Ord κ] [TransOrd κ] [LawfulEqOrd κ] [DecidableEq κ]

/-- Append a value to the list under a key; a missing key has the empty list. -/
def push (m : OrdMap κ (List ν)) (k : κ) (v : ν) : OrdMap κ (List ν) :=
  m.insert k ((m[k]?).getD [] ++ [v])

theorem getElem?_push (m : OrdMap κ (List ν)) (k a : κ) (v : ν) :
    (m.push k v)[a]? = if k = a then some ((m[a]?).getD [] ++ [v]) else m[a]? := by
  rw [push, getElem?_insert]
  split
  · next hka => rw [hka]
  · rfl

/-- Append a list of values, each under its key, from left to right. -/
def pushAll (m : OrdMap κ (List ν)) (l : List (κ × ν)) : OrdMap κ (List ν) :=
  l.foldl (fun m e => m.push e.1 e.2) m

omit [LawfulEqOrd κ] [DecidableEq κ] in
theorem pushAll_append (m : OrdMap κ (List ν)) (l l' : List (κ × ν)) :
    pushAll m (l ++ l') = pushAll (pushAll m l) l' := List.foldl_append

/-- The values of a list of entries under one key. -/
def valuesAt (l : List (κ × ν)) (k : κ) : List ν :=
  (l.filter fun e => e.1 = k).map Prod.snd

omit [Ord κ] [TransOrd κ] [LawfulEqOrd κ] in
theorem valuesAt_map (l : List ε) (key : ε → κ) (val : ε → ν) (k : κ) :
    valuesAt (l.map fun e => (key e, val e)) k = (l.filter fun e => key e = k).map val := by
  rw [valuesAt, List.filter_map, List.map_map]
  rfl

omit [Ord κ] [TransOrd κ] [LawfulEqOrd κ] in
theorem valuesAt_append (l l' : List (κ × ν)) (k : κ) :
    valuesAt (l ++ l') k = valuesAt l k ++ valuesAt l' k := by
  rw [valuesAt, List.filter_append, List.map_append]
  rfl

omit [Ord κ] [TransOrd κ] [LawfulEqOrd κ] in
/-- The values listed for different keys one after the other. -/
theorem valuesAt_flatMap {ks : List κ} (hks : ks.Nodup) (vals : κ → List ν) (k : κ) :
    valuesAt (ks.flatMap fun a => (vals a).map fun v => (a, v)) k =
      if k ∈ ks then vals k else [] := by
  have hone : ∀ a, valuesAt ((vals a).map fun v => (a, v)) k = if a = k then vals k else [] := by
    intro a
    rw [valuesAt_map]
    split
    · next hak => simp [hak]
    · next hak => simp [hak]
  induction ks with
  | nil => rfl
  | cons a ks ih =>
      obtain ⟨ha, hks⟩ := List.nodup_cons.mp hks
      rw [List.flatMap_cons, valuesAt_append, hone, ih hks]
      by_cases hak : a = k
      · subst hak
        simp [ha]
      · simp [hak, Ne.symm hak]

theorem getElem?_pushAll_empty (l : List (κ × ν)) (k : κ) :
    (pushAll ∅ l)[k]? = listEntry (valuesAt l k) := by
  have hlook : ∀ (m : OrdMap κ (List ν)) (e : κ × ν), (m.push e.1 e.2)[k]? =
      if decide (e.1 = k) then some ((m[k]?).getD [] ++ [e.2]) else m[k]? := by
    intro m e
    simp only [getElem?_push, decide_eq_true_eq]
  rw [pushAll, foldl_look (fun m : OrdMap κ (List ν) => m[k]?) (fun e => decide (e.1 = k))
    (fun o e => some (o.getD [] ++ [e.2])) hlook, ExtTreeMap.getElem?_empty, valuesAt,
    foldl_some_getD (fun (vs : List ν) (e : κ × ν) => vs ++ [e.2]), listEntry]
  simp only [List.map_eq_nil_iff, List.foldl_append_eq_append, List.nil_append,
    ← List.flatMap_def, ← List.map_eq_flatMap]

end OrdMap
