import Mathlib.Data.List.Sort
import Mathlib.Tactic.Linarith

/-!
# Finite maps with ordered keys

`OrdMap κ ν` is the extensional search tree of the standard library: two maps
with the same lookups are equal, and `toList` lists the entries by increasing
key. A program that ranges over a map in any order and then sorts the entries by
key computes exactly `toList`, which `insertionSort_map_toList` records. The other
lemmas say which list of entries a map has and which map a list of entries
builds.
-/

open Std

abbrev OrdMap (κ ν : Type*) [Ord κ] := ExtTreeMap κ ν compare

namespace OrdMap

variable {κ ν : Type*} [Ord κ] [TransOrd κ] [LawfulEqOrd κ]

theorem getElem?_insert [DecidableEq κ] (m : OrdMap κ ν) (k a : κ) (v : ν) :
    (m.insert k v)[a]? = if k = a then some v else m[a]? := by
  rw [ExtTreeMap.getElem?_insert]
  simp only [LawfulEqCmp.compare_eq_iff_eq]

omit [LawfulEqOrd κ] in
@[simp] theorem getElem?_insert_self' (m : OrdMap κ ν) (k : κ) (v : ν) :
    (m.insert k v)[k]? = some v := ExtTreeMap.getElem?_insert_self

theorem getElem?_insert_of_ne (m : OrdMap κ ν) {k a : κ} (v : ν) (h : k ≠ a) :
    (m.insert k v)[a]? = m[a]? := by
  rw [ExtTreeMap.getElem?_insert, if_neg]
  simpa only [LawfulEqCmp.compare_eq_iff_eq] using h

omit [LawfulEqOrd κ] in
theorem size_pos_iff {m : OrdMap κ ν} : 0 < m.size ↔ m ≠ ∅ := by
  rw [Nat.pos_iff_ne_zero, Ne, Ne, ExtTreeMap.eq_empty_iff_size_eq_zero]

/-- A value found after an insertion is the new one, or was there under another key. -/
theorem getElem?_insert_cases {m : OrdMap κ ν} {k a : κ} {v w : ν}
    (h : (m.insert k v)[a]? = some w) : k = a ∧ v = w ∨ k ≠ a ∧ m[a]? = some w := by
  by_cases hka : k = a
  · subst hka
    rw [getElem?_insert_self'] at h
    exact Or.inl ⟨rfl, Option.some.inj h⟩
  · rw [getElem?_insert_of_ne m v hka] at h
    exact Or.inr ⟨hka, h⟩

theorem isSome_getElem?_insert (m : OrdMap κ ν) (k a : κ) (v : ν) :
    ((m.insert k v)[a]?).isSome ↔ k = a ∨ (m[a]?).isSome := by
  classical
  rw [getElem?_insert]
  split
  · next hka => simp [hka]
  · next hka => simp [hka]

theorem insert_eq_self (m : OrdMap κ ν) {k : κ} {v : ν} (h : m[k]? = some v) :
    m.insert k v = m := by
  classical
  apply ExtTreeMap.ext_getElem?
  intro a
  rw [getElem?_insert]
  split
  · next hka => rw [← hka, h]
  · rfl

theorem insert_insert_self (m : OrdMap κ ν) (k : κ) (v v' : ν) :
    (m.insert k v).insert k v' = m.insert k v' := by
  classical
  apply ExtTreeMap.ext_getElem?
  intro a
  rw [getElem?_insert, getElem?_insert, getElem?_insert]
  split <;> rfl

theorem getElem?_erase [DecidableEq κ] (m : OrdMap κ ν) (k a : κ) :
    (m.erase k)[a]? = if k = a then none else m[a]? := by
  rw [ExtTreeMap.getElem?_erase]
  simp only [LawfulEqCmp.compare_eq_iff_eq]

theorem getElem?_of_getElem?_erase {m : OrdMap κ ν} {k a : κ} {v : ν}
    (h : (m.erase k)[a]? = some v) : k ≠ a ∧ m[a]? = some v := by
  classical
  rw [getElem?_erase] at h
  split at h
  · cases h
  · next hne => exact ⟨hne, h⟩

theorem erase_insert_self (m : OrdMap κ ν) {k : κ} (h : m[k]? = none) (v : ν) :
    (m.insert k v).erase k = m := by
  classical
  apply ExtTreeMap.ext_getElem?
  intro a
  rw [getElem?_erase, getElem?_insert]
  split
  · next heq => rw [← heq, h]
  · rfl

theorem mem_toList_iff (m : OrdMap κ ν) {k : κ} {v : ν} :
    (k, v) ∈ m.toList ↔ m[k]? = some v :=
  ExtTreeMap.mem_toList_iff_getElem?_eq_some

omit [LawfulEqOrd κ] in
theorem not_compare_self_lt (k : κ) : compare k k ≠ .lt :=
  fun h => OrientedCmp.not_lt_of_lt h h

/-- Entries in increasing order of their keys. -/
def Ascending (l : List (κ × ν)) : Prop :=
  l.Pairwise fun a b => compare a.1 b.1 = .lt

omit [LawfulEqOrd κ] in
theorem ascending_toList (m : OrdMap κ ν) : Ascending m.toList :=
  ExtTreeMap.ordered_keys_toList

omit [LawfulEqOrd κ] in
theorem Ascending.nodup {l : List (κ × ν)} (h : Ascending l) : l.Nodup := by
  refine List.Pairwise.imp ?_ h
  rintro a _ hlt rfl
  exact not_compare_self_lt _ hlt

omit [LawfulEqOrd κ] in
/-- Ascending lists with the same entries are equal. -/
theorem Ascending.ext {l l' : List (κ × ν)} (hl : Ascending l) (hl' : Ascending l')
    (h : ∀ e, e ∈ l ↔ e ∈ l') : l = l' := by
  have hperm : l.Perm l' := (List.perm_ext_iff_of_nodup hl.nodup hl'.nodup).mpr h
  refine hperm.eq_of_pairwise ?_ hl hl'
  intro a b _ _ hab hba
  exact absurd hba (OrientedCmp.not_lt_of_lt hab)

omit [LawfulEqOrd κ] in
theorem ascending_filter_toList (m : OrdMap κ ν) (p : κ × ν → Bool) :
    Ascending (m.toList.filter p) :=
  (ascending_toList m).sublist List.filter_sublist

theorem mem_filter_toList_iff (m : OrdMap κ ν) {p : κ × ν → Bool} {e : κ × ν} :
    e ∈ m.toList.filter p ↔ m[e.1]? = some e.2 ∧ p e = true := by
  rw [List.mem_filter, ← mem_toList_iff]

/-- An ascending list with the entries of a map is the list of its entries. -/
theorem toList_eq_of_ascending (m : OrdMap κ ν) {l : List (κ × ν)} (hl : Ascending l)
    (h : ∀ k v, (k, v) ∈ l ↔ m[k]? = some v) : m.toList = l := by
  refine (ascending_toList m).ext hl ?_
  rintro ⟨k, v⟩
  rw [mem_toList_iff, h]

/-- Maps that agree on the keys with a property list them alike. -/
theorem filter_toList_congr {m m' : OrdMap κ ν} {p : κ → Bool}
    (h : ∀ k, p k = true → m[k]? = m'[k]?) :
    (m.toList.filter fun e => p e.1) = m'.toList.filter fun e => p e.1 := by
  refine (ascending_filter_toList m _).ext (ascending_filter_toList m' _) fun e => ?_
  rw [mem_filter_toList_iff, mem_filter_toList_iff]
  constructor
  · rintro ⟨he, hp⟩
    exact ⟨(h e.1 hp).symm.trans he, hp⟩
  · rintro ⟨he, hp⟩
    exact ⟨(h e.1 hp).trans he, hp⟩

/-- A key has at most one entry. -/
theorem filter_toList_key [DecidableEq κ] (m : OrdMap κ ν) (k : κ) :
    (m.toList.filter fun e => decide (e.1 = k)) = ((m[k]?).map fun v => (k, v)).toList := by
  refine (ascending_filter_toList m _).ext ?_ fun e => ?_
  · cases m[k]? with
    | none => exact .nil
    | some v => exact List.pairwise_singleton _ _
  · obtain ⟨a, v⟩ := e
    rw [mem_filter_toList_iff, Option.mem_toList, Option.map_eq_some_iff, decide_eq_true_eq]
    constructor
    · rintro ⟨hget, rfl⟩
      exact ⟨v, hget, rfl⟩
    · rintro ⟨v', hget, heq⟩
      obtain ⟨rfl, rfl⟩ := Prod.mk.inj heq
      exact ⟨hget, rfl⟩

/-- A key above all others with a property comes last in the list of these. -/
theorem filter_toList_insert (m : OrdMap κ ν) {p : κ → Bool} {k : κ} (v : ν) (hk : p k = true)
    (h : ∀ e ∈ m.toList, p e.1 = true → e.1 ≠ k → compare e.1 k = .lt) :
    ((m.insert k v).toList.filter fun e => p e.1) =
      ((m.erase k).toList.filter fun e => p e.1) ++ [(k, v)] := by
  classical
  have hother : ∀ e ∈ (m.erase k).toList.filter fun e => p e.1, compare e.1 k = .lt := by
    intro e he
    obtain ⟨hget, hp⟩ := (mem_filter_toList_iff _).mp he
    obtain ⟨hne, hget⟩ := getElem?_of_getElem?_erase hget
    exact h e ((mem_toList_iff m).mpr hget) hp (Ne.symm hne)
  refine (ascending_filter_toList _ _).ext ?_ ?_
  · refine List.pairwise_append.mpr ⟨ascending_filter_toList _ _, List.pairwise_singleton _ _, ?_⟩
    intro e he e' he'
    rw [List.mem_singleton.mp he']
    exact hother e he
  · rintro ⟨a, w⟩
    rw [List.mem_append, mem_filter_toList_iff, mem_filter_toList_iff, List.mem_singleton,
      getElem?_insert, getElem?_erase, Prod.mk.injEq]
    dsimp only
    by_cases hka : k = a
    · subst hka
      simp [hk, eq_comm]
    · simp [hka, Ne.symm hka]

omit [LawfulEqOrd κ] in
/-- The last of ascending entries is the greatest. -/
theorem Ascending.getLast?_eq_some_iff {l : List (κ × ν)} (hl : Ascending l) {e : κ × ν} :
    l.getLast? = some e ↔ e ∈ l ∧ ∀ e' ∈ l, e' ≠ e → compare e'.1 e.1 = .lt := by
  have hlast : ∀ e, l.getLast? = some e → e ∈ l ∧ ∀ e' ∈ l, e' ≠ e → compare e'.1 e.1 = .lt := by
    intro e he
    obtain ⟨l', rfl⟩ := List.getLast?_eq_some_iff.mp he
    refine ⟨by simp, fun e' he' hne => ?_⟩
    rcases List.mem_append.mp he' with hmem | hmem
    · exact (List.pairwise_append.mp hl).2.2 e' hmem e (by simp)
    · exact absurd (List.mem_singleton.mp hmem) hne
  refine ⟨hlast e, fun ⟨hmem, hall⟩ => ?_⟩
  cases hlast' : l.getLast? with
  | none =>
      rw [List.getLast?_eq_none_iff.mp hlast'] at hmem
      cases hmem
  | some e₂ =>
      obtain ⟨hmem₂, hall₂⟩ := hlast e₂ hlast'
      by_contra hne
      have hne : e₂ ≠ e := fun heq => hne (by rw [heq])
      exact OrientedCmp.not_lt_of_lt (hall e₂ hmem₂ hne) (hall₂ e hmem (Ne.symm hne))

/-- The entry with the greatest key among those with a property. -/
def lastWith (m : OrdMap κ ν) (p : κ → Bool) : Option (κ × ν) :=
  (m.toList.filter fun e => p e.1).getLast?

theorem lastWith_eq_some_iff {m : OrdMap κ ν} {p : κ → Bool} {e : κ × ν} :
    m.lastWith p = some e ↔ (m[e.1]? = some e.2 ∧ p e.1 = true) ∧
      ∀ e' : κ × ν, m[e'.1]? = some e'.2 → p e'.1 = true → e' ≠ e → compare e'.1 e.1 = .lt := by
  rw [lastWith, (ascending_filter_toList m _).getLast?_eq_some_iff, mem_filter_toList_iff]
  simp only [mem_filter_toList_iff, and_imp]

theorem lastWith_eq_none_iff {m : OrdMap κ ν} {p : κ → Bool} :
    m.lastWith p = none ↔ ∀ e : κ × ν, m[e.1]? = some e.2 → p e.1 = false := by
  rw [lastWith, List.getLast?_eq_none_iff, List.filter_eq_nil_iff]
  constructor
  · intro h e he
    exact Bool.eq_false_iff.mpr (h e ((mem_toList_iff m).mpr he))
  · intro h e he
    rw [h e ((mem_toList_iff m).mp he)]
    exact Bool.false_ne_true

theorem lastWith_insert_of_lt {m : OrdMap κ ν} {p : κ → Bool} {k : κ} {e : κ × ν}
    (he : m.lastWith p = some e) (hlt : compare k e.1 = .lt) (v : ν) :
    lastWith (m.insert k v) p = some e := by
  have hke : k ≠ e.1 := fun heq => not_compare_self_lt k (by rwa [← heq] at hlt)
  obtain ⟨⟨hget, hp⟩, hall⟩ := lastWith_eq_some_iff.mp he
  refine lastWith_eq_some_iff.mpr ⟨⟨by rw [getElem?_insert_of_ne m v hke, hget], hp⟩, ?_⟩
  intro e' hget' hp' hne
  rcases getElem?_insert_cases hget' with ⟨hk, -⟩ | ⟨-, hget'⟩
  · rwa [← hk]
  · exact hall e' hget' hp' hne

theorem lastWith_insert_of_false (m : OrdMap κ ν) {p : κ → Bool} {k : κ} (hk : p k = false)
    (v : ν) : lastWith (m.insert k v) p = m.lastWith p := by
  refine congrArg List.getLast? (filter_toList_congr fun k' hk' => getElem?_insert_of_ne m v ?_)
  rintro rfl
  rw [hk] at hk'
  cases hk'

theorem lastWith_insert_of_not_lt {m : OrdMap κ ν} {p : κ → Bool} {k : κ} (hk : p k = true)
    (h : ∀ e, m.lastWith p = some e → compare k e.1 ≠ .lt) (v : ν) :
    lastWith (m.insert k v) p = some (k, v) := by
  refine lastWith_eq_some_iff.mpr ⟨⟨getElem?_insert_self' m k v, hk⟩, ?_⟩
  intro e' hget' hp' hne
  rcases getElem?_insert_cases hget' with ⟨hkey, hval⟩ | ⟨hkey, hget'⟩
  · exact absurd (Prod.ext hkey.symm hval.symm) hne
  · -- the greatest entry so far is not above the key, and this one is not above that entry
    cases hlast : m.lastWith p with
    | none =>
        rw [lastWith_eq_none_iff.mp hlast e' hget'] at hp'
        cases hp'
    | some e =>
        have hle : compare e.1 k ≠ .gt := fun hgt => h e hlast (OrientedCmp.lt_of_gt hgt)
        by_cases heq : e' = e
        · subst heq
          cases hcmp : compare e'.1 k with
          | lt => rfl
          | eq => exact absurd (LawfulEqCmp.eq_of_compare hcmp).symm hkey
          | gt => exact absurd hcmp hle
        · have hlt := (lastWith_eq_some_iff.mp hlast).2 e' hget' hp' heq
          exact TransCmp.lt_of_lt_of_isLE hlt (Ordering.isLE_iff_ne_gt.mpr hle)

/-- Inserting a key above all others adds its entry at the end. -/
theorem toList_insert_of_forall_lt (m : OrdMap κ ν) {k : κ} (v : ν)
    (h : ∀ e ∈ m.toList, compare e.1 k = .lt) :
    (m.insert k v).toList = m.toList ++ [(k, v)] := by
  classical
  refine toList_eq_of_ascending _ ?_ ?_
  · unfold Ascending
    rw [List.pairwise_append]
    refine ⟨ascending_toList m, List.pairwise_singleton _ _, ?_⟩
    intro e he e' he'
    obtain rfl := List.mem_singleton.mp he'
    exact h e he
  · intro a w
    rw [List.mem_append, mem_toList_iff, List.mem_singleton, getElem?_insert]
    by_cases hka : k = a
    · subst hka
      have hnone : m[k]? = none := by
        cases hm : m[k]? with
        | none => rfl
        | some u =>
            have hlt := h (k, u) ((mem_toList_iff m).mpr hm)
            exact absurd hlt (not_compare_self_lt k)
      simp [hnone, eq_comm]
    · simp [hka, Ne.symm hka]

theorem getElem?_foldl_erase [DecidableEq κ] (m : OrdMap κ ν) (l : List κ) (a : κ) :
    (l.foldl (fun m k => m.erase k) m)[a]? = if a ∈ l then none else m[a]? := by
  induction l generalizing m with
  | nil => simp
  | cons k l ih =>
      rw [List.foldl_cons, ih, getElem?_erase]
      by_cases hl : a ∈ l
      · simp [hl]
      · by_cases hk : k = a
        · simp [hk]
        · simp [hl, hk, Ne.symm hk]

omit [LawfulEqOrd κ] in
/-- Ranging over a map in key order and then sorting what was made of the
entries by a key that orders them the same way changes nothing. -/
theorem insertionSort_map_toList {ε : Type*} (m : OrdMap κ ν) (f : κ × ν → ε)
    (le : ε → ε → Prop) [DecidableRel le]
    (h : ∀ a b : κ × ν, compare a.1 b.1 = .lt → le (f a) (f b)) :
    (m.toList.map f).insertionSort le = m.toList.map f := by
  apply List.Pairwise.insertionSort_eq
  rw [List.pairwise_map]
  exact (ascending_toList m).imp fun hlt => h _ _ hlt

/-- Insert a list of entries from left to right. -/
def insertAll (m : OrdMap κ ν) (l : List (κ × ν)) : OrdMap κ ν :=
  l.foldl (fun m e => m.insert e.1 e.2) m

omit [LawfulEqOrd κ] in
theorem insertAll_cons (m : OrdMap κ ν) (e : κ × ν) (l : List (κ × ν)) :
    insertAll m (e :: l) = insertAll (m.insert e.1 e.2) l := rfl

theorem getElem?_insertAll_of_forall_ne (m : OrdMap κ ν) {l : List (κ × ν)} {k : κ}
    (h : ∀ e ∈ l, e.1 ≠ k) : (insertAll m l)[k]? = m[k]? := by
  induction l generalizing m with
  | nil => rfl
  | cons e l ih =>
      rw [insertAll_cons, ih _ fun e' he' => h e' (List.mem_cons_of_mem _ he'),
        getElem?_insert_of_ne _ _ (h e List.mem_cons_self)]

theorem getElem?_insertAll_of_nodup (m : OrdMap κ ν) {l : List (κ × ν)}
    (hl : (l.map Prod.fst).Nodup) {k : κ} {v : ν} (h : (k, v) ∈ l) :
    (insertAll m l)[k]? = some v := by
  induction l generalizing m with
  | nil => cases h
  | cons e l ih =>
      obtain ⟨hhead, htail⟩ := List.nodup_cons.mp hl
      rw [insertAll_cons]
      rcases List.mem_cons.mp h with rfl | hmem
      · rw [getElem?_insertAll_of_forall_ne, getElem?_insert_self']
        intro e' he' heq
        exact hhead (List.mem_map.mpr ⟨e', he', heq⟩)
      · exact ih _ htail hmem

theorem isSome_getElem?_insertAll (m : OrdMap κ ν) (l : List (κ × ν)) (k : κ) :
    ((insertAll m l)[k]?).isSome ↔ (∃ v, (k, v) ∈ l) ∨ (m[k]?).isSome := by
  induction l generalizing m with
  | nil => simp [insertAll]
  | cons e l ih =>
      rw [insertAll_cons, ih, isSome_getElem?_insert, ← or_assoc]
      refine or_congr_left ⟨?_, ?_⟩
      · rintro (⟨v, hv⟩ | rfl)
        · exact ⟨v, List.mem_cons_of_mem e hv⟩
        · exact ⟨e.2, List.mem_cons_self⟩
      · rintro ⟨v, hv⟩
        rcases List.mem_cons.mp hv with rfl | hv
        · exact Or.inr rfl
        · exact Or.inl ⟨v, hv⟩

/-- The map built from entries with different keys has these entries. -/
theorem getElem?_insertAll_empty_iff {l : List (κ × ν)} (hl : (l.map Prod.fst).Nodup) {k : κ}
    {v : ν} : (insertAll (∅ : OrdMap κ ν) l)[k]? = some v ↔ (k, v) ∈ l := by
  refine ⟨fun hget => ?_, getElem?_insertAll_of_nodup ∅ hl⟩
  rcases (isSome_getElem?_insertAll ∅ l k).mp (Option.isSome_of_eq_some hget) with ⟨w, hw⟩ | hempty
  · rw [getElem?_insertAll_of_nodup ∅ hl hw] at hget
    rwa [← Option.some.inj hget]
  · rw [ExtTreeMap.getElem?_empty] at hempty
    cases hempty

omit [LawfulEqOrd κ] in
theorem Ascending.nodup_keys {l : List (κ × ν)} (h : Ascending l) : (l.map Prod.fst).Nodup := by
  rw [List.Nodup, List.pairwise_map]
  refine h.imp fun {a b} hlt heq => ?_
  rw [heq] at hlt
  exact not_compare_self_lt _ hlt

theorem getElem?_insertAll_of_mem (m : OrdMap κ ν) {l : List (κ × ν)} (hl : Ascending l)
    {k : κ} {v : ν} (h : (k, v) ∈ l) : (insertAll m l)[k]? = some v :=
  getElem?_insertAll_of_nodup m hl.nodup_keys h

/-- Inserting the entries of a map under new names. -/
theorem getElem?_insertAll_rename {κ' : Type*} [Ord κ'] [TransOrd κ'] [LawfulEqOrd κ']
    {f : κ' → κ} (hf : Function.Injective f) (m : OrdMap κ ν) (m' : OrdMap κ' ν) (k : κ') :
    (insertAll m (m'.toList.map fun e => (f e.1, e.2)))[f k]? = (m'[k]?).or m[f k]? := by
  cases hk : m'[k]? with
  | some v =>
      rw [Option.some_or]
      apply getElem?_insertAll_of_nodup
      · rw [List.map_map]
        have hnodup := (ascending_toList m').nodup_keys.map hf
        rwa [List.map_map] at hnodup
      · exact List.mem_map.mpr ⟨(k, v), (mem_toList_iff m').mpr hk, rfl⟩
  | none =>
      rw [Option.none_or]
      apply getElem?_insertAll_of_forall_ne
      intro e he heq
      obtain ⟨⟨k', v⟩, hmem, rfl⟩ := List.mem_map.mp he
      obtain rfl := hf heq
      rw [mem_toList_iff, hk] at hmem
      cases hmem

/-- Inserting what is made of the entries of a map, each under its own key. -/
theorem getElem?_insertAll_filterMap {ν' : Type*} (m : OrdMap κ ν) (m' : OrdMap κ ν')
    (f : κ → ν' → Option ν) (k : κ) :
    (insertAll m (m'.toList.filterMap fun e => (f e.1 e.2).map fun v => (e.1, v)))[k]? =
      ((m'[k]?).bind (f k)).or m[k]? := by
  have hmem : ∀ a v, (a, v) ∈ (m'.toList.filterMap fun e => (f e.1 e.2).map fun v => (e.1, v)) ↔
      (m'[a]?).bind (f a) = some v := by
    intro a v
    rw [List.mem_filterMap, Option.bind_eq_some_iff]
    constructor
    · rintro ⟨⟨b, w⟩, hbw, hv⟩
      obtain ⟨v', hv', heq⟩ := Option.map_eq_some_iff.mp hv
      obtain ⟨rfl, rfl⟩ := Prod.mk.injEq .. ▸ heq
      exact ⟨w, (mem_toList_iff m').mp hbw, hv'⟩
    · rintro ⟨w, hw, hv⟩
      exact ⟨(a, w), (mem_toList_iff m').mpr hw, by rw [hv, Option.map_some]⟩
  cases hk : (m'[k]?).bind (f k) with
  | some v =>
      refine getElem?_insertAll_of_mem m ?_ ((hmem k v).mpr hk)
      refine (ascending_toList m').filterMap _ ?_
      rintro ⟨a, w⟩ ⟨b, w'⟩ hlt e he e' he'
      obtain ⟨_, -, rfl⟩ := Option.map_eq_some_iff.mp he
      obtain ⟨_, -, rfl⟩ := Option.map_eq_some_iff.mp he'
      exact hlt
  | none =>
      rw [Option.none_or]
      refine getElem?_insertAll_of_forall_ne m ?_
      rintro ⟨a, v⟩ he rfl
      rw [(hmem a v).mp he] at hk
      cases hk

theorem getElem?_insertAll_map {ν' : Type*} (m : OrdMap κ ν) (m' : OrdMap κ ν') (f : κ → ν' → ν)
    (k : κ) : (insertAll m (m'.toList.map fun e => (e.1, f e.1 e.2)))[k]? =
      ((m'[k]?).map (f k)).or m[k]? := by
  have hlist : (m'.toList.map fun e => (e.1, f e.1 e.2)) =
      m'.toList.filterMap fun e => (some (f e.1 e.2)).map fun v => (e.1, v) := by
    rw [← List.filterMap_eq_map]
    rfl
  rw [hlist, getElem?_insertAll_filterMap m m' fun k v => some (f k v)]
  cases m'[k]? <;> rfl

theorem getElem?_insertAll_filter_map {ν' : Type*} (m : OrdMap κ ν) (m' : OrdMap κ ν')
    (p : κ → Bool) (f : ν' → ν) (k : κ) :
    (insertAll m ((m'.toList.filter fun e => p e.1).map fun e => (e.1, f e.2)))[k]? =
      (if p k then (m'[k]?).map f else none).or m[k]? := by
  have hlist : ((m'.toList.filter fun e => p e.1).map fun e => (e.1, f e.2)) =
      m'.toList.filterMap fun e =>
        (if p e.1 then some (f e.2) else none).map fun v => (e.1, v) := by
    induction m'.toList with
    | nil => rfl
    | cons e l ih => cases hp : p e.1 <;> simp [hp, ih]
  rw [hlist, getElem?_insertAll_filterMap m m' fun k v => if p k then some (f v) else none]
  cases m'[k]? <;> cases p k <;> rfl

/-- The map built from an ascending list of entries has these entries. -/
theorem toList_insertAll_empty {l : List (κ × ν)} (hl : Ascending l) :
    (insertAll (∅ : OrdMap κ ν) l).toList = l := by
  refine toList_eq_of_ascending _ hl ?_
  intro k v
  constructor
  · exact getElem?_insertAll_of_mem ∅ hl
  · intro hget
    by_contra hmem
    have hne : ∀ e ∈ l, e.1 ≠ k := by
      rintro ⟨k', v'⟩ he rfl
      rw [getElem?_insertAll_of_mem ∅ hl he] at hget
      obtain rfl := Option.some.inj hget
      exact hmem he
    rw [getElem?_insertAll_of_forall_ne ∅ hne, ExtTreeMap.getElem?_empty] at hget
    cases hget

/-- Inserting the entries of a map into the empty one gives the map back. -/
theorem insertAll_empty_toList (m : OrdMap κ ν) : insertAll ∅ m.toList = m := by
  apply ExtTreeMap.ext_getElem?
  intro k
  apply Option.ext
  intro v
  rw [← mem_toList_iff, ← mem_toList_iff, toList_insertAll_empty (ascending_toList m)]

end OrdMap
