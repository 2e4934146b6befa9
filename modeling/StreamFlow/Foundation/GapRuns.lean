import Mathlib.Data.List.SplitBy
import Mathlib.Order.Lattice

/-!
# Runs without a gap

Elements have keys in a linear order, and some keys are far apart. A list of runs is one of
`GapRuns` when the runs joined are in order of the keys, no two neighbours in a run are far apart,
and the last element of a run and the first of the next are. `splitBy` computes such runs from a
sorted list. They are determined by the elements up to the order of those with the same key
(`GapRuns.forall₂_perm`), whatever order these were sorted in.
-/

variable {α κ : Type*} [LinearOrder κ] {key : α → κ} {far : κ → κ → Bool}

structure GapRuns (key : α → κ) (far : κ → κ → Bool) (runs : List (List α)) : Prop where
  ne_nil : ∀ s ∈ runs, s ≠ []
  sorted : runs.flatten.Pairwise fun a b => key a ≤ key b
  near : ∀ s ∈ runs, s.IsChain fun a b => far (key a) (key b) = false
  apart : runs.IsChain fun s t => ∃ hs ht, far (key (s.getLast hs)) (key (t.head ht)) = true

/-- The runs of a sorted list. -/
theorem gapRuns_splitBy {l : List α} (h : l.Pairwise fun a b => key a ≤ key b) :
    GapRuns key far (l.splitBy fun a b => !far (key a) (key b)) where
  ne_nil _ hs := List.ne_nil_of_mem_splitBy hs
  sorted := by rwa [List.flatten_splitBy]
  near s hs := by simpa using List.isChain_of_mem_splitBy hs
  apart := by
    refine (List.isChain_getLast_head_splitBy _ l).imp ?_
    rintro s t ⟨hs, ht, hfar⟩
    exact ⟨hs, ht, by simpa using hfar⟩

namespace GapRuns

variable {runs runs' : List (List α)} {s : List α}

theorem tail (h : GapRuns key far (s :: runs)) : GapRuns key far runs where
  ne_nil t ht := h.ne_nil t (List.mem_cons_of_mem s ht)
  sorted := (List.pairwise_append.mp h.sorted).2.1
  near t ht := h.near t (List.mem_cons_of_mem s ht)
  apart := h.apart.tail

/-- The keys of the first run are below those of the others. -/
theorem lt_of_mem (hfar : ∀ a b, far a b = true → a < b) (h : GapRuns key far (s :: runs))
    {a b : α} (ha : a ∈ s) (hb : b ∈ runs.flatten) : key a < key b := by
  obtain ⟨hsorted, hrest, -⟩ := List.pairwise_append.mp h.sorted
  cases runs with
  | nil => cases hb
  | cons t runs =>
      obtain ⟨hs, ht, hgap⟩ := (List.isChain_cons_cons.mp h.apart).1
      have hlast : key a ≤ key (s.getLast hs) :=
        hsorted.rel_getLast_of_rel_getLast_getLast ha le_rfl
      have hhead : key (t.head ht) ≤ key b := by
        rw [List.flatten_cons] at hrest hb
        have hle := hrest.rel_head_of_rel_head_head hb le_rfl
        rwa [List.head_append_of_ne_nil ht] at hle
      exact (hlast.trans_lt (hfar _ _ hgap)).trans_le hhead

/-- The keys of the runs are the runs of the keys. -/
theorem map_map_key (h : GapRuns key far runs) :
    runs.map (List.map key) = (runs.flatten.map key).splitBy fun a b => !far a b := by
  symm
  rw [List.splitBy_eq_iff]
  refine ⟨List.map_flatten, ?_, ?_, ?_⟩
  · intro hmem
    obtain ⟨t, ht, hnil⟩ := List.mem_map.mp hmem
    exact h.ne_nil t ht (List.map_eq_nil_iff.mp hnil)
  · intro t' ht'
    obtain ⟨t, ht, rfl⟩ := List.mem_map.mp ht'
    rw [List.isChain_map]
    simpa using h.near t ht
  · rw [List.isChain_map]
    refine h.apart.imp ?_
    rintro s t ⟨hs, ht, hgap⟩
    refine ⟨by simpa using hs, by simpa using ht, ?_⟩
    rw [List.getLast_map, List.head_map, hgap]
    rfl

/-- The elements of the first run are those with one of its keys. -/
theorem filter_flatten (hfar : ∀ a b, far a b = true → a < b) (h : GapRuns key far (s :: runs)) :
    (s ++ runs.flatten).filter (fun a => key a ∈ s.map key) = s ∧
      (s ++ runs.flatten).filter (fun a => key a ∉ s.map key) = runs.flatten := by
  have hin : ∀ a ∈ s, key a ∈ s.map key := fun a ha => List.mem_map_of_mem ha
  have hout : ∀ b ∈ runs.flatten, key b ∉ s.map key := by
    intro b hb hmem
    obtain ⟨a, ha, heq⟩ := List.mem_map.mp hmem
    exact (h.lt_of_mem hfar ha hb).ne heq
  constructor
  · rw [List.filter_append, List.filter_eq_self.mpr, List.filter_eq_nil_iff.mpr, List.append_nil]
    · simpa using hout
    · simpa using hin
  · rw [List.filter_append, List.filter_eq_nil_iff.mpr, List.filter_eq_self.mpr, List.nil_append]
    · simpa using hout
    · simpa using hin

/-- Runs of the same elements agree pairwise up to the order in a run. -/
theorem forall₂_perm (hfar : ∀ a b, far a b = true → a < b) (h : GapRuns key far runs)
    (h' : GapRuns key far runs') (hperm : runs.flatten.Perm runs'.flatten) :
    List.Forall₂ List.Perm runs runs' := by
  have hkeys : runs.flatten.map key = runs'.flatten.map key := by
    refine (hperm.map key).eq_of_pairwise (fun a b _ _ => le_antisymm) ?_ ?_
    · exact List.pairwise_map.mpr h.sorted
    · exact List.pairwise_map.mpr h'.sorted
  have hruns : runs.map (List.map key) = runs'.map (List.map key) := by
    rw [h.map_map_key, h'.map_map_key, hkeys]
  clear hkeys
  induction runs generalizing runs' with
  | nil =>
      rw [List.map_nil, eq_comm, List.map_eq_nil_iff] at hruns
      rw [hruns]
      exact .nil
  | cons s runs ih =>
      cases runs' with
      | nil => cases hruns
      | cons t runs' =>
          rw [List.map_cons, List.map_cons, List.cons.injEq] at hruns
          obtain ⟨hs, hsrest⟩ := h.filter_flatten hfar
          obtain ⟨ht, htrest⟩ := h'.filter_flatten hfar
          rw [← hruns.1] at ht htrest
          refine .cons ?_ (ih h.tail h'.tail ?_ hruns.2)
          · rw [← hs, ← ht]
            exact hperm.filter _
          · rw [← hsrest, ← htrest]
            exact hperm.filter _

end GapRuns
