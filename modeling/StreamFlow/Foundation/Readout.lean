import Mathlib.Data.List.Basic
import Mathlib.Order.Lattice

/-!
# Reading a list at rising positions

A reader asks for the element at one position after the other, beginning anywhere. A position before
the list is taken for its first one, so a reader that begins there gets the first element more than
once; one that begins within the list gets a block of it.
-/

namespace Readout

variable {α : Type*} {l : List α} {o : ℤ} {m n : ℕ}

/-- What is found at `n` positions from `o` on. -/
def reads (l : List α) (o : ℤ) (n : ℕ) : List α :=
  (List.range n).filterMap fun k : ℕ => l[(o + k).toNat]?

theorem reads_succ : reads l o (n + 1) = reads l o n ++ (l[(o + n).toNat]?).toList := by
  rw [reads, List.range_succ, List.filterMap_append, ← reads]
  cases h : l[(o + n).toNat]? <;> simp [h]

theorem length_reads_le : (reads l o n).length ≤ n :=
  (List.length_filterMap_le _ _).trans_eq List.length_range

/-- After the end nothing more is found. -/
theorem reads_eq_of_le (h : l[(o + m).toNat]? = none) (hmn : m ≤ n) :
    reads l o n = reads l o m := by
  obtain ⟨d, rfl⟩ := Nat.exists_eq_add_of_le hmn
  induction d with
  | zero => rfl
  | succ d ih =>
      have hnone : l[(o + (m + d : ℕ)).toNat]? = none := by
        rw [List.getElem?_eq_none_iff] at h ⊢
        omega
      rw [← Nat.add_assoc, reads_succ, ih (Nat.le_add_right m d), hnone, Option.toList_none,
        List.append_nil]

theorem getElem?_reads (k : ℕ) :
    (reads l o n)[k]? = if k < n then l[(o + k).toNat]? else none := by
  induction n generalizing k with
  | zero => simp [reads]
  | succ n ih =>
      rw [reads_succ]
      cases h : l[(o + n).toNat]? with
      | none =>
          rw [Option.toList_none, List.append_nil, ih]
          by_cases hk : k = n
          · rw [hk, if_neg (Nat.lt_irrefl n), if_pos (Nat.lt_succ_self n), h]
          · have hiff : k < n ↔ k < n + 1 := by omega
            rw [if_congr hiff rfl rfl]
      | some x =>
          -- the positions before have elements as well
          have hlength : (reads l o n).length = n := by
            by_contra hne
            have hlt : (reads l o n).length < n := lt_of_le_of_ne length_reads_le hne
            have hnone := ih (reads l o n).length
            rw [if_pos hlt, List.getElem?_eq_none_iff.mpr le_rfl, eq_comm,
              List.getElem?_eq_none_iff] at hnone
            obtain ⟨hbound, -⟩ := List.getElem?_eq_some_iff.mp h
            omega
          rw [Option.toList_some, List.getElem?_append, hlength, ih]
          by_cases hk : k < n
          · rw [if_pos hk, if_pos hk, if_pos (Nat.lt_succ_of_lt hk)]
          · rw [if_neg hk]
            by_cases hkn : k = n
            · rw [hkn, Nat.sub_self, if_pos (Nat.lt_succ_self n), h]
              rfl
            · rw [if_neg (by omega), List.getElem?_eq_none_iff, List.length_singleton]
              omega

/-- A reader that begins within the list gets a block of it. -/
theorem reads_of_nonneg (ho : 0 ≤ o) : reads l o n = (l.drop o.toNat).take n := by
  refine List.ext_getElem? fun k => ?_
  have hk : (o + k).toNat = o.toNat + k := by omega
  rw [getElem?_reads, List.getElem?_take, List.getElem?_drop, hk]

theorem map_reads {β : Type*} (f : α → β) : (reads l o n).map f = reads (l.map f) o n := by
  rw [reads, List.map_filterMap, reads]
  simp only [List.getElem?_map]

end Readout
