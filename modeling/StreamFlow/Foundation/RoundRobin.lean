import Mathlib.Data.Int.CardIntervalMod
import Mathlib.Data.List.Nodup

/-!
# Dealing numbers in turn

The numbers below `n` are dealt to `k` players in turn: player `i` gets those with
remainder `i`. Every number goes to one player, and no player gets two more than
another.
-/

namespace RoundRobin

/-- The numbers below `n` that player `i` of `k` gets, in increasing order. -/
def deal (k n i : ℕ) : List ℕ := (List.range n).filter fun p => p % k = i

variable {k n i : ℕ}

@[simp] theorem deal_zero (k i : ℕ) : deal k 0 i = [] := rfl

theorem deal_succ (k n i : ℕ) :
    deal k (n + 1) i = if n % k = i then deal k n i ++ [n] else deal k n i := by
  rw [deal, List.range_succ, List.filter_append, List.filter_singleton]
  by_cases h : n % k = i
  · simp [h, deal]
  · simp [h, deal]

theorem mem_deal {p : ℕ} : p ∈ deal k n i ↔ p < n ∧ p % k = i := by
  rw [deal, List.mem_filter, List.mem_range, decide_eq_true_iff]

theorem pairwise_deal (k n i : ℕ) : (deal k n i).Pairwise (· < ·) :=
  List.pairwise_lt_range.filter _

/-- Everybody gets `n / k` numbers, and the first `n % k` players one more. -/
theorem length_deal (hi : i < k) : (deal k n i).length = n / k + if i < n % k then 1 else 0 := by
  have hcount : (deal k n i).length = n.count (· ≡ i [MOD k]) := by
    induction n with
    | zero => rfl
    | succ n ih =>
        have hmod : n ≡ i [MOD k] ↔ n % k = i := by
          rw [Nat.ModEq, Nat.mod_eq_of_lt hi]
        rw [Nat.count_succ, deal_succ, ← ih]
        by_cases h : n % k = i
        · simp [hmod, h]
        · simp [hmod, h]
  rw [hcount, Nat.count_modEq_card n (by omega), Nat.mod_eq_of_lt hi]

theorem length_deal_le {j : ℕ} (hi : i < k) (hj : j < k) :
    (deal k n i).length ≤ (deal k n j).length + 1 := by
  rw [length_deal hi, length_deal hj]
  split <;> split <;> omega

/-- A list is dealt out by a label of its elements. -/
theorem flatMap_filter_perm {α : Type*} (f : α → ℕ) (k : ℕ) (l : List α) (h : ∀ a ∈ l, f a < k) :
    ((List.range k).flatMap fun i => l.filter fun a => f a = i).Perm l := by
  induction k generalizing l with
  | zero =>
      cases l with
      | nil => exact List.Perm.refl _
      | cons a l => exact absurd (h a List.mem_cons_self) (Nat.not_lt_zero _)
  | succ k ih =>
      -- the elements of the last label are set aside
      have hrest : ∀ a ∈ l.filter fun a => !decide (f a = k), f a < k := by
        intro a ha
        obtain ⟨hmem, hne⟩ := List.mem_filter.mp ha
        have hlt := h a hmem
        have hne : f a ≠ k := by simpa using hne
        omega
      have hsame : ((List.range k).flatMap fun i => l.filter fun a => f a = i) =
          (List.range k).flatMap fun i =>
            (l.filter fun a => !decide (f a = k)).filter fun a => f a = i := by
        refine List.flatMap_congr fun i hi => ?_
        rw [List.filter_filter]
        refine List.filter_congr fun a _ => ?_
        have hlt := List.mem_range.mp hi
        by_cases hfa : f a = i
        · simp [hfa, hlt.ne]
        · simp [hfa]
      rw [List.range_succ, List.flatMap_append, List.flatMap_singleton, hsame]
      exact ((ih _ hrest).append_right _).trans
        (List.perm_append_comm.trans (List.filter_append_perm (fun a => decide (f a = k)) l))

/-- All players together get every number once. -/
theorem flatMap_deal_perm (hk : 0 < k) (n : ℕ) :
    ((List.range k).flatMap (deal k n)).Perm (List.range n) :=
  flatMap_filter_perm (· % k) k (List.range n) fun p _ => Nat.mod_lt p hk

/-- The numbers of a player are `k` apart. -/
theorem deal_eq_map (hi : i < k) (n : ℕ) :
    deal k n i = (List.range (deal k n i).length).map fun q => i + k * q := by
  induction n with
  | zero => rfl
  | succ n ih =>
      rw [deal_succ]
      split
      · next hn =>
          have hlast : n = i + k * (deal k n i).length := by
            rw [length_deal hi, hn, if_neg (lt_irrefl i), Nat.add_zero, ← hn, Nat.mod_add_div]
          rw [List.length_append, List.length_singleton, List.range_succ, List.map_append, ← ih,
            List.map_singleton, ← hlast]
      · exact ih

/-- The elements of a list that player `i` of `k` gets. -/
def hand {α : Type*} (k : ℕ) (l : List α) (i : ℕ) : List α :=
  (deal k l.length i).filterMap (l[·]?)

section Hand

variable {α : Type*}

theorem hand_concat (k : ℕ) (l : List α) (a : α) (i : ℕ) :
    hand k (l ++ [a]) i = if l.length % k = i then hand k l i ++ [a] else hand k l i := by
  have hold : (deal k l.length i).filterMap ((l ++ [a])[·]?) = hand k l i := by
    refine List.filterMap_congr fun p hp => ?_
    exact List.getElem?_append_left (mem_deal.mp hp).1
  rw [hand, List.length_append, List.length_singleton, deal_succ]
  split
  · rw [List.filterMap_append, hold]
    simp
  · exact hold

theorem map_some_filterMap_getElem? (l : List α) {places : List ℕ}
    (h : ∀ p ∈ places, p < l.length) :
    (places.filterMap (l[·]?)).map some = places.map (l[·]?) := by
  induction places with
  | nil => rfl
  | cons p places ih =>
      have hp := List.getElem?_eq_getElem (h p List.mem_cons_self)
      rw [List.filterMap_cons_some hp, List.map_cons, List.map_cons, hp,
        ih fun q hq => h q (List.mem_cons_of_mem p hq)]

/-- Player `i` gets the elements at the places `i`, `i + k`, `i + 2 * k` and so on. -/
theorem getElem?_hand (hi : i < k) (l : List α) (n : ℕ) :
    (hand k l i)[n]? = l[i + k * n]? := by
  have hsome : ((hand k l i)[n]?).map some = ((deal k l.length i)[n]?).map (l[·]?) := by
    rw [hand, ← List.getElem?_map, ← List.getElem?_map,
      map_some_filterMap_getElem? l fun p hp => (mem_deal.mp hp).1]
  rw [deal_eq_map hi, List.getElem?_map] at hsome
  by_cases hn : n < (deal k l.length i).length
  · rw [List.getElem?_range hn, Option.map_some, Option.map_some] at hsome
    obtain ⟨a, ha, hplace⟩ := Option.map_eq_some_iff.mp hsome
    rw [ha, hplace]
  · have hnone : (List.range (deal k l.length i).length)[n]? = none :=
      List.getElem?_eq_none (by rw [List.length_range]; exact not_lt.mp hn)
    rw [hnone] at hsome
    have hend : l.length ≤ i + k * n := by
      have hmul := Nat.mul_le_mul_left k (not_lt.mp hn)
      rw [length_deal hi, Nat.mul_add] at hmul
      have hdiv := Nat.mod_add_div l.length k
      have hmod := Nat.mod_lt l.length (Nat.zero_lt_of_lt hi)
      split at hmul <;> omega
    rw [List.getElem?_eq_none hend]
    exact Option.map_eq_none_iff.mp hsome

/-- All players together get every element once. -/
theorem flatMap_hand_perm (hk : 0 < k) (l : List α) :
    ((List.range k).flatMap (hand k l)).Perm l := by
  have hall : (List.range l.length).filterMap (l[·]?) = l := by
    apply List.map_injective_iff.mpr (Option.some_injective α)
    rw [map_some_filterMap_getElem? l fun p hp => List.mem_range.mp hp]
    apply List.ext_getElem
    · simp
    · intro p hp _
      simp
  have hperm := (flatMap_deal_perm hk l.length).filterMap (l[·]?)
  rwa [List.filterMap_flatMap, hall] at hperm

end Hand

end RoundRobin
