import Mathlib.Data.List.Basic
import Mathlib.Data.Nat.Find

/-!
# Prefixes of a pattern at the end of a text

A matcher that reads a text symbol by symbol remembers how much of a pattern stands
at the end of what it has read. `Longest p w k` says that `k` is the greatest such
length short of the whole pattern. What the next symbol does to it is found from the
pattern alone: if the symbol does not continue the pattern, a shorter prefix may
still do, unless the pattern is `SelfExtending`. In such a pattern, wherever the first
symbol comes again, the pattern begins again up to its end.
-/

namespace Overlap

variable {α : Type*} {p w : List α} {a : α} {k : ℕ}

/-- Every suffix that begins with the first symbol is a prefix. -/
def SelfExtending (p : List α) : Prop := ∀ i < p.length, p[i]? = p[0]? → p.drop i <+: p

instance [DecidableEq α] (p : List α) : Decidable (SelfExtending p) :=
  inferInstanceAs (Decidable (∀ i < p.length, p[i]? = p[0]? → p.drop i <+: p))

/-- The greatest length, short of the whole pattern, of a prefix at the end of a text. -/
structure Longest (p w : List α) (k : ℕ) : Prop where
  lt_length : k < p.length
  suffix : p.take k <:+ w
  le : ∀ j < p.length, p.take j <:+ w → j ≤ k

theorem take_suffix_concat_iff (hk : k < p.length) :
    p.take (k + 1) <:+ w ++ [a] ↔ p[k]? = some a ∧ p.take k <:+ w := by
  rw [List.take_add_one, List.getElem?_eq_getElem hk, Option.toList_some, List.suffix_concat_iff]
  constructor
  · rintro (hnil | ⟨t, ht, hsuffix⟩)
    · exact absurd hnil (List.append_ne_nil_of_right_ne_nil _ (List.cons_ne_nil _ _))
    · obtain ⟨rfl, ha⟩ := List.append_singleton_inj.mp ht
      exact ⟨congrArg some ha, hsuffix⟩
  · rintro ⟨ha, hsuffix⟩
    exact .inr ⟨p.take k, by rw [Option.some.inj ha], hsuffix⟩

theorem longest_nil (hp : p ≠ []) : Longest p [] 0 := by
  refine ⟨List.length_pos_iff.mpr hp, by simp, fun j hj hsuffix => ?_⟩
  have hlen := hsuffix.length_le
  rw [List.length_take, List.length_nil] at hlen
  omega

/-- The symbol continues the pattern. -/
theorem Longest.concat_of_eq (h : Longest p w k) (ha : p[k]? = some a)
    (hk : k + 1 < p.length) : Longest p (w ++ [a]) (k + 1) := by
  refine ⟨hk, (take_suffix_concat_iff h.lt_length).mpr ⟨ha, h.suffix⟩, fun j hj hsuffix => ?_⟩
  cases j with
  | zero => exact Nat.zero_le _
  | succ j =>
      have hj' : j < p.length := by omega
      exact Nat.succ_le_succ (h.le j hj' ((take_suffix_concat_iff hj').mp hsuffix).2)

theorem drop_isPrefix_iff (i : ℕ) :
    p.drop i <+: p ↔ ∀ n, i + n < p.length → p[i + n]? = p[n]? := by
  rw [List.prefix_iff_getElem?]
  constructor
  · intro h n hn
    have hn' : n < (p.drop i).length := by
      rw [List.length_drop]
      omega
    rw [h n hn', List.getElem_drop, List.getElem?_eq_getElem hn]
  · intro h n hn
    rw [List.length_drop] at hn
    rw [List.getElem_drop, ← h n (by omega), List.getElem?_eq_getElem]

/-- Prefixes of a self-extending pattern that overlap go on with the same symbol. -/
theorem SelfExtending.getElem?_eq (hp : SelfExtending p) {j : ℕ} (hk : k < p.length)
    (hj : 0 < j) (hjk : j ≤ k) (hsuffix : p.take j <:+ p.take k) : p[k]? = p[j]? := by
  have hdrop : p.take j = (p.take k).drop (k - j) := by
    have := List.suffix_iff_eq_drop.mp hsuffix
    rwa [List.length_take, List.length_take, Nat.min_eq_left (Nat.le_of_lt hk),
      Nat.min_eq_left (by omega)] at this
  have hfirst : p[k - j]? = p[0]? := by
    rw [← List.getElem?_take_of_lt (j := j) hj, hdrop, List.getElem?_drop,
      List.getElem?_take_of_lt (by omega), Nat.add_zero]
  have hpre := (drop_isPrefix_iff _).mp (hp (k - j) (by omega) hfirst) j (by omega)
  rwa [Nat.sub_add_cancel hjk] at hpre

/-- The symbol does not continue a self-extending pattern: at most the first symbol of a
new occurrence has been read. -/
theorem Longest.concat_of_ne [DecidableEq α] (h : Longest p w k) (hp : SelfExtending p)
    (ha : p[k]? ≠ some a) :
    Longest p (w ++ [a]) (if p[0]? = some a then 1 else 0) := by
  have hle : ∀ j < p.length, p.take j <:+ w ++ [a] → j = 0 ∨ j = 1 ∧ p[0]? = some a := by
    intro j hj hsuffix
    cases j with
    | zero => exact .inl rfl
    | succ j =>
        obtain ⟨hja, hjw⟩ := (take_suffix_concat_iff (by omega)).mp hsuffix
        have hjk : j ≤ k := h.le j (by omega) hjw
        have hover : p.take j <:+ p.take k := by
          apply List.suffix_of_suffix_length_le hjw h.suffix
          rw [List.length_take, List.length_take]
          omega
        by_cases hj0 : j = 0
        · subst hj0
          exact .inr ⟨rfl, hja⟩
        · refine absurd ?_ ha
          rw [hp.getElem?_eq h.lt_length (by omega) hjk hover, hja]
  have hlen := h.lt_length
  split
  · next hfirst =>
      have hone : 1 < p.length := by
        by_contra hlen'
        obtain rfl : k = 0 := by omega
        exact ha hfirst
      refine ⟨hone, (take_suffix_concat_iff (by omega)).mpr ⟨hfirst, by simp⟩, ?_⟩
      intro j hj hsuffix
      rcases hle j hj hsuffix with rfl | ⟨rfl, -⟩
      · exact Nat.zero_le 1
      · exact Nat.le_refl 1
  · next hfirst =>
      refine ⟨by omega, by simp, fun j hj hsuffix => ?_⟩
      rcases hle j hj hsuffix with rfl | ⟨-, hfirst'⟩
      · exact Nat.le_refl 0
      · exact absurd hfirst' hfirst

/-- The whole pattern stands at the end after one more symbol. -/
theorem Longest.eq_of_suffix_concat (h : Longest p w k) (hsuffix : p <:+ w ++ [a]) :
    k + 1 = p.length ∧ p[k]? = some a := by
  have hlen := h.lt_length
  obtain ⟨n, hn⟩ : ∃ n, p.length = n + 1 := ⟨p.length - 1, by omega⟩
  rw [← List.take_length (l := p), hn, take_suffix_concat_iff (by omega)] at hsuffix
  have hle := h.le n (by omega) hsuffix.2
  obtain rfl : n = k := by omega
  exact ⟨hn.symm, hsuffix.1⟩

/-- In a pattern that is not self-extending some prefix overlaps itself and then goes on
with another symbol. -/
theorem exists_of_not_selfExtending (h : ¬ SelfExtending p) :
    ∃ i j, 0 < i ∧ 0 < j ∧ i + j < p.length ∧ p.take j <:+ p.take (i + j) ∧
      p[i + j]? ≠ p[j]? := by
  classical
  unfold SelfExtending at h
  push Not at h
  obtain ⟨i, hi, hfirst, hpre⟩ := h
  rw [drop_isPrefix_iff] at hpre
  push Not at hpre
  -- the first place where the two readings differ
  obtain ⟨j, ⟨hj, hne⟩, hmin⟩ : ∃ j, (i + j < p.length ∧ p[i + j]? ≠ p[j]?) ∧
      ∀ n < j, ¬ (i + n < p.length ∧ p[i + n]? ≠ p[n]?) :=
    ⟨Nat.find hpre, Nat.find_spec hpre, fun n hn => Nat.find_min hpre hn⟩
  have hi0 : i ≠ 0 := by
    rintro rfl
    rw [Nat.zero_add] at hne
    exact hne rfl
  have hj0 : j ≠ 0 := by
    rintro rfl
    exact hne hfirst
  refine ⟨i, j, Nat.pos_of_ne_zero hi0, Nat.pos_of_ne_zero hj0, hj, ?_, hne⟩
  have hsame : (p.drop i).take j = p.take j := by
    apply List.ext_getElem?
    intro n
    by_cases hn : n < j
    · rw [List.getElem?_take_of_lt hn, List.getElem?_take_of_lt hn, List.getElem?_drop]
      by_contra hne'
      exact hmin n hn ⟨by omega, hne'⟩
    · rw [List.getElem?_take_eq_none (by omega), List.getElem?_take_eq_none (by omega)]
  rw [List.take_add, hsame]
  exact List.suffix_append _ _

end Overlap
