import Mathlib.Data.List.Basic
import Mathlib.Data.Int.Basic

/-!
# Names joined from texts and numbers

A key made of a text, a separator and a decimal number gives both parts back when the
separator is no digit and no minus sign. When the separator is itself a minus sign, the
sign of the number can also be read as the end of the text: `join_dash_eq_iff` lists the
ways two such keys can be equal.
-/

namespace Joined

/-- Parts after the last separator are equal. -/
theorem append_cons_inj {α : Type*} {c : α} {a b x y : List α} (hx : c ∉ x) (hy : c ∉ y)
    (h : a ++ c :: x = b ++ c :: y) : a = b ∧ x = y := by
  rcases List.append_eq_append_iff.mp h with ⟨d, rfl, hd⟩ | ⟨d, rfl, hd⟩
  · cases d with
    | nil => exact ⟨(List.append_nil a).symm, (List.cons.inj hd).2⟩
    | cons e d => exact absurd ((List.cons.inj hd).2 ▸ by simp) hx
  · cases d with
    | nil => exact ⟨List.append_nil b, (List.cons.inj hd).2.symm⟩
    | cons e d => exact absurd ((List.cons.inj hd).2 ▸ by simp) hy

theorem isDigit_of_mem_toString {n : ℕ} {c : Char} (h : c ∈ (toString n).toList) : c.isDigit := by
  rw [Nat.toString_eq_ofList_toDigits, String.toList_ofList] at h
  exact Nat.isDigit_of_mem_toDigits (by decide) (by decide) h

theorem toString_nat_injective : Function.Injective (toString : ℕ → String) := by
  intro m n h
  rw [Nat.toString_eq_ofList_toDigits, Nat.toString_eq_ofList_toDigits] at h
  have hdigits := congrArg (fun l => Nat.ofDigitChars 10 l 0) (String.ofList_injective h)
  simpa [Nat.ofDigitChars_ten_toDigits] using hdigits

theorem minus_notMem_toString (n : ℕ) : '-' ∉ (toString n).toList :=
  fun h => absurd (isDigit_of_mem_toString h) (by decide)

/-- A number is written as its absolute value, after a minus sign if it is negative. -/
theorem toString_int_cases (n : ℤ) :
    (0 ≤ n ∧ toString n = toString n.toNat) ∨
      (n < 0 ∧ toString n = "-" ++ toString (-n).toNat) := by
  cases n with
  | ofNat m => exact Or.inl ⟨Int.natCast_nonneg m, rfl⟩
  | negSucc m => exact Or.inr ⟨Int.negSucc_lt_zero m, rfl⟩

theorem mem_toString_int {n : ℤ} {c : Char} (h : c ∈ (toString n).toList) :
    c.isDigit ∨ c = '-' := by
  rcases toString_int_cases n with ⟨-, hn⟩ | ⟨-, hn⟩
  · rw [hn] at h
    exact Or.inl (isDigit_of_mem_toString h)
  · rw [hn, String.toList_append, List.mem_append] at h
    rcases h with hminus | hdigit
    · exact Or.inr (List.mem_singleton.mp hminus)
    · exact Or.inl (isDigit_of_mem_toString hdigit)

theorem toString_int_injective : Function.Injective (toString : ℤ → String) := by
  intro m n h
  rcases toString_int_cases m with ⟨hm, hm'⟩ | ⟨hm, hm'⟩ <;>
    rcases toString_int_cases n with ⟨hn, hn'⟩ | ⟨hn, hn'⟩ <;> rw [hm', hn'] at h
  · have := toString_nat_injective h
    omega
  · exact absurd (h ▸ by simp) (minus_notMem_toString m.toNat)
  · exact absurd (h ▸ by simp) (minus_notMem_toString n.toNat)
  · have := toString_nat_injective ((String.append_right_inj "-").mp h)
    omega

variable {sep : String} {c : Char} {s t u v : String}

/-- Both parts can be read off when the second does not contain the separator. -/
theorem join_inj (hsep : sep.toList = [c]) (hu : c ∉ u.toList) (hv : c ∉ v.toList)
    (h : s ++ sep ++ u = t ++ sep ++ v) : s = t ∧ u = v := by
  have hlist := congrArg String.toList h
  simp only [String.toList_append, hsep, List.append_assoc, List.singleton_append] at hlist
  obtain ⟨hfirst, hsecond⟩ := append_cons_inj hu hv hlist
  exact ⟨String.toList_inj.mp hfirst, String.toList_inj.mp hsecond⟩

/-- Keys with a separator that no number contains. -/
theorem join_eq_iff (hsep : sep.toList = [c]) (hdigit : c.isDigit = false) (hminus : c ≠ '-')
    {m n : ℤ} : s ++ sep ++ toString m = t ++ sep ++ toString n ↔ s = t ∧ m = n := by
  have hnot : ∀ k : ℤ, c ∉ (toString k).toList := by
    intro k hk
    rcases mem_toString_int hk with hd | hm
    · rw [hdigit] at hd
      cases hd
    · exact hminus hm
  constructor
  · intro h
    obtain ⟨hst, hmn⟩ := join_inj hsep (hnot m) (hnot n) h
    exact ⟨hst, toString_int_injective hmn⟩
  · rintro ⟨rfl, rfl⟩
    rfl

/-- Keys with a minus sign as the separator: besides equal parts, the sign of a negative
number can stand for a minus sign at the end of the other text. -/
theorem join_dash_eq_iff {m n : ℤ} :
    s ++ "-" ++ toString m = t ++ "-" ++ toString n ↔
      s = t ∧ m = n ∨ s = t ++ "-" ∧ 0 < m ∧ n = -m ∨ t = s ++ "-" ∧ 0 < n ∧ m = -n := by
  have hdash : "-".toList = ['-'] := rfl
  have hinj : ∀ {s t : String} {i j : ℕ}, s ++ "-" ++ toString i = t ++ "-" ++ toString j →
      s = t ∧ i = j := by
    intro s t i j h
    obtain ⟨hst, hij⟩ := join_inj hdash (minus_notMem_toString i) (minus_notMem_toString j) h
    exact ⟨hst, toString_nat_injective hij⟩
  constructor
  · intro h
    rcases toString_int_cases m with ⟨hm, hm'⟩ | ⟨hm, hm'⟩ <;>
      rcases toString_int_cases n with ⟨hn, hn'⟩ | ⟨hn, hn'⟩ <;> rw [hm', hn'] at h
    · obtain ⟨hst, hij⟩ := hinj h
      exact Or.inl ⟨hst, by omega⟩
    · rw [← String.append_assoc] at h
      obtain ⟨hst, hij⟩ := hinj h
      exact Or.inr (Or.inl ⟨hst, by omega, by omega⟩)
    · rw [← String.append_assoc] at h
      obtain ⟨hst, hij⟩ := hinj h
      exact Or.inr (Or.inr ⟨hst.symm, by omega, by omega⟩)
    · rw [← String.append_assoc, ← String.append_assoc] at h
      obtain ⟨hst, hij⟩ := hinj h
      exact Or.inl ⟨(String.append_left_inj "-").mp hst, by omega⟩
  · have hneg : ∀ {k : ℤ}, 0 < k → toString (-k) = "-" ++ toString k := by
      intro k hk
      rcases toString_int_cases (-k) with ⟨hle, -⟩ | ⟨-, h⟩
      · omega
      · rcases toString_int_cases k with ⟨-, h'⟩ | ⟨hlt, -⟩
        · rw [h, h', Int.neg_neg]
        · omega
    rintro (⟨rfl, rfl⟩ | ⟨rfl, hm, rfl⟩ | ⟨rfl, hn, rfl⟩)
    · rfl
    · simp only [hneg hm, String.append_assoc]
    · simp only [hneg hn, String.append_assoc]

end Joined
