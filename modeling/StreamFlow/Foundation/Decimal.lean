import Mathlib.Data.List.Basic
import Mathlib.Tactic.Linarith
import Mathlib.Tactic.Ring

/-!
# The order of decimal names

File names that differ in a number are sorted as texts. Numbers with the same count
of decimal digits come in the order of their values, and every digit comes before
the letters.
-/

namespace Decimal

/-- The value of a digit sequence by its first digit. -/
theorem ofDigitChars_cons_eq (c : Char) (l : List Char) :
    Nat.ofDigitChars 10 (c :: l) 0 =
      10 ^ l.length * (c.toNat - '0'.toNat) + Nat.ofDigitChars 10 l 0 := by
  rw [Nat.ofDigitChars_cons, Nat.ofDigitChars_eq_ofDigitChars_zero, Nat.mul_zero, Nat.zero_add]

theorem ofDigitChars_lt {l : List Char} (h : ∀ c ∈ l, c.isDigit) :
    Nat.ofDigitChars 10 l 0 < 10 ^ l.length := by
  induction l with
  | nil => decide
  | cons c l ih =>
      have htail := ih fun d hd => h d (List.mem_cons_of_mem c hd)
      have hc := (Char.isDigit_iff_toNat.mp (h c List.mem_cons_self)).2
      have hdigit : c.toNat - '0'.toNat ≤ 9 := Nat.sub_le_sub_right hc _
      have hhigh := Nat.mul_le_mul_left (10 ^ l.length) hdigit
      rw [ofDigitChars_cons_eq, List.length_cons, pow_succ]
      linarith

/-- Digit sequences of the same length are ordered like their values. -/
theorem lt_of_ofDigitChars_lt {l l' : List Char} (hl : ∀ c ∈ l, c.isDigit)
    (hl' : ∀ c ∈ l', c.isDigit) (hlen : l.length = l'.length)
    (h : Nat.ofDigitChars 10 l 0 < Nat.ofDigitChars 10 l' 0) : l < l' := by
  induction l generalizing l' with
  | nil =>
      obtain rfl := List.length_eq_zero_iff.mp hlen.symm
      exact absurd h (lt_irrefl _)
  | cons c l ih =>
      cases l' with
      | nil => cases hlen
      | cons c' l' =>
          have htail : l.length = l'.length := Nat.succ.inj hlen
          have hc := (Char.isDigit_iff_toNat.mp (hl c List.mem_cons_self)).1
          have hc' := (Char.isDigit_iff_toNat.mp (hl' c' List.mem_cons_self)).1
          rw [ofDigitChars_cons_eq, ofDigitChars_cons_eq, ← htail] at h
          have hsmall := ofDigitChars_lt fun d hd => hl' d (List.mem_cons_of_mem c' hd)
          rw [← htail] at hsmall
          rw [List.cons_lt_cons_iff]
          -- the first digits decide unless they are equal
          rcases lt_trichotomy c.toNat c'.toNat with hlt | heq | hgt
          · exact Or.inl hlt
          · refine Or.inr ⟨Char.toNat_inj.mp heq, ih (fun d hd => hl d (List.mem_cons_of_mem c hd))
              (fun d hd => hl' d (List.mem_cons_of_mem c' hd)) htail ?_⟩
            rw [heq] at h
            omega
          · have hstep : c'.toNat - '0'.toNat + 1 ≤ c.toNat - '0'.toNat := by omega
            have hhigh := Nat.mul_le_mul_left (10 ^ l.length) hstep
            rw [Nat.mul_add, Nat.mul_one] at hhigh
            omega

theorem toDigits_lt {a b : ℕ} (hlen : (Nat.toDigits 10 a).length = (Nat.toDigits 10 b).length)
    (h : a < b) : Nat.toDigits 10 a < Nat.toDigits 10 b := by
  have hdigit : ∀ n, ∀ c ∈ Nat.toDigits 10 n, c.isDigit :=
    fun n c hc => Nat.isDigit_of_mem_toDigits (by decide) (by decide) hc
  refine lt_of_ofDigitChars_lt (hdigit a) (hdigit b) hlen ?_
  rwa [Nat.ofDigitChars_ten_toDigits, Nat.ofDigitChars_ten_toDigits]

/-- Lists of the same length are compared before what follows them. -/
theorem append_lt_append {l l' : List Char} (hlen : l.length = l'.length) (h : l < l')
    (q q' : List Char) : l ++ q < l' ++ q' := by
  induction l generalizing l' with
  | nil =>
      obtain rfl := List.length_eq_zero_iff.mp hlen.symm
      exact absurd h (List.lt_irrefl _)
  | cons c l ih =>
      cases l' with
      | nil => cases hlen
      | cons c' l' =>
          rw [List.cons_append, List.cons_append, List.cons_lt_cons_iff]
          rcases List.cons_lt_cons_iff.mp h with hlt | ⟨heq, htail⟩
          · exact Or.inl hlt
          · exact Or.inr ⟨heq, ih (Nat.succ.inj hlen) htail⟩

theorem compare_eq_lt_iff {s t : String} : compare s t = .lt ↔ s < t :=
  compareOfLessAndEq_eq_lt

theorem compare_eq_lt {s t : String} (h : s.toList < t.toList) : compare s t = .lt :=
  compare_eq_lt_iff.mpr h

/-- Names that differ in a number of the same count of digits are ordered like the
numbers. -/
theorem compare_append_toString (p q : String) {a b : ℕ}
    (hlen : (toString a).length = (toString b).length) (h : a < b) :
    compare (p ++ toString a ++ q) (p ++ toString b ++ q) = .lt := by
  rw [Nat.toString_eq_ofList_toDigits, Nat.toString_eq_ofList_toDigits, String.length_ofList,
    String.length_ofList] at hlen
  apply compare_eq_lt
  simp only [String.toList_append, Nat.toString_eq_ofList_toDigits, String.toList_ofList,
    List.append_assoc]
  exact List.append_left_lt (append_lt_append hlen (toDigits_lt hlen h) _ _)

/-- A number comes before a letter. -/
theorem compare_append_toString_of_letter (p q r : String) (n : ℕ) {c : Char} {l : List Char}
    (hr : r.toList = c :: l) (hc : '9' < c) : compare (p ++ toString n ++ q) (p ++ r) = .lt := by
  apply compare_eq_lt
  simp only [String.toList_append, Nat.toString_eq_ofList_toDigits, String.toList_ofList,
    List.append_assoc, hr]
  refine List.append_left_lt ?_
  cases hd : Nat.toDigits 10 n with
  | nil => exact absurd hd Nat.toDigits_ne_nil
  | cons d ds =>
      have hdigit : d.isDigit :=
        Nat.isDigit_of_mem_toDigits (by decide) (by decide) (hd ▸ List.mem_cons_self)
      have hle := (Char.isDigit_iff_toNat.mp hdigit).2
      rw [List.cons_append, List.cons_lt_cons_iff]
      exact Or.inl (lt_of_le_of_lt hle hc)

end Decimal
