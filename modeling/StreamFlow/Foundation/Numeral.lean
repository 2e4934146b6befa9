import StreamFlow.Foundation.Joined
import StreamFlow.Foundation.Text
import Mathlib.Data.List.TakeWhile

/-!
# Decimal numerals in a file

`print` is the text of a number under the verb `%d`. `scan` reads a number at the
beginning of a text under the same verb: it skips blanks, takes a sign and all digits
that follow, and leaves the rest of the text alone; without digits it fails.

What is left of a numeral when it is cut off is empty, a sign, or the numeral of another
number (`take_print`), so a scan of it can succeed with a wrong result.
-/

namespace Numeral

open BigEndian

def bytes (l : List Char) : Bytes := l.map fun c => UInt8.ofNat c.toNat

def print (n : ℤ) : Bytes := bytes (toString n).toList

/-- A space that a verb skips. A newline is none. -/
def isBlank (c : Char) : Bool := c ≠ '\n' && GoStrings.isSpace c

/-- The text after the blanks at its beginning. -/
def skipBlanks (text : Bytes) : Bytes :=
  let blanks := (Utf8.runes text).takeWhile fun c => c.any isBlank
  text.drop (blanks.map fun c => (c.map Char.utf8Size).getD 1).sum

def isDigit (b : UInt8) : Bool := decide (48 ≤ b) && decide (b ≤ 57)

/-- The number that the digits at the beginning of a text write. -/
def scanDigits (text : Bytes) : Option ℕ := Decimal.digits? (text.takeWhile isDigit)

/-- The number after an optional sign. -/
def scanSigned (text : Bytes) : Option ℤ :=
  if text.head? = some 45 then (scanDigits text.tail).map fun n : ℕ => -(n : ℤ)
  else if text.head? = some 43 then (scanDigits text.tail).map fun n : ℕ => (n : ℤ)
  else (scanDigits text).map fun n : ℕ => (n : ℤ)

def scan (text : Bytes) : Option ℤ :=
  (scanSigned (skipBlanks text)).filter fun n => decide (Int64Range n)

theorem bytes_append (l l' : List Char) : bytes (l ++ l') = bytes l ++ bytes l' :=
  List.map_append

theorem bytes_take (l : List Char) (k : ℕ) : (bytes l).take k = bytes (l.take k) :=
  List.map_take.symm

section Digits

variable {l : List Char}

theorem toNat_ofNat_of_isDigit {c : Char} (h : c.isDigit) :
    (UInt8.ofNat c.toNat).toNat = c.toNat := by
  have hle := (Char.isDigit_iff_toNat.mp h).2
  have h9 : '9'.toNat = 57 := rfl
  rw [UInt8.toNat_ofNat']
  omega

theorem isDigit_ofNat {c : Char} (h : c.isDigit) : isDigit (UInt8.ofNat c.toNat) = true := by
  obtain ⟨hge, hle⟩ := Char.isDigit_iff_toNat.mp h
  rw [isDigit, Bool.and_eq_true, decide_eq_true_iff, decide_eq_true_iff, UInt8.le_iff_toNat_le,
    UInt8.le_iff_toNat_le, toNat_ofNat_of_isDigit h]
  exact ⟨hge, hle⟩

theorem all_isDigit_bytes (hl : ∀ c ∈ l, c.isDigit) : ∀ b ∈ bytes l, isDigit b = true := by
  intro b hb
  obtain ⟨c, hc, rfl⟩ := List.mem_map.mp hb
  exact isDigit_ofNat (hl c hc)

/-- The digits of a number give it back. -/
theorem digits?_bytes (hne : l ≠ []) (hl : ∀ c ∈ l, c.isDigit) :
    Decimal.digits? (bytes l) = some (Nat.ofDigitChars 10 l 0) := by
  have hempty : ¬ (bytes l).isEmpty = true := by simpa [bytes] using hne
  have hall : ((bytes l).all fun d => decide (48 ≤ d) && decide (d ≤ 57)) = true :=
    List.all_eq_true.mpr (all_isDigit_bytes hl)
  rw [Decimal.digits?, if_neg hempty, if_pos hall, bytes, List.foldl_map,
    Nat.ofDigitChars_eq_foldl]
  have hfold : ∀ l' : List Char, (∀ c ∈ l', c.isDigit) → ∀ n : ℕ,
      l'.foldl (fun n c => 10 * n + ((UInt8.ofNat c.toNat).toNat - 48)) n =
        l'.foldl (fun n c => 10 * n + (c.toNat - '0'.toNat)) n := by
    intro l' hl' n
    induction l' generalizing n with
    | nil => rfl
    | cons c l' ih =>
        rw [List.foldl_cons, List.foldl_cons, toNat_ofNat_of_isDigit (hl' c List.mem_cons_self)]
        exact ih (fun d hd => hl' d (List.mem_cons_of_mem c hd)) _
  rw [hfold l hl 0]

theorem scanDigits_bytes (hne : l ≠ []) (hl : ∀ c ∈ l, c.isDigit) :
    scanDigits (bytes l) = some (Nat.ofDigitChars 10 l 0) := by
  rw [scanDigits, List.takeWhile_eq_self_iff.mpr (all_isDigit_bytes hl), digits?_bytes hne hl]

theorem ne_sign_of_isDigit {b : UInt8} (h : isDigit b = true) : b ≠ 45 ∧ b ≠ 43 := by
  constructor
  · rintro rfl
    exact absurd h (by decide)
  · rintro rfl
    exact absurd h (by decide)

/-- A text that begins with a sign or a digit has no blanks to skip. -/
theorem skipBlanks_bytes {c : Char} (hlow : 33 ≤ c.toNat) (hhigh : c.toNat < 58) (l : List Char) :
    skipBlanks (bytes (c :: l)) = bytes (c :: l) := by
  have hall : ∀ n < 58, 33 ≤ n → String.utf8EncodeChar (Char.ofNat n) = [UInt8.ofNat n] ∧
      isBlank (Char.ofNat n) = false := by
    decide
  obtain ⟨hencode, hblank⟩ := hall c.toNat hhigh hlow
  rw [Char.ofNat_toNat] at hencode hblank
  have hruns : Utf8.runes (bytes (c :: l)) = some c :: Utf8.runes (bytes l) := by
    rw [← Utf8.runes_append, hencode]
    rfl
  rw [skipBlanks, hruns, List.takeWhile_cons_of_neg (by simp [hblank])]
  rfl

end Digits

/-- The digits of a natural number, as bytes. -/
theorem scanDigits_toDigits (n : ℕ) : scanDigits (bytes (Nat.toDigits 10 n)) = some n := by
  rw [scanDigits_bytes Nat.toDigits_ne_nil fun c hc =>
    Nat.isDigit_of_mem_toDigits (by decide) (by decide) hc, Nat.ofDigitChars_ten_toDigits]

theorem print_of_nonneg {n : ℤ} (h : 0 ≤ n) : print n = bytes (Nat.toDigits 10 n.toNat) := by
  rcases Joined.toString_int_cases n with ⟨-, hn⟩ | ⟨hneg, -⟩
  · rw [print, hn, Nat.toString_eq_ofList_toDigits, String.toList_ofList]
  · omega

theorem print_of_neg {n : ℤ} (h : n < 0) : print n = 45 :: bytes (Nat.toDigits 10 (-n).toNat) := by
  rcases Joined.toString_int_cases n with ⟨hpos, -⟩ | ⟨-, hn⟩
  · omega
  · rw [print, hn, String.toList_append, bytes_append, Nat.toString_eq_ofList_toDigits]
    simp only [String.toList_ofList]
    rfl

/-- Printing and scanning a number. -/
theorem scan_print {n : ℤ} (h : Int64Range n) : scan (print n) = some n := by
  have hsigned : scanSigned (skipBlanks (print n)) = some n := by
    by_cases hn : 0 ≤ n
    · rw [print_of_nonneg hn]
      cases hd : Nat.toDigits 10 n.toNat with
      | nil => exact absurd hd Nat.toDigits_ne_nil
      | cons c l =>
          have hc : c.isDigit :=
            Nat.isDigit_of_mem_toDigits (by decide) (by decide) (hd ▸ List.mem_cons_self)
          obtain ⟨hlow, hhigh⟩ := Char.isDigit_iff_toNat.mp hc
          obtain ⟨hminus, hplus⟩ := ne_sign_of_isDigit (isDigit_ofNat hc)
          have hscan := scanDigits_toDigits n.toNat
          rw [hd] at hscan
          have hhead : (bytes (c :: l)).head? = some (UInt8.ofNat c.toNat) := rfl
          rw [skipBlanks_bytes (Nat.le_trans (by decide) hlow) (Nat.lt_succ_of_le hhigh),
            scanSigned, hhead, if_neg fun h => hminus (Option.some.inj h),
            if_neg fun h => hplus (Option.some.inj h), hscan, Option.map_some,
            Int.toNat_of_nonneg hn]
    · have hneg : n < 0 := not_le.mp hn
      have hskip := skipBlanks_bytes (c := '-') (by decide) (by decide)
        (Nat.toDigits 10 (-n).toNat)
      rw [print_of_neg hneg]
      change scanSigned (skipBlanks (bytes ('-' :: _))) = some n
      rw [hskip]
      change (scanDigits (bytes (Nat.toDigits 10 (-n).toNat))).map _ = some n
      rw [scanDigits_toDigits, Option.map_some]
      exact congrArg some (by omega)
  rw [scan, hsigned, Option.filter_some, if_pos (decide_eq_true h)]

/-- What is left of the digits of a number are the digits of a smaller number. -/
theorem toDigits_of_isPrefix {n : ℕ} {l : List Char} (h : l <+: Nat.toDigits 10 n) :
    l = [] ∨ ∃ m ≤ n, (0 < n → 0 < m) ∧ l = Nat.toDigits 10 m := by
  induction n using Nat.strong_induction_on with
  | _ n ih =>
      by_cases hn : n < 10
      · rw [Nat.toDigits_of_lt_base hn, ← List.nil_append [_], List.prefix_concat_iff] at h
        rcases h with rfl | hnil
        · exact .inr ⟨n, le_rfl, id, (Nat.toDigits_of_lt_base hn).symm⟩
        · exact .inl (List.prefix_nil.mp hnil)
      · have hten : 10 ≤ n := not_lt.mp hn
        rw [Nat.toDigits_of_base_le (by decide) hten, List.prefix_concat_iff] at h
        rcases h with rfl | hshort
        · exact .inr ⟨n, le_rfl, id, (Nat.toDigits_of_base_le (by decide) hten).symm⟩
        · rcases ih (n / 10) (by omega) hshort with hnil | ⟨m, hm, hpos, hl⟩
          · exact .inl hnil
          · exact .inr ⟨m, by omega, fun _ => hpos (by omega), hl⟩

/-- What is left of a numeral. -/
theorem take_print {n : ℤ} (h : Int64Range n) (k : ℕ) :
    (print n).take k = [] ∨ (print n).take k = [45] ∨
      ∃ m, Int64Range m ∧ (print n).take k = print m := by
  obtain ⟨hge, hlt⟩ := h
  by_cases hn : 0 ≤ n
  · rw [print_of_nonneg hn, bytes_take]
    rcases toDigits_of_isPrefix (List.take_prefix k (Nat.toDigits 10 n.toNat)) with
      hnil | ⟨m, hm, -, hl⟩
    · exact .inl (by rw [hnil]; rfl)
    · refine .inr (.inr ⟨m, ⟨by omega, by omega⟩, ?_⟩)
      rw [hl, print_of_nonneg (Int.natCast_nonneg m), Int.toNat_natCast]
  · have hneg : n < 0 := not_le.mp hn
    rw [print_of_neg hneg]
    cases k with
    | zero => exact .inl rfl
    | succ k =>
        rw [List.take_succ_cons, bytes_take]
        rcases toDigits_of_isPrefix (List.take_prefix k (Nat.toDigits 10 (-n).toNat)) with
          hnil | ⟨m, hm, hpos, hl⟩
        · exact .inr (.inl (by rw [hnil]; rfl))
        · have hm0 : 0 < m := hpos (by omega)
          refine .inr (.inr ⟨-m, ⟨by omega, by omega⟩, ?_⟩)
          rw [hl, print_of_neg (by omega), neg_neg, Int.toNat_natCast]

/-- A scan of the first bytes of a numeral finds the number of which they are the
numeral. -/
theorem scan_take_print_iff {n m : ℤ} (h : Int64Range n) (k : ℕ) :
    scan ((print n).take k) = some m ↔ Int64Range m ∧ (print n).take k = print m := by
  constructor
  · intro hscan
    rcases take_print h k with hnil | hminus | ⟨p, hp, htake⟩
    · rw [hnil] at hscan
      cases hscan
    · rw [hminus] at hscan
      cases hscan
    · rw [htake, scan_print hp] at hscan
      obtain rfl := Option.some.inj hscan
      exact ⟨hp, htake⟩
  · rintro ⟨hm, htake⟩
    rw [htake, scan_print hm]

end Numeral
