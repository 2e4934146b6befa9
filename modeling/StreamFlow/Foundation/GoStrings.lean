import Mathlib.Data.List.Chain
import Mathlib.Data.List.DropRight
import StreamFlow.Foundation.Numeral

/-!
# Functions on texts

The functions of `strings` and `strconv` that the query language uses, on lists of characters.
-/

namespace GoStrings

/-- `strings.TrimFunc`. -/
def trim (p : Char → Bool) (text : List Char) : List Char :=
  ((text.dropWhile p).reverse.dropWhile p).reverse

/-- `strings.TrimSpace`. -/
def trimSpace (text : List Char) : List Char := trim isSpace text

/-- `strings.Split` at commas. -/
def splitComma (text : List Char) : List (List Char) := text.splitOn ','

/-- `strings.Fields`. -/
def fields (text : List Char) : List (List Char) :=
  (text.splitOnP isSpace).filter (· ≠ [])

/-- `strconv.Atoi`; a character outside of ASCII is not a digit or a sign. -/
def atoi (text : List Char) : Option ℤ := Decimal.parseInt? (Utf8.encode (String.ofList text))

theorem trim_append_left {p : Char → Bool} {b : List Char} (hb : ∀ c ∈ b, p c) (text : List Char) :
    trim p (b ++ text) = trim p text := by
  rw [trim, List.dropWhile_append_of_pos hb, trim]

theorem dropWhile_eq_self {p : Char → Bool} {text : List Char}
    (h : ∀ c ∈ text.head?, p c = false) : text.dropWhile p = text := by
  cases text with
  | nil => rfl
  | cons c text => rw [List.dropWhile_cons_of_neg (by simp [h c rfl])]

theorem trim_eq_self {p : Char → Bool} {text : List Char} (hfirst : ∀ c ∈ text.head?, p c = false)
    (hlast : ∀ c ∈ text.getLast?, p c = false) : trim p text = text := by
  rw [trim, dropWhile_eq_self hfirst, dropWhile_eq_self, List.reverse_reverse]
  rwa [List.head?_reverse]

theorem trim_append_right {p : Char → Bool} {b : List Char} (hb : ∀ c ∈ b, p c)
    (text : List Char) : trim p (text ++ b) = trim p text := by
  have hdrop : ∀ text : List Char, ((text ++ b).dropWhile p).reverse.dropWhile p =
      (text.dropWhile p).reverse.dropWhile p := by
    intro text
    induction text with
    | nil => rw [List.nil_append, List.dropWhile_eq_nil_iff.mpr hb, List.dropWhile_nil]
    | cons c text ih =>
        by_cases hc : p c
        · rw [List.cons_append, List.dropWhile_cons_of_pos hc, List.dropWhile_cons_of_pos hc, ih]
        · rw [List.cons_append, List.dropWhile_cons_of_neg hc, List.dropWhile_cons_of_neg hc,
            ← List.cons_append, List.reverse_append, List.dropWhile_append_of_pos]
          exact fun d hd => hb d (List.mem_reverse.mp hd)
  rw [trim, hdrop, trim]

theorem trim_sublist (p : Char → Bool) (text : List Char) : (trim p text).Sublist text := by
  have hsub := (List.dropWhile_sublist p (l := (text.dropWhile p).reverse)).reverse
  rw [List.reverse_reverse] at hsub
  exact hsub.trans (List.dropWhile_sublist p)

theorem length_trim_le (p : Char → Bool) (text : List Char) : (trim p text).length ≤ text.length :=
  (trim_sublist p text).length_le

theorem trim_eq_self_iff {p : Char → Bool} {text : List Char} :
    trim p text = text ↔
      (∀ c ∈ text.head?, p c = false) ∧ ∀ c ∈ text.getLast?, p c = false := by
  have hdrop : ∀ l : List Char, ∀ c ∈ (l.dropWhile p).head?, p c = false := by
    intro l c hc
    have hnot := List.head?_dropWhile_not p l
    rw [Option.mem_def.mp hc] at hnot
    simpa using hnot
  constructor
  · intro h
    -- nothing is dropped on the left, since nothing is missing in the end
    have hleft : text.dropWhile p = text := by
      have hlength := congrArg List.length h
      rw [trim, List.length_reverse] at hlength
      refine (List.dropWhile_sublist p).eq_of_length_le ?_
      calc text.length = ((text.dropWhile p).reverse.dropWhile p).length := hlength.symm
        _ ≤ (text.dropWhile p).reverse.length := (List.dropWhile_sublist p).length_le
        _ = (text.dropWhile p).length := List.length_reverse
    refine ⟨fun c hc => hdrop text c (hleft.symm ▸ hc), fun c hc => ?_⟩
    rw [← h, trim, List.getLast?_reverse] at hc
    exact hdrop _ c hc
  · rintro ⟨hfirst, hlast⟩
    exact trim_eq_self hfirst hlast

/-- Trimming keeps what is not trimmed away anywhere. -/
theorem filter_trim {p keep : Char → Bool} (h : ∀ c, p c → keep c = false) (text : List Char) :
    (trim p text).filter keep = text.filter keep := by
  have hdrop : ∀ text : List Char, (text.dropWhile p).filter keep = text.filter keep := by
    intro text
    induction text with
    | nil => rfl
    | cons c text ih =>
        by_cases hc : p c
        · rw [List.dropWhile_cons_of_pos hc, ih, List.filter_cons_of_neg (by simp [h c hc])]
        · rw [List.dropWhile_cons_of_neg hc]
  rw [trim, List.filter_reverse, hdrop, List.filter_reverse, List.reverse_reverse, hdrop]

theorem mem_trim_iff {p : Char → Bool} {c : Char} (hc : p c = false) {text : List Char} :
    c ∈ trim p text ↔ c ∈ text := by
  have hfilter : (trim p text).filter (fun d => !p d) = text.filter fun d => !p d :=
    filter_trim (fun d hd => by simp [hd]) text
  have hmem : ∀ l : List Char, c ∈ l.filter (fun d => !p d) ↔ c ∈ l := by simp [hc]
  rw [← hmem, hfilter, hmem]

/-- Trimming does not reach over a character that stays. -/
theorem exists_trim_append_cons {p : Char → Bool} {c : Char} (hc : p c = false)
    (a b : List Char) :
    ∃ a' b', trim p (a ++ c :: b) = a' ++ c :: b' ∧ trim p a' = trim p a ∧ trim p b' = trim p b ∧
      a' ⊆ a ∧ b' ⊆ b := by
  have hdrop : ∀ a b : List Char, (a ++ c :: b).dropWhile p = a.dropWhile p ++ c :: b := by
    intro a b
    induction a with
    | nil => rw [List.nil_append, List.dropWhile_cons_of_neg (by simp [hc])]; rfl
    | cons d a ih =>
        by_cases hd : p d
        · rw [List.cons_append, List.dropWhile_cons_of_pos hd, List.dropWhile_cons_of_pos hd, ih]
        · rw [List.cons_append, List.dropWhile_cons_of_neg hd, List.dropWhile_cons_of_neg hd]
          rfl
  have hb : b = (b.reverse.dropWhile p).reverse ++ (b.reverse.takeWhile p).reverse := by
    rw [← List.reverse_append, List.takeWhile_append_dropWhile, List.reverse_reverse]
  refine ⟨a.dropWhile p, (b.reverse.dropWhile p).reverse, ?_, ?_, ?_, ?_, ?_⟩
  · rw [trim, hdrop, List.reverse_append, List.reverse_cons, List.append_assoc,
      List.singleton_append, hdrop, List.reverse_append, List.reverse_cons, List.reverse_reverse,
      List.append_assoc, List.singleton_append]
  · rw [trim, List.dropWhile_idempotent, trim]
  · nth_rewrite 2 [hb]
    refine (trim_append_right (fun d hd => ?_) _).symm
    exact List.mem_takeWhile_imp (List.mem_reverse.mp hd)
  · exact (List.dropWhile_sublist p).subset
  · intro d hd
    exact List.mem_reverse.mp ((List.dropWhile_sublist p).subset (List.mem_reverse.mp hd))

theorem filter_intercalate {keep : Char → Bool} {c : Char} (h : keep c = false)
    (texts : List (List Char)) :
    ([c].intercalate texts).filter keep = texts.flatMap (List.filter keep) := by
  induction texts with
  | nil => rfl
  | cons text texts ih =>
      cases texts with
      | nil => simp
      | cons text' texts =>
          rw [List.intercalate_cons_cons, List.filter_append, List.filter_append, ih,
            List.filter_singleton, h, List.flatMap_cons]
          simp

/-! ### Words -/

theorem fields_cons_space {c : Char} (hc : isSpace c) (text : List Char) :
    fields (c :: text) = fields text := by
  rw [fields, List.splitOnP_cons_eq_if_modifyHead, if_pos hc, fields]
  rfl

/-- The first word of a text. -/
theorem fields_append {u v : List Char} (hne : u ≠ []) (hu : ∀ c ∈ u, isSpace c = false)
    (hv : ∀ c ∈ v.head?, isSpace c) : fields (u ++ v) = u :: fields v := by
  cases v with
  | nil =>
      rw [List.append_nil, fields, List.splitOnP_eq_singleton hu]
      simp [fields, hne]
  | cons c v =>
      have hc : isSpace c := hv c rfl
      rw [fields_cons_space hc, fields, List.splitOnP_append_cons_of_forall_mem hu _ hc, fields,
        List.filter_cons_of_pos (by simpa using hne)]

/-- The first word of a text goes on from its first characters. -/
theorem exists_fields_append {u : List Char} (hne : u ≠ []) (hu : ∀ c ∈ u, isSpace c = false)
    (text : List Char) : ∃ v rest, fields (u ++ text) = (u ++ v) :: rest := by
  have hsplit : u ++ text = (u ++ text.takeWhile fun c => !isSpace c) ++
      text.dropWhile fun c => !isSpace c := by
    rw [List.append_assoc, List.takeWhile_append_dropWhile]
  refine ⟨text.takeWhile fun c => !isSpace c, fields (text.dropWhile fun c => !isSpace c), ?_⟩
  rw [hsplit, fields_append (List.append_ne_nil_of_left_ne_nil hne _)]
  · refine List.forall_mem_append.mpr ⟨hu, fun c hc => ?_⟩
    simpa using List.mem_takeWhile_imp hc
  · intro c hc
    have hdrop := List.head?_dropWhile_not (fun c => !isSpace c) text
    rw [Option.mem_def.mp hc] at hdrop
    simpa using hdrop

/-- A text with each run of white space as one space; the flag says that a space was written for the
run at the beginning. -/
def collapseAfter : Bool → List Char → List Char
  | _, [] => []
  | written, c :: text =>
      if isSpace c then if written then collapseAfter true text else ' ' :: collapseAfter true text
      else c :: collapseAfter false text

def collapse (text : List Char) : List Char := collapseAfter false text

theorem length_collapseAfter_le (written : Bool) (text : List Char) :
    (collapseAfter written text).length ≤ text.length := by
  induction text generalizing written with
  | nil => exact Nat.le_refl _
  | cons c text ih =>
      have htrue := ih true
      have hfalse := ih false
      rw [collapseAfter]
      split
      · split
        · rw [List.length_cons]
          omega
        · rw [List.length_cons, List.length_cons]
          omega
      · rw [List.length_cons, List.length_cons]
        omega

/-- The words of a text with a character after it, joined by spaces. -/
theorem intercalate_fields {q : Char} (hq : isSpace q = false) (text : List Char) :
    (∀ u, u ≠ [] → (∀ c ∈ u, isSpace c = false) →
      [' '].intercalate (fields (u ++ (text ++ [q]))) = u ++ (collapseAfter false text ++ [q])) ∧
    [' '].intercalate (fields (text ++ [q])) = collapseAfter true text ++ [q] := by
  have hword : ∀ u, u ≠ [] → (∀ c ∈ u, isSpace c = false) → fields u = [u] := by
    intro u hne hu
    have hfields := fields_append hne hu (v := []) (by simp)
    rwa [List.append_nil] at hfields
  induction text with
  | nil =>
      refine ⟨fun u hne hu => ?_, ?_⟩
      · rw [List.nil_append, hword _ (List.append_ne_nil_of_left_ne_nil hne _)]
        · simp [collapseAfter]
        · exact List.forall_mem_append.mpr ⟨hu, by simpa using hq⟩
      · rw [List.nil_append, hword _ (List.cons_ne_nil _ _) (by simpa using hq)]
        simp [collapseAfter]
  | cons c text ih =>
      obtain ⟨ihword, ihspace⟩ := ih
      by_cases hc : isSpace c
      · refine ⟨fun u hne hu => ?_, ?_⟩
        · rw [fields_append hne hu, List.cons_append, fields_cons_space hc, collapseAfter,
            if_pos hc, if_neg Bool.false_ne_true, List.cons_append, ← ihspace]
          · cases hrest : fields (text ++ [q]) with
            | nil =>
                rw [hrest] at ihspace
                exact absurd ihspace.symm
                  (List.append_ne_nil_of_right_ne_nil _ (List.cons_ne_nil _ _))
            | cons w ws =>
                rw [List.intercalate_cons_cons, List.append_assoc]
                rfl
          · intro d hd
            rwa [← Option.some.inj hd]
        · rw [List.cons_append, fields_cons_space hc, collapseAfter, if_pos hc, if_pos rfl, ihspace]
      · have hc' : isSpace c = false := by simpa using hc
        refine ⟨fun u hne hu => ?_, ?_⟩
        · have hsplit : u ++ (c :: text ++ [q]) = (u ++ [c]) ++ (text ++ [q]) := by simp
          rw [hsplit, ihword _ (List.append_ne_nil_of_left_ne_nil hne _)
            (List.forall_mem_append.mpr ⟨hu, by simpa using hc'⟩), collapseAfter, if_neg hc]
          simp
        · have hsplit : c :: text ++ [q] = [c] ++ (text ++ [q]) := rfl
          rw [hsplit, ihword [c] (List.cons_ne_nil _ _) (by simpa using hc'), collapseAfter,
            if_neg hc]
          rfl

theorem collapseAfter_eq_self_iff (written : Bool) (text : List Char) :
    collapseAfter written text = text ↔
      (∀ c ∈ text, isSpace c → c = ' ') ∧
        text.IsChain (fun c d => ¬ (isSpace c ∧ isSpace d)) ∧
        (written = true → ∀ c ∈ text.head?, isSpace c = false) := by
  induction text generalizing written with
  | nil => simp [collapseAfter]
  | cons c text ih =>
      rw [collapseAfter, List.forall_mem_cons, List.isChain_cons]
      by_cases hc : isSpace c
      · rw [if_pos hc]
        cases written with
        | true =>
            refine iff_of_false (fun heq => ?_) fun h => ?_
            · have hle := length_collapseAfter_le true text
              rw [if_pos rfl] at heq
              rw [heq, List.length_cons] at hle
              omega
            · have hhead := h.2.2 rfl c rfl
              rw [hc] at hhead
              cases hhead
        | false =>
            rw [if_neg Bool.false_ne_true, List.cons.injEq, ih true]
            simp only [hc, forall_const, true_and, Bool.not_eq_true, Bool.false_eq_true,
              IsEmpty.forall_iff, and_true]
            constructor
            · rintro ⟨rfl, hall, hchain, hhead⟩
              exact ⟨⟨rfl, hall⟩, hhead, hchain⟩
            · rintro ⟨⟨rfl, hall⟩, hhead, hchain⟩
              exact ⟨rfl, hall, hchain, hhead⟩
      · rw [if_neg hc, List.cons.injEq, ih false]
        simp [hc]

theorem collapse_eq_self_iff (text : List Char) :
    collapse text = text ↔ (∀ c ∈ text, isSpace c → c = ' ') ∧
      text.IsChain fun c d => ¬ (isSpace c ∧ isSpace d) := by
  rw [collapse, collapseAfter_eq_self_iff]
  simp

theorem encode_digits {l : List Char} (hl : ∀ c ∈ l, c.isDigit) :
    Utf8.encode (String.ofList l) = Numeral.bytes l := by
  have hall : ∀ n < 58, String.utf8EncodeChar (Char.ofNat n) = [UInt8.ofNat n] := by decide
  rw [Utf8.encode, String.toList_ofList, Numeral.bytes]
  induction l with
  | nil => rfl
  | cons c l ih =>
      obtain ⟨hc, hl⟩ := List.forall_mem_cons.mp hl
      have hchar := hall c.toNat (Nat.lt_succ_of_le (Char.isDigit_iff_toNat.mp hc).2)
      rw [Char.ofNat_toNat] at hchar
      rw [List.flatMap_cons, hchar, ih hl, List.map_cons]
      rfl

/-- Digits are read as their number, within the range of 64 bits. -/
theorem atoi_digits {l : List Char} (hne : l ≠ []) (hl : ∀ c ∈ l, c.isDigit) :
    atoi l = if Nat.ofDigitChars 10 l 0 < 2 ^ 63 then some (Nat.ofDigitChars 10 l 0 : ℤ)
      else none := by
  have hall := Numeral.all_isDigit_bytes hl
  have hsign : ∀ b : UInt8, b = 43 ∨ b = 45 → ∀ ds, Numeral.bytes l ≠ b :: ds := by
    intro b hb ds heq
    have hdigit := hall b (heq ▸ List.mem_cons_self)
    rcases hb with rfl | rfl <;> exact absurd hdigit (by decide)
  rw [atoi, encode_digits hl, Decimal.parseInt?, Numeral.digits?_bytes hne hl]
  · change (some (Nat.ofDigitChars 10 l 0 : ℤ)).filter _ = _
    rw [Option.filter_some]
    by_cases hn : Nat.ofDigitChars 10 l 0 < 2 ^ 63
    · rw [if_pos hn, if_pos (decide_eq_true (by omega))]
    · rw [if_neg hn, if_neg (by simp; omega)]
  · exact fun ds => hsign 43 (Or.inl rfl) ds
  · exact fun ds => hsign 45 (Or.inr rfl) ds

end GoStrings
