import StreamFlow.Streamql.Clauses
import StreamFlow.Streamql.Executor

/-!
# The length of a window

The `WINDOW` clause that `Parse` reads stands at the end of the text, so it has the last digits and
the unit after them. The number goes through three conversions: decimal digits to an `int`, seconds
to milliseconds, and milliseconds to the nanoseconds of a ticker. The period of the ticker is right
if and only if the last of these numbers is one of 64 bits.
-/

namespace StreamFlow.Streamql

open Pattern GoStrings Processor

variable {text rest digits unit : List Char} {m : Captures}

/-! ### The clause that is read -/

/-- What a capture of a query holds. -/
def captured (text : List Char) (i : ℕ) : List Char :=
  submatch ((selectRe.find? text).getD []) i

theorem captured_of_find? (h : selectRe.find? text = some m) (i : ℕ) :
    captured text i = submatch m i := by
  rw [captured, h, Option.getD_some]

theorem find?_endRe (h : endRe.find? text = some m) : m = [] := by
  obtain ⟨c, rest, m', hmem, hrest, rfl⟩ := find?_cat_eq_some h
  obtain ⟨rfl, -⟩ := mem_successes_many.mp hmem
  rw [find?_empty] at hrest
  split at hrest
  · exact (Option.some.inj hrest).symm
  · cases hrest

theorem matches_endRe_of_find? (h : endRe.find? text = some m) : ∀ c ∈ text, isBlank c :=
  matches_endRe.mp (matches_of_find? h)

/-- The unit of a window, or none. -/
theorem find?_unit
    (h : (Pattern.cat (seq [opt (.capture 6 (.alt (word "ms") (word "s")))]) endRe).find? text =
      some m) :
    ∃ unit b, text = unit ++ b ∧ IsUnit unit ∧ (∀ c ∈ b, isBlank c) ∧ submatch m 5 = [] ∧
      submatch m 6 = unit := by
  rw [seq_cons, find?_cat_cat, find?_cat_opt, Option.or_eq_some_iff] at h
  rcases h with h | ⟨-, h⟩
  · obtain ⟨_, b, m', hcapture, hrest, rfl⟩ := find?_cat_eq_some h
    obtain ⟨c, hwords, rfl⟩ := mem_successes_capture.mp hcapture
    have hread : c = [] ∧ ∃ unit, text = unit ++ b ∧ IsUnit unit := by
      rcases mem_successes_alt.mp hwords with hword | hword
      · obtain ⟨hc, unit, htext, hspells⟩ := mem_successes_word.mp hword
        exact ⟨hc, unit, htext, Or.inr (Or.inl hspells)⟩
      · obtain ⟨hc, unit, htext, hspells⟩ := mem_successes_word.mp hword
        exact ⟨hc, unit, htext, Or.inr (Or.inr hspells)⟩
    obtain ⟨rfl, unit, rfl, hunit⟩ := hread
    have hend : endRe.find? b = some m' := (find?_cat_empty _ _).symm.trans hrest
    obtain rfl := find?_endRe hend
    refine ⟨unit, b, rfl, hunit, matches_endRe_of_find? hend, rfl, ?_⟩
    rw [take_length_sub]
    rfl
  · have hend : endRe.find? text = some m := (find?_cat_empty _ _).symm.trans h
    obtain rfl := find?_endRe hend
    exact ⟨[], text, rfl, Or.inl rfl, matches_endRe_of_find? hend, rfl, rfl⟩

/-- The captures of a `WINDOW` clause are its digits and its unit. -/
theorem find?_windowRe (h : windowRe.find? text = some m) :
    (m = [] ∧ ∀ c ∈ text, isBlank c) ∨
      ∃ span digits unit b, text = span ++ (digits ++ (unit ++ b)) ∧
        Heads ["window"] span ∧ digits ≠ [] ∧ (∀ c ∈ digits, c.isDigit) ∧ IsUnit unit ∧
        (∀ c ∈ b, isBlank c) ∧ submatch m 5 = digits ∧ submatch m 6 = unit := by
  rw [windowRe, find?_cat_opt, Option.or_eq_some_iff] at h
  rcases h with h | ⟨-, h⟩
  · rw [seq_cons, find?_cat_cat] at h
    obtain ⟨c, mid, m₁, hkeyword, hmid, rfl⟩ := find?_cat_eq_some h
    obtain ⟨rfl, span, rfl, hspan⟩ := mem_successes_keyword.mp hkeyword
    rw [seq_cons, find?_cat_cat] at hmid
    obtain ⟨c, mid', m₂, hcapture, hmid', rfl⟩ := find?_cat_eq_some hmid
    obtain ⟨c', hmany, rfl⟩ := mem_successes_capture.mp hcapture
    obtain ⟨rfl, digits, hne, rfl, hdigits⟩ := mem_successes_many1.mp hmany
    obtain ⟨unit, b, rfl, hunit, hb, -, hsix⟩ := find?_unit hmid'
    refine Or.inr ⟨span, digits, unit, b, rfl, hspan, hne, hdigits, hunit, hb, ?_, ?_⟩
    · rw [take_length_sub]
      rfl
    · exact hsix
  · exact Or.inl ⟨find?_endRe h, matches_endRe_of_find? h⟩

/-- The window of a query is read at the end of its text. -/
theorem exists_window (h : selectRe.find? text = some m) :
    ∃ pre rest m', text = pre ++ rest ∧ windowRe.find? rest = some m' ∧
      submatch m 5 = submatch m' 5 ∧ submatch m 6 = submatch m' 6 := by
  have hsplit : selectRe = seq ([.many isBlank, word "select", many1 isBlank,
      .capture 1 (many1 isAny), keyword ["from"], .capture 2 (many1 fun c => isName c || c = '.'),
      opt (.cat (keyword ["where"]) (.capture 3 (many1Lazy isAny))),
      opt (.cat (keyword ["group", "by"]) (.capture 4 (many1Lazy isAny)))] ++
      [opt (seq [keyword ["window"], .capture 5 (many1 Char.isDigit),
        opt (.capture 6 (.alt (word "ms") (word "s")))]), .many isBlank]) := rfl
  rw [hsplit] at h
  obtain ⟨c, rest, m', hc, hrest, rfl⟩ := find?_seq_append h
  obtain ⟨pre, hpre⟩ := exists_append_of_mem_successes hc
  have hnames := fst_mem_names hc
  have hkeys : ∀ i, 4 < i → ∀ x ∈ c, x.1 ≠ i := by
    intro i hi x hx hxi
    have hmem := hnames x hx
    rw [hxi] at hmem
    simp [names, seq, word, keyword, opt, many1, many1Lazy] at hmem
    omega
  exact ⟨pre, rest, m', hpre, hrest, submatch_append (hkeys 5 (by decide)) m',
    submatch_append (hkeys 6 (by decide)) m'⟩

/-- The text before the last word of a text, and this word. -/
theorem last_word_inj {pre pre' u u' : List Char} (hu : ∀ c ∈ u, isBlank c = false)
    (hu' : ∀ c ∈ u', isBlank c = false) (hpre : ∀ c ∈ pre.getLast?, isBlank c)
    (hpre' : ∀ c ∈ pre'.getLast?, isBlank c) (h : pre ++ u = pre' ++ u') : u = u' := by
  have hrev : u.reverse ++ pre.reverse = u'.reverse ++ pre'.reverse := by
    rw [← List.reverse_append, ← List.reverse_append, h]
  refine List.reverse_injective (append_inj_of_head? (p := fun c => !isBlank c) ?_ ?_ ?_ ?_ hrev).1
  · exact fun c hc => by rw [hu c (List.mem_reverse.mp hc), Bool.not_false]
  · exact fun c hc => by rw [hu' c (List.mem_reverse.mp hc), Bool.not_false]
  · rw [List.head?_reverse]
    exact fun c hc => by rw [hpre c hc, Bool.not_true]
  · rw [List.head?_reverse]
    exact fun c hc => by rw [hpre' c hc, Bool.not_true]

theorem Heads.isBlank_getLast? {ws : List String} {span : List Char} (h : Heads ws span) :
    ∀ c ∈ span.getLast?, isBlank c := by
  induction ws generalizing span with
  | nil => exact fun c hc => h.2 c (List.mem_of_getLast? hc)
  | cons w ws ih =>
      obtain ⟨b, u, tail, rfl, -, -, htail⟩ := h
      have hne : tail ≠ [] := htail.ne_nil
      rw [List.getLast?_append_of_ne_nil _ (List.append_ne_nil_of_right_ne_nil _ hne),
        List.getLast?_append_of_ne_nil _ hne]
      exact ih htail

theorem IsUnit.isLetter (h : IsUnit unit) : ∀ c ∈ unit, isLetter c := by
  rcases h with rfl | h | h
  · exact List.forall_mem_nil _
  · exact IsWord.isLetter (by decide) h
  · exact IsWord.isLetter (by decide) h

theorem isBlank_number {unit : List Char} (hdigits : ∀ c ∈ digits, c.isDigit)
    (hunit : IsUnit unit) :
    ∀ c ∈ digits ++ unit, isBlank c = false := by
  intro c hc
  refine isBlank_eq_false_of_isName ?_
  rcases List.mem_append.mp hc with hc | hc
  · simp [isName, hdigits c hc]
  · exact isName_of_isLetter (hunit.isLetter c hc)

theorem isDigit_eq_false_of_isLetter {c : Char} (h : isLetter c) : c.isDigit = false :=
  forall_isName (P := fun c => isLetter c → c.isDigit = false) (by decide) (by decide) (by decide)
    (isName_of_isLetter h) h

/-- A number and a unit, without a blank between them, are told apart. -/
theorem length_inj {digits' unit' : List Char} (hdigits : ∀ c ∈ digits, c.isDigit)
    (hunit : IsUnit unit) (hdigits' : ∀ c ∈ digits', c.isDigit) (hunit' : IsUnit unit')
    (h : digits ++ unit = digits' ++ unit') : digits = digits' ∧ unit = unit' := by
  have hhead : ∀ {unit : List Char}, IsUnit unit → ∀ c ∈ unit.head?, c.isDigit = false :=
    fun hunit c hc => isDigit_eq_false_of_isLetter (hunit.isLetter c (List.mem_of_mem_head? hc))
  exact append_inj_of_head? hdigits hdigits' (hhead hunit) (hhead hunit') h

/-- The clause that is read is the one at the end of the text. -/
theorem captured_window {pre span : List Char} (hspan : Heads ["window"] span) (hne : digits ≠ [])
    (hdigits : ∀ c ∈ digits, c.isDigit) (hunit : IsUnit unit)
    (h : selectRe.find? (pre ++ (span ++ (digits ++ unit))) = some m) :
    submatch m 5 = [] ∨ submatch m 5 = digits ∧ submatch m 6 = unit := by
  obtain ⟨pre', rest, m', hsplit, hrest, hfive, hsix⟩ := exists_window h
  rw [hfive, hsix]
  refine (find?_windowRe hrest).imp (fun hnil => by rw [hnil.1]; rfl) ?_
  rintro ⟨span', digits', unit', b, rfl, hspan', -, hdigits', hunit', hb, hfive', hsix'⟩
  rw [hfive', hsix']
  have hlength := isBlank_number hdigits hunit
  have hnil : b = [] := by
    -- the last character of the text is not a blank
    by_contra hb'
    obtain ⟨b, c, rfl⟩ := (List.eq_nil_or_concat b).resolve_left hb'
    have hlast := congrArg List.getLast? hsplit
    rw [← List.append_assoc, List.getLast?_append_of_ne_nil _
      (List.append_ne_nil_of_left_ne_nil hne unit), List.concat_eq_append, ← List.append_assoc,
      ← List.append_assoc, ← List.append_assoc, ← List.append_assoc, List.getLast?_concat] at hlast
    have hblank := hlength c (List.mem_of_getLast? hlast)
    rw [hb c (by simp)] at hblank
    cases hblank
  subst hnil
  rw [List.append_nil, ← List.append_assoc, ← List.append_assoc pre'] at hsplit
  have hword := last_word_inj hlength (isBlank_number hdigits' hunit') ?_ ?_ hsplit
  · obtain ⟨rfl, rfl⟩ := length_inj hdigits hunit hdigits' hunit' hword
    exact ⟨rfl, rfl⟩
  · rw [List.getLast?_append_of_ne_nil _ hspan.ne_nil]
    exact hspan.isBlank_getLast?
  · rw [List.getLast?_append_of_ne_nil _ hspan'.ne_nil]
    exact hspan'.isBlank_getLast?

/-! ### The period of the ticker -/

/-- The operator that computes windows for a plan. -/
def windowOperator (p : Plan) : TimeWindowAggregateOperator :=
  ⟨p.groupBy.headD "", p.specs, p.windowMs⟩

/-- The nanoseconds of a unit; without a unit it is milliseconds. -/
def unitNanos (unit : List Char) : ℤ := if unit = ['s'] then 1000000000 else 1000000

/-- The length of a window that is written in the last digits and the unit after them. -/
theorem windowLength_digits (hne : digits ≠ []) (hdigits : ∀ c ∈ digits, c.isDigit) :
    windowLength digits unit = if Nat.ofDigitChars 10 digits 0 < 2 ^ 63 then
      if unit = ['s'] then ((Nat.ofDigitChars 10 digits 0 : ℤ) * 1000).bmod (2 ^ 64)
      else Nat.ofDigitChars 10 digits 0 else 0 := by
  rw [windowLength, atoi_digits hne hdigits]
  by_cases hlt : Nat.ofDigitChars 10 digits 0 < 2 ^ 63
  · rw [if_pos hlt, if_pos hlt]
  · rw [if_neg hlt, if_neg hlt]

theorem bmod_eq_self {x : ℤ} (h : 0 ≤ x) (hlt : x < 2 ^ 63) : x.bmod (2 ^ 64) = x :=
  Int.bmod_eq_of_le (by omega) (by omega)

/-- The period is the length of the window if that is a number of 64 bits, and only then. -/
theorem period_eq_iff {n : ℕ} (hn : 0 < n) {v : ℤ}
    (hv : v = if n < 2 ^ 63 then if unit = ['s'] then ((n : ℤ) * 1000).bmod (2 ^ 64) else n
      else 0) :
    ((v * 1000000).bmod (2 ^ 64) = n * unitNanos unit ∧ 0 < (v * 1000000).bmod (2 ^ 64)) ↔
      n * unitNanos unit < 2 ^ 63 := by
  have hlt := Int.bmod_lt (x := v * 1000000) (m := 2 ^ 64) (by decide)
  constructor
  · rintro ⟨hperiod, -⟩
    omega
  · intro hbound
    have hperiod : (v * 1000000).bmod (2 ^ 64) = n * unitNanos unit := by
      unfold unitNanos at hbound ⊢
      split at hbound
      · next hunit =>
          rw [if_pos (by omega), if_pos hunit, bmod_eq_self (by omega) (by omega)] at hv
          rw [if_pos hunit, hv, bmod_eq_self (by omega) (by omega)]
          omega
      · next hunit =>
          rw [if_pos (by omega), if_neg hunit] at hv
          rw [if_neg hunit, hv, bmod_eq_self (by omega) hbound]
    have hpos : 0 < unitNanos unit := by
      unfold unitNanos
      split <;> decide
    rw [hperiod]
    exact ⟨rfl, mul_pos (by omega) hpos⟩

/-- **The length of a window**: for a query that ends in a `WINDOW` clause with a positive number,
the period of the ticker is right and positive if and only if the number of nanoseconds is one of
64 bits and the clause is read as one. -/
theorem tickerPeriod_eq_iff {input : String} {q : Query} {pre span : List Char}
    (htext : trimSpace input.toList = pre ++ (span ++ (digits ++ unit)))
    (hspan : Heads ["window"] span) (hne : digits ≠ []) (hdigits : ∀ c ∈ digits, c.isDigit)
    (hpos : 0 < Nat.ofDigitChars 10 digits 0)
    (hunit : unit = [] ∨ unit = ['m', 's'] ∨ unit = ['s']) (hq : parse input = .ok q) :
    ((windowOperator (planify q)).tickerPeriod =
        (Nat.ofDigitChars 10 digits 0 : ℤ) * unitNanos unit ∧
      0 < (windowOperator (planify q)).tickerPeriod) ↔
      (Nat.ofDigitChars 10 digits 0 : ℤ) * unitNanos unit < 2 ^ 63 ∧
        captured (trimSpace input.toList) 5 ≠ [] := by
  obtain ⟨m, hm, rfl⟩ := parse_eq_ok.mp hq
  have hisUnit : IsUnit unit := by
    rcases hunit with rfl | rfl | rfl
    · exact Or.inl rfl
    · exact Or.inr (Or.inl (by decide))
    · exact Or.inr (Or.inr (by decide))
  rw [captured_of_find? hm]
  rw [htext] at hm
  have hperiod : (windowOperator (planify (queryOf m))).tickerPeriod =
      ((queryOf m).windowMs * 1000000).bmod (2 ^ 64) := rfl
  rw [hperiod]
  rcases captured_window hspan hne hdigits hisUnit hm with hnil | ⟨hfive, hsix⟩
  · have hzero : (queryOf m).windowMs = 0 := by
      rw [queryOf]
      simp only [hnil]
      rfl
    rw [hzero, hnil]
    simp
  · have hwindow : (queryOf m).windowMs = windowLength digits unit := by
      have hname : ∀ c ∈ digits, isName c := fun c hc => by simp [isName, hdigits c hc]
      have hunitName : ∀ c ∈ unit, isName c :=
        fun c hc => isName_of_isLetter (hisUnit.isLetter c hc)
      simp only [queryOf, hfive, hsix]
      rw [trimSpace_of_isName hname, trimSpace_of_isName hunitName, if_pos hne]
    rw [hfive, period_eq_iff hpos (hwindow.trans (windowLength_digits hne hdigits))]
    exact (and_iff_left hne).symm

/-- A query with a window of five seconds. -/
def secondsQuery : Query := ⟨["SUM(x)"], "s", "", ["g"], 5000⟩

theorem tickerPeriod_five_seconds :
    parse "SELECT SUM(x) FROM s GROUP BY g WINDOW 5s" = .ok secondsQuery ∧
      (((windowOperator (planify secondsQuery)).tickerPeriod =
          (Nat.ofDigitChars 10 ['5'] 0 : ℤ) * unitNanos ['s'] ∧
        0 < (windowOperator (planify secondsQuery)).tickerPeriod) ↔
        (Nat.ofDigitChars 10 ['5'] 0 : ℤ) * unitNanos ['s'] < 2 ^ 63 ∧
          captured (trimSpace "SELECT SUM(x) FROM s GROUP BY g WINDOW 5s".toList) 5 ≠ []) := by
  have hparse : parse "SELECT SUM(x) FROM s GROUP BY g WINDOW 5s" = .ok secondsQuery := by
    decide +kernel
  have htext : trimSpace "SELECT SUM(x) FROM s GROUP BY g WINDOW 5s".toList =
      "SELECT SUM(x) FROM s GROUP BY g".toList ++ (" WINDOW ".toList ++ (['5'] ++ ['s'])) := by
    decide
  have hspan : Heads ["window"] " WINDOW ".toList :=
    ⟨[' '], "WINDOW".toList, [' '], by decide, blanks_space, by decide, blanks_space⟩
  exact ⟨hparse, tickerPeriod_eq_iff htext hspan (by decide) (by decide) (by decide)
    (Or.inr (Or.inr rfl)) hparse⟩

/-- A window of a little over 292 years is read, and the period of its ticker is negative. -/
theorem tickerPeriod_overflow :
    parse "SELECT SUM(x) FROM s GROUP BY g WINDOW 9223372036855ms" =
        .ok ⟨["SUM(x)"], "s", "", ["g"], 9223372036855⟩ ∧
      (planify ⟨["SUM(x)"], "s", "", ["g"], 9223372036855⟩).specs = [⟨"sum", "x", ""⟩] ∧
      (windowOperator (planify ⟨["SUM(x)"], "s", "", ["g"], 9223372036855⟩)).tickerPeriod =
        -9223372036854551616 := by
  decide +kernel

end StreamFlow.Streamql
