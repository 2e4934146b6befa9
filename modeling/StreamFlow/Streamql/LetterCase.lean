import Mathlib.Data.Int.ModEq
import StreamFlow.Foundation.MatchIndex
import StreamFlow.Streamql.WindowClause

/-!
# The case of letters

The expression of `Parse` cannot tell a letter from the same one in the other case, so a query is
matched at the same positions whatever the case of its letters. What is captured goes on to be read:
the names are the same if they are not changed, but the unit of the window is compared with a small
`s`.
-/

namespace StreamFlow.Streamql

open Pattern GoStrings

/-! ### Letters up to case -/

/-- The small letter of the two cases. -/
def foldCase (c : Char) : Char :=
  if c = '\u017f' then 's' else if c = 'K' then 'k' else c.toLower

def SameLetter (c c' : Char) : Prop := foldCase c = foldCase c'

instance (c c' : Char) : Decidable (SameLetter c c') := inferInstanceAs (Decidable (_ = _))

/-- What holds of the capital letters, of the two letters outside of ASCII and of the characters
that are the small letters of themselves. -/
theorem forall_foldCase {P : Char → Prop} (h : ∀ n < 26, P (Char.ofNat (65 + n)))
    (hs : P '\u017f') (hk : P '\u212a') (hself : ∀ c, foldCase c = c → P c) (c : Char) : P c := by
  refine forall_capital h (fun c hc => ?_) c
  by_cases hcs : c = '\u017f'
  · rwa [hcs]
  · by_cases hck : c = '\u212a'
    · rwa [hck]
    · refine hself c ?_
      rw [foldCase, if_neg hcs, if_neg hck, toLower_eq_self hc]

/-- A property of characters that does not depend on the case of letters. -/
def CaseFree (p : Char → Bool) : Prop := ∀ c, p (foldCase c) = p c

theorem CaseFree.eq {p : Char → Bool} (hp : CaseFree p) (c c' : Char) (h : SameLetter c c') :
    p c = p c' := by
  rw [← hp c, ← hp c', h]

theorem caseFree_of_letters {p : Char → Bool}
    (h : ∀ n < 26, p (foldCase (Char.ofNat (65 + n))) = p (Char.ofNat (65 + n)))
    (hs : p 's' = p '\u017f') (hk : p 'k' = p 'K') : CaseFree p :=
  forall_foldCase h hs hk fun c hc => by rw [hc]

theorem caseFree_isBlank : CaseFree isBlank :=
  caseFree_of_letters (by decide) (by decide) (by decide)

theorem caseFree_isAny : CaseFree isAny := caseFree_of_letters (by decide) (by decide) (by decide)

theorem caseFree_isSource : CaseFree isSource :=
  caseFree_of_letters (by decide) (by decide) (by decide)

theorem caseFree_isDigit : CaseFree Char.isDigit :=
  caseFree_of_letters (by decide) (by decide) (by decide)

theorem caseFree_isFold {d : Char} (hd : d.isLower) : CaseFree (isFold d) := by
  have hall : ∀ k < 26,
      (∀ n < 26, isFold (Char.ofNat (97 + k)) (foldCase (Char.ofNat (65 + n))) =
        isFold (Char.ofNat (97 + k)) (Char.ofNat (65 + n))) ∧
      isFold (Char.ofNat (97 + k)) 's' = isFold (Char.ofNat (97 + k)) '\u017f' ∧
      isFold (Char.ofNat (97 + k)) 'k' = isFold (Char.ofNat (97 + k)) '\u212a' := by decide +kernel
  obtain ⟨hge, hle⟩ := isLower_iff_toNat.mp hd
  have hletter := hall (d.toNat - 97) (by omega)
  rw [Nat.add_sub_cancel' hge, Char.ofNat_toNat] at hletter
  obtain ⟨hcapital, hs, hk⟩ := hletter
  exact caseFree_of_letters hcapital hs hk

/-! ### The expression of a query -/

theorem respects_word {w : String} (hw : IsWord w) : (word w).Respects SameLetter := by
  obtain ⟨-, hlower⟩ := hw
  unfold word seq
  generalize w.toList = letters at hlower
  induction letters with
  | nil => exact trivial
  | cons d ds ih =>
      obtain ⟨hd, hds⟩ := List.forall_mem_cons.mp hlower
      exact ⟨(caseFree_isFold hd).eq, ih hds⟩

theorem respects_many1 {p : Char → Bool} (hp : CaseFree p) : (many1 p).Respects SameLetter :=
  ⟨hp.eq, hp.eq⟩

theorem respects_keyword {ws : List String} (hws : ∀ w ∈ ws, IsWord w) :
    (keyword ws).Respects SameLetter := by
  refine ⟨?_, respects_many1 caseFree_isBlank⟩
  induction ws with
  | nil => exact trivial
  | cons w ws ih =>
      obtain ⟨hw, hws⟩ := List.forall_mem_cons.mp hws
      exact ⟨⟨respects_many1 caseFree_isBlank, respects_word hw⟩, ih hws⟩

theorem respects_selectRe : selectRe.Respects SameLetter := by
  have hlazy : (many1Lazy isAny).Respects SameLetter := ⟨caseFree_isAny.eq, caseFree_isAny.eq⟩
  have hunit : (opt (.capture 6 (.alt (word "ms") (word "s")))).Respects SameLetter :=
    ⟨⟨respects_word (by decide), respects_word (by decide)⟩, trivial⟩
  exact ⟨caseFree_isBlank.eq, respects_word (by decide), respects_many1 caseFree_isBlank,
    respects_many1 caseFree_isAny, respects_keyword (by decide), respects_many1 caseFree_isSource,
    ⟨⟨respects_keyword (by decide), hlazy⟩, trivial⟩,
    ⟨⟨respects_keyword (by decide), hlazy⟩, trivial⟩,
    ⟨⟨respects_keyword (by decide), respects_many1 caseFree_isDigit, hunit, trivial⟩, trivial⟩,
    caseFree_isBlank.eq, trivial⟩

/-! ### Recased queries -/

/-- The second text is the first one with other cases for the letters outside of what is captured,
and for those of the unit. -/
structure Recased (text text' : List Char) : Prop where
  letters : List.Forall₂ SameLetter text text'
  kept : ∀ ix, selectRe.findIndex? text = some ix → ∀ x ∈ ix, x.1 ≠ 6 → slice text' x = slice text x

variable {text text' : List Char} {m : Captures}

theorem submatch_map_slice {ix : Positions} {i : ℕ}
    (h : ∀ x ∈ ix, x.1 = i → slice text' x = slice text x) :
    submatch (ix.map (slice text')) i = submatch (ix.map (slice text)) i := by
  unfold submatch
  congr 1
  induction ix with
  | nil => rfl
  | cons x ix ih =>
      obtain ⟨hx, hix⟩ := List.forall_mem_cons.mp h
      rw [List.map_cons, List.map_cons]
      by_cases hxi : x.1 = i
      · rw [hx hxi]
        simp [slice, hxi]
      · have hlookup : ∀ (t : List Char) (l : Captures),
            (slice t x :: l).lookup i = l.lookup i := by
          intro t l
          rw [slice, List.lookup_cons, beq_eq_false_iff_ne.mpr (Ne.symm hxi)]
        rw [hlookup, hlookup, ih hix]

/-- A recased query is matched, and all captures but the unit hold the same texts. -/
theorem Recased.exists_find? (h : Recased text text') (hm : selectRe.find? text = some m) :
    ∃ m', selectRe.find? text' = some m' ∧ ∀ i, i ≠ 6 → submatch m' i = submatch m i := by
  rw [find?_eq_map_findIndex?] at hm
  obtain ⟨ix, hix, rfl⟩ := Option.map_eq_some_iff.mp hm
  refine ⟨ix.map (slice text'), ?_, fun i hi => submatch_map_slice fun x hx hxi => ?_⟩
  · rw [find?_eq_map_findIndex?, ← findIndex?_congr respects_selectRe h.letters, hix,
      Option.map_some]
  · exact h.kept ix hix x hx (hxi ▸ hi)

/-- What the window of a match can be. -/
theorem digits_and_unit (h : selectRe.find? text = some m) :
    (∀ c ∈ submatch m 5, c.isDigit) ∧ IsUnit (submatch m 6) := by
  obtain ⟨pre, rest, m', -, hrest, hfive, hsix⟩ := exists_window h
  rw [hfive, hsix]
  rcases find?_windowRe hrest with ⟨rfl, -⟩ | ⟨_, _, _, _, -, -, -, hdigits, hunit, -, hd, hu⟩
  · exact ⟨List.forall_mem_nil _, Or.inl rfl⟩
  · rw [hd, hu]
    exact ⟨hdigits, hunit⟩

/-- A thousand times a number is the same number of 64 bits only for zero. -/
theorem bmod_mul_eq_self_iff {n : ℤ} (h : 0 ≤ n) (hlt : n < 2 ^ 63) :
    (n * 1000).bmod (2 ^ 64) = n ↔ n = 0 := by
  constructor
  · intro heq
    have hmod : n * 1000 ≡ n [ZMOD (2 ^ 64 : ℕ)] := by
      rw [Int.ModEq, ← Int.bmod_emod (x := n * 1000) (m := 2 ^ 64), heq]
    have hdvd : ((2 ^ 64 : ℕ) : ℤ) ∣ 999 * n := by
      have hsub : n * 1000 - n = 999 * n := by omega
      exact hsub ▸ hmod.symm.dvd
    have hself := Int.dvd_of_dvd_mul_right_of_gcd_one hdvd (by decide)
    exact Int.eq_zero_of_dvd_of_nonneg_of_lt h (lt_trans hlt (by decide)) hself
  · rintro rfl
    rfl

/-- The unit makes a difference to the length of a window if the number is in range and not zero. -/
theorem windowLength_eq_iff {digits unit unit' : List Char} (hne : digits ≠ [])
    (hdigits : ∀ c ∈ digits, c.isDigit) :
    windowLength digits unit' = windowLength digits unit ↔
      (unit = ['s'] ↔ unit' = ['s']) ∨ (atoi digits).getD 0 = 0 := by
  rw [windowLength_digits hne hdigits, windowLength_digits hne hdigits, atoi_digits hne hdigits]
  generalize Nat.ofDigitChars 10 digits 0 = n
  by_cases hlt : n < 2 ^ 63
  · have hwrap := bmod_mul_eq_self_iff (n := (n : ℤ)) (by omega) (by omega)
    rw [if_pos hlt, if_pos hlt, if_pos hlt, Option.getD_some]
    by_cases hu : unit = ['s']
    · by_cases hu' : unit' = ['s']
      · simp only [hu, hu', true_or]
      · rw [if_pos hu, if_neg hu', eq_comm, hwrap]
        simp only [hu, hu', iff_false, not_true_eq_false, false_or]
    · by_cases hu' : unit' = ['s']
      · rw [if_neg hu, if_pos hu', hwrap]
        simp only [hu, hu', iff_true, false_or]
      · simp only [hu, hu', if_false, true_or]
  · rw [if_neg hlt, if_neg hlt, if_neg hlt]
    exact iff_of_true rfl (Or.inr rfl)

/-- **Letter case**: a recased query is read as the same one if and only if the unit is a small `s`
in both texts or in neither, or the window has no length that the unit could change. -/
theorem parse_recased_iff {input input' : String} {q : Query} (hq : parse input = .ok q)
    (h : Recased (trimSpace input.toList) (trimSpace input'.toList)) :
    parse input' = .ok q ↔
      (captured (trimSpace input.toList) 6 = ['s'] ↔ captured (trimSpace input'.toList) 6 = ['s']) ∨
        (atoi (captured (trimSpace input.toList) 5)).getD 0 = 0 := by
  obtain ⟨m, hm, rfl⟩ := parse_eq_ok.mp hq
  obtain ⟨m', hm', hsame⟩ := h.exists_find? hm
  rw [captured_of_find? hm, captured_of_find? hm', captured_of_find? hm]
  obtain ⟨hdigits, hunit⟩ := digits_and_unit hm
  obtain ⟨-, hunit'⟩ := digits_and_unit hm'
  have hparse : parse input' = .ok (queryOf m) ↔ (queryOf m').windowMs = (queryOf m).windowMs := by
    rw [parse_eq_ok]
    constructor
    · rintro ⟨_, hfind, hquery⟩
      obtain rfl := Option.some.inj (hm'.symm.trans hfind)
      rw [hquery]
    · intro hwindow
      refine ⟨m', hm', ?_⟩
      unfold queryOf at hwindow ⊢
      simp only [hsame 1 (by decide), hsame 2 (by decide), hsame 3 (by decide),
        hsame 4 (by decide), hsame 5 (by decide)] at hwindow ⊢
      rw [hwindow]
  rw [hparse]
  unfold queryOf
  simp only [hsame 5 (by decide)]
  have hname : ∀ {unit : List Char}, IsUnit unit → ∀ c ∈ unit, isName c :=
    fun hunit c hc => isName_of_isLetter (hunit.isLetter c hc)
  rw [trimSpace_of_isName (hname hunit), trimSpace_of_isName (hname hunit'),
    trimSpace_of_isName fun c hc => by simp [isName, hdigits c hc]]
  by_cases hne : submatch m 5 = []
  · rw [hne]
    simp only [ne_eq, not_true_eq_false, if_false, true_iff]
    exact Or.inr (by decide)
  · rw [if_pos hne, if_pos hne]
    exact windowLength_eq_iff hne hdigits

/-- The keywords in small letters, and the unit in a capital one. -/
theorem recased_unit : Recased "SELECT SUM(x) FROM s GROUP BY g WINDOW 5s".toList
    "select SUM(x) from s group by g window 5S".toList := by
  refine ⟨by decide, fun ix hix => ?_⟩
  have hfind : selectRe.findIndex? "SELECT SUM(x) FROM s GROUP BY g WINDOW 5s".toList =
      some [(1, 7, 13), (2, 19, 20), (4, 30, 31), (5, 39, 40), (6, 40, 41)] := by decide +kernel
  obtain rfl := Option.some.inj (hfind.symm.trans hix)
  decide

theorem parse_recased_unit_iff :
    parse "SELECT SUM(x) FROM s GROUP BY g WINDOW 5s" = .ok secondsQuery ∧
      Recased (trimSpace "SELECT SUM(x) FROM s GROUP BY g WINDOW 5s".toList)
        (trimSpace "select SUM(x) from s group by g window 5S".toList) ∧
      (parse "select SUM(x) from s group by g window 5S" = .ok secondsQuery ↔
        (captured (trimSpace "SELECT SUM(x) FROM s GROUP BY g WINDOW 5s".toList) 6 = ['s'] ↔
          captured (trimSpace "select SUM(x) from s group by g window 5S".toList) 6 = ['s']) ∨
        (atoi (captured (trimSpace "SELECT SUM(x) FROM s GROUP BY g WINDOW 5s".toList) 5)).getD 0 =
          0) := by
  have hparse : parse "SELECT SUM(x) FROM s GROUP BY g WINDOW 5s" = .ok secondsQuery := by
    decide +kernel
  exact ⟨hparse, recased_unit, parse_recased_iff hparse recased_unit⟩

/-- Five seconds become five milliseconds. -/
theorem parse_recased_unit :
    Recased (trimSpace "SELECT SUM(x) FROM s GROUP BY g WINDOW 5s".toList)
        (trimSpace "select SUM(x) from s group by g window 5S".toList) ∧
      parse "SELECT SUM(x) FROM s GROUP BY g WINDOW 5s" = .ok ⟨["SUM(x)"], "s", "", ["g"], 5000⟩ ∧
      parse "select SUM(x) from s group by g window 5S" = .ok ⟨["SUM(x)"], "s", "", ["g"], 5⟩ := by
  refine ⟨recased_unit, ?_⟩
  decide +kernel

end StreamFlow.Streamql
