import StreamFlow.Foundation.Matching
import StreamFlow.Streamql.Parser

/-!
# The clauses of a query

The expression of `Parse` from its end: what is left of a query from each clause on, and which texts
that can be. A clause begins with words between blanks. Where a `.+?` follows, any text to the
end of the line will do, so whether a text can be matched depends on the words at its beginning.
-/

namespace StreamFlow.Streamql

open Pattern GoStrings

variable {text rest span : List Char} {w : String} {ws : List String} {t : Pattern}

/-! ### Words between blanks -/

/-- A word in small letters. -/
def IsWord (w : String) : Prop := w.toList ≠ [] ∧ ∀ c ∈ w.toList, c.isLower

instance (w : String) : Decidable (IsWord w) := inferInstanceAs (Decidable (_ ∧ _))

def Blanks (b : List Char) : Prop := b ≠ [] ∧ ∀ c ∈ b, isBlank c

instance (b : List Char) : Decidable (Blanks b) := inferInstanceAs (Decidable (_ ∧ _))

theorem blanks_space : Blanks [' '] := by decide

/-- The texts that `keyword` matches. -/
def Heads : List String → List Char → Prop
  | [], span => Blanks span
  | w :: ws, span => ∃ b u tail, span = b ++ (u ++ tail) ∧ Blanks b ∧ Spells w u ∧ Heads ws tail

theorem Heads.ne_nil (h : Heads ws span) : span ≠ [] := by
  cases ws with
  | nil => exact h.1
  | cons w ws =>
      obtain ⟨b, u, tail, rfl, hb, -⟩ := h
      exact List.append_ne_nil_of_left_ne_nil hb.1 _

theorem isUpper_iff_toNat {c : Char} : c.isUpper ↔ 65 ≤ c.toNat ∧ c.toNat ≤ 90 :=
  decide_eq_true_iff

theorem isLower_iff_toNat {c : Char} : c.isLower ↔ 97 ≤ c.toNat ∧ c.toNat ≤ 122 := by
  have hlower : c.isLower = (decide (c.val ≥ 'a'.val) && decide (c.val ≤ 'z'.val)) := rfl
  rw [hlower, Bool.and_eq_true, decide_eq_true_eq, decide_eq_true_eq]
  exact Iff.rfl

theorem toLower_eq_self {c : Char} (h : ¬ (65 ≤ c.toNat ∧ c.toNat ≤ 90)) : c.toLower = c := by
  unfold Char.toLower
  rw [dif_neg]
  rintro ⟨hge, hle⟩
  exact h ⟨UInt32.le_iff_toNat_le.mp hge, UInt32.le_iff_toNat_le.mp hle⟩

/-- What holds of the capital letters and of all other characters. -/
theorem forall_capital {P : Char → Prop} (h : ∀ n < 26, P (Char.ofNat (65 + n)))
    (hself : ∀ c, ¬ (65 ≤ c.toNat ∧ c.toNat ≤ 90) → P c) (c : Char) : P c := by
  by_cases hc : 65 ≤ c.toNat ∧ c.toNat ≤ 90
  · have hcapital := h (c.toNat - 65) (by omega)
    rwa [Nat.add_sub_cancel' hc.1, Char.ofNat_toNat] at hcapital
  · exact hself c hc

theorem isLetter_of_isFold {c d : Char} (hc : c.isLower) (h : isFold c d) : isLetter d := by
  have hall : ∀ n < 123, (Char.ofNat n).isLower →
      isLetter (Char.ofNat n) ∧ isLetter (Char.ofNat n).toUpper := by decide
  have hlt := (isLower_iff_toNat.mp hc).2
  have hletter := hall c.toNat (by omega)
  rw [Char.ofNat_toNat] at hletter
  obtain ⟨hsmall, hcapital⟩ := hletter hc
  simp only [isFold, Bool.or_eq_true, Bool.and_eq_true, decide_eq_true_eq] at h
  rcases h with ((rfl | rfl) | ⟨-, rfl⟩) | ⟨-, rfl⟩
  · exact hsmall
  · exact hcapital
  · decide
  · decide

theorem IsWord.isLetter {u : List Char} (hw : IsWord w) (hu : Spells w u) :
    ∀ c ∈ u, isLetter c := by
  obtain ⟨-, hlower⟩ := hw
  unfold Spells at hu
  generalize w.toList = letters at hlower hu
  induction hu with
  | nil => exact List.forall_mem_nil _
  | cons hd _ ih =>
      obtain ⟨hc, hlower⟩ := List.forall_mem_cons.mp hlower
      exact List.forall_mem_cons.mpr ⟨isLetter_of_isFold hc hd, ih hlower⟩

theorem IsWord.ne_nil {u : List Char} (hw : IsWord w) (hu : Spells w u) : u ≠ [] := by
  rintro rfl
  exact hw.1 (List.forall₂_nil_right_iff.mp hu)

/-- What holds of the characters of names is a check of the ASCII ones and two more. -/
theorem forall_isName {P : Char → Prop} (h : ∀ n < 128, isName (Char.ofNat n) → P (Char.ofNat n))
    (hs : P '\u017f') (hk : P '\u212a') {c : Char} (hc : isName c) : P c := by
  have hbound : c.toNat < 128 ∨ c = '\u017f' ∨ c = '\u212a' := by
    have halpha : c.isAlpha = (c.isUpper || c.isLower) := rfl
    simp only [isName, isLetter, halpha, Bool.or_eq_true, decide_eq_true_eq, isUpper_iff_toNat,
      isLower_iff_toNat, Char.isDigit_iff_toNat] at hc
    rcases hc with ((((hc | hc) | hc) | hc) | hc) | rfl
    · exact Or.inl (by omega)
    · exact Or.inl (by omega)
    · exact Or.inr (Or.inl hc)
    · exact Or.inr (Or.inr hc)
    · exact Or.inl (lt_of_le_of_lt hc.2 (by decide))
    · exact Or.inl (by decide)
  rcases hbound with hlt | rfl | rfl
  · have hchar := h c.toNat hlt
    rw [Char.ofNat_toNat] at hchar
    exact hchar hc
  · exact hs
  · exact hk

theorem isBlank_eq_false_of_isName {c : Char} (h : isName c) : isBlank c = false :=
  forall_isName (P := fun c => isBlank c = false) (by decide) (by decide) (by decide) h

theorem isSpace_eq_false_of_isName {c : Char} (h : isName c) : isSpace c = false :=
  forall_isName (P := fun c => isSpace c = false) (by decide) (by decide) (by decide) h

theorem trimSpace_of_isName (h : ∀ c ∈ text, isName c) : trimSpace text = text :=
  trim_eq_self (fun c hc => isSpace_eq_false_of_isName (h c (List.mem_of_mem_head? hc)))
    fun c hc => isSpace_eq_false_of_isName (h c (List.mem_of_getLast? hc))

theorem isName_of_isLetter {c : Char} (h : isLetter c) : isName c := by simp [isName, h]

theorem IsWord.isBlank {u : List Char} (hw : IsWord w) (hu : Spells w u) :
    ∀ c ∈ u, isBlank c = false :=
  fun c hc => isBlank_eq_false_of_isName (isName_of_isLetter (hw.isLetter hu c hc))

theorem mem_successes_keyword {c : Captures} :
    (c, rest) ∈ (keyword ws).successes text ↔
      c = [] ∧ ∃ span, text = span ++ rest ∧ Heads ws span := by
  unfold keyword
  induction ws generalizing c text with
  | nil =>
      simp only [List.map_nil, seq, List.foldr_nil, mem_successes_cat, mem_successes_empty,
        mem_successes_many1]
      constructor
      · rintro ⟨_, _, _, ⟨rfl, rfl⟩, ⟨rfl, span, hne, htext, hspan⟩, rfl⟩
        exact ⟨rfl, span, htext, hne, hspan⟩
      · rintro ⟨rfl, span, htext, hne, hspan⟩
        exact ⟨[], [], text, ⟨rfl, rfl⟩, ⟨rfl, span, hne, htext, hspan⟩, rfl⟩
  | cons w ws ih =>
      simp only [seq] at ih
      simp only [List.map_cons, seq, List.foldr_cons]
      constructor
      · intro h
        obtain ⟨_, c₃, mid, hwords, hblanks, rfl⟩ := mem_successes_cat.mp h
        obtain ⟨_, c₂, mid', hhead, hmore, rfl⟩ := mem_successes_cat.mp hwords
        obtain ⟨_, _, mid'', hblank, hword, rfl⟩ := mem_successes_cat.mp hhead
        obtain ⟨rfl, b, hne, rfl, hb⟩ := mem_successes_many1.mp hblank
        obtain ⟨rfl, u, rfl, hu⟩ := mem_successes_word.mp hword
        obtain ⟨hnil, tail, rfl, htail⟩ :=
          ih.mp (mem_successes_cat.mpr ⟨_, _, _, hmore, hblanks, rfl⟩)
        exact ⟨by simpa using hnil, b ++ (u ++ tail), by simp, b, u, tail, rfl, ⟨hne, hb⟩, hu,
          htail⟩
      · rintro ⟨rfl, _, rfl, b, u, tail, rfl, hb, hu, htail⟩
        obtain ⟨c₂, c₃, mid, hws, hblanks, hnil⟩ :=
          mem_successes_cat.mp (ih.mpr ⟨rfl, tail, rfl, htail⟩)
        refine mem_successes_cat.mpr ⟨_, c₃, mid, mem_successes_cat.mpr ⟨[], c₂, tail ++ rest,
          mem_successes_cat.mpr ⟨[], [], u ++ (tail ++ rest), ?_, ?_, rfl⟩, hws, rfl⟩, hblanks,
          hnil⟩
        · exact mem_successes_many1.mpr ⟨rfl, b, hb.1, by simp, hb.2⟩
        · exact mem_successes_word.mpr ⟨rfl, u, rfl, hu⟩

theorem matches_cat_keyword :
    (Pattern.cat (keyword ws) t).Matches text ↔
      ∃ span rest, text = span ++ rest ∧ Heads ws span ∧ t.Matches rest := by
  simp only [matches_cat, mem_successes_keyword]
  constructor
  · rintro ⟨_, rest, ⟨-, span, htext, hspan⟩, hrest⟩
    exact ⟨span, rest, htext, hspan, hrest⟩
  · rintro ⟨span, rest, htext, hspan, hrest⟩
    exact ⟨[], rest, ⟨rfl, span, htext, hspan⟩, hrest⟩

theorem matches_keyword : (keyword ws).Matches text ↔ Heads ws text := by
  simp only [matches_iff_mem, mem_successes_keyword]
  constructor
  · rintro ⟨_, -, span, rfl, hspan⟩
    rwa [List.append_nil]
  · intro h
    exact ⟨[], rfl, text, (List.append_nil _).symm, h⟩

theorem Heads.isBlank_or_isLetter (h : Heads ws span) (hws : ∀ w ∈ ws, IsWord w) :
    ∀ c ∈ span, isBlank c ∨ isLetter c := by
  induction ws generalizing span with
  | nil => exact fun c hc => Or.inl (h.2 c hc)
  | cons w ws ih =>
      obtain ⟨b, u, tail, rfl, hb, hu, htail⟩ := h
      obtain ⟨hw, hws⟩ := List.forall_mem_cons.mp hws
      simp only [List.mem_append]
      rintro c (hc | hc | hc)
      · exact Or.inl (hb.2 c hc)
      · exact Or.inr (hw.isLetter hu c hc)
      · exact ih htail hws c hc

theorem find?_cat_keyword_nil : (Pattern.cat (keyword []) t).find? text =
    (Pattern.cat (many1 isBlank) t).find? text := by
  rw [keyword, find?_cat_cat]
  exact find?_cat_empty _ _

theorem find?_cat_keyword_cons : (Pattern.cat (keyword (w :: ws)) t).find? text =
    (Pattern.cat (many1 isBlank) (.cat (word w) (.cat (keyword ws) t))).find? text := by
  rw [keyword, find?_cat_cat, List.map_cons, seq, List.foldr_cons, find?_cat_cat, find?_cat_cat]
  refine find?_cat_congr (find?_cat_congr fun text => ?_) text
  rw [keyword, find?_cat_cat]
  rfl

/-- The words are read up to what follows the blanks. -/
theorem Heads.find?_cat (h : Heads ws span) (hws : ∀ w ∈ ws, IsWord w) (hrest : t.Matches rest)
    (hhead : ∀ c ∈ rest.head?, isBlank c = false) :
    (Pattern.cat (keyword ws) t).find? (span ++ rest) = t.find? rest := by
  induction ws generalizing span with
  | nil => rw [find?_cat_keyword_nil, (longest_of_head? h.2 hrest hhead).find?_many1 h.1]
  | cons w ws ih =>
      obtain ⟨b, u, tail, rfl, hb, hu, htail⟩ := h
      obtain ⟨hw, hws⟩ := List.forall_mem_cons.mp hws
      have hword : (Pattern.cat (word w) (.cat (keyword ws) t)).find? (u ++ (tail ++ rest)) =
          t.find? rest := by rw [hu.find?_cat_word, ih htail hws]
      have hmatches :
          (Pattern.cat (word w) (.cat (keyword ws) t)).Matches (u ++ (tail ++ rest)) := by
        rw [Matches, hword]
        exact hrest
      have hletter : ∀ c ∈ (u ++ (tail ++ rest)).head?, isBlank c = false := by
        rw [List.head?_append_of_ne_nil _ (hw.ne_nil hu)]
        exact fun c hc => hw.isBlank hu c (List.mem_of_mem_head? hc)
      rw [find?_cat_keyword_cons, List.append_assoc, List.append_assoc,
        (longest_of_head? hb.2 hmatches hletter).find?_many1 hb.1, hword]

/-! ### The clauses -/

def endRe : Pattern := .cat (.many isBlank) .empty

def windowRe : Pattern :=
  .cat (opt (seq [keyword ["window"], .capture 5 (many1 Char.isDigit),
    opt (.capture 6 (.alt (word "ms") (word "s")))])) endRe

def groupRe : Pattern :=
  .cat (opt (.cat (keyword ["group", "by"]) (.capture 4 (many1Lazy isAny)))) windowRe

def whereRe : Pattern :=
  .cat (opt (.cat (keyword ["where"]) (.capture 3 (many1Lazy isAny)))) groupRe

def fromRe : Pattern :=
  .cat (keyword ["from"]) (.cat (.capture 2 (many1 fun c => isName c || c = '.')) whereRe)

theorem selectRe_eq :
    selectRe = .cat (.many isBlank) (.cat (word "select")
      (.cat (many1 isBlank) (.cat (.capture 1 (many1 isAny)) fromRe))) := rfl

/-- The query that `Parse` makes of the captures. -/
def queryOf (m : Captures) : Query where
  select := commaList (submatch m 1)
  fromSource := String.ofList (submatch m 2)
  whereCond := String.ofList (trimSpace (submatch m 3))
  groupBy := if trimSpace (submatch m 4) ≠ [] then commaList (submatch m 4) else []
  windowMs :=
    if trimSpace (submatch m 5) ≠ [] then
      windowLength (trimSpace (submatch m 5)) (trimSpace (submatch m 6))
    else 0

theorem parse_eq_ok {input : String} {q : Query} :
    parse input = .ok q ↔
      ∃ m, selectRe.find? (trimSpace input.toList) = some m ∧ queryOf m = q := by
  rw [parse]
  cases selectRe.find? (trimSpace input.toList) with
  | none => simp
  | some m =>
      constructor
      · intro h
        exact ⟨m, rfl, Except.ok.inj h⟩
      · rintro ⟨_, hm, rfl⟩
        obtain rfl := Option.some.inj hm
        rfl

theorem matches_endRe : endRe.Matches text ↔ ∀ c ∈ text, isBlank c := by
  simp only [endRe, matches_cat_many, matches_empty]
  constructor
  · rintro ⟨span, _, rfl, hspan, rfl⟩
    rwa [List.append_nil]
  · intro h
    exact ⟨text, [], (List.append_nil _).symm, h, rfl⟩

/-- A unit of the length of a window. -/
def IsUnit (u : List Char) : Prop := u = [] ∨ Spells "ms" u ∨ Spells "s" u

theorem matches_windowRe :
    windowRe.Matches text ↔ (∀ c ∈ text, isBlank c) ∨
      ∃ span digits unit b, text = span ++ (digits ++ (unit ++ b)) ∧ Heads ["window"] span ∧
        digits ≠ [] ∧ (∀ c ∈ digits, c.isDigit) ∧ IsUnit unit ∧ ∀ c ∈ b, isBlank c := by
  rw [windowRe, matches_cat_opt, matches_endRe, or_comm]
  refine or_congr_right ?_
  simp only [seq, List.foldr_cons, List.foldr_nil, matches_cat_cat, matches_cat_keyword,
    matches_cat_capture, matches_cat_many1, matches_cat_opt, matches_cat_alt, matches_cat_word,
    matches_cat_empty, matches_endRe]
  constructor
  · rintro ⟨span, _, rfl, hspan, digits, _, hne, rfl, hdigits, hunit⟩
    rcases hunit with (⟨unit, b, rfl, hunit, hb⟩ | ⟨unit, b, rfl, hunit, hb⟩) | hb
    · exact ⟨span, digits, unit, b, rfl, hspan, hne, hdigits, Or.inr (Or.inl hunit), hb⟩
    · exact ⟨span, digits, unit, b, rfl, hspan, hne, hdigits, Or.inr (Or.inr hunit), hb⟩
    · exact ⟨span, digits, [], _, rfl, hspan, hne, hdigits, Or.inl rfl, hb⟩
  · rintro ⟨span, digits, unit, b, rfl, hspan, hne, hdigits, hunit, hb⟩
    refine ⟨span, _, rfl, hspan, digits, _, hne, rfl, hdigits, ?_⟩
    rcases hunit with rfl | hunit | hunit
    · exact Or.inr hb
    · exact Or.inl (Or.inl ⟨unit, b, rfl, hunit, hb⟩)
    · exact Or.inl (Or.inr ⟨unit, b, rfl, hunit, hb⟩)

theorem exists_heads_of_matches {i : ℕ}
    (h : (Pattern.cat (.cat (keyword ws) (.capture i (many1Lazy isAny))) t).Matches text) :
    ∃ span rest, text = span ++ rest ∧ Heads ws span ∧ rest ≠ [] := by
  rw [matches_cat_cat, matches_cat_keyword] at h
  obtain ⟨span, _, rfl, hspan, h⟩ := h
  rw [matches_cat_capture, matches_cat_many1Lazy, matches_cat_many1] at h
  obtain ⟨mid, rest, hne, rfl, -, -⟩ := h
  exact ⟨span, mid ++ rest, rfl, hspan, List.append_ne_nil_of_left_ne_nil hne _⟩

/-- A text of one line that begins with the words of a clause and goes on can be matched. -/
theorem matches_cat_clause {i : ℕ} (ht : t.Matches []) (hspan : Heads ws span) (hne : rest ≠ [])
    (hrest : ∀ c ∈ rest, isAny c) :
    (Pattern.cat (.cat (keyword ws) (.capture i (many1Lazy isAny))) t).Matches (span ++ rest) := by
  refine matches_cat_cat.mpr (matches_cat_keyword.mpr ⟨span, rest, rfl, hspan, ?_⟩)
  refine matches_cat_capture.mpr (matches_cat_many1Lazy.mpr (matches_cat_many1.mpr ?_))
  exact ⟨rest, [], hne, (List.append_nil _).symm, hrest, ht⟩

/-- The match of a clause: its text ends where the rest can first be matched. -/
theorem Heads.find?_clause {i : ℕ} {body : List Char} (h : Heads ws span)
    (hws : ∀ w ∈ ws, IsWord w) (hbody : Shortest isAny t body rest) (hne : body ≠ [])
    (hhead : ∀ c ∈ body.head?, isBlank c = false) :
    (Pattern.cat (opt (.cat (keyword ws) (.capture i (many1Lazy isAny)))) t).find?
      (span ++ (body ++ rest)) = (t.find? rest).map ((i, body) :: ·) := by
  obtain ⟨m, hm⟩ := hbody.rest_matches.exists_find?
  have hcapture := hbody.find?_capture hne i
  rw [hm, Option.map_some] at hcapture
  rw [find?_cat_opt, find?_cat_cat, h.find?_cat hws (matches_of_find? hcapture), hcapture,
    Option.some_or, hm, Option.map_some]
  rwa [List.head?_append_of_ne_nil _ hne]

theorem find?_no_clause {i : ℕ} (h : ∀ span rest, text = span ++ rest → ¬ Heads ws span) :
    (Pattern.cat (opt (.cat (keyword ws) (.capture i (many1Lazy isAny)))) t).find? text =
      t.find? text := by
  have hnone :
      ¬ (Pattern.cat (.cat (keyword ws) (.capture i (many1Lazy isAny))) t).Matches text := by
    intro hmatch
    obtain ⟨span, rest, hsplit, hspan, -⟩ := exists_heads_of_matches hmatch
    exact h span rest hsplit hspan
  rw [find?_cat_opt, not_not.mp hnone, Option.none_or]

theorem matches_windowRe_nil : windowRe.Matches [] :=
  matches_windowRe.mpr (Or.inl (List.forall_mem_nil _))

theorem groupRe_cases (h : groupRe.Matches text) :
    (∃ span rest, text = span ++ rest ∧ Heads ["group", "by"] span ∧ rest ≠ []) ∨
      windowRe.Matches text :=
  (matches_cat_opt.mp h).imp_left exists_heads_of_matches

theorem matches_groupRe (hspan : Heads ["group", "by"] span) (hne : rest ≠ [])
    (hrest : ∀ c ∈ rest, isAny c) : groupRe.Matches (span ++ rest) :=
  matches_cat_opt.mpr (Or.inl (matches_cat_clause matches_windowRe_nil hspan hne hrest))

theorem matches_groupRe_of_windowRe (h : windowRe.Matches text) : groupRe.Matches text :=
  matches_cat_opt.mpr (Or.inr h)

theorem whereRe_cases (h : whereRe.Matches text) :
    (∃ span rest, text = span ++ rest ∧ Heads ["where"] span ∧ rest ≠ []) ∨
      groupRe.Matches text :=
  (matches_cat_opt.mp h).imp_left exists_heads_of_matches

theorem matches_whereRe (hspan : Heads ["where"] span) (hne : rest ≠ [])
    (hrest : ∀ c ∈ rest, isAny c) : whereRe.Matches (span ++ rest) :=
  matches_cat_opt.mpr (Or.inl (matches_cat_clause
    (matches_groupRe_of_windowRe matches_windowRe_nil) hspan hne hrest))

theorem matches_whereRe_of_groupRe (h : groupRe.Matches text) : whereRe.Matches text :=
  matches_cat_opt.mpr (Or.inr h)

/-- A character of the name of a source. -/
def isSource (c : Char) : Bool := isName c || c = '.'

theorem matches_fromRe :
    fromRe.Matches text ↔
      ∃ span source rest, text = span ++ (source ++ rest) ∧ Heads ["from"] span ∧ source ≠ [] ∧
        (∀ c ∈ source, isSource c) ∧ whereRe.Matches rest := by
  simp only [fromRe, matches_cat_keyword, matches_cat_capture, matches_cat_many1]
  constructor
  · rintro ⟨span, _, rfl, hspan, source, rest, hne, rfl, hsource, hrest⟩
    exact ⟨span, source, rest, rfl, hspan, hne, hsource, hrest⟩
  · rintro ⟨span, source, rest, rfl, hspan, hne, hsource, hrest⟩
    exact ⟨span, _, rfl, hspan, source, rest, hne, rfl, hsource, hrest⟩

/-! ### The first word of a text -/

/-- The text is over or goes on with a blank. -/
def Ends (text : List Char) : Prop := ∀ c ∈ text.head?, isBlank c

/-- A part without blanks. -/
def Solid (u : List Char) : Prop := u ≠ [] ∧ ∀ c ∈ u, isBlank c = false

instance (u : List Char) : Decidable (Solid u) := inferInstanceAs (Decidable (_ ∧ _))

theorem ends_cons {c : Char} (h : isBlank c) (text : List Char) : Ends (c :: text) := by
  intro d hd
  rwa [← Option.some.inj hd]

theorem ends_nil : Ends [] := fun _ hc => absurd hc (Option.not_mem_none _)


theorem append_inj_of_head? {p : Char → Bool} {s s' t t' : List Char} (hs : ∀ c ∈ s, p c)
    (hs' : ∀ c ∈ s', p c) (ht : ∀ c ∈ t.head?, p c = false) (ht' : ∀ c ∈ t'.head?, p c = false)
    (h : s ++ t = s' ++ t') : s = s' ∧ t = t' := by
  have htake : ∀ {s t : List Char}, (∀ c ∈ s, p c) → (∀ c ∈ t.head?, p c = false) →
      (s ++ t).takeWhile p = s := by
    intro s t hs ht
    rw [List.takeWhile_append_of_pos hs]
    cases t with
    | nil => simp
    | cons c t => simp [ht c rfl]
  have hspan : s = s' := by rw [← htake hs ht, h, htake hs' ht']
  subst hspan
  exact ⟨rfl, List.append_cancel_left h⟩

theorem Heads.ends (h : Heads ws span) (rest : List Char) : Ends (span ++ rest) := by
  have hblanks : ∀ {b : List Char}, Blanks b → ∀ rest, Ends (b ++ rest) := by
    intro b hb rest c hc
    rw [List.head?_append_of_ne_nil _ hb.1] at hc
    exact hb.2 c (List.mem_of_mem_head? hc)
  cases ws with
  | nil => exact hblanks h rest
  | cons w ws =>
      obtain ⟨b, u, tail, rfl, hb, -, -⟩ := h
      rw [List.append_assoc]
      exact hblanks hb _

/-- The blanks and the word at the beginning of a text are determined. -/
theorem words_inj {b b' u u' v v' : List Char} (hb : Blanks b) (hb' : Blanks b') (hu : Solid u)
    (hu' : Solid u') (hv : Ends v) (hv' : Ends v') (h : b ++ (u ++ v) = b' ++ (u' ++ v')) :
    b = b' ∧ u = u' ∧ v = v' := by
  have hsolid : ∀ {u v : List Char}, Solid u → ∀ c ∈ (u ++ v).head?, isBlank c = false := by
    intro u v hu c hc
    rw [List.head?_append_of_ne_nil _ hu.1] at hc
    exact hu.2 c (List.mem_of_mem_head? hc)
  have hends : ∀ {v : List Char}, Ends v → ∀ c ∈ v.head?, (!isBlank c) = false :=
    fun hv c hc => by rw [hv c hc, Bool.not_true]
  obtain ⟨hblanks, hrest⟩ := append_inj_of_head? hb.2 hb'.2 (hsolid hu) (hsolid hu') h
  refine ⟨hblanks,
    append_inj_of_head? (p := fun c => !isBlank c) ?_ ?_ (hends hv) (hends hv') hrest⟩
  · exact fun c hc => by rw [hu.2 c hc, Bool.not_false]
  · exact fun c hc => by rw [hu'.2 c hc, Bool.not_false]

theorem IsWord.solid {u : List Char} (hw : IsWord w) (hu : Spells w u) : Solid u :=
  ⟨hw.ne_nil hu, hw.isBlank hu⟩

/-- The first word of a text is the first keyword. -/
theorem Heads.cons_inv {b u v : List Char} (h : Heads (w :: ws) span) (hw : IsWord w)
    (hsplit : b ++ (u ++ v) = span ++ rest) (hb : Blanks b) (hu : Solid u) (hv : Ends v) :
    Spells w u ∧ ∃ span', Heads ws span' ∧ v = span' ++ rest := by
  obtain ⟨b', u', tail, rfl, hb', hu', htail⟩ := h
  rw [List.append_assoc, List.append_assoc] at hsplit
  obtain ⟨rfl, rfl, rfl⟩ :=
    words_inj hb hb' hu (hw.solid hu') hv (htail.ends rest) hsplit
  exact ⟨hu', tail, htail, rfl⟩

/-- What comes after one blank is a blank or the beginning of the word. -/
theorem Blanks.second {b u v : List Char} {c : Char} (hb : Blanks b) (hu : u ≠ [])
    (h : ' ' :: c :: text = b ++ (u ++ v)) : isBlank c ∨ c ∈ u := by
  obtain ⟨hne, hb⟩ := hb
  cases b with
  | nil => exact absurd rfl hne
  | cons d b =>
      obtain ⟨-, h⟩ := List.cons.inj h
      cases b with
      | nil =>
          cases u with
          | nil => exact absurd rfl hu
          | cons e u =>
              rw [(List.cons.inj h).1]
              exact Or.inr List.mem_cons_self
      | cons e b =>
          rw [(List.cons.inj h).1]
          exact Or.inl (hb e (List.mem_cons_of_mem _ List.mem_cons_self))

theorem Heads.second {c : Char} (h : Heads (w :: ws) span) (hw : IsWord w)
    (hsplit : ' ' :: c :: text = span ++ rest) : isBlank c ∨ isLetter c := by
  obtain ⟨b, u, tail, rfl, hb, hu, -⟩ := h
  rw [List.append_assoc, List.append_assoc] at hsplit
  exact (hb.second (hw.ne_nil hu) hsplit).imp_right (hw.isLetter hu c)

end StreamFlow.Streamql
