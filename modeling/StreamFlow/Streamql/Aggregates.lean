import StreamFlow.Streamql.Clauses
import StreamFlow.Streamql.Executor

/-!
# What an aggregate is

`Planify` takes a select item for an aggregate by the letters it begins with; `BuildOperators` takes
the ones of these that match an expression. Both look for a function before a parenthesis. The first
allows no blanks there and does not look at what follows, the second allows blanks and
looks. So they agree on an item with a function and a parenthesis if and only if it has no
blanks before the parenthesis exactly when its argument is complete.
-/

namespace StreamFlow.Streamql

open Pattern GoStrings Processor

variable {text rest b b' f : List Char}

/-- The name of a function in any case. -/
def IsFunction (f : List Char) : Prop := Spells "sum" f ∨ Spells "avg" f ∨ Spells "count" f

/-- The rest of the expression of an aggregate after the opening parenthesis. -/
def argumentRe : Pattern :=
  seq [
    .many isBlank, .capture 2 (many1 fun c => isName c || c = '*'), .many isBlank, lit ')',
    .many isBlank, opt (seq [word "as", many1 isBlank, .capture 3 (many1 isName)]), .many isBlank]

/-- A text that begins with a function and an opening parenthesis, with blanks around the
function. -/
structure Calls (text b f b' rest : List Char) : Prop where
  eq : text = b ++ (f ++ (b' ++ '(' :: rest))
  blanks : ∀ c ∈ b, isBlank c
  function : IsFunction f
  blanks' : ∀ c ∈ b', isBlank c

theorem IsFunction.isLetter (h : IsFunction f) : ∀ c ∈ f, isLetter c := by
  rcases h with h | h | h
  · exact IsWord.isLetter (by decide) h
  · exact IsWord.isLetter (by decide) h
  · exact IsWord.isLetter (by decide) h

theorem IsFunction.ne_nil (h : IsFunction f) : f ≠ [] := by
  rcases h with h | h | h
  · exact IsWord.ne_nil (by decide) h
  · exact IsWord.ne_nil (by decide) h
  · exact IsWord.ne_nil (by decide) h

theorem isLetter_eq_false_of_isBlank {c : Char} (h : isBlank c) : isLetter c = false := by
  by_contra hletter
  rw [Bool.not_eq_false] at hletter
  rw [isBlank_eq_false_of_isName (isName_of_isLetter hletter)] at h
  cases h

/-- The parts of a call are determined. -/
theorem Calls.inj {b₁ f₁ b₁' rest₁ : List Char} (h : Calls text b f b' rest)
    (h₁ : Calls text b₁ f₁ b₁' rest₁) : b = b₁ ∧ f = f₁ ∧ b' = b₁' ∧ rest = rest₁ := by
  have hhead : ∀ {f : List Char}, IsFunction f → ∀ rest, ∀ c ∈ (f ++ rest).head?,
      isBlank c = false := by
    intro f hf rest c hc
    rw [List.head?_append_of_ne_nil _ hf.ne_nil] at hc
    exact isBlank_eq_false_of_isName (isName_of_isLetter (hf.isLetter c (List.mem_of_mem_head? hc)))
  have hletter : ∀ {b : List Char}, (∀ c ∈ b, isBlank c) → ∀ rest, ∀ c ∈ (b ++ '(' :: rest).head?,
      isLetter c = false := by
    intro b hb rest c hc
    cases b with
    | nil =>
        obtain rfl : '(' = c := Option.some.inj hc
        decide
    | cons d b =>
        obtain rfl : d = c := Option.some.inj hc
        exact isLetter_eq_false_of_isBlank (hb d List.mem_cons_self)
  have hparen : ∀ rest : List Char, ∀ c ∈ ('(' :: rest).head?, isBlank c = false := by
    intro rest c hc
    obtain rfl : '(' = c := Option.some.inj hc
    decide
  obtain ⟨hb, hrest⟩ := append_inj_of_head? h.blanks h₁.blanks (hhead h.function _)
    (hhead h₁.function _) (h.eq.symm.trans h₁.eq)
  obtain ⟨hf, hrest⟩ := append_inj_of_head? h.function.isLetter h₁.function.isLetter
    (hletter h.blanks' _) (hletter h₁.blanks' _) hrest
  obtain ⟨hb', hrest⟩ := append_inj_of_head? h.blanks' h₁.blanks' (hparen _) (hparen _) hrest
  exact ⟨hb, hf, hb', (List.cons.inj hrest).2⟩

theorem matches_cat_function {t : Pattern} :
    (Pattern.cat (.capture 1 (.alt (word "sum") (.alt (word "avg") (word "count")))) t).Matches
        text ↔
      ∃ f rest, text = f ++ rest ∧ IsFunction f ∧ t.Matches rest := by
  simp only [matches_cat_capture, matches_cat_alt, matches_cat_word]
  constructor
  · rintro (⟨f, rest, htext, hf, hrest⟩ | ⟨f, rest, htext, hf, hrest⟩ | ⟨f, rest, htext, hf, hrest⟩)
    · exact ⟨f, rest, htext, Or.inl hf, hrest⟩
    · exact ⟨f, rest, htext, Or.inr (Or.inl hf), hrest⟩
    · exact ⟨f, rest, htext, Or.inr (Or.inr hf), hrest⟩
  · rintro ⟨f, rest, htext, hf | hf | hf, hrest⟩
    · exact Or.inl ⟨f, rest, htext, hf, hrest⟩
    · exact Or.inr (Or.inl ⟨f, rest, htext, hf, hrest⟩)
    · exact Or.inr (Or.inr ⟨f, rest, htext, hf, hrest⟩)

theorem matches_aggregateRe :
    aggregateRe.Matches text ↔ ∃ b f b' rest, Calls text b f b' rest ∧ argumentRe.Matches rest := by
  have hsplit : aggregateRe = .cat (.many isBlank) (.cat (.capture 1 (.alt (word "sum")
      (.alt (word "avg") (word "count")))) (.cat (.many isBlank) (.cat (lit '(') argumentRe))) :=
    rfl
  simp only [hsplit, matches_cat_many, matches_cat_function, lit, matches_cat_char,
    decide_eq_true_eq]
  constructor
  · rintro ⟨b, _, rfl, hb, f, _, rfl, hf, b', _, rfl, hb', _, rest, rfl, rfl, hrest⟩
    exact ⟨b, f, b', rest, ⟨rfl, hb, hf, hb'⟩, hrest⟩
  · rintro ⟨b, f, b', rest, ⟨rfl, hb, hf, hb'⟩, hrest⟩
    exact ⟨b, _, rfl, hb, f, _, rfl, hf, b', _, rfl, hb', '(', rest, rfl, rfl, hrest⟩

/-! ### The beginning of an item -/

theorem isFold_of_toLower_eq {c : Char} (hc : c.toLower.isLower) :
    isFold c.toLower c ∧ c ≠ '\u017f' := by
  revert hc
  refine forall_capital (P := fun c => c.toLower.isLower → isFold c.toLower c ∧ c ≠ '\u017f')
    (by decide) (fun c hc hlower => ?_) c
  rw [toLower_eq_self hc] at hlower ⊢
  refine ⟨by simp [isFold], ?_⟩
  rintro rfl
  exact absurd hlower (by decide)

theorem toLower_eq_iff {c d : Char} (hd : d.isLower) (hk : d ≠ 'k') :
    c.toLower = d ↔ isFold d c ∧ c ≠ '\u017f' := by
  constructor
  · rintro rfl
    exact isFold_of_toLower_eq hd
  · rintro ⟨hfold, hs⟩
    have hall : ∀ k < 26, (Char.ofNat (97 + k)).toLower = Char.ofNat (97 + k) ∧
        (Char.ofNat (97 + k)).toUpper.toLower = Char.ofNat (97 + k) := by decide
    obtain ⟨hge, hle⟩ := isLower_iff_toNat.mp hd
    have hletter := hall (d.toNat - 97) (by omega)
    rw [Nat.add_sub_cancel' hge, Char.ofNat_toNat] at hletter
    simp only [isFold, Bool.or_eq_true, Bool.and_eq_true, decide_eq_true_eq] at hfold
    rcases hfold with ((rfl | rfl) | ⟨-, rfl⟩) | ⟨rfl, -⟩
    · exact hletter.1
    · exact hletter.2
    · exact absurd rfl hs
    · exact absurd rfl hk

theorem map_toLower_eq_iff {w : String} (hw : ∀ d ∈ w.toList, d.isLower ∧ d ≠ 'k') :
    toLower f = w.toList ↔ Spells w f ∧ '\u017f' ∉ f := by
  unfold toLower Spells
  generalize w.toList = letters at hw
  induction f generalizing letters with
  | nil =>
      cases letters with
      | nil => simp
      | cons d ds => simp
  | cons c f ih =>
      cases letters with
      | nil => simp
      | cons d ds =>
          obtain ⟨⟨hd, hk⟩, hds⟩ := List.forall_mem_cons.mp hw
          rw [List.map_cons, List.cons.injEq, toLower_eq_iff hd hk, ih ds hds,
            List.forall₂_cons, List.mem_cons, not_or]
          tauto

theorem toLower_eq_paren_iff {c : Char} : c.toLower = '(' ↔ c = '(' := by
  refine forall_capital (P := fun c => c.toLower = '(' ↔ c = '(') (by decide) (fun c hc => ?_) c
  rw [toLower_eq_self hc]

theorem isPrefixOf_toLower_iff {w : String} (hw : ∀ d ∈ w.toList, d.isLower ∧ d ≠ 'k') :
    (w.toList ++ ['(']).isPrefixOf (toLower text) ↔
      ∃ f rest, text = f ++ '(' :: rest ∧ Spells w f ∧ '\u017f' ∉ f := by
  rw [List.isPrefixOf_iff_prefix]
  constructor
  · rintro ⟨tail, htail⟩
    rw [List.append_assoc] at htail
    obtain ⟨f, rest, rfl, hf, hrest⟩ := List.map_eq_append_iff.mp htail.symm
    obtain ⟨c, rest, rfl, hc, -⟩ := List.map_eq_cons_iff.mp hrest
    obtain rfl := toLower_eq_paren_iff.mp hc
    exact ⟨f, rest, rfl, (map_toLower_eq_iff hw).mp hf⟩
  · rintro ⟨f, rest, rfl, hf⟩
    refine ⟨toLower rest, ?_⟩
    have hmap : toLower (f ++ '(' :: rest) = toLower f ++ '(' :: toLower rest := by
      rw [toLower, List.map_append]
      rfl
    rw [hmap, (map_toLower_eq_iff hw).mpr hf, List.append_assoc]
    rfl

theorem isAggregate_iff {item : String} :
    isAggregate item ↔
      ∃ f rest, item.toList = f ++ '(' :: rest ∧ IsFunction f ∧ '\u017f' ∉ f := by
  have hsplit : isAggregate item =
      (("count".toList ++ ['(']).isPrefixOf (toLower item.toList) ||
        ("sum".toList ++ ['(']).isPrefixOf (toLower item.toList) ||
        ("avg".toList ++ ['(']).isPrefixOf (toLower item.toList)) := rfl
  rw [hsplit, Bool.or_eq_true, Bool.or_eq_true, isPrefixOf_toLower_iff (by decide),
    isPrefixOf_toLower_iff (by decide), isPrefixOf_toLower_iff (by decide)]
  constructor
  · rintro ((⟨f, rest, htext, hf, hs⟩ | ⟨f, rest, htext, hf, hs⟩) | ⟨f, rest, htext, hf, hs⟩)
    · exact ⟨f, rest, htext, Or.inr (Or.inr hf), hs⟩
    · exact ⟨f, rest, htext, Or.inl hf, hs⟩
    · exact ⟨f, rest, htext, Or.inr (Or.inl hf), hs⟩
  · rintro ⟨f, rest, htext, hf | hf | hf, hs⟩
    · exact Or.inl (Or.inr ⟨f, rest, htext, hf, hs⟩)
    · exact Or.inr ⟨f, rest, htext, hf, hs⟩
    · exact Or.inl (Or.inl ⟨f, rest, htext, hf, hs⟩)

/-- **Planner and executor**: they agree on a select item if and only if, where it begins with a
function and a parenthesis, it has no blanks before the parenthesis (and no long s) exactly when a
complete argument follows. -/
theorem mem_aggregates_iff_isSome {q : Query} {item : String} (h : item ∈ q.select) :
    (item ∈ (planify q).aggregates ↔ (aggSpec? item).isSome) ↔
      ∀ b f b' rest, Calls item.toList b f b' rest →
        ((b = [] ∧ b' = [] ∧ '\u017f' ∉ f) ↔ argumentRe.Matches rest) := by
  have hplan : item ∈ (planify q).aggregates ↔ isAggregate item := by
    rw [planify, List.mem_filter]
    exact and_iff_right h
  have hspec : (aggSpec? item).isSome ↔ aggregateRe.Matches item.toList := by
    rw [aggSpec?, Option.isSome_map, Matches, Option.isSome_iff_ne_none]
  rw [hplan, hspec, isAggregate_iff, matches_aggregateRe]
  constructor
  · intro hagree b f b' rest hcall
    have hplain : (∃ f rest, item.toList = f ++ '(' :: rest ∧ IsFunction f ∧ '\u017f' ∉ f) ↔
        b = [] ∧ b' = [] ∧ '\u017f' ∉ f := by
      constructor
      · rintro ⟨f₁, rest₁, htext, hf, hs⟩
        have hcall₁ : Calls item.toList [] f₁ [] rest₁ :=
          ⟨htext, List.forall_mem_nil _, hf, List.forall_mem_nil _⟩
        obtain ⟨rfl, rfl, rfl, -⟩ := hcall.inj hcall₁
        exact ⟨rfl, rfl, hs⟩
      · rintro ⟨rfl, rfl, hs⟩
        exact ⟨f, rest, hcall.eq, hcall.function, hs⟩
    rw [← hplain, hagree]
    constructor
    · rintro ⟨b₁, f₁, b₁', rest₁, hcall₁, hrest⟩
      obtain ⟨-, -, -, rfl⟩ := hcall.inj hcall₁
      exact hrest
    · exact fun hrest => ⟨b, f, b', rest, hcall, hrest⟩
  · intro hcalls
    constructor
    · rintro ⟨f, rest, htext, hf, hs⟩
      have hcall : Calls item.toList [] f [] rest :=
        ⟨htext, List.forall_mem_nil _, hf, List.forall_mem_nil _⟩
      exact ⟨[], f, [], rest, hcall, (hcalls _ _ _ _ hcall).mp ⟨rfl, rfl, hs⟩⟩
    · rintro ⟨b, f, b', rest, hcall, hrest⟩
      obtain ⟨rfl, rfl, hs⟩ := (hcalls _ _ _ _ hcall).mpr hrest
      exact ⟨f, rest, hcall.eq, hcall.function, hs⟩

theorem mem_aggregates_sum :
    "SUM(x)" ∈ (⟨["SUM(x)"], "s", "", ["g"], 0⟩ : Query).select ∧
      (("SUM(x)" ∈ (planify ⟨["SUM(x)"], "s", "", ["g"], 0⟩).aggregates ↔
          (aggSpec? "SUM(x)").isSome) ↔
        ∀ b f b' rest, Calls "SUM(x)".toList b f b' rest →
          ((b = [] ∧ b' = [] ∧ '\u017f' ∉ f) ↔ argumentRe.Matches rest)) :=
  ⟨List.mem_singleton.mpr rfl, mem_aggregates_iff_isSome (List.mem_singleton.mpr rfl)⟩

/-- A count with a blank before its parenthesis is no aggregate of the plan, and a sum of two fields
is one that is dropped. -/
theorem aggregates_disagree :
    parse "SELECT COUNT (x), SUM(a+b) FROM s GROUP BY g" =
        .ok ⟨["COUNT (x)", "SUM(a+b)"], "s", "", ["g"], 0⟩ ∧
      (planify ⟨["COUNT (x)", "SUM(a+b)"], "s", "", ["g"], 0⟩).aggregates = ["SUM(a+b)"] ∧
      aggSpec? "COUNT (x)" = some ⟨"count", "x", ""⟩ ∧ aggSpec? "SUM(a+b)" = none := by
  decide +kernel

end StreamFlow.Streamql
