import StreamFlow.Streamql.Clauses

/-!
# Queries of the grammar

The queries of the grammar with identifiers only, and their texts. `Parse` finds the clauses of a
text by where their keywords stand, so what has to be known of a text is where no clause begins: not
within a word, not at a word that is no keyword, and within the literal of a condition only at the
keywords that it holds itself.
-/

namespace StreamFlow.Streamql

open Pattern GoStrings

/-! ### Queries and their texts -/

/-- `IDENT` of the grammar. -/
def isIdent : List Char → Bool
  | [] => false
  | c :: cs => (c.isAlpha || c = '_') && cs.all fun d => d.isAlphanum || d = '_'

abbrev Ident := {name : List Char // isIdent name}

/-- The text of a `STRING` of the grammar. -/
abbrev Literal := {text : List Char // ∀ c ∈ text, c ≠ '\x27' ∧ c ≠ '\r' ∧ c ≠ '\n'}

/-- A query of the grammar, with fields for its select list. -/
structure Statement where
  select : List Ident
  select_ne_nil : select ≠ []
  source : Ident
  condition : Option (Ident × Literal)
  groupBy : List Ident
  window : Option {n : ℕ // n < 2 ^ 63}

namespace Statement

def fieldList (fs : List Ident) : List Char := [',', ' '].intercalate (fs.map Subtype.val)

def conditionText (f : Ident) (s : Literal) : List Char :=
  f.1 ++ (" = \x27".toList ++ (s.1 ++ ['\x27']))

def whereText : Option (Ident × Literal) → List Char
  | none => []
  | some (f, s) => " WHERE ".toList ++ conditionText f s

def groupText : List Ident → List Char
  | [] => []
  | g :: gs => " GROUP BY ".toList ++ fieldList (g :: gs)

def windowText : Option {n : ℕ // n < 2 ^ 63} → List Char
  | none => []
  | some n => " WINDOW ".toList ++ (Nat.toDigits 10 n.1 ++ ['m', 's'])

/-- What follows the source. -/
def clauses (q : Statement) : List Char :=
  whereText q.condition ++ (groupText q.groupBy ++ windowText q.window)

/-- What follows the select list. -/
def fromText (q : Statement) : List Char := " FROM ".toList ++ (q.source.1 ++ q.clauses)

def text (q : Statement) : List Char := "SELECT ".toList ++ (fieldList q.select ++ q.fromText)

def render (q : Statement) : String := String.ofList q.text

def toQuery (q : Statement) : Query where
  select := q.select.map fun f => String.ofList f.1
  fromSource := String.ofList q.source.1
  whereCond := (q.condition.map fun c => String.ofList (conditionText c.1 c.2)).getD ""
  groupBy := q.groupBy.map fun g => String.ofList g.1
  windowMs := (q.window.map fun n => (n.1 : ℤ)).getD 0

end Statement

/-- A part of the text matches the pattern. -/
def Contains (r : Pattern) (text : List Char) : Prop := ∃ part, part <:+: text ∧ r.Matches part

/-- `FROM`, a source and `WHERE`, between blanks. -/
def fromWhereRe : Pattern := seq [keyword ["from"], many1 isSource, keyword ["where"]]

/-- No keyword is found where it does not stand. -/
def Statement.Unmistakable (q : Statement) : Prop :=
  ∀ f s, q.condition = some (f, s) →
    ¬ Contains (keyword ["group", "by"]) s.1 ∧ ¬ Contains fromWhereRe s.1 ∧
      ¬ (Spells "from" q.source.1 ∧ Spells "where" f.1)

/-! ### Characters -/

variable {c : Char}

theorem isName_of_isIdent {name : List Char} (h : isIdent name) : ∀ c ∈ name, isName c := by
  have hname : ∀ c : Char, c.isAlpha ∨ c.isDigit ∨ c = '_' → isName c := by
    intro c hc
    rcases hc with hc | hc | rfl
    · simp [isName, isLetter, hc]
    · simp [isName, hc]
    · decide
  cases name with
  | nil => exact List.forall_mem_nil _
  | cons d ds =>
      simp only [isIdent, Bool.and_eq_true, Bool.or_eq_true, decide_eq_true_eq, List.all_eq_true,
        Char.isAlphanum] at h
      obtain ⟨hd, hds⟩ := h
      refine List.forall_mem_cons.mpr ⟨hname d (hd.imp_right Or.inr), fun c hc => hname c ?_⟩
      exact or_assoc.mp (hds c hc)

theorem Ident.ne_nil (f : Ident) : f.1 ≠ [] := by
  obtain ⟨name, hname⟩ := f
  rintro rfl
  cases hname

theorem Ident.solid (f : Ident) : Solid f.1 :=
  ⟨f.ne_nil, fun c hc => isBlank_eq_false_of_isName (isName_of_isIdent f.2 c hc)⟩

theorem isAny_of_isName (h : isName c) : isAny c :=
  forall_isName (P := fun c => isAny c) (by decide) (by decide) (by decide) h

/-! ### Where no clause begins -/

variable {r : Pattern} {piece piece' cont u v : List Char}

/-- A match begins with a blank. -/
def Led (r : Pattern) : Prop := ∀ c text, r.Matches (c :: text) → isBlank c

/-- No match begins within the piece. -/
def Avoids (r : Pattern) (piece cont : List Char) : Prop :=
  ∀ less more, piece = less ++ more → more ≠ [] → ¬ r.Matches (more ++ cont)

theorem Avoids.append (h : Avoids r piece (piece' ++ cont)) (h' : Avoids r piece' cont) :
    Avoids r (piece ++ piece') cont := by
  intro less more hsplit hne hmatch
  rcases List.append_eq_append_iff.mp hsplit with ⟨mid, rfl, rfl⟩ | ⟨mid, rfl, rfl⟩
  · exact h' mid more rfl hne hmatch
  · rw [List.append_assoc] at hmatch
    cases mid with
    | nil => exact h' [] piece' rfl hne hmatch
    | cons d mid => exact h less (d :: mid) rfl (List.cons_ne_nil _ _) hmatch

theorem avoids_cons (h : ¬ r.Matches (c :: (piece ++ cont))) (h' : Avoids r piece cont) :
    Avoids r (c :: piece) cont := by
  intro less more hsplit hne hmatch
  cases less with
  | nil =>
      obtain rfl : c :: piece = more := hsplit
      exact h hmatch
  | cons d less => exact h' less more (List.cons.inj hsplit).2 hne hmatch

theorem avoids_nil : Avoids r [] cont :=
  fun _ _ hsplit hne => absurd (List.append_eq_nil_iff.mp hsplit.symm).2 hne

theorem Led.avoids (hr : Led r) (hpiece : ∀ c ∈ piece, isBlank c = false) :
    Avoids r piece cont := by
  rintro less more rfl hne hmatch
  cases more with
  | nil => exact hne rfl
  | cons d more =>
      have hd := hpiece d (List.mem_append_right _ List.mem_cons_self)
      rw [hr d _ hmatch] at hd
      cases hd

theorem Led.avoids_word (hr : Led r) (hu : ∀ c ∈ u, isBlank c = false)
    (h : ¬ r.Matches (' ' :: (u ++ cont))) : Avoids r (' ' :: u) cont :=
  avoids_cons h (hr.avoids hu)

/-- A match has only blanks or begins with a word between blanks. -/
def Opens (r : Pattern) : Prop :=
  ∀ text, r.Matches text → (∀ c ∈ text, isBlank c) ∨
    ∃ w ws span rest, IsWord w ∧ Heads (w :: ws) span ∧ text = span ++ rest

theorem opens_windowRe : Opens windowRe := by
  intro text h
  refine (matches_windowRe.mp h).imp_right ?_
  rintro ⟨span, digits, unit, b, hsplit, hspan, -⟩
  exact ⟨"window", [], span, _, by decide, hspan, hsplit⟩

theorem opens_groupRe : Opens groupRe := by
  intro text h
  rcases groupRe_cases h with ⟨span, rest, hsplit, hspan, -⟩ | hwindow
  · exact Or.inr ⟨"group", ["by"], span, rest, by decide, hspan, hsplit⟩
  · exact opens_windowRe text hwindow

theorem opens_whereRe : Opens whereRe := by
  intro text h
  rcases whereRe_cases h with ⟨span, rest, hsplit, hspan, -⟩ | hgroup
  · exact Or.inr ⟨"where", [], span, rest, by decide, hspan, hsplit⟩
  · exact opens_groupRe text hgroup

theorem opens_fromRe : Opens fromRe := by
  intro text h
  obtain ⟨span, source, rest, hsplit, hspan, -⟩ := matches_fromRe.mp h
  exact Or.inr ⟨"from", [], span, _, by decide, hspan, hsplit⟩

theorem Opens.led (hr : Opens r) : Led r := by
  intro c text h
  rcases hr _ h with hblank | ⟨w, ws, span, rest, -, hspan, hsplit⟩
  · exact hblank c List.mem_cons_self
  · exact hspan.ends rest c (by rw [← hsplit]; rfl)

/-- What follows a blank is not a sign or a digit. -/
theorem Opens.second {text : List Char} (hr : Opens r) (h : r.Matches (' ' :: c :: text)) :
    isBlank c ∨ isLetter c := by
  rcases hr _ h with hblank | ⟨w, ws, span, rest, hw, hspan, hsplit⟩
  · exact Or.inl (hblank c (List.mem_cons_of_mem _ List.mem_cons_self))
  · exact hspan.second hw hsplit

theorem Led.ends (hr : Led r) (h : r.Matches v) : Ends v := by
  cases v with
  | nil => exact ends_nil
  | cons c v => exact ends_cons (hr c v h) v

/-- The clauses that can begin with a word. -/
theorem windowRe_word (h : windowRe.Matches (' ' :: (u ++ v))) (hu : Solid u) (hv : Ends v) :
    Spells "window" u ∧ ∃ b digits rest, v = b ++ (digits ++ rest) ∧ Blanks b ∧ digits ≠ [] ∧
      ∀ c ∈ digits, c.isDigit := by
  rcases matches_windowRe.mp h with hblank | ⟨span, digits, unit, b, hsplit, hspan, hne, hdigits, -⟩
  · obtain ⟨c, hc⟩ := List.exists_mem_of_ne_nil u hu.1
    have hsolid := hu.2 c hc
    rw [hblank c (List.mem_cons_of_mem _ (List.mem_append_left _ hc))] at hsolid
    cases hsolid
  · obtain ⟨hword, b', hb', rfl⟩ :=
      hspan.cons_inv (b := [' ']) (by decide) hsplit blanks_space hu hv
    exact ⟨hword, b', digits, unit ++ b, rfl, hb', hne, hdigits⟩

theorem groupRe_word (h : groupRe.Matches (' ' :: (u ++ v))) (hu : Solid u) (hv : Ends v) :
    (Spells "group" u ∧ ∃ span rest, v = span ++ rest ∧ Heads ["by"] span ∧ rest ≠ []) ∨
      windowRe.Matches (' ' :: (u ++ v)) := by
  refine (groupRe_cases h).imp_left ?_
  rintro ⟨span, rest, hsplit, hspan, hne⟩
  obtain ⟨hword, span', hspan', hv'⟩ :=
    hspan.cons_inv (b := [' ']) (by decide) hsplit blanks_space hu hv
  exact ⟨hword, span', rest, hv', hspan', hne⟩

theorem whereRe_word (h : whereRe.Matches (' ' :: (u ++ v))) (hu : Solid u) (hv : Ends v) :
    Spells "where" u ∨ groupRe.Matches (' ' :: (u ++ v)) := by
  refine (whereRe_cases h).imp_left ?_
  rintro ⟨span, rest, hsplit, hspan, hne⟩
  exact (hspan.cons_inv (b := [' ']) (by decide) hsplit blanks_space hu hv).1

theorem fromRe_word (h : fromRe.Matches (' ' :: (u ++ v))) (hu : Solid u) (hv : Ends v) :
    Spells "from" u ∧ ∃ b source rest, v = b ++ (source ++ rest) ∧ Blanks b ∧ source ≠ [] ∧
      (∀ c ∈ source, isSource c) ∧ whereRe.Matches rest := by
  obtain ⟨span, source, rest, hsplit, hspan, hne, hsource, hrest⟩ := matches_fromRe.mp h
  obtain ⟨hword, b, hb, rfl⟩ := hspan.cons_inv (b := [' ']) (by decide) hsplit blanks_space hu hv
  exact ⟨hword, b, source, rest, rfl, hb, hne, hsource, hrest⟩

namespace Statement

variable {q : Statement} {f g : Ident} {s : Literal} {gs : List Ident}
  {n : Option {n : ℕ // n < 2 ^ 63}}

/-! ### The pieces of a rendered query -/

theorem fromText_eq : q.fromText = ' ' :: ("FROM".toList ++ (' ' :: q.source.1 ++ q.clauses)) := rfl

theorem windowText_some (n : {n : ℕ // n < 2 ^ 63}) :
    windowText (some n) =
      ' ' :: ("WINDOW".toList ++ ' ' :: (Nat.toDigits 10 n.1 ++ ['m', 's'])) := rfl

theorem groupText_cons (g : Ident) (gs : List Ident) :
    groupText (g :: gs) =
      ' ' :: ("GROUP".toList ++ ' ' :: ("BY".toList ++ ' ' :: fieldList (g :: gs))) := rfl

theorem fieldList_singleton (g : Ident) : fieldList [g] = g.1 := by simp [fieldList]

theorem fieldList_cons_cons (g g' : Ident) (gs : List Ident) :
    fieldList (g :: g' :: gs) = g.1 ++ (',' :: ' ' :: fieldList (g' :: gs)) := rfl

theorem conditionText_eq (f : Ident) (s : Literal) :
    conditionText f s = f.1 ++ (' ' :: '=' :: ' ' :: '\x27' :: (s.1 ++ ['\x27'])) := rfl

theorem whereText_none : whereText none = [] := rfl

theorem whereText_some (f : Ident) (s : Literal) :
    whereText (some (f, s)) = ' ' :: ("WHERE".toList ++ ' ' :: conditionText f s) := rfl

theorem ends_windowText : Ends (windowText n) := by
  cases n with
  | none => exact ends_nil
  | some n => exact ends_cons (by decide) _

theorem ends_groupText : Ends (groupText gs ++ windowText n) := by
  cases gs with
  | nil => exact ends_windowText
  | cons g gs => exact ends_cons (by decide) _

theorem ends_clauses : Ends q.clauses := by
  unfold clauses
  cases q.condition with
  | none => exact ends_groupText
  | some c => exact ends_cons (by decide) _

theorem isDigit_toDigits (n : ℕ) : ∀ c ∈ Nat.toDigits 10 n, c.isDigit :=
  fun _ hc => Nat.isDigit_of_mem_toDigits (by decide) (by decide) hc

theorem isName_of_isDigit (h : c.isDigit) : isName c := by simp [isName, h]

theorem isBlank_length (n : ℕ) : ∀ c ∈ Nat.toDigits 10 n ++ ['m', 's'], isBlank c = false := by
  intro c hc
  rcases List.mem_append.mp hc with hc | hc
  · exact isBlank_eq_false_of_isName (isName_of_isDigit (isDigit_toDigits n c hc))
  · have hunit : ∀ c ∈ ['m', 's'], isBlank c = false := by decide
    exact hunit c hc

/-- No clause begins with the length of a window. -/
theorem not_matches_length (hr : Opens r) (n : ℕ) :
    ¬ r.Matches (' ' :: (Nat.toDigits 10 n ++ ['m', 's'])) := by
  intro h
  cases hdigits : Nat.toDigits 10 n with
  | nil => exact Nat.toDigits_ne_nil hdigits
  | cons d ds =>
      have hd := isDigit_toDigits n d (hdigits ▸ List.mem_cons_self)
      rw [hdigits] at h
      have hletter := hr.second h
      have hdigit : isBlank d = false ∧ isLetter d = false :=
        forall_isName (P := fun c => c.isDigit → isBlank c = false ∧ isLetter c = false)
          (by decide) (by decide) (by decide) (isName_of_isDigit hd) hd
      rw [hdigit.1, hdigit.2] at hletter
      simp at hletter

theorem avoids_windowText : Avoids fromRe (windowText n) [] := by
  cases n with
  | none => exact avoids_nil
  | some n =>
      rw [windowText_some, ← List.cons_append]
      refine Avoids.append (opens_fromRe.led.avoids_word (by decide) fun h => ?_)
        (opens_fromRe.led.avoids_word (isBlank_length n.1) ?_)
      · exact absurd (fromRe_word h (by decide) (ends_cons (by decide) _)).1 (by decide)
      · rw [List.append_nil]
        exact not_matches_length opens_fromRe n.1

theorem not_spells_comma {w : String} (hw : IsWord w) (g : Ident) : ¬ Spells w (g.1 ++ [',']) :=
  fun h => absurd (hw.isLetter h ',' (List.mem_append_right _ List.mem_cons_self)) (by decide)

theorem solid_comma (g : Ident) : Solid (g.1 ++ [',']) := by
  refine ⟨List.append_ne_nil_of_left_ne_nil g.ne_nil _, fun c hc => ?_⟩
  rcases List.mem_append.mp hc with hc | hc
  · exact g.solid.2 c hc
  · rw [List.mem_singleton.mp hc]
    decide

theorem isBlank_eq_false_of_isSource (h : isSource c) : isBlank c = false := by
  rw [isSource, Bool.or_eq_true, decide_eq_true_eq] at h
  rcases h with hname | rfl
  · exact isBlank_eq_false_of_isName hname
  · decide

theorem solid_source {source : List Char} (hne : source ≠ []) (h : ∀ c ∈ source, isSource c) :
    Solid source :=
  ⟨hne, fun c hc => isBlank_eq_false_of_isSource (h c hc)⟩

/-- No clause begins within a list of fields, before a `WINDOW` clause or the end. -/
theorem avoids_fieldList (hr : Opens r)
    (hcomma : ∀ (g : Ident) cont, Ends cont → ¬ r.Matches (' ' :: ((g.1 ++ [',']) ++ cont)))
    (hlast : ∀ g : Ident, ¬ r.Matches (' ' :: (g.1 ++ windowText n))) (g : Ident)
    (gs : List Ident) : Avoids r (' ' :: fieldList (g :: gs)) (windowText n) := by
  induction gs generalizing g with
  | nil =>
      rw [fieldList_singleton]
      exact hr.led.avoids_word g.solid.2 (hlast g)
  | cons g' gs ih =>
      have hsplit : ' ' :: fieldList (g :: g' :: gs) =
          (' ' :: (g.1 ++ [','])) ++ ' ' :: fieldList (g' :: gs) := by
        rw [fieldList_cons_cons, List.cons_append, List.append_assoc]
        rfl
      rw [hsplit]
      exact Avoids.append (hr.led.avoids_word (solid_comma g).2
        (hcomma g _ (ends_cons (by decide) _))) (ih g')

theorem not_fromRe_field (g : Ident) : ¬ fromRe.Matches (' ' :: (g.1 ++ windowText n)) := by
  intro h
  obtain ⟨-, b, source, rest, hsplit, hb, hne, hsource, hrest⟩ :=
    fromRe_word h g.solid ends_windowText
  cases n with
  | none => exact hb.1 (List.append_eq_nil_iff.mp hsplit.symm).1
  | some n =>
      obtain ⟨-, -, rfl⟩ := words_inj (b := [' ']) (u := "WINDOW".toList) blanks_space hb
        (by decide) (solid_source hne hsource) (ends_cons (by decide) _)
        (opens_whereRe.led.ends hrest) hsplit
      exact not_matches_length opens_whereRe n.1 hrest

theorem not_windowRe_field (g : Ident) : ¬ windowRe.Matches (' ' :: (g.1 ++ windowText n)) := by
  intro h
  obtain ⟨-, b, digits, rest, hsplit, hb, hne, hdigits⟩ := windowRe_word h g.solid ends_windowText
  cases n with
  | none => exact hb.1 (List.append_eq_nil_iff.mp hsplit.symm).1
  | some n =>
      rcases hb.second hne hsplit with hblank | hmem
      · exact absurd hblank (by decide)
      · exact absurd (hdigits 'W' hmem) (by decide)

theorem avoids_windowRe_fieldList (g : Ident) (gs : List Ident) :
    Avoids windowRe (' ' :: fieldList (g :: gs)) (windowText n) :=
  avoids_fieldList opens_windowRe
    (fun g _ hcont h => not_spells_comma (by decide) g (windowRe_word h (solid_comma g) hcont).1)
    not_windowRe_field g gs

theorem avoids_fromRe_fieldList (g : Ident) (gs : List Ident) :
    Avoids fromRe (' ' :: fieldList (g :: gs)) (windowText n) :=
  avoids_fieldList opens_fromRe
    (fun g _ hcont h => not_spells_comma (by decide) g (fromRe_word h (solid_comma g) hcont).1)
    not_fromRe_field g gs

theorem avoids_groupText : Avoids fromRe (groupText gs) (windowText n) := by
  cases gs with
  | nil => exact avoids_nil
  | cons g gs =>
      rw [groupText_cons, ← List.cons_append, ← List.cons_append]
      refine Avoids.append (opens_fromRe.led.avoids_word (by decide) fun h => ?_)
        (Avoids.append (opens_fromRe.led.avoids_word (by decide) fun h => ?_)
          (avoids_fromRe_fieldList g gs))
      · exact absurd (fromRe_word h (by decide) (ends_cons (by decide) _)).1 (by decide)
      · exact absurd (fromRe_word h (by decide) (ends_cons (by decide) _)).1 (by decide)

/-- No clause begins within a condition but in its literal. -/
theorem avoids_conditionText (hr : Opens r) (hliteral : Avoids r s.1 ('\x27' :: cont)) :
    Avoids r (" = \x27".toList ++ (s.1 ++ ['\x27'])) cont := by
  have hquote : Avoids r ['\x27'] cont := hr.led.avoids (by decide)
  refine Avoids.append (avoids_cons (fun h => ?_) (avoids_cons (fun h => ?_)
    (avoids_cons (fun h => ?_) (hr.led.avoids (by decide))))) (Avoids.append hliteral hquote)
  · exact absurd (hr.second h) (by decide)
  · exact absurd (hr.led _ _ h) (by decide)
  · exact absurd (hr.second h) (by decide)

theorem avoids_whereText (hliteral : Avoids fromRe s.1 ('\x27' :: cont)) :
    Avoids fromRe (whereText (some (f, s))) cont := by
  rw [whereText_some, ← List.cons_append, conditionText_eq, ← List.cons_append]
  refine Avoids.append (opens_fromRe.led.avoids_word (by decide) fun h => ?_)
    (Avoids.append (opens_fromRe.led.avoids_word f.solid.2 fun h => ?_)
      (avoids_conditionText opens_fromRe hliteral))
  · exact absurd (fromRe_word h (by decide) (ends_cons (by decide) _)).1 (by decide)
  · obtain ⟨-, b, source, rest, hsplit, hb, hne, hsource, -⟩ :=
      fromRe_word h f.solid (ends_cons (by decide) _)
    rcases hb.second hne hsplit with hblank | hmem
    · exact absurd hblank (by decide)
    · exact absurd (hsource '=' hmem) (by decide)

/-! ### The literal of a condition -/

/-- What is read without a quote ends before it. -/
theorem append_quote {span rest y z : List Char} (hspan : '\x27' ∉ span)
    (h : y ++ '\x27' :: z = span ++ rest) : ∃ y', y = span ++ y' ∧ rest = y' ++ '\x27' :: z := by
  rcases List.append_eq_append_iff.mp h.symm with ⟨y', rfl, rfl⟩ | ⟨y', rfl, hrest⟩
  · exact ⟨y', rfl, rfl⟩
  · cases y' with
    | nil => exact ⟨[], by simp, hrest.symm⟩
    | cons d y' =>
        rw [(List.cons.inj hrest).1] at hspan
        exact absurd (List.mem_append_right _ List.mem_cons_self) hspan

theorem quote_notMem_heads {ws : List String} {span : List Char} (h : Heads ws span)
    (hws : ∀ w ∈ ws, IsWord w) : '\x27' ∉ span :=
  fun hmem => absurd (h.isBlank_or_isLetter hws _ hmem) (by decide)

theorem not_windowRe_quote (y z : List Char) : ¬ windowRe.Matches (y ++ '\x27' :: z) := by
  intro h
  have hmem : '\x27' ∈ y ++ '\x27' :: z := List.mem_append_right _ List.mem_cons_self
  rcases matches_windowRe.mp h with
    hblank | ⟨span, digits, unit, b, hsplit, hspan, -, hdigits, hunit, hb⟩
  · exact absurd (hblank _ hmem) (by decide)
  · rw [hsplit] at hmem
    simp only [List.mem_append] at hmem
    rcases hmem with hmem | hmem | hmem | hmem
    · exact quote_notMem_heads hspan (by decide) hmem
    · exact absurd (hdigits _ hmem) (by decide)
    · rcases hunit with rfl | hunit | hunit
      · cases hmem
      · exact absurd (IsWord.isLetter (by decide) hunit _ hmem) (by decide)
      · exact absurd (IsWord.isLetter (by decide) hunit _ hmem) (by decide)
    · exact absurd (hb _ hmem) (by decide)

theorem matches_fromWhereRe {part : List Char} :
    fromWhereRe.Matches part ↔ ∃ span source span', part = span ++ (source ++ span') ∧
      Heads ["from"] span ∧ source ≠ [] ∧ (∀ c ∈ source, isSource c) ∧ Heads ["where"] span' := by
  simp only [fromWhereRe, seq, List.foldr_cons, List.foldr_nil, matches_cat_keyword,
    matches_cat_many1, matches_empty]
  constructor
  · rintro ⟨span, _, rfl, hspan, source, _, hne, rfl, hsource, span', _, rfl, hspan', rfl⟩
    rw [List.append_nil]
    exact ⟨span, source, span', rfl, hspan, hne, hsource, hspan'⟩
  · rintro ⟨span, source, span', rfl, hspan, hne, hsource, hspan'⟩
    exact ⟨span, _, rfl, hspan, source, _, hne, rfl, hsource, span', [], (List.append_nil _).symm,
      hspan', rfl⟩

theorem avoids_groupRe_literal (h : ¬ Contains (keyword ["group", "by"]) s.1) (cont : List Char) :
    Avoids groupRe s.1 ('\x27' :: cont) := by
  intro less more hs _ hmatch
  rcases groupRe_cases hmatch with ⟨span, rest, hsplit, hspan, -⟩ | hwindow
  · obtain ⟨y, rfl, -⟩ := append_quote (quote_notMem_heads hspan (by decide)) hsplit
    refine h ⟨span, ⟨less, y, ?_⟩, matches_keyword.mpr hspan⟩
    rw [hs, List.append_assoc]
  · exact not_windowRe_quote more cont hwindow

theorem isAny_literal {y : List Char} (hy : ∀ c ∈ y, isAny c) (hcont : ∀ c ∈ cont, isAny c) :
    ∀ c ∈ y ++ '\x27' :: cont, isAny c :=
  List.forall_mem_append.mpr ⟨hy, List.forall_mem_cons.mpr ⟨by decide, hcont⟩⟩

theorem not_contains_of_avoids_groupRe (h : Avoids groupRe s.1 ('\x27' :: cont))
    (hs : ∀ c ∈ s.1, isAny c) (hcont : ∀ c ∈ cont, isAny c) :
    ¬ Contains (keyword ["group", "by"]) s.1 := by
  rintro ⟨part, ⟨pre, post, hsplit⟩, hpart⟩
  rw [matches_keyword] at hpart
  rw [← hsplit] at hs
  refine h pre (part ++ post) (by rw [← hsplit, List.append_assoc]) ?_ ?_
  · exact List.append_ne_nil_of_left_ne_nil hpart.ne_nil _
  · rw [List.append_assoc]
    refine matches_groupRe hpart (List.append_ne_nil_of_right_ne_nil _ (List.cons_ne_nil _ _)) ?_
    exact isAny_literal (fun c hc => hs c (List.mem_append_right _ hc)) hcont

theorem quote_notMem_source {source : List Char} (h : ∀ c ∈ source, isSource c) :
    '\x27' ∉ source :=
  fun hmem => absurd (h _ hmem) (by decide)

theorem avoids_fromRe_literal (hgroup : ¬ Contains (keyword ["group", "by"]) s.1)
    (hfrom : ¬ Contains fromWhereRe s.1) (cont : List Char) :
    Avoids fromRe s.1 ('\x27' :: cont) := by
  intro less more hs _ hmatch
  obtain ⟨span, source, rest, hsplit, hspan, hne, hsource, hrest⟩ := matches_fromRe.mp hmatch
  obtain ⟨y, rfl, hy⟩ := append_quote (quote_notMem_heads hspan (by decide)) hsplit
  obtain ⟨y', rfl, rfl⟩ := append_quote (quote_notMem_source hsource) hy.symm
  rcases whereRe_cases hrest with ⟨span', rest', hsplit', hspan', -⟩ | hrest
  · obtain ⟨y'', rfl, -⟩ := append_quote (quote_notMem_heads hspan' (by decide)) hsplit'
    refine hfrom ⟨span ++ (source ++ span'), ⟨less, y'', ?_⟩,
      matches_fromWhereRe.mpr ⟨span, source, span', rfl, hspan, hne, hsource, hspan'⟩⟩
    rw [hs]
    simp only [List.append_assoc]
  · -- what follows the source would be a `GROUP BY` of the literal
    cases y' with
    | nil => exact absurd (opens_groupRe.led _ _ hrest) (by decide)
    | cons d y' =>
        refine avoids_groupRe_literal hgroup cont (less ++ (span ++ source)) (d :: y') ?_
          (List.cons_ne_nil _ _) hrest
        rw [hs]
        simp only [List.append_assoc]

theorem not_contains_of_avoids_fromRe (h : Avoids fromRe s.1 ('\x27' :: cont))
    (hs : ∀ c ∈ s.1, isAny c) (hcont : ∀ c ∈ cont, isAny c) : ¬ Contains fromWhereRe s.1 := by
  rintro ⟨part, ⟨pre, post, hsplit⟩, hpart⟩
  obtain ⟨span, source, span', rfl, hspan, hne, hsource, hspan'⟩ := matches_fromWhereRe.mp hpart
  rw [← hsplit] at hs
  refine h pre (span ++ (source ++ span') ++ post) (by rw [← hsplit, List.append_assoc]) ?_ ?_
  · exact List.append_ne_nil_of_left_ne_nil
      (List.append_ne_nil_of_left_ne_nil hspan.ne_nil _) _
  · simp only [List.append_assoc]
    refine matches_fromRe.mpr ⟨span, source, _, rfl, hspan, hne, hsource, ?_⟩
    refine matches_whereRe hspan' (List.append_ne_nil_of_right_ne_nil _ (List.cons_ne_nil _ _)) ?_
    exact isAny_literal (fun c hc => hs c (List.mem_append_right _ hc)) hcont

/-! ### The source -/

theorem isAny_of_forall {text : List Char} (h : ∀ c ∈ text, isName c) : ∀ c ∈ text, isAny c :=
  fun c hc => isAny_of_isName (h c hc)

theorem isAny_ident (f : Ident) : ∀ c ∈ f.1, isAny c := isAny_of_forall (isName_of_isIdent f.2)

theorem isAny_fieldList (gs : List Ident) : ∀ c ∈ fieldList gs, isAny c := by
  induction gs with
  | nil => exact List.forall_mem_nil _
  | cons g gs ih =>
      cases gs with
      | nil =>
          rw [fieldList_singleton]
          exact isAny_ident g
      | cons g' gs =>
          rw [fieldList_cons_cons]
          exact List.forall_mem_append.mpr ⟨isAny_ident g,
            List.forall_mem_cons.mpr ⟨by decide, List.forall_mem_cons.mpr ⟨by decide, ih⟩⟩⟩

theorem isAny_windowText : ∀ c ∈ windowText n, isAny c := by
  cases n with
  | none => exact List.forall_mem_nil _
  | some n =>
      have hdigits : ∀ c ∈ Nat.toDigits 10 n.1, isAny c :=
        isAny_of_forall fun c hc => isName_of_isDigit (isDigit_toDigits n.1 c hc)
      exact List.forall_mem_append.mpr ⟨by decide, List.forall_mem_append.mpr ⟨hdigits, by decide⟩⟩

theorem isAny_groupText : ∀ c ∈ groupText gs, isAny c := by
  cases gs with
  | nil => exact List.forall_mem_nil _
  | cons g gs => exact List.forall_mem_append.mpr ⟨by decide, isAny_fieldList (g :: gs)⟩

theorem isAny_of_literal (s : Literal) : ∀ c ∈ s.1, isAny c := by
  intro c hc
  simpa [isAny] using (s.2 c hc).2.2

theorem isAny_conditionText (f : Ident) (s : Literal) : ∀ c ∈ conditionText f s, isAny c :=
  List.forall_mem_append.mpr ⟨isAny_ident f, List.forall_mem_append.mpr ⟨by decide,
    List.forall_mem_append.mpr ⟨isAny_of_literal s, by decide⟩⟩⟩

theorem isAny_tail : ∀ c ∈ groupText gs ++ windowText n, isAny c :=
  List.forall_mem_append.mpr ⟨isAny_groupText, isAny_windowText⟩

theorem isAny_clauses : ∀ c ∈ q.clauses, isAny c := by
  refine List.forall_mem_append.mpr ⟨?_, isAny_tail⟩
  cases q.condition with
  | none => exact List.forall_mem_nil _
  | some c => exact List.forall_mem_append.mpr ⟨by decide, isAny_conditionText c.1 c.2⟩

/-- A clause begins with its keyword. -/
theorem spells_of_matches_whereRe (h : whereRe.Matches (' ' :: (u ++ v))) (hu : Solid u)
    (hv : Ends v) : Spells "where" u ∨ Spells "group" u ∨ Spells "window" u := by
  refine (whereRe_word h hu hv).imp_right fun hgroup => ?_
  rcases groupRe_word hgroup hu hv with ⟨hword, -⟩ | hwindow
  · exact Or.inl hword
  · exact Or.inr (windowRe_word hwindow hu hv).1

/-- A word before a sign begins no clause but `WHERE`. -/
theorem spells_where_of_matches (h : whereRe.Matches (' ' :: (u ++ ' ' :: '=' :: v)))
    (hu : Solid u) : Spells "where" u := by
  have hends : Ends (' ' :: '=' :: v) := ends_cons (by decide) _
  rcases whereRe_word h hu hends with hword | hgroup
  · exact hword
  · rcases groupRe_word hgroup hu hends with ⟨-, span, rest, hsplit, hspan, -⟩ | hwindow
    · exact absurd (hspan.second (by decide) hsplit) (by decide)
    · obtain ⟨-, b, digits, rest, hsplit, hb, hne, hdigits⟩ := windowRe_word hwindow hu hends
      rcases hb.second hne hsplit with hblank | hmem
      · exact absurd hblank (by decide)
      · exact absurd (hdigits '=' hmem) (by decide)

/-- What follows the source, with its words set apart. -/
theorem clauses_of_condition (h : q.condition = some (f, s)) :
    q.clauses = [' '] ++ ("WHERE".toList ++ ' ' :: (f.1 ++ ' ' :: '=' :: ' ' :: '\x27' ::
      (s.1 ++ '\x27' :: (groupText q.groupBy ++ windowText q.window)))) := by
  rw [clauses, h, whereText_some, conditionText_eq]
  simp

theorem clauses_of_groupBy (h : q.condition = none) (hgroup : q.groupBy = g :: gs) :
    q.clauses = [' '] ++ ("GROUP".toList ++ ' ' :: ("BY".toList ++
      ' ' :: (fieldList (g :: gs) ++ windowText q.window))) := by
  rw [clauses, h, hgroup, groupText_cons, whereText_none]
  simp

theorem clauses_of_nil (h : q.condition = none) (hgroup : q.groupBy = []) :
    q.clauses = windowText q.window := by
  rw [clauses, h, hgroup]
  rfl

/-- The word after `FROM` is read as another `FROM` only if it is one and the field of the condition
is `where`. -/
theorem fromRe_source_iff :
    fromRe.Matches (' ' :: (q.source.1 ++ q.clauses)) ↔
      ∃ f s, q.condition = some (f, s) ∧ Spells "from" q.source.1 ∧ Spells "where" f.1 := by
  constructor
  · intro h
    obtain ⟨hword, b, source, rest, hsplit, hb, hne, hsource, hrest⟩ :=
      fromRe_word h q.source.solid ends_clauses
    have hsolid := solid_source hne hsource
    have hends := opens_whereRe.led.ends hrest
    cases hcond : q.condition with
    | none =>
        cases hgroup : q.groupBy with
        | nil =>
            rw [clauses_of_nil hcond hgroup] at h
            exact absurd h (not_fromRe_field q.source)
        | cons g gs =>
            rw [clauses_of_groupBy hcond hgroup] at hsplit
            obtain ⟨-, -, rfl⟩ := words_inj blanks_space hb (by decide) hsolid
              (ends_cons (by decide) _) hends hsplit
            have hby := spells_of_matches_whereRe hrest (by decide) (ends_cons (by decide) _)
            exact absurd hby (by decide)
    | some c =>
        obtain ⟨f, s⟩ := c
        rw [clauses_of_condition hcond] at hsplit
        obtain ⟨-, -, rfl⟩ := words_inj blanks_space hb (by decide) hsolid
          (ends_cons (by decide) _) hends hsplit
        exact ⟨f, s, rfl, hword, spells_where_of_matches hrest f.solid⟩
  · rintro ⟨f, s, hcond, hfrom, hwhere⟩
    have hhead : ∀ {w : String} {u : List Char}, Spells w u → Heads [w] ([' '] ++ (u ++ [' '])) :=
      fun hu => ⟨[' '], _, [' '], rfl, blanks_space, hu, blanks_space⟩
    have hrest : whereRe.Matches (([' '] ++ (f.1 ++ [' '])) ++ '=' :: ' ' :: '\x27' ::
        (s.1 ++ '\x27' :: (groupText q.groupBy ++ windowText q.window))) := by
      refine matches_whereRe (hhead hwhere) (List.cons_ne_nil _ _) ?_
      refine List.forall_mem_cons.mpr ⟨by decide, List.forall_mem_cons.mpr ⟨by decide,
        List.forall_mem_cons.mpr ⟨by decide, ?_⟩⟩⟩
      exact isAny_literal (isAny_of_literal s) isAny_tail
    rw [clauses_of_condition hcond]
    refine matches_fromRe.mpr ⟨[' '] ++ (q.source.1 ++ [' ']), "WHERE".toList, _, ?_, hhead hfrom,
      by decide, by decide, hrest⟩
    simp

end Statement

end StreamFlow.Streamql
