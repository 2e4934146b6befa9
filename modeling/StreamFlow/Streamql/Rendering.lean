import StreamFlow.Streamql.Statement

/-!
# Reading a rendered query

The match of the text of a query, clause by clause from the end, and the query that `Parse` makes of
it. A rendered query is read back if and only if the literal of its condition does not hold
`GROUP BY` between blanks, nor `FROM` with a source and `WHERE`, and the source and the field of
the condition are not named `from` and `where`.
-/

namespace StreamFlow.Streamql

open Pattern GoStrings

namespace Statement

variable {q : Statement} {f g : Ident} {s : Literal} {gs : List Ident} {u v : List Char}
  {n : Option {n : ℕ // n < 2 ^ 63}}

/-! ### The match of a rendered query -/

def whereCaptures : Option (Ident × Literal) → Captures
  | none => []
  | some (f, s) => [(3, conditionText f s)]

def groupCaptures : List Ident → Captures
  | [] => []
  | g :: gs => [(4, fieldList (g :: gs))]

def windowCaptures : Option {n : ℕ // n < 2 ^ 63} → Captures
  | none => []
  | some n => [(5, Nat.toDigits 10 n.1), (6, ['m', 's'])]

theorem find?_windowText : windowRe.find? (windowText n) = some (windowCaptures n) := by
  cases n with
  | none => rfl
  | some n =>
      have hspan : Heads ["window"] ([' '] ++ ("WINDOW".toList ++ [' '])) :=
        ⟨[' '], _, [' '], rfl, blanks_space, by decide, blanks_space⟩
      have hunit : (Pattern.cat (seq [opt (.capture 6 (.alt (word "ms") (word "s")))]) endRe).find?
          ['m', 's'] = some [(6, ['m', 's'])] := rfl
      have hdigits := (longest_of_head? (isDigit_toDigits n.1) (matches_of_find? hunit)
        (by decide)).find?_capture Nat.toDigits_ne_nil 5
      rw [hunit, Option.map_some, ← find?_cat_cat, ← seq_cons] at hdigits
      have hhead : ∀ c ∈ (Nat.toDigits 10 n.1 ++ ['m', 's']).head?, isBlank c = false :=
        fun c hc => isBlank_length n.1 c (List.mem_of_mem_head? hc)
      have hclause := hspan.find?_cat (by decide) (matches_of_find? hdigits) hhead
      rw [hdigits, ← find?_cat_cat, ← seq_cons] at hclause
      have htext : windowText (some n) =
          [' '] ++ ("WINDOW".toList ++ [' ']) ++ (Nat.toDigits 10 n.1 ++ ['m', 's']) := by
        rw [windowText_some]
        simp
      rw [htext, windowRe, find?_cat_opt, hclause, Option.some_or]
      rfl

theorem not_heads_nil {w : String} {ws : List String} {span rest : List Char}
    (h : [] = span ++ rest) : ¬ Heads (w :: ws) span := by
  rintro ⟨b, u, tail, rfl, hb, -⟩
  have hnil := (List.append_eq_nil_iff.mp h.symm).1
  exact hb.1 (List.append_eq_nil_iff.mp hnil).1

/-- A text of one word does not begin with another. -/
theorem not_heads_of_not_spells {w : String} {ws : List String} {span rest : List Char}
    (hw : IsWord w) (hu : Solid u) (hv : Ends v) (hne : ¬ Spells w u)
    (h : [' '] ++ (u ++ v) = span ++ rest) : ¬ Heads (w :: ws) span :=
  fun hspan => hne (hspan.cons_inv hw h blanks_space hu hv).1

theorem not_heads_windowText {w : String} {ws : List String} (hw : IsWord w)
    (hne : ¬ Spells w "WINDOW".toList) (span rest : List Char) (h : windowText n = span ++ rest) :
    ¬ Heads (w :: ws) span := by
  cases n with
  | none => exact not_heads_nil h
  | some n => exact not_heads_of_not_spells hw (by decide) (ends_cons (by decide) _) hne h

theorem fieldList_ne_nil (g : Ident) (gs : List Ident) : fieldList (g :: gs) ≠ [] := by
  cases gs with
  | nil =>
      rw [fieldList_singleton]
      exact g.ne_nil
  | cons g' gs => exact List.append_ne_nil_of_left_ne_nil g.ne_nil _

theorem isName_head?_fieldList (g : Ident) (gs : List Ident) :
    ∀ c ∈ (fieldList (g :: gs)).head?, isName c := by
  have hg : (fieldList (g :: gs)).head? = g.1.head? := by
    cases gs with
    | nil => rw [fieldList_singleton]
    | cons g' gs => rw [fieldList_cons_cons, List.head?_append_of_ne_nil _ g.ne_nil]
  rw [hg]
  exact fun c hc => isName_of_isIdent g.2 c (List.mem_of_mem_head? hc)

theorem find?_groupText :
    groupRe.find? (groupText gs ++ windowText n) = some (groupCaptures gs ++ windowCaptures n) := by
  cases gs with
  | nil =>
      refine Eq.trans (find?_no_clause fun span rest h => ?_) find?_windowText
      exact not_heads_windowText (by decide) (by decide) span rest h
  | cons g gs =>
      have hspan : Heads ["group", "by"]
          ([' '] ++ ("GROUP".toList ++ ([' '] ++ ("BY".toList ++ [' '])))) :=
        ⟨[' '], _, _, rfl, blanks_space, by decide, [' '], _, [' '], rfl, blanks_space, by decide,
          blanks_space⟩
      have hshort : Shortest isAny windowRe (fieldList (g :: gs)) (windowText n) := by
        refine ⟨isAny_fieldList _, matches_of_find? find?_windowText, ?_⟩
        intro less more hsplit _ hne
        exact avoids_windowRe_fieldList g gs (' ' :: less) more (congrArg (' ' :: ·) hsplit) hne
      have hclause := hspan.find?_clause (i := 4) (by decide) hshort (fieldList_ne_nil g gs)
        fun c hc => isBlank_eq_false_of_isName (isName_head?_fieldList g gs c hc)
      rw [find?_windowText, Option.map_some] at hclause
      have htext : groupText (g :: gs) ++ windowText n =
          [' '] ++ ("GROUP".toList ++ ([' '] ++ ("BY".toList ++ [' ']))) ++
            (fieldList (g :: gs) ++ windowText n) := by
        rw [groupText_cons]
        simp
      rw [htext]
      exact hclause

theorem head?_conditionText (f : Ident) (s : Literal) :
    ∀ c ∈ (conditionText f s).head?, isName c := by
  rw [conditionText, List.head?_append_of_ne_nil _ f.ne_nil]
  exact fun c hc => isName_of_isIdent f.2 c (List.mem_of_mem_head? hc)

theorem conditionText_ne_nil (f : Ident) (s : Literal) : conditionText f s ≠ [] :=
  List.append_ne_nil_of_left_ne_nil f.ne_nil _

theorem not_heads_groupText {w : String} {ws : List String} (hw : IsWord w)
    (hgroup : ¬ Spells w "GROUP".toList) (hwindow : ¬ Spells w "WINDOW".toList)
    (span rest : List Char) (h : groupText gs ++ windowText n = span ++ rest) :
    ¬ Heads (w :: ws) span := by
  cases gs with
  | nil => exact not_heads_windowText hw hwindow span rest h
  | cons g gs => exact not_heads_of_not_spells hw (by decide) (ends_cons (by decide) _) hgroup h

theorem heads_where : Heads ["where"] ([' '] ++ ("WHERE".toList ++ [' '])) :=
  ⟨[' '], _, [' '], rfl, blanks_space, by decide, blanks_space⟩

theorem whereText_append (f : Ident) (s : Literal) (rest : List Char) :
    whereText (some (f, s)) ++ rest =
      [' '] ++ ("WHERE".toList ++ [' ']) ++ (conditionText f s ++ rest) := by
  rw [whereText_some]
  simp

theorem shortest_conditionText (h : ¬ Contains (keyword ["group", "by"]) s.1) :
    Shortest isAny groupRe (conditionText f s) (groupText gs ++ windowText n) := by
  refine ⟨isAny_conditionText f s, matches_of_find? find?_groupText, ?_⟩
  intro less more hsplit _ hne
  exact Avoids.append (opens_groupRe.led.avoids f.solid.2)
    (avoids_conditionText opens_groupRe (avoids_groupRe_literal h _)) less more hsplit hne

theorem find?_clauses
    (h : ∀ f s, q.condition = some (f, s) → ¬ Contains (keyword ["group", "by"]) s.1) :
    whereRe.find? q.clauses = some (whereCaptures q.condition ++
      (groupCaptures q.groupBy ++ windowCaptures q.window)) := by
  rw [clauses]
  cases hcond : q.condition with
  | none =>
      refine Eq.trans (find?_no_clause fun span rest hsplit => ?_) find?_groupText
      exact not_heads_groupText (by decide) (by decide) (by decide) span rest hsplit
  | some c =>
      obtain ⟨f, s⟩ := c
      have hshort : Shortest isAny groupRe (conditionText f s)
          (groupText q.groupBy ++ windowText q.window) := shortest_conditionText (h f s hcond)
      have hclause := heads_where.find?_clause (i := 3) (by decide) hshort
        (conditionText_ne_nil f s)
        fun c hc => isBlank_eq_false_of_isName (head?_conditionText f s c hc)
      rw [find?_groupText, Option.map_some] at hclause
      rw [whereText_append]
      exact hclause

/-- The clauses as they are found from `FROM` on. -/
theorem find?_from {m : Captures} (h : whereRe.find? q.clauses = some m) :
    fromRe.find? q.fromText = some ((2, q.source.1) :: m) := by
  have hspan : Heads ["from"] ([' '] ++ ("FROM".toList ++ [' '])) :=
    ⟨[' '], _, [' '], rfl, blanks_space, by decide, blanks_space⟩
  have hall : ∀ c ∈ q.source.1, isSource c := by
    intro c hc
    rw [isSource, isName_of_isIdent q.source.2 c hc, Bool.true_or]
  have hhead : ∀ c ∈ q.clauses.head?, isSource c = false := by
    intro c hc
    by_contra hsource
    rw [Bool.not_eq_false] at hsource
    have hblank := isBlank_eq_false_of_isSource hsource
    rw [ends_clauses c hc] at hblank
    cases hblank
  have hsource := (longest_of_head? hall (matches_of_find? h) hhead).find?_capture q.source.ne_nil 2
  rw [h, Option.map_some] at hsource
  have hclause := hspan.find?_cat (by decide) (matches_of_find? hsource) (by
    rw [List.head?_append_of_ne_nil _ q.source.ne_nil]
    exact fun c hc => q.source.solid.2 c (List.mem_of_mem_head? hc))
  rw [hsource] at hclause
  exact hclause

theorem matches_whereRe_clauses : whereRe.Matches q.clauses := by
  rw [clauses]
  cases q.condition with
  | none => exact matches_whereRe_of_groupRe (matches_of_find? find?_groupText)
  | some c =>
      obtain ⟨f, s⟩ := c
      rw [whereText_append]
      refine matches_whereRe heads_where ?_ ?_
      · exact List.append_ne_nil_of_left_ne_nil (conditionText_ne_nil f s) _
      · exact List.forall_mem_append.mpr ⟨isAny_conditionText f s, isAny_tail⟩

theorem matches_fromText : fromRe.Matches q.fromText := by
  obtain ⟨m, hm⟩ := (matches_whereRe_clauses (q := q)).exists_find?
  exact matches_of_find? (find?_from hm)

theorem isAny_fromText : ∀ c ∈ q.fromText, isAny c :=
  List.forall_mem_append.mpr ⟨by decide, List.forall_mem_append.mpr ⟨isAny_ident _, isAny_clauses⟩⟩

theorem head?_select {sel rest : List Char} (h : fieldList q.select ++ q.fromText = sel ++ rest) :
    ∀ c ∈ (sel ++ rest).head?, isBlank c = false := by
  obtain ⟨g, gs, hselect⟩ := List.exists_cons_of_ne_nil q.select_ne_nil
  rw [← h, hselect, List.head?_append_of_ne_nil _ (fieldList_ne_nil g gs)]
  exact fun c hc => isBlank_eq_false_of_isName (isName_head?_fieldList g gs c hc)

/-- The select list that is found is the longest one before a `FROM`. -/
theorem find?_text {sel rest : List Char} (h : fieldList q.select ++ q.fromText = sel ++ rest)
    (hne : sel ≠ []) (hlong : Longest isAny fromRe sel rest) :
    selectRe.find? q.text = (fromRe.find? rest).map ((1, sel) :: ·) := by
  obtain ⟨m, hm⟩ := hlong.rest_matches.exists_find?
  have hselect := hlong.find?_capture hne 1
  rw [hm, Option.map_some] at hselect
  have hblank := (longest_of_head? blanks_space.2 (matches_of_find? hselect)
    (head?_select h)).find?_many1 blanks_space.1
  rw [hselect] at hblank
  have hspells : Spells "select" "SELECT".toList := by decide
  have hword := hspells.find?_cat_word
    (.cat (many1 isBlank) (.cat (.capture 1 (many1 isAny)) fromRe)) ([' '] ++ (sel ++ rest))
  rw [hblank] at hword
  have hhead : ∀ c ∈ ("SELECT".toList ++ ([' '] ++ (sel ++ rest))).head?, isBlank c = false := by
    intro c hc
    obtain rfl : 'S' = c := Option.some.inj hc
    decide
  have hall := (longest_of_head? (List.forall_mem_nil _) (matches_of_find? hword) hhead).find?_many
  rw [hword] at hall
  have htext : q.text = [] ++ ("SELECT".toList ++ ([' '] ++ (sel ++ rest))) := by
    rw [← h]
    rfl
  rw [selectRe_eq, htext, hall, hm, Option.map_some]

/-- The text from `FROM` on is the shortest that can be matched. -/
theorem avoids_fromText (h : q.Unmistakable) :
    Avoids fromRe ("FROM".toList ++ (' ' :: q.source.1 ++ q.clauses)) [] := by
  refine Avoids.append (opens_fromRe.led.avoids (by decide)) (Avoids.append
    (opens_fromRe.led.avoids_word q.source.solid.2 fun hmatch => ?_) ?_)
  · rw [List.append_nil, fromRe_source_iff] at hmatch
    obtain ⟨f, s, hcond, hwords⟩ := hmatch
    exact (h f s hcond).2.2 hwords
  · have htail : Avoids fromRe (groupText q.groupBy ++ windowText q.window) [] := by
      refine Avoids.append ?_ avoids_windowText
      rw [List.append_nil]
      exact avoids_groupText
    rw [clauses]
    refine Avoids.append ?_ htail
    cases hcond : q.condition with
    | none => exact avoids_nil
    | some c =>
        obtain ⟨hgroup, hfrom, -⟩ := h c.1 c.2 hcond
        exact avoids_whereText (avoids_fromRe_literal hgroup hfrom _)

theorem not_matches_fromRe_nil : ¬ fromRe.Matches [] := by
  intro h
  obtain ⟨span, source, rest, hsplit, hspan, -⟩ := matches_fromRe.mp h
  exact not_heads_nil hsplit hspan

theorem longest_select (h : q.Unmistakable) :
    Longest isAny fromRe (fieldList q.select) q.fromText := by
  refine ⟨isAny_fieldList _, matches_fromText, fun more rest hsplit hne _ hmatch => ?_⟩
  cases more with
  | nil => exact hne rfl
  | cons c more =>
      rw [fromText_eq] at hsplit
      cases rest with
      | nil => exact not_matches_fromRe_nil hmatch
      | cons d rest =>
          refine avoids_fromText h more (d :: rest) (List.cons.inj hsplit).2
            (List.cons_ne_nil _ _) ?_
          rwa [List.append_nil]

/-! ### The query that is read -/

/-- The characters of the names of a list. -/
def isLetterOfList (c : Char) : Bool := !isSpace c && c != ','

theorem filter_commaList (text : List Char) :
    (commaList text).flatMap (fun field => field.toList.filter isLetterOfList) =
      text.filter isLetterOfList := by
  have hspace : ∀ c, isSpace c → isLetterOfList c = false := by
    intro c hc
    rw [isLetterOfList, hc]
    rfl
  have hcomma : isLetterOfList ',' = false := by decide
  have hsplit := filter_intercalate hcomma (splitComma text)
  rw [splitComma, List.intercalate_splitOn] at hsplit
  rw [hsplit, commaList, List.flatMap_map]
  refine List.flatMap_congr fun field _ => ?_
  rw [String.toList_ofList]
  exact filter_trim hspace field

theorem commaList_cons {field : List Char} (h : ',' ∉ field) (text : List Char) :
    commaList (field ++ ',' :: text) = String.ofList (trimSpace field) :: commaList text := by
  rw [commaList, splitComma, List.splitOn_append_cons_self_of_not_mem h, List.map_cons]
  rfl

theorem commaList_singleton {field : List Char} (h : ',' ∉ field) :
    commaList field = [String.ofList (trimSpace field)] := by
  rw [commaList, splitComma, List.splitOn_eq_singleton h, List.map_singleton]

theorem isSpace_ident (g : Ident) : ∀ c ∈ g.1, isSpace c = false :=
  fun c hc => isSpace_eq_false_of_isName (isName_of_isIdent g.2 c hc)

theorem trimSpace_ident {b : List Char} (hb : ∀ c ∈ b, isSpace c) (g : Ident) :
    trimSpace (b ++ g.1) = g.1 := by
  rw [trimSpace, trim_append_left hb]
  exact trim_eq_self (fun c hc => isSpace_ident g c (List.mem_of_mem_head? hc))
    fun c hc => isSpace_ident g c (List.mem_of_getLast? hc)

theorem comma_notMem_ident (g : Ident) : ',' ∉ g.1 :=
  fun hmem => absurd (isName_of_isIdent g.2 _ hmem) (by decide)

theorem commaList_fieldList {b : List Char} (hb : ∀ c ∈ b, isSpace c) (hcomma : ',' ∉ b)
    (g : Ident) (gs : List Ident) :
    commaList (b ++ fieldList (g :: gs)) = (g :: gs).map fun g => String.ofList g.1 := by
  induction gs generalizing b g with
  | nil =>
      rw [fieldList_singleton, commaList_singleton, trimSpace_ident hb, List.map_singleton]
      exact fun hmem => (List.mem_append.mp hmem).elim hcomma (comma_notMem_ident g)
  | cons g' gs ih =>
      rw [fieldList_cons_cons, ← List.append_assoc, commaList_cons, trimSpace_ident hb,
        List.map_cons]
      · exact congrArg _ (ih (b := [' ']) (by decide) (by decide) g')
      · exact fun hmem => (List.mem_append.mp hmem).elim hcomma (comma_notMem_ident g)

/-- A text that does not end with a space. -/
def EndsSolid (text : List Char) : Prop := ∀ c ∈ text.getLast?, isSpace c = false

theorem endsSolid_nil : EndsSolid [] := fun _ hc => absurd hc (Option.not_mem_none _)

theorem EndsSolid.append_right {text : List Char} (h : EndsSolid text) (hne : text ≠ [])
    (text' : List Char) : EndsSolid (text' ++ text) := by
  rwa [EndsSolid, List.getLast?_append_of_ne_nil _ hne]

theorem EndsSolid.append {text text' : List Char} (h : EndsSolid text) (h' : EndsSolid text') :
    EndsSolid (text ++ text') := by
  cases text' with
  | nil => rwa [List.append_nil]
  | cons c text' => exact h'.append_right (List.cons_ne_nil _ _) text

theorem endsSolid_ident (g : Ident) : EndsSolid g.1 :=
  fun c hc => isSpace_ident g c (List.mem_of_getLast? hc)

theorem endsSolid_fieldList (g : Ident) (gs : List Ident) : EndsSolid (fieldList (g :: gs)) := by
  induction gs generalizing g with
  | nil =>
      rw [fieldList_singleton]
      exact endsSolid_ident g
  | cons g' gs ih =>
      exact ((ih g').append_right (fieldList_ne_nil g' gs) [',', ' ']).append_right
        (List.cons_ne_nil _ _) g.1

theorem endsSolid_conditionText (f : Ident) (s : Literal) : EndsSolid (conditionText f s) := by
  have hquote : EndsSolid ['\x27'] := by
    intro c hc
    obtain rfl : '\x27' = c := Option.some.inj hc
    decide
  rw [conditionText, ← List.append_assoc, ← List.append_assoc]
  exact hquote.append_right (List.cons_ne_nil _ _) _

theorem endsSolid_clauses : EndsSolid q.clauses := by
  have hunit : EndsSolid ['m', 's'] := by
    intro c hc
    obtain rfl : 's' = c := Option.some.inj hc
    decide
  refine EndsSolid.append ?_ (EndsSolid.append ?_ ?_)
  · cases q.condition with
    | none => exact endsSolid_nil
    | some c => exact (endsSolid_conditionText c.1 c.2).append_right (conditionText_ne_nil _ _) _
  · cases q.groupBy with
    | nil => exact endsSolid_nil
    | cons g gs => exact (endsSolid_fieldList g gs).append_right (fieldList_ne_nil g gs) _
  · cases q.window with
    | none => exact endsSolid_nil
    | some n =>
        exact (hunit.append_right (List.cons_ne_nil _ _) _).append_right
          (List.append_ne_nil_of_right_ne_nil _ (List.cons_ne_nil _ _)) _

theorem trimSpace_text : trimSpace q.text = q.text := by
  refine trim_eq_self (fun c hc => ?_) ?_
  · obtain rfl : 'S' = c := Option.some.inj hc
    decide
  · have hsource := (endsSolid_ident q.source).append (endsSolid_clauses (q := q))
    have hne : q.source.1 ++ q.clauses ≠ [] := List.append_ne_nil_of_left_ne_nil q.source.ne_nil _
    have hfrom := hsource.append_right hne " FROM ".toList
    have hselect :=
      hfrom.append_right (List.append_ne_nil_of_right_ne_nil _ hne) (fieldList q.select)
    exact hselect.append_right (List.append_ne_nil_of_right_ne_nil _
      (List.append_ne_nil_of_right_ne_nil _ hne)) "SELECT ".toList

theorem trimSpace_conditionText (f : Ident) (s : Literal) :
    trimSpace (conditionText f s) = conditionText f s :=
  trim_eq_self (fun c hc => isSpace_eq_false_of_isName (head?_conditionText f s c hc))
    (endsSolid_conditionText f s)

theorem trimSpace_fieldList (g : Ident) (gs : List Ident) :
    trimSpace (fieldList (g :: gs)) = fieldList (g :: gs) :=
  trim_eq_self (fun c hc => isSpace_eq_false_of_isName (isName_head?_fieldList g gs c hc))
    (endsSolid_fieldList g gs)

theorem trimSpace_toDigits (n : ℕ) : trimSpace (Nat.toDigits 10 n) = Nat.toDigits 10 n :=
  trimSpace_of_isName fun c hc => isName_of_isDigit (isDigit_toDigits n c hc)

theorem windowLength_toDigits (n : {n : ℕ // n < 2 ^ 63}) :
    windowLength (Nat.toDigits 10 n.1) ['m', 's'] = n.1 := by
  rw [windowLength, atoi_digits Nat.toDigits_ne_nil (isDigit_toDigits n.1),
    Nat.ofDigitChars_ten_toDigits, if_pos n.2]
  rfl

theorem parse_render_eq_ok {query : Query} :
    parse q.render = .ok query ↔ ∃ m, selectRe.find? q.text = some m ∧ queryOf m = query := by
  rw [parse_eq_ok, render, String.toList_ofList, trimSpace_text]

/-- The captures of the clauses where they stand. -/
def captures (q : Statement) : Captures :=
  (1, fieldList q.select) :: (2, q.source.1) ::
    (whereCaptures q.condition ++ (groupCaptures q.groupBy ++ windowCaptures q.window))

theorem submatch_three :
    submatch q.captures 3 = (q.condition.map fun c => conditionText c.1 c.2).getD [] := by
  unfold captures
  cases q.condition <;> cases q.groupBy <;> cases q.window <;> rfl

theorem submatch_four :
    submatch q.captures 4 = fieldList q.groupBy := by
  unfold captures
  cases q.condition <;> cases q.groupBy <;> cases q.window <;> rfl

theorem submatch_five :
    submatch q.captures 5 = (q.window.map fun n => Nat.toDigits 10 n.1).getD [] := by
  unfold captures
  cases q.condition <;> cases q.groupBy <;> cases q.window <;> rfl

theorem submatch_six (n : {n : ℕ // n < 2 ^ 63}) (h : q.window = some n) :
    submatch q.captures 6 = ['m', 's'] := by
  rw [captures, h]
  cases q.condition <;> cases q.groupBy <;> rfl

theorem queryOf_captures : queryOf q.captures = q.toQuery := by
  obtain ⟨g, gs, hselect⟩ := List.exists_cons_of_ne_nil q.select_ne_nil
  have hsel : commaList (submatch q.captures 1) = q.select.map fun f => String.ofList f.1 := by
    change commaList (fieldList q.select) = _
    rw [hselect]
    exact commaList_fieldList (b := []) (by decide) (by decide) g gs
  have hwhere : String.ofList (trimSpace (submatch q.captures 3)) =
      (q.condition.map fun c => String.ofList (conditionText c.1 c.2)).getD "" := by
    rw [submatch_three]
    cases q.condition with
    | none => rfl
    | some c => exact congrArg String.ofList (trimSpace_conditionText c.1 c.2)
  have hgroup : (if trimSpace (submatch q.captures 4) ≠ [] then commaList (submatch q.captures 4)
      else []) = q.groupBy.map fun g => String.ofList g.1 := by
    rw [submatch_four]
    cases q.groupBy with
    | nil => rfl
    | cons g gs =>
        rw [if_pos (by rw [trimSpace_fieldList]; exact fieldList_ne_nil g gs)]
        exact commaList_fieldList (b := []) (by decide) (by decide) g gs
  have hwindow : (if trimSpace (submatch q.captures 5) ≠ [] then
      windowLength (trimSpace (submatch q.captures 5)) (trimSpace (submatch q.captures 6))
      else 0) = (q.window.map fun n => (n.1 : ℤ)).getD 0 := by
    rw [submatch_five]
    cases hn : q.window with
    | none => rfl
    | some n =>
        rw [submatch_six n hn, Option.map_some, Option.getD_some, trimSpace_toDigits,
          if_pos Nat.toDigits_ne_nil]
        exact windowLength_toDigits n
  rw [queryOf, hsel, hwhere, hgroup, hwindow]
  rfl

theorem parse_render_of_unmistakable (h : q.Unmistakable) : parse q.render = .ok q.toQuery := by
  have hclauses := find?_clauses (q := q) fun f s hcond => (h f s hcond).1
  refine parse_render_eq_ok.mpr ⟨q.captures, ?_, queryOf_captures⟩
  rw [find?_text rfl ?_ (longest_select h)]
  · rw [find?_from hclauses, Option.map_some]
    rfl
  · obtain ⟨g, gs, hselect⟩ := List.exists_cons_of_ne_nil q.select_ne_nil
    rw [hselect]
    exact fieldList_ne_nil g gs

/-! ### The keywords that are found elsewhere -/

/-- The select list that is found begins with the one that was rendered. -/
theorem exists_select :
    ∃ more rest, q.fromText = more ++ rest ∧
      Longest isAny fromRe (fieldList q.select ++ more) rest ∧
      selectRe.find? q.text =
        (fromRe.find? rest).map ((1, fieldList q.select ++ more) :: ·) := by
  have hne : fieldList q.select ≠ [] := by
    obtain ⟨g, gs, hselect⟩ := List.exists_cons_of_ne_nil q.select_ne_nil
    rw [hselect]
    exact fieldList_ne_nil g gs
  have hmatch : (Pattern.cat (many1 isAny) fromRe).Matches (fieldList q.select ++ q.fromText) :=
    matches_cat_many1.mpr ⟨_, _, hne, rfl, isAny_fieldList _, matches_fromText⟩
  obtain ⟨sel, rest, hsel, hsplit, hlong⟩ := exists_longest hmatch
  have hle : rest.length ≤ q.fromText.length := by
    by_contra hlt
    obtain ⟨more, hmore, -, rfl⟩ := exists_append_of_length_lt hsplit.symm (Nat.lt_of_not_le hlt)
    refine hlong.longest more _ rfl hmore ?_ matches_fromText
    have hall : ∀ c ∈ sel ++ (more ++ q.fromText), isAny c := by
      rw [← hsplit]
      exact List.forall_mem_append.mpr ⟨isAny_fieldList _, isAny_fromText⟩
    exact fun c hc => hall c (List.mem_append_right _ (List.mem_append_left _ hc))
  obtain ⟨more, rfl, hfrom⟩ :
      ∃ more, sel = fieldList q.select ++ more ∧ q.fromText = more ++ rest := by
    rcases List.append_eq_append_iff.mp hsplit with ⟨more, rfl, hrest⟩ | ⟨more, hfields, rfl⟩
    · exact ⟨more, rfl, hrest⟩
    · rw [List.length_append] at hle
      obtain rfl := List.length_eq_zero_iff.mp (show more.length = 0 by omega)
      exact ⟨[], by simpa using hfields.symm, rfl⟩
  exact ⟨more, rest, hfrom, hlong, find?_text hsplit hsel hlong⟩

/-- A select list that is read back was not found too long. -/
theorem eq_nil_of_commaList_eq {more rest : List Char} (hfrom : q.fromText = more ++ rest)
    (hrest : fromRe.Matches rest)
    (h : commaList (fieldList q.select ++ more) = commaList (fieldList q.select)) : more = [] := by
  have hletters : more.filter isLetterOfList = [] := by
    have heq := filter_commaList (fieldList q.select ++ more)
    rw [h, filter_commaList, List.filter_append] at heq
    exact List.self_eq_append_right.mp heq
  rw [fromText_eq] at hfrom
  cases more with
  | nil => rfl
  | cons c more =>
      obtain ⟨-, hfrom⟩ := List.cons.inj hfrom
      cases more with
      | nil =>
          -- the rest would begin with the first letter of `FROM`
          obtain rfl : _ = rest := hfrom
          exact absurd (opens_fromRe.led _ _ hrest) (by decide)
      | cons d more =>
          obtain ⟨hd, -⟩ := List.cons.inj hfrom
          rw [← hd] at hletters
          have hmem : 'F' ∈ (c :: 'F' :: more).filter isLetterOfList :=
            List.mem_filter.mpr ⟨List.mem_cons_of_mem _ List.mem_cons_self, by decide⟩
          exact absurd (hletters ▸ hmem) List.not_mem_nil

theorem exists_before_literal (h : q.condition = some (f, s)) :
    ∃ pre, pre ≠ [] ∧ q.fromText =
      pre ++ (s.1 ++ '\x27' :: (groupText q.groupBy ++ windowText q.window)) := by
  refine ⟨" FROM ".toList ++ (q.source.1 ++ ([' '] ++ ("WHERE".toList ++ ([' '] ++
    (f.1 ++ " = \x27".toList))))), List.append_ne_nil_of_left_ne_nil (by decide) _, ?_⟩
  rw [fromText_eq, clauses_of_condition h]
  simp

theorem conditions_of_longest (hcond : q.condition = some (f, s))
    (h : Longest isAny fromRe (fieldList q.select) q.fromText) :
    ¬ Contains fromWhereRe s.1 ∧ ¬ (Spells "from" q.source.1 ∧ Spells "where" f.1) := by
  have hsuffix : ∀ pre rest, q.fromText = pre ++ rest → pre ≠ [] → ¬ fromRe.Matches rest := by
    intro pre rest hsplit hne
    refine h.longest pre rest hsplit hne fun c hc => isAny_fromText (q := q) c ?_
    rw [hsplit]
    exact List.mem_append_left _ hc
  constructor
  · obtain ⟨pre, hpre, hsplit⟩ := exists_before_literal hcond
    have hliteral : Avoids fromRe s.1
        ('\x27' :: (groupText q.groupBy ++ windowText q.window)) := by
      intro less more hs _
      refine hsuffix (pre ++ less) _ ?_ (List.append_ne_nil_of_left_ne_nil hpre _)
      rw [hsplit, hs]
      simp only [List.append_assoc]
    exact not_contains_of_avoids_fromRe hliteral (isAny_of_literal s) isAny_tail
  · intro hwords
    exact hsuffix " FROM".toList _ rfl (by decide) (fromRe_source_iff.mpr ⟨f, s, hcond, hwords⟩)

/-- The condition that is found ends where a `GROUP BY` or the end first follows. -/
theorem exists_condition (hcond : q.condition = some (f, s)) :
    ∃ body rest m,
      conditionText f s ++ (groupText q.groupBy ++ windowText q.window) = body ++ rest ∧
      Shortest isAny groupRe body rest ∧ whereRe.find? q.clauses = some ((3, body) :: m) := by
  have hmatch : (Pattern.cat (many1Lazy isAny) groupRe).Matches
      (conditionText f s ++ (groupText q.groupBy ++ windowText q.window)) :=
    matches_cat_many1Lazy.mpr (matches_cat_many1.mpr ⟨_, _, conditionText_ne_nil f s, rfl,
      isAny_conditionText f s, matches_of_find? find?_groupText⟩)
  obtain ⟨body, rest, hne, hsplit, hshort⟩ := exists_shortest hmatch
  obtain ⟨m, hm⟩ := hshort.rest_matches.exists_find?
  have hhead : ∀ c ∈ body.head?, isBlank c = false := by
    intro c hc
    have hsame : body.head? = (conditionText f s).head? := by
      rw [← List.head?_append_of_ne_nil _ (conditionText_ne_nil f s), hsplit,
        List.head?_append_of_ne_nil _ hne]
    rw [hsame] at hc
    exact isBlank_eq_false_of_isName (head?_conditionText f s c hc)
  have hclause := heads_where.find?_clause (i := 3) (by decide) hshort hne hhead
  rw [hm, Option.map_some, ← hsplit, ← whereText_append] at hclause
  refine ⟨body, rest, m, hsplit, hshort, ?_⟩
  rw [clauses, hcond]
  exact hclause

/-- A condition that is read back was not found too short. -/
theorem not_contains_of_trimSpace_eq {body rest : List Char} {gs : List Ident}
    {n : Option {n : ℕ // n < 2 ^ 63}}
    (hsplit : conditionText f s ++ (groupText gs ++ windowText n) = body ++ rest)
    (hshort : Shortest isAny groupRe body rest) (h : trimSpace body = conditionText f s) :
    ¬ Contains (keyword ["group", "by"]) s.1 := by
  have hle : (conditionText f s).length ≤ body.length := by
    rw [← h]
    exact length_trim_le _ _
  obtain ⟨more, rfl, htail⟩ : ∃ more, body = conditionText f s ++ more ∧
      groupText gs ++ windowText n = more ++ rest := by
    rcases List.append_eq_append_iff.mp hsplit with ⟨more, rfl, hrest⟩ | ⟨more, hbody, rfl⟩
    · exact ⟨more, rfl, hrest⟩
    · rw [hbody, List.length_append] at hle
      obtain rfl := List.length_eq_zero_iff.mp (show more.length = 0 by omega)
      exact ⟨[], by simpa using hbody.symm, rfl⟩
  have hliteral : Avoids groupRe s.1 ('\x27' :: (groupText gs ++ windowText n)) := by
    intro less part hs hne hmatch
    refine hshort.shortest (f.1 ++ (" = \x27".toList ++ less)) (part ++ ('\x27' :: more))
      ?_ ?_ ?_ ?_
    · rw [conditionText, hs]
      simp
    · exact List.append_ne_nil_of_left_ne_nil f.ne_nil _
    · exact List.append_ne_nil_of_left_ne_nil hne _
    · rw [htail] at hmatch
      simpa using hmatch
  exact not_contains_of_avoids_groupRe hliteral (isAny_of_literal s) isAny_tail

theorem unmistakable_of_parse_render (h : parse q.render = .ok q.toQuery) : q.Unmistakable := by
  intro f s hcond
  obtain ⟨m, hm, hquery⟩ := parse_render_eq_ok.mp h
  obtain ⟨more, rest, hfrom, hlong, hfind⟩ := exists_select (q := q)
  obtain ⟨m', hm'⟩ := hlong.rest_matches.exists_find?
  rw [hfind, hm', Option.map_some] at hm
  obtain rfl := Option.some.inj hm
  have hselect := congrArg Query.select (hquery.trans queryOf_captures.symm)
  obtain rfl := eq_nil_of_commaList_eq hfrom hlong.rest_matches hselect
  rw [List.append_nil] at hlong
  obtain rfl : q.fromText = rest := hfrom
  obtain ⟨body, rest, m, hsplit, hshort, hwhere⟩ := exists_condition hcond
  rw [find?_from hwhere] at hm'
  obtain rfl := Option.some.inj hm'
  refine ⟨not_contains_of_trimSpace_eq hsplit hshort ?_, conditions_of_longest hcond hlong⟩
  have hcondition := congrArg Query.whereCond hquery
  rw [toQuery, hcond] at hcondition
  exact String.ofList_injective hcondition

/-- **Parsing undoes rendering**, unless a keyword is found where it does not stand. -/
theorem parse_render_iff (q : Statement) : parse q.render = .ok q.toQuery ↔ q.Unmistakable :=
  ⟨unmistakable_of_parse_render, parse_render_of_unmistakable⟩

/-- A query whose literal holds `group by`. -/
def literalSample : Statement where
  select := [⟨['a'], by decide⟩]
  select_ne_nil := by decide
  source := ⟨['s'], by decide⟩
  condition := some (⟨['c'], by decide⟩, ⟨"x group by y".toList, by decide⟩)
  groupBy := []
  window := none

/-- The condition is cut off within its literal, and the rest of it is read as a field. -/
theorem parse_literalSample :
    literalSample.render = "SELECT a FROM s WHERE c = \x27x group by y\x27" ∧
      parse literalSample.render = .ok ⟨["a"], "s", "c = \x27x", ["y\x27"], 0⟩ ∧
      literalSample.toQuery = ⟨["a"], "s", "c = \x27x group by y\x27", [], 0⟩ := by
  decide +kernel

end Statement

end StreamFlow.Streamql
