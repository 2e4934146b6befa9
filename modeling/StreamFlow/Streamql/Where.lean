import StreamFlow.Streamql.Executor
import StreamFlow.Streamql.Statement

/-!
# Conditions of equality

`compilePredicate` splits a condition at white space, takes the first two words for a field and a
comparison, joins the others by single spaces and trims quotes. A condition that the grammar reads
as an equality with a literal is compiled to that equality if and only if there is white space on
both sides of the sign, the literal is not changed by the splitting and the trimming, and it is not
a number.
-/

namespace StreamFlow.Streamql

open GoStrings Processor

variable {φ ω : Type} {f : Ident} {s : Literal} {ws ws' : List Char}

/-- White space of the grammar. -/
def isWs (c : Char) : Bool := c = ' ' || c = '\t' || c = '\r' || c = '\n'

/-- The condition `f = 's'` with white space around the sign. -/
def equalityText (f : Ident) (s : Literal) (ws ws' : List Char) : List Char :=
  f.1 ++ (ws ++ ('=' :: (ws' ++ ('\x27' :: (s.1 ++ ['\x27'])))))

/-- The quotes that are trimmed. -/
def isQuote (c : Char) : Bool := c = '\x27' || c = '\x22'

/-- What a condition is compiled to, from its words. -/
def compileWords (words : List (List Char)) (r : Row φ ω) : Bool :=
  match words with
  | field :: op :: v :: vs =>
      let val := trim isQuote ([' '].intercalate (v :: vs))
      match (fields r)[String.ofList field]? with
      | some (.int n) =>
          match atoi val with
          | some iv => compareInt (String.ofList op) n iv
          | none => false
      | some (.string t) =>
          (String.ofList op = "=" ∨ String.ofList op = "==") && t = String.ofList val
      | _ => false
  | _ => true

theorem compilePredicate_eq (expr : String) (r : Row φ ω) :
    compilePredicate expr r = compileWords (GoStrings.fields (trimSpace expr.toList)) r := by
  unfold compilePredicate compileWords
  rfl

/-! ### The words of the condition -/

theorem isSpace_of_isWs {c : Char} (h : isWs c) : isSpace c := by
  simp only [isWs, Bool.or_eq_true, decide_eq_true_eq] at h
  obtain ((rfl | rfl) | rfl) | rfl := h <;> rfl

theorem Ident.isSpace (f : Ident) : ∀ c ∈ f.1, isSpace c = false :=
  fun c hc => isSpace_eq_false_of_isName (isName_of_isIdent f.2 c hc)

theorem trimSpace_equalityText : trimSpace (equalityText f s ws ws') = equalityText f s ws ws' := by
  refine trim_eq_self (fun c hc => f.isSpace c ?_) fun c hc => ?_
  · rw [equalityText, List.head?_append_of_ne_nil _ f.ne_nil] at hc
    exact List.mem_of_mem_head? hc
  · have hlast : (equalityText f s ws ws').getLast? = some '\x27' := by
      simp [equalityText, List.getLast?_append, List.getLast?_cons]
    rw [hlast] at hc
    rw [← Option.some.inj hc]
    rfl

/-- The filter of a condition of equality. -/
theorem passes_eq_compileWords {p : Plan} (hp : p.filter = String.ofList (equalityText f s ws ws'))
    (r : Row φ ω) : passes p r = compileWords (GoStrings.fields (equalityText f s ws ws')) r := by
  have hne : equalityText f s ws ws' ≠ [] := List.append_ne_nil_of_left_ne_nil f.ne_nil _
  rw [passes, buildFilter, hp, String.toList_ofList, trimSpace_equalityText, if_pos hne,
    Option.map_some, Option.getD_some]
  dsimp only
  rw [compilePredicate_eq, String.toList_ofList, trimSpace_equalityText]

theorem fields_ws_append (hws : ∀ c ∈ ws, isWs c) (text : List Char) :
    GoStrings.fields (ws ++ text) = GoStrings.fields text := by
  induction ws with
  | nil => rfl
  | cons c ws ih =>
      obtain ⟨hc, hws⟩ := List.forall_mem_cons.mp hws
      rw [List.cons_append, fields_cons_space (isSpace_of_isWs hc), ih hws]

/-- A word before white space. -/
theorem fields_word {u : List Char} (hne : u ≠ []) (hu : ∀ c ∈ u, isSpace c = false)
    (hws : ∀ c ∈ ws, isWs c) (hws_ne : ws ≠ []) (text : List Char) :
    GoStrings.fields (u ++ (ws ++ text)) = u :: GoStrings.fields text := by
  rw [fields_append hne hu, fields_ws_append hws]
  intro c hc
  rw [List.head?_append_of_ne_nil _ hws_ne] at hc
  exact isSpace_of_isWs (hws c (List.mem_of_mem_head? hc))

/-- Without white space before the sign, the first word is not the field. -/
theorem fields_tight_left (f : Ident) (s : Literal) (ws' : List Char) :
    ∃ v rest, GoStrings.fields (equalityText f s [] ws') = (f.1 ++ '=' :: v) :: rest := by
  have htext : equalityText f s [] ws' =
      (f.1 ++ ['=']) ++ (ws' ++ ('\x27' :: (s.1 ++ ['\x27']))) := by
    simp [equalityText]
  obtain ⟨v, rest, hfields⟩ := exists_fields_append (u := f.1 ++ ['=']) (by simp)
    (List.forall_mem_append.mpr ⟨f.isSpace, by decide⟩) (ws' ++ ('\x27' :: (s.1 ++ ['\x27'])))
  refine ⟨v, rest, ?_⟩
  rw [htext, hfields, List.append_assoc, List.singleton_append]

/-- Without white space after the sign, the second word is not the sign. -/
theorem fields_tight_right (f : Ident) (s : Literal) (hws : ∀ c ∈ ws, isWs c) (hws_ne : ws ≠ []) :
    ∃ v rest, GoStrings.fields (equalityText f s ws []) = f.1 :: ('=' :: '\x27' :: v) :: rest := by
  obtain ⟨v, rest, hfields⟩ := exists_fields_append (u := ['=', '\x27']) (by simp) (by decide)
    (s.1 ++ ['\x27'])
  refine ⟨v, rest, ?_⟩
  rw [equalityText, fields_word f.ne_nil f.isSpace hws hws_ne]
  exact congrArg (f.1 :: ·) hfields

/-- With white space on both sides, the third word begins the literal. -/
theorem fields_loose (f : Ident) (s : Literal) (hws : ∀ c ∈ ws, isWs c) (hws_ne : ws ≠ [])
    (hws' : ∀ c ∈ ws', isWs c) (hws'_ne : ws' ≠ []) :
    ∃ v vs, GoStrings.fields (equalityText f s ws ws') = f.1 :: ['='] :: v :: vs ∧
      [' '].intercalate (v :: vs) = '\x27' :: (collapse s.1 ++ ['\x27']) := by
  obtain ⟨v, vs, hfields⟩ := exists_fields_append (u := ['\x27']) (by simp) (by decide)
    (s.1 ++ ['\x27'])
  have hjoin := (intercalate_fields (q := '\x27') (by decide) s.1).1 ['\x27'] (by simp) (by decide)
  refine ⟨['\x27'] ++ v, vs, ?_, ?_⟩
  · rw [equalityText, fields_word f.ne_nil f.isSpace hws hws_ne, ← hfields]
    exact congrArg (f.1 :: ·)
      (fields_word (u := ['=']) (by simp) (by decide) hws' hws'_ne _)
  · rw [← hfields, hjoin]
    rfl

/-! ### The value of the condition -/

theorem trim_isQuote_quoted (text : List Char) :
    trim isQuote ('\x27' :: (text ++ ['\x27'])) = trim isQuote text := by
  rw [← List.singleton_append, trim_append_left (by decide), trim_append_right (by decide)]

theorem isQuote_eq_false_iff {c : Char} (hc : c ∈ s.1) : isQuote c = false ↔ c ≠ '\x22' := by
  simp [isQuote, (s.2 c hc).1]

/-- The literal is not changed by splitting, joining and trimming. -/
def Literal.Kept (s : Literal) : Prop :=
  (∀ c ∈ s.1, isSpace c → c = ' ') ∧ (s.1.IsChain fun c d => ¬ (isSpace c ∧ isSpace d)) ∧
    (∀ c ∈ s.1.head?, c ≠ '\x22') ∧ ∀ c ∈ s.1.getLast?, c ≠ '\x22'

instance (s : Literal) : Decidable s.Kept := inferInstanceAs (Decidable (_ ∧ _ ∧ _ ∧ _))

theorem trim_collapse_eq_iff : trim isQuote (collapse s.1) = s.1 ↔ s.Kept := by
  have hfirst : (∀ c ∈ s.1.head?, isQuote c = false) ↔ ∀ c ∈ s.1.head?, c ≠ '\x22' :=
    forall₂_congr fun c hc => isQuote_eq_false_iff (List.mem_of_mem_head? hc)
  have hlast : (∀ c ∈ s.1.getLast?, isQuote c = false) ↔ ∀ c ∈ s.1.getLast?, c ≠ '\x22' :=
    forall₂_congr fun c hc => isQuote_eq_false_iff (List.mem_of_getLast? hc)
  rw [Literal.Kept, ← hfirst, ← hlast, ← trim_eq_self_iff, ← and_assoc, ← collapse_eq_self_iff]
  constructor
  · intro h
    -- neither of the two steps makes the text longer, so neither drops anything
    have hlength : (collapse s.1).length ≤ (trim isQuote (collapse s.1)).length := by
      rw [h]
      exact length_collapseAfter_le false s.1
    have htrim := (trim_sublist isQuote (collapse s.1)).eq_of_length_le hlength
    have hcollapse : collapse s.1 = s.1 := htrim.symm.trans h
    rw [hcollapse] at h
    exact ⟨hcollapse, h⟩
  · rintro ⟨hcollapse, htrim⟩
    rw [hcollapse, htrim]

/-! ### The records that are kept -/

/-- A predicate whose words are a field, a sign of equality and a text that is not a number. -/
theorem compileWords_eq_true_iff {name v : List Char} {vs : List (List Char)}
    (hval : atoi (trim isQuote ([' '].intercalate (v :: vs))) = none) (r : Row φ ω) :
    compileWords (name :: ['='] :: v :: vs) r = true ↔
      (Processor.fields r)[String.ofList name]? =
        some (.string (String.ofList (trim isQuote ([' '].intercalate (v :: vs))))) := by
  rw [compileWords]
  split
  · next n hn => simp [hval, hn]
  · next t ht => simp [ht]
  · next hother =>
      refine iff_of_false Bool.false_ne_true fun h => ?_
      exact hother _ h

theorem ofList_eq_sign_iff {op : List Char} :
    (String.ofList op = "=" ∨ String.ofList op = "==") ↔ op = ['='] ∨ op = ['=', '='] := by
  have hsign : "=" = String.ofList ['='] := rfl
  have hsigns : "==" = String.ofList ['=', '='] := rfl
  rw [hsign, hsigns, String.ofList_inj, String.ofList_inj]

section Sample

variable {field op v name : List Char} {vs : List (List Char)} {x : Value φ ω}

/-- A condition of fewer words keeps every record. -/
theorem exists_words_of_not_compileWords {words : List (List Char)} {r : Row φ ω}
    (h : compileWords words r ≠ true) : ∃ field op v vs, words = field :: op :: v :: vs := by
  unfold compileWords at h
  split at h
  · exact ⟨_, _, _, _, rfl⟩
  · exact absurd rfl h

/-- A record with one field is rejected if the condition is about another one. -/
theorem field_eq_of_compileWords
    (h : compileWords (field :: op :: v :: vs) (recordOf (String.ofList name) x) = true) :
    field = name := by
  by_contra hne
  have hget :
      (Processor.fields (recordOf (String.ofList name) x))[String.ofList field]? = none := by
    rw [Processor.fields, recordOf, Option.getD_some, OrdMap.getElem?_insert,
      Std.ExtTreeMap.getElem?_empty]
    exact if_neg fun heq => hne (String.ofList_inj.mp heq).symm
  rw [compileWords, hget] at h
  cases h

theorem getElem?_fields_recordOf (name : String) :
    (Processor.fields (recordOf name x))[name]? = some x := by
  rw [Processor.fields, recordOf, Option.getD_some, OrdMap.getElem?_insert_self']

theorem compileWords_string {t : String}
    (h : compileWords (name :: op :: v :: vs)
      (recordOf (String.ofList name) (.string t) : Row φ ω) = true) :
    (op = ['='] ∨ op = ['=', '=']) ∧
      t = String.ofList (trim isQuote ([' '].intercalate (v :: vs))) := by
  rw [compileWords, getElem?_fields_recordOf] at h
  simp only [Bool.and_eq_true, decide_eq_true_eq] at h
  exact ⟨ofList_eq_sign_iff.mp h.1, h.2⟩

theorem compileWords_int {n : ℤ} (hop : op = ['='] ∨ op = ['=', '='])
    (hval : atoi (trim isQuote ([' '].intercalate (v :: vs))) = some n) :
    compileWords (name :: op :: v :: vs)
      (recordOf (String.ofList name) (.int n) : Row φ ω) = true := by
  rw [compileWords, getElem?_fields_recordOf]
  simp only [hval, compareInt, if_pos (ofList_eq_sign_iff.mpr hop), decide_true]

end Sample

/-- The words of a predicate that keeps exactly the records with a text in a field: the empty record
shows that there are three of them, the record with the text which they are, and one with a number
that the text is none. -/
theorem words_of_keeps {words : List (List Char)} {name text : List Char}
    (h : ∀ r : Row φ ω, compileWords words r = true ↔
      (Processor.fields r)[String.ofList name]? = some (.string (String.ofList text))) :
    ∃ op v vs, words = name :: op :: v :: vs ∧ (op = ['='] ∨ op = ['=', '=']) ∧
      trim isQuote ([' '].intercalate (v :: vs)) = text ∧ atoi text = none := by
  have hempty : compileWords words (none : Row φ ω) ≠ true := by
    intro hkept
    have hget := (h none).mp hkept
    rw [Processor.fields, Option.getD_none, Std.ExtTreeMap.getElem?_empty] at hget
    cases hget
  have hkept := (h (recordOf _ _)).mpr (getElem?_fields_recordOf _)
  obtain ⟨field, op, v, vs, rfl⟩ := exists_words_of_not_compileWords hempty
  obtain rfl := field_eq_of_compileWords hkept
  obtain ⟨hop, htext⟩ := compileWords_string hkept
  rw [String.ofList_inj] at htext
  refine ⟨op, v, vs, rfl, hop, htext.symm, ?_⟩
  cases hval : atoi text with
  | none => rfl
  | some n =>
      rw [htext] at hval
      have hget := (h (recordOf _ _)).mp (compileWords_int hop hval)
      rw [getElem?_fields_recordOf] at hget
      cases hget

/-- The filter of `f = 's'` keeps exactly the records with the string in the field if and only if
there is white space on both sides of the sign and the literal is kept as it is and is no number. -/
theorem passes_equality_iff {p : Plan} (hws : ∀ c ∈ ws, isWs c) (hws' : ∀ c ∈ ws', isWs c)
    (hp : p.filter = String.ofList (equalityText f s ws ws')) :
    (∀ r : Row φ ω, passes p r = true ↔
      (Processor.fields r)[String.ofList f.1]? = some (.string (String.ofList s.1))) ↔
    ws ≠ [] ∧ ws' ≠ [] ∧ s.Kept ∧ atoi s.1 = none := by
  simp only [passes_eq_compileWords hp]
  constructor
  · intro h
    obtain ⟨op, v, vs, hwords, hop, hval, hatoi⟩ := words_of_keeps h
    have hws_ne : ws ≠ [] := by
      rintro rfl
      obtain ⟨u, rest, htight⟩ := fields_tight_left f s ws'
      rw [htight, List.cons.injEq] at hwords
      simp at hwords
    have hws'_ne : ws' ≠ [] := by
      rintro rfl
      obtain ⟨u, rest, htight⟩ := fields_tight_right f s hws hws_ne
      rw [htight, List.cons.injEq, List.cons.injEq] at hwords
      obtain ⟨-, rfl, -⟩ := hwords
      simp at hop
    obtain ⟨w, rest, hloose, hjoin⟩ := fields_loose f s hws hws_ne hws' hws'_ne
    rw [hloose] at hwords
    simp only [List.cons.injEq, true_and] at hwords
    obtain ⟨-, rfl, rfl⟩ := hwords
    rw [hjoin, trim_isQuote_quoted, trim_collapse_eq_iff] at hval
    exact ⟨hws_ne, hws'_ne, hval, hatoi⟩
  · rintro ⟨hws_ne, hws'_ne, hkept, hatoi⟩ r
    obtain ⟨v, vs, hloose, hjoin⟩ := fields_loose f s hws hws_ne hws' hws'_ne
    have hval : trim isQuote ([' '].intercalate (v :: vs)) = s.1 := by
      rw [hjoin, trim_isQuote_quoted, trim_collapse_eq_iff.mpr hkept]
    rw [hloose, compileWords_eq_true_iff (by rw [hval, hatoi]), hval]

theorem passes_equality_two_words :
    (planify ⟨["g"], "s", "g = \x27a b\x27", [], 0⟩).filter =
      String.ofList (equalityText ⟨['g'], rfl⟩ ⟨['a', ' ', 'b'], by decide⟩ [' '] [' ']) ∧
    ∀ r : Row ℤ Empty, passes (planify ⟨["g"], "s", "g = \x27a b\x27", [], 0⟩) r = true ↔
      (Processor.fields r)["g"]? = some (.string "a b") := by
  have hspace : ∀ c ∈ [' '], isWs c := by decide
  exact ⟨rfl, (passes_equality_iff (f := ⟨['g'], rfl⟩) (s := ⟨['a', ' ', 'b'], by decide⟩) hspace
    hspace rfl).mpr (by decide)⟩

/-- Without white space at the sign every record is kept, a literal with two spaces in a row is not
found, and a literal that is a number is found in an `int`. -/
theorem passes_equality_disagrees :
    (∃ q, parse "SELECT g FROM s WHERE g=\x27a\x27" = .ok q ∧ q.whereCond = "g=\x27a\x27" ∧
      passes (planify q) (recordOf "g" (.string "b" : Value ℤ Empty)) = true) ∧
    (∃ q, parse "SELECT g FROM s WHERE g = \x27a  b\x27" = .ok q ∧
      q.whereCond = "g = \x27a  b\x27" ∧
      passes (planify q) (recordOf "g" (.string "a  b" : Value ℤ Empty)) = false) ∧
    ∃ q, parse "SELECT g FROM s WHERE g = \x275\x27" = .ok q ∧ q.whereCond = "g = \x275\x27" ∧
      passes (planify q) (recordOf "g" (.int 5 : Value ℤ Empty)) = true := by
  refine ⟨⟨⟨["g"], "s", "g=\x27a\x27", [], 0⟩, ?_⟩, ⟨⟨["g"], "s", "g = \x27a  b\x27", [], 0⟩, ?_⟩,
    ⟨["g"], "s", "g = \x275\x27", [], 0⟩, ?_⟩ <;> decide +kernel

end StreamFlow.Streamql
