import StreamFlow.Foundation.GoStrings
import StreamFlow.Foundation.Pattern
import StreamFlow.Processor.Aggregate

/-!
# Textual schemas

`schema/registry.go`: schemas as texts such as `{id:int, name:string}` under names, and the
check of a record against one of them. The text is stripped of its braces, split at commas and
each part at its colon, and what is not of this form is left out.

A `Rendering` is a list of names with their types as it may be written, with white space around
everything. `validate_iff_conforms_iff` says for which of them the check means what is listed.
Texts are lists of Unicode characters.
-/

namespace StreamFlow.Schema

open GoStrings (isSpace trim trimSpace)
open Processor (Value)

structure Registry where
  schemas : OrdMap String String

def newRegistry : Registry := ⟨∅⟩

def trimBraces (s : List Char) : List Char :=
  if 2 ≤ s.length ∧ s.head? = some '{' ∧ s.getLast? = some '}' then s.tail.dropLast else s

def splitAndTrim (s : List Char) (sep : Char) : List (List Char) :=
  ((s.splitOn sep).map trimSpace).filter (· ≠ [])

/-- The key and the type in a part of a schema. -/
def keyType (p : List Char) : Option (String × String) :=
  match splitAndTrim p ':' with
  | [k, t] => some (String.ofList k, String.ofList t)
  | _ => none

def splitSchema (s : String) : OrdMap String String :=
  let s := trimBraces s.toList
  if s = [] then ∅
  else
    (splitAndTrim s ',').foldl
      (fun out p => match keyType p with
        | some (k, t) => out.insert k t
        | none => out) ∅

variable {φ ω : Type}

/-- The check of one value; only two types are looked at. -/
def hasType (typ : String) (v : Value φ ω) : Bool :=
  if typ = "int" then
    match v with
    | .int _ => true
    | _ => false
  else if typ = "string" then
    match v with
    | .string _ => true
    | _ => false
  else true

namespace Registry

def register (reg : Registry) (name schema : String) : Registry :=
  ⟨reg.schemas.insert name schema⟩

def get (reg : Registry) (name : String) : Option String := reg.schemas[name]?

/-- `Validate`; the order in which the parts are checked makes no difference. -/
def validate (reg : Registry) (name : String) (r : Processor.Record (Value φ ω)) : Bool :=
  match reg.get name with
  | none => false
  | some s =>
      if s = "" then true
      else
        (splitSchema s).toList.all fun e =>
          match (Processor.fields r)[e.1]? with
          | none => false
          | some v => hasType e.2 v

end Registry

/-! ### Schemas as they are written -/

/-- White space. -/
structure Blank where
  chars : List Char
  space : ∀ c ∈ chars, isSpace c = true

/-- A name or a type. -/
structure Word where
  chars : List Char
  ne : chars ≠ []
  plain : ∀ c ∈ chars, c ≠ ',' ∧ c ≠ ':' ∧ c ≠ '{' ∧ c ≠ '}' ∧ isSpace c = false

def Word.text (w : Word) : String := String.ofList w.chars

/-- A name and its type, with white space around both. -/
structure Item where
  beforeName : Blank
  name : Word
  afterName : Blank
  beforeType : Blank
  type : Word
  afterType : Blank

/-- A word between white space. -/
def padded (b : Blank) (w : Word) (b' : Blank) : List Char := b.chars ++ (w.chars ++ b'.chars)

namespace Item

/-- The part in front of the colon. -/
def left (i : Item) : List Char := padded i.beforeName i.name i.afterName

/-- The part behind the colon. -/
def right (i : Item) : List Char := padded i.beforeType i.type i.afterType

def chars (i : Item) : List Char := i.left ++ ':' :: i.right

end Item

/-- A schema as it is written: items between braces, with white space around the whole text.
Between the braces of an empty schema there may be white space too. -/
structure Rendering where
  before : Blank
  inner : Blank
  items : List Item
  after : Blank
  nodup : (items.map fun i => i.name.text).Nodup

namespace Rendering

/-- The text between the braces. -/
def body (t : Rendering) : List Char :=
  if t.items = [] then t.inner.chars else [','].intercalate (t.items.map Item.chars)

def chars (t : Rendering) : List Char :=
  t.before.chars ++ '{' :: (t.body ++ '}' :: t.after.chars)

/-- The record has every name, with a value of the type that is given for it. -/
def Conforms (t : Rendering) (r : Processor.Record (Value φ ω)) : Prop :=
  ∀ i ∈ t.items, ∃ v, (Processor.fields r)[i.name.text]? = some v ∧
    (i.type.text = "int" → ∃ n, v = .int n) ∧ (i.type.text = "string" → ∃ s, v = .string s)

end Rendering

theorem hasType_iff {typ : String} {v : Value φ ω} :
    hasType typ v = true ↔
      (typ = "int" → ∃ n, v = .int n) ∧ (typ = "string" → ∃ s, v = .string s) := by
  unfold hasType
  by_cases hint : typ = "int"
  · subst hint
    cases v <;> simp
  · by_cases hstring : typ = "string"
    · subst hstring
      cases v <;> simp
    · simp [hint, hstring]

theorem splitSchema_eq (s : String) :
    splitSchema s =
      OrdMap.insertAll ∅ ((splitAndTrim (trimBraces s.toList) ',').filterMap keyType) := by
  have hfoldl : ∀ (ps : List (List Char)) (out : OrdMap String String),
      ps.foldl (fun out p => match keyType p with
        | some (k, t) => out.insert k t
        | none => out) out = OrdMap.insertAll out (ps.filterMap keyType) := by
    intro ps
    induction ps with
    | nil => exact fun _ => rfl
    | cons p ps ih =>
        intro out
        rw [List.foldl_cons, ih, List.filterMap_cons]
        cases keyType p with
        | none => rfl
        | some e => rfl
  rw [splitSchema]
  split
  · next hnil => rw [hnil]; rfl
  · exact hfoldl _ _

/-- What a check of the parts says about a record. -/
theorem validate_eq_true_iff {reg : Registry} {name s : String} (hget : reg.get name = some s)
    (hs : s ≠ "") {r : Processor.Record (Value φ ω)} :
    reg.validate name r = true ↔
      ∀ k t : String, (splitSchema s)[k]? = some t →
        ∃ v, (Processor.fields r)[k]? = some v ∧ hasType t v = true := by
  unfold Registry.validate
  rw [hget]
  change (if s = "" then true else (splitSchema s).toList.all _) = true ↔ _
  rw [if_neg hs, List.all_eq_true]
  constructor
  · intro h k t hk
    have hcheck := h (k, t) ((OrdMap.mem_toList_iff _).mpr hk)
    dsimp only at hcheck
    split at hcheck
    · cases hcheck
    · next v hv => exact ⟨v, hv, hcheck⟩
  · rintro h ⟨k, t⟩ he
    obtain ⟨v, hv, htype⟩ := h k t ((OrdMap.mem_toList_iff _).mp he)
    rw [hv]
    exact htype

/-! ### The parts of a schema -/

theorem splitAndTrim_intercalate {sep : Char} {ps : List (List Char)} (hps : ∀ p ∈ ps, sep ∉ p)
    (hne : ps ≠ []) :
    splitAndTrim ([sep].intercalate ps) sep = (ps.map trimSpace).filter (· ≠ []) := by
  rw [splitAndTrim, List.splitOn_intercalate sep hps hne]

/-- A part with one colon. -/
theorem keyType_trimSpace {a b : List Char} (ha : ':' ∉ a) (hb : ':' ∉ b)
    (hkey : trimSpace a ≠ []) (htype : trimSpace b ≠ []) :
    keyType (trimSpace (a ++ ':' :: b)) =
      some (String.ofList (trimSpace a), String.ofList (trimSpace b)) := by
  obtain ⟨a', b', htrim, ha', hb', hsub, hsub'⟩ :=
    GoStrings.exists_trim_append_cons (p := isSpace) (c := ':') (by decide) a b
  have hsplit : splitAndTrim (trimSpace (a ++ ':' :: b)) ':' = [trimSpace a, trimSpace b] := by
    rw [splitAndTrim, trimSpace, htrim,
      List.splitOn_append_cons_self_of_not_mem fun h => ha (hsub h),
      List.splitOn_eq_singleton fun h => hb (hsub' h)]
    simp only [List.map_cons, List.map_nil, trimSpace, ha', hb']
    exact List.filter_eq_self.mpr (by simpa using ⟨hkey, htype⟩)
  rw [keyType, hsplit]

/-- A part without a colon. -/
theorem keyType_of_not_mem {p : List Char} (h : ':' ∉ p) : keyType p = none := by
  rw [keyType, splitAndTrim, List.splitOn_eq_singleton h, List.map_singleton, List.filter_singleton]
  cases decide (trimSpace p ≠ []) <;> rfl

/-! ### Words and white space -/

/-- The characters that a schema is split at. -/
def isSeparator (c : Char) : Bool := c = ',' || c = ':' || c = '{' || c = '}'

theorem isSpace_of_isSeparator {c : Char} (hc : isSeparator c = true) : isSpace c = false := by
  simp only [isSeparator, Bool.or_eq_true, decide_eq_true_eq] at hc
  rcases hc with ((rfl | rfl) | rfl) | rfl <;> decide

theorem Blank.not_mem {c : Char} (hc : isSpace c = false) (b : Blank) : c ∉ b.chars := by
  intro hmem
  rw [b.space c hmem] at hc
  cases hc

theorem Word.not_mem {c : Char} (hc : isSeparator c = true) (w : Word) : c ∉ w.chars := by
  intro hmem
  have hplain := w.plain c hmem
  simp [isSeparator, hplain] at hc

theorem Word.isSpace_of_mem {w : Word} {c : Char} (hc : c ∈ w.chars) : isSpace c = false :=
  (w.plain c hc).2.2.2.2

theorem not_mem_append_cons {c d : Char} {l l' : List Char} (hne : c ≠ d) (hl : c ∉ l)
    (hl' : c ∉ l') : c ∉ l ++ d :: l' := by
  rw [List.mem_append, List.mem_cons]
  rintro (hmem | hmem | hmem)
  · exact hl hmem
  · exact hne hmem
  · exact hl' hmem

theorem not_mem_padded {c : Char} (hc : isSeparator c = true) (b : Blank) (w : Word) (b' : Blank) :
    c ∉ padded b w b' := by
  have hspace := isSpace_of_isSeparator hc
  rw [padded, List.mem_append, List.mem_append]
  rintro (hmem | hmem | hmem)
  · exact b.not_mem hspace hmem
  · exact w.not_mem hc hmem
  · exact b'.not_mem hspace hmem

theorem trimSpace_padded (b : Blank) (w : Word) (b' : Blank) :
    trimSpace (padded b w b') = w.chars := by
  rw [trimSpace, padded, GoStrings.trim_append_left b.space, GoStrings.trim_append_right b'.space]
  refine GoStrings.trim_eq_self (fun c hc => ?_) fun c hc => ?_
  · exact Word.isSpace_of_mem (List.mem_of_mem_head? hc)
  · exact Word.isSpace_of_mem (List.mem_of_mem_getLast? hc)

/-- A text with a character that is not white space does not vanish. -/
theorem trimSpace_ne_nil {c : Char} (hc : isSpace c = false) {l : List Char} (hmem : c ∈ l) :
    trimSpace l ≠ [] :=
  List.ne_nil_of_mem ((GoStrings.mem_trim_iff hc).mpr hmem)

theorem trimSpace_padded_append_ne_nil (b : Blank) (w : Word) (b' : Blank) (l : List Char) :
    trimSpace (padded b w b' ++ l) ≠ [] := by
  obtain ⟨c, hc⟩ := List.exists_mem_of_ne_nil w.chars w.ne
  refine trimSpace_ne_nil (Word.isSpace_of_mem hc) ?_
  simp [padded, hc]

namespace Item

variable (i : Item)

theorem keyType_chars : keyType (trimSpace i.chars) = some (i.name.text, i.type.text) := by
  have hname : trimSpace i.left = i.name.chars := trimSpace_padded _ _ _
  have htype : trimSpace i.right = i.type.chars := trimSpace_padded _ _ _
  have hkey : keyType (trimSpace i.chars) =
      some (String.ofList (trimSpace i.left), String.ofList (trimSpace i.right)) :=
    keyType_trimSpace (not_mem_padded (by decide) _ _ _) (not_mem_padded (by decide) _ _ _)
      (by rw [hname]; exact i.name.ne) (by rw [htype]; exact i.type.ne)
  rw [hkey, hname, htype]
  rfl

theorem comma_not_mem_chars : ',' ∉ i.chars :=
  not_mem_append_cons (by decide) (not_mem_padded (by decide) _ _ _)
    (not_mem_padded (by decide) _ _ _)

theorem trimSpace_chars_ne_nil : trimSpace i.chars ≠ [] := by
  refine trimSpace_ne_nil (c := ':') (by decide) ?_
  rw [chars]
  simp

end Item

namespace Rendering

variable (t : Rendering)

/-- Between the braces the parts are the items. -/
theorem filterMap_keyType_body :
    (splitAndTrim t.body ',').filterMap keyType =
      t.items.map fun i => (i.name.text, i.type.text) := by
  rw [body]
  split
  · next hnil =>
      have hblank : trimSpace t.inner.chars = [] := by
        have htrim := GoStrings.trim_append_left t.inner.space []
        rwa [List.append_nil] at htrim
      rw [hnil, splitAndTrim, List.splitOn_eq_singleton (t.inner.not_mem (by decide)),
        List.map_singleton, hblank]
      rfl
  · next hne =>
      have hcomma : ∀ p ∈ t.items.map Item.chars, ',' ∉ p := by
        intro p hp
        obtain ⟨i, -, rfl⟩ := List.mem_map.mp hp
        exact i.comma_not_mem_chars
      rw [splitAndTrim_intercalate hcomma (by simpa using hne), List.map_map,
        List.filter_eq_self.mpr, List.filterMap_map]
      · rw [← List.filterMap_eq_map]
        exact List.filterMap_congr fun i _ => i.keyType_chars
      · intro p hp
        obtain ⟨i, -, rfl⟩ := List.mem_map.mp hp
        exact decide_eq_true i.trimSpace_chars_ne_nil

theorem trimBraces_chars (hbefore : t.before.chars = []) (hafter : t.after.chars = []) :
    trimBraces t.chars = t.body := by
  rw [chars, hbefore, hafter, List.nil_append, trimBraces, if_pos]
  · rw [List.tail_cons, List.dropLast_concat]
  · exact ⟨by simp, rfl, by rw [← List.cons_append, List.getLast?_concat]⟩

/-- White space in front of the braces or behind them keeps them from being stripped. -/
theorem trimBraces_chars_of_ne (h : ¬ (t.before.chars = [] ∧ t.after.chars = [])) :
    trimBraces t.chars = t.chars := by
  rw [trimBraces, if_neg]
  rintro ⟨-, hfirst, hlast⟩
  refine h ⟨?_, ?_⟩
  · cases hbefore : t.before.chars with
    | nil => rfl
    | cons c b =>
        rw [chars, hbefore, List.cons_append, List.head?_cons, Option.some.injEq] at hfirst
        have hspace := t.before.space c (hbefore ▸ List.mem_cons_self)
        rw [hfirst] at hspace
        exact absurd hspace (by decide)
  · cases hafter : t.after.chars using List.reverseRecOn with
    | nil => rfl
    | append_singleton b c =>
        have hchars : t.chars =
            (t.before.chars ++ '{' :: (t.body ++ '}' :: b)) ++ [c] := by
          rw [chars, hafter]
          simp
        rw [hchars, List.getLast?_concat, Option.some.injEq] at hlast
        have hspace := t.after.space c (hafter ▸ by simp)
        rw [hlast] at hspace
        exact absurd hspace (by decide)

/-- The text up to the first colon. -/
def opening (i : Item) : List Char := t.before.chars ++ '{' :: i.left

theorem not_mem_opening {c : Char} (hc : isSeparator c = true) (hne : c ≠ '{') (i : Item) :
    c ∉ t.opening i :=
  not_mem_append_cons hne (t.before.not_mem (isSpace_of_isSeparator hc))
    (not_mem_padded hc _ _ _)

theorem not_mem_closing {c : Char} (hc : isSeparator c = true) (hne : c ≠ '}') (i : Item) :
    c ∉ i.right ++ '}' :: t.after.chars :=
  not_mem_append_cons hne (not_mem_padded hc _ _ _)
    (t.after.not_mem (isSpace_of_isSeparator hc))

/-- The first part of the whole text, with the brace in front of the first name. -/
theorem exists_splitOn_chars (hitems : t.items ≠ []) :
    ∃ i l ps, t.chars.splitOn ',' = (t.opening i ++ ':' :: (i.right ++ l)) :: ps ∧
      ':' ∉ i.right ++ l := by
  obtain ⟨i, rest, hcons⟩ := List.exists_cons_of_ne_nil hitems
  cases rest with
  | nil =>
      have hchars : t.chars = t.opening i ++ ':' :: (i.right ++ '}' :: t.after.chars) := by
        rw [chars, body, if_neg hitems, hcons]
        simp [Item.chars, opening]
      have hcomma : ',' ∉ t.opening i ++ ':' :: (i.right ++ '}' :: t.after.chars) :=
        not_mem_append_cons (by decide) (t.not_mem_opening (by decide) (by decide) i)
          (t.not_mem_closing (by decide) (by decide) i)
      have hsplit := List.splitOn_eq_singleton hcomma
      rw [← hchars] at hsplit
      exact ⟨i, _, [], by rw [hsplit, hchars], t.not_mem_closing (by decide) (by decide) i⟩
  | cons j rest =>
      have hchars : t.chars = (t.opening i ++ ':' :: i.right) ++
          ',' :: ([','].intercalate ((j :: rest).map Item.chars) ++ '}' :: t.after.chars) := by
        rw [chars, body, if_neg hitems, hcons, List.map_cons, List.map_cons,
          List.intercalate_cons_cons]
        simp [Item.chars, opening]
      have hcomma : ',' ∉ t.opening i ++ ':' :: i.right :=
        not_mem_append_cons (by decide) (t.not_mem_opening (by decide) (by decide) i)
          (not_mem_padded (by decide) _ _ _)
      have hsplit := List.splitOn_append_cons_self_of_not_mem hcomma
        ([','].intercalate ((j :: rest).map Item.chars) ++ '}' :: t.after.chars)
      rw [← hchars, ← List.append_nil i.right] at hsplit
      refine ⟨i, [], _, hsplit, ?_⟩
      rw [List.append_nil]
      exact not_mem_padded (by decide) _ _ _

/-- With the braces in it, the first part has a key that is no name. -/
theorem exists_brace_key (hitems : t.items ≠ []) :
    ∃ k typ : String, (k, typ) ∈ (splitAndTrim t.chars ',').filterMap keyType ∧
      '{' ∈ k.toList := by
  obtain ⟨i, l, ps, hsplit, hcolon⟩ := t.exists_splitOn_chars hitems
  have hbrace : '{' ∈ t.opening i := by simp [opening]
  have hkey := keyType_trimSpace (t.not_mem_opening (by decide) (by decide) i) hcolon
    (trimSpace_ne_nil (by decide) hbrace) (trimSpace_padded_append_ne_nil _ _ _ l)
  refine ⟨_, _, List.mem_filterMap.mpr ⟨_, ?_, hkey⟩, ?_⟩
  · rw [splitAndTrim, hsplit]
    refine List.mem_filter.mpr ⟨List.mem_map_of_mem List.mem_cons_self, ?_⟩
    exact decide_eq_true (trimSpace_ne_nil (c := ':') (by decide) (by simp))
  · rw [String.toList_ofList]
    exact (GoStrings.mem_trim_iff (by decide)).mpr hbrace

/-- A record with the names and types of a schema. -/
def exampleRecord : Processor.Record (Value φ ω) :=
  some (OrdMap.insertAll ∅ (t.items.map fun i =>
    (i.name.text, if i.type.text = "int" then .int 0 else .string "")))

theorem nodup_keys {β : Type*} (f : Item → β) :
    ((t.items.map fun i => (i.name.text, f i)).map Prod.fst).Nodup := by
  rw [List.map_map]
  exact t.nodup

theorem getElem?_exampleRecord {k : String} {v : Value φ ω} :
    (Processor.fields t.exampleRecord)[k]? = some v ↔
      ∃ i ∈ t.items, i.name.text = k ∧
        (if i.type.text = "int" then .int 0 else .string "") = v := by
  refine (OrdMap.getElem?_insertAll_empty_iff (t.nodup_keys _)).trans ?_
  simp

theorem conforms_exampleRecord : t.Conforms (t.exampleRecord : Processor.Record (Value φ ω)) := by
  intro i hi
  refine ⟨_, t.getElem?_exampleRecord.mpr ⟨i, hi, rfl, rfl⟩, ?_, ?_⟩
  · intro htype
    exact ⟨0, if_pos htype⟩
  · intro htype
    exact ⟨"", if_neg (by rw [htype]; decide)⟩

/-- Braces around nothing are no part. -/
theorem filterMap_keyType_chars_of_nil (hitems : t.items = []) :
    (splitAndTrim t.chars ',').filterMap keyType = [] := by
  have hnot : ∀ c, isSeparator c = true → c ≠ '{' → c ≠ '}' → c ∉ t.chars := by
    intro c hc hleft hright
    have hspace := isSpace_of_isSeparator hc
    rw [chars, body, if_pos hitems]
    simp [hleft, hright, Blank.not_mem hspace]
  have hcolon : ':' ∉ trimSpace t.chars := fun hmem =>
    hnot ':' (by decide) (by decide) (by decide) ((GoStrings.mem_trim_iff (by decide)).mp hmem)
  rw [splitAndTrim, List.splitOn_eq_singleton (hnot ',' (by decide) (by decide) (by decide)),
    List.map_singleton]
  refine List.filterMap_eq_nil_iff.mpr fun p hp => ?_
  rw [List.mem_singleton.mp (List.mem_of_mem_filter hp)]
  exact keyType_of_not_mem hcolon

theorem splitSchema_chars :
    splitSchema (String.ofList t.chars) =
      OrdMap.insertAll ∅ ((splitAndTrim (trimBraces t.chars) ',').filterMap keyType) := by
  rw [splitSchema_eq, String.toList_ofList]

theorem ofList_chars_ne : String.ofList t.chars ≠ "" := by
  intro hempty
  have hchars := congrArg String.toList hempty
  rw [String.toList_ofList, chars] at hchars
  simp at hchars

variable {t} {reg : Registry} {name : String}

/-- If the parts are the items, the check means what they list. -/
theorem validate_iff_of_parts (hget : reg.get name = some (String.ofList t.chars))
    (hparts : (splitAndTrim (trimBraces t.chars) ',').filterMap keyType =
      t.items.map fun i => (i.name.text, i.type.text)) (r : Processor.Record (Value φ ω)) :
    reg.validate name r = true ↔ t.Conforms r := by
  have hschema : ∀ k typ : String, (splitSchema (String.ofList t.chars))[k]? = some typ ↔
      ∃ i ∈ t.items, i.name.text = k ∧ i.type.text = typ := by
    intro k typ
    rw [splitSchema_chars, hparts, OrdMap.getElem?_insertAll_empty_iff (t.nodup_keys _)]
    simp
  rw [validate_eq_true_iff hget t.ofList_chars_ne]
  constructor
  · intro h i hi
    obtain ⟨v, hv, htype⟩ := h _ _ ((hschema _ _).mpr ⟨i, hi, rfl, rfl⟩)
    exact ⟨v, hv, hasType_iff.mp htype⟩
  · intro h k typ hk
    obtain ⟨i, hi, rfl, rfl⟩ := (hschema k typ).mp hk
    obtain ⟨v, hv, htype⟩ := h i hi
    exact ⟨v, hv, hasType_iff.mpr htype⟩

/-- If the braces stay, a record with exactly the names that are listed is rejected. -/
theorem not_validate_exampleRecord (hget : reg.get name = some (String.ofList t.chars))
    (hbraces : trimBraces t.chars = t.chars) (hitems : t.items ≠ []) :
    ¬ reg.validate name (t.exampleRecord : Processor.Record (Value φ ω)) = true := by
  rw [validate_eq_true_iff hget t.ofList_chars_ne]
  intro h
  obtain ⟨k, typ, hmem, hbrace⟩ := t.exists_brace_key hitems
  have hsome : ((splitSchema (String.ofList t.chars))[k]?).isSome := by
    rw [splitSchema_chars, hbraces, OrdMap.isSome_getElem?_insertAll]
    exact .inl ⟨typ, hmem⟩
  obtain ⟨typ', htyp'⟩ := Option.isSome_iff_exists.mp hsome
  obtain ⟨v, hv, -⟩ := h k typ' htyp'
  obtain ⟨i, -, rfl, -⟩ := t.getElem?_exampleRecord.mp hv
  rw [Word.text, String.toList_ofList] at hbrace
  exact i.name.not_mem (by decide) hbrace

/-- A schema means what it lists if and only if there is no white space outside of its braces, or
it lists nothing. -/
theorem validate_iff_conforms_iff (t : Rendering)
    (hget : reg.get name = some (String.ofList t.chars)) :
    (∀ r : Processor.Record (Value φ ω), reg.validate name r = true ↔ t.Conforms r) ↔
      t.before.chars = [] ∧ t.after.chars = [] ∨ t.items = [] := by
  by_cases hblank : t.before.chars = [] ∧ t.after.chars = []
  · refine iff_of_true (validate_iff_of_parts hget ?_) (.inl hblank)
    rw [t.trimBraces_chars hblank.1 hblank.2]
    exact t.filterMap_keyType_body
  · have hbraces := t.trimBraces_chars_of_ne hblank
    rw [or_iff_right hblank]
    constructor
    · intro h
      by_contra hitems
      exact not_validate_exampleRecord hget hbraces hitems
        ((h t.exampleRecord).mpr t.conforms_exampleRecord)
    · intro hitems
      refine validate_iff_of_parts hget ?_
      rw [hbraces, t.filterMap_keyType_chars_of_nil hitems, hitems]
      rfl

/-- One name and its type, with white space in front of the braces. -/
def shifted (before : Blank) : Rendering where
  before := before
  inner := ⟨[], by simp⟩
  items := [{
    beforeName := ⟨[], by simp⟩
    name := ⟨['i', 'd'], by decide, by decide⟩
    afterName := ⟨[], by simp⟩
    beforeType := ⟨[' '], by decide⟩
    type := ⟨['i', 'n', 't'], by decide, by decide⟩
    afterType := ⟨[], by simp⟩ }]
  after := ⟨[], by simp⟩
  nodup := List.nodup_singleton _

/-- A schema with white space behind its colon. -/
theorem validate_iff_conforms_iff_sample :
    (newRegistry.register "users" "\x7bid: int\x7d").get "users" =
        some (String.ofList (shifted ⟨[], by simp⟩).chars) ∧
      ∀ r : Processor.Record (Value ℤ Empty),
        (newRegistry.register "users" "\x7bid: int\x7d").validate "users" r = true ↔
          (shifted ⟨[], by simp⟩).Conforms r := by
  have hget : (newRegistry.register "users" "\x7bid: int\x7d").get "users" =
      some (String.ofList (shifted ⟨[], by simp⟩).chars) := by decide +kernel
  exact ⟨hget, (validate_iff_conforms_iff _ hget).mpr (.inl ⟨rfl, rfl⟩)⟩

/-- A space in front of the braces, and a record with the one name that is listed is rejected. -/
theorem not_validate_of_space :
    " \x7bid: int\x7d" = String.ofList (shifted ⟨[' '], by decide⟩).chars ∧
      (shifted ⟨[' '], by decide⟩).Conforms
        (Processor.recordOf "id" (.int 7) : Processor.Record (Value ℤ Empty)) ∧
      (newRegistry.register "users" " \x7bid: int\x7d").validate "users"
        (Processor.recordOf "id" (.int 7) : Processor.Record (Value ℤ Empty)) = false := by
  refine ⟨by decide +kernel, ?_, by decide +kernel⟩
  intro i hi
  obtain rfl := List.mem_singleton.mp hi
  exact ⟨.int 7, OrdMap.getElem?_insert_self' _ _ _, fun _ => ⟨7, rfl⟩, fun h => by
    exact absurd h (by decide)⟩

end Rendering

end StreamFlow.Schema
