import StreamFlow.Schema.AdvancedRegistry

/-!
# What `Register` compares

`isBackwardCompatible` compares the lengths of two texts. For JSON schemas that declare the types
of properties, compatible should mean that the declared properties stay: an `ObjectSchema` is such
a document, with its text in `content`. Names and types are JSON strings in any way to write them;
two of them are the same if they stand for the same UTF-16 code units.
-/

namespace StreamFlow.Schema

open BigEndian

/-! ### Strings in JSON texts -/

/-- The characters that may follow a backslash, but for `u`. -/
inductive JsonEscape where
  | quotationMark
  | reverseSolidus
  | solidus
  | backspace
  | formFeed
  | lineFeed
  | carriageReturn
  | tab
deriving DecidableEq, Repr

def JsonEscape.char : JsonEscape → Char
  | quotationMark => '\x22'
  | reverseSolidus => '\x5c'
  | solidus => '/'
  | backspace => 'b'
  | formFeed => 'f'
  | lineFeed => 'n'
  | carriageReturn => 'r'
  | tab => 't'

/-- The character that is meant. -/
def JsonEscape.meaning : JsonEscape → ℕ
  | quotationMark => 0x22
  | reverseSolidus => 0x5c
  | solidus => 0x2f
  | backspace => 8
  | formFeed => 12
  | lineFeed => 10
  | carriageReturn => 13
  | tab => 9

/-- A digit, or a letter in upper or lower case. -/
inductive HexDigit where
  | digit (n : Fin 10)
  | upper (n : Fin 6)
  | lower (n : Fin 6)
deriving DecidableEq, Repr

def HexDigit.char : HexDigit → Char
  | digit n => Char.ofNat (0x30 + n)
  | upper n => Char.ofNat (0x41 + n)
  | lower n => Char.ofNat (0x61 + n)

def HexDigit.value : HexDigit → ℕ
  | digit n => n
  | upper n => 10 + n
  | lower n => 10 + n

/-- The UTF-16 code units of a character. -/
def utf16 (c : Char) : List ℕ :=
  if c.toNat < 0x10000 then [c.toNat]
  else [0xd800 + (c.toNat - 0x10000) / 0x400, 0xdc00 + (c.toNat - 0x10000) % 0x400]

/-- A part of a JSON string: a character that stands for itself, or an escape. -/
inductive JsonPiece where
  | plain (c : Char) (h : c ≠ '\x22' ∧ c ≠ '\x5c' ∧ 0x20 ≤ c.toNat)
  | escape (e : JsonEscape)
  | unicode (a b c d : HexDigit)

namespace JsonPiece

def chars : JsonPiece → List Char
  | plain c _ => [c]
  | escape e => ['\x5c', e.char]
  | unicode a b c d => ['\x5c', 'u', a.char, b.char, c.char, d.char]

def units : JsonPiece → List ℕ
  | plain c _ => utf16 c
  | escape e => [e.meaning]
  | unicode a b c d => [((a.value * 16 + b.value) * 16 + c.value) * 16 + d.value]

end JsonPiece

/-- What stands between the quotation marks. -/
structure JsonString where
  pieces : List JsonPiece

namespace JsonString

def chars (s : JsonString) : List Char := '\x22' :: (s.pieces.flatMap JsonPiece.chars ++ ['\x22'])

/-- What the string stands for. -/
def units (s : JsonString) : List ℕ := s.pieces.flatMap JsonPiece.units

end JsonString

/-! ### Schemas of objects -/

/-- A property and its type. -/
structure Property where
  name : JsonString
  type : JsonString

/-- The text between the name of a property and its type. -/
def typeOf : List Char := ":\x7b\"type\":".toList

def Property.chars (p : Property) : List Char :=
  p.name.chars ++ (typeOf ++ (p.type.chars ++ ['}']))

structure ObjectSchema where
  properties : List Property
  nodup : (properties.map fun p => p.name.units).Nodup

namespace ObjectSchema

/-- The text in front of the properties. -/
def opening : List Char := "\x7b\"type\":\"object\",\"properties\":\x7b".toList

def chars (s : ObjectSchema) : List Char :=
  opening ++ ([','].intercalate (s.properties.map Property.chars) ++ ['}', '}'])

/-- The text of the schema, as it is registered. -/
def content (s : ObjectSchema) : Bytes := Utf8.encode (String.ofList s.chars)

/-- The schema has a property with this name and type. -/
def Declares (s : ObjectSchema) (name type : List ℕ) : Prop :=
  ∃ p ∈ s.properties, p.name.units = name ∧ p.type.units = type

/-- The new schema declares what the old one does. -/
def ExtendedBy (old new : ObjectSchema) : Prop :=
  ∀ name type, old.Declares name type → new.Declares name type

end ObjectSchema

/-- `Register` accepts the schema as the next version of the name. -/
def AdvancedRegistry.Accepts (r : AdvancedRegistry) (name : Bytes) (new : ObjectSchema) : Prop :=
  ∃ r' sv, r.register ⟨name, formatJSONSchema, new.content⟩ = (r', .ok sv)

/-- The type `string`. -/
def JsonString.string : JsonString :=
  ⟨[.plain 's' (by decide), .plain 't' (by decide), .plain 'r' (by decide), .plain 'i' (by decide),
    .plain 'n' (by decide), .plain 'g' (by decide)]⟩

namespace ObjectSchema

theorem length_chars_le (s : ObjectSchema) : s.chars.length ≤ s.content.length := by
  have hchars := Utf8.length_le_encode (String.ofList s.chars)
  rwa [String.toList_ofList] at hchars

theorem content_ne_nil (s : ObjectSchema) : s.content ≠ [] := by
  have hlength := s.length_chars_le
  rw [chars, List.length_append, List.length_append, List.length_cons] at hlength
  exact List.ne_nil_of_length_pos (by omega)

/-- A schema with one property, whose name has `n` letters. -/
def wide (n : ℕ) : ObjectSchema where
  properties := [⟨⟨List.replicate n (.plain 'x' (by decide))⟩, .string⟩]
  nodup := List.nodup_singleton _

theorem le_length_content_wide (n : ℕ) : n ≤ (wide n).content.length := by
  have hname : (List.replicate n (JsonPiece.plain 'x' (by decide))).flatMap JsonPiece.chars =
      List.replicate n 'x' := by
    rw [List.flatMap_replicate]
    exact List.flatten_replicate_singleton
  refine le_trans ?_ (wide n).length_chars_le
  rw [chars, wide, List.map_singleton, List.intercalate_singleton, Property.chars, JsonString.chars,
    hname]
  simp only [List.length_append, List.length_cons, List.length_replicate]
  omega

/-- The new schema has no other name. -/
theorem not_extendedBy_wide {old : ObjectSchema} (h : old.properties ≠ []) :
    ∃ n, ∀ m, n ≤ m → ¬ old.ExtendedBy (wide m) := by
  obtain ⟨p, hp⟩ := List.exists_mem_of_ne_nil _ h
  refine ⟨p.name.units.length + 1, fun m hm hextended => ?_⟩
  obtain ⟨q, hq, hname, -⟩ := hextended _ _ ⟨p, hp, rfl, rfl⟩
  rw [List.mem_singleton.mp hq] at hname
  have hlength := congrArg List.length hname
  have hunits : (List.replicate m (JsonPiece.plain 'x' (by decide))).flatMap JsonPiece.units =
      List.replicate m 120 := by
    rw [List.flatMap_replicate]
    exact List.flatten_replicate_singleton
  rw [JsonString.units, hunits, List.length_replicate] at hlength
  omega

end ObjectSchema

namespace AdvancedRegistry

variable {r : AdvancedRegistry} {name : Bytes} {last : SchemaVersion}

/-- A further version of a name needs no more than its length. -/
theorem accepts_iff (hlast : r.latest name = some last) (new : ObjectSchema) :
    r.Accepts name new ↔ name ≠ [] ∧ last.content.length ≤ new.content.length := by
  have hcompatible : r.compatible name new.content =
      isBackwardCompatible last.content new.content := by
    rw [compatible, ← latest, hlast]
  have hempty := new.content_ne_nil
  rw [Accepts, ← isBackwardCompatible_iff, register]
  by_cases hname : name = []
  · simp [hname]
  · simp only [hname, hempty, or_self, if_false, ne_eq, not_true_eq_false, false_and, hcompatible]
    cases isBackwardCompatible last.content new.content with
    | false => simp
    | true => simp

end AdvancedRegistry

/-- `Register` compares lengths alone. So the properties of a version are kept by all versions that
it accepts next if and only if there are none; an empty name is never accepted. -/
theorem accepts_extended_iff (r : AdvancedRegistry) {name : Bytes} {last : SchemaVersion}
    {old : ObjectSchema} (hlast : r.latest name = some last) (hold : last.content = old.content) :
    (∀ new, r.Accepts name new ↔
        name ≠ [] ∧ old.content.length ≤ new.content.length) ∧
      ((∀ new, r.Accepts name new → old.ExtendedBy new) ↔ name = [] ∨ old.properties = []) := by
  have haccepts : ∀ new, r.Accepts name new ↔
      name ≠ [] ∧ old.content.length ≤ new.content.length := by
    intro new
    rw [← hold]
    exact r.accepts_iff hlast new
  refine ⟨haccepts, ?_, ?_⟩
  · intro h
    by_contra hnot
    obtain ⟨hname, hproperties⟩ := not_or.mp hnot
    obtain ⟨n, hn⟩ := ObjectSchema.not_extendedBy_wide hproperties
    have hlength := ObjectSchema.le_length_content_wide (max n old.content.length)
    exact hn _ (le_max_left _ _)
      (h _ ((haccepts _).mpr ⟨hname, (le_max_right _ _).trans hlength⟩))
  · rintro (hname | hnone) new hnew
    · exact absurd hname ((haccepts new).mp hnew).1
    · rintro _ _ ⟨p, hp, -⟩
      rw [hnone] at hp
      cases hp

/-- A registry with one version of the schema. -/
def registryWith (s : ObjectSchema) : AdvancedRegistry :=
  (newAdvancedRegistry.register ⟨Utf8.encode "users", formatJSONSchema, s.content⟩).1

theorem exists_latest_registryWith (s : ObjectSchema) :
    ∃ last, (registryWith s).latest (Utf8.encode "users") = some last ∧
      last.content = s.content := by
  have hname : Utf8.encode "users" ≠ [] := by decide +kernel
  have hversions : newAdvancedRegistry.versionsOf (Utf8.encode "users") = [] := by
    rw [AdvancedRegistry.versionsOf, newAdvancedRegistry, Std.ExtTreeMap.getElem?_empty,
      Option.getD_none]
  refine ⟨⟨1, Utf8.encode "users", formatJSONSchema, s.content⟩, ?_, rfl⟩
  rw [registryWith, AdvancedRegistry.register, if_neg (by simp [hname, s.content_ne_nil]),
    if_neg (by simp), if_neg (by simp [AdvancedRegistry.compatible, hversions])]
  dsimp only
  rw [AdvancedRegistry.latest, AdvancedRegistry.versionsOf_insert, if_pos rfl, hversions,
    List.getLast?_concat]
  rfl

/-- A schema without properties. -/
def noProperties : ObjectSchema := ⟨[], .nil⟩

/-- A schema with one property, whose name has one letter. -/
def oneProperty (c : Char) (h : c ≠ '\x22' ∧ c ≠ '\x5c' ∧ 0x20 ≤ c.toNat) : ObjectSchema :=
  ⟨[⟨⟨[.plain c h]⟩, .string⟩], List.nodup_singleton _⟩

/-- Without properties there is nothing to lose. -/
theorem accepts_extended_noProperties :
    ∃ last, (registryWith noProperties).latest (Utf8.encode "users") = some last ∧
      last.content = noProperties.content ∧
      ∀ new, (registryWith noProperties).Accepts (Utf8.encode "users") new →
        noProperties.ExtendedBy new := by
  obtain ⟨last, hlast, hcontent⟩ := exists_latest_registryWith noProperties
  exact ⟨last, hlast, hcontent,
    (accepts_extended_iff (registryWith noProperties) hlast hcontent).2.mpr (.inr rfl)⟩

def schemaA : ObjectSchema := oneProperty 'a' (by decide)

def schemaB : ObjectSchema := oneProperty 'b' (by decide)

/-- The property `a` is replaced by `b`, and the lengths are equal. -/
theorem not_extended_of_renamed :
    schemaA.content = Utf8.encode
        "\x7b\"type\":\"object\",\"properties\":\x7b\"a\":\x7b\"type\":\"string\"\x7d\x7d\x7d" ∧
      schemaB.content = Utf8.encode
        "\x7b\"type\":\"object\",\"properties\":\x7b\"b\":\x7b\"type\":\"string\"\x7d\x7d\x7d" ∧
      (registryWith schemaA).Accepts (Utf8.encode "users") schemaB ∧
      ¬ schemaA.ExtendedBy schemaB := by
  obtain ⟨last, hlast, hcontent⟩ := exists_latest_registryWith schemaA
  refine ⟨congrArg Utf8.encode (by decide +kernel), congrArg Utf8.encode (by decide +kernel), ?_,
    fun h => ?_⟩
  · rw [AdvancedRegistry.accepts_iff hlast, hcontent]
    exact ⟨by decide +kernel, by decide +kernel⟩
  · obtain ⟨p, hp, hname, -⟩ := h _ _ ⟨_, List.mem_singleton_self _, rfl, rfl⟩
    rw [List.mem_singleton.mp hp] at hname
    exact absurd hname (by decide)

end StreamFlow.Schema
