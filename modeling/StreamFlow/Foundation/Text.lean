import Mathlib.Data.List.Basic
import StreamFlow.Foundation.BigEndian

/-!
# Texts as bytes and bytes as texts

Three encodings between bytes and texts. A text is encoded in UTF-8 rune by rune;
reading arbitrary bytes as a text replaces each byte that begins no rune by U+FFFD, as
`encoding/json` does with strings (`sanitize`). `text?` reads only bytes that are the
encoding of a text, and `text?_eq_some_iff` says that it finds that text. Base64 writes
bytes in an alphabet of 64 letters, four for every three bytes. Decimal numerals are
read in the range of 64 bits.
-/

open BigEndian

/-- `unicode.IsSpace`, the spaces of package fmt too. -/
def GoStrings.isSpace (c : Char) : Bool :=
  let n := c.toNat
  (9 ≤ n && n ≤ 13) || n = 0x20 || n = 0x85 || n = 0xa0 || n = 0x1680 ||
    (0x2000 ≤ n && n ≤ 0x200a) || n = 0x2028 || n = 0x2029 || n = 0x202f || n = 0x205f ||
    n = 0x3000

namespace Utf8

/-- The UTF-8 encoding of a text. -/
def encode (s : String) : Bytes := s.toList.flatMap String.utf8EncodeChar

/-- A character has at least one byte. -/
theorem length_le_encode (s : String) : s.toList.length ≤ (encode s).length := by
  rw [encode]
  induction s.toList with
  | nil => exact Nat.le_refl _
  | cons c text ih =>
      have hpos := c.utf8Size_pos
      rw [List.flatMap_cons, List.length_append, String.length_utf8EncodeChar, List.length_cons]
      omega

/-- The rune at the beginning of the bytes. -/
def rune? (b : Bytes) : Option Char := b.toByteArray.utf8DecodeChar? 0

/-- The runes of a byte string behind the first bytes; `none` stands for a byte that
begins no rune. -/
def scan : ℕ → Bytes → List (Option Char)
  | _, [] => []
  | skip + 1, _ :: rest => scan skip rest
  | 0, byte :: rest =>
      match rune? (byte :: rest) with
      | some c => some c :: scan (c.utf8Size - 1) rest
      | none => none :: scan 0 rest

def runes (b : Bytes) : List (Option Char) := scan 0 b

/-- The bytes as a text, with U+FFFD for each byte that begins no rune. -/
def sanitize (b : Bytes) : String :=
  String.ofList ((runes b).map fun c => c.getD (Char.ofNat 0xFFFD))

/-- The text that the bytes encode. -/
def text? (b : Bytes) : Option String := if none ∈ runes b then none else some (sanitize b)

theorem rune?_append (c : Char) (b : Bytes) : rune? (String.utf8EncodeChar c ++ b) = some c := by
  rw [rune?, List.toByteArray_append]
  exact ByteArray.utf8DecodeChar?_utf8EncodeChar_append

theorem exists_append_of_rune? {b : Bytes} {c : Char} (h : rune? b = some c) :
    ∃ rest, b = String.utf8EncodeChar c ++ rest := by
  have hsplit := ByteArray.eq_of_utf8DecodeChar?_eq_some h
  refine ⟨(b.toByteArray.extract c.utf8Size b.toByteArray.size).data.toList, ?_⟩
  rw [← List.toByteArray_inj, List.toByteArray_append]
  have hrest : ∀ a : ByteArray, a.data.toList.toByteArray = a := fun a => ByteArray.ext (by simp)
  rw [hrest]
  exact hsplit

theorem scan_eq_drop (k : ℕ) (b : Bytes) : scan k b = runes (b.drop k) := by
  induction b generalizing k with
  | nil => simp [scan, runes]
  | cons byte b ih =>
      cases k with
      | zero => rfl
      | succ k => exact ih k

theorem runes_append (c : Char) (b : Bytes) :
    runes (String.utf8EncodeChar c ++ b) = some c :: runes b := by
  have hrune := rune?_append c b
  have hlen : (String.utf8EncodeChar c).length = c.utf8Size := String.length_utf8EncodeChar c
  have hpos := c.utf8Size_pos
  cases hc : String.utf8EncodeChar c with
  | nil =>
      rw [hc, List.length_nil] at hlen
      omega
  | cons byte tail =>
      rw [hc, List.cons_append] at hrune
      rw [hc, List.length_cons] at hlen
      rw [List.cons_append, runes, scan, hrune]
      dsimp only
      rw [scan_eq_drop, List.drop_left' (by omega)]

theorem runes_cons_of_none {byte : UInt8} {b : Bytes} (h : rune? (byte :: b) = none) :
    runes (byte :: b) = none :: runes b := by
  rw [runes, scan, h]
  rfl

/-- Induction along the runes of a byte string. -/
@[elab_as_elim]
theorem induction_runes {P : Bytes → Prop} (nil : P [])
    (rune : ∀ c b, P b → P (String.utf8EncodeChar c ++ b))
    (bad : ∀ byte b, rune? (byte :: b) = none → P b → P (byte :: b)) (b : Bytes) : P b := by
  induction hn : b.length using Nat.strong_induction_on generalizing b with
  | _ n ih =>
      cases b with
      | nil => exact nil
      | cons byte b =>
          cases hrune : rune? (byte :: b) with
          | none => exact bad byte b hrune (ih b.length (by simp [← hn]) b rfl)
          | some c =>
              obtain ⟨rest, hrest⟩ := exists_append_of_rune? hrune
              rw [hrest]
              have hlen := congrArg List.length hrest
              rw [List.length_append, String.length_utf8EncodeChar, hn] at hlen
              have hpos := c.utf8Size_pos
              exact rune c rest (ih rest.length (by omega) rest rfl)

theorem toList_sanitize (b : Bytes) :
    (sanitize b).toList = (runes b).map fun c => c.getD (Char.ofNat 0xFFFD) :=
  String.toList_ofList

theorem encode_sanitize_append (c : Char) (b : Bytes) :
    encode (sanitize (String.utf8EncodeChar c ++ b)) =
      String.utf8EncodeChar c ++ encode (sanitize b) := by
  rw [encode, encode, toList_sanitize, toList_sanitize, runes_append]
  rfl

theorem encode_sanitize_cons_of_none {byte : UInt8} {b : Bytes} (h : rune? (byte :: b) = none) :
    encode (sanitize (byte :: b)) =
      String.utf8EncodeChar (Char.ofNat 0xFFFD) ++ encode (sanitize b) := by
  rw [encode, encode, toList_sanitize, toList_sanitize, runes_cons_of_none h]
  rfl

/-- A replacement is longer than what it replaces. -/
theorem length_le_encode_sanitize (b : Bytes) : b.length ≤ (encode (sanitize b)).length := by
  induction b using induction_runes with
  | nil => exact Nat.zero_le _
  | rune c b ih =>
      rw [encode_sanitize_append, List.length_append, List.length_append]
      omega
  | bad byte b hbyte ih =>
      rw [encode_sanitize_cons_of_none hbyte, List.length_append, List.length_cons,
        String.length_utf8EncodeChar]
      have hpos := (Char.ofNat 0xFFFD).utf8Size_pos
      omega

theorem encode_sanitize_of_notMem {b : Bytes} (h : none ∉ runes b) : encode (sanitize b) = b := by
  induction b using induction_runes with
  | nil => rfl
  | rune c b ih =>
      rw [runes_append] at h
      rw [encode_sanitize_append, ih fun hmem => h (List.mem_cons_of_mem _ hmem)]
  | bad byte b hbyte ih =>
      rw [runes_cons_of_none hbyte] at h
      exact absurd List.mem_cons_self h

theorem runes_encode (s : String) : runes (encode s) = s.toList.map some := by
  unfold encode
  induction s.toList with
  | nil => rfl
  | cons c cs ih => rw [List.flatMap_cons, runes_append, ih, List.map_cons]

theorem sanitize_encode (s : String) : sanitize (encode s) = s := by
  rw [sanitize, runes_encode, List.map_map]
  exact (congrArg String.ofList (List.map_id s.toList)).trans String.ofList_toList

/-- `text?` inverts the encoding. -/
theorem text?_eq_some_iff {b : Bytes} {s : String} : text? b = some s ↔ encode s = b := by
  unfold text?
  constructor
  · intro h
    split at h
    · cases h
    · next hvalid =>
        obtain rfl := Option.some.inj h
        exact encode_sanitize_of_notMem hvalid
  · rintro rfl
    rw [if_neg, sanitize_encode]
    simp [runes_encode]

end Utf8

namespace Base64

/-- The letter for a number below 64. -/
def letter (n : ℕ) : Char :=
  "ABCDEFGHIJKLMNOPQRSTUVWXYZabcdefghijklmnopqrstuvwxyz0123456789+/".toList.getD n '='

/-- The standard encoding, padded to groups of four letters. -/
def encode : Bytes → List Char
  | [] => []
  | [a] => [letter (a.toNat / 4), letter (a.toNat % 4 * 16), '=', '=']
  | [a, b] =>
      [letter (a.toNat / 4), letter (a.toNat % 4 * 16 + b.toNat / 16),
        letter (b.toNat % 16 * 4), '=']
  | a :: b :: c :: rest =>
      letter (a.toNat / 4) :: letter (a.toNat % 4 * 16 + b.toNat / 16) ::
        letter (b.toNat % 16 * 4 + c.toNat / 64) :: letter (c.toNat % 64) :: encode rest

theorem length_encode (b : Bytes) : (encode b).length = (b.length + 2) / 3 * 4 := by
  induction b using encode.induct with
  | case1 => rfl
  | case2 a => simp [encode]
  | case3 a b => simp [encode]
  | case4 a b c rest ih =>
      rw [encode]
      simp only [List.length_cons, ih]
      omega

end Base64

namespace Decimal

/-- The number that decimal digits write. -/
def digits? (ds : Bytes) : Option ℕ :=
  if ds.isEmpty then none
  else if ds.all fun d => decide (48 ≤ d) && decide (d ≤ 57) then
    some (ds.foldl (fun n d => 10 * n + (d.toNat - 48)) 0)
  else none

/-- A numeral with an optional sign, in the range of 64 bits. -/
def parseInt? (s : Bytes) : Option ℤ :=
  let n? : Option ℤ :=
    match s with
    | 43 :: ds => (digits? ds).map fun n => (n : ℤ)
    | 45 :: ds => (digits? ds).map fun n => -(n : ℤ)
    | ds => (digits? ds).map fun n => (n : ℤ)
  n?.filter fun n => decide (-2 ^ 63 ≤ n ∧ n < 2 ^ 63)

end Decimal
