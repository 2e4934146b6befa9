import Mathlib.Data.List.Nodup

/-!
# Codecs given by a finite table

A list of values and their encodings is a codec for these values. If no two rows have
the same encoding, decoding inverts encoding.
-/

namespace CodecTable

variable {α β : Type*} [DecidableEq α] [DecidableEq β]

def encode (t : List (α × β)) (a : α) : Option β :=
  (t.find? fun e => decide (e.1 = a)).map Prod.snd

def decode (t : List (α × β)) (b : β) : Option α :=
  (t.find? fun e => decide (e.2 = b)).map Prod.fst

theorem decode_of_encode {t : List (α × β)} (h : (t.map Prod.snd).Nodup) {a : α} {b : β}
    (hb : encode t a = some b) : decode t b = some a := by
  obtain ⟨e, he, rfl⟩ := Option.map_eq_some_iff.mp hb
  obtain rfl : e.1 = a := by simpa using List.find?_some he
  have hmem := List.mem_of_find?_eq_some he
  have hfind : t.find? (fun e' => decide (e'.2 = e.2)) = some e := by
    cases hf : t.find? (fun e' => decide (e'.2 = e.2)) with
    | none => exact absurd (List.find?_eq_none.mp hf e hmem) (by simp)
    | some e' =>
        have heq : e'.2 = e.2 := by simpa using List.find?_some hf
        rw [List.inj_on_of_nodup_map h (List.mem_of_find?_eq_some hf) hmem heq]
  rw [decode, hfind, Option.map_some]

end CodecTable
