import Mathlib.Tactic.Ring
import Mathlib.Tactic.Linarith

/-!
# Fixed-width big-endian numbers

`encode w n` lists the `w` base-256 digits of `n`, most significant first, and
`decode` reads a byte list back as a number. Digits above the width are lost,
so decoding an encoding gives the number modulo `256 ^ w`. The signed reading
used for two's complement words is `Int.bmod` of the unsigned one.
-/

/-- The range of the signed numbers of 64 bits. -/
def Int64Range (v : ℤ) : Prop := -2 ^ 63 ≤ v ∧ v < 2 ^ 63

instance (v : ℤ) : Decidable (Int64Range v) := inferInstanceAs (Decidable (_ ∧ _))

namespace BigEndian

abbrev Bytes := List UInt8

/-- The `w` big-endian bytes of `n`. -/
def encode : ℕ → ℕ → Bytes
  | 0, _ => []
  | w + 1, n => UInt8.ofNat (n / 256 ^ w) :: encode w n

/-- The number a byte list spells, most significant byte first. -/
def decode (bs : Bytes) : ℕ :=
  bs.foldl (fun v b => v * 256 + b.toNat) 0

@[simp] theorem encode_zero (n : ℕ) : encode 0 n = [] := rfl

theorem encode_succ (w n : ℕ) :
    encode (w + 1) n = UInt8.ofNat (n / 256 ^ w) :: encode w n := rfl

@[simp] theorem length_encode (w n : ℕ) : (encode w n).length = w := by
  induction w with
  | zero => rfl
  | succ w ih => simp [encode_succ, ih]

/-- Decoding with a number already read: the digits read so far are shifted up
by the width of the rest. -/
theorem foldl_encode (w n v : ℕ) :
    (encode w n).foldl (fun v b => v * 256 + b.toNat) v =
      v * 256 ^ w + n % 256 ^ w := by
  induction w generalizing v with
  | zero => simp [Nat.mod_one]
  | succ w ih =>
      have hdigit : n % 256 ^ (w + 1) =
          256 ^ w * (n / 256 ^ w % 256) + n % 256 ^ w := by
        rw [pow_succ, Nat.mod_mul, Nat.add_comm]
      have hbyte : (UInt8.ofNat (n / 256 ^ w)).toNat = n / 256 ^ w % 256 :=
        UInt8.toNat_ofNat'
      rw [encode_succ, List.foldl_cons, ih, hdigit, hbyte, pow_succ]
      ring

theorem decode_encode (w n : ℕ) : decode (encode w n) = n % 256 ^ w := by
  rw [decode, foldl_encode]
  simp

theorem decode_encode_of_lt {w n : ℕ} (h : n < 256 ^ w) :
    decode (encode w n) = n := by
  rw [decode_encode, Nat.mod_eq_of_lt h]

/-- The two's complement reading of a 64-bit word undoes the unsigned residue
of any number in the signed range. -/
theorem bmod_emod_eq_self {v : ℤ} (hlo : -2 ^ 63 ≤ v) (hhi : v < 2 ^ 63) :
    ((v % 2 ^ 64).toNat : ℤ).bmod (2 ^ 64) = v := by
  rw [Int.toNat_of_nonneg (by omega), Int.bmod_def]
  split <;> omega

end BigEndian
