import StreamFlow.Foundation.Loop
import StreamFlow.Raft.Wal

/-!
# The loop over a file, index by index

The loop of `ReadWAL` as it is written: a position in the file, four bytes read there, a
length put together from them by shifts, and a slice behind them. Reading a byte outside
of the file or cutting out a slice that it does not contain is a panic, which ends the
loop with `none`. `int` has 64 bits, so a length of 32 bits is never negative and no sum
of a position and a length overflows.
-/

namespace StreamFlow.Raft

open BigEndian Frame Loop

/-- Four bytes as the code puts them together. -/
def joinUint32 (b0 b1 b2 b3 : UInt8) : UInt32 :=
  b0.toUInt32 <<< 24 ||| b1.toUInt32 <<< 16 ||| b2.toUInt32 <<< 8 ||| b3.toUInt32

/-- The length at the position `i`; `none` if an index is out of range. -/
def lengthAt (b : Bytes) (i : ℕ) : Option UInt32 := do
  let b0 ← b[i]?
  let b1 ← b[i + 1]?
  let b2 ← b[i + 2]?
  let b3 ← b[i + 3]?
  return joinUint32 b0 b1 b2 b3

/-- `b[i:j]`; `none` if the bounds are out of range. -/
def sliceOf (b : Bytes) (i j : ℕ) : Option Bytes :=
  if i ≤ j ∧ j ≤ b.length then some ((b.drop i).take (j - i)) else none

/-- The variables of the loop. -/
structure FrameScan where
  i : ℕ
  out : Bytes
deriving DecidableEq, Repr

/-- One round of the loop. -/
def frameRound (b : Bytes) (s : FrameScan) : FrameScan ⊕ Option Bytes :=
  if s.i < b.length then
    if b.length < s.i + 4 then .inr (some s.out)
    else
      match lengthAt b s.i with
      | none => .inr none
      | some w =>
          let l := w.toNat
          let i := s.i + 4
          if b.length < i + l then .inr (some s.out)
          else
            match sliceOf b i (i + l) with
            | none => .inr none
            | some payload => .inl ⟨i + l, s.out ++ payload⟩
  else .inr (some s.out)

/-- The loop over a file with the contents `b`, behind what was collected before. -/
def scanFrames (b out : Bytes) (fuel : ℕ) : Option (Option Bytes) :=
  run (frameRound b) fuel ⟨0, out⟩

theorem toNat_shiftLeft_toUInt32 (c : UInt8) {k : UInt32} (hk : k.toNat ≤ 24) :
    (c.toUInt32 <<< k).toNat = 2 ^ k.toNat * c.toNat := by
  have hlt : 2 ^ k.toNat * c.toNat < 2 ^ 32 :=
    calc 2 ^ k.toNat * c.toNat ≤ 2 ^ 24 * c.toNat :=
          Nat.mul_le_mul_right _ (Nat.pow_le_pow_right Nat.two_pos hk)
      _ < 2 ^ 24 * 2 ^ 8 := Nat.mul_lt_mul_of_pos_left c.toNat_lt (Nat.two_pow_pos 24)
  rw [UInt32.toNat_shiftLeft, Nat.mod_eq_of_lt (by omega : k.toNat < 32), Nat.shiftLeft_eq,
    UInt8.toNat_toUInt32, Nat.mul_comm, Nat.mod_eq_of_lt hlt]

/-- The shifted bytes do not overlap. -/
theorem toNat_joinUint32 (b0 b1 b2 b3 : UInt8) :
    (joinUint32 b0 b1 b2 b3).toNat = decode [b0, b1, b2, b3] := by
  have hor : ∀ {n c : ℕ} (a : ℕ), c < 2 ^ n → 2 ^ n * a ||| c = 2 ^ n * a + c :=
    fun a hc => (Nat.two_pow_add_eq_or_of_lt hc a).symm
  have h1 := b1.toNat_lt
  have h2 := b2.toNat_lt
  have h3 := b3.toNat_lt
  have hfirst : 2 ^ 24 * b0.toNat ||| 2 ^ 16 * b1.toNat =
      2 ^ 16 * (2 ^ 8 * b0.toNat + b1.toNat) := by
    rw [hor _ (by omega)]
    omega
  have hsecond : 2 ^ 16 * (2 ^ 8 * b0.toNat + b1.toNat) ||| 2 ^ 8 * b2.toNat =
      2 ^ 8 * (2 ^ 8 * (2 ^ 8 * b0.toNat + b1.toNat) + b2.toNat) := by
    rw [hor _ (by omega)]
    omega
  rw [joinUint32, UInt32.toNat_or, UInt32.toNat_or, UInt32.toNat_or,
    toNat_shiftLeft_toUInt32 b0 (by decide), toNat_shiftLeft_toUInt32 b1 (by decide),
    toNat_shiftLeft_toUInt32 b2 (by decide), UInt8.toNat_toUInt32]
  change ((2 ^ 24 * b0.toNat ||| 2 ^ 16 * b1.toNat) ||| 2 ^ 8 * b2.toNat) ||| b3.toNat = _
  rw [hfirst, hsecond, hor _ (by omega)]
  simp only [decode, List.foldl_cons, List.foldl_nil]
  omega

theorem exists_lengthAt {b : Bytes} {i : ℕ} (h : i + 4 ≤ b.length) :
    ∃ w, lengthAt b i = some w ∧ w.toNat = decode ((b.drop i).take 4) := by
  have hget : ∀ k, b[i + k]? = (b.drop i)[k]? := fun k => List.getElem?_drop.symm
  have hlen : 4 ≤ (b.drop i).length := by
    rw [List.length_drop]
    omega
  have hlength : lengthAt b i = lengthAt (b.drop i) 0 := by
    simp only [lengthAt, hget, ← hget 0, Nat.zero_add, Nat.add_zero]
  rw [hlength]
  match b.drop i, hlen with
  | b0 :: b1 :: b2 :: b3 :: rest, _ => exact ⟨_, rfl, toNat_joinUint32 b0 b1 b2 b3⟩

/-- A round reads the frame that begins at its position. -/
theorem frameRound_eq {b : Bytes} {s : FrameScan} (hi : s.i ≤ b.length) :
    frameRound b s =
      match read (b.drop s.i) with
      | none => .inr (some s.out)
      | some (payload, _) => .inl ⟨s.i + 4 + payload.length, s.out ++ payload⟩ := by
  unfold frameRound Frame.read
  rw [List.length_drop]
  by_cases hheader : s.i + 4 ≤ b.length
  · obtain ⟨w, hw, hdecode⟩ := exists_lengthAt hheader
    rw [if_pos (by omega), if_neg (by omega), hw, if_neg (by omega), List.drop_drop,
      List.length_drop, ← hdecode]
    dsimp only
    by_cases hpayload : s.i + 4 + w.toNat ≤ b.length
    · have hslice : sliceOf b (s.i + 4) (s.i + 4 + w.toNat) =
          some ((b.drop (s.i + 4)).take w.toNat) := by
        rw [sliceOf, if_pos ⟨Nat.le_add_right _ _, hpayload⟩, Nat.add_sub_cancel_left]
      rw [if_neg (by omega), if_neg (by omega), hslice]
      dsimp only
      rw [List.length_take_of_le (by rw [List.length_drop]; omega)]
    · rw [if_pos (by omega), if_pos (by omega)]
  · rw [if_pos (by omega : b.length - s.i < 4)]
    split
    · rw [if_pos (by omega)]
    · rfl

/-- The loop ends, never leaves the file, and collects the payloads of its whole frames. -/
theorem returns_scanFrames (b out : Bytes) :
    Returns (scanFrames b out) (some (out ++ (split b).1.flatten)) := by
  refine returns_of_invariant
    (fun s : FrameScan => s.i ≤ b.length ∧
      s.out ++ (split (b.drop s.i)).1.flatten = out ++ (split b).1.flatten)
    (fun s => b.length - s.i) ?_ ⟨0, out⟩ ⟨Nat.zero_le _, rfl⟩
  rintro s ⟨hi, hout⟩
  rw [frameRound_eq hi]
  cases hread : read (b.drop s.i) with
  | none =>
      rw [split_of_read_none hread, List.flatten_nil, List.append_nil] at hout
      exact .inl (by rw [hout])
  | some found =>
      obtain ⟨payload, rest⟩ := found
      have hlen := length_of_read hread
      rw [List.length_drop] at hlen
      have hrest : rest = b.drop (s.i + 4 + payload.length) := by
        rw [drop_of_read hread, List.drop_drop, Nat.add_assoc]
      rw [split_of_read hread, List.flatten_cons, ← List.append_assoc] at hout
      refine .inr ⟨_, rfl, ⟨?_, ?_⟩, ?_⟩
      · change s.i + 4 + payload.length ≤ b.length
        omega
      · rw [← hrest]
        exact hout
      · change b.length - (s.i + 4 + payload.length) < b.length - s.i
        omega

/-- The loop with indices computes what the one on the rest of the file does. -/
theorem returns_frameLoop (b out : Bytes) :
    Returns (scanFrames b out) (some (frameLoop b.length b out)) := by
  rw [frameLoop_eq]
  exact returns_scanFrames b out

/-- On any file the loop ends without a panic. Whole frames are read back, whatever part of a
further frame follows them. -/
theorem scanFrames_recovers_whole_frames :
    (∀ b out, Returns (scanFrames b out) (some (frameLoop b.length b out))) ∧
      ∀ (ps : List Bytes) (p t out : Bytes), (∀ q ∈ ps, q.length < 2 ^ 32) → p.length < 2 ^ 32 →
        t <+: frame p → t ≠ frame p →
          Returns (scanFrames (frames ps ++ t) out) (some (out ++ ps.flatten)) := by
  refine ⟨returns_frameLoop, fun ps p t out hps hp ht hne => ?_⟩
  have hlen : t.length < (frame p).length :=
    lt_of_le_of_ne ht.length_le fun heq => hne (ht.eq_of_length heq)
  have htorn := read_of_prefix hp ht hlen
  have hscan := returns_scanFrames (frames ps ++ t) out
  rwa [split_frames_append hps htorn] at hscan

theorem scanFrames_recovers_two_frames :
    (∀ q ∈ [[1], [2, 3]], (q : Bytes).length < 2 ^ 32) ∧ ([7] : Bytes).length < 2 ^ 32 ∧
      [0, 0] <+: frame [7] ∧ [0, 0] ≠ frame [7] ∧
        Returns (scanFrames (frames [[1], [2, 3]] ++ [0, 0]) []) (some [1, 2, 3]) :=
  ⟨by decide, by decide, by decide, by decide,
    scanFrames_recovers_whole_frames.2 [[1], [2, 3]] [7] [0, 0] [] (by decide) (by decide)
      (by decide) (by decide)⟩

end StreamFlow.Raft
