import Mathlib.Data.List.Basic

/-!
# Blocks of consecutive elements

A list is cut into blocks of `n` elements; what does not fill a block is left as the rest. The
blocks are given by their positions, so that a statement about the `i`-th one can be read off.
Proofs go by `blockInduction`, which takes off one block after the other.
-/

namespace Blocks

variable {α : Type*}

/-- The `i`-th block. -/
def block (n : ℕ) (l : List α) (i : ℕ) : List α := (l.drop (i * n)).take n

/-- All full blocks. -/
def blocks (n : ℕ) (l : List α) : List (List α) := (List.range (l.length / n)).map (block n l)

/-- The elements behind the full blocks. -/
def rest (n : ℕ) (l : List α) : List α := l.drop (l.length / n * n)

variable {n : ℕ} {l : List α}

theorem blocks_of_lt (h : l.length < n) : blocks n l = [] := by
  rw [blocks, Nat.div_eq_of_lt h]
  rfl

theorem rest_of_lt (h : l.length < n) : rest n l = l := by
  rw [rest, Nat.div_eq_of_lt h, Nat.zero_mul, List.drop_zero]

theorem blocks_of_le (hn : 0 < n) (h : n ≤ l.length) :
    blocks n l = l.take n :: blocks n (l.drop n) := by
  have hblock : ∀ i, block n l (i + 1) = block n (l.drop n) i := by
    intro i
    rw [block, block, List.drop_drop, Nat.succ_mul, Nat.add_comm]
  have hzero : block n l 0 = l.take n := by
    rw [block, Nat.zero_mul, List.drop_zero]
  rw [blocks, Nat.div_eq_sub_div hn h, List.range_succ_eq_map, List.map_cons, List.map_map, hzero,
    blocks, List.length_drop]
  exact congrArg _ (List.map_congr_left fun i _ => hblock i)

theorem rest_of_le (hn : 0 < n) (h : n ≤ l.length) : rest n l = rest n (l.drop n) := by
  rw [rest, rest, List.drop_drop, List.length_drop, Nat.div_eq_sub_div hn h, Nat.succ_mul,
    Nat.add_comm n]

theorem blockInduction {motive : List α → Prop} (hn : 0 < n)
    (short : ∀ l, l.length < n → motive l)
    (step : ∀ l, n ≤ l.length → motive (l.drop n) → motive l) (l : List α) : motive l := by
  induction hlen : l.length using Nat.strongRecOn generalizing l with
  | ind m ih =>
      by_cases h : l.length < n
      · exact short l h
      · refine step l (Nat.le_of_not_lt h) (ih (l.drop n).length ?_ _ rfl)
        rw [List.length_drop]
        omega

/-- No element is lost. -/
theorem flatten_blocks_append_rest (hn : 0 < n) (l : List α) :
    (blocks n l).flatten ++ rest n l = l := by
  induction l using blockInduction hn with
  | short l h => rw [blocks_of_lt h, rest_of_lt h, List.flatten_nil, List.nil_append]
  | step l h ih =>
      rw [blocks_of_le hn h, rest_of_le hn h, List.flatten_cons, List.append_assoc, ih,
        List.take_append_drop]

end Blocks
