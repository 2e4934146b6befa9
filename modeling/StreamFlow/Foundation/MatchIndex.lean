import StreamFlow.Foundation.Matching

/-!
# The positions of a match

The captures of a match by where they begin and end in the text. The positions depend only on what
the pattern asks of the characters: two texts of the same length that no part of the pattern can
tell apart, character by character, are matched at the same positions (`findIndex?_congr`).
-/

namespace Pattern

/-- The numbers of captures with the positions of their beginnings and ends. -/
abbrev Positions := List (ℕ × ℕ × ℕ)

/-- The ways to match a beginning of the text that is left from a position on, in the order of
`successes`. -/
def indices : Pattern → ℕ → List Char → List (Positions × List Char)
  | empty, _, text => [([], text)]
  | char _, _, [] => []
  | char p, _, c :: text => if p c then [([], text)] else []
  | many p, _, text => (rests p text).map fun rest => ([], rest)
  | manyLazy p, _, text => (restsLazy p text).map fun rest => ([], rest)
  | cat r s, pos, text => (r.indices pos text).flatMap fun m =>
      (s.indices (pos + (text.length - m.2.length)) m.2).map fun m' => (m.1 ++ m'.1, m'.2)
  | alt r s, pos, text => r.indices pos text ++ s.indices pos text
  | capture i r, pos, text => (r.indices pos text).map fun m =>
      ((i, pos, pos + (text.length - m.2.length)) :: m.1, m.2)

/-- The positions of the captures of the first match of the whole text. -/
def findIndex? (r : Pattern) (text : List Char) : Option Positions :=
  ((r.indices 0 text).find? fun m => m.2.isEmpty).map Prod.fst

/-- The text of a capture. -/
def slice (text : List Char) (x : ℕ × ℕ × ℕ) : ℕ × List Char :=
  (x.1, (text.drop x.2.1).take (x.2.2 - x.2.1))

variable {r : Pattern} {p : Char → Bool} {text text' : List Char}

/-! ### Positions and texts -/

theorem successes_eq_map_indices (r : Pattern) (pre text : List Char) :
    r.successes text =
      (r.indices pre.length text).map fun m => (m.1.map (slice (pre ++ text)), m.2) := by
  induction r generalizing pre text with
  | empty => rfl
  | char p =>
      cases text with
      | nil => rfl
      | cons c text =>
          rw [successes, indices]
          split
          · rfl
          · rfl
  | many p => simp [successes, indices]
  | manyLazy p => simp [successes, indices]
  | cat r s ihr ihs =>
      rw [successes, indices, ihr pre text, List.flatMap_map, List.map_flatMap]
      refine List.flatMap_congr fun m hm => ?_
      have hmem : (m.1.map (slice (pre ++ text)), m.2) ∈ r.successes text := by
        rw [ihr pre text]
        exact List.mem_map_of_mem hm
      obtain ⟨span, hspan⟩ := exists_append_of_mem_successes hmem
      have hpos : pre.length + (text.length - m.2.length) = (pre ++ span).length := by
        rw [hspan, List.length_append, List.length_append, Nat.add_sub_cancel]
      rw [ihs (pre ++ span) m.2, hpos, List.map_map, List.map_map, List.append_assoc, ← hspan]
      refine List.map_congr_left fun m' _ => ?_
      simp
  | alt r s ihr ihs => rw [successes, indices, List.map_append, ← ihr, ← ihs]
  | capture i r ih =>
      rw [successes, indices, ih pre text, List.map_map, List.map_map]
      refine List.map_congr_left fun m _ => ?_
      simp [slice]

theorem find?_eq_map_findIndex? (r : Pattern) (text : List Char) :
    r.find? text = (r.findIndex? text).map (List.map (slice text)) := by
  unfold find? findIndex?
  rw [successes_eq_map_indices r [] text, List.find?_map, Option.map_map, Option.map_map]
  rfl

/-! ### Texts that a pattern cannot tell apart -/

variable {R : Char → Char → Prop}

/-- No part of the pattern can tell related characters apart. -/
def Respects (R : Char → Char → Prop) : Pattern → Prop
  | empty => True
  | char p => ∀ c c', R c c' → p c = p c'
  | many p => ∀ c c', R c c' → p c = p c'
  | manyLazy p => ∀ c c', R c c' → p c = p c'
  | cat r s => r.Respects R ∧ s.Respects R
  | alt r s => r.Respects R ∧ s.Respects R
  | capture _ r => r.Respects R

theorem forall₂_rests (hp : ∀ c c', R c c' → p c = p c') (h : List.Forall₂ R text text') :
    List.Forall₂ (List.Forall₂ R) (rests p text) (rests p text') := by
  induction h with
  | nil => exact .cons .nil .nil
  | @cons c c' text text' hc htext ih =>
      rw [rests, rests, hp c c' hc]
      split
      · exact List.rel_append ih (.cons (.cons hc htext) .nil)
      · exact .cons (.cons hc htext) .nil

/-- Two ways to match at the same positions. -/
def SameWay (R : Char → Char → Prop) (m m' : Positions × List Char) : Prop :=
  m.1 = m'.1 ∧ List.Forall₂ R m.2 m'.2

theorem forall₂_indices (hr : r.Respects R) (h : List.Forall₂ R text text') (pos : ℕ) :
    List.Forall₂ (SameWay R) (r.indices pos text) (r.indices pos text') := by
  induction r generalizing pos text text' with
  | empty => exact .cons ⟨rfl, h⟩ .nil
  | char p =>
      cases h with
      | nil => exact .nil
      | @cons c c' text text' hc htext =>
          rw [indices, indices, hr c c' hc]
          split
          · exact .cons ⟨rfl, htext⟩ .nil
          · exact .nil
  | many p => exact List.rel_map (fun _ _ hrest => ⟨rfl, hrest⟩) (forall₂_rests hr h)
  | manyLazy p =>
      rw [indices, indices, restsLazy_eq_reverse, restsLazy_eq_reverse]
      exact List.rel_map (fun _ _ hrest => ⟨rfl, hrest⟩) (List.rel_reverse (forall₂_rests hr h))
  | cat r s ihr ihs =>
      refine List.rel_flatMap (ihr hr.1 h pos) fun m m' hm => ?_
      rw [h.length_eq, hm.2.length_eq, hm.1]
      exact List.rel_map (fun _ _ hrest => ⟨congrArg (m'.1 ++ ·) hrest.1, hrest.2⟩)
        (ihs hr.2 hm.2 _)
  | alt r s ihr ihs => exact List.rel_append (ihr hr.1 h pos) (ihs hr.2 h pos)
  | capture i r ih =>
      refine List.rel_map (fun m m' hm => ⟨?_, hm.2⟩) (ih hr h pos)
      rw [h.length_eq, hm.2.length_eq, hm.1]

/-- Texts that the pattern cannot tell apart are matched at the same positions. -/
theorem findIndex?_congr (hr : r.Respects R) (h : List.Forall₂ R text text') :
    r.findIndex? text = r.findIndex? text' := by
  unfold findIndex?
  have hways := forall₂_indices hr h 0
  generalize r.indices 0 text = ms, r.indices 0 text' = ms' at hways
  induction hways with
  | nil => rfl
  | @cons m m' ms ms' hm _ ih =>
      have hempty : m.2.isEmpty = m'.2.isEmpty := by
        rw [Bool.eq_iff_iff, List.isEmpty_iff, List.isEmpty_iff, ← List.length_eq_zero_iff,
          ← List.length_eq_zero_iff, hm.2.length_eq]
      rw [List.find?_cons, List.find?_cons, hempty]
      split
      · exact congrArg some hm.1
      · exact ih

end Pattern
