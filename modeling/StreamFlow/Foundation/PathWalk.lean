import Mathlib.Data.List.DropRight
import Mathlib.Data.List.Infix
import StreamFlow.Foundation.SlashPath

/-!
# Where a relative path leads

A text that is joined to a path climbs a number of levels and descends from there.
`walk` finds the two parts from the text alone, and `join_eq_descend` says that this is
what `join` does. A walk stays inside a directory if it descends along the components
that it has climbed; `exists_descend_iff` is exact for absolute and relative
directories, also for those that begin with `..` themselves.
-/

namespace SlashPath

/-- How far a relative path climbs, and the components along which it descends then. -/
structure Walk where
  up : ℕ
  down : List String
deriving DecidableEq, Repr

/-- One more component of the relative path. -/
def Walk.push (w : Walk) (part : String) : Walk :=
  if part = "" ∨ part = "." then w
  else if part = ".." then
    if w.down = [] then { w with up := w.up + 1 } else { w with down := w.down.dropLast }
  else { w with down := w.down ++ [part] }

/-- A text as a relative path. -/
def walk (name : String) : Walk := (split name).foldl Walk.push ⟨0, []⟩

/-- The path some levels up. -/
def climb (p : SlashPath) : ℕ → SlashPath
  | 0 => p
  | n + 1 => climb (p.push "..") n

/-- The path along further components. -/
def descend (p : SlashPath) (parts : List String) : SlashPath :=
  { p with parts := p.parts ++ parts }

/-- A path strictly below another. -/
def Below (p q : SlashPath) : Prop := ∃ rest, rest ≠ [] ∧ ".." ∉ rest ∧ q = p.descend rest

/-- The number of levels up to the last `..` of a path. -/
def ordinary (p : SlashPath) : ℕ := (p.parts.rtakeWhile fun part => decide (part ≠ "..")).length

/-- The walk ends inside the directory: it does not climb beyond what has a name, and
descends along the components it has climbed. -/
def Inside (p : SlashPath) (w : Walk) : Prop :=
  (w.up ≤ p.ordinary ∨ p.rooted = true ∧ ".." ∉ p.parts) ∧
    p.parts.drop (p.parts.length - w.up) <+: w.down

instance (p : SlashPath) (w : Walk) : Decidable (p.Inside w) :=
  inferInstanceAs (Decidable ((_ ∨ _) ∧ _))

/-- The components beneath the directory of a walk that ends inside it. -/
def beneath (p : SlashPath) (w : Walk) : List String := w.down.drop (min w.up p.parts.length)

section Walk

theorem climb_add_one (p : SlashPath) (n : ℕ) : climb p (n + 1) = (climb p n).push ".." := by
  induction n generalizing p with
  | zero => rfl
  | succ n ih => exact ih (p.push "..")

theorem climb_add (p : SlashPath) (m n : ℕ) : climb p (m + n) = climb (climb p m) n := by
  induction n with
  | zero => rfl
  | succ n ih => rw [← Nat.add_assoc, climb_add_one, ih, climb_add_one]

theorem push_dots_of_append {p : SlashPath} {parts : List String} {part : String}
    (hp : p.parts = parts ++ [part]) (hpart : part ≠ "..") :
    p.push ".." = { p with parts := parts } := by
  have hne : ¬((".." : String) = "" ∨ (".." : String) = ".") := by decide
  rw [push, if_neg hne, if_pos rfl, hp, List.getLast?_concat]
  simp only [hpart, if_false, List.dropLast_concat]

theorem Walk.dots_notMem_push {w : Walk} (hw : ".." ∉ w.down) (part : String) :
    ".." ∉ (w.push part).down := by
  unfold Walk.push
  split
  · exact hw
  · split
    · split
      · exact hw
      · exact fun hmem => hw (List.dropLast_sublist _ |>.subset hmem)
    · next hpart =>
        rw [List.mem_append, List.mem_singleton]
        rintro (hmem | heq)
        · exact hw hmem
        · exact hpart heq.symm

/-- A component acts on the walk as on the path it leads to. -/
theorem push_descend (p : SlashPath) {w : Walk} (hw : ".." ∉ w.down) (part : String) :
    ((p.climb w.up).descend w.down).push part =
      (p.climb (w.push part).up).descend (w.push part).down := by
  unfold Walk.push
  split
  · next hskip => rw [push, if_pos hskip]
  · next hskip =>
      split
      · next hdots =>
          subst hdots
          split
          · next hdown =>
              rw [hdown, climb_add_one]
              simp only [descend, List.append_nil]
          · next hdown =>
              obtain ⟨down, last, hlast⟩ : ∃ down last, w.down = down ++ [last] :=
                ⟨_, _, (List.dropLast_append_getLast hdown).symm⟩
              have hne : last ≠ ".." := by
                rintro rfl
                exact hw (by rw [hlast]; simp)
              rw [hlast, List.dropLast_concat]
              exact push_dots_of_append (by simp [descend]) hne
      · next hdots =>
          rw [push, if_neg hskip, if_neg hdots]
          simp only [descend, List.append_assoc]

theorem foldl_push_descend (p : SlashPath) (parts : List String) {w : Walk} (hw : ".." ∉ w.down) :
    parts.foldl push ((p.climb w.up).descend w.down) =
        (p.climb (parts.foldl Walk.push w).up).descend (parts.foldl Walk.push w).down ∧
      ".." ∉ (parts.foldl Walk.push w).down := by
  induction parts generalizing w with
  | nil => exact ⟨rfl, hw⟩
  | cons part parts ih =>
      rw [List.foldl_cons, List.foldl_cons, push_descend p hw]
      exact ih (Walk.dots_notMem_push hw part)

theorem dots_notMem_walk (name : String) : ".." ∉ (walk name).down :=
  (foldl_push_descend ⟨true, []⟩ (split name) List.not_mem_nil).2

/-- Joining a text climbs and descends as the text says. -/
theorem join_eq_descend (p : SlashPath) (name : String) :
    p.join name = (p.climb (walk name).up).descend (walk name).down := by
  have h := (foldl_push_descend p (split name) (w := ⟨0, []⟩) List.not_mem_nil).1
  rwa [climb, descend, List.append_nil] at h

end Walk

section Climb

/-- Climbing named levels. -/
theorem climb_length {p : SlashPath} {parts named : List String} (hp : p.parts = parts ++ named)
    (hnamed : ".." ∉ named) : p.climb named.length = { p with parts := parts } := by
  induction named using List.reverseRecOn generalizing p with
  | nil =>
      rw [List.append_nil] at hp
      rw [← hp]
      rfl
  | append_singleton named part ih =>
      rw [List.mem_append, List.mem_singleton, not_or] at hnamed
      rw [← List.append_assoc] at hp
      rw [List.length_append, List.length_singleton, climb,
        push_dots_of_append hp (Ne.symm hnamed.2)]
      exact ih rfl hnamed.1

theorem climb_root (n : ℕ) : climb ⟨true, []⟩ n = ⟨true, []⟩ := by
  induction n with
  | zero => rfl
  | succ n ih => exact ih

/-- Climbing beyond what has a name. -/
theorem climb_dots {p : SlashPath} (n : ℕ)
    (hp : p.rooted = false ∧ p.parts = [] ∨ p.parts.getLast? = some "..") :
    p.climb n = p.descend (List.replicate n "..") := by
  induction n with
  | zero => simp [climb, descend]
  | succ n ih =>
      have hne : ¬((".." : String) = "" ∨ (".." : String) = ".") := by decide
      rw [climb_add_one, ih, push, if_neg hne, if_pos rfl, List.replicate_succ']
      cases n with
      | zero =>
          rcases hp with ⟨hrooted, hparts⟩ | hlast
          · simp [descend, hrooted, hparts]
          · simp [descend, hlast]
      | succ n =>
          rw [List.replicate_succ']
          simp [descend]

end Climb

section Inside

variable {p : SlashPath} {w : Walk}

/-- The components up to the last `..`, and those behind it. -/
theorem exists_parts_eq (p : SlashPath) :
    ∃ parts named, p.parts = parts ++ named ∧ ".." ∉ named ∧ named.length = p.ordinary ∧
      (parts = [] ∨ parts.getLast? = some "..") := by
  refine ⟨p.parts.rdropWhile fun part => decide (part ≠ ".."),
    p.parts.rtakeWhile fun part => decide (part ≠ ".."),
    List.rdropWhile_append_rtakeWhile.symm, fun hmem => ?_, rfl, ?_⟩
  · simpa using List.mem_rtakeWhile_imp hmem
  · by_cases hnil : (p.parts.rdropWhile fun part => decide (part ≠ "..")) = []
    · exact .inl hnil
    · refine .inr ?_
      rw [List.getLast?_eq_some_getLast hnil]
      simpa using List.rdropWhile_last_not _ _ hnil

/-- Climbing that leaves the first components. -/
theorem climb_eq_take (h : w.up ≤ p.ordinary ∨ p.rooted = true ∧ ".." ∉ p.parts) :
    p.climb w.up = { p with parts := p.parts.take (p.parts.length - w.up) } := by
  obtain ⟨parts, named, hp, hnamed, hlen, -⟩ := exists_parts_eq p
  by_cases hup : w.up ≤ p.parts.length ∧ ".." ∉ p.parts.drop (p.parts.length - w.up)
  · have hlast : (p.parts.drop (p.parts.length - w.up)).length = w.up := by
      rw [List.length_drop]
      omega
    rw [← climb_length (List.take_append_drop _ _).symm hup.2, hlast]
  · rcases h with hle | ⟨hrooted, hdots⟩
    · -- the components that are climbed have a name
      have hdrop : p.parts.drop (p.parts.length - w.up) = named.drop (named.length - w.up) := by
        rw [hp, List.length_append, Nat.add_sub_assoc (by omega), ← List.drop_drop, List.drop_left]
      refine absurd ⟨?_, fun hmem => hnamed ?_⟩ hup
      · rw [hp, List.length_append]
        omega
      · rw [hdrop] at hmem
        exact List.mem_of_mem_drop hmem
    · have hlong : p.parts.length < w.up := by
        by_contra hle
        exact hup ⟨not_lt.mp hle, fun hmem => hdots (List.mem_of_mem_drop hmem)⟩
      obtain ⟨n, hn⟩ : ∃ n, w.up = p.parts.length + n := ⟨w.up - p.parts.length, by omega⟩
      have hroot : ({ p with parts := [] } : SlashPath) = ⟨true, []⟩ := by rw [hrooted]
      rw [hn, climb_add, climb_length (List.nil_append p.parts).symm hdots, hroot, climb_root,
        Nat.sub_eq_zero_of_le (Nat.le_add_right _ _), List.take_zero, hroot]

theorem Inside.descend_eq (h : p.Inside w) :
    (p.climb w.up).descend w.down = p.descend (p.beneath w) := by
  obtain ⟨hup, rest, hrest⟩ := h
  have hlen : (p.parts.drop (p.parts.length - w.up)).length = min w.up p.parts.length := by
    rw [List.length_drop]
    omega
  rw [climb_eq_take hup, beneath, ← hrest, ← hlen, List.drop_left, descend, descend,
    ← List.append_assoc, List.take_append_drop]

/-- A walk ends inside a directory exactly if it leads to a path beneath it. -/
theorem exists_descend_iff (hw : ".." ∉ w.down) :
    (∃ rest, ".." ∉ rest ∧ (p.climb w.up).descend w.down = p.descend rest) ↔ p.Inside w := by
  constructor
  · rintro ⟨rest, hrest, heq⟩
    have hup : w.up ≤ p.ordinary ∨ p.rooted = true ∧ ".." ∉ p.parts := by
      by_contra hout
      rw [not_or, not_le] at hout
      obtain ⟨parts, named, hp, hnamed, hlen, hlast⟩ := exists_parts_eq p
      obtain ⟨n, hn⟩ : ∃ n, w.up = named.length + (n + 1) := ⟨w.up - named.length - 1, by omega⟩
      have hdots : p.rooted = false ∧ parts = [] ∨ parts.getLast? = some ".." := by
        refine hlast.imp_left fun hnil => ⟨?_, hnil⟩
        by_contra hrooted
        refine hout.2 ⟨by simpa using hrooted, ?_⟩
        rwa [hp, hnil, List.nil_append]
      -- the path has a `..` where the named components of the directory should be
      rw [hn, climb_add, climb_length hp hnamed, climb_dots (n + 1) hdots] at heq
      have hparts :
          parts ++ (List.replicate (n + 1) ".." ++ w.down) = parts ++ (named ++ rest) := by
        rw [← List.append_assoc, ← List.append_assoc, ← hp]
        exact congrArg SlashPath.parts heq
      have hmem : ".." ∈ named ++ rest := by
        rw [← List.append_cancel_left hparts]
        simp
      exact (List.mem_append.mp hmem).elim hnamed hrest
    refine ⟨hup, rest, ?_⟩
    rw [climb_eq_take hup] at heq
    have hparts : p.parts.take (p.parts.length - w.up) ++ w.down =
        p.parts.take (p.parts.length - w.up) ++
          (p.parts.drop (p.parts.length - w.up) ++ rest) := by
      rw [← List.append_assoc, List.take_append_drop]
      exact congrArg SlashPath.parts heq
    exact (List.append_cancel_left hparts).symm
  · intro h
    refine ⟨p.beneath w, fun hmem => hw (List.mem_of_mem_drop hmem), h.descend_eq⟩

theorem descend_injective (p : SlashPath) {parts parts' : List String}
    (h : p.descend parts = p.descend parts') : parts = parts' :=
  List.append_cancel_left (congrArg SlashPath.parts h)

/-- A subdirectory of the directory that a text leads to. -/
theorem below_join_iff (p : SlashPath) (name : String) {sub : String} (hsub : Plain sub) :
    p.Below ((p.join name).join sub) ↔ p.Inside (walk name) := by
  have hne : sub ≠ ".." := hsub.2.2.2
  rw [join_of_plain _ hsub, ← exists_descend_iff (dots_notMem_walk name), ← join_eq_descend]
  constructor
  · rintro ⟨rest, hrest, hdots, heq⟩
    obtain ⟨rest, last, rfl⟩ : ∃ rest' last, rest = rest' ++ [last] :=
      ⟨_, _, (List.dropLast_append_getLast hrest).symm⟩
    rw [descend, mk.injEq, ← List.append_assoc] at heq
    refine ⟨rest, fun hmem => hdots (List.mem_append_left _ hmem), ?_⟩
    rw [descend, ← (List.append_singleton_inj.mp heq.2).1, ← heq.1]
  · rintro ⟨rest, hdots, heq⟩
    refine ⟨rest ++ [sub], by simp, ?_, ?_⟩
    · rw [List.mem_append, List.mem_singleton, not_or]
      exact ⟨hdots, Ne.symm hne⟩
    · rw [heq]
      simp [descend]

end Inside

end SlashPath
