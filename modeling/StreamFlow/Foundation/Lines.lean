import StreamFlow.Foundation.ByteFile
import Mathlib.Data.List.Infix

/-!
# Lines on a stream

A stream carries lines, each ended by a delimiter that occurs nowhere else. The writer
hands them over in order. When a write fails, the first part of it is on the stream, and
the writer hands over nothing any more. The reader takes complete lines from the front.

`Carries w lines` says that the stream has the lines that were written and not read, up to
where the writer has failed. A write adds a line at the end, and what the reader takes is
the first of them.
-/

namespace Lines

open ByteFile (WriteOutcome)

variable {α : Type*}

/-- The lines one after the other, each with its delimiter. -/
def framed (nl : α) (lines : List (List α)) : List α := lines.flatMap (· ++ [nl])

theorem framed_cons (nl : α) (line : List α) (lines : List (List α)) :
    framed nl (line :: lines) = line ++ nl :: framed nl lines := by
  rw [framed, List.flatMap_cons, List.append_assoc, List.singleton_append, framed]

theorem framed_concat (nl : α) (lines : List (List α)) (line : List α) :
    framed nl (lines ++ [line]) = framed nl lines ++ (line ++ [nl]) := by
  rw [framed, List.flatMap_append, List.flatMap_singleton, framed]

/-- Take the first complete line, with its delimiter. -/
def readLine [DecidableEq α] (nl : α) : List α → Option (List α × List α)
  | [] => none
  | a :: queue =>
      if a = nl then some ([a], queue) else (readLine nl queue).map fun p => (a :: p.1, p.2)

section ReadLine

variable [DecidableEq α] {nl : α}

theorem readLine_append {line : List α} (h : nl ∉ line) (rest : List α) :
    readLine nl (line ++ nl :: rest) = some (line ++ [nl], rest) := by
  induction line with
  | nil => simp [readLine]
  | cons a line ih =>
      have ha : a ≠ nl := fun ha => h (ha ▸ List.mem_cons_self)
      rw [List.cons_append, readLine, if_neg ha, ih fun hmem => h (List.mem_cons_of_mem a hmem)]
      rfl

theorem eq_append_of_readLine {queue l rest : List α} (h : readLine nl queue = some (l, rest)) :
    ∃ line, nl ∉ line ∧ l = line ++ [nl] ∧ queue = line ++ nl :: rest := by
  induction queue generalizing l with
  | nil => cases h
  | cons a queue ih =>
      rw [readLine] at h
      split at h
      · next ha =>
          obtain ⟨rfl, rfl⟩ := Prod.mk.inj (Option.some.inj h)
          exact ⟨[], List.not_mem_nil, by rw [ha]; rfl, by rw [ha]; rfl⟩
      · next ha =>
          obtain ⟨⟨l', rest'⟩, hread, hp⟩ := Option.map_eq_some_iff.mp h
          obtain ⟨rfl, rfl⟩ := Prod.mk.inj hp
          obtain ⟨line, hline, rfl, rfl⟩ := ih hread
          refine ⟨a :: line, ?_, rfl, rfl⟩
          rw [List.mem_cons]
          rintro (hnl | hmem)
          · exact ha hnl.symm
          · exact hline hmem

/-- A line that is read is one delimiter less. -/
theorem count_of_readLine {queue l rest : List α} (h : readLine nl queue = some (l, rest)) :
    queue.count nl = rest.count nl + 1 := by
  obtain ⟨line, hline, -, rfl⟩ := eq_append_of_readLine h
  rw [List.count_append, List.count_eq_zero_of_not_mem hline, List.count_cons_self, Nat.zero_add]

theorem readLine_eq_none_iff {queue : List α} : readLine nl queue = none ↔ queue.count nl = 0 := by
  rw [List.count_eq_zero]
  constructor
  · intro hnone hmem
    obtain ⟨line, rest, rfl, hline⟩ := List.eq_append_cons_of_mem hmem
    rw [readLine_append hline] at hnone
    cases hnone
  · intro hmem
    cases hread : readLine nl queue with
    | none => rfl
    | some found =>
        obtain ⟨line, -, -, rfl⟩ := eq_append_of_readLine hread
        exact absurd (List.mem_append_right _ List.mem_cons_self) hmem

end ReadLine

/-- The symbols on their way, and whether the writer has failed. -/
structure Wire (α : Type*) where
  queue : List α
  broken : Bool
deriving DecidableEq

namespace Wire

def empty : Wire α := ⟨[], false⟩

/-- Hand over the data, or its first part; after a failure nothing. -/
def write (w : Wire α) (data : List α) (o : WriteOutcome) : Wire α :=
  if w.broken then w
  else
    match o with
    | .done => { w with queue := w.queue ++ data }
    | .failed n => ⟨w.queue ++ data.take n, true⟩

/-- All of the data is handed over. -/
def Takes (w : Wire α) (data : List α) (o : WriteOutcome) : Prop :=
  (w.write data o).queue = w.queue ++ data

instance [DecidableEq α] (w : Wire α) (data : List α) (o : WriteOutcome) :
    Decidable (w.Takes data o) := inferInstanceAs (Decidable (_ = _))

structure Carries (nl : α) (w : Wire α) (lines : List (List α)) : Prop where
  isPrefix : w.queue <+: framed nl lines
  eq : w.broken = false → w.queue = framed nl lines

variable {nl : α} {w : Wire α} {lines : List (List α)}

theorem carries_empty : Carries nl (empty : Wire α) [] := ⟨List.prefix_rfl, fun _ => rfl⟩

theorem Carries.write (h : Carries nl w lines) (line : List α) (o : WriteOutcome) :
    Carries nl (w.write (line ++ [nl]) o) (lines ++ [line]) := by
  unfold Wire.write
  cases hbroken : w.broken with
  | true =>
      rw [if_pos rfl]
      refine ⟨?_, fun hok => ?_⟩
      · rw [framed_concat]
        exact h.isPrefix.trans (List.prefix_append _ _)
      · rw [hbroken] at hok
        cases hok
  | false =>
      rw [if_neg Bool.false_ne_true, h.eq hbroken]
      cases o with
      | done =>
          rw [← framed_concat]
          exact ⟨List.prefix_rfl, fun _ => rfl⟩
      | failed n =>
          refine ⟨?_, fun hok => by cases hok⟩
          rw [framed_concat]
          exact (List.prefix_append_right_inj _).mpr (List.take_prefix n _)

/-- What can be read is the first of the lines. -/
theorem Carries.read [DecidableEq α] (h : Carries nl w lines) (hlines : ∀ line ∈ lines, nl ∉ line)
    {l rest : List α} (hread : readLine nl w.queue = some (l, rest)) :
    ∃ line lines', lines = line :: lines' ∧ l = line ++ [nl] ∧
      Carries nl { w with queue := rest } lines' := by
  obtain ⟨body, hbody, rfl, hqueue⟩ := eq_append_of_readLine hread
  cases lines with
  | nil =>
      have hnil := List.prefix_nil.mp h.isPrefix
      rw [hqueue] at hnil
      simp at hnil
  | cons line lines =>
      obtain ⟨tail, htail⟩ := h.isPrefix
      rw [hqueue, framed_cons, List.append_assoc, List.cons_append] at htail
      -- both sides begin with a complete line
      have hfirst := congrArg (readLine nl) htail
      rw [readLine_append hbody, readLine_append (hlines line List.mem_cons_self),
        Option.some.injEq, Prod.mk.injEq] at hfirst
      obtain ⟨hline, hrest⟩ := hfirst
      refine ⟨line, lines, rfl, hline, ⟨tail, hrest⟩, fun hok => ?_⟩
      have heq := h.eq hok
      rw [hqueue, framed_cons, List.append_cancel_right hline] at heq
      exact (List.cons.inj (List.append_cancel_left heq)).2

theorem write_of_broken (h : w.broken = true) {data : List α} {o : WriteOutcome} :
    w.write data o = w := if_pos h

theorem write_done (h : w.broken = false) {data : List α} :
    w.write data .done = { w with queue := w.queue ++ data } := by
  rw [Wire.write, if_neg (by rw [h]; exact Bool.false_ne_true)]

theorem write_failed (h : w.broken = false) {data : List α} {n : ℕ} :
    w.write data (.failed n) = ⟨w.queue ++ data.take n, true⟩ := by
  rw [Wire.write, if_neg (by rw [h]; exact Bool.false_ne_true)]

/-- A line counts if all of it is handed over. -/
theorem count_write [DecidableEq α] {line : List α} (hline : nl ∉ line) (w : Wire α)
    (o : WriteOutcome) :
    (w.write (line ++ [nl]) o).queue.count nl =
      w.queue.count nl + if w.Takes (line ++ [nl]) o then 1 else 0 := by
  have hcount : (line ++ [nl]).count nl = 1 := by
    rw [List.count_append, List.count_eq_zero_of_not_mem hline, List.count_singleton_self]
  split
  · next htakes => rw [htakes, List.count_append, hcount]
  · next htakes =>
      cases hbroken : w.broken with
      | true => rw [write_of_broken hbroken, Nat.add_zero]
      | false =>
          cases o with
          | done => exact absurd (by rw [Takes, write_done hbroken]) htakes
          | failed n =>
              -- the delimiter is the last symbol, so it is not in a proper part
              have hn : n ≤ line.length := by
                by_contra hlt
                refine htakes ?_
                rw [Takes, write_failed hbroken, List.take_of_length_le]
                rw [List.length_append, List.length_singleton]
                omega
              rw [write_failed hbroken, List.count_append, List.take_append_of_le_length hn,
                List.count_eq_zero_of_not_mem fun hmem => hline (List.mem_of_mem_take hmem)]

end Wire

end Lines
