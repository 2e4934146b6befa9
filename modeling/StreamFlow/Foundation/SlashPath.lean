import StreamFlow.Foundation.ByteFile
import Mathlib.Logic.Function.Basic

/-!
# Cleaned slash-separated paths

A path in cleaned form is a list of components, absolute or relative. `join`
extends it by a text as `filepath.Join` does: the text is cut at the slashes,
empty components and `.` are skipped, and `..` removes the last component (or is
kept when a relative path has nothing left to remove). A file tree maps cleaned
paths to file contents; directories are not recorded.
-/

structure SlashPath where
  rooted : Bool
  parts : List String
deriving DecidableEq, Repr

namespace SlashPath

open BigEndian

/-- Extend a cleaned path by one component. -/
def push (p : SlashPath) (part : String) : SlashPath :=
  if part = "" ∨ part = "." then p
  else if part = ".." then
    match p.parts.getLast? with
    | none => if p.rooted then p else { p with parts := [".."] }
    | some last =>
        if last = ".." then { p with parts := p.parts ++ [".."] }
        else { p with parts := p.parts.dropLast }
  else { p with parts := p.parts ++ [part] }

/-- The components of a text between its slashes. -/
def split (name : String) : List String :=
  (name.toList.splitOn '/').map String.ofList

/-- The cleaned path of `p` followed by a slash and `name`. -/
def join (p : SlashPath) (name : String) : SlashPath :=
  (split name).foldl push p

/-- A text that is one ordinary component. -/
def Plain (name : String) : Prop :=
  split name = [name] ∧ name ≠ "" ∧ name ≠ "." ∧ name ≠ ".."

instance (name : String) : Decidable (Plain name) := by
  unfold Plain
  infer_instance

theorem join_of_plain (p : SlashPath) {name : String} (h : Plain name) :
    join p name = { p with parts := p.parts ++ [name] } := by
  obtain ⟨hsplit, hempty, hdot, hdots⟩ := h
  rw [join, hsplit, List.foldl_cons, List.foldl_nil, push, if_neg, if_neg hdots]
  rintro (h | h)
  · exact hempty h
  · exact hdot h

theorem split_of_notMem {name : String} (h : '/' ∉ name.toList) : split name = [name] := by
  rw [split, List.splitOn_eq_singleton h, List.map_singleton, String.ofList_toList]

/-- A longer text without a slash is one ordinary component. -/
theorem plain_of_notMem {name : String} (h : '/' ∉ name.toList) (hlen : 2 < name.toList.length) :
    Plain name := by
  refine ⟨split_of_notMem h, ?_, ?_, ?_⟩
  · rintro rfl
    exact absurd hlen (by decide)
  · rintro rfl
    exact absurd hlen (by decide)
  · rintro rfl
    exact absurd hlen (by decide)

/-- Files of different directories, or of different names, are different. -/
theorem join_eq_join_iff {p q : SlashPath} {a b : String} (ha : Plain a) (hb : Plain b) :
    join p a = join q b ↔ p = q ∧ a = b := by
  rw [join_of_plain p ha, join_of_plain q hb]
  obtain ⟨pr, pp⟩ := p
  obtain ⟨qr, qp⟩ := q
  simp only [mk.injEq, List.append_singleton_inj, and_assoc]

/-- Texts joined by a slash are followed one after the other. -/
theorem join_ofList_append_cons (p : SlashPath) (a b : List Char) :
    join p (String.ofList (a ++ '/' :: b)) = join (join p (String.ofList a)) (String.ofList b) := by
  simp only [join, split, String.toList_ofList, List.splitOn_append_cons_self, List.map_append,
    List.foldl_append]

/-- The ending of a name is kept by the file that the name leads to. -/
theorem exists_join_append (p : SlashPath) (name ending : String) :
    ∃ (q : SlashPath) (part : String), '/' ∉ part.toList ∧
      join p (name ++ ending) = join q (part ++ ending) := by
  by_cases hslash : '/' ∈ name.toList
  · -- what follows the last slash is the name in its directory
    obtain ⟨rest, front, hname, hrest⟩ := List.eq_append_cons_of_mem (List.mem_reverse.mpr hslash)
    have htext : name ++ ending =
        String.ofList (front.reverse ++ '/' :: (rest.reverse ++ ending.toList)) := by
      rw [← String.toList_inj, String.toList_append, String.toList_ofList,
        List.reverse_eq_iff.mp hname]
      simp
    refine ⟨p.join (String.ofList front.reverse), String.ofList rest.reverse, ?_, ?_⟩
    · simpa using hrest
    · rw [htext, join_ofList_append_cons, String.ofList_append, String.ofList_toList]
  · exact ⟨p, name, hslash, rfl⟩

end SlashPath

/-- The files of a machine: the contents of each path that holds a file. -/
abbrev FileTree := SlashPath → Option BigEndian.Bytes

namespace FileTree

open BigEndian ByteFile

/-- The file at `p` gets the contents `c`. -/
def set (fs : FileTree) (p : SlashPath) (c : Option Bytes) : FileTree :=
  Function.update fs p c

@[simp] theorem set_self (fs : FileTree) (p : SlashPath) (c : Option Bytes) :
    fs.set p c p = c := by
  rw [set, Function.update_self]

@[simp] theorem set_of_ne (fs : FileTree) {p q : SlashPath} (c : Option Bytes) (h : q ≠ p) :
    fs.set p c q = fs q := by
  rw [set, Function.update_of_ne h]

theorem set_eq_self {fs : FileTree} {p : SlashPath} {c : Option Bytes} (h : fs p = c) :
    fs.set p c = fs := by
  subst h
  rw [set, Function.update_eq_self]

/-- The bytes of an open file. -/
def contents (fs : FileTree) (p : SlashPath) : Bytes := (fs p).getD []

/-- Open a file for reading and writing, creating it when it is missing. -/
def create (fs : FileTree) (p : SlashPath) : FileTree :=
  fs.set p (some (fs.contents p))

/-- Write at an offset of an open file. -/
def writeAt (fs : FileTree) (p : SlashPath) (off : ℤ) (data : Bytes) (o : WriteOutcome) :
    FileTree × Bool :=
  let (c, ok) := ByteFile.writeAt (fs.contents p) off data o
  (fs.set p (some c), ok)

/-- Replace a whole file. -/
def writeFile (fs : FileTree) (p : SlashPath) (data : Bytes) (o : ReplaceOutcome) :
    FileTree × Bool :=
  let (c, ok) := ByteFile.writeFile (fs p) data o
  (fs.set p c, ok)

/-- Two file trees agree outside a set of paths. -/
def EqOff (s : List SlashPath) (fs fs' : FileTree) : Prop :=
  ∀ q, q ∉ s → fs' q = fs q

theorem EqOff.refl (s : List SlashPath) (fs : FileTree) : EqOff s fs fs :=
  fun _ _ => rfl

theorem EqOff.trans {s : List SlashPath} {fs₁ fs₂ fs₃ : FileTree}
    (h₁ : EqOff s fs₁ fs₂) (h₂ : EqOff s fs₂ fs₃) : EqOff s fs₁ fs₃ :=
  fun q hq => (h₂ q hq).trans (h₁ q hq)

theorem eqOff_set {s : List SlashPath} (fs : FileTree) {p : SlashPath} (c : Option Bytes)
    (h : p ∈ s) : EqOff s fs (fs.set p c) := by
  intro q hq
  have hne : q ≠ p := fun heq => hq (heq ▸ h)
  exact set_of_ne fs c hne

theorem eqOff_writeAt {s : List SlashPath} (fs : FileTree) {p : SlashPath} (h : p ∈ s) (off : ℤ)
    (data : Bytes) (o : WriteOutcome) : EqOff s fs (fs.writeAt p off data o).1 :=
  eqOff_set fs _ h

theorem eqOff_writeFile {s : List SlashPath} (fs : FileTree) {p : SlashPath} (h : p ∈ s)
    (data : Bytes) (o : ReplaceOutcome) : EqOff s fs (fs.writeFile p data o).1 :=
  eqOff_set fs _ h

theorem contents_set (fs : FileTree) (p : SlashPath) (c : Bytes) :
    (fs.set p (some c)).contents p = c := by
  rw [contents, set_self, Option.getD_some]

theorem create_of_ne (fs : FileTree) {p q : SlashPath} (h : q ≠ p) : fs.create p q = fs q :=
  set_of_ne fs _ h

@[simp] theorem contents_create (fs : FileTree) (p q : SlashPath) :
    (fs.create p).contents q = fs.contents q := by
  by_cases hq : q = p
  · subst hq
    exact contents_set fs q _
  · rw [contents, create_of_ne fs hq, contents]

theorem create_eq_self {fs : FileTree} {p : SlashPath} {c : Bytes} (h : fs p = some c) :
    fs.create p = fs := by
  apply set_eq_self
  rw [contents, h, Option.getD_some]

theorem EqOff.contents_eq {l : List SlashPath} {fs fs' : FileTree}
    (h : EqOff l fs fs') {p : SlashPath} (hp : p ∉ l) :
    fs'.contents p = fs.contents p := by
  rw [contents, contents, h p hp]

/-- A write behind `pos`, whatever its outcome: the rest of the tree and the
file before `pos` are untouched, and on success the data can be read back. -/
theorem writeAt_spec {fs fs' : FileTree} {p : SlashPath} {pos off : ℤ}
    {data : Bytes} {o : WriteOutcome} {ok : Bool} (h : fs.writeAt p off data o = (fs', ok))
    (h0 : 0 ≤ off) (hpos : pos ≤ off) (hoff : off ≤ (fs.contents p).length)
    (hmax : (fs.contents p).length ≤ maxSize) :
    EqOff [p] fs fs' ∧ KeepsBefore pos (fs.contents p) (fs'.contents p) ∧
      (ok = true → ((fs'.contents p).length : ℤ) = max ↑(fs.contents p).length (off + data.length) ∧
        slice (fs'.contents p) off data.length = some data) := by
  obtain ⟨k, hfile, hend, hok⟩ :=
    ByteFile.writeAt_cases (f := fs.contents p) data o h0 (hoff.trans hmax)
  obtain ⟨hfs, rfl⟩ : fs.set p (some (ByteFile.writeAt (fs.contents p) off data o).1) = fs' ∧
      (ByteFile.writeAt (fs.contents p) off data o).2 = ok := Prod.mk.inj h
  rw [hfile] at hfs
  subst hfs
  rw [contents_set]
  refine ⟨eqOff_set fs _ (List.mem_singleton_self p),
    keepsBefore_overwrite _ h0 hpos hoff hmax hend, ?_⟩
  intro hsucc
  rw [hok hsucc]
  have hoff' : off.toNat ≤ (fs.contents p).length := by omega
  have hlen := length_overwrite (fs.contents p) data hoff'
  exact ⟨by omega, slice_overwrite_self data h0 hoff⟩

/-- A write succeeds when nothing stops it and the file has room for all the data. -/
theorem writeAt_ok_iff (fs : FileTree) (p : SlashPath) (off : ℤ) (data : Bytes)
    (o : WriteOutcome) :
    (fs.writeAt p off data o).2 = true ↔
      o = .done ∧ 0 ≤ off ∧ data.length ≤ (maxSize - off).toNat := by
  change (ByteFile.writeAt (fs.contents p) off data o).2 = true ↔ _
  unfold ByteFile.writeAt
  by_cases hoff : off < 0
  · rw [if_pos hoff]
    exact iff_of_false Bool.false_ne_true fun h => absurd h.2.1 (not_le.mpr hoff)
  · rw [if_neg hoff]
    cases o with
    | done => simp [not_lt.mp hoff]
    | failed n => simp

theorem writeFile_eq (fs : FileTree) (p : SlashPath) (data : Bytes) (o : ReplaceOutcome) :
    fs.writeFile p data o =
      (fs.set p (ByteFile.writeFile (fs p) data o).1, decide (o = .done)) := by
  cases o <;> rfl

end FileTree
