import StreamFlow.Broker.Segment.Index
import StreamFlow.Foundation.ByteFile

/-!
# The sparse index

`sparse_index_mmap.go`: a file of a fixed size that is mapped into memory, with one slot of
16 bytes for each entry. The mapping is shared, so `data` is what the file holds. The
number of entries is not stored: opening a file counts the slots up to the first one that
is zero. The file is described by the list of its slots; `survives_iff` says which
entries are found again after the index was closed and opened.

An `int` has 64 bits, and the size in bytes wraps around.
-/

namespace StreamFlow

open BigEndian ByteFile

structure SparseMMapIndex where
  data : Bytes
  entries : ℕ
deriving DecidableEq, Repr

/-- A system call of `OpenSparseMMapIndex` that fails. -/
inductive MMapFault where
  | openFile
  | truncate
  | mmap
deriving DecidableEq, Repr

/-- Errors of the index; `outOfRange` is the panic of a slice expression. -/
inductive SparseError where
  | openFile
  | truncate
  | mmap
  | outOfRange
  | full
deriving DecidableEq, Repr

namespace SparseMMapIndex

/-- The number of entries that is asked for. -/
def capacity (maxEntries : ℤ) : ℤ := if maxEntries ≤ 0 then 1024 else maxEntries

/-- The size of the file, a product of two numbers of type `int`. -/
def byteSize (maxEntries : ℤ) : ℤ := (capacity maxEntries * 16).bmod (2 ^ 64)

/-- The loop of `OpenSparseMMapIndex` from slot `i` on. -/
def scan (data : Bytes) : ℕ → ℕ → Except SparseError ℕ
  | 0, i => .ok i
  | rounds + 1, i =>
      if data.length < 16 * i + 16 then .error .outOfRange
      else if entryAt data (16 * i) = (0, 0) then .ok i
      else scan data rounds (i + 1)

/-- `OpenSparseMMapIndex` on a file with the given contents; a missing file is created
empty. -/
def openSparseMMapIndex (fault : Option MMapFault) (file : Bytes) (maxEntries : ℤ) :
    Except SparseError SparseMMapIndex :=
  let sz := byteSize maxEntries
  if fault = some .openFile then .error .openFile
  else if fault = some .truncate ∨ sz < 0 then .error .truncate
  else if fault = some .mmap ∨ sz = 0 then .error .mmap
  else
    let mapped := truncate file sz.toNat
    match scan mapped (capacity maxEntries).toNat 0 with
    | .error e => .error e
    | .ok entries => .ok ⟨mapped, entries⟩

def append (s : SparseMMapIndex) (offset position : ℤ) : Except SparseError SparseMMapIndex :=
  if s.data.length < 16 * s.entries + 16 then .error .full
  else
    .ok ⟨overwrite s.data (16 * s.entries) (encodePair (offset, position)), s.entries + 1⟩

/-- The loop of `Find` from slot `i` on. -/
def findLoop (data : Bytes) (offset : ℤ) : ℕ → ℕ → ℤ × Bool
  | 0, _ => (0, false)
  | rounds + 1, i =>
      if (entryAt data (16 * i)).1 = offset then ((entryAt data (16 * i)).2, true)
      else findLoop data offset rounds (i + 1)

def find (s : SparseMMapIndex) (offset : ℤ) : ℤ × Bool := findLoop s.data offset s.entries 0

/-- What the file holds after `Close`. -/
def close (s : SparseMMapIndex) : Bytes := s.data

/-- A sequence of calls of `Append`. -/
def appendAll (s : SparseMMapIndex) (es : List (ℤ × ℤ)) : Except SparseError SparseMMapIndex :=
  es.foldlM (fun s e => s.append e.1 e.2) s

end SparseMMapIndex

section Slots

theorem encodePairs_append (l l' : List (ℤ × ℤ)) :
    encodePairs (l ++ l') = encodePairs l ++ encodePairs l' := List.flatMap_append

theorem encodePair_zero : encodePair (0, 0) = List.replicate 16 0 := by decide

theorem encodePairs_replicate_zero (k : ℕ) :
    encodePairs (List.replicate k (0, 0)) = List.replicate (16 * k) 0 := by
  induction k with
  | zero => rfl
  | succ k ih =>
      rw [List.replicate_succ, encodePairs_cons, ih, encodePair_zero,
        List.replicate_append_replicate]
      congr 1
      omega

theorem take_encodePairs (l : List (ℤ × ℤ)) (k : ℕ) :
    (encodePairs l).take (16 * k) = encodePairs (l.take k) := by
  induction k generalizing l with
  | zero => rfl
  | succ k ih =>
      cases l with
      | nil => rfl
      | cons e l =>
          have hk : 16 * (k + 1) = (encodePair e).length + 16 * k := by
            rw [length_encodePair]
            omega
          rw [encodePairs_cons, List.take_succ_cons, encodePairs_cons, hk,
            List.take_length_add_append, ih]

theorem drop_encodePairs (l : List (ℤ × ℤ)) (k : ℕ) :
    (encodePairs l).drop (16 * k) = encodePairs (l.drop k) := by
  induction k generalizing l with
  | zero => rfl
  | succ k ih =>
      cases l with
      | nil => exact List.drop_nil
      | cons e l =>
          have hk : 16 * (k + 1) = (encodePair e).length + 16 * k := by
            rw [length_encodePair]
            omega
          rw [encodePairs_cons, List.drop_succ_cons, hk, List.drop_length_add_append, ih]

/-- The slots of a file that is cut, or filled up with zeros, to `n` slots. -/
def resized (l : List (ℤ × ℤ)) (n : ℕ) : List (ℤ × ℤ) :=
  l.take n ++ List.replicate (n - l.length) (0, 0)

theorem truncate_encodePairs (l : List (ℤ × ℤ)) (n : ℕ) :
    truncate (encodePairs l) (16 * n) = encodePairs (resized l n) := by
  rw [truncate, take_encodePairs, resized, encodePairs_append, encodePairs_replicate_zero,
    length_encodePairs, Nat.mul_sub]

theorem resized_append_zeros (l : List (ℤ × ℤ)) (k n : ℕ) :
    resized (l ++ List.replicate k (0, 0)) n = resized l n := by
  rw [resized, List.take_append, List.take_replicate, List.append_assoc,
    List.replicate_append_replicate, List.length_append, List.length_replicate, resized]
  congr 2
  omega

theorem resized_of_length_lt {l : List (ℤ × ℤ)} {n : ℕ} (h : l.length < n) :
    ∃ k, resized l n = l.take n ++ (0, 0) :: List.replicate k (0, 0) := by
  refine ⟨n - l.length - 1, ?_⟩
  rw [resized, ← List.replicate_succ, Nat.sub_add_cancel (by omega)]

theorem resized_of_le {l : List (ℤ × ℤ)} {n : ℕ} (h : n ≤ l.length) : resized l n = l.take n := by
  rw [resized, Nat.sub_eq_zero_of_le h, List.replicate_zero, List.append_nil]

theorem length_resized (l : List (ℤ × ℤ)) (n : ℕ) : (resized l n).length = n := by
  rw [resized, List.length_append, List.length_take, List.length_replicate]
  omega

/-- Writing one slot. -/
theorem overwrite_encodePairs {l : List (ℤ × ℤ)} {i : ℕ} (hi : i < l.length) (e : ℤ × ℤ) :
    overwrite (encodePairs l) (16 * i) (encodePair e) = encodePairs (l.set i e) := by
  rw [overwrite_of_le _ (by rw [length_encodePairs]; omega), length_encodePair,
    ← Nat.mul_succ, take_encodePairs, drop_encodePairs, List.set_eq_take_append_cons_drop,
    if_pos hi, encodePairs_append, encodePairs_cons, List.append_assoc]

/-- Reading one slot. -/
theorem entryAt_encodePairs {l : List (ℤ × ℤ)} (hl : ∀ e ∈ l, Int64Range e.1 ∧ Int64Range e.2)
    {i : ℕ} {e : ℤ × ℤ} (he : l[i]? = some e) : entryAt (encodePairs l) (16 * i) = e := by
  obtain ⟨hi, -⟩ := List.getElem?_eq_some_iff.mp he
  have hget : (entriesOf (encodePairs l))[i]? = some (entryAt (encodePairs l) (16 * i)) := by
    rw [entriesOf, List.getElem?_map, length_encodePairs, Nat.mul_div_cancel_left _ (by decide),
      List.getElem?_range hi, Option.map_some]
  rw [entriesOf_encodePairs hl, he] at hget
  exact (Option.some.inj hget).symm

end Slots

namespace SparseMMapIndex

section Scan

variable {l : List (ℤ × ℤ)} {i n rounds : ℕ}

/-- The loop passes over slots that are not zero. -/
theorem scan_skip (hl : ∀ e ∈ l, Int64Range e.1 ∧ Int64Range e.2)
    (h : ∀ j < n, ∃ e, l[i + j]? = some e ∧ e ≠ (0, 0)) :
    scan (encodePairs l) (n + rounds) i = scan (encodePairs l) rounds (i + n) := by
  induction n generalizing i with
  | zero => rw [Nat.zero_add, Nat.add_zero]
  | succ n ih =>
      obtain ⟨e, he, hne⟩ := h 0 (Nat.succ_pos n)
      rw [Nat.add_zero] at he
      obtain ⟨hi, -⟩ := List.getElem?_eq_some_iff.mp he
      have hlen : ¬ (encodePairs l).length < 16 * i + 16 := by
        rw [length_encodePairs]
        omega
      rw [Nat.succ_add, scan, if_neg hlen, entryAt_encodePairs hl he, if_neg hne, ih, Nat.add_assoc,
        Nat.add_comm 1 n]
      intro j hj
      obtain ⟨e', he', hne'⟩ := h (j + 1) (Nat.succ_lt_succ hj)
      exact ⟨e', by rwa [Nat.add_assoc, Nat.add_comm 1 j], hne'⟩

/-- The loop ends at the first slot that is zero. -/
theorem scan_of_zero {a b : List (ℤ × ℤ)}
    (hl : ∀ e ∈ a ++ (0, 0) :: b, Int64Range e.1 ∧ Int64Range e.2)
    (ha : ∀ e ∈ a, e ≠ (0, 0)) (hrounds : a.length < rounds) :
    scan (encodePairs (a ++ (0, 0) :: b)) rounds 0 = .ok a.length := by
  obtain ⟨more, rfl⟩ : ∃ more, rounds = a.length + (more + 1) := ⟨rounds - a.length - 1, by omega⟩
  have hzero : (a ++ (0, 0) :: b)[a.length]? = some (0, 0) := by simp
  have hlen : ¬ (encodePairs (a ++ (0, 0) :: b)).length < 16 * a.length + 16 := by
    rw [length_encodePairs, List.length_append, List.length_cons]
    omega
  rw [scan_skip hl, Nat.zero_add, scan, if_neg hlen, entryAt_encodePairs hl hzero, if_pos rfl]
  intro j hj
  rw [Nat.zero_add, List.getElem?_append_left hj]
  exact ⟨a[j], List.getElem?_eq_getElem hj, ha _ (List.getElem_mem hj)⟩

/-- Without such a slot it runs to its end, and beyond the file if that is smaller. -/
theorem scan_of_forall_ne (hl : ∀ e ∈ l, Int64Range e.1 ∧ Int64Range e.2)
    (hne : ∀ e ∈ l, e ≠ (0, 0)) :
    scan (encodePairs l) rounds 0 =
      if rounds ≤ l.length then .ok rounds else .error .outOfRange := by
  have hslots : ∀ j < l.length, ∃ e, l[0 + j]? = some e ∧ e ≠ (0, 0) := by
    intro j hj
    rw [Nat.zero_add]
    exact ⟨l[j], List.getElem?_eq_getElem hj, hne _ (List.getElem_mem hj)⟩
  split
  · next hle =>
      have hskip : scan (encodePairs l) (rounds + 0) 0 = scan (encodePairs l) 0 (0 + rounds) :=
        scan_skip hl fun j hj => hslots j (Nat.lt_of_lt_of_le hj hle)
      rwa [Nat.add_zero, Nat.zero_add] at hskip
  · next hlt =>
      obtain ⟨more, rfl⟩ : ∃ more, rounds = l.length + (more + 1) :=
        ⟨rounds - l.length - 1, by omega⟩
      have hlen : (encodePairs l).length < 16 * l.length + 16 := by
        rw [length_encodePairs]
        omega
      rw [scan_skip hl hslots, Nat.zero_add, scan, if_pos hlen]

end Scan

section Find

/-- The position of the first entry with an offset. -/
def lookup (es : List (ℤ × ℤ)) (offset : ℤ) : ℤ × Bool :=
  match es.find? fun e => decide (e.1 = offset) with
  | some e => (e.2, true)
  | none => (0, false)

theorem lookup_cons (e : ℤ × ℤ) (es : List (ℤ × ℤ)) (offset : ℤ) :
    lookup (e :: es) offset = if e.1 = offset then (e.2, true) else lookup es offset := by
  rw [lookup, List.find?_cons]
  by_cases h : e.1 = offset
  · rw [if_pos h, decide_eq_true h]
  · rw [if_neg h, decide_eq_false h]
    rfl

theorem lookup_eq_false_iff {es : List (ℤ × ℤ)} {offset : ℤ} :
    (lookup es offset).2 = false ↔ ∀ e ∈ es, e.1 ≠ offset := by
  induction es with
  | nil => simp [lookup]
  | cons e es ih =>
      rw [lookup_cons, List.forall_mem_cons, ← ih]
      split <;> simp_all

theorem lookup_of_false {es : List (ℤ × ℤ)} {offset : ℤ} (h : (lookup es offset).2 = false) :
    lookup es offset = (0, false) := by
  unfold lookup at h ⊢
  cases hfind : es.find? fun e => decide (e.1 = offset) with
  | none => rfl
  | some e =>
      rw [hfind] at h
      cases h

theorem lookup_append (a b : List (ℤ × ℤ)) (offset : ℤ) :
    lookup (a ++ b) offset =
      if (lookup a offset).2 = true then lookup a offset else lookup b offset := by
  induction a with
  | nil => rfl
  | cons e a ih =>
      rw [List.cons_append, lookup_cons, lookup_cons, ih]
      split <;> rfl

theorem findLoop_eq {l : List (ℤ × ℤ)} (hl : ∀ e ∈ l, Int64Range e.1 ∧ Int64Range e.2)
    (offset : ℤ) {rounds i : ℕ} (hlen : i + rounds ≤ l.length) :
    findLoop (encodePairs l) offset rounds i = lookup ((l.drop i).take rounds) offset := by
  induction rounds generalizing i with
  | zero =>
      rw [List.take_zero]
      rfl
  | succ rounds ih =>
      have hi : i < l.length := by omega
      rw [List.drop_eq_getElem_cons hi, List.take_succ_cons, lookup_cons, findLoop,
        entryAt_encodePairs hl (List.getElem?_eq_getElem hi), ih (by omega)]

end Find

/-- The number of slots of the file. -/
def slots (maxEntries : ℤ) : ℕ := (byteSize maxEntries).toNat / 16

theorem slots_spec {maxEntries : ℤ} (h : 0 < byteSize maxEntries) :
    (byteSize maxEntries).toNat = 16 * slots maxEntries ∧ 0 < slots maxEntries ∧
      slots maxEntries ≤ (capacity maxEntries).toNat := by
  have hcap : 0 < capacity maxEntries := by
    unfold capacity
    split <;> omega
  have hbdiv := Int.bmod_add_bdiv (capacity maxEntries * 16) (2 ^ 64)
  have hlt : byteSize maxEntries < 2 ^ 63 := Int.bmod_lt (by decide)
  rw [← byteSize] at hbdiv
  unfold slots
  omega

/-- The file holds the entries, followed by slots that are zero. -/
structure Holds (s : SparseMMapIndex) (es : List (ℤ × ℤ)) : Prop where
  data : ∃ k, s.data = encodePairs (es ++ List.replicate k (0, 0))
  entries : s.entries = es.length
  range : ∀ e ∈ es, Int64Range e.1 ∧ Int64Range e.2

theorem range_append_zeros {es : List (ℤ × ℤ)}
    (h : ∀ e ∈ es, Int64Range e.1 ∧ Int64Range e.2) (k : ℕ) :
    ∀ e ∈ es ++ List.replicate k (0, 0), Int64Range e.1 ∧ Int64Range e.2 := by
  intro e he
  rcases List.mem_append.mp he with he | he
  · exact h e he
  · obtain rfl := List.eq_of_mem_replicate he
    constructor <;> constructor <;> decide

namespace Holds

variable {s s' : SparseMMapIndex} {es : List (ℤ × ℤ)}

theorem find_eq (h : s.Holds es) (offset : ℤ) : s.find offset = lookup es offset := by
  obtain ⟨k, hdata⟩ := h.data
  rw [find, hdata, h.entries, findLoop_eq (range_append_zeros h.range k) offset (by simp),
    List.drop_zero, List.take_left]

theorem entryAt_eq (h : s.Holds es) {i : ℕ} {e : ℤ × ℤ} (he : es[i]? = some e) :
    entryAt s.data (16 * i) = e := by
  obtain ⟨k, hdata⟩ := h.data
  obtain ⟨hi, -⟩ := List.getElem?_eq_some_iff.mp he
  rw [hdata]
  apply entryAt_encodePairs (range_append_zeros h.range k)
  rwa [List.getElem?_append_left hi]

/-- `Append` writes the slot behind the entries, if there is one. -/
theorem append_cases (h : s.Holds es) {e : ℤ × ℤ} (he : Int64Range e.1 ∧ Int64Range e.2) :
    (s.data.length = 16 * es.length ∧ s.append e.1 e.2 = .error .full) ∨
      16 * es.length < s.data.length ∧
        ∃ s', s.append e.1 e.2 = .ok s' ∧ s'.Holds (es ++ [e]) := by
  obtain ⟨k, hdata⟩ := h.data
  have hlen : s.data.length = 16 * (es.length + k) := by
    rw [hdata, length_encodePairs, List.length_append, List.length_replicate]
  rw [append, h.entries]
  cases k with
  | zero => exact .inl ⟨by omega, if_pos (by omega)⟩
  | succ k =>
      refine .inr ⟨by omega, _, if_neg (by omega), ⟨k, ?_⟩, by simp, ?_⟩
      · dsimp only
        rw [hdata, overwrite_encodePairs (by simp), List.replicate_succ, List.set_append_right _ _
          (Nat.le_refl _), Nat.sub_self, List.set_cons_zero, List.append_assoc]
        rfl
      · intro e' he'
        rcases List.mem_append.mp he' with he' | he'
        · exact h.range e' he'
        · rwa [List.mem_singleton.mp he']

theorem appendAll {more : List (ℤ × ℤ)} (h : s.Holds es)
    (hmore : ∀ e ∈ more, Int64Range e.1 ∧ Int64Range e.2) (happ : s.appendAll more = .ok s') :
    s'.Holds (es ++ more) := by
  induction more generalizing s es with
  | nil =>
      obtain rfl := Except.ok.inj happ
      rwa [List.append_nil]
  | cons e more ih =>
      rw [SparseMMapIndex.appendAll, List.foldlM_cons] at happ
      rcases h.append_cases (hmore e List.mem_cons_self) with ⟨-, hfull⟩ | ⟨-, s₁, hok, hs₁⟩
      · rw [hfull] at happ
        cases happ
      · rw [hok] at happ
        have hrest := ih hs₁ (fun e' he' => hmore e' (List.mem_cons_of_mem e he')) happ
        rwa [List.append_assoc] at hrest

end Holds

/-- Opening a file of slots. -/
theorem open_encodePairs {maxEntries : ℤ} (h : 0 < byteSize maxEntries) (l : List (ℤ × ℤ)) :
    openSparseMMapIndex none (encodePairs l) maxEntries =
      match scan (encodePairs (resized l (slots maxEntries))) (capacity maxEntries).toNat 0 with
      | .error e => .error e
      | .ok entries => .ok ⟨encodePairs (resized l (slots maxEntries)), entries⟩ := by
  have htrunc : ¬ ((none : Option MMapFault) = some .truncate ∨ byteSize maxEntries < 0) := by
    rintro (hf | hneg)
    · cases hf
    · omega
  have hmmap : ¬ ((none : Option MMapFault) = some .mmap ∨ byteSize maxEntries = 0) := by
    rintro (hf | hzero)
    · cases hf
    · omega
  rw [openSparseMMapIndex, if_neg (by decide), if_neg htrunc, if_neg hmmap, (slots_spec h).1,
    truncate_encodePairs]

theorem byteSize_pos_of_open {file : Bytes} {maxEntries : ℤ} {s : SparseMMapIndex}
    (h : openSparseMMapIndex none file maxEntries = .ok s) : 0 < byteSize maxEntries := by
  by_contra hle
  rcases Int.lt_or_eq_of_le (not_lt.mp hle) with hneg | hzero
  · rw [openSparseMMapIndex, if_neg (by decide), if_pos (.inr hneg)] at h
    cases h
  · rw [openSparseMMapIndex, if_neg (by decide), if_neg, if_pos (.inr hzero)] at h
    · cases h
    · rintro (hf | hneg)
      · cases hf
      · omega

/-- An index on a new file. -/
theorem holds_of_open_nil {maxEntries : ℤ} {s : SparseMMapIndex}
    (h : openSparseMMapIndex none [] maxEntries = .ok s) : s.Holds [] := by
  have hsize := byteSize_pos_of_open h
  obtain ⟨-, hpos, hle⟩ := slots_spec hsize
  have hopen := open_encodePairs hsize []
  obtain ⟨k, hk⟩ := resized_of_length_lt (l := []) hpos
  rw [List.take_nil] at hk
  have hscan : scan (encodePairs ([] ++ (0, 0) :: List.replicate k (0, 0)))
      (capacity maxEntries).toNat 0 = .ok 0 := by
    apply scan_of_zero
    · exact range_append_zeros (fun _ he => absurd he List.not_mem_nil) (k + 1)
    · simp
    · exact Nat.lt_of_lt_of_le hpos hle
  rw [hk, hscan] at hopen
  obtain rfl := Except.ok.inj (h.symm.trans hopen)
  exact ⟨⟨k + 1, rfl⟩, rfl, by simp⟩

/-- The index finds the same after it was closed and opened again, and a further `Append`
leaves the slots of the entries as they are. -/
def Survives (s : SparseMMapIndex) (es : List (ℤ × ℤ)) (maxEntries : ℤ) : Prop :=
  ∃ s', openSparseMMapIndex none s.close maxEntries = .ok s' ∧
    (∀ offset, s'.find offset = s.find offset) ∧
    ∀ offset position s'', Int64Range offset → Int64Range position →
      s'.append offset position = .ok s'' →
      ∀ (i : ℕ) e, es[i]? = some e → entryAt s''.data (16 * i) = e

/-- The size of the file is a positive `int`, the loop that counts the entries ends within the
file, no entry in the file is zero, and those behind its end are not needed. -/
structure Keeps (es : List (ℤ × ℤ)) (maxEntries : ℤ) : Prop where
  size_pos : 0 < byteSize maxEntries
  ends : es.length < slots maxEntries ∨ (capacity maxEntries).toNat ≤ slots maxEntries
  ne_zero : ∀ e ∈ es.take (slots maxEntries), e ≠ (0, 0)
  found : ∀ e ∈ es.drop (slots maxEntries), ∃ e' ∈ es.take (slots maxEntries), e'.1 = e.1

variable {s s' : SparseMMapIndex} {es : List (ℤ × ℤ)} {maxEntries : ℤ}

/-- What is read when the index is opened again. -/
theorem Holds.open_close (h : s.Holds es) (hsize : 0 < byteSize maxEntries) :
    openSparseMMapIndex none s.close maxEntries =
      match scan (encodePairs (resized es (slots maxEntries))) (capacity maxEntries).toNat 0 with
      | .error e => .error e
      | .ok entries => .ok ⟨encodePairs (resized es (slots maxEntries)), entries⟩ := by
  obtain ⟨k, hdata⟩ := h.data
  rw [close, hdata, open_encodePairs hsize, resized_append_zeros]

theorem Holds.range_take (h : s.Holds es) (n : ℕ) :
    ∀ e ∈ es.take n, Int64Range e.1 ∧ Int64Range e.2 :=
  fun e he => h.range e (List.mem_of_mem_take he)

/-- Without entries that are zero, the index holds what is left in the file. -/
theorem Holds.open_of_ne_zero (h : s.Holds es) (hsize : 0 < byteSize maxEntries)
    (hne : ∀ e ∈ es.take (slots maxEntries), e ≠ (0, 0)) :
    (es.length < slots maxEntries ∨ (capacity maxEntries).toNat ≤ slots maxEntries) ∧
        (∃ s', openSparseMMapIndex none s.close maxEntries = .ok s' ∧
          s'.Holds (es.take (slots maxEntries)) ∧ s'.data.length = 16 * slots maxEntries) ∨
      ¬ (es.length < slots maxEntries ∨ (capacity maxEntries).toNat ≤ slots maxEntries) ∧
        openSparseMMapIndex none s.close maxEntries = .error .outOfRange := by
  obtain ⟨-, hpos, hle⟩ := slots_spec hsize
  rw [h.open_close hsize]
  by_cases hroom : es.length < slots maxEntries
  · obtain ⟨k, hk⟩ := resized_of_length_lt hroom
    have hlen := length_resized es (slots maxEntries)
    have htake : (es.take (slots maxEntries)).length < (capacity maxEntries).toNat := by
      rw [List.length_take]
      omega
    rw [hk] at hlen
    rw [hk, scan_of_zero (range_append_zeros (h.range_take _) (k + 1)) hne htake]
    refine .inl ⟨.inl hroom, _, rfl, ⟨⟨k + 1, rfl⟩, rfl, h.range_take _⟩, ?_⟩
    rw [length_encodePairs, hlen]
  · have htake : (es.take (slots maxEntries)).length = slots maxEntries := by
      rw [List.length_take]
      omega
    rw [resized_of_le (not_lt.mp hroom), scan_of_forall_ne (h.range_take _) hne, htake]
    by_cases hends : (capacity maxEntries).toNat ≤ slots maxEntries
    · rw [if_pos hends]
      refine .inl ⟨.inr hends, _, rfl, ⟨⟨0, ?_⟩, ?_, h.range_take _⟩, ?_⟩
      · rw [List.replicate_zero, List.append_nil]
      · exact (Nat.le_antisymm hends hle).trans htake.symm
      · rw [length_encodePairs, htake]
    · rw [if_neg hends]
      exact .inr ⟨by omega, rfl⟩

/-- An entry that is zero ends the count, and the next `Append` takes its slot. -/
theorem Holds.not_survives_of_zero (h : s.Holds es)
    (hzero : ¬ ∀ e ∈ es.take (slots maxEntries), e ≠ (0, 0)) : ¬ s.Survives es maxEntries := by
  rintro ⟨s', hopen, -, hkeep⟩
  have hsize := byteSize_pos_of_open hopen
  obtain ⟨-, -, hle⟩ := slots_spec hsize
  push Not at hzero
  obtain ⟨e, hmem, rfl⟩ := hzero
  obtain ⟨a, b, htake, ha⟩ := List.eq_append_cons_of_mem hmem
  have hlt : a.length < (es.take (slots maxEntries)).length := by
    rw [htake, List.length_append, List.length_cons]
    omega
  rw [List.length_take] at hlt
  have hget : es[a.length]? = some (0, 0) := by
    rw [← List.getElem?_take_of_lt (Nat.lt_of_lt_of_le hlt (Nat.min_le_left _ _)), htake]
    simp
  have hrange := range_append_zeros (h.range_take (slots maxEntries)) (slots maxEntries - es.length)
  rw [htake, List.append_assoc, List.cons_append] at hrange
  rw [h.open_close hsize, resized, htake, List.append_assoc, List.cons_append,
    scan_of_zero hrange (fun e he heq => ha (heq ▸ he)) (by omega)] at hopen
  obtain rfl := Except.ok.inj hopen
  -- the next entry is written over the one that is zero
  generalize hslots : a ++ (0, 0) :: (b ++ List.replicate (slots maxEntries - es.length) (0, 0)) = l
    at hkeep hrange
  have hl : a.length < l.length := by
    rw [← hslots, List.length_append, List.length_cons]
    omega
  have hone : Int64Range 1 := by constructor <;> decide
  have happend : append ⟨encodePairs l, a.length⟩ 1 1 =
      .ok ⟨encodePairs (l.set a.length (1, 1)), a.length + 1⟩ := by
    rw [append, if_neg (by rw [length_encodePairs]; dsimp only; omega), overwrite_encodePairs hl]
  have hrange' : ∀ e ∈ l.set a.length (1, 1), Int64Range e.1 ∧ Int64Range e.2 := by
    intro e he
    rcases List.mem_or_eq_of_mem_set he with he | rfl
    · exact hrange e he
    · exact ⟨hone, hone⟩
  have hread := hkeep 1 1 _ hone hone happend a.length (0, 0) hget
  rw [entryAt_encodePairs hrange' (List.getElem?_set_self hl)] at hread
  exact absurd hread (by decide)

theorem lookup_take_eq_iff (n : ℕ) :
    (∀ offset, lookup (es.take n) offset = lookup es offset) ↔
      ∀ e ∈ es.drop n, ∃ e' ∈ es.take n, e'.1 = e.1 := by
  constructor
  · intro h e he
    by_contra hnone
    push Not at hnone
    have hfalse := lookup_eq_false_iff.mpr hnone
    rw [h] at hfalse
    exact lookup_eq_false_iff.mp hfalse e (List.mem_of_mem_drop he) rfl
  · intro h offset
    conv_rhs => rw [← List.take_append_drop n es, lookup_append]
    split
    · rfl
    · next hfalse =>
        rw [Bool.not_eq_true] at hfalse
        have hdrop : (lookup (es.drop n) offset).2 = false := by
          rw [lookup_eq_false_iff]
          rintro e he rfl
          obtain ⟨e', he', heq⟩ := h e he
          exact lookup_eq_false_iff.mp hfalse e' he' heq
        rw [lookup_of_false hfalse, lookup_of_false hdrop]

/-- Reopening, for any index that holds its entries. -/
theorem Holds.survives_iff_keeps (h : s.Holds es) :
    s.Survives es maxEntries ↔ Keeps es maxEntries := by
  constructor
  · intro hsurvives
    have hne : ∀ e ∈ es.take (slots maxEntries), e ≠ (0, 0) := by
      by_contra hzero
      exact h.not_survives_of_zero hzero hsurvives
    obtain ⟨s', hopen, hfind, -⟩ := hsurvives
    have hsize := byteSize_pos_of_open hopen
    rcases h.open_of_ne_zero hsize hne with ⟨hends, s₁, hopen₁, hholds, -⟩ | ⟨-, herror⟩
    · obtain rfl := Except.ok.inj (hopen₁.symm.trans hopen)
      refine ⟨hsize, hends, hne, (lookup_take_eq_iff _).mp fun offset => ?_⟩
      rw [← hholds.find_eq, hfind, h.find_eq]
    · rw [herror] at hopen
      cases hopen
  · rintro ⟨hsize, hends, hne, hfound⟩
    rcases h.open_of_ne_zero hsize hne with ⟨-, s', hopen, hholds, hlen⟩ | ⟨hout, -⟩
    · refine ⟨s', hopen, fun offset => ?_, fun offset position s'' hoffset hposition happ => ?_⟩
      · rw [hholds.find_eq, h.find_eq, (lookup_take_eq_iff _).mpr hfound]
      · intro i e he
        rcases hholds.append_cases (e := (offset, position)) ⟨hoffset, hposition⟩ with
          ⟨-, hfull⟩ | ⟨hroom, s₁, hok, hs₁⟩
        · rw [hfull] at happ
          cases happ
        · obtain rfl := Except.ok.inj (hok.symm.trans happ)
          -- there is room only if no entry was cut off
          rw [List.length_take, hlen] at hroom
          rw [List.take_of_length_le (by omega)] at hs₁
          obtain ⟨hi, -⟩ := List.getElem?_eq_some_iff.mp he
          exact hs₁.entryAt_eq (by rwa [List.getElem?_append_left hi])
    · exact absurd hends hout

end SparseMMapIndex

open SparseMMapIndex

/-- After any entries appended to a new file, within its capacity: the index survives being
opened with a number of entries exactly if the file keeps them. -/
theorem survives_iff {maxEntries : ℤ} {s₀ s : SparseMMapIndex}
    (hopen : openSparseMMapIndex none [] maxEntries = .ok s₀) {es : List (ℤ × ℤ)}
    (hes : ∀ e ∈ es, Int64Range e.1 ∧ Int64Range e.2) (happ : s₀.appendAll es = .ok s)
    (maxEntries' : ℤ) : s.Survives es maxEntries' ↔ Keeps es maxEntries' := by
  have hholds := (holds_of_open_nil hopen).appendAll hes happ
  rw [List.nil_append] at hholds
  exact hholds.survives_iff_keeps

theorem survives_sample :
    ∃ s₀ s, openSparseMMapIndex none [] 2 = .ok s₀ ∧
      s₀.appendAll [(0, 5), (10, 512)] = .ok s ∧ s.find 10 = (512, true) ∧
      s.Survives [(0, 5), (10, 512)] 3 := by
  have hopen : openSparseMMapIndex none [] 2 = .ok ⟨List.replicate 32 0, 0⟩ := by decide +kernel
  have happ : appendAll ⟨List.replicate 32 0, 0⟩ [(0, 5), (10, 512)] =
      .ok ⟨encodePairs [(0, 5), (10, 512)], 2⟩ := by decide +kernel
  have hkeeps : Keeps [(0, 5), (10, 512)] 3 :=
    ⟨by decide, by decide +kernel, by decide +kernel, by decide +kernel⟩
  exact ⟨_, _, hopen, happ, by decide +kernel,
    (survives_iff hopen (by decide) happ 3).mpr hkeeps⟩

/-- The first record of a log, at position 0, is the entry that looks like a free slot: it and
the next one are not found again. -/
theorem not_survives_zero :
    ∃ s₀ s s', openSparseMMapIndex none [] 4 = .ok s₀ ∧
      s₀.appendAll [(0, 0), (1, 64)] = .ok s ∧
      (s.find 0 = (0, true) ∧ s.find 1 = (64, true)) ∧
      openSparseMMapIndex none s.close 4 = .ok s' ∧
      (s'.find 0 = (0, false) ∧ s'.find 1 = (0, false)) ∧
      ¬ s.Survives [(0, 0), (1, 64)] 4 := by
  have hreopen : openSparseMMapIndex none (encodePairs [(0, 0), (1, 64), (0, 0), (0, 0)]) 4 =
      .ok ⟨encodePairs [(0, 0), (1, 64), (0, 0), (0, 0)], 0⟩ := by decide +kernel
  refine ⟨⟨List.replicate 64 0, 0⟩, ⟨encodePairs [(0, 0), (1, 64), (0, 0), (0, 0)], 2⟩, _,
    by decide +kernel, by decide +kernel, by decide +kernel, hreopen, by decide +kernel, ?_⟩
  rintro ⟨s', hopen, hfind, -⟩
  obtain rfl := Except.ok.inj (hreopen.symm.trans hopen)
  exact absurd (hfind 1) (by decide +kernel)

end StreamFlow
