import StreamFlow.Foundation.BigEndian

/-!
# Random-access files

A file is the list of its bytes. `slice` reads a block, `overwrite` replaces
one, and `writeAt` is the operation a program sees: it may stop after any prefix
of the data, and it cannot make a file longer than `maxSize`, the largest signed
64-bit offset. `writeFile` truncates a file and then writes it anew, and may
stop before the truncation or after any prefix.
-/

namespace ByteFile

open BigEndian

/-- The largest size of a file whose offsets are signed 64-bit numbers. -/
def maxSize : ℤ := 2 ^ 63 - 1

/-- The block of `len` bytes at `off`, when the file reaches that far. -/
def slice (f : Bytes) (off : ℤ) (len : ℕ) : Option Bytes :=
  if 0 ≤ off ∧ off + len ≤ f.length then some ((f.drop off.toNat).take len) else none

/-- The file after `data` has been written at `off`; a gap reads as zeros, and
writing nothing changes nothing. -/
def overwrite (f : Bytes) (off : ℕ) (data : Bytes) : Bytes :=
  if data = [] then f
  else f.take off ++ List.replicate (off - f.length) 0 ++ data ++ f.drop (off + data.length)

theorem overwrite_of_le {f : Bytes} {off : ℕ} (data : Bytes) (h : off ≤ f.length) :
    overwrite f off data = f.take off ++ data ++ f.drop (off + data.length) := by
  unfold overwrite
  split
  · next hnil => simp [hnil]
  · have hgap : off - f.length = 0 := by omega
    rw [hgap, List.replicate_zero, List.append_nil]

theorem length_overwrite (f : Bytes) {off : ℕ} (data : Bytes) (h : off ≤ f.length) :
    (overwrite f off data).length = max f.length (off + data.length) := by
  rw [overwrite_of_le data h]
  simp only [List.length_append, List.length_take, List.length_drop]
  omega

theorem slice_eq_some_iff {f : Bytes} {off : ℤ} {len : ℕ} {data : Bytes} :
    slice f off len = some data ↔
      0 ≤ off ∧ data.length = len ∧
        ∃ rest, f.drop off.toNat = data ++ rest ∧ off ≤ f.length := by
  unfold slice
  constructor
  · intro h
    split at h
    · next hb =>
        obtain rfl := Option.some.inj h
        have hlen : ((f.drop off.toNat).take len).length = len := by
          rw [List.length_take, List.length_drop]
          omega
        exact ⟨hb.1, hlen, (f.drop off.toNat).drop len,
          (List.take_append_drop len _).symm, by omega⟩
    · cases h
  · rintro ⟨h0, hlen, rest, hdrop, hle⟩
    have hcount := congrArg List.length hdrop
    rw [List.length_drop, List.length_append] at hcount
    rw [if_pos ⟨h0, by omega⟩, hdrop, ← hlen, List.take_left]

/-- What has just been written is read back. -/
theorem slice_overwrite_self {f : Bytes} {off : ℤ} (data : Bytes) (h0 : 0 ≤ off)
    (h : off ≤ f.length) :
    slice (overwrite f off.toNat data) off data.length = some data := by
  have hoff : off.toNat ≤ f.length := by omega
  rw [slice_eq_some_iff]
  refine ⟨h0, rfl, f.drop (off.toNat + data.length), ?_, ?_⟩
  · rw [overwrite_of_le data hoff, List.append_assoc, List.drop_append_of_le_length]
    · simp
    · rw [List.length_take]
      omega
  · rw [length_overwrite f data hoff]
    omega

/-- A write leaves every block that ends before it as it was. -/
theorem slice_overwrite_of_le {f : Bytes} {off : ℤ} (data : Bytes) {o : ℤ} {len : ℕ}
    (h : off ≤ f.length) (hend : o + len ≤ off) :
    slice (overwrite f off.toNat data) o len = slice f o len := by
  by_cases ho : 0 ≤ o
  · have hoff : off.toNat ≤ f.length := by omega
    have hlen := length_overwrite f data hoff
    unfold slice
    rw [if_pos ⟨ho, by omega⟩, if_pos ⟨ho, by omega⟩, overwrite_of_le data hoff,
      List.append_assoc, List.drop_append_of_le_length (by rw [List.length_take]; omega),
      List.take_append_of_le_length (by rw [List.length_drop, List.length_take]; omega),
      List.drop_take, List.take_take, min_eq_left (by omega)]
  · unfold slice
    rw [if_neg (by omega), if_neg (by omega)]

/-- How a write at an offset ends: complete, or with an error after a prefix. -/
inductive WriteOutcome where
  | done
  | failed (written : ℕ)
deriving DecidableEq, Repr

/-- Write `data` at `off`. The flag tells whether the call succeeded. -/
def writeAt (f : Bytes) (off : ℤ) (data : Bytes) (o : WriteOutcome) : Bytes × Bool :=
  if off < 0 then (f, false)
  else
    let room := (maxSize - off).toNat
    match o with
    | .done => (overwrite f off.toNat (data.take room), decide (data.length ≤ room))
    | .failed n => (overwrite f off.toNat (data.take (min n room)), false)

/-- Everything a write inside the file can do: some prefix of the data that
stays within the size limit is written, and all of it when the call succeeds. -/
theorem writeAt_cases {f : Bytes} {off : ℤ} (data : Bytes) (o : WriteOutcome)
    (h0 : 0 ≤ off) (hmax : off ≤ maxSize) :
    ∃ k, (writeAt f off data o).1 = overwrite f off.toNat (data.take k) ∧
      off + (data.take k).length ≤ maxSize ∧
      ((writeAt f off data o).2 = true → data.take k = data) := by
  have hroom : ∀ k, k ≤ (maxSize - off).toNat →
      off + (data.take k).length ≤ maxSize := by
    intro k hk
    rw [List.length_take]
    omega
  unfold writeAt
  rw [if_neg (by omega)]
  cases o with
  | done =>
      refine ⟨(maxSize - off).toNat, rfl, hroom _ le_rfl, ?_⟩
      intro hok
      exact List.take_of_length_le (of_decide_eq_true hok)
  | failed n =>
      refine ⟨min n (maxSize - off).toNat, rfl, hroom _ (min_le_right _ _), ?_⟩
      intro hok
      cases hok

/-- A file that replaced another without touching what lies before `pos`. -/
structure KeepsBefore (pos : ℤ) (old new : Bytes) : Prop where
  le_length : pos ≤ new.length
  length_le : new.length ≤ maxSize
  slice_eq : ∀ (o : ℤ) (len : ℕ), o + len ≤ pos → slice new o len = slice old o len

theorem KeepsBefore.refl {pos : ℤ} {f : Bytes} (hpos : pos ≤ f.length)
    (hmax : f.length ≤ maxSize) : KeepsBefore pos f f :=
  ⟨hpos, hmax, fun _ _ _ => rfl⟩

theorem KeepsBefore.trans {pos : ℤ} {f₁ f₂ f₃ : Bytes} (h₁ : KeepsBefore pos f₁ f₂)
    (h₂ : KeepsBefore pos f₂ f₃) : KeepsBefore pos f₁ f₃ :=
  ⟨h₂.le_length, h₂.length_le,
    fun o len h => (h₂.slice_eq o len h).trans (h₁.slice_eq o len h)⟩

theorem KeepsBefore.mono {pos pos' : ℤ} {old new : Bytes} (h : KeepsBefore pos' old new)
    (hpos : pos ≤ pos') : KeepsBefore pos old new :=
  ⟨hpos.trans h.le_length, h.length_le, fun o len ho => h.slice_eq o len (ho.trans hpos)⟩

/-- A write behind `pos` keeps everything before it. -/
theorem keepsBefore_overwrite {f : Bytes} {pos off : ℤ} (data : Bytes) (h0 : 0 ≤ off)
    (hpos : pos ≤ off) (hoff : off ≤ f.length) (hmax : f.length ≤ maxSize)
    (hend : off + data.length ≤ maxSize) :
    KeepsBefore pos f (overwrite f off.toNat data) := by
  have hoff' : off.toNat ≤ f.length := by omega
  have hlen := length_overwrite f data hoff'
  refine ⟨by omega, by omega, ?_⟩
  intro o len h
  exact slice_overwrite_of_le data hoff (by omega)

/-- How replacing a whole file ends: complete, with an error before the file was
truncated, or with an error after a prefix of the new contents. -/
inductive ReplaceOutcome where
  | done
  | notOpened
  | failed (written : ℕ)
deriving DecidableEq, Repr

/-- Truncate a file and write `data` into it, creating it when it is missing. -/
def writeFile (old : Option Bytes) (data : Bytes) : ReplaceOutcome → Option Bytes × Bool
  | .done => (some data, true)
  | .notOpened => (old, false)
  | .failed n => (some (data.take n), false)

/-- `Truncate`: cut a file to a length, or fill it up with zeros. -/
def truncate (f : Bytes) (size : ℕ) : Bytes := f.take size ++ List.replicate (size - f.length) 0

end ByteFile
