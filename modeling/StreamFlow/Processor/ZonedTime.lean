import Mathlib.Data.List.Pairwise
import Mathlib.Tactic.Ring
import StreamFlow.Processor.Timed

/-!
# Times with a location

The functions on windows of `advanced_streaming.go` use times as keys of maps. Two keys of type
`time.Time` are equal when they are the same instant and have the same `Location`, so here a time
is an instant with a location. `sort.Slice` puts records in order of time; of the records with the
same time any may come first, so the results that need a sort hold for every `SliceSort`.
-/

namespace StreamFlow.Processor

/-- A `*time.Location`. Locations are equal when they are the same pointer. -/
structure Location where
  id : ℕ
deriving DecidableEq, Repr

/-- `time.Time` as a key of a map: an instant, in nanoseconds since the zero time, and the location
it is shown in. -/
@[ext]
structure ZonedTime where
  instant : ℤ
  loc : Location
deriving DecidableEq, Repr

namespace ZonedTime

instance : Ord ZonedTime :=
  ⟨compareLex (compareOn ZonedTime.instant) (compareOn fun t => t.loc.id)⟩

instance : Std.TransOrd ZonedTime :=
  inferInstanceAs
    (Std.TransCmp (compareLex (compareOn ZonedTime.instant) (compareOn fun t => t.loc.id)))

instance : Std.LawfulEqOrd ZonedTime where
  eq_of_compare {t u} h := by
    obtain ⟨hinstant, hloc⟩ := compareLex_eq_eq.mp h
    obtain ⟨i, ⟨l⟩⟩ := t
    obtain ⟨j, ⟨m⟩⟩ := u
    obtain rfl : i = j := Std.LawfulEqCmp.eq_of_compare hinstant
    obtain rfl : l = m := Std.LawfulEqCmp.eq_of_compare hloc
    rfl

/-- `Truncate` rounds down to a multiple of `d` since the zero time. -/
def truncate (t : ZonedTime) (d : ℤ) : ZonedTime :=
  if d ≤ 0 then t else ⟨t.instant - t.instant % d, t.loc⟩

def add (t : ZonedTime) (d : ℤ) : ZonedTime := ⟨t.instant + d, t.loc⟩

def sub (t u : ZonedTime) : ℤ := Time.sub ⟨t.instant, none⟩ ⟨u.instant, none⟩

def before (t u : ZonedTime) : Bool := t.instant < u.instant

def after (t u : ZonedTime) : Bool := u.instant < t.instant

@[simp] theorem before_iff {t u : ZonedTime} : t.before u ↔ t.instant < u.instant :=
  decide_eq_true_iff

@[simp] theorem after_iff {t u : ZonedTime} : t.after u ↔ u.instant < t.instant :=
  decide_eq_true_iff

theorem add_instant_add_mul (t : ZonedTime) (d : ℤ) (i : ℕ) :
    (t.add d).instant + i * d = t.instant + (i + 1 : ℕ) * d := by
  rw [add]
  push_cast
  ring

theorem truncate_loc (t : ZonedTime) (d : ℤ) : (t.truncate d).loc = t.loc := by
  rw [truncate]
  split <;> rfl

theorem truncate_of_pos (t : ZonedTime) {d : ℤ} (hd : 0 < d) :
    t.truncate d = ⟨t.instant - t.instant % d, t.loc⟩ := if_neg (not_le.mpr hd)

/-- The times that are not changed by rounding are the multiples. -/
theorem truncate_eq_self_iff {t : ZonedTime} {d : ℤ} (hd : 0 < d) :
    t.truncate d = t ↔ d ∣ t.instant := by
  obtain ⟨i, l⟩ := t
  rw [truncate_of_pos _ hd, mk.injEq, Int.dvd_iff_emod_eq_zero]
  simp

/-- A time is rounded down to `k` when it is in the window of length `d` that starts at `k`. -/
theorem truncate_eq_iff {t k : ZonedTime} {d : ℤ} (hd : 0 < d) :
    t.truncate d = k ↔
      (t.loc = k.loc ∧ d ∣ k.instant) ∧ k.instant ≤ t.instant ∧ t.instant < k.instant + d := by
  obtain ⟨i, l⟩ := t
  obtain ⟨j, m⟩ := k
  rw [truncate_of_pos _ hd, mk.injEq]
  have hmod := Int.emod_lt_of_pos i hd
  have hnonneg := Int.emod_nonneg i hd.ne'
  constructor
  · rintro ⟨rfl, rfl⟩
    exact ⟨⟨rfl, Int.dvd_self_sub_emod⟩, by dsimp only; omega, by dsimp only; omega⟩
  · rintro ⟨⟨rfl, c, hj⟩, hle, hlt⟩
    dsimp only at hj hle hlt ⊢
    subst hj
    refine ⟨?_, rfl⟩
    have hrem : i % d = i - d * c := by
      rw [← Int.sub_mul_emod_self_left i d c, Int.emod_eq_of_lt] <;> omega
    omega

end ZonedTime

structure ZonedRecord (ν : Type) where
  atTime : ZonedTime
  record : Record ν

/-- `sort.Slice` by time. The sort is not stable: it returns some permutation in order of time. -/
structure SliceSort (ν : Type) where
  sort : List (ZonedRecord ν) → List (ZonedRecord ν)
  perm : ∀ l, (sort l).Perm l
  sorted : ∀ l, (sort l).Pairwise fun a b => a.atTime.instant ≤ b.atTime.instant

/-- A sort that keeps records of the same time in their order. -/
def insertionSliceSort (ν : Type) : SliceSort ν where
  sort l := l.insertionSort fun a b => a.atTime.instant ≤ b.atTime.instant
  perm l := List.perm_insertionSort _ l
  sorted l := by
    have htrans : IsTrans (ZonedRecord ν) fun a b => a.atTime.instant ≤ b.atTime.instant :=
      ⟨fun _ _ _ => le_trans⟩
    have htotal : Std.Total fun a b : ZonedRecord ν => a.atTime.instant ≤ b.atTime.instant :=
      ⟨fun _ _ => le_total _ _⟩
    exact List.pairwise_insertionSort _ l

namespace SliceSort

variable {ν : Type} (sort : SliceSort ν)

theorem sort_nil : sort.sort [] = [] := List.perm_nil.mp (sort.perm [])

theorem sort_ne_nil {input : List (ZonedRecord ν)} (h : input ≠ []) : sort.sort input ≠ [] :=
  fun heq => h (List.nil_perm.mp (heq ▸ sort.perm input))

/-- No record is later than the last one after the sort. -/
theorem le_getLast {input rest : List (ZonedRecord ν)} {first tr : ZonedRecord ν}
    (hsort : sort.sort input = first :: rest) (htr : tr ∈ first :: rest) : tr.atTime.instant ≤
      ((first :: rest).getLast (List.cons_ne_nil first rest)).atTime.instant :=
  (hsort ▸ sort.sorted input).rel_getLast_of_rel_getLast_getLast htr le_rfl

/-- No record is earlier than the first one after the sort. -/
theorem first_le {input rest : List (ZonedRecord ν)} {first tr : ZonedRecord ν}
    (hsort : sort.sort input = first :: rest) (htr : tr ∈ input) :
    first.atTime.instant ≤ tr.atTime.instant := by
  have hmem := (sort.perm input).mem_iff.mpr htr
  have hsorted := sort.sorted input
  rw [hsort] at hmem hsorted
  exact hsorted.rel_head_of_rel_head_head hmem le_rfl

end SliceSort

end StreamFlow.Processor
