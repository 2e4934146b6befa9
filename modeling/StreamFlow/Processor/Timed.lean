import StreamFlow.Processor.Pipeline

/-!
# Times and timed records

`time.Time` as `advanced_streaming.go` uses it. A time is an instant of the wall clock and
may carry a reading of the monotonic clock; two times that both carry one are compared by
these readings alone. `Sub` returns a `Duration`, a signed 64-bit number of nanoseconds,
and saturates when the time between does not fit in it. Negating a `Duration` wraps around.
-/

namespace StreamFlow.Processor

/-- An instant in nanoseconds, with the reading of the monotonic clock if there is one. -/
structure Time where
  wall : ℤ
  mono : Option ℤ
deriving DecidableEq, Repr

def minDuration : ℤ := -2 ^ 63

def maxDuration : ℤ := 2 ^ 63 - 1

namespace Time

/-- The zero value of `time.Time`, the first instant of the year 1. -/
def zero : Time := ⟨-62135596800000000000, none⟩

/-- The time from `u` to `t`. -/
def between (t u : Time) : ℤ :=
  match t.mono, u.mono with
  | some m, some n => m - n
  | _, _ => t.wall - u.wall

/-- `Sub`. -/
def sub (t u : Time) : ℤ := max minDuration (min maxDuration (t.between u))

theorem between_comm (t u : Time) : u.between t = -t.between u := by
  obtain ⟨w, m⟩ := t
  obtain ⟨v, n⟩ := u
  cases m with
  | none => cases n <;> simp [between]
  | some m => cases n <;> simp [between]

theorem abs_between_comm (t u : Time) : |u.between t| = |t.between u| := by
  rw [between_comm, abs_neg]

theorem sub_of_abs_le {t u : Time} (h : |t.between u| ≤ maxDuration) : t.sub u = t.between u := by
  unfold maxDuration at h
  rw [abs_le] at h
  unfold sub minDuration maxDuration
  omega

theorem sub_of_lt {t u : Time} (h : t.between u < -maxDuration) : t.sub u = minDuration := by
  unfold maxDuration at h
  unfold sub minDuration maxDuration
  omega

theorem sub_of_gt {t u : Time} (h : maxDuration < t.between u) : t.sub u = maxDuration := by
  unfold maxDuration at h
  unfold sub minDuration maxDuration
  omega

end Time

/-- The negative of a `Duration`. -/
def negDuration (d : ℤ) : ℤ := (-d).bmod (2 ^ 64)

theorem negDuration_of_lt {d : ℤ} (h : minDuration < d) (h' : d ≤ maxDuration) :
    negDuration d = -d := by
  unfold minDuration at h
  unfold maxDuration at h'
  rw [negDuration, Int.bmod_eq_of_le] <;> omega

/-- The least `Duration` is its own negative. -/
theorem negDuration_minDuration : negDuration minDuration = minDuration := by decide

structure TimedRecord (ν : Type) where
  atTime : Time
  record : Record ν

/-- The entries of a record; a nil map has none. -/
def fields {ν : Type} (r : Record ν) : OrdMap String ν := r.getD ∅

end StreamFlow.Processor
