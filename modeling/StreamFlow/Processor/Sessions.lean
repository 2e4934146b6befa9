import StreamFlow.Foundation.GapRuns
import StreamFlow.Processor.ZonedTime

/-!
# Session windows

`SessionWindows` of `advanced_streaming.go` sorts the records by time and starts a new session when
a record comes more than `gap` after the one before it. The loop computes the runs of the sorted
records (`sessionWindows_eq`), so the facts about `GapRuns` apply. The times between records are
compared as values of `Sub`, which saturates; for a gap below the greatest `Duration` this is the
comparison of the times themselves (`ZonedTime.lt_sub_iff`).
-/

namespace StreamFlow.Processor

theorem ZonedTime.lt_sub_iff {t u : ZonedTime} {gap : ℤ} (hgap : 0 ≤ gap)
    (hmax : gap < maxDuration) : gap < t.sub u ↔ gap < t.instant - u.instant := by
  unfold maxDuration at hmax
  unfold sub Time.sub Time.between minDuration maxDuration
  dsimp only
  omega

variable {ν : Type}

/-- The loop of `SessionWindows`: `out` are the sessions that are closed, `current` are the records
of the open one, and `last` is the time of its last record. -/
def sessionLoop (gap : ℤ) : List (List (Record ν)) → List (Record ν) → ZonedTime →
    List (ZonedRecord ν) → List (List (Record ν))
  | out, current, _, [] => out ++ [current]
  | out, current, last, tr :: rest =>
      if gap < tr.atTime.sub last then sessionLoop gap (out ++ [current]) [tr.record] tr.atTime rest
      else sessionLoop gap out (current ++ [tr.record]) tr.atTime rest

def sessionWindows (sort : SliceSort ν) (input : List (ZonedRecord ν)) (gap : ℤ) :
    List (List (Record ν)) :=
  match sort.sort input with
  | [] => []
  | first :: rest => sessionLoop gap [] [first.record] first.atTime rest

/-- Two instants with more than `gap` between them. -/
def farApart (gap t u : ℤ) : Bool := gap < u - t

/-- The sessions with the times of the records. -/
def sessions (sort : SliceSort ν) (input : List (ZonedRecord ν)) (gap : ℤ) :
    List (List (ZonedRecord ν)) :=
  (sort.sort input).splitBy fun a b => !farApart gap a.atTime.instant b.atTime.instant

theorem sessionLoop_eq {gap : ℤ} (hgap : 0 ≤ gap) (hmax : gap < maxDuration)
    (closed : List (List (ZonedRecord ν))) (current : List (ZonedRecord ν)) (last : ZonedRecord ν)
    (rest : List (ZonedRecord ν)) :
    sessionLoop gap (closed.reverse.map (List.map ZonedRecord.record))
        ((last :: current).reverse.map ZonedRecord.record) last.atTime rest =
      (List.splitBy.loop (fun a b => !farApart gap a.atTime.instant b.atTime.instant) rest last
        current closed).map (List.map ZonedRecord.record) := by
  induction rest generalizing closed current last with
  | nil => simp [sessionLoop, List.splitBy.loop]
  | cons tr rest ih =>
      rw [sessionLoop, List.splitBy.loop]
      simp only [ZonedTime.lt_sub_iff hgap hmax]
      by_cases hfar : gap < tr.atTime.instant - last.atTime.instant
      · have hbool : farApart gap last.atTime.instant tr.atTime.instant = true :=
          decide_eq_true hfar
        rw [if_pos hfar, hbool, Bool.not_true, ← ih]
        simp
      · have hbool : farApart gap last.atTime.instant tr.atTime.instant = false :=
          decide_eq_false hfar
        rw [if_neg hfar, hbool, Bool.not_false, ← ih]
        simp

/-- The loop returns the records of the runs. -/
theorem sessionWindows_eq (sort : SliceSort ν) (input : List (ZonedRecord ν)) {gap : ℤ}
    (hgap : 0 ≤ gap) (hmax : gap < maxDuration) :
    sessionWindows sort input gap =
      (sessions sort input gap).map (List.map ZonedRecord.record) := by
  rw [sessionWindows, sessions]
  cases sort.sort input with
  | nil => rfl
  | cons first rest => exact sessionLoop_eq hgap hmax [] [] first rest

theorem gapRuns_sessions (sort : SliceSort ν) (input : List (ZonedRecord ν)) (gap : ℤ) :
    GapRuns (fun tr => tr.atTime.instant) (farApart gap) (sessions sort input gap) :=
  gapRuns_splitBy (sort.sorted input)

theorem sessions_flatten_perm (sort : SliceSort ν) (input : List (ZonedRecord ν)) (gap : ℤ) :
    (sessions sort input gap).flatten.Perm input := by
  rw [sessions, List.flatten_splitBy]
  exact sort.perm input

/-- Permuted inputs, however they are sorted, have the same sessions up to the order in each. -/
theorem sessionWindows_perm (sort sort' : SliceSort ν) {input input' : List (ZonedRecord ν)}
    (hperm : input.Perm input') {gap : ℤ} (hgap : 0 ≤ gap) (hmax : gap < maxDuration) :
    List.Forall₂ List.Perm (sessionWindows sort input gap) (sessionWindows sort' input' gap) := by
  rw [sessionWindows_eq sort input hgap hmax, sessionWindows_eq sort' input' hgap hmax,
    List.forall₂_map_left_iff, List.forall₂_map_right_iff]
  have hfar : ∀ t u, farApart gap t u = true → t < u := by
    intro t u h
    have hlt := of_decide_eq_true h
    omega
  refine ((gapRuns_sessions sort input gap).forall₂_perm hfar (gapRuns_sessions sort' input' gap)
    ?_).imp fun s t hst => hst.map _
  exact (sessions_flatten_perm sort input gap).trans
    (hperm.trans (sessions_flatten_perm sort' input' gap).symm)

/-- What sessions are: the records are those of `sessions`, non-empty runs of the input sorted by
time with at most `gap` between neighbours and more than `gap` between runs. -/
structure IsSessions (input : List (ZonedRecord ν)) (gap : ℤ)
    (sessions : List (List (ZonedRecord ν))) : Prop where
  ne_nil : ∀ s ∈ sessions, s ≠ []
  perm : sessions.flatten.Perm input
  sorted : sessions.flatten.Pairwise fun a b => a.atTime.instant ≤ b.atTime.instant
  within : ∀ s ∈ sessions, s.IsChain fun a b => b.atTime.instant - a.atTime.instant ≤ gap
  apart : sessions.IsChain fun s t =>
    ∃ hs ht, gap < (t.head ht).atTime.instant - (s.getLast hs).atTime.instant

end StreamFlow.Processor
