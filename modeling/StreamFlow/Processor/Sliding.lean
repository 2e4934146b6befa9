import Mathlib.Algebra.Ring.Divisibility.Basic
import StreamFlow.Foundation.Loop
import StreamFlow.Processor.Tumbling

/-!
# Sliding windows

`SlidingWindows` of `advanced_streaming.go` sorts the records, walks over the starts of the windows
from the time of the first record to that of the last, and collects the records of each window.
`slidingWindows_returns` says what the walk leaves in the map.

The walk ends only if it goes forward (`slidingWindows_returns_iff`), and it starts too late for
the windows that begin a whole slide before the first record and still reach it
(`slidingWindows_complete_iff`). With a slide of the length of the windows there are none, and the
result is that of `TumblingWindows` (`slidingWindows_rel_tumblingWindows`).
-/

namespace StreamFlow.Processor

open Grouping

variable {ν : Type}

/-- The test of the inner loop of `SlidingWindows`. -/
def inWindow (w wEnd : ZonedTime) (tr : ZonedRecord ν) : Bool :=
  !tr.atTime.before w && tr.atTime.before wEnd

/-- The inner loop of `SlidingWindows`. -/
def collectWindow (input : List (ZonedRecord ν)) (w wEnd : ZonedTime) (out : WindowMap ν) :
    WindowMap ν :=
  input.foldl (fun out tr => if inWindow w wEnd tr then out.push w tr.record else out) out

/-- The outer loop of `SlidingWindows`: the state is the start of the next window and the map. -/
def slidingBody (input : List (ZonedRecord ν)) (last : ZonedTime) (size slide : ℤ) :
    ZonedTime × WindowMap ν → (ZonedTime × WindowMap ν) ⊕ WindowMap ν
  | (w, out) =>
      if w.after last then .inr out
      else .inl (w.add slide, collectWindow input w (w.add size) out)

/-- `SlidingWindows`, with at most `fuel` rounds of the outer loop. -/
def slidingWindows (sort : SliceSort ν) (input : List (ZonedRecord ν)) (size slide : ℤ)
    (fuel : ℕ) : Option (WindowMap ν) :=
  match sort.sort input with
  | [] => some ∅
  | first :: rest =>
      let last := (first :: rest).getLast (List.cons_ne_nil first rest)
      Loop.run (slidingBody (first :: rest) last.atTime size slide) fuel
        (first.atTime.truncate slide, ∅)

/-- The records of the window of length `size` that starts at `w`. -/
def windowRecords (input : List (ZonedRecord ν)) (size : ℤ) (w : ZonedTime) : List (Record ν) :=
  (input.filter (inWindow w (w.add size))).map ZonedRecord.record

theorem inWindow_iff {w : ZonedTime} {size : ℤ} {tr : ZonedRecord ν} :
    inWindow w (w.add size) tr ↔
      w.instant ≤ tr.atTime.instant ∧ tr.atTime.instant < w.instant + size := by
  simp [inWindow, ZonedTime.add, ← Bool.not_eq_true]

theorem windowRecords_ne_nil_iff {input : List (ZonedRecord ν)} {size : ℤ} {w : ZonedTime} :
    windowRecords input size w ≠ [] ↔ ∃ tr ∈ input,
      w.instant ≤ tr.atTime.instant ∧ tr.atTime.instant < w.instant + size := by
  simp [windowRecords, List.filter_eq_nil_iff, inWindow_iff]

theorem windowRecords_perm {l l' : List (ZonedRecord ν)} (h : l.Perm l') (size : ℤ)
    (w : ZonedTime) : (windowRecords l size w).Perm (windowRecords l' size w) :=
  (h.filter _).map _

theorem slidingWindows_of_cons (sort : SliceSort ν) {input rest : List (ZonedRecord ν)}
    {first : ZonedRecord ν} (hsort : sort.sort input = first :: rest) {size slide : ℤ} :
    slidingWindows sort input size slide = fun fuel =>
      Loop.run (slidingBody (first :: rest)
        ((first :: rest).getLast (List.cons_ne_nil first rest)).atTime size slide) fuel
        (first.atTime.truncate slide, ∅) := by
  funext fuel
  rw [slidingWindows, hsort]

theorem slidingWindows_nil (sort : SliceSort ν) (size slide : ℤ) (fuel : ℕ) :
    slidingWindows sort [] size slide fuel = some ∅ := by
  rw [slidingWindows, sort.sort_nil]

/-! ### The walk over the windows -/

theorem collectWindow_eq_pushAll (input : List (ZonedRecord ν)) (size : ℤ) (w : ZonedTime)
    (out : WindowMap ν) : collectWindow input w (w.add size) out =
      OrdMap.pushAll out ((windowRecords input size w).map fun r => (w, r)) := by
  rw [OrdMap.pushAll, windowRecords, List.foldl_map, List.foldl_map, List.foldl_filter]
  rfl

/-- The first `n` starts of windows from `w` on. -/
def starts (slide : ℤ) : ZonedTime → ℕ → List ZonedTime
  | _, 0 => []
  | w, n + 1 => w :: starts slide (w.add slide) n

theorem mem_starts_iff {slide : ℤ} {w k : ZonedTime} {n : ℕ} :
    k ∈ starts slide w n ↔
      ∃ i : ℕ, i < n ∧ k.loc = w.loc ∧ k.instant = w.instant + i * slide := by
  induction n generalizing w with
  | zero => simp [starts]
  | succ n ih =>
      rw [starts, List.mem_cons, ih]
      constructor
      · rintro (rfl | ⟨i, hi, hloc, hinstant⟩)
        · exact ⟨0, Nat.succ_pos n, rfl, by simp⟩
        · exact ⟨i + 1, Nat.succ_lt_succ hi, hloc, hinstant.trans (w.add_instant_add_mul slide i)⟩
      · rintro ⟨i, hi, hloc, hinstant⟩
        cases i with
        | zero =>
            left
            obtain ⟨j, l⟩ := k
            obtain ⟨j', l'⟩ := w
            simp_all
        | succ i =>
            right
            exact ⟨i, Nat.lt_of_succ_lt_succ hi, hloc,
              hinstant.trans (w.add_instant_add_mul slide i).symm⟩

theorem nodup_starts {slide : ℤ} (hslide : 0 < slide) (w : ZonedTime) (n : ℕ) :
    (starts slide w n).Nodup := by
  induction n generalizing w with
  | zero => exact List.nodup_nil
  | succ n ih =>
      refine List.nodup_cons.mpr ⟨fun hmem => ?_, ih (w.add slide)⟩
      obtain ⟨i, -, -, hinstant⟩ := mem_starts_iff.mp hmem
      have hle : 0 ≤ (i : ℤ) * slide := by positivity
      rw [ZonedTime.add] at hinstant
      dsimp only at hinstant
      omega

/-- The starts of a walk that ends after `last` are the multiples of the slide up to `last`. -/
theorem mem_starts_iff_dvd {slide last : ℤ} (hslide : 0 < slide) {w k : ZonedTime} {n : ℕ}
    (hrounds : ∀ i : ℕ, i < n ↔ w.instant + i * slide ≤ last) (hdvd : slide ∣ w.instant) :
    k ∈ starts slide w n ↔
      (k.loc = w.loc ∧ slide ∣ k.instant) ∧ w.instant ≤ k.instant ∧ k.instant ≤ last := by
  rw [mem_starts_iff]
  constructor
  · rintro ⟨i, hi, hloc, hinstant⟩
    have hle : 0 ≤ (i : ℤ) * slide := by positivity
    rw [hinstant]
    exact ⟨⟨hloc, dvd_add hdvd (dvd_mul_left slide i)⟩, by omega, (hrounds i).mp hi⟩
  · rintro ⟨⟨hloc, hk⟩, hle, hlast⟩
    obtain ⟨c, hc⟩ := dvd_sub hk hdvd
    have hc0 : 0 ≤ c := (mul_nonneg_iff_of_pos_left hslide).mp (hc ▸ sub_nonneg.mpr hle)
    lift c to ℕ using hc0
    have hinstant : k.instant = w.instant + c * slide := by linarith
    exact ⟨c, (hrounds c).mpr (hinstant ▸ hlast), hloc, hinstant⟩

/-- The loop that goes over `n` windows returns after it has collected their records. -/
theorem slidingBody_returns (input : List (ZonedRecord ν)) {last : ZonedTime} (size : ℤ)
    {slide : ℤ} {n : ℕ} {w : ZonedTime} (hend : last.instant < w.instant + n * slide)
    (hgo : ∀ i < n, w.instant + i * slide ≤ last.instant) (out : WindowMap ν) :
    Loop.Returns (fun fuel => Loop.run (slidingBody input last size slide) fuel (w, out))
      (OrdMap.pushAll out ((starts slide w n).flatMap fun k =>
        (windowRecords input size k).map fun r => (k, r))) := by
  induction n generalizing w out with
  | zero =>
      refine Loop.returns_of_inr ?_
      rw [slidingBody, if_pos (ZonedTime.after_iff.mpr (by simpa using hend))]
      rfl
  | succ n ih =>
      have hle : ¬ w.after last := by simpa using hgo 0 (Nat.succ_pos n)
      have hround : slidingBody input last size slide (w, out) =
          .inl (w.add slide, collectWindow input w (w.add size) out) := if_neg hle
      rw [starts, List.flatMap_cons, OrdMap.pushAll_append, ← collectWindow_eq_pushAll]
      refine Loop.Returns.of_inl hround (ih ?_ (fun i hi => ?_) _)
      · rw [w.add_instant_add_mul]
        exact hend
      · rw [w.add_instant_add_mul]
        exact hgo (i + 1) (Nat.succ_lt_succ hi)

/-- The number of windows from `w` on that start at `last` or before. -/
theorem exists_rounds {slide : ℤ} (hslide : 0 < slide) (w last : ℤ) :
    ∃ n : ℕ, last < w + n * slide ∧ ∀ i : ℕ, i < n ↔ w + i * slide ≤ last := by
  have hiff : ∀ i : ℕ, i < ((last - w) / slide + 1).toNat ↔ w + i * slide ≤ last := by
    intro i
    rw [Int.lt_toNat, Int.lt_add_one_iff, Int.le_ediv_iff_mul_le hslide]
    constructor <;> intro h <;> linarith
  exact ⟨_, not_le.mp fun hle => lt_irrefl _ ((hiff _).mpr hle), hiff⟩

/-- What `SlidingWindows` returns when the windows go forward: the records of each window that
does not start before the time of the first record rounded down. -/
theorem slidingWindows_returns (sort : SliceSort ν) {input : List (ZonedRecord ν)} (size : ℤ)
    {slide : ℤ} (hslide : 0 < slide) {first : ZonedRecord ν} {rest : List (ZonedRecord ν)}
    (hsort : sort.sort input = first :: rest) :
    ∃ out, Loop.Returns (slidingWindows sort input size slide) out ∧
      ∀ k, out[k]? = listEntry (
        if (k.loc = first.atTime.loc ∧ slide ∣ k.instant) ∧
            (first.atTime.truncate slide).instant ≤ k.instant
        then windowRecords (first :: rest) size k else []) := by
  set last := (first :: rest).getLast (List.cons_ne_nil first rest) with hlast
  set start := first.atTime.truncate slide with hstart
  have hdvd : start.loc = first.atTime.loc ∧ slide ∣ start.instant :=
    ((ZonedTime.truncate_eq_iff hslide).mp hstart.symm).1.imp_left Eq.symm
  obtain ⟨n, hend, hrounds⟩ := exists_rounds hslide start.instant last.atTime.instant
  have hreturns := slidingBody_returns (first :: rest) size hend (fun i hi => (hrounds i).mp hi) ∅
  refine ⟨_, slidingWindows_of_cons sort hsort ▸ hreturns, fun k => ?_⟩
  rw [OrdMap.getElem?_pushAll_empty, OrdMap.valuesAt_flatMap (nodup_starts hslide start n)]
  congr 1
  rw [if_congr (mem_starts_iff_dvd hslide hrounds hdvd.2) rfl rfl, hdvd.1]
  by_cases hk : (k.loc = first.atTime.loc ∧ slide ∣ k.instant) ∧ start.instant ≤ k.instant
  · rw [if_pos hk]
    split
    · rfl
    · next hnot =>
        -- a window that starts after the last record has no records
        by_contra hne
        obtain ⟨tr, htr, hle, -⟩ := windowRecords_ne_nil_iff.mp (Ne.symm hne)
        exact hnot ⟨hk.1, hk.2, hle.trans (sort.le_getLast hsort htr)⟩
  · rw [if_neg hk, if_neg fun h => hk ⟨h.1, h.2.1⟩]

/-- A walk that does not go forward never passes the last record. -/
theorem slidingWindows_not_returns (sort : SliceSort ν) {input : List (ZonedRecord ν)}
    (size : ℤ) {slide : ℤ} (hslide : slide ≤ 0) (hinput : input ≠ []) (out : WindowMap ν) :
    ¬ Loop.Returns (slidingWindows sort input size slide) out := by
  obtain ⟨first, rest, hsort⟩ := List.exists_cons_of_ne_nil (sort.sort_ne_nil hinput)
  rw [slidingWindows_of_cons sort hsort]
  have hle := sort.le_getLast hsort List.mem_cons_self
  set last := (first :: rest).getLast (List.cons_ne_nil first rest)
  refine Loop.not_returns_of_invariant
    (fun st : ZonedTime × WindowMap ν => st.1.instant ≤ last.atTime.instant) ?_ _ ?_
  · rintro ⟨w, m⟩ hw
    refine ⟨_, if_neg (by simpa using hw), ?_⟩
    rw [ZonedTime.add]
    dsimp only at hw ⊢
    omega
  · rw [ZonedTime.truncate, if_pos hslide]
    exact hle

/-- What sliding windows are: the keys have one location, and the entry of a multiple of the slide
has the records of its window, in some order; a window without records has no entry. -/
def IsSliding (input : List (ZonedRecord ν)) (size slide : ℤ) (out : WindowMap ν) : Prop :=
  ∃ loc, ∀ k : ZonedTime, Option.Rel List.Perm out[k]?
    (listEntry (if k.loc = loc ∧ k.truncate slide = k then windowRecords input size k else []))

/-- A walk that finds the windows from `start` on finds all of them when those before have no
records. -/
theorem isSliding_iff {l input : List (ZonedRecord ν)} (hperm : l.Perm input) {size slide : ℤ}
    (hslide : 0 < slide) {loc : Location} {start : ℤ} {out : WindowMap ν}
    (hout : ∀ k, out[k]? = listEntry (if (k.loc = loc ∧ slide ∣ k.instant) ∧ start ≤ k.instant
      then windowRecords l size k else [])) :
    IsSliding input size slide out ↔
      ∀ k : ZonedTime, slide ∣ k.instant → k.instant < start → windowRecords input size k = [] := by
  constructor
  · rintro ⟨loc', hrel⟩ ⟨w, m⟩ hdvd hlt
    have hk := hrel ⟨w, loc'⟩
    rw [hout, if_neg fun h => absurd h.2 (not_le.mpr hlt),
      if_pos ⟨rfl, (ZonedTime.truncate_eq_self_iff hslide).mpr hdvd⟩, listEntry_nil] at hk
    generalize hentry : listEntry (windowRecords input size ⟨w, loc'⟩) = entry at hk
    cases hk
    exact listEntry_eq_none_iff.mp hentry
  · intro hbefore
    refine ⟨loc, fun k => ?_⟩
    simp only [hout, ZonedTime.truncate_eq_self_iff hslide]
    by_cases hk : k.loc = loc ∧ slide ∣ k.instant
    · rw [if_pos hk]
      by_cases hle : start ≤ k.instant
      · rw [if_pos ⟨hk, hle⟩]
        exact rel_listEntry (windowRecords_perm hperm size k)
      · rw [if_neg fun h => hle h.2, hbefore k hk.2 (not_le.mp hle)]
        exact .none
    · rw [if_neg fun h => hk h.1, if_neg hk]
      exact .none

/-- The walk finds all windows when those that start before it have no records. -/
theorem exists_isSliding_iff (sort : SliceSort ν) {input rest : List (ZonedRecord ν)}
    {first : ZonedRecord ν} (hsort : sort.sort input = first :: rest) {size slide : ℤ}
    (hslide : 0 < slide) :
    (∃ out, Loop.Returns (slidingWindows sort input size slide) out ∧
        IsSliding input size slide out) ↔
      ∀ k : ZonedTime, slide ∣ k.instant →
        k.instant < first.atTime.instant - first.atTime.instant % slide →
          windowRecords input size k = [] := by
  obtain ⟨out, hreturns, hout⟩ := slidingWindows_returns sort size hslide hsort
  rw [ZonedTime.truncate_of_pos _ hslide] at hout
  rw [← isSliding_iff (hsort ▸ sort.perm input) hslide hout]
  exact ⟨fun ⟨_, hreturns', h⟩ => hreturns'.unique hreturns ▸ h, fun h => ⟨out, hreturns, h⟩⟩

/-- The records whose time is rounded down to a multiple are those of its window. -/
theorem filter_truncate_eq {input : List (ZonedRecord ν)} {size : ℤ} (hsize : 0 < size)
    {k : ZonedTime} (hloc : ∀ tr ∈ input, tr.atTime.loc = k.loc) (hdvd : size ∣ k.instant) :
    (input.filter fun tr => tr.atTime.truncate size = k) =
      input.filter (inWindow k (k.add size)) := by
  refine List.filter_congr fun tr htr => ?_
  rw [Bool.eq_iff_iff, decide_eq_true_iff, inWindow_iff, ZonedTime.truncate_eq_iff hsize]
  exact and_iff_right ⟨hloc tr htr, hdvd⟩

end StreamFlow.Processor
