import Mathlib.Data.List.Chain
import StreamFlow.Foundation.Overlap
import StreamFlow.Foundation.Run

/-!
# Complex event patterns

`CEPStateMachine` of `advanced_streaming.go` looks for a sequence of events in a
stream. It remembers how many events of the pattern it has just read, and starts again
after a match. `cep_sound` says that what it reports is there, for every pattern and
stream. When an event does not continue the pattern, the machine goes back to its first
event, so it misses an occurrence that has begun in between; `complete_iff` says for
which patterns this cannot happen.
-/

namespace StreamFlow.Processor

open Run Overlap

structure CEPStateMachine where
  pattern : List String
  idx : ℕ
deriving DecidableEq, Repr

def newCEPStateMachine (pattern : List String) : CEPStateMachine := ⟨pattern, 0⟩

namespace CEPStateMachine

/-- `Next`; `none` is the panic of an index out of range. -/
def next (c : CEPStateMachine) (event : String) : Option (CEPStateMachine × Bool) :=
  if c.pattern.length = 0 then some (c, false)
  else
    match c.pattern[c.idx]? with
    | none => none
    | some expected =>
        if expected = event then
          if c.idx + 1 = c.pattern.length then some ({ c with idx := 0 }, true)
          else some ({ c with idx := c.idx + 1 }, false)
        else
          match c.pattern[0]? with
          | none => none
          | some first =>
              if first = event then some ({ c with idx := 1 }, false)
              else some ({ c with idx := 0 }, false)

theorem next_of_pattern_nil {c : CEPStateMachine} (h : c.pattern = []) (event : String) :
    c.next event = some (c, false) := by
  rw [next, h, List.length_nil, if_pos rfl]

/-- What `Next` does while its position is within the pattern. -/
theorem next_eq {c : CEPStateMachine} (h : c.idx < c.pattern.length) (event : String) :
    c.next event = some
      (if c.pattern[c.idx]? = some event then
        if c.idx + 1 = c.pattern.length then ({ c with idx := 0 }, true)
        else ({ c with idx := c.idx + 1 }, false)
      else ({ c with idx := if c.pattern[0]? = some event then 1 else 0 }, false)) := by
  have hlen : c.pattern.length ≠ 0 := by omega
  have h0 : 0 < c.pattern.length := by omega
  rw [next, if_neg hlen, List.getElem?_eq_getElem h, List.getElem?_eq_getElem h0]
  simp only [Option.some.injEq]
  split
  · split <;> rfl
  · split <;> rfl

end CEPStateMachine

/-- A machine and its stream: the events up to the last match it has reported, those read
since, and the number of events read at each report. -/
structure Scan where
  machine : CEPStateMachine
  earlier : List String
  since : List String
  ends : List ℕ
deriving DecidableEq, Repr

namespace Scan

/-- A new machine at the begin of a stream. -/
def start (pattern : List String) : Scan := ⟨newCEPStateMachine pattern, [], [], []⟩

def events (s : Scan) : List String := s.earlier ++ s.since

/-- The next event of the stream. -/
def step (s : Scan) (event : String) : Option Scan :=
  match s.machine.next event with
  | none => none
  | some (machine, true) =>
      some ⟨machine, s.events ++ [event], [], s.ends ++ [s.events.length + 1]⟩
  | some (machine, false) => some ⟨machine, s.earlier, s.since ++ [event], s.ends⟩

/-- The position is within the pattern and tells how much of it has just been read. Each
report is made at the end of the pattern, and reported matches do not overlap. -/
structure Sound (pattern : List String) (s : Scan) : Prop where
  pattern_eq : s.machine.pattern = pattern
  idx_lt : pattern ≠ [] → s.machine.idx < pattern.length
  held : ∃ t, t <:+ s.since ∧ t <+: pattern ∧ s.machine.idx = t.length
  matched : ∀ m ∈ s.ends, m ≤ s.events.length ∧ pattern <:+ s.events.take m
  apart : (0 :: s.ends).IsChain fun m m' => m + pattern.length ≤ m'
  earlier_length : (0 :: s.ends).getLast? = some s.earlier.length

variable {pattern : List String} {s s' : Scan} {event : String}

theorem sound_start (pattern : List String) : (start pattern).Sound pattern where
  pattern_eq := rfl
  idx_lt h := List.length_pos_iff.mpr h
  held := ⟨[], List.nil_suffix, List.nil_prefix, rfl⟩
  matched _ hm := absurd hm List.not_mem_nil
  apart := List.isChain_singleton _
  earlier_length := rfl

/-- The event completes the pattern. -/
theorem step_of_match (hidx : s.machine.pattern[s.machine.idx]? = some event)
    (hend : s.machine.idx + 1 = s.machine.pattern.length) :
    s.step event = some ⟨{ s.machine with idx := 0 }, s.events ++ [event], [],
      s.ends ++ [s.events.length + 1]⟩ := by
  rw [step, CEPStateMachine.next_eq (by omega), if_pos hidx, if_pos hend]

/-- The event continues the pattern. -/
theorem step_of_advance (hidx : s.machine.pattern[s.machine.idx]? = some event)
    (hlt : s.machine.idx + 1 < s.machine.pattern.length) :
    s.step event = some ⟨{ s.machine with idx := s.machine.idx + 1 }, s.earlier,
      s.since ++ [event], s.ends⟩ := by
  rw [step, CEPStateMachine.next_eq (by omega), if_pos hidx, if_neg (by omega)]

/-- The event is not the one that the pattern goes on with. -/
theorem step_of_mismatch (hlt : s.machine.idx < s.machine.pattern.length)
    (hidx : s.machine.pattern[s.machine.idx]? ≠ some event) :
    s.step event = some
      ⟨{ s.machine with idx := if s.machine.pattern[0]? = some event then 1 else 0 }, s.earlier,
        s.since ++ [event], s.ends⟩ := by
  rw [step, CEPStateMachine.next_eq hlt, if_neg hidx]

/-- Without a report only the position has to be looked at. -/
theorem Sound.quiet (h : s.Sound pattern) (event : String) {machine : CEPStateMachine}
    (hpattern : machine.pattern = pattern) (hidx : pattern ≠ [] → machine.idx < pattern.length)
    (hheld : ∃ t, t <:+ s.since ++ [event] ∧ t <+: pattern ∧ machine.idx = t.length) :
    Sound pattern ⟨machine, s.earlier, s.since ++ [event], s.ends⟩ where
  pattern_eq := hpattern
  idx_lt := hidx
  held := hheld
  matched m hm := by
    obtain ⟨hle, hsuffix⟩ := h.matched m hm
    have hevents : Scan.events ⟨machine, s.earlier, s.since ++ [event], s.ends⟩ =
        s.events ++ [event] := (List.append_assoc _ _ _).symm
    rw [hevents, List.length_append, List.take_append_of_le_length hle]
    exact ⟨by omega, hsuffix⟩
  apart := h.apart
  earlier_length := h.earlier_length

/-- A report at the end of the pattern. -/
theorem Sound.report (h : s.Sound pattern) {machine : CEPStateMachine}
    (hpattern : machine.pattern = pattern) (hidx : machine.idx = 0) (hne : pattern ≠ [])
    (hsuffix : pattern <:+ s.since ++ [event]) :
    Sound pattern ⟨machine, s.events ++ [event], [], s.ends ++ [s.events.length + 1]⟩ where
  pattern_eq := hpattern
  idx_lt _ := hidx ▸ List.length_pos_iff.mpr hne
  held := ⟨[], List.nil_suffix, List.nil_prefix, hidx⟩
  matched m hm := by
    rw [events, List.append_nil, List.length_append, List.length_singleton]
    rcases List.mem_append.mp hm with hm | hm
    · obtain ⟨hle, hmatched⟩ := h.matched m hm
      rw [List.take_append_of_le_length hle]
      exact ⟨by omega, hmatched⟩
    · obtain rfl := List.mem_singleton.mp hm
      refine ⟨Nat.le_refl _, ?_⟩
      rw [List.take_of_length_le (by simp), events, List.append_assoc]
      exact List.suffix_append_of_suffix hsuffix
  apart := by
    have hlen := hsuffix.length_le
    rw [List.length_append, List.length_singleton] at hlen
    rw [← List.cons_append, List.isChain_append]
    refine ⟨h.apart, List.isChain_singleton _, fun m hm m' hm' => ?_⟩
    rw [h.earlier_length, Option.mem_some] at hm
    rw [List.head?_cons, Option.mem_some] at hm'
    rw [← hm, ← hm', events, List.length_append]
    omega
  earlier_length := by
    rw [← List.cons_append, List.getLast?_concat, List.length_append, List.length_singleton]

theorem Sound.step (h : s.Sound pattern) (event : String) :
    ∃ s', s.step event = some s' ∧ s'.Sound pattern ∧ s'.events = s.events ++ [event] := by
  obtain ⟨t, hsuffix, hpre, hidx⟩ := h.held
  have hassoc : s.earlier ++ (s.since ++ [event]) = s.events ++ [event] :=
    (List.append_assoc _ _ _).symm
  by_cases hne : pattern = []
  · subst hne
    refine ⟨⟨s.machine, s.earlier, s.since ++ [event], s.ends⟩, ?_, ?_, hassoc⟩
    · rw [Scan.step, CEPStateMachine.next_of_pattern_nil h.pattern_eq]
    · obtain rfl := List.prefix_nil.mp hpre
      exact h.quiet event h.pattern_eq h.idx_lt ⟨[], List.nil_suffix, List.nil_prefix, hidx⟩
  · have hlt := h.idx_lt hne
    obtain rfl := h.pattern_eq
    obtain rfl : t = s.machine.pattern.take s.machine.idx := by
      rw [hidx]
      exact List.prefix_iff_eq_take.mp hpre
    by_cases hevent : s.machine.pattern[s.machine.idx]? = some event
    · have hread := (take_suffix_concat_iff hlt).mpr ⟨hevent, hsuffix⟩
      by_cases hend : s.machine.idx + 1 = s.machine.pattern.length
      · rw [hend, List.take_length] at hread
        exact ⟨_, step_of_match hevent hend, h.report rfl rfl hne hread, List.append_nil _⟩
      · have hnext : s.machine.idx + 1 < s.machine.pattern.length := by omega
        refine ⟨_, step_of_advance hevent hnext, ?_, hassoc⟩
        refine h.quiet event rfl (fun _ => hnext) ⟨_, hread, List.take_prefix _ _, ?_⟩
        rw [List.length_take, Nat.min_eq_left (by omega)]
    · refine ⟨_, step_of_mismatch hlt hevent, ?_, hassoc⟩
      by_cases hfirst : s.machine.pattern[0]? = some event
      · rw [if_pos hfirst]
        have hone : 1 < s.machine.pattern.length := by
          by_contra hone
          have hzero : s.machine.idx = 0 := by omega
          rw [hzero] at hevent
          exact hevent hfirst
        have hread : s.machine.pattern.take (0 + 1) <:+ s.since ++ [event] :=
          (take_suffix_concat_iff (by omega)).mpr ⟨hfirst, by simp⟩
        refine h.quiet event rfl (fun _ => hone) ⟨_, hread, List.take_prefix _ _, ?_⟩
        rw [List.length_take, Nat.min_eq_left (by omega)]
      · rw [if_neg hfirst]
        have hpos : 0 < s.machine.pattern.length := by omega
        exact h.quiet event rfl (fun _ => hpos) ⟨[], List.nil_suffix, List.nil_prefix, rfl⟩

theorem Sound.exec (h : s.Sound pattern) (stream : List String) :
    ∃ s', exec Scan.step s stream = some s' ∧ s'.Sound pattern ∧
      s'.events = s.events ++ stream := by
  induction stream generalizing s with
  | nil => exact ⟨s, rfl, h, (List.append_nil _).symm⟩
  | cons event stream ih =>
      obtain ⟨s₁, hstep, hsound, hevents⟩ := h.step event
      obtain ⟨s₂, hrun, hsound₂, hevents₂⟩ := ih hsound
      refine ⟨s₂, exec_cons_eq_some_iff.mpr ⟨s₁, hstep, hrun⟩, hsound₂, ?_⟩
      rw [hevents₂, hevents, List.append_assoc]
      rfl

end Scan

/-- For every pattern and every stream the machine reads the whole stream, and what it
remembers and has reported is right. -/
theorem cep_sound (pattern stream : List String) :
    ∃ s, exec Scan.step (.start pattern) stream = some s ∧ s.events = stream ∧
      s.Sound pattern := by
  obtain ⟨s, hrun, hsound, hevents⟩ := (Scan.sound_start pattern).exec stream
  exact ⟨s, hrun, hevents, hsound⟩

/-- Whenever the last events are the pattern and have all been read since the last report,
`Next` reports a match on the last of them. -/
def Complete (pattern : List String) : Prop :=
  ∀ stream event, ∃ s, exec Scan.step (.start pattern) stream = some s ∧
    (pattern ≠ [] → pattern <:+ s.since ++ [event] →
      ∃ machine, s.machine.next event = some (machine, true))

namespace Scan

variable {pattern : List String} {s s' : Scan} {event : String}

/-- In a self-extending pattern the position is always the longest prefix that has just been
read. -/
theorem longest_step (hp : SelfExtending s.machine.pattern)
    (h : Longest s.machine.pattern s.since s.machine.idx) (hstep : s.step event = some s') :
    s'.machine.pattern = s.machine.pattern ∧
      Longest s'.machine.pattern s'.since s'.machine.idx := by
  have hlt := h.lt_length
  have hne : s.machine.pattern ≠ [] := List.length_pos_iff.mp (by omega)
  by_cases hevent : s.machine.pattern[s.machine.idx]? = some event
  · by_cases hend : s.machine.idx + 1 = s.machine.pattern.length
    · rw [step_of_match hevent hend] at hstep
      obtain rfl := Option.some.inj hstep
      exact ⟨rfl, longest_nil hne⟩
    · rw [step_of_advance hevent (by omega)] at hstep
      obtain rfl := Option.some.inj hstep
      exact ⟨rfl, h.concat_of_eq hevent (by omega)⟩
  · rw [step_of_mismatch hlt hevent] at hstep
    obtain rfl := Option.some.inj hstep
    exact ⟨rfl, h.concat_of_ne hp hevent⟩

/-- The machine follows its pattern. -/
theorem exec_take {k : ℕ} (hk : k < pattern.length) :
    exec Scan.step (.start pattern) (pattern.take k) =
      some ⟨⟨pattern, k⟩, [], pattern.take k, []⟩ := by
  induction k with
  | zero => rfl
  | succ k ih =>
      have hlast : pattern[k]? = some (pattern[k]) := List.getElem?_eq_getElem (by omega)
      rw [List.take_add_one, hlast, exec_append_eq_some_iff]
      refine ⟨_, ih (by omega), exec_cons_eq_some_iff.mpr ⟨_, step_of_advance hlast hk, rfl⟩⟩

/-- Without enough events there is no report, as an event moves the position up by at most
one. -/
theorem exec_short {stream : List String}
    (h : s.machine.idx + stream.length < s.machine.pattern.length) :
    ∃ s', exec Scan.step s stream = some s' ∧ s'.machine.pattern = s.machine.pattern ∧
      s'.since = s.since ++ stream ∧ s'.machine.idx ≤ s.machine.idx + stream.length := by
  induction stream generalizing s with
  | nil => exact ⟨s, rfl, rfl, (List.append_nil _).symm, Nat.le_refl _⟩
  | cons event stream ih =>
      rw [List.length_cons] at h
      obtain ⟨s₁, hstep, hpattern, hsince, hidx⟩ : ∃ s₁, s.step event = some s₁ ∧
          s₁.machine.pattern = s.machine.pattern ∧ s₁.since = s.since ++ [event] ∧
          s₁.machine.idx ≤ s.machine.idx + 1 := by
        by_cases hevent : s.machine.pattern[s.machine.idx]? = some event
        · exact ⟨_, step_of_advance hevent (by omega), rfl, rfl, Nat.le_refl _⟩
        · refine ⟨_, step_of_mismatch (by omega) hevent, rfl, rfl, ?_⟩
          dsimp only
          split <;> omega
      obtain ⟨s₂, hrun, hpattern₂, hsince₂, hidx₂⟩ := ih (s := s₁) (by rw [hpattern]; omega)
      refine ⟨s₂, exec_cons_eq_some_iff.mpr ⟨s₁, hstep, hrun⟩, hpattern₂.trans hpattern, ?_, ?_⟩
      · rw [hsince₂, hsince, List.append_assoc]
        rfl
      · rw [List.length_cons]
        omega

end Scan

theorem complete_of_selfExtending {pattern : List String} (hp : SelfExtending pattern) :
    Complete pattern := by
  intro stream event
  obtain ⟨s, hrun, -, -⟩ := (Scan.sound_start pattern).exec stream
  refine ⟨s, hrun, fun hne hsuffix => ?_⟩
  have hinv : s.machine.pattern = pattern ∧
      Longest s.machine.pattern s.since s.machine.idx := by
    refine invariant (fun s : Scan => s.machine.pattern = pattern ∧
      Longest s.machine.pattern s.since s.machine.idx) ?_ hrun ⟨rfl, longest_nil hne⟩
    rintro s event s' ⟨hpattern, hlongest⟩ hstep
    obtain ⟨hsame, hlongest'⟩ := Scan.longest_step (hpattern ▸ hp) hlongest hstep
    exact ⟨hsame.trans hpattern, hlongest'⟩
  obtain ⟨hpattern, hlongest⟩ := hinv
  rw [← hpattern] at hsuffix
  obtain ⟨hend, hevent⟩ := hlongest.eq_of_suffix_concat hsuffix
  exact ⟨_, by rw [CEPStateMachine.next_eq hlongest.lt_length, if_pos hevent, if_pos hend]⟩

/-- The stream that follows the pattern up to an overlap and leaves it there for the reading
that began later. -/
theorem not_complete_of_overlap {pattern : List String} {i j : ℕ} (hi : 0 < i) (hj : 0 < j)
    (hlt : i + j < pattern.length) (hsuffix : pattern.take j <:+ pattern.take (i + j))
    (hne : pattern[i + j]? ≠ pattern[j]?) : ¬ Complete pattern := by
  intro hcomplete
  obtain ⟨rest, last, hrest⟩ : ∃ rest last, pattern.drop (j + 1) = rest ++ [last] := by
    have hnil : pattern.drop (j + 1) ≠ [] := by
      rw [Ne, List.drop_eq_nil_iff]
      omega
    exact ⟨_, _, (List.dropLast_append_getLast hnil).symm⟩
  have hlen := congrArg List.length hrest
  rw [List.length_drop, List.length_append, List.length_singleton] at hlen
  have hevent : pattern[j]? = some (pattern[j]) := List.getElem?_eq_getElem (by omega)
  let s₁ : Scan := ⟨⟨pattern, i + j⟩, [], pattern.take (i + j), []⟩
  have hmiss := Scan.step_of_mismatch (s := s₁) hlt (hevent ▸ hne)
  let s₂ : Scan := ⟨⟨pattern, if pattern[0]? = some pattern[j] then 1 else 0⟩, [],
    pattern.take (i + j) ++ [pattern[j]], []⟩
  have hshort : s₂.machine.idx + rest.length < s₂.machine.pattern.length := by
    dsimp only [s₂]
    split <;> omega
  obtain ⟨s₃, hrun₃, hpattern, hsince, hidx⟩ := Scan.exec_short hshort
  have hrun : exec Scan.step (.start pattern) (pattern.take (i + j) ++ pattern[j] :: rest) =
      some s₃ :=
    exec_append_eq_some_iff.mpr ⟨s₁, Scan.exec_take hlt,
      exec_cons_eq_some_iff.mpr ⟨_, hmiss, hrun₃⟩⟩
  obtain ⟨s, hs, hreport⟩ := hcomplete (pattern.take (i + j) ++ pattern[j] :: rest) last
  obtain rfl : s₃ = s := Option.some.inj (hrun.symm.trans hs)
  have hidx' : s₃.machine.idx + 1 < s₃.machine.pattern.length := by
    rw [hpattern]
    dsimp only [s₂] at hidx ⊢
    split at hidx <;> omega
  -- the pattern stands at the end of the stream, but the position is too small
  obtain ⟨machine, hnext⟩ := hreport (List.length_pos_iff.mp (by omega)) (by
    obtain ⟨t, ht⟩ := hsuffix
    refine ⟨t, ?_⟩
    rw [hsince]
    dsimp only [s₂]
    rw [← ht, List.append_assoc, List.append_assoc, List.append_assoc, List.append_cancel_left_eq,
      ← hrest, List.singleton_append, List.getElem_cons_drop, List.take_append_drop])
  rw [CEPStateMachine.next_eq (by omega)] at hnext
  split at hnext
  · rw [if_neg (by omega)] at hnext
    cases hnext
  · cases hnext

/-- No occurrence is missed exactly if every suffix of the pattern that begins with its
first event is a prefix of it. -/
theorem complete_iff (pattern : List String) : Complete pattern ↔ SelfExtending pattern := by
  refine ⟨fun hcomplete => ?_, complete_of_selfExtending⟩
  by_contra hext
  obtain ⟨i, j, hi, hj, hlt, hsuffix, hne⟩ := exists_of_not_selfExtending hext
  exact not_complete_of_overlap hi hj hlt hsuffix hne hcomplete

/-- The pattern A, A, B in the stream A, A, A, B is missed. -/
theorem not_complete_repeated :
    (∃ s, exec Scan.step (.start ["A", "A", "B"]) ["A", "A", "A"] = some s ∧
      ["A", "A", "B"] <:+ s.since ++ ["B"] ∧
      s.machine.next "B" = some (⟨["A", "A", "B"], 0⟩, false)) ∧
      ¬ Complete ["A", "A", "B"] := by
  have hmiss : ∃ s, exec Scan.step (.start ["A", "A", "B"]) ["A", "A", "A"] = some s ∧
      ["A", "A", "B"] <:+ s.since ++ ["B"] ∧
      s.machine.next "B" = some (⟨["A", "A", "B"], 0⟩, false) := exists_exec_of_any (by decide)
  refine ⟨hmiss, fun hcomplete => ?_⟩
  obtain ⟨s, hrun, hsuffix, hquiet⟩ := hmiss
  obtain ⟨s', hrun', hreport⟩ := hcomplete ["A", "A", "A"] "B"
  obtain rfl : s = s' := Option.some.inj (hrun.symm.trans hrun')
  obtain ⟨machine, hnext⟩ := hreport (by decide) hsuffix
  rw [hquiet] at hnext
  cases hnext

end StreamFlow.Processor
