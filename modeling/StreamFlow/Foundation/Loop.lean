import Mathlib.Order.WellFounded

/-!
# Loops that return

The body of a loop goes on with a new state or returns a value. `run body fuel s` makes at most
`fuel` rounds. `Returns f a` says that `f` gives the value `a` with enough fuel, so it is a
statement of total correctness; `returns_of_invariant` proves it from an invariant and a measure
that decreases in each round.
-/

namespace Loop

variable {σ α : Type*}

def run (body : σ → σ ⊕ α) : ℕ → σ → Option α
  | 0, _ => none
  | fuel + 1, s =>
      match body s with
      | .inl s' => run body fuel s'
      | .inr a => some a

/-- With enough fuel the value is `a`. -/
def Returns (f : ℕ → Option α) (a : α) : Prop := ∃ n, ∀ fuel, n ≤ fuel → f fuel = some a

variable {f : ℕ → Option α} {a b : α} {body : σ → σ ⊕ α} {s s' : σ}

theorem Returns.unique (ha : Returns f a) (hb : Returns f b) : a = b := by
  obtain ⟨n, hn⟩ := ha
  obtain ⟨m, hm⟩ := hb
  exact Option.some.inj
    ((hn (max n m) (le_max_left n m)).symm.trans (hm (max n m) (le_max_right n m)))

theorem Returns.map {β : Type*} (h : Returns f a) (g : α → β) :
    Returns (fun fuel => (f fuel).map g) (g a) := by
  obtain ⟨n, hn⟩ := h
  exact ⟨n, fun fuel hle => by simp [hn fuel hle]⟩

theorem returns_of_forall (h : ∀ fuel, f fuel = some a) : Returns f a := ⟨0, fun fuel _ => h fuel⟩

theorem returns_of_inr (h : body s = .inr a) : Returns (fun fuel => run body fuel s) a := by
  refine ⟨1, fun fuel hfuel => ?_⟩
  obtain ⟨fuel, rfl⟩ := Nat.exists_eq_add_of_le' hfuel
  change run body (fuel + 1) s = some a
  rw [run, h]

theorem Returns.of_inl (h : body s = .inl s') (hs' : Returns (fun fuel => run body fuel s') a) :
    Returns (fun fuel => run body fuel s) a := by
  obtain ⟨n, hn⟩ := hs'
  refine ⟨n + 1, fun fuel hfuel => ?_⟩
  obtain ⟨fuel, rfl⟩ := Nat.exists_eq_add_of_le' (Nat.le_of_add_left_le hfuel)
  change run body (fuel + 1) s = some a
  rw [run, h]
  exact hn fuel (Nat.le_of_add_le_add_right hfuel)

/-- More fuel changes nothing. -/
theorem returns_of_run {n : ℕ} (h : run body n s = some a) :
    Returns (fun fuel => run body fuel s) a := by
  induction n generalizing s with
  | zero => cases h
  | succ n ih =>
      rw [run] at h
      cases hbody : body s with
      | inl s' =>
          rw [hbody] at h
          exact (ih h).of_inl hbody
      | inr b =>
          rw [hbody] at h
          exact returns_of_inr (hbody.trans (congrArg Sum.inr (Option.some.inj h)))

/-- A loop returns `a` if each round returns `a`, or keeps the invariant and decreases the
measure. -/
theorem returns_of_invariant {β : Type*} [LT β] [WellFoundedLT β] (Inv : σ → Prop) (μ : σ → β)
    (hbody : ∀ s, Inv s → body s = .inr a ∨ ∃ s', body s = .inl s' ∧ Inv s' ∧ μ s' < μ s)
    (s : σ) (h : Inv s) : Returns (fun fuel => run body fuel s) a := by
  induction s using (InvImage.wf μ wellFounded_lt).induction with
  | h s ih =>
      rcases hbody s h with hreturn | ⟨s', hgo, hinv, hlt⟩
      · exact returns_of_inr hreturn
      · exact (ih s' hlt hinv).of_inl hgo

/-- A loop whose rounds all go on never returns. -/
theorem not_returns_of_invariant (Inv : σ → Prop)
    (hbody : ∀ s, Inv s → ∃ s', body s = .inl s' ∧ Inv s') (s : σ) (h : Inv s) :
    ¬ Returns (fun fuel => run body fuel s) a := by
  have hnone : ∀ fuel s, Inv s → run body fuel s = none := by
    intro fuel
    induction fuel with
    | zero => exact fun _ _ => rfl
    | succ fuel ih =>
        intro s hs
        obtain ⟨s', hgo, hs'⟩ := hbody s hs
        rw [run, hgo]
        exact ih s' hs'
  rintro ⟨n, hn⟩
  exact absurd ((hnone n s h).symm.trans (hn n le_rfl)) (Option.some_ne_none a).symm

end Loop
