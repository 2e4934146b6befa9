import StreamFlow.Foundation.Run

/-!
# Purged runs

Noninterference by two runs: some actions of a run are left out, and what is left is run again.
Which actions are left out may depend on the states of the first run. If a relation between the
states of the two runs is kept by an action that is left out, when only the first run takes it, and
by every other action, when both take it, it holds at the end.
-/

namespace Run

variable {σ α : Type*} {step : σ → α → Option σ} {s s' t : σ} {a : α} {l : List α}

/-- The actions of a run without those of an owner. -/
def purge (step : σ → α → Option σ) (own : σ → α → Prop) [∀ s a, Decidable (own s a)] :
    σ → List α → List α
  | _, [] => []
  | s, a :: l =>
      let rest := match step s a with
        | none => []
        | some s' => purge step own s' l
      if own s a then rest else a :: rest

theorem purge_cons {own : σ → α → Prop} [∀ s a, Decidable (own s a)] (hstep : step s a = some s') :
    purge step own s (a :: l) =
      if own s a then purge step own s' l else a :: purge step own s' l := by
  rw [purge, hstep]

/-- Actions that are left out whatever the state is. -/
theorem purge_eq_filter (p : α → Bool) (hrun : exec step s l = some s') :
    purge step (fun _ a => p a = true) s l = l.filter fun a => !p a := by
  induction l generalizing s with
  | nil => rfl
  | cons a l ih =>
      obtain ⟨s₁, hstep, hrest⟩ := exec_cons_eq_some_iff.mp hrun
      rw [purge_cons hstep, ih hrest]
      cases hp : p a <;> simp [hp]

theorem exec_purge (own : σ → α → Prop) [∀ s a, Decidable (own s a)] (R : σ → σ → Prop)
    {guard : σ → α → Prop}
    (hskip : ∀ s t a s', R s t → guard s a → own s a → step s a = some s' → R s' t)
    (hkeep : ∀ s t a s', R s t → guard s a → ¬ own s a → step s a = some s' →
      ∃ t', step t a = some t' ∧ R s' t')
    (hrun : exec step s l = some s') (hguard : Guarded step guard s l) (h : R s t) :
    ∃ t', exec step t (purge step own s l) = some t' ∧ R s' t' := by
  induction l generalizing s t with
  | nil =>
      obtain rfl := Option.some.inj hrun
      exact ⟨t, rfl, h⟩
  | cons a l ih =>
      obtain ⟨s₁, hstep, hrest⟩ := exec_cons_eq_some_iff.mp hrun
      obtain ⟨ha, hl⟩ := (guarded_cons_of_step hstep).mp hguard
      rw [purge_cons hstep]
      split
      · next hown => exact ih hrest hl (hskip s t a s₁ h ha hown hstep)
      · next hown =>
          obtain ⟨t₁, hstep', h₁⟩ := hkeep s t a s₁ h ha hown hstep
          obtain ⟨t', hrun', h'⟩ := ih hrest hl h₁
          exact ⟨t', exec_cons_eq_some_iff.mpr ⟨t₁, hstep', hrun'⟩, h'⟩

end Run
