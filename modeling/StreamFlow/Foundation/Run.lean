import Mathlib.Data.List.Basic

/-!
# Runs of a step function

A system is a partial step function: `step s a` is the state after the action
`a`, or `none` when the action is not possible in `s`. `exec step s l` performs
the actions of a list in turn. `Guarded step guard s l` says that every action of
the run meets a condition on the state in which it is taken. The rules carry an
invariant, or what a step is equivalent to, from one step to a whole run.
-/

namespace Run

variable {σ α : Type*}

/-- The state after the actions of a list. -/
def exec (step : σ → α → Option σ) (s : σ) (l : List α) : Option σ := l.foldlM step s

/-- Each action meets the guard in the state in which it is taken. -/
def Guarded (step : σ → α → Option σ) (guard : σ → α → Prop) : σ → List α → Prop
  | _, [] => True
  | s, a :: l => guard s a ∧
      match step s a with
      | none => True
      | some s' => Guarded step guard s' l

instance (step : σ → α → Option σ) (guard : σ → α → Prop) [∀ s a, Decidable (guard s a)] :
    ∀ (s : σ) (l : List α), Decidable (Guarded step guard s l)
  | _, [] => inferInstanceAs (Decidable True)
  | s, a :: l =>
      match hstep : step s a with
      | none => decidable_of_iff (guard s a) (by simp [Guarded, hstep])
      | some s' =>
          have := instDecidableGuarded step guard s' l
          decidable_of_iff (guard s a ∧ Guarded step guard s' l) (by simp [Guarded, hstep])

variable {step : σ → α → Option σ} {guard : σ → α → Prop} {s s' : σ} {a : α} {l : List α}

theorem exec_cons_eq_some_iff :
    exec step s (a :: l) = some s' ↔ ∃ s₁, step s a = some s₁ ∧ exec step s₁ l = some s' :=
  Option.bind_eq_some_iff

theorem exec_append_eq_some_iff {l' : List α} :
    exec step s (l ++ l') = some s' ↔
      ∃ s₁, exec step s l = some s₁ ∧ exec step s₁ l' = some s' := by
  rw [exec, List.foldlM_append]
  exact Option.bind_eq_some_iff

/-- Evaluate a concrete result. -/
theorem exists_of_any {o : Option σ} {P : σ → Prop} [DecidablePred P]
    (h : o.any (fun s => decide (P s)) = true) : ∃ s, o = some s ∧ P s := by
  obtain ⟨s, hs, hP⟩ := (Option.any_eq_true _ _).mp h
  exact ⟨s, hs, of_decide_eq_true hP⟩

/-- Evaluate a concrete run. -/
theorem exists_exec_of_any {P : σ → Prop} [DecidablePred P]
    (h : (exec step s l).any (fun s' => decide (P s')) = true) :
    ∃ s', exec step s l = some s' ∧ P s' :=
  exists_of_any h

theorem guarded_cons_of_step (hstep : step s a = some s') :
    Guarded step guard s (a :: l) ↔ guard s a ∧ Guarded step guard s' l := by
  rw [Guarded, hstep]

/-- A condition on the actions alone. -/
theorem guarded_of_forall_mem (h : ∀ a ∈ l, ∀ s, guard s a) : Guarded step guard s l := by
  induction l generalizing s with
  | nil => trivial
  | cons a l ih =>
      rw [Guarded]
      refine ⟨h a List.mem_cons_self s, ?_⟩
      split
      · trivial
      · exact ih fun a' ha' => h a' (List.mem_cons_of_mem a ha')

theorem guarded_of_forall (h : ∀ s a, guard s a) : Guarded step guard s l :=
  guarded_of_forall_mem fun a _ s => h s a

theorem Guarded.mono {guard' : σ → α → Prop} (h : Guarded step guard s l)
    (himp : ∀ s a, guard s a → guard' s a) : Guarded step guard' s l := by
  induction l generalizing s with
  | nil => trivial
  | cons a l ih =>
      obtain ⟨ha, hl⟩ := h
      refine ⟨himp s a ha, ?_⟩
      cases hstep : step s a with
      | none => trivial
      | some s₁ =>
          rw [hstep] at hl
          exact ih hl

theorem guarded_and {guard' : σ → α → Prop} (h : Guarded step guard s l)
    (h' : Guarded step guard' s l) : Guarded step (fun s a => guard s a ∧ guard' s a) s l := by
  induction l generalizing s with
  | nil => trivial
  | cons a l ih =>
      obtain ⟨ha, hl⟩ := h
      obtain ⟨ha', hl'⟩ := h'
      refine ⟨⟨ha, ha'⟩, ?_⟩
      cases hstep : step s a with
      | none => trivial
      | some s₁ =>
          rw [hstep] at hl hl'
          exact ih hl hl'

theorem guarded_of_append {l' : List α} (h : Guarded step guard s (l ++ l')) :
    Guarded step guard s l := by
  induction l generalizing s with
  | nil => trivial
  | cons a l ih =>
      obtain ⟨ha, hl⟩ := h
      refine ⟨ha, ?_⟩
      cases hstep : step s a with
      | none => trivial
      | some s₁ =>
          rw [hstep] at hl
          exact ih hl

theorem guard_of_append_cons {l' : List α} (h : Guarded step guard s (l ++ a :: l'))
    (hrun : exec step s l = some s') : guard s' a := by
  induction l generalizing s with
  | nil =>
      obtain rfl := Option.some.inj hrun
      exact h.1
  | cons b l ih =>
      obtain ⟨s₁, hstep, hrest⟩ := exec_cons_eq_some_iff.mp hrun
      exact ih ((guarded_cons_of_step hstep).mp h).2 hrest

/-- A run is guarded if each of its steps is. -/
theorem guarded_of_forall_append_cons
    (h : ∀ l₁ a l₂ s₁, l = l₁ ++ a :: l₂ → exec step s l₁ = some s₁ → guard s₁ a) :
    Guarded step guard s l := by
  induction l generalizing s with
  | nil => trivial
  | cons a l ih =>
      refine ⟨h [] a l s rfl rfl, ?_⟩
      cases hstep : step s a with
      | none => trivial
      | some s₁ =>
          refine ih fun l₁ b l₂ s₂ hl hrun => h (a :: l₁) b l₂ s₂ (by rw [hl]; rfl) ?_
          exact exec_cons_eq_some_iff.mpr ⟨s₁, hstep, hrun⟩

section Map

variable {τ : Type*} {step' : τ → α → Option τ} {f : σ → τ}

/-- A map that takes steps to steps takes runs to runs. -/
theorem exec_map (h : ∀ s a, step' (f s) a = (step s a).map f) :
    exec step' (f s) l = (exec step s l).map f := by
  induction l generalizing s with
  | nil => rfl
  | cons a l ih =>
      rw [exec, List.foldlM_cons, h, exec, List.foldlM_cons]
      cases step s a with
      | none => rfl
      | some s₁ => exact ih

theorem guarded_map (h : ∀ s a, step' (f s) a = (step s a).map f) {guard' : τ → α → Prop}
    (hguard : ∀ s a, guard' (f s) a ↔ guard s a) :
    Guarded step' guard' (f s) l ↔ Guarded step guard s l := by
  induction l generalizing s with
  | nil => exact Iff.rfl
  | cons a l ih =>
      rw [Guarded, Guarded, hguard, h]
      cases step s a with
      | none => exact Iff.rfl
      | some s₁ => exact and_congr_right fun _ => ih

end Map

/-- What every guarded step keeps, a guarded run keeps. -/
theorem invariant_of_guarded (Inv : σ → Prop)
    (hinv : ∀ s a s', Inv s → guard s a → step s a = some s' → Inv s')
    (hrun : exec step s l = some s') (hguard : Guarded step guard s l) (h : Inv s) : Inv s' := by
  induction l generalizing s with
  | nil =>
      obtain rfl := Option.some.inj hrun
      exact h
  | cons a l ih =>
      obtain ⟨s₁, hstep, hrest⟩ := exec_cons_eq_some_iff.mp hrun
      obtain ⟨ha, hl⟩ := (guarded_cons_of_step hstep).mp hguard
      exact ih hrest hl (hinv s a s₁ h ha hstep)

/-- A property that holds all along a run guards its steps, when a step to a state
with the property needs the guard. -/
theorem guarded_of_forall_prefix (Inv : σ → Prop) {P : σ → Prop} {guard' : σ → α → Prop}
    (hinv : ∀ s a s', Inv s → guard s a → step s a = some s' → Inv s')
    (hP : ∀ s a s', Inv s → guard s a → step s a = some s' → P s' → guard' s a)
    (hrun : exec step s l = some s') (hguard : Guarded step guard s l) (h : Inv s)
    (hall : ∀ l₁ s₁, l₁ <+: l → exec step s l₁ = some s₁ → P s₁) :
    Guarded step guard' s l := by
  induction l generalizing s with
  | nil => trivial
  | cons a l ih =>
      obtain ⟨s₁, hstep, hrest⟩ := exec_cons_eq_some_iff.mp hrun
      obtain ⟨ha, hl⟩ := (guarded_cons_of_step hstep).mp hguard
      rw [guarded_cons_of_step hstep]
      have hfirst : exec step s [a] = some s₁ := exec_cons_eq_some_iff.mpr ⟨s₁, hstep, rfl⟩
      refine ⟨hP s a s₁ h ha hstep (hall [a] s₁ (by simp) hfirst), ?_⟩
      refine ih hrest hl (hinv s a s₁ h ha hstep) fun l₁ s₂ hl₁ hrun₁ => ?_
      exact hall (a :: l₁) s₂ ((List.prefix_cons_inj a).mpr hl₁)
        (exec_cons_eq_some_iff.mpr ⟨s₁, hstep, hrun₁⟩)

/-- If a step that breaks a condition leads from good states to bad ones for ever, a run
from a good state ends in a good one exactly if no step breaks the condition. -/
theorem good_or_bad (Good Bad : σ → Prop) {guard' : σ → α → Prop}
    (hkeep : ∀ s a s', Good s → guard s a → guard' s a → step s a = some s' → Good s')
    (hbreak : ∀ s a s', Good s → guard s a → ¬ guard' s a → step s a = some s' → Bad s')
    (hbad : ∀ s a s', Bad s → guard s a → step s a = some s' → Bad s')
    (hrun : exec step s l = some s') (hguard : Guarded step guard s l) (h : Good s) :
    Guarded step guard' s l ∧ Good s' ∨ ¬ Guarded step guard' s l ∧ Bad s' := by
  induction l generalizing s with
  | nil =>
      obtain rfl := Option.some.inj hrun
      exact .inl ⟨trivial, h⟩
  | cons a l ih =>
      obtain ⟨s₁, hstep, hrest⟩ := exec_cons_eq_some_iff.mp hrun
      obtain ⟨ha, hl⟩ := (guarded_cons_of_step hstep).mp hguard
      rw [guarded_cons_of_step hstep]
      by_cases hstay : guard' s a
      · rcases ih hrest hl (hkeep s a s₁ h ha hstay hstep) with ⟨hgood, hs'⟩ | ⟨hnot, hs'⟩
        · exact .inl ⟨⟨hstay, hgood⟩, hs'⟩
        · exact .inr ⟨fun hboth => hnot hboth.2, hs'⟩
      · refine .inr ⟨fun hboth => hstay hboth.1, ?_⟩
        exact invariant_of_guarded Bad hbad hrest hl (hbreak s a s₁ h ha hstay hstep)

/-- If a step ends in a good state exactly when it starts in one and meets a condition, the
same holds of a run. -/
theorem iff_guarded (Inv Good : σ → Prop) (hinv : ∀ s a s', Inv s → step s a = some s' → Inv s')
    (hgood : ∀ s a s', Inv s → step s a = some s' → (Good s' ↔ Good s ∧ guard s a))
    (hrun : exec step s l = some s') (h : Inv s) : Good s' ↔ Good s ∧ Guarded step guard s l := by
  induction l generalizing s with
  | nil =>
      obtain rfl := Option.some.inj hrun
      exact (and_iff_left trivial).symm
  | cons a l ih =>
      obtain ⟨s₁, hstep, hrest⟩ := exec_cons_eq_some_iff.mp hrun
      rw [guarded_cons_of_step hstep, ih hrest (hinv s a s₁ h hstep), hgood s a s₁ h hstep,
        and_assoc]

/-- If a step from a good state ends in a good one exactly when it meets a condition, all states
of a run are good exactly when all its steps meet the condition. -/
theorem forall_prefix_iff_guarded (Good : σ → Prop)
    (hgood : ∀ s a s', Good s → step s a = some s' → (Good s' ↔ guard s a))
    (hrun : exec step s l = some s') (h : Good s) :
    (∀ l₁ s₁, l₁ <+: l → exec step s l₁ = some s₁ → Good s₁) ↔ Guarded step guard s l := by
  induction l generalizing s with
  | nil =>
      refine iff_of_true (fun l₁ s₁ hl₁ hrun₁ => ?_) trivial
      obtain rfl := List.prefix_nil.mp hl₁
      obtain rfl := Option.some.inj hrun₁
      exact h
  | cons a l ih =>
      obtain ⟨s₁, hstep, hrest⟩ := exec_cons_eq_some_iff.mp hrun
      have hlonger : ∀ l₁ s₂, exec step s₁ l₁ = some s₂ → exec step s (a :: l₁) = some s₂ :=
        fun l₁ s₂ hrun₁ => exec_cons_eq_some_iff.mpr ⟨s₁, hstep, hrun₁⟩
      rw [guarded_cons_of_step hstep, ← hgood s a s₁ h hstep]
      constructor
      · intro hall
        have hs₁ : Good s₁ := hall [a] s₁ (by simp) (hlonger [] s₁ rfl)
        refine ⟨hs₁, (ih hrest hs₁).mp fun l₁ s₂ hl₁ hrun₁ => ?_⟩
        exact hall (a :: l₁) s₂ ((List.prefix_cons_inj a).mpr hl₁) (hlonger l₁ s₂ hrun₁)
      · rintro ⟨hs₁, hl⟩ l₁ s₂ hl₁ hrun₁
        cases l₁ with
        | nil =>
            obtain rfl := Option.some.inj hrun₁
            exact h
        | cons b l₁ =>
            obtain ⟨rfl, hrest₁⟩ := List.cons_prefix_cons.mp hl₁
            obtain ⟨s₁', hstep', hrun₁⟩ := exec_cons_eq_some_iff.mp hrun₁
            obtain rfl := Option.some.inj (hstep.symm.trans hstep')
            exact (ih hrest hs₁).mpr hl l₁ s₂ hrest₁ hrun₁

/-- What every step keeps, a run keeps. -/
theorem invariant (Inv : σ → Prop) (hinv : ∀ s a s', Inv s → step s a = some s' → Inv s')
    (hrun : exec step s l = some s') (h : Inv s) : Inv s' :=
  invariant_of_guarded Inv (fun s a s' hs _ => hinv s a s' hs) hrun
    (guarded_of_forall fun _ _ => trivial) h

end Run
