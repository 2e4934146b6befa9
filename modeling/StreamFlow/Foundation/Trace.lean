import StreamFlow.Foundation.Run

/-!
# What the steps of a run give

`emitted step emit s l` lists what the actions of a run give one after the other, where `emit s a`
is what the action `a` gives in the state `s`. A state that holds values which some actions put in
at the end and others take out at the front is conserved: what it held and what went in is what came
out and what it holds.
-/

namespace Run

variable {σ α β : Type*}

/-- What the actions of a run give, in their order. -/
def emitted (step : σ → α → Option σ) (emit : σ → α → List β) : σ → List α → List β
  | _, [] => []
  | s, a :: l => emit s a ++
      match step s a with
      | none => []
      | some s' => emitted step emit s' l

variable {step : σ → α → Option σ} {s s' : σ} {a : α} {l : List α}

theorem emitted_cons_of_step (emit : σ → α → List β) (hstep : step s a = some s') :
    emitted step emit s (a :: l) = emit s a ++ emitted step emit s' l := by
  rw [emitted, hstep]

/-- A queue conserves its values over a run, if each step does. -/
theorem conserved (Inv : σ → Prop) (hinv : ∀ s a s', Inv s → step s a = some s' → Inv s')
    {held : σ → List β} {put took : σ → α → List β}
    (hstep : ∀ s a s', Inv s → step s a = some s' → held s ++ put s a = took s a ++ held s')
    (hrun : exec step s l = some s') (h : Inv s) :
    held s ++ emitted step put s l = emitted step took s l ++ held s' := by
  induction l generalizing s with
  | nil =>
      obtain rfl := Option.some.inj hrun
      simp [emitted]
  | cons a l ih =>
      obtain ⟨s₁, hfirst, hrest⟩ := exec_cons_eq_some_iff.mp hrun
      rw [emitted_cons_of_step put hfirst, emitted_cons_of_step took hfirst, ← List.append_assoc,
        hstep s a s₁ h hfirst, List.append_assoc, ih hrest (hinv s a s₁ h hfirst),
        List.append_assoc]

end Run
