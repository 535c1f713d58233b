import Mathlib.Logic.Basic

/-! # Loops with a result

A loop is a function on its variables that goes on with new ones or leaves with a result. It is run
with fuel, and the rule for it is that of total correctness: an invariant, and a measure that every
further round lowers, give a result with the postcondition from any fuel above the measure. Without
a measure the postcondition holds of a result that is there. -/

namespace Loop

variable {σ ρ : Type} {step : σ → σ ⊕ ρ}

/-- Run a loop; `none` when the fuel is used up. -/
def loop (step : σ → σ ⊕ ρ) : Nat → σ → Option ρ
  | 0, _ => none
  | fuel + 1, s =>
    match step s with
    | .inl s' => loop step fuel s'
    | .inr r => some r

theorem loop_spec {I : σ → Prop} {Q : ρ → Prop} (measure : σ → Nat)
    (hnext : ∀ s s', I s → step s = .inl s' → I s' ∧ measure s' < measure s)
    (hdone : ∀ s r, I s → step s = .inr r → Q r) (hs : I s) (hfuel : measure s < fuel) :
    ∃ r, loop step fuel s = some r ∧ Q r := by
  induction fuel generalizing s with
  | zero => exact absurd hfuel (Nat.not_lt_zero _)
  | succ fuel ih =>
    rw [loop]
    cases hstep : step s with
    | inl s' =>
      obtain ⟨hs', hlt⟩ := hnext s s' hs hstep
      exact ih hs' (Nat.lt_of_lt_of_le hlt (Nat.le_of_lt_succ hfuel))
    | inr r => exact ⟨r, rfl, hdone s r hs hstep⟩

theorem of_loop {I : σ → Prop} {Q : ρ → Prop} (hnext : ∀ s s', I s → step s = .inl s' → I s')
    (hdone : ∀ s r, I s → step s = .inr r → Q r) (hs : I s) (h : loop step fuel s = some r) :
    Q r := by
  induction fuel generalizing s with
  | zero => cases h
  | succ fuel ih =>
    rw [loop] at h
    cases hstep : step s with
    | inl s' =>
      rw [hstep] at h
      exact ih (hnext s s' hs hstep) h
    | inr r' =>
      rw [hstep] at h
      cases h
      exact hdone s r hs hstep

theorem loop_map {step' : σ' → σ' ⊕ ρ'} {f : σ → σ'} {g : ρ → ρ'}
    (hstep : ∀ s, step' (f s) = (step s).map f g) (fuel : Nat) (s : σ) :
    loop step' fuel (f s) = (loop step fuel s).map g := by
  induction fuel generalizing s with
  | zero => rfl
  | succ fuel ih =>
    rw [loop, loop, hstep]
    cases step s with
    | inl s' => exact ih s'
    | inr r => rfl

end Loop
