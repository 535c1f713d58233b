import Mathlib.Logic.Basic

/-! # Runs of an executable transition system

A system is a partial step function `σ → α → Option σ`: `none` means that the action is not
enabled. `run` replays a schedule of actions, so "for every interleaving" is a quantifier over
lists of actions and a concrete schedule can be evaluated. `Guarded` restricts a schedule to
the steps that meet a condition on the state before them. -/

namespace TransitionSystem

variable {σ α : Type} {step : σ → α → Option σ} {s s' : σ} {as bs : List α}

/-- Replay a schedule; `none` when some action is not enabled. -/
def run (step : σ → α → Option σ) : σ → List α → Option σ
  | s, [] => some s
  | s, a :: as => (step s a).bind fun s' => run step s' as

@[simp] theorem run_nil : run step s [] = some s := rfl

theorem run_cons :
    run step s (a :: as) = some s' ↔ ∃ m, step s a = some m ∧ run step m as = some s' := by
  simp [run, Option.bind_eq_some_iff]

theorem run_append :
    run step s (as ++ bs) = some s' ↔ ∃ m, run step s as = some m ∧ run step m bs = some s' := by
  induction as generalizing s with
  | nil => simp
  | cons a as ih =>
    simp only [List.cons_append, run_cons, ih]
    constructor
    · rintro ⟨m, ha, n, has, hbs⟩
      exact ⟨n, ⟨m, ha, has⟩, hbs⟩
    · rintro ⟨n, ⟨m, ha, has⟩, hbs⟩
      exact ⟨m, ha, n, has, hbs⟩

/-- What a statement says about the state behind a run can be evaluated. -/
instance decidableExistsSome {β : Type} (o : Option β) (p : β → Prop) [DecidablePred p] :
    Decidable (∃ x, o = some x ∧ p x) :=
  match o with
  | none => isFalse fun ⟨_, h, _⟩ => nomatch h
  | some x =>
    decidable_of_iff (p x) ⟨fun h => ⟨x, rfl, h⟩, fun ⟨_, h, hp⟩ => Option.some.inj h ▸ hp⟩

/-- What is evaluated of the state behind a run, and what is proved of it. -/
theorem exists_and {o : Option β} {p q : β → Prop} (h : ∃ x, o = some x ∧ p x)
    (hq : ∀ x, o = some x → p x → q x) : ∃ x, o = some x ∧ p x ∧ q x :=
  let ⟨x, hx, hp⟩ := h
  ⟨x, hx, hp, hq x hx hp⟩

/-- What the steps of a schedule put out, in its order. -/
def outputs {β : Type} (step : σ → α → Option σ) (out : σ → α → List β) : σ → List α → List β
  | _, [] => []
  | s, a :: as => out s a ++
    match step s a with
    | none => []
    | some s' => outputs step out s' as

theorem outputs_concat (h : run step s as = some s') :
    outputs step out s (as ++ [a]) = outputs step out s as ++ out s' a := by
  induction as generalizing s with
  | nil =>
    cases h
    simp only [List.nil_append, outputs]
    split <;> simp
  | cons b as ih =>
    obtain ⟨m, hb, has⟩ := run_cons.mp h
    simp only [List.cons_append, outputs, hb, ih has, List.append_assoc]

/-- **The invariant rule**: what every enabled step preserves holds after every run. -/
theorem run_invariant {I : σ → Prop}
    (hstep : ∀ {s a s'}, I s → step s a = some s' → I s') (hs : I s)
    (h : run step s as = some s') : I s' := by
  induction as generalizing s with
  | nil => cases h; exact hs
  | cons a as ih =>
    obtain ⟨m, ha, has⟩ := run_cons.mp h
    exact ih (hstep hs ha) has

/-- Every action of the schedule meets the condition `G` in the state it is taken in. -/
def Guarded (step : σ → α → Option σ) (G : σ → α → Prop) : σ → List α → Prop
  | _, [] => True
  | s, a :: as => G s a ∧ ∀ s', step s a = some s' → Guarded step G s' as

instance decidableGuarded {G : σ → α → Prop} [∀ s a, Decidable (G s a)] :
    ∀ (s : σ) (as : List α), Decidable (Guarded step G s as)
  | _, [] => isTrue trivial
  | s, a :: as =>
    match h : step s a with
    | none => decidable_of_iff (G s a)
        ⟨fun hg => ⟨hg, fun _ hs => by cases h.symm.trans hs⟩, And.left⟩
    | some m =>
      have : Decidable (Guarded step G m as) := decidableGuarded m as
      decidable_of_iff (G s a ∧ Guarded step G m as)
        ⟨fun hg => ⟨hg.1, fun _ hs => Option.some.inj (h.symm.trans hs) ▸ hg.2⟩,
          fun hg => ⟨hg.1, hg.2 m h⟩⟩

theorem guarded_of_forall {G : α → Prop} (h : ∀ a ∈ as, G a) :
    Guarded step (fun _ a => G a) s as := by
  induction as generalizing s with
  | nil => trivial
  | cons a as ih =>
    exact ⟨h a List.mem_cons_self, fun s' _ => ih fun b hb => h b (List.mem_cons_of_mem a hb)⟩

/-- **The invariant rule under a step condition**: what every step that meets `G` preserves
holds after every run whose steps all meet `G`. -/
theorem run_invariant_of_guarded {I : σ → Prop}
    (hstep : ∀ {s a s'}, I s → G s a → step s a = some s' → I s') (hs : I s)
    (hG : Guarded step G s as) (h : run step s as = some s') : I s' := by
  induction as generalizing s with
  | nil => cases h; exact hs
  | cons a as ih =>
    obtain ⟨m, ha, has⟩ := run_cons.mp h
    exact ih (hstep hs hG.1 ha) (hG.2 m ha) has

/-- The same rule for properties that also depend on the schedule so far. -/
theorem run_induction_of_guarded {P : List α → σ → Prop}
    (hstep : ∀ {pre a m m'}, run step s pre = some m → P pre m → G m a → step m a = some m' →
      P (pre ++ [a]) m') (hs : P [] s) (hG : Guarded step G s as) (h : run step s as = some s') :
    P as s' := by
  have hgo : ∀ (as pre : List α) (m : σ), run step s pre = some m → P pre m →
      Guarded step G m as → run step m as = some s' → P (pre ++ as) s' := by
    intro as
    induction as with
    | nil =>
      intro pre m hpre hP hG h
      cases h
      rwa [List.append_nil]
    | cons a as ih =>
      intro pre m hpre hP hG h
      obtain ⟨m', ha, has⟩ := run_cons.mp h
      have hpre' : run step s (pre ++ [a]) = some m' :=
        run_append.mpr ⟨m, hpre, run_cons.mpr ⟨m', ha, rfl⟩⟩
      have hall := ih (pre ++ [a]) m' hpre' (hstep hpre hP hG.1 ha) (hG.2 m' ha) has
      rwa [List.append_assoc] at hall
  exact hgo as [] s rfl hs hG h

end TransitionSystem
