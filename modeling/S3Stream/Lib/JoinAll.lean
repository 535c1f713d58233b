import Mathlib.Tactic.Common

/-! # Joined tasks

Tasks that run side by side on a shared state and are joined: they end in some order, and the join
has their results in the order of the tasks. A task acts on the state in one piece, when it ends;
the join fails if one of them does. -/

namespace JoinAll

open List

variable {α β σ : Type}

/-- The task in the position `k` ends. -/
def finish (f : α → σ → Option (σ × β)) (xs : List α) (p : σ × List (Option β)) (k : Nat) :
    Option (σ × List (Option β)) :=
  xs[k]?.bind fun x => (f x p.1).map fun r => (r.1, p.2.set k (some r.2))

/-- The tasks `xs`, which end in the order `order`. -/
def joinAll (f : α → σ → Option (σ × β)) (xs : List α) (order : List Nat) (s : σ) :
    Option (σ × List β) :=
  (order.foldlM (finish f xs) (s, xs.map fun _ => none)).bind fun p =>
    (p.2.mapM id).map fun results => (p.1, results)

variable {f : α → σ → Option (σ × β)} {xs : List α} {order : List Nat} {s : σ}
  {R : α → β → Prop} {D : Nat → σ → Prop}

theorem mapM_id_map_some (xs : List β) : (xs.map some).mapM id = some xs := by
  induction xs with
  | nil => rfl
  | cons x xs ih =>
    rw [map_cons, mapM_cons, ih]
    rfl

theorem eq_map_some_of_mapM_id {rs : List (Option β)} (h : rs.mapM id = some results) :
    rs = results.map some := by
  induction rs generalizing results with
  | nil =>
    cases h
    rfl
  | cons r rs ih =>
    rw [mapM_cons, Option.bind_eq_bind, Option.bind_eq_some_iff] at h
    obtain ⟨x, hx, h⟩ := h
    rw [Option.bind_eq_bind, Option.bind_eq_some_iff] at h
    obtain ⟨xs, hxs, h⟩ := h
    cases h
    rw [map_cons, ← ih hxs]
    exact congrArg (· :: rs) hx

theorem foldlM_finish
    (hf : ∀ k x, xs[k]? = some x → ∀ s, ∃ s' r, f x s = some (s', r) ∧ R x r ∧ D k s' ∧
      ∀ j, j ≠ k → D j s → D j s') (horder : ∀ k ∈ order, k < xs.length)
    (hlength : p.2.length = xs.length) :
    ∃ q, order.foldlM (finish f xs) p = some q ∧ q.2.length = xs.length ∧
      ∀ k x, xs[k]? = some x →
        k ∈ order ∨ ((∃ r, p.2[k]? = some (some r) ∧ R x r) ∧ D k p.1) →
        (∃ r, q.2[k]? = some (some r) ∧ R x r) ∧ D k q.1 := by
  induction order generalizing p with
  | nil =>
    refine ⟨p, rfl, hlength, fun k x _ h => ?_⟩
    exact h.resolve_left not_mem_nil
  | cons i order ih =>
    obtain ⟨hi, hrest⟩ := forall_mem_cons.mp horder
    have hx := getElem?_eq_getElem hi
    obtain ⟨s', r, hrun, hresult, hdone, hkeep⟩ := hf i _ hx p.1
    have hstep : finish f xs p i = some (s', p.2.set i (some r)) := by
      rw [finish, hx, Option.bind_some, hrun]
      rfl
    obtain ⟨q, hfold, hlength', hall⟩ :=
      ih (p := (s', p.2.set i (some r))) hrest ((length_set ..).trans hlength)
    refine ⟨q, ?_, hlength', fun k x hk h => ?_⟩
    · rw [foldlM_cons, hstep]
      exact hfold
    · by_cases hmem : k ∈ order
      · exact hall k x hk (.inl hmem)
      refine hall k x hk (.inr ?_)
      by_cases hki : k = i
      · subst hki
        obtain rfl : xs[k] = x := Option.some.inj (hx.symm.trans hk)
        exact ⟨⟨r, getElem?_set_self (hlength ▸ hi), hresult⟩, hdone⟩
      · obtain ⟨⟨r', hr', hresult'⟩, hdone'⟩ :=
          h.resolve_left fun hin => (mem_cons.mp hin).elim hki hmem
        exact ⟨⟨r', (getElem?_set_ne (Ne.symm hki)).trans hr', hresult'⟩, hkeep k hki hdone'⟩

theorem exists_results (hlength : rs.length = xs.length)
    (h : ∀ (k : Nat) x, xs[k]? = some x → ∃ r, rs[k]? = some (some r) ∧ R x r) :
    ∃ results : List β, rs = results.map some ∧ List.Forall₂ R xs results := by
  induction xs generalizing rs with
  | nil => exact ⟨[], eq_nil_of_length_eq_zero hlength, .nil⟩
  | cons x xs ih =>
    obtain ⟨y, rs, rfl⟩ := exists_cons_of_length_eq_add_one hlength
    obtain ⟨r, hr, hresult⟩ := h 0 x rfl
    obtain ⟨results, hrs, hforall⟩ := ih (Nat.succ.inj hlength) fun k z hk => h (k + 1) z hk
    refine ⟨r :: results, ?_, .cons hresult hforall⟩
    rw [map_cons, hrs, Option.some.inj hr]

theorem exists_task (h : List.Forall₂ R xs results) (hr : r ∈ results) : ∃ x ∈ xs, R x r := by
  induction h with
  | nil => cases hr
  | cons hx _ ih =>
    rcases mem_cons.mp hr with rfl | hr
    · exact ⟨_, mem_cons_self, hx⟩
    · obtain ⟨x, hmem, hxr⟩ := ih hr
      exact ⟨x, mem_cons_of_mem _ hmem, hxr⟩

/-- Whatever the order in which the tasks end, the join has their results, and what each of them
does to the state stays if no other task undoes it. -/
theorem joinAll_eq_some (horder : order.Perm (range xs.length))
    (hf : ∀ k x, xs[k]? = some x → ∀ s, ∃ s' r, f x s = some (s', r) ∧ R x r ∧ D k s' ∧
      ∀ j, j ≠ k → D j s → D j s') :
    ∃ s' results, joinAll f xs order s = some (s', results) ∧ List.Forall₂ R xs results ∧
      ∀ k < xs.length, D k s' := by
  have hlt : ∀ k ∈ order, k < xs.length := fun k hk => mem_range.mp (horder.subset hk)
  have hmem : ∀ k < xs.length, k ∈ order := fun k hk =>
    horder.mem_iff.mpr (mem_range.mpr hk)
  obtain ⟨q, hfold, hlength, hall⟩ :=
    foldlM_finish (p := (s, xs.map fun _ => none)) hf hlt (length_map ..)
  have hends : ∀ k x, xs[k]? = some x →
      (∃ r, q.2[k]? = some (some r) ∧ R x r) ∧ D k q.1 := fun k x hk =>
    hall k x hk (.inl (hmem k (List.getElem?_eq_some_iff.mp hk).1))
  obtain ⟨results, hresults, hforall⟩ := exists_results hlength fun k x hk => (hends k x hk).1
  refine ⟨q.1, results, ?_, hforall, fun k hk => (hends k _ (getElem?_eq_getElem hk)).2⟩
  rw [joinAll, hfold, Option.bind_some, hresults, mapM_id_map_some]
  rfl

end JoinAll
