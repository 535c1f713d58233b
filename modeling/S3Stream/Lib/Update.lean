import Mathlib.Data.List.Basic

/-! # Lists that grow at the end and change in place

A list is used as a table: entries are added at the end, keep their index, and are changed with
`set` and `modify`. -/

namespace Table

open List

variable {α β : Type} {xs : List α} {x y : α} {m n : Nat}

theorem of_getElem?_concat (h : (xs ++ [x])[n]? = some y) :
    xs[n]? = some y ∨ n = xs.length ∧ y = x := by
  rcases Nat.lt_or_ge n xs.length with hn | hn
  · rw [getElem?_append_left hn] at h
    exact .inl h
  · have hlt := of_getElem?_eq_some h
    rw [length_append, length_singleton] at hlt
    rw [getElem?_append_right hn] at h
    exact .inr ⟨by omega, mem_singleton.mp (mem_of_getElem? h)⟩

theorem map_modify (g : α → β) (hg : ∀ x, g (f x) = g x) : (xs.modify n f).map g = xs.map g := by
  refine ext_getElem? fun i => ?_
  simp only [getElem?_map, getElem?_modify, Option.map_eq_map, Option.map_map]
  congr 1
  funext x
  split
  · exact hg x
  · rfl

theorem map_set (g : α → β) (hx : xs[n]? = some x) (hg : g y = g x) :
    (xs.set n y).map g = xs.map g := by
  refine ext_getElem? fun i => ?_
  rw [getElem?_map, getElem?_map, getElem?_set]
  split
  next h =>
    rw [← h, hx, if_pos (of_getElem?_eq_some hx), Option.map_some, Option.map_some, hg]
  next => rfl

theorem of_getElem?_modify (h : (xs.modify n f)[m]? = some y) :
    (m ≠ n ∧ xs[m]? = some y) ∨ m = n ∧ ∃ x, xs[n]? = some x ∧ y = f x := by
  rw [getElem?_modify] at h
  by_cases hnm : n = m
  · subst hnm
    obtain ⟨x, hx, rfl⟩ := Option.map_eq_some_iff.mp h
    exact .inr ⟨rfl, x, hx, by rw [if_pos rfl]⟩
  · obtain ⟨x, hx, rfl⟩ := Option.map_eq_some_iff.mp h
    rw [if_neg hnm]
    exact .inl ⟨Ne.symm hnm, hx⟩

theorem mem_modify (h : y ∈ xs.modify n f) : y ∈ xs ∨ ∃ x, xs[n]? = some x ∧ y = f x := by
  obtain ⟨m, hm⟩ := mem_iff_getElem?.mp h
  rcases of_getElem?_modify hm with ⟨-, hm⟩ | ⟨-, hx⟩
  · exact .inl (mem_of_getElem? hm)
  · exact .inr hx

theorem of_getElem?_set (h : (xs.set n x)[m]? = some y) :
    (m ≠ n ∧ xs[m]? = some y) ∨ m = n ∧ y = x := by
  rw [getElem?_set] at h
  split at h
  next hnm =>
    split at h <;> cases h
    exact .inr ⟨hnm.symm, rfl⟩
  next hnm => exact .inl ⟨Ne.symm hnm, h⟩

theorem exists_set {P : α → Prop} (hx : xs[n]? = some x) (hy : P x → P y) :
    (∃ (m : Nat) (z : α), xs[m]? = some z ∧ P z) →
      ∃ (m : Nat) (z : α), (xs.set n y)[m]? = some z ∧ P z := by
  rintro ⟨m, z, hz, hP⟩
  by_cases hnm : n = m
  · subst hnm
    cases hx.symm.trans hz
    exact ⟨n, y, getElem?_set_self (List.getElem_of_getElem? hx).1, hy hP⟩
  · exact ⟨m, z, (getElem?_set_ne hnm).trans hz, hP⟩

end Table
