import Mathlib.Data.List.Basic

/-! # Greedy grouping

A pass that puts each element behind the open group, unless the group and the element say that a new
group begins. The groups are the list in order, none is empty, and a property of groups that holds
of single elements and is kept by an element that joins holds of every group. -/

namespace Greedy

open List

variable {α : Type} {breaks : List α → α → Bool} {xs : List α} {P : List α → Prop}

/-- The closed groups and the open one. -/
abbrev Groups (α : Type) := List (List α) × List α

def push (breaks : List α → α → Bool) (s : Groups α) (x : α) : Groups α :=
  if !s.2.isEmpty && breaks s.2 x then (s.1 ++ [s.2], [x]) else (s.1, s.2 ++ [x])

def finish (s : Groups α) : List (List α) := if s.2.isEmpty then s.1 else s.1 ++ [s.2]

def groups (breaks : List α → α → Bool) (xs : List α) : List (List α) :=
  finish (xs.foldl (push breaks) ([], []))

theorem mem_push (h : y ∈ (push breaks s x).2) : y ∈ s.2 ∨ y = x := by
  unfold push at h
  split at h
  · exact .inr (mem_singleton.mp h)
  · exact (mem_append.mp h).imp_right mem_singleton.mp

theorem flatten_push (s : Groups α) (x : α) :
    (push breaks s x).1.flatten ++ (push breaks s x).2 = s.1.flatten ++ s.2 ++ [x] := by
  unfold push
  split <;> simp

theorem flatten_foldl (s : Groups α) (xs : List α) :
    (xs.foldl (push breaks) s).1.flatten ++ (xs.foldl (push breaks) s).2 =
      s.1.flatten ++ s.2 ++ xs := by
  induction xs generalizing s with
  | nil => exact (append_nil _).symm
  | cons x xs ih =>
    rw [foldl_cons, ih, flatten_push, append_assoc]
    rfl

theorem flatten_finish (s : Groups α) : (finish s).flatten = s.1.flatten ++ s.2 := by
  unfold finish
  split
  · rename_i h
    rw [isEmpty_iff.mp h, append_nil]
  · simp

/-- **The groups are the list.** -/
theorem flatten_groups (breaks : List α → α → Bool) (xs : List α) :
    (groups breaks xs).flatten = xs := by
  rw [groups, flatten_finish, flatten_foldl]
  rfl

theorem groups_map (f : β → α) (ys : List β) : groups breaks (ys.map f) =
    (groups (fun g y => breaks (g.map f) (f y)) ys).map (map f) := by
  have hpush : ∀ (s : Groups β) (y : β),
      push breaks (s.1.map (map f), s.2.map f) (f y) =
        ((push (fun g y => breaks (g.map f) (f y)) s y).1.map (map f),
          (push (fun g y => breaks (g.map f) (f y)) s y).2.map f) := by
    intro s y
    unfold push
    rw [isEmpty_map]
    split <;> simp
  have hfold : ∀ (ys : List β) (s : Groups β),
      (ys.map f).foldl (push breaks) (s.1.map (map f), s.2.map f) =
        ((ys.foldl (push fun g y => breaks (g.map f) (f y)) s).1.map (map f),
          (ys.foldl (push fun g y => breaks (g.map f) (f y)) s).2.map f) := by
    intro ys
    induction ys with
    | nil => exact fun s => rfl
    | cons y ys ih =>
      intro s
      rw [map_cons, foldl_cons, hpush, ih, foldl_cons]
  have hall := hfold ys ([], [])
  rw [map_nil, map_nil] at hall
  rw [groups, groups, finish, finish, hall, isEmpty_map]
  split <;> simp

/-- What holds of the closed groups, and of the open one when there is one. -/
structure Each (P : List α → Prop) (s : Groups α) : Prop where
  closed : ∀ g ∈ s.1, g ≠ [] ∧ P g
  current : s.2 ≠ [] → P s.2

theorem Each.push (h : Each P s) (hone : P [x])
    (hmore : s.2 ≠ [] → P s.2 → breaks s.2 x = false → P (s.2 ++ [x])) :
    Each P (push breaks s x) := by
  unfold Greedy.push
  split
  · rename_i hbreaks
    simp only [Bool.and_eq_true, Bool.not_eq_true', isEmpty_eq_false_iff] at hbreaks
    exact ⟨forall_mem_append.mpr
      ⟨h.closed, forall_mem_singleton.mpr ⟨hbreaks.1, h.current hbreaks.1⟩⟩, fun _ => hone⟩
  · rename_i hjoins
    refine ⟨h.closed, fun _ => ?_⟩
    by_cases hnil : s.2 = []
    · rw [hnil]
      exact hone
    · apply hmore hnil (h.current hnil)
      simpa [hnil] using hjoins

theorem Each.finish (h : Each P s) : ∀ g ∈ finish s, g ≠ [] ∧ P g := by
  unfold Greedy.finish
  split
  · exact h.closed
  · rename_i hne
    rw [List.isEmpty_iff] at hne
    exact forall_mem_append.mpr ⟨h.closed, forall_mem_singleton.mpr ⟨hne, h.current hne⟩⟩

/-- **The rule for groups.** -/
theorem forall_groups (hone : ∀ x ∈ xs, P [x])
    (hmore : ∀ g, ∀ x ∈ xs, g ≠ [] → P g → breaks g x = false → P (g ++ [x])) :
    ∀ g ∈ groups breaks xs, g ≠ [] ∧ P g := by
  have hfold : ∀ (ys : List α) (s : Groups α), (∀ y ∈ ys, y ∈ xs) → Each P s →
      Each P (ys.foldl (Greedy.push breaks) s) := by
    intro ys
    induction ys with
    | nil => exact fun s _ h => h
    | cons y ys ih =>
      intro s hys h
      obtain ⟨hy, hys⟩ := forall_mem_cons.mp hys
      exact ih _ hys (h.push (hone y hy) (hmore _ y hy))
  exact (hfold xs ([], []) (fun _ hx => hx) ⟨nofun, fun hne => absurd rfl hne⟩).finish

end Greedy
