import Mathlib.Order.Nat

/-! # Binary search

A search in a list by a comparison that is not an order on the elements: it says of an element
whether what is looked for lies behind it, before it or in it. -/

namespace S3Stream

namespace BinarySearch

variable {α : Type}

/-- The search in the window `lo ≤ i < hi`; `fuel` bounds its rounds. -/
def search (mid : Nat → Nat → Nat) (cmp : α → Ordering) (xs : List α) :
    Nat → Nat → Nat → Except Nat Nat
  | 0, lo, _ => .error lo
  | fuel + 1, lo, hi =>
    if lo < hi then
      match xs[mid lo hi]? with
      | none => .error lo
      | some x =>
        match cmp x with
        | .lt => search mid cmp xs fuel (mid lo hi + 1) hi
        | .gt => search mid cmp xs fuel lo (mid lo hi)
        | .eq => .ok (mid lo hi)
    else .error lo

/-- Along the list the comparison goes from less to greater. -/
def Rises (cmp : α → Ordering) (xs : List α) : Prop :=
  xs.Pairwise fun x y => (cmp x = .gt → cmp y = .gt) ∧ (cmp y = .lt → cmp x = .lt)

def Inside (mid : Nat → Nat → Nat) : Prop := ∀ lo hi, lo < hi → lo ≤ mid lo hi ∧ mid lo hi < hi

/-- What a search may answer. -/
inductive Answers (cmp : α → Ordering) (xs : List α) : Except Nat Nat → Prop
  | found {i : Nat} {x : α} (hget : xs[i]? = some x) (heq : cmp x = .eq) : Answers cmp xs (.ok i)
  | absent {i : Nat} (hnone : ∀ x ∈ xs, cmp x ≠ .eq) : Answers cmp xs (.error i)

variable {mid : Nat → Nat → Nat} {cmp : α → Ordering} {xs : List α} {i j : Nat} {x y : α}

theorem Rises.of_lt (h : Rises cmp xs) (hi : xs[i]? = some x) (hj : xs[j]? = some y) (hij : i < j) :
    (cmp x = .gt → cmp y = .gt) ∧ (cmp y = .lt → cmp x = .lt) := by
  obtain ⟨hilt, rfl⟩ := List.getElem?_eq_some_iff.mp hi
  obtain ⟨hjlt, rfl⟩ := List.getElem?_eq_some_iff.mp hj
  exact List.pairwise_iff_getElem.mp h i j hilt hjlt hij

theorem answers_error {lo : Nat} (hle : hi ≤ lo)
    (hwindow : ∀ i x, xs[i]? = some x → cmp x = .eq → lo ≤ i ∧ i < hi) (n : Nat) :
    Answers cmp xs (.error n) := by
  refine .absent fun x hx heq => ?_
  obtain ⟨i, hi⟩ := List.mem_iff_getElem?.mp hx
  obtain ⟨hlo, hlt⟩ := hwindow i x hi heq
  omega

/-- **The search is right** as long as every match lies in its window. -/
theorem search_answers (hmid : Inside mid) (hrises : Rises cmp xs) {fuel : Nat}
    (hlen : hi ≤ xs.length) (hfuel : hi - lo ≤ fuel)
    (hwindow : ∀ i x, xs[i]? = some x → cmp x = .eq → lo ≤ i ∧ i < hi) :
    Answers cmp xs (search mid cmp xs fuel lo hi) := by
  induction fuel generalizing lo hi with
  | zero => exact answers_error (by omega) hwindow lo
  | succ fuel ih =>
    rw [search]
    split
    next hlt =>
      obtain ⟨hle, hmlt⟩ := hmid lo hi hlt
      have hget := List.getElem?_eq_getElem (hmlt.trans_le hlen)
      rw [hget]
      dsimp only
      -- A match on the far side of the midpoint would contradict the order.
      split
      next hcmp =>
        have hright : ∀ i x, xs[i]? = some x → cmp x = .eq → mid lo hi + 1 ≤ i ∧ i < hi := by
          intro i x hi heq
          refine ⟨Nat.lt_of_not_le fun hge => ?_, (hwindow i x hi heq).2⟩
          rcases Nat.lt_or_eq_of_le hge with hlt | rfl
          · rw [(hrises.of_lt hi hget hlt).2 hcmp] at heq
            cases heq
          · cases hget.symm.trans hi
            rw [hcmp] at heq
            cases heq
        exact ih hlen (by omega) hright
      next hcmp =>
        have hleft : ∀ i x, xs[i]? = some x → cmp x = .eq → lo ≤ i ∧ i < mid lo hi := by
          intro i x hi heq
          refine ⟨(hwindow i x hi heq).1, Nat.lt_of_not_le fun hge => ?_⟩
          rcases Nat.lt_or_eq_of_le hge with hlt | rfl
          · rw [(hrises.of_lt hget hi hlt).1 hcmp] at heq
            cases heq
          · cases hget.symm.trans hi
            rw [hcmp] at heq
            cases heq
        exact ih (by omega) (by omega) hleft
      next hcmp => exact .found hget hcmp
    next hge => exact answers_error (by omega) hwindow lo

theorem search_all (hmid : Inside mid) (hrises : Rises cmp xs) :
    Answers cmp xs (search mid cmp xs xs.length 0 xs.length) :=
  search_answers hmid hrises le_rfl (Nat.sub_le ..) fun _ _ hi _ =>
    ⟨Nat.zero_le _, (List.getElem?_eq_some_iff.mp hi).1⟩

end BinarySearch

end S3Stream
