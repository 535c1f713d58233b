import S3Stream.Lib.Windows

/-! # Scans along a chain

A scan of a list takes every element that starts where the last one taken ends, and leaves the
others. `resume` is about a second scan of the same list, which starts where some element taken by
the first one ends: it takes the rest of them, unless an element in front of that one starts there
too. -/

namespace ChainScan

open List

variable {α : Type} {lo hi : α → Nat} {e : Nat} {x k : α} {xs taken rest : List α}

/-- The elements taken from the position `e` on. -/
def scan (lo hi : α → Nat) : Nat → List α → List α
  | _, [] => []
  | e, x :: xs => if lo x = e then x :: scan lo hi (hi x) xs else scan lo hi e xs

/-- Where the elements that were taken from `e` on end. -/
def stop (hi : α → Nat) (e : Nat) (taken : List α) : Nat := (taken.getLast?.map hi).getD e

theorem scan_cons_of_eq (h : lo x = e) :
    scan lo hi e (x :: xs) = x :: scan lo hi (hi x) xs := by
  rw [scan, if_pos h]

theorem scan_cons_of_ne (h : lo x ≠ e) : scan lo hi e (x :: xs) = scan lo hi e xs := by
  rw [scan, if_neg h]

theorem scan_sublist (e : Nat) (xs : List α) : (scan lo hi e xs).Sublist xs := by
  induction xs generalizing e with
  | nil => exact .slnil
  | cons x xs ih =>
    rw [scan]
    split
    · exact (ih _).cons_cons x
    · exact (ih _).cons x

@[simp] theorem stop_nil : stop hi e [] = e := rfl

theorem stop_append (taken rest : List α) :
    stop hi e (taken ++ rest) = stop hi (stop hi e taken) rest := by
  rw [stop, getLast?_append, stop, stop]
  cases rest.getLast? <;> rfl

theorem stop_cons : stop hi e (x :: xs) = stop hi (hi x) xs := stop_append [x] xs

theorem eq_stop_of_joined (h : Windows.Joined lo hi e xs b) : b = stop hi e xs := by
  induction xs generalizing e with
  | nil => exact h.symm
  | cons x xs ih => rw [stop_cons, ih h.2]

/-- **The second scan goes on where the first one was cut**, if no element in front of the last one
taken starts where that one ends. -/
theorem resume (hne : ∀ x ∈ xs, lo x ≠ hi x) (hscan : scan lo hi e xs = taken ++ rest)
    (hlast : taken.getLast? = some k) (horder : xs.Pairwise fun y x => x = k → lo y ≠ hi k) :
    scan lo hi (hi k) xs = rest := by
  induction xs generalizing e taken with
  | nil =>
    obtain ⟨rfl, -⟩ := append_eq_nil_iff.mp hscan.symm
    cases hlast
  | cons x xs ih =>
    obtain ⟨hx, hxs⟩ := forall_mem_cons.mp hne
    obtain ⟨hfront, hpair⟩ := pairwise_cons.mp horder
    -- An element behind `x` that the first scan took last keeps `x` out of the second.
    have hskip : k ∈ scan lo hi e xs ∨ k ∈ scan lo hi (hi x) xs → lo x ≠ hi k := by
      rintro (hk | hk)
      · exact hfront k ((scan_sublist _ _).subset hk) rfl
      · exact hfront k ((scan_sublist _ _).subset hk) rfl
    have hmem : ∀ {zs : List α}, zs.getLast? = some k → k ∈ zs ++ rest :=
      fun hzs => mem_append_left _ (mem_of_getLast? hzs)
    by_cases hlo : lo x = e
    · rw [scan_cons_of_eq hlo] at hscan
      cases taken with
      | nil => cases hlast
      | cons y taken =>
        obtain ⟨hxy, htail⟩ := cons.inj hscan
        subst hxy
        cases taken with
        | nil =>
          obtain rfl : x = k := Option.some.inj hlast
          rw [scan_cons_of_ne hx]
          exact htail
        | cons =>
          rw [scan_cons_of_ne (hskip (.inr (htail ▸ hmem hlast)))]
          exact ih hxs htail hlast hpair
    · rw [scan_cons_of_ne hlo] at hscan
      rw [scan_cons_of_ne (hskip (.inl (hscan ▸ hmem hlast)))]
      exact ih hxs hscan hlast hpair

theorem joined_scan (e : Nat) (xs : List α) :
    Windows.Joined lo hi e (scan lo hi e xs) (stop hi e (scan lo hi e xs)) := by
  induction xs generalizing e with
  | nil => rfl
  | cons x xs ih =>
    by_cases hlo : lo x = e
    · rw [scan_cons_of_eq hlo]
      refine ⟨hlo, ?_⟩
      rw [stop_cons]
      exact ih (hi x)
    · rw [scan_cons_of_ne hlo]
      exact ih e

end ChainScan
