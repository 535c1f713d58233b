import Mathlib.Order.MinMax
import Mathlib.Data.List.Basic

/-! # Merged intervals

Half-open intervals as pairs, and the pass over intervals in the order of their starts that joins
what overlaps or touches. The pass keeps the union and leaves a gap between neighbours, so that an
interval that lies in the union lies in one of the merged ones. An interval may be empty or the
wrong way round. -/

namespace Intervals

open List

variable {α : Type} [LinearOrder α] {rs out : List (α × α)} {r : α × α} {x s e : α}

/-- The point is in one of the intervals. -/
def Contains (rs : List (α × α)) (x : α) : Prop := ∃ r ∈ rs, r.1 ≤ x ∧ x < r.2

theorem contains_append : Contains (rs ++ rs') x ↔ Contains rs x ∨ Contains rs' x := by
  simp only [Contains, mem_append, or_and_right, exists_or]

theorem contains_singleton : Contains [r] x ↔ r.1 ≤ x ∧ x < r.2 := by
  simp [Contains]

theorem Contains.of_perm (h : rs.Perm rs') : Contains rs x ↔ Contains rs' x := by
  simp only [Contains, h.mem_iff]

/-- Make the last interval longer, or begin a new one. -/
def push (out : List (α × α)) (r : α × α) : List (α × α) :=
  match out.getLast? with
  | some last =>
    if r.1 ≤ last.2 then out.dropLast ++ [(last.1, max last.2 r.2)] else out ++ [r]
  | none => out ++ [r]

def merge (rs : List (α × α)) : List (α × α) := rs.foldl push []

/-- The intervals go up with a gap between any two. -/
def Apart (rs : List (α × α)) : Prop := rs.Pairwise fun r r' => r.2 < r'.1

theorem push_cases (out : List (α × α)) (r : α × α) :
    (∃ init last, out = init ++ [last] ∧ r.1 ≤ last.2 ∧
      push out r = init ++ [(last.1, max last.2 r.2)]) ∨
    ((∀ last, out.getLast? = some last → last.2 < r.1) ∧ push out r = out ++ [r]) := by
  rcases eq_nil_or_concat out with rfl | ⟨init, last, rfl⟩
  · exact .inr ⟨nofun, rfl⟩
  · rw [concat_eq_append, push, getLast?_concat, dropLast_concat]
    dsimp only
    split
    · rename_i hle
      exact .inl ⟨init, last, rfl, hle, rfl⟩
    · rename_i hlt
      refine .inr ⟨fun l hl => ?_, rfl⟩
      cases hl
      exact not_le.mp hlt

section
variable (hstart : ∀ q ∈ out, q.1 ≤ r.1)
include hstart

theorem contains_push : Contains (push out r) x ↔ Contains out x ∨ (r.1 ≤ x ∧ x < r.2) := by
  obtain ⟨init, last, rfl, hle, hpush⟩ | ⟨-, hpush⟩ := push_cases out r
  · have hlast : last.1 ≤ r.1 := hstart last (mem_append_right _ mem_cons_self)
    rw [hpush, contains_append, contains_append, contains_singleton, contains_singleton, or_assoc]
    refine or_congr_right ⟨fun ⟨hfrom, hto⟩ => ?_, ?_⟩
    · -- Above the end of the last interval the point is above the start of the new one.
      rcases lt_or_ge x last.2 with hlt | hge
      · exact .inl ⟨hfrom, hlt⟩
      · exact .inr ⟨hle.trans hge, (lt_max_iff.mp hto).resolve_left hge.not_gt⟩
    · rintro (⟨hfrom, hto⟩ | ⟨hfrom, hto⟩)
      · exact ⟨hfrom, hto.trans_le (le_max_left _ _)⟩
      · exact ⟨hlast.trans hfrom, hto.trans_le (le_max_right _ _)⟩
  · rw [hpush, contains_append, contains_singleton]

theorem Apart.push (h : Apart out) : Apart (push out r) := by
  obtain ⟨init, last, rfl, -, hpush⟩ | ⟨hlast, hpush⟩ := push_cases out r
  · rw [hpush]
    obtain ⟨hinit, -, hbefore⟩ := pairwise_append.mp h
    refine pairwise_append.mpr ⟨hinit, pairwise_singleton _ _, fun q hq q' hq' => ?_⟩
    rw [mem_singleton.mp hq']
    exact hbefore q hq last mem_cons_self
  · rw [hpush]
    refine pairwise_append.mpr ⟨h, pairwise_singleton _ _, fun q hq q' hq' => ?_⟩
    rw [mem_singleton.mp hq']
    rcases eq_nil_or_concat out with rfl | ⟨init, last, rfl⟩
    · cases hq
    · rw [concat_eq_append] at h hq hlast hstart
      have hend := hlast last (getLast?_concat ..)
      rcases mem_append.mp hq with hq | hq
      · have hbefore := (pairwise_append.mp h).2.2 q hq last mem_cons_self
        exact hbefore.trans_le (hstart last (mem_append_right _ mem_cons_self))
      · obtain rfl := mem_singleton.mp hq
        exact hend

theorem fst_le_of_mem_push (hq : q ∈ push out r) : q.1 ≤ r.1 := by
  obtain ⟨init, last, rfl, -, hpush⟩ | ⟨-, hpush⟩ := push_cases out r
  · rw [hpush] at hq
    rcases mem_append.mp hq with hq | hq
    · exact hstart q (mem_append_left _ hq)
    · obtain rfl := mem_singleton.mp hq
      exact hstart last (mem_append_right _ mem_cons_self)
  · rw [hpush] at hq
    exact forall_mem_append.mpr ⟨hstart, forall_mem_singleton.mpr le_rfl⟩ q hq

end

theorem foldl_push (hout : Apart out) (hsorted : rs.Pairwise fun r r' => r.1 ≤ r'.1)
    (hstart : ∀ q ∈ out, ∀ r ∈ rs, q.1 ≤ r.1) :
    Apart (rs.foldl push out) ∧
      ∀ x, Contains (rs.foldl push out) x ↔ Contains out x ∨ Contains rs x := by
  induction rs generalizing out with
  | nil => exact ⟨hout, fun x => by simp [Contains]⟩
  | cons r rs ih =>
    obtain ⟨hr, hrest⟩ := pairwise_cons.mp hsorted
    have hr' : ∀ q ∈ out, q.1 ≤ r.1 := fun q hq => hstart q hq r mem_cons_self
    obtain ⟨hapart, hcontains⟩ := ih (hout.push hr') hrest fun q hq r' hr'' =>
      (fst_le_of_mem_push hr' hq).trans (hr r' hr'')
    refine ⟨hapart, fun x => ?_⟩
    rw [foldl_cons, hcontains, contains_push hr', or_assoc, ← singleton_append,
      contains_append, contains_singleton]

/-- **Merging** intervals that are in the order of their starts. -/
theorem merge_spec (hsorted : rs.Pairwise fun r r' => r.1 ≤ r'.1) :
    Apart (merge rs) ∧ ∀ x, Contains (merge rs) x ↔ Contains rs x := by
  obtain ⟨hapart, hcontains⟩ := foldl_push .nil hsorted nofun
  refine ⟨hapart, fun x => (hcontains x).trans ?_⟩
  simp [Contains]

/-- With gaps between them, intervals contain another one only within one of them. -/
theorem Apart.covers_iff (h : Apart rs) (hse : s < e) :
    (∀ x, s ≤ x → x < e → Contains rs x) ↔ ∃ r ∈ rs, r.1 ≤ s ∧ e ≤ r.2 := by
  constructor
  · intro hall
    obtain ⟨r, hr, hfrom, hto⟩ := hall s le_rfl hse
    refine ⟨r, hr, hfrom, le_of_not_gt fun hlt => ?_⟩
    -- The end of the interval would have to be in another one.
    obtain ⟨r', hr', hfrom', hto'⟩ := hall r.2 hto.le hlt
    obtain ⟨before, behind, rfl⟩ := append_of_mem hr
    obtain ⟨-, hcons, hbefore⟩ := pairwise_append.mp h
    rcases mem_append.mp hr' with hr' | hr'
    · have hlow := hbefore r' hr' r mem_cons_self
      exact absurd ((hlow.trans_le hfrom).trans hto) hto'.not_gt
    · rcases mem_cons.mp hr' with rfl | hr'
      · exact lt_irrefl _ hto'
      · exact absurd hfrom' ((pairwise_cons.mp hcons).1 r' hr').not_ge
  · rintro ⟨r, hr, hfrom, hto⟩ x hx hxe
    exact ⟨r, hr, hfrom.trans hx, hxe.trans_le hto⟩

end Intervals
