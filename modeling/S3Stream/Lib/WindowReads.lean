import S3Stream.Lib.Windows

/-! # Reads of consecutive windows under a budget

A read of `[a, e)` with a budget `m` over a tiling takes the windows from the one that covers `a`
on, up to the first one that reaches `e` or with which the weights reach `m`. `Served` says this of
the answer alone, `budgetRun` computes it, and two reads that meet at a boundary make one. -/

namespace Windows

open List

variable {α : Type} {lo hi weight : α → Nat} {a b c e m n s t : Nat} {x y : α}
  {xs ys zs all rs : List α}

def total (weight : α → Nat) (xs : List α) : Nat := (xs.map weight).sum

@[simp] theorem total_nil : total weight [] = 0 := rfl

@[simp] theorem total_cons : total weight (x :: xs) = weight x + total weight xs :=
  sum_cons

@[simp] theorem total_append : total weight (xs ++ ys) = total weight xs + total weight ys := by
  rw [total, total, total, map_append, sum_append]

/-! ## Splitting a tiling -/

namespace Tiles

theorem exists_split (h : Tiles lo hi s xs t) (hle : s ≤ a) (hlt : a < t) :
    ∃ ys x zs, xs = ys ++ x :: zs ∧ (∀ y ∈ ys, hi y ≤ a) ∧ lo x ≤ a ∧ a < hi x := by
  induction xs generalizing s with
  | nil => exact absurd (h ▸ hlt) (not_lt.mpr hle)
  | cons x xs ih =>
    obtain ⟨rfl, -, hrest⟩ := h
    by_cases hx : a < hi x
    · exact ⟨[], x, xs, rfl, nofun, hle, hx⟩
    · obtain ⟨ys, z, zs, rfl, hys, hz⟩ := ih hrest (not_lt.mp hx)
      refine ⟨x :: ys, z, zs, rfl, fun y hy => ?_, hz⟩
      rcases mem_cons.mp hy with rfl | hy
      · exact not_lt.mp hx
      · exact hys y hy

theorem split_unique (h : Tiles lo hi s xs c) (h' : Tiles lo hi s xs' c)
    (heq : xs ++ ys = xs' ++ ys') : xs = xs' ∧ ys = ys' := by
  induction xs generalizing s xs' with
  | nil =>
    cases xs' with
    | nil => exact ⟨rfl, heq⟩
    | cons =>
      have hle := h'.2.2.le
      have hpos := h'.2.1
      have hs := h'.1
      have hc : s = c := h
      omega
  | cons x xs ih =>
    cases xs' with
    | nil =>
      have hle := h.2.2.le
      have hpos := h.2.1
      have hs := h.1
      have hc : s = c := h'
      omega
    | cons =>
      obtain ⟨rfl, hrest⟩ := cons.inj heq
      obtain ⟨rfl, rfl⟩ := ih h.2.2 h'.2.2 hrest
      exact ⟨rfl, rfl⟩

theorem of_infix (h : Tiles lo hi s all t) (hrs : rs <:+: all) : ∃ a b, Tiles lo hi a rs b := by
  obtain ⟨ys, zs, rfl⟩ := hrs
  obtain ⟨b, h, -⟩ := append.mp h
  obtain ⟨a, -, h⟩ := append.mp h
  exact ⟨a, b, h⟩

end Tiles

/-! ## The run of a budget -/

/-- The elements up to the first one that ends at `e` or behind it, or uses up what is left of the
budget. -/
def budgetRun (hi weight : α → Nat) (e : Nat) : Nat → List α → List α
  | _, [] => []
  | m, x :: xs =>
    if e ≤ hi x ∨ m - min m (weight x) = 0 then [x]
    else x :: budgetRun hi weight e (m - min m (weight x)) xs

/-- The read reaches `e` or has used up the budget. -/
def Done (hi weight : α → Nat) (e m : Nat) (xs : List α) : Prop :=
  (∃ x, xs.getLast? = some x ∧ e ≤ hi x) ∨ m ≤ total weight xs

theorem not_done_nil (hm : 0 < m) : ¬Done hi weight e m [] := by
  rintro (⟨x, hx, -⟩ | hle)
  · cases hx
  · exact absurd hm (not_lt.mpr hle)

theorem done_singleton (h : e ≤ hi x ∨ m - min m (weight x) = 0) : Done hi weight e m [x] := by
  rcases h with h | h
  · exact .inl ⟨x, rfl, h⟩
  · refine .inr ?_
    rw [total_cons, total_nil]
    omega

theorem done_cons (h : ¬(e ≤ hi x ∨ m - min m (weight x) = 0)) :
    Done hi weight e m (x :: xs) ↔ Done hi weight e (m - min m (weight x)) xs := by
  rw [not_or] at h
  have hsum : m ≤ total weight (x :: xs) ↔ m - min m (weight x) ≤ total weight xs := by
    rw [total_cons]
    omega
  rw [Done, Done, hsum]
  cases xs with
  | nil =>
    refine or_congr ⟨?_, nofun⟩ Iff.rfl
    rintro ⟨y, hy, he⟩
    cases hy
    exact absurd he h.1
  | cons => rw [getLast?_cons_cons]

theorem budgetRun_isPrefix (hi weight : α → Nat) (e m : Nat) (xs : List α) :
    budgetRun hi weight e m xs <+: xs := by
  induction xs generalizing m with
  | nil => exact prefix_refl []
  | cons x xs ih =>
    rw [budgetRun]
    split
    · exact cons_prefix_cons.mpr ⟨rfl, nil_prefix⟩
    · exact cons_prefix_cons.mpr ⟨rfl, ih _⟩

theorem head?_budgetRun : (budgetRun hi weight e m (x :: xs)).head? = some x := by
  rw [budgetRun]
  split <;> rfl

theorem budgetRun_ne_nil (h : xs ≠ []) : budgetRun hi weight e m xs ≠ [] := by
  cases xs with
  | nil => exact absurd rfl h
  | cons =>
    rw [budgetRun]
    split <;> exact cons_ne_nil _ _

theorem budgetRun_append_of_done (h : Done hi weight e m (budgetRun hi weight e m xs))
    (hne : xs ≠ []) : budgetRun hi weight e m (xs ++ ys) = budgetRun hi weight e m xs := by
  induction xs generalizing m with
  | nil => exact absurd rfl hne
  | cons x xs ih =>
    rw [cons_append, budgetRun, budgetRun]
    split
    · rfl
    next hgo =>
      rw [budgetRun, if_neg hgo, done_cons hgo] at h
      rw [ih h]
      rintro rfl
      exact not_done_nil (by omega) h

/-- A run that is not done takes everything and goes on with the rest of the budget. -/
theorem budgetRun_append_of_not_done (ys : List α)
    (h : ¬Done hi weight e m (budgetRun hi weight e m xs)) :
    budgetRun hi weight e m xs = xs ∧
    budgetRun hi weight e m (xs ++ ys) =
      xs ++ budgetRun hi weight e (m - total weight xs) ys := by
  induction xs generalizing m with
  | nil => exact ⟨rfl, rfl⟩
  | cons x xs ih =>
    rw [cons_append]
    simp only [budgetRun] at h ⊢
    split at h
    next hstop => exact absurd (done_singleton hstop) h
    next hgo =>
      rw [done_cons hgo] at h
      obtain ⟨hxs, hrest⟩ := ih h
      rw [if_neg hgo, if_neg hgo, hxs, hrest, cons_append, total_cons]
      exact ⟨rfl, by congr 3; omega⟩

theorem done_budgetRun (weight : α → Nat) (m : Nat) (h : Tiles lo hi s xs t) (he : e ≤ t)
    (hne : xs ≠ []) : Done hi weight e m (budgetRun hi weight e m xs) := by
  by_contra hnot
  have hxs := (budgetRun_append_of_not_done [] hnot).1
  rw [hxs] at hnot
  have hlast := getLast?_eq_getLast_of_ne_nil hne
  exact hnot (.inl ⟨_, hlast, (h.hi_getLast hlast).symm ▸ he⟩)

theorem lo_lt_of_mem_budgetRun (h : Tiles lo hi s xs t) (hs : s < e)
    (hx : x ∈ budgetRun hi weight e m xs) : lo x < e := by
  induction xs generalizing s m with
  | nil => cases hx
  | cons y xs ih =>
    obtain ⟨rfl, -, hrest⟩ := h
    rw [budgetRun] at hx
    split at hx
    · rwa [mem_singleton.mp hx]
    next hgo =>
      rcases mem_cons.mp hx with rfl | hx
      · exact hs
      · exact ih hrest (not_le.mp (not_or.mp hgo).1) hx

/-! ## Reads from any point -/

/-- The answer of a list of windows to a read from `a`, empty if none of them covers `a`. -/
def answer (lo hi weight : α → Nat) (e m : Nat) (xs : List α) (a : Nat) : List α :=
  match xs.dropWhile fun x => hi x ≤ a with
  | [] => []
  | x :: zs => if lo x ≤ a then budgetRun hi weight e m (x :: zs) else []

theorem answer_split (hys : ∀ y ∈ ys, hi y ≤ a) (hlo : lo x ≤ a) (hhi : a < hi x) :
    answer lo hi weight e m (ys ++ x :: zs) a = budgetRun hi weight e m (x :: zs) := by
  have hdrop : (ys ++ x :: zs).dropWhile (fun x => decide (hi x ≤ a)) = x :: zs := by
    rw [dropWhile_append_of_pos fun y hy => decide_eq_true (hys y hy),
      dropWhile_cons_of_neg (by simpa using hhi)]
  rw [answer, hdrop]
  exact if_pos hlo

theorem answer_eq_nil (h : Tiles lo hi s xs t) (ha : a < s ∨ t ≤ a) :
    answer lo hi weight e m xs a = [] := by
  unfold answer
  split
  · rfl
  next x zs hdrop =>
    have hmem : x ∈ xs := (dropWhile_sublist _).subset (hdrop ▸ mem_cons_self)
    have hx : a < hi x := by
      have hnot := head?_dropWhile_not (fun x => decide (hi x ≤ a)) xs
      rw [hdrop] at hnot
      simpa using hnot
    obtain ⟨hlo, hhi⟩ := h.bounds hmem
    exact if_neg (by omega)

theorem answer_start (h : Tiles lo hi s xs t) :
    answer lo hi weight e m xs s = budgetRun hi weight e m xs := by
  cases xs with
  | nil => rfl
  | cons =>
    exact answer_split (forall_mem_nil _) h.1.le (h.1 ▸ h.2.1)

/-- A read that a first part does not answer is left to the second part. -/
theorem answer_append_of_nil (h : Tiles lo hi s (xs ++ ys) t)
    (hnil : answer lo hi weight e m xs a = []) :
    answer lo hi weight e m (xs ++ ys) a = answer lo hi weight e m ys a := by
  obtain ⟨c, hxs, hys⟩ := Tiles.append.mp h
  by_cases has : a < s
  · rw [answer_eq_nil h (.inl has), answer_eq_nil hys (.inl (lt_of_lt_of_le has hxs.le))]
  by_cases hac : a < c
  · obtain ⟨us, x, vs, rfl, hus, hlo, hhi⟩ := hxs.exists_split (not_lt.mp has) hac
    rw [answer_split hus hlo hhi] at hnil
    exact absurd hnil (budgetRun_ne_nil (cons_ne_nil _ _))
  · have hdrop : ∀ x ∈ xs, decide (hi x ≤ a) = true := fun x hx =>
      decide_eq_true ((hxs.bounds hx).2.trans (not_lt.mp hac))
    rw [answer, answer, dropWhile_append_of_pos hdrop]

/-- A read that a first part answers goes on in the second part unless it is done. -/
theorem answer_append (h : Tiles lo hi s (xs ++ ys) t)
    (hx : (answer lo hi weight e m xs a).getLast? = some x) :
    (Done hi weight e m (answer lo hi weight e m xs a) →
      answer lo hi weight e m (xs ++ ys) a = answer lo hi weight e m xs a) ∧
    (¬Done hi weight e m (answer lo hi weight e m xs a) →
      answer lo hi weight e m (xs ++ ys) a = answer lo hi weight e m xs a ++
        answer lo hi weight e (m - total weight (answer lo hi weight e m xs a)) ys (hi x)) := by
  obtain ⟨c, hxs, hys⟩ := Tiles.append.mp h
  have hin : s ≤ a ∧ a < c := by
    by_contra hout
    rw [answer_eq_nil hxs (by omega)] at hx
    cases hx
  obtain ⟨us, y, vs, rfl, hus, hlo, hhi⟩ := hxs.exists_split hin.1 hin.2
  rw [answer_split hus hlo hhi] at hx ⊢
  rw [append_assoc, cons_append, answer_split hus hlo hhi, ← cons_append]
  refine ⟨fun hdone => budgetRun_append_of_done hdone (cons_ne_nil _ _), fun hnot => ?_⟩
  obtain ⟨hall, hrest⟩ := budgetRun_append_of_not_done ys hnot
  rw [hall] at hx hnot ⊢
  -- The first part is read to its end, where the second one starts.
  have hxc : hi x = c := hxs.hi_getLast (by rw [getLast?_append, hx]; rfl)
  rw [hrest, hxc, answer_start hys]

theorem done_append (h : ¬Done hi weight e m xs) :
    Done hi weight e m (xs ++ ys) ↔ Done hi weight e (m - total weight xs) ys := by
  cases hys : ys.getLast? with
  | none =>
    obtain rfl := getLast?_eq_none_iff.mp hys
    have hlt : 0 < m - total weight xs := by
      by_contra hzero
      exact h (.inr (by omega))
    rw [append_nil]
    exact iff_of_false h (not_done_nil hlt)
  | some =>
    rw [Done, Done, getLast?_append, hys, Option.some_or, total_append]
    exact or_congr Iff.rfl (by omega)

theorem done_answer (h : Tiles lo hi s xs t) (hle : s ≤ a) (hlt : a < t) (he : e ≤ t) :
    Done hi weight e m (answer lo hi weight e m xs a) := by
  obtain ⟨ys, x, zs, rfl, hys, hlo, hhi⟩ := h.exists_split hle hlt
  rw [answer_split hys hlo hhi]
  obtain ⟨c, -, hrest⟩ := Tiles.append.mp h
  exact done_budgetRun weight m hrest he (cons_ne_nil _ _)

/-! ## Answers -/

/-- `rs` answers a read of `[a, e)` with the budget `m`: a run of the windows whose first one covers
`a` and which reaches `e` or uses up the budget, and no window starts at `e` or behind. -/
structure Served (lo hi weight : α → Nat) (all : List α) (a e m : Nat) (rs : List α) : Prop where
  isInfix : rs <:+: all
  covers : ∃ x, rs.head? = some x ∧ lo x ≤ a ∧ a < hi x
  done : Done hi weight e m rs
  below : ∀ x ∈ rs, lo x < e

theorem served_budgetRun (h : Tiles lo hi s (ys ++ x :: zs) t) (hlo : lo x ≤ a) (hhi : a < hi x)
    (hae : a < e) (he : e ≤ t) :
    Served lo hi weight (ys ++ x :: zs) a e m (budgetRun hi weight e m (x :: zs)) := by
  obtain ⟨c, -, hrest⟩ := Tiles.append.mp h
  obtain ⟨rest, hrest'⟩ := budgetRun_isPrefix hi weight e m (x :: zs)
  exact ⟨⟨ys, rest, by rw [append_assoc, hrest']⟩, ⟨x, head?_budgetRun, hlo, hhi⟩,
    done_budgetRun weight m hrest he (cons_ne_nil _ _), fun z hz =>
      lo_lt_of_mem_budgetRun hrest (hrest.1 ▸ lt_of_le_of_lt hlo hae) hz⟩

/-- What is pushed behind an answer as long as the budget lasts. -/
def pushRun (weight : α → Nat) : Nat → List α → List α
  | _, [] => []
  | m, x :: xs => if m = 0 then [] else x :: pushRun weight (m - weight x) xs

theorem pushRun_isPrefix (weight : α → Nat) (m : Nat) (xs : List α) :
    pushRun weight m xs <+: xs := by
  induction xs generalizing m with
  | nil => exact prefix_refl []
  | cons x xs ih =>
    rw [pushRun]
    split
    · exact nil_prefix
    · exact cons_prefix_cons.mpr ⟨rfl, ih _⟩

theorem pushRun_eq_or_le (weight : α → Nat) (m : Nat) (xs : List α) :
    pushRun weight m xs = xs ∨ m ≤ total weight (pushRun weight m xs) := by
  induction xs generalizing m with
  | nil => exact .inl rfl
  | cons x xs ih =>
    rw [pushRun]
    split
    next hm => exact .inr (hm ▸ Nat.zero_le _)
    next =>
      rcases ih (m - weight x) with heq | hle
      · exact .inl (by rw [heq])
      · refine .inr ?_
        rw [total_cons]
        omega

/-- An answer that reaches a boundary and has budget left ends there. -/
theorem Served.eq_suffix (h : Served lo hi weight (xs ++ ys) a c m rs) (hxs : Tiles lo hi s xs c)
    (hys : Tiles lo hi c ys t) (hleft : ¬m ≤ total weight rs) : ∃ us, xs = us ++ rs := by
  obtain ⟨us, vs, heq⟩ := h.isInfix
  obtain ⟨z, hz, hc⟩ := h.done.resolve_right hleft
  have htiles : Tiles lo hi s ((us ++ rs) ++ vs) t := by
    rw [heq]
    exact Tiles.append.mpr ⟨c, hxs, hys⟩
  obtain ⟨d, hfront, -⟩ := Tiles.append.mp htiles
  have hlast : (us ++ rs).getLast? = some z := by
    rw [getLast?_append, hz]
    rfl
  -- The last window starts below the boundary, so it belongs to the first part and ends in it.
  have hmem : z ∈ xs := by
    have hall : z ∈ xs ++ ys := by
      rw [← heq]
      exact mem_append_left _ (mem_append_right _ (mem_of_getLast? hz))
    rcases mem_append.mp hall with hx | hy
    · exact hx
    · have hge := (hys.bounds hy).1
      have hlt := h.below z (mem_of_getLast? hz)
      omega
  have hd : d = c := by
    have hle := (hxs.bounds hmem).2
    have hhi := hfront.hi_getLast hlast
    omega
  rw [hd] at hfront
  obtain ⟨hsplit, -⟩ := hfront.split_unique hxs heq
  exact ⟨us, hsplit.symm⟩

/-- **Stitching**: an answer up to a boundary, with what the budget leaves of an answer from the
boundary on, is an answer. -/
theorem Served.stitch (h : Served lo hi weight (xs ++ ys) a c m rs) (hxs : Tiles lo hi s xs c)
    (hys : Tiles lo hi c ys t) (hce : c < e) (het : e ≤ t) :
    Served lo hi weight (xs ++ ys) a e m
      (rs ++ pushRun weight (m - total weight rs) (budgetRun hi weight e m ys)) := by
  obtain ⟨x, hx, hcov⟩ := h.covers
  have hhead : ∀ zs, (rs ++ zs).head? = some x := by
    intro zs
    rw [head?_append, hx]
    rfl
  have hbelow : ∀ z ∈ pushRun weight (m - total weight rs) (budgetRun hi weight e m ys),
      lo z < e := fun z hz => lo_lt_of_mem_budgetRun hys hce ((pushRun_isPrefix ..).subset hz)
  refine ⟨?_, ⟨x, hhead _, hcov⟩, ?_, fun z hz => ?_⟩
  · by_cases hleft : m ≤ total weight rs
    · have hnil : pushRun weight (m - total weight rs) (budgetRun hi weight e m ys) = [] := by
        rw [Nat.sub_eq_zero_of_le hleft]
        cases budgetRun hi weight e m ys <;> rfl
      rw [hnil, append_nil]
      exact h.isInfix
    · obtain ⟨us, rfl⟩ := h.eq_suffix hxs hys hleft
      obtain ⟨vs, hvs⟩ := (pushRun_isPrefix weight (m - total weight rs) _).trans
        (budgetRun_isPrefix hi weight e m ys)
      exact ⟨us, vs, by rw [append_assoc, append_assoc, hvs, append_assoc]⟩
  · rcases pushRun_eq_or_le weight (m - total weight rs) (budgetRun hi weight e m ys) with heq | hle
    · rw [heq]
      have hne : ys ≠ [] := by
        rintro rfl
        have hct : c = t := hys
        omega
      rcases done_budgetRun weight m hys het hne with ⟨z, hz, hze⟩ | hle
      · exact .inl ⟨z, by rw [getLast?_append, hz]; rfl, hze⟩
      · refine .inr ?_
        rw [total_append]
        omega
    · refine .inr ?_
      rw [total_append]
      omega
  · rcases mem_append.mp hz with hz | hz
    · exact (h.below z hz).trans hce
    · exact hbelow z hz

end Windows
