import S3Stream.Lib.WindowReads

/-! # Reads of windows with gaps

Windows in order, but with gaps between some of them. A read from `a` can use the run from the
window that covers `a` to the next gap (`runFrom`), a read that asks for the end the longest run
behind the last gap (`tailRun`). The windows come in parts that are read one after the other
(`readParts`), and the answer does not depend on where a run is cut into parts. -/

namespace Windows

open List

variable {α : Type} {lo hi weight : α → Nat} {a e m s t : Nat} {x : α} {xs ys rs us : List α}
  {xss yss : List (List α)}

/-! ## The run from a point -/

/-- The windows from the one that covers `a` to the next gap. -/
def runFrom (lo hi : α → Nat) (xs : List α) (a : Nat) : List α :=
  match xs.dropWhile fun x => hi x ≤ a with
  | [] => []
  | x :: zs => if lo x ≤ a then contiguousRun lo hi (x :: zs) else []

theorem contiguousAfter_append (h : Tiles lo hi s xs t) :
    contiguousAfter lo hi s (xs ++ ys) = xs ++ contiguousAfter lo hi t ys := by
  induction xs generalizing s with
  | nil =>
    obtain rfl : s = t := h
    rfl
  | cons x xs ih =>
    obtain ⟨rfl, -, hrest⟩ := h
    rw [cons_append, contiguousAfter, if_neg (not_not.mpr rfl), ih hrest, cons_append]

theorem tiles_contiguousAfter (stop : Nat) (h : ∀ x ∈ xs, lo x < hi x) :
    ∃ t, Tiles lo hi stop (contiguousAfter lo hi stop xs) t := by
  induction xs generalizing stop with
  | nil => exact ⟨stop, rfl⟩
  | cons x xs ih =>
    rw [contiguousAfter]
    split
    · exact ⟨stop, rfl⟩
    next hlo =>
      obtain ⟨t, ht⟩ := ih (hi x) fun y hy => h y (mem_cons_of_mem x hy)
      exact ⟨t, not_not.mp hlo, h x mem_cons_self, ht⟩

theorem runFrom_append_of_le (lo : α → Nat) (ys : List α) (h : ∀ x ∈ xs, hi x ≤ a) :
    runFrom lo hi (xs ++ ys) a = runFrom lo hi ys a := by
  rw [runFrom, runFrom, dropWhile_append_of_pos fun x hx => decide_eq_true (h x hx)]

/-- The run from a point inside the first window of a part goes on behind the part if there is no
gap. -/
theorem runFrom_cons (ys : List α) (h : Tiles lo hi s (x :: rs) t) (hlo : lo x ≤ a)
    (hhi : a < hi x) :
    runFrom lo hi (x :: rs ++ ys) a = x :: rs ++ contiguousAfter lo hi t ys := by
  rw [runFrom, cons_append, dropWhile_cons_of_neg (by simpa using hhi)]
  show (if lo x ≤ a then _ else _) = _
  rw [if_pos hlo, contiguousRun, contiguousAfter_append h.2.2, cons_append]

theorem runFrom_split (ys : List α) (h : Tiles lo hi s (us ++ x :: rs) t)
    (hus : ∀ y ∈ us, hi y ≤ a) (hlo : lo x ≤ a) (hhi : a < hi x) :
    runFrom lo hi (us ++ x :: rs ++ ys) a = x :: rs ++ contiguousAfter lo hi t ys := by
  obtain ⟨c, -, hrest⟩ := Tiles.append.mp h
  rw [append_assoc, runFrom_append_of_le lo _ hus, runFrom_cons ys hrest hlo hhi]

theorem runFrom_of_lt (h : ∀ x ∈ xs, a < lo x) : runFrom lo hi xs a = [] := by
  unfold runFrom
  split
  · rfl
  next x zs hdrop =>
    have hmem : x ∈ xs := (dropWhile_sublist _).subset (hdrop ▸ mem_cons_self)
    exact if_neg (not_le.mpr (h x hmem))

theorem runFrom_of_le (h : ∀ x ∈ xs, a ≤ lo x) (hpos : ∀ x ∈ xs, lo x < hi x) :
    runFrom lo hi xs a = contiguousAfter lo hi a xs := by
  cases xs with
  | nil => rfl
  | cons x =>
    have hx := h x mem_cons_self
    have hhi := hpos x mem_cons_self
    rw [runFrom, dropWhile_cons_of_neg (by simpa using hx.trans_lt hhi), contiguousAfter]
    show (if lo x ≤ a then _ else _) = _
    by_cases heq : lo x = a
    · rw [if_pos heq.le, if_neg (not_not.mpr heq), contiguousRun]
    · rw [if_neg (by omega), if_pos heq]

/-- The run from a point that a run of the list covers with its first window goes at least as far.
-/
theorem isPrefix_runFrom (hord : xs.Pairwise fun x y => hi x ≤ lo y) (hrs : rs <:+: xs)
    (htile : Tiles lo hi s rs t) (hx : rs.head? = some x) (hlo : lo x ≤ a) (hhi : a < hi x) :
    rs <+: runFrom lo hi xs a := by
  obtain ⟨us, vs, rfl⟩ := hrs
  cases rs with
  | nil => cases hx
  | cons y =>
    cases hx
    have hus : ∀ y ∈ us, hi y ≤ a := fun y hy =>
      ((pairwise_append.mp (pairwise_append.mp hord).1).2.2 y hy x
        mem_cons_self).trans hlo
    rw [append_assoc, runFrom_append_of_le lo _ hus, runFrom_cons vs htile hlo hhi]
    exact prefix_append ..

/-- The run from a point is a run of the list whose first window covers the point. -/
theorem runFrom_spec (a : Nat) (hpos : ∀ x ∈ xs, lo x < hi x) :
    runFrom lo hi xs a <:+: xs ∧ (∃ s t, Tiles lo hi s (runFrom lo hi xs a) t) ∧
    ∀ x, (runFrom lo hi xs a).head? = some x → lo x ≤ a ∧ a < hi x := by
  unfold runFrom
  split
  · exact ⟨List.nil_infix, ⟨0, 0, rfl⟩, nofun⟩
  next x zs hdrop =>
    have hsuffix : x :: zs <:+ xs := hdrop ▸ dropWhile_suffix _
    have hx : a < hi x := by
      have hnot := head?_dropWhile_not (fun x => decide (hi x ≤ a)) xs
      rw [hdrop] at hnot
      simpa using hnot
    split
    next hlo =>
      have hzs : ∀ y ∈ zs, lo y < hi y := fun y hy =>
        hpos y (hsuffix.subset (mem_cons_of_mem x hy))
      obtain ⟨t, ht⟩ := tiles_contiguousAfter (hi x) hzs
      refine ⟨(contiguousRun_isPrefix _).isInfix.trans hsuffix.isInfix,
        ⟨lo x, t, rfl, hpos x (hsuffix.subset mem_cons_self), ht⟩, ?_⟩
      rintro y ⟨⟩
      exact ⟨hlo, hx⟩
    next => exact ⟨List.nil_infix, ⟨0, 0, rfl⟩, nofun⟩

/-- Without gaps a read takes from the run what it takes from the list. -/
theorem budgetRun_runFrom (h : Tiles lo hi s xs t) :
    budgetRun hi weight e m (runFrom lo hi xs a) = answer lo hi weight e m xs a := by
  by_cases hin : s ≤ a ∧ a < t
  · obtain ⟨us, x, vs, rfl, hus, hlo, hhi⟩ := h.exists_split hin.1 hin.2
    have hrun := runFrom_split [] h hus hlo hhi
    rw [append_nil, contiguousAfter, append_nil] at hrun
    rw [hrun, answer_split hus hlo hhi]
  · rw [answer_eq_nil h (by omega)]
    have hnil : runFrom lo hi xs a = [] := by
      by_cases hta : t ≤ a
      · have hall := runFrom_append_of_le lo [] fun x hx => (h.bounds hx).2.trans hta
        rwa [append_nil] at hall
      · exact runFrom_of_lt fun x hx => by
          have hlo := (h.bounds hx).1
          omega
    rw [hnil]
    rfl

/-! ## The run at the end -/

/-- The windows behind the last gap. -/
def tailRun (lo hi : α → Nat) : List α → List α
  | [] => []
  | x :: xs =>
    if (∀ y ∈ xs.head?, hi x = lo y) ∧ (tailRun lo hi xs).length = xs.length then x :: xs
    else tailRun lo hi xs

theorem tailRun_isSuffix (xs : List α) : tailRun lo hi xs <:+ xs := by
  induction xs with
  | nil => exact suffix_refl []
  | cons x xs ih =>
    rw [tailRun]
    split
    · exact suffix_refl _
    · exact ih.trans (suffix_cons x xs)

theorem tiles_cons_of_tail (hnext : ∀ y ∈ xs.head?, hi x = lo y) (hpos : lo x < hi x)
    (h : Tiles lo hi s xs t) : ∃ t', Tiles lo hi (lo x) (x :: xs) t' := by
  cases xs with
  | nil => exact ⟨hi x, rfl, hpos, rfl⟩
  | cons y => exact ⟨t, rfl, hpos, (hnext y rfl).symm, h.2⟩

theorem tiles_tailRun (hpos : ∀ x ∈ xs, lo x < hi x) :
    ∃ s t, Tiles lo hi s (tailRun lo hi xs) t := by
  induction xs with
  | nil => exact ⟨0, 0, rfl⟩
  | cons x xs ih =>
    obtain ⟨s, t, htile⟩ := ih fun y hy => hpos y (mem_cons_of_mem x hy)
    rw [tailRun]
    split
    next hall =>
      rw [(tailRun_isSuffix xs).eq_of_length hall.2] at htile
      exact ⟨_, tiles_cons_of_tail hall.1 (hpos x mem_cons_self) htile⟩
    next => exact ⟨s, t, htile⟩

theorem tailRun_of_tiles (h : Tiles lo hi s xs t) : tailRun lo hi xs = xs := by
  induction xs generalizing s with
  | nil => rfl
  | cons x xs ih =>
    refine if_pos ⟨fun y hy => ?_, by rw [ih h.2.2]⟩
    exact (h.2.2.lo_head hy).symm

/-- A run at the end of the list is a run at the end of the longest one. -/
theorem isSuffix_tailRun (hys : ys <:+ xs) (h : Tiles lo hi s ys t) : ys <:+ tailRun lo hi xs := by
  induction xs with
  | nil => exact hys
  | cons x xs ih =>
    rcases suffix_cons_iff.mp hys with rfl | hys
    · rw [tailRun_of_tiles h]
    · rw [tailRun]
      split
      · exact hys.trans (suffix_cons x xs)
      · exact ih hys

theorem tailRun_append (h : Tiles lo hi s ys t) (hne : ys ≠ []) (hlast : us.getLast? = some x)
    (hgap : hi x ≠ s) : tailRun lo hi (us ++ ys) = ys := by
  induction us with
  | nil => cases hlast
  | cons u us ih =>
    rw [cons_append, tailRun]
    cases us with
    | nil =>
      cases hlast
      refine (if_neg fun hall => hgap ?_).trans (tailRun_of_tiles h)
      obtain ⟨y, ys, rfl⟩ := exists_cons_of_ne_nil hne
      exact (hall.1 y rfl).trans h.1
    | cons =>
      rw [ih hlast]
      exact if_neg fun hall => by
        have hlen := hall.2
        rw [length_append, length_cons] at hlen
        omega

/-- Where the run at the end starts, from the ranges of the parts, the last one first. -/
def tailStartOf : Option Nat → List (Nat × Nat) → Option Nat
  | tail, [] => tail
  | none, r :: rs => tailStartOf (some r.1) rs
  | some start, r :: rs => if start = r.2 then tailStartOf (some r.1) rs else some start

/-- The range of a part that has windows. -/
inductive HasRange (lo hi : α → Nat) : List α → Option (Nat × Nat) → Prop
  | empty : HasRange lo hi [] none
  | run {xs : List α} {s t : Nat} (htile : Tiles lo hi s xs t) (hne : xs ≠ []) :
      HasRange lo hi xs (some (s, t))

theorem tailStartOf_eq {part : β → List α} {range : β → Option (Nat × Nat)} {bs : List β}
    (hrange : ∀ b ∈ bs, HasRange lo hi (part b) (range b)) (hys : Tiles lo hi s ys t) :
    tailStartOf (ys.head?.map lo) (bs.reverse.filterMap range) =
      (tailRun lo hi (bs.flatMap part ++ ys)).head?.map lo := by
  induction bs using reverseRecOn generalizing ys s t with
  | nil => rw [flatMap_nil, nil_append, tailRun_of_tiles hys]; rfl
  | append_singleton bs b ih =>
    have hbs : ∀ b ∈ bs, HasRange lo hi (part b) (range b) :=
      fun d hd => hrange d (mem_append_left _ hd)
    have hb := hrange b (by simp)
    rw [reverse_append, reverse_singleton, singleton_append, flatMap_append,
      flatMap_singleton, append_assoc]
    generalize part b = xs, hr : range b = r at hb
    cases hb with
    | empty =>
      rw [filterMap_cons_none hr, nil_append]
      exact ih hbs hys
    | @run _ s' t' htile hne =>
      rw [filterMap_cons_some hr]
      obtain ⟨x, xs', rfl⟩ := exists_cons_of_ne_nil hne
      have hhead : ∀ zs, ((x :: xs' ++ zs).head?.map lo) = some s' := fun _ => by
        rw [← htile.1]
        rfl
      cases ys with
      | nil =>
        have hgo := ih hbs htile
        rw [append_nil, ← hgo, ← append_nil (x :: xs'), hhead]
        rfl
      | cons y ys =>
        show (if lo y = t' then tailStartOf (some s') _ else some (lo y)) = _
        split
        next heq =>
          have hjoint : Tiles lo hi s' (x :: xs' ++ y :: ys) t :=
            Tiles.append.mpr ⟨t', htile, heq, hys.2⟩
          have hgo := ih hbs hjoint
          rw [← hgo, hhead]
        next hgap =>
          -- The part ends before the run starts.
          have hlast := getLast?_eq_getLast_of_ne_nil hne
          have hcut : tailRun lo hi (bs.flatMap part ++ (x :: xs') ++ y :: ys) = y :: ys :=
            tailRun_append hys (cons_ne_nil _ _) (by rw [getLast?_append, hlast]; rfl)
              (by rw [htile.hi_getLast hlast, ← hys.1]; exact Ne.symm hgap)
          rw [← append_assoc, hcut]
          rfl

/-! ## Reads part by part -/

/-- A read of parts: each is asked where the answer so far ends, until the read is over. The flag
says whether it is. -/
def readParts (lo hi weight : α → Nat) (e : Nat) : List (List α) → Nat → Nat → List α × Bool
  | [], _, _ => ([], false)
  | xs :: xss, a, m =>
    let rs := answer lo hi weight e m xs a
    match rs.getLast? with
    | none => readParts lo hi weight e xss a m
    | some last =>
      let m := m - min m (total weight rs)
      if e ≤ hi last ∨ m = 0 then (rs, true)
      else
        let (rest, finished) := readParts lo hi weight e xss (hi last) m
        (rs ++ rest, finished)

theorem done_iff_of_getLast? (hx : rs.getLast? = some x) :
    (e ≤ hi x ∨ m - min m (total weight rs) = 0) ↔ Done hi weight e m rs := by
  rw [Done, hx]
  constructor
  · rintro (hle | hzero)
    · exact .inl ⟨x, rfl, hle⟩
    · exact .inr (by omega)
  · rintro (⟨y, hy, hle⟩ | hle)
    · cases hy
      exact .inl hle
    · exact .inr (by omega)

theorem readParts_cons_of_nil (h : answer lo hi weight e m xs a = []) :
    readParts lo hi weight e (xs :: xss) a m = readParts lo hi weight e xss a m := by
  rw [readParts, h]
  rfl

theorem readParts_cons_of_done (h : Done hi weight e m (answer lo hi weight e m xs a))
    (hx : (answer lo hi weight e m xs a).getLast? = some x) :
    readParts lo hi weight e (xs :: xss) a m = (answer lo hi weight e m xs a, true) := by
  rw [readParts, hx]
  exact if_pos ((done_iff_of_getLast? hx).mpr h)

theorem readParts_cons_of_not_done (h : ¬Done hi weight e m (answer lo hi weight e m xs a))
    (hx : (answer lo hi weight e m xs a).getLast? = some x) :
    readParts lo hi weight e (xs :: xss) a m =
      (answer lo hi weight e m xs a ++ (readParts lo hi weight e xss (hi x)
          (m - total weight (answer lo hi weight e m xs a))).1,
        (readParts lo hi weight e xss (hi x)
          (m - total weight (answer lo hi weight e m xs a))).2) := by
  have hbudget : m - min m (total weight (answer lo hi weight e m xs a)) =
      m - total weight (answer lo hi weight e m xs a) := by omega
  have hnot := fun hstop => h ((done_iff_of_getLast? hx).mp hstop)
  rw [readParts, hx]
  dsimp only
  rw [if_neg hnot, hbudget]

/-- Where the parts are in order, the read takes the run from `a` as far as the budget goes, and
knows whether it is over. -/
theorem readParts_eq (weight : α → Nat) (hparts : ∀ xs ∈ xss, ∃ s t, Tiles lo hi s xs t)
    (hord : xss.flatten.Pairwise fun x y => hi x ≤ lo y) (e a m : Nat) :
    (readParts lo hi weight e xss a m).1 =
        budgetRun hi weight e m (runFrom lo hi xss.flatten a) ∧
      ((readParts lo hi weight e xss a m).2 = true ↔
        runFrom lo hi xss.flatten a ≠ [] ∧
          Done hi weight e m (budgetRun hi weight e m (runFrom lo hi xss.flatten a))) := by
  induction xss generalizing a m with
  | nil => exact ⟨rfl, nofun, fun h => absurd rfl h.1⟩
  | cons xs xss ih =>
    rw [flatten_cons] at hord ⊢
    obtain ⟨hxs, hrest, hcross⟩ := pairwise_append.mp hord
    have hparts' : ∀ ys ∈ xss, ∃ s t, Tiles lo hi s ys t :=
      fun ys hys => hparts ys (mem_cons_of_mem xs hys)
    have hpos : ∀ x ∈ xss.flatten, lo x < hi x := by
      intro x hx
      obtain ⟨ys, hys, hx⟩ := mem_flatten.mp hx
      obtain ⟨s, t, htile⟩ := hparts' ys hys
      exact htile.lo_lt_hi hx
    obtain ⟨s, t, htile⟩ := hparts xs mem_cons_self
    by_cases hin : s ≤ a ∧ a < t
    · obtain ⟨us, x, vs, rfl, hus, hlo, hhi⟩ := htile.exists_split hin.1 hin.2
      have hans : answer lo hi weight e m (us ++ x :: vs) a = budgetRun hi weight e m (x :: vs) :=
        answer_split hus hlo hhi
      have hrun := runFrom_split xss.flatten htile hus hlo hhi
      obtain ⟨c, -, htail⟩ := Tiles.append.mp htile
      rw [hrun]
      have hne : answer lo hi weight e m (us ++ x :: vs) a ≠ [] := by
        rw [hans]
        exact budgetRun_ne_nil (cons_ne_nil _ _)
      have hlast := getLast?_eq_getLast_of_ne_nil hne
      by_cases hdone : Done hi weight e m (answer lo hi weight e m (us ++ x :: vs) a)
      · rw [readParts_cons_of_done hdone hlast]
        rw [hans] at hdone ⊢
        rw [budgetRun_append_of_done hdone (cons_ne_nil _ _)]
        exact ⟨rfl, fun _ => ⟨cons_ne_nil _ _, hdone⟩, fun _ => rfl⟩
      · rw [readParts_cons_of_not_done hdone hlast]
        generalize (answer lo hi weight e m (us ++ x :: vs) a).getLast hne = last at hlast
        rw [hans] at hdone hlast ⊢
        obtain ⟨hall, hgo⟩ := budgetRun_append_of_not_done (contiguousAfter lo hi t xss.flatten)
          hdone
        rw [hall] at hdone hlast ⊢
        have hend : hi last = t := htail.hi_getLast hlast
        -- The next parts are asked where this one ends.
        have hnext : runFrom lo hi xss.flatten t = contiguousAfter lo hi t xss.flatten := by
          refine runFrom_of_le (fun y hy => ?_) hpos
          rw [← hend]
          exact hcross last (mem_append_right _ (mem_of_getLast? hlast)) y hy
        obtain ⟨hrecords, hover⟩ := ih hparts' hrest t (m - total weight (x :: vs))
        rw [hnext] at hrecords hover
        rw [hgo, hend]
        refine ⟨by rw [hrecords], hover.trans ?_⟩
        rw [done_append hdone]
        refine ⟨fun h => ⟨nofun, h.2⟩, fun h => ⟨fun hnil => ?_, h.2⟩⟩
        have hleft : 0 < m - total weight (x :: vs) := by
          have hnot : ¬m ≤ total weight (x :: vs) := fun hle => hdone (.inr hle)
          omega
        rw [hnil] at h
        exact not_done_nil hleft h.2
    · rw [readParts_cons_of_nil (answer_eq_nil htile (by omega))]
      have hskip : runFrom lo hi (xs ++ xss.flatten) a = runFrom lo hi xss.flatten a := by
        by_cases hta : t ≤ a
        · exact runFrom_append_of_le lo _ fun x hx => (htile.bounds hx).2.trans hta
        -- The point lies before the part, and then before everything behind it.
        cases xs with
        | nil => rfl
        | cons x xs =>
          have hx : a < lo x := by
            have hs := htile.1
            omega
          have hall : ∀ y ∈ x :: xs ++ xss.flatten, a < lo y := by
            intro y hy
            rcases mem_cons.mp hy with rfl | hy
            · exact hx
            · have hxy := (pairwise_cons.mp hord).1 y hy
              have hxx := htile.2.1
              omega
          rw [runFrom_of_lt hall, runFrom_of_lt fun y hy => hall y (mem_append_right _ hy)]
      rw [hskip]
      exact ih hparts' hrest a m

theorem readParts_join (h : Tiles lo hi s (xs ++ ys) t) (e a m : Nat) :
    readParts lo hi weight e (xs :: ys :: xss) a m =
      readParts lo hi weight e ((xs ++ ys) :: xss) a m := by
  by_cases hnil : answer lo hi weight e m xs a = []
  · rw [readParts_cons_of_nil hnil, readParts, readParts, answer_append_of_nil h hnil]
  have hlast := getLast?_eq_getLast_of_ne_nil hnil
  generalize (answer lo hi weight e m xs a).getLast hnil = last at hlast
  obtain ⟨hstop, hgo⟩ := answer_append h hlast
  by_cases hdone : Done hi weight e m (answer lo hi weight e m xs a)
  · rw [readParts_cons_of_done hdone hlast, ← hstop hdone]
    exact (readParts_cons_of_done (hstop hdone ▸ hdone) (hstop hdone ▸ hlast)).symm
  rw [readParts_cons_of_not_done hdone hlast]
  replace hgo := hgo hdone
  generalize hm' : m - total weight (answer lo hi weight e m xs a) = m' at hgo
  by_cases hnil' : answer lo hi weight e m' ys (hi last) = []
  · rw [readParts_cons_of_nil hnil']
    rw [hnil', append_nil] at hgo
    rw [readParts_cons_of_not_done (hgo ▸ hdone) (hgo ▸ hlast), hgo, hm']
  have hlast' := getLast?_eq_getLast_of_ne_nil hnil'
  generalize (answer lo hi weight e m' ys (hi last)).getLast hnil' = last' at hlast'
  have hjoint : (answer lo hi weight e m (xs ++ ys) a).getLast? = some last' := by
    rw [hgo, getLast?_append, hlast']
    rfl
  have hiff : Done hi weight e m (answer lo hi weight e m (xs ++ ys) a) ↔
      Done hi weight e m' (answer lo hi weight e m' ys (hi last)) := by
    rw [hgo, done_append hdone, hm']
  by_cases hdone' : Done hi weight e m' (answer lo hi weight e m' ys (hi last))
  · rw [readParts_cons_of_done hdone' hlast', readParts_cons_of_done (hiff.mpr hdone') hjoint, hgo]
  · rw [readParts_cons_of_not_done hdone' hlast',
      readParts_cons_of_not_done (mt hiff.mp hdone') hjoint, hgo, append_assoc, total_append,
      ← Nat.sub_sub, hm']

theorem readParts_append_congr (h : ∀ a m, readParts lo hi weight e xss a m =
      readParts lo hi weight e yss a m) (zss : List (List α)) (a m : Nat) :
    readParts lo hi weight e (zss ++ xss) a m = readParts lo hi weight e (zss ++ yss) a m := by
  induction zss generalizing a m with
  | nil => exact h a m
  | cons zs zss ih => simp only [cons_append, readParts, ih]

end Windows
