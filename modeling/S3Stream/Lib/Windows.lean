import Mathlib.Tactic

/-! # Contiguous windows

Lists whose elements cover half-open windows `[lo x, hi x)` of an offset space. `Tiles a xs b`
says that the windows of `xs` tile `[a, b)` in order; `contiguousRun` is the longest prefix of a
list in which every window starts where the previous one ends. -/

namespace Windows

open List

variable {α : Type} {lo hi : α → Nat} {a b c : Nat} {x y : α} {xs ys : List α}

/-- The windows of the list tile `[a, b)`: none is empty, and each starts where the previous
one ends. -/
def Tiles (lo hi : α → Nat) : Nat → List α → Nat → Prop
  | a, [], b => a = b
  | a, x :: xs, b => lo x = a ∧ lo x < hi x ∧ Tiles lo hi (hi x) xs b

namespace Tiles

instance decidable : (a : Nat) → (xs : List α) → (b : Nat) → Decidable (Tiles lo hi a xs b)
  | a, [], b => inferInstanceAs (Decidable (a = b))
  | a, x :: xs, b =>
    have := decidable (hi x) xs b
    inferInstanceAs (Decidable (lo x = a ∧ lo x < hi x ∧ Tiles lo hi (hi x) xs b))

theorem append : Tiles lo hi a (xs ++ ys) c ↔ ∃ b, Tiles lo hi a xs b ∧ Tiles lo hi b ys c := by
  induction xs generalizing a with
  | nil => simp [Tiles]
  | cons x xs ih => simp [Tiles, ih, and_assoc]

theorem flatMap {lo' hi' : β → Nat} {f : α → List β} (h : Tiles lo hi a xs b)
    (hf : ∀ x ∈ xs, Tiles lo' hi' (lo x) (f x) (hi x)) : Tiles lo' hi' a (xs.flatMap f) b := by
  induction xs generalizing a with
  | nil => exact h
  | cons x xs ih =>
    obtain ⟨rfl, -, hrest⟩ := h
    have htail := ih hrest fun y hy => hf y (mem_cons_of_mem x hy)
    exact append.mpr ⟨hi x, hf x mem_cons_self, htail⟩

theorem snoc (h : Tiles lo hi a xs b) (hlo : lo x = b) (hlt : lo x < hi x) :
    Tiles lo hi a (xs ++ [x]) (hi x) :=
  append.mpr ⟨b, h, hlo, hlt, rfl⟩

theorem lo_head (h : Tiles lo hi a xs b) (hx : xs.head? = some x) : lo x = a := by
  cases xs with
  | nil => cases hx
  | cons =>
    cases hx
    exact h.1

theorem hi_getLast (h : Tiles lo hi a xs b) (hx : xs.getLast? = some x) : hi x = b := by
  obtain ⟨ys, rfl⟩ := getLast?_eq_some_iff.mp hx
  obtain ⟨c, -, hlast⟩ := append.mp h
  exact hlast.2.2

theorem right_unique (h : Tiles lo hi a xs b) (h' : Tiles lo hi a xs c) : b = c := by
  induction xs generalizing a with
  | nil => exact Eq.trans (Eq.symm h) h'
  | cons x xs ih => exact ih h.2.2 h'.2.2

theorem of_map_eq (hlo : ys.map lo = xs.map lo) (hhi : ys.map hi = xs.map hi)
    (h : Tiles lo hi a xs b) : Tiles lo hi a ys b := by
  induction xs generalizing a ys with
  | nil =>
    obtain rfl := map_eq_nil_iff.mp hlo
    exact h
  | cons x xs ih =>
    cases ys with
    | nil => cases hlo
    | cons =>
      obtain ⟨hlo₁, hlo₂⟩ := cons.inj hlo
      obtain ⟨hhi₁, hhi₂⟩ := cons.inj hhi
      obtain ⟨ha, hlt, hrest⟩ := h
      exact ⟨hlo₁.trans ha, hlo₁ ▸ hhi₁ ▸ hlt, ih hlo₂ hhi₂ (hhi₁ ▸ hrest)⟩

section

variable (h : Tiles lo hi a xs b)

include h

theorem le : a ≤ b := by
  induction xs generalizing a with
  | nil => exact h.le
  | cons x xs ih =>
    obtain ⟨rfl, hlt, hrest⟩ := h
    exact hlt.le.trans (ih hrest)

theorem length_le : a + xs.length ≤ b := by
  induction xs generalizing a with
  | nil => exact h.le
  | cons x xs ih =>
    obtain ⟨rfl, hlt, hrest⟩ := h
    have hle := ih hrest
    rw [length_cons]
    omega

theorem lo_lt_hi (hx : x ∈ xs) : lo x < hi x := by
  induction xs generalizing a with
  | nil => cases hx
  | cons y xs ih =>
    rcases mem_cons.mp hx with rfl | hx
    · exact h.2.1
    · exact ih h.2.2 hx

theorem bounds (hx : x ∈ xs) : a ≤ lo x ∧ hi x ≤ b := by
  induction xs generalizing a with
  | nil => cases hx
  | cons y xs ih =>
    obtain ⟨rfl, hlt, hrest⟩ := h
    rcases mem_cons.mp hx with rfl | hx
    · exact ⟨le_rfl, hrest.le⟩
    · obtain ⟨hlo, hhi⟩ := ih hrest hx
      exact ⟨hlt.le.trans hlo, hhi⟩

theorem pairwise : xs.Pairwise fun x y => hi x ≤ lo y := by
  induction xs generalizing a with
  | nil => exact .nil
  | cons x xs ih => exact .cons (fun y hy => (bounds h.2.2 hy).1) (ih h.2.2)

/-- Two windows of a tiling are equal or one lies wholly before the other. -/
theorem trichotomy (hx : x ∈ xs) (hy : y ∈ xs) : x = y ∨ hi x ≤ lo y ∨ hi y ≤ lo x := by
  induction xs generalizing a with
  | nil => cases hx
  | cons z xs ih =>
    have hrest := h.2.2
    rcases mem_cons.mp hx with rfl | hx' <;> rcases mem_cons.mp hy with rfl | hy'
    · exact .inl rfl
    · exact .inr (.inl (bounds hrest hy').1)
    · exact .inr (.inr (bounds hrest hx').1)
    · exact ih hrest hx' hy'

theorem eq_of_lo_eq (hx : x ∈ xs) (hy : y ∈ xs) (he : lo x = lo y) : x = y := by
  have hx' := lo_lt_hi h hx
  have hy' := lo_lt_hi h hy
  rcases trichotomy h hx hy with heq | hle | hle
  · exact heq
  · omega
  · omega

theorem lo_eq_or_exists_hi (hx : x ∈ xs) : lo x = a ∨ ∃ y ∈ xs, lo x = hi y := by
  induction xs generalizing a with
  | nil => cases hx
  | cons z xs ih =>
    obtain ⟨rfl, -, hrest⟩ := h
    rcases mem_cons.mp hx with rfl | hx
    · exact .inl rfl
    · rcases ih hrest hx with heq | ⟨y, hy, heq⟩
      · exact .inr ⟨z, mem_cons_self, heq⟩
      · exact .inr ⟨y, mem_cons_of_mem z hy, heq⟩

end

theorem exists_mem_window {y : Nat} (h : Tiles lo hi a xs b) (hle : a ≤ y) (hlt : y < b) :
    ∃ x ∈ xs, lo x ≤ y ∧ y < hi x := by
  induction xs generalizing a with
  | nil => exact absurd (h ▸ hlt) (not_lt.mpr hle)
  | cons x xs ih =>
    obtain ⟨rfl, -, hrest⟩ := h
    by_cases hx : y < hi x
    · exact ⟨x, mem_cons_self, hle, hx⟩
    · obtain ⟨z, hz, hzy⟩ := ih hrest (not_lt.mp hx)
      exact ⟨z, mem_cons_of_mem x hz, hzy⟩

/-- Where all windows have one length, every multiple of it inside the range starts one. -/
theorem exists_lo_eq {y : Nat} (h : Tiles lo hi a xs b) (hu : ∀ x ∈ xs, hi x = lo x + u)
    (hle : a ≤ y) (hlt : y < b) (hdvd : u ∣ y - a) : ∃ x ∈ xs, lo x = y := by
  induction xs generalizing a with
  | nil => exact absurd (h ▸ hlt) (not_lt.mpr hle)
  | cons x xs ih =>
    obtain ⟨rfl, hpos, hrest⟩ := h
    have hx := hu x mem_cons_self
    by_cases heq : lo x = y
    · exact ⟨x, mem_cons_self, heq⟩
    · have hge : u ≤ y - lo x := Nat.le_of_dvd (by omega) hdvd
      obtain ⟨z, hz, hlo⟩ := ih hrest (fun z hz => hu z (mem_cons_of_mem x hz)) (by omega)
        (by rw [hx, ← Nat.sub_sub]; exact Nat.dvd_sub hdvd dvd_rfl)
      exact ⟨z, mem_cons_of_mem x hz, hlo⟩

end Tiles

/-! ## Windows that may be empty -/

/-- Each window starts where the previous one ends, from `a` to `b`. -/
def Joined (lo hi : α → Nat) : Nat → List α → Nat → Prop
  | a, [], b => a = b
  | a, x :: xs, b => lo x = a ∧ Joined lo hi (hi x) xs b

namespace Joined

instance decidable : (a : Nat) → (xs : List α) → (b : Nat) → Decidable (Joined lo hi a xs b)
  | a, [], b => inferInstanceAs (Decidable (a = b))
  | a, x :: xs, b =>
    have := decidable (hi x) xs b
    inferInstanceAs (Decidable (lo x = a ∧ Joined lo hi (hi x) xs b))

theorem append : Joined lo hi a (xs ++ ys) c ↔ ∃ b, Joined lo hi a xs b ∧ Joined lo hi b ys c := by
  induction xs generalizing a with
  | nil => simp [Joined]
  | cons x xs ih => simp [Joined, ih, and_assoc]

theorem tiles (h : Joined lo hi a xs b) (hpos : ∀ x ∈ xs, lo x < hi x) : Tiles lo hi a xs b := by
  induction xs generalizing a with
  | nil => exact h
  | cons x xs ih =>
    exact ⟨h.1, hpos x mem_cons_self, ih h.2 fun y hy => hpos y (mem_cons_of_mem x hy)⟩

theorem bounds (h : Joined lo hi a xs b) (hle : ∀ x ∈ xs, lo x ≤ hi x) :
    a ≤ b ∧ ∀ x ∈ xs, a ≤ lo x ∧ hi x ≤ b := by
  induction xs generalizing a with
  | nil => exact ⟨le_of_eq h, fun x hx => nomatch hx⟩
  | cons x xs ih =>
    obtain ⟨hx, hxs⟩ := forall_mem_cons.mp hle
    obtain ⟨hstop, hrest⟩ := ih h.2 hxs
    have hax : a ≤ hi x := h.1 ▸ hx
    refine ⟨hax.trans hstop, forall_mem_cons.mpr ⟨⟨le_of_eq h.1.symm, hstop⟩, ?_⟩⟩
    exact fun y hy => ⟨hax.trans (hrest y hy).1, (hrest y hy).2⟩

end Joined

/-! ## The contiguous run at the front of a list -/

/-- The elements after a window that ends at `stop` that follow it without a gap. -/
def contiguousAfter (lo hi : α → Nat) : Nat → List α → List α
  | _, [] => []
  | stop, x :: xs => if lo x ≠ stop then [] else x :: contiguousAfter lo hi (hi x) xs

/-- The longest gap-free prefix of a list. -/
def contiguousRun (lo hi : α → Nat) : List α → List α
  | [] => []
  | x :: xs => x :: contiguousAfter lo hi (hi x) xs

theorem contiguousAfter_isPrefix (stop : Nat) (xs : List α) :
    contiguousAfter lo hi stop xs <+: xs := by
  induction xs generalizing stop with
  | nil => exact prefix_refl []
  | cons x xs ih =>
    rw [contiguousAfter]
    split
    · exact nil_prefix
    · exact cons_prefix_cons.mpr ⟨rfl, ih (hi x)⟩

theorem contiguousRun_isPrefix (xs : List α) : contiguousRun lo hi xs <+: xs := by
  cases xs with
  | nil => exact prefix_refl []
  | cons x xs => exact cons_prefix_cons.mpr ⟨rfl, contiguousAfter_isPrefix (hi x) xs⟩

theorem contiguousAfter_map (f : β → α) (stop : Nat) (zs : List β) :
    contiguousAfter lo hi stop (zs.map f) =
      (contiguousAfter (lo ∘ f) (hi ∘ f) stop zs).map f := by
  induction zs generalizing stop with
  | nil => rfl
  | cons z zs ih =>
    simp only [map_cons, contiguousAfter, Function.comp_apply, ih]
    split <;> rfl

theorem contiguousRun_map (f : β → α) (zs : List β) :
    contiguousRun lo hi (zs.map f) = (contiguousRun (lo ∘ f) (hi ∘ f) zs).map f := by
  cases zs with
  | nil => rfl
  | cons => simp [contiguousRun, contiguousAfter_map]

/-- An element belongs to the run as soon as no earlier window lacks its successor. -/
theorem mem_contiguousRun (hord : xs.Pairwise fun x y => hi x ≤ lo y)
    (hpos : ∀ x ∈ xs, lo x < hi x) (hy : y ∈ xs)
    (hnext : ∀ x ∈ xs, lo x < lo y → ∃ z ∈ xs, lo z = hi x) : y ∈ contiguousRun lo hi xs := by
  induction xs with
  | nil => cases hy
  | cons x xs ih =>
    rcases mem_cons.mp hy with rfl | hy
    · exact mem_cons_self
    obtain ⟨hx, hord⟩ := pairwise_cons.mp hord
    have hpos' : ∀ z ∈ xs, lo z < hi z := fun z hz => hpos z (mem_cons_of_mem x hz)
    -- The successor of a later window is itself a later window.
    have hnext' : ∀ z ∈ xs, lo z < lo y → ∃ w ∈ xs, lo w = hi z := by
      intro z hz hlt
      obtain ⟨w, hw, hlo⟩ := hnext z (mem_cons_of_mem x hz) hlt
      rcases mem_cons.mp hw with rfl | hw
      · have := hx z hz; have := hpos' z hz; have := hpos w mem_cons_self; omega
      · exact ⟨w, hw, hlo⟩
    have hmem := ih hord hpos' hy hnext'
    cases xs with
    | nil => cases hy
    | cons z =>
      -- The next element of the list is the successor of `x`: nothing fits between them.
      have hz : lo z = hi x := by
        have hxy := hx y hy
        have hxpos := hpos x mem_cons_self
        obtain ⟨w, hw, hlo⟩ := hnext x mem_cons_self (by omega)
        have hxz := hx z mem_cons_self
        rcases mem_cons.mp hw with rfl | hw
        · omega
        rcases mem_cons.mp hw with rfl | hw
        · exact hlo
        · have := (pairwise_cons.mp hord).1 w hw
          have := hpos' z mem_cons_self
          omega
      rw [contiguousRun, contiguousAfter, if_neg (not_not.mpr hz)]
      exact mem_cons_of_mem x hmem

end Windows
