import Mathlib.Algebra.GroupWithZero.Nat
import Mathlib.Order.Lattice

/-! # Ordered maps

A finite map kept as a list of entries in strictly increasing key order, with the operations of
an ordered tree map that programs use: insertion, restriction to some keys, the last entry and
the entry at or below a key. -/

/-- A finite map with its entries in increasing key order. -/
structure OrdMap (κ α : Type) [LinearOrder κ] where
  entries : List (κ × α)
  sorted : entries.Pairwise fun a b => a.1 < b.1

namespace OrdMap

open List

variable {κ α : Type} [LinearOrder κ] {k k' : κ} {v v' : α} {m : OrdMap κ α}

instance : Membership (κ × α) (OrdMap κ α) := ⟨fun m e => e ∈ m.entries⟩

theorem mem_def : e ∈ m ↔ e ∈ m.entries := .rfl

def empty : OrdMap κ α := ⟨[], .nil⟩

@[simp] theorem not_mem_empty (e : κ × α) : e ∉ (empty : OrdMap κ α) := not_mem_nil

/-- Put an entry into a sorted list of entries, replacing the entry of the same key. -/
def insertEntry (k : κ) (v : α) : List (κ × α) → List (κ × α)
  | [] => [(k, v)]
  | e :: es =>
    if k < e.1 then (k, v) :: e :: es
    else if k = e.1 then (k, v) :: es
    else e :: insertEntry k v es

private theorem mem_insertEntry_imp (h : e ∈ insertEntry k v es) : e = (k, v) ∨ e ∈ es := by
  induction es with
  | nil => simpa [insertEntry] using h
  | cons d es ih =>
    rw [insertEntry] at h
    split at h
    · exact mem_cons.mp h
    · split at h
      · exact (mem_cons.mp h).imp_right (mem_cons_of_mem d)
      · rcases mem_cons.mp h with rfl | h
        · exact .inr mem_cons_self
        · exact (ih h).imp_right (mem_cons_of_mem d)

private theorem sorted_insertEntry (h : es.Pairwise fun a b => a.1 < b.1) :
    (insertEntry k v es).Pairwise fun a b => a.1 < b.1 := by
  induction es with
  | nil => exact pairwise_singleton ..
  | cons d es ih =>
    obtain ⟨hd, hes⟩ := pairwise_cons.mp h
    rw [insertEntry]
    split
    next hlt =>
      refine .cons (fun e he => ?_) h
      rcases mem_cons.mp he with rfl | he
      · exact hlt
      · exact hlt.trans (hd e he)
    next hnlt =>
      split
      next heq => exact .cons (fun e he => by simpa [heq] using hd e he) hes
      next hne =>
        refine .cons (fun e he => ?_) (ih hes)
        rcases mem_insertEntry_imp he with rfl | he
        · exact lt_of_le_of_ne (not_lt.mp hnlt) (Ne.symm hne)
        · exact hd e he

def insert (m : OrdMap κ α) (k : κ) (v : α) : OrdMap κ α :=
  ⟨insertEntry k v m.entries, sorted_insertEntry m.sorted⟩

theorem mem_insert_self : (k, v) ∈ m.insert k v := by
  change (k, v) ∈ insertEntry k v m.entries
  induction m.entries with
  | nil => exact mem_singleton.mpr rfl
  | cons d es ih =>
    rw [insertEntry]
    split
    · exact mem_cons_self
    · split
      · exact mem_cons_self
      · exact mem_cons_of_mem d ih

theorem eq_or_mem_of_mem_insert (h : e ∈ m.insert k v) : e = (k, v) ∨ e ∈ m :=
  mem_insertEntry_imp h

private theorem mem_insertEntry_of_ne (he : e ∈ es) (hne : e.1 ≠ k) : e ∈ insertEntry k v es := by
  induction es with
  | nil => cases he
  | cons d es ih =>
    rw [insertEntry]
    split
    · exact mem_cons_of_mem _ he
    · split
      next heq =>
        rcases mem_cons.mp he with rfl | he
        · exact absurd heq.symm hne
        · exact mem_cons_of_mem _ he
      next =>
        rcases mem_cons.mp he with rfl | he
        · exact mem_cons_self
        · exact mem_cons_of_mem d (ih he)

theorem mem_insert_of_ne (he : e ∈ m) (hne : e.1 ≠ k) : e ∈ m.insert k v :=
  mem_insertEntry_of_ne he hne

def filter (m : OrdMap κ α) (p : κ × α → Bool) : OrdMap κ α :=
  ⟨m.entries.filter p, m.sorted.filter p⟩

theorem mem_filter : e ∈ m.filter p ↔ e ∈ m ∧ p e = true :=
  List.mem_filter

def values (m : OrdMap κ α) : List α := m.entries.map (·.2)

def last? (m : OrdMap κ α) : Option (κ × α) := m.entries.getLast?

theorem mem_of_last? (h : m.last? = some e) : e ∈ m :=
  mem_of_getLast? h

theorem le_of_last? (h : m.last? = some e) (hd : d ∈ m) : d.1 ≤ e.1 := by
  obtain ⟨es, hes⟩ := getLast?_eq_some_iff.mp h
  have hsorted := m.sorted
  rw [hes] at hsorted
  replace hd : d ∈ m.entries := hd
  rw [hes, mem_append, mem_singleton] at hd
  rcases hd with hd | rfl
  · exact ((pairwise_append.mp hsorted).2.2 d hd e (mem_singleton.mpr rfl)).le
  · exact le_rfl

theorem exists_last? (h : e ∈ m) : ∃ d, m.last? = some d :=
  Option.isSome_iff_exists.mp (getLast?_isSome.mpr (ne_nil_of_mem h))

/-- The entry with the largest key at or below `k`. -/
def floor? (m : OrdMap κ α) (k : κ) : Option (κ × α) := (m.filter fun e => e.1 ≤ k).last?

theorem exists_floor? (h : e ∈ m) (hk : e.1 ≤ k) : ∃ d, m.floor? k = some d :=
  exists_last? (mem_filter.mpr ⟨h, decide_eq_true hk⟩)

def get? (m : OrdMap κ α) (k : κ) : Option α :=
  (m.entries.find? fun e => e.1 = k).map (·.2)

theorem mem_of_get? (h : m.get? k = some v) : (k, v) ∈ m := by
  obtain ⟨e, he, rfl⟩ := Option.map_eq_some_iff.mp h
  obtain rfl : e.1 = k := by simpa using find?_some he
  exact mem_of_find?_eq_some he

theorem get?_of_mem (h : (k, v) ∈ m) : m.get? k = some v := by
  have hsorted := m.sorted
  replace h : (k, v) ∈ m.entries := h
  unfold get?
  generalize m.entries = es at h hsorted
  induction es with
  | nil => cases h
  | cons d es ih =>
    obtain ⟨hd, hes⟩ := pairwise_cons.mp hsorted
    rcases mem_cons.mp h with rfl | h
    · simp
    · rw [find?_cons_of_neg (by simpa using (hd _ h).ne)]
      exact ih h hes

theorem mem_iff_get? : (k, v) ∈ m ↔ m.get? k = some v := ⟨get?_of_mem, mem_of_get?⟩

@[simp] theorem get?_empty : (empty : OrdMap κ α).get? k = none := rfl

@[simp] theorem get?_insert_self : (m.insert k v).get? k = some v := get?_of_mem mem_insert_self

@[simp] theorem get?_insert_of_ne (h : k' ≠ k) : (m.insert k v).get? k' = m.get? k' := by
  refine Option.ext fun w => ?_
  rw [← mem_iff_get?, ← mem_iff_get?]
  constructor
  · intro hw
    rcases eq_or_mem_of_mem_insert hw with heq | hw
    · exact absurd (Prod.mk.inj heq).1 h
    · exact hw
  · exact fun hw => mem_insert_of_ne hw h

def contains (m : OrdMap κ α) (k : κ) : Bool := (m.get? k).isSome

def mapValues {β : Type} (f : α → β) (m : OrdMap κ α) : OrdMap κ β :=
  ⟨m.entries.map fun e => (e.1, f e.2), pairwise_map.mpr m.sorted⟩

@[simp] theorem get?_mapValues : (m.mapValues f).get? k = (m.get? k).map f := by
  simp only [get?, mapValues, find?_map, Option.map_map, Function.comp_def]

theorem get?_filter : (m.filter p).get? k = (m.get? k).filter fun v => p (k, v) := by
  refine Option.ext fun v => ?_
  rw [← mem_iff_get?, mem_filter, Option.filter_eq_some_iff, mem_iff_get?]

theorem get?_filter_ne (m : OrdMap κ α) (k k' : κ) :
    (m.filter (·.1 ≠ k)).get? k' = if k' = k then none else m.get? k' := by
  rw [get?_filter]
  by_cases hk : k' = k
  · rw [if_pos hk]
    cases m.get? k' <;> simp [Option.filter, hk]
  · rw [if_neg hk]
    cases m.get? k' <;> simp [Option.filter, hk]

theorem entries_filter_key (m : OrdMap κ α) (k : κ) :
    m.entries.filter (·.1 = k) = ((m.get? k).map fun v => (k, v)).toList := by
  obtain ⟨es, hsorted⟩ := m
  simp only [get?]
  induction es with
  | nil => rfl
  | cons e es ih =>
    obtain ⟨he, hes⟩ := pairwise_cons.mp hsorted
    by_cases hk : e.1 = k
    · subst hk
      have hrest : es.filter (·.1 = e.1) = [] :=
        filter_eq_nil_iff.mpr fun d hd => by simpa using (he d hd).ne'
      simp [hrest]
    · rw [filter_cons_of_neg (by simpa using hk), find?_cons_of_neg (by simpa using hk)]
      exact ih hes

theorem filter_insert_ne (m : OrdMap κ α) (k : κ) (v : α) :
    ((m.insert k v).filter (·.1 ≠ k)).entries = (m.filter (·.1 ≠ k)).entries := by
  show (insertEntry k v m.entries).filter (·.1 ≠ k) = m.entries.filter (·.1 ≠ k)
  induction m.entries with
  | nil => simp [insertEntry]
  | cons e es ih =>
    rw [insertEntry]
    split
    · rw [filter_cons_of_neg (by simp)]
    · split
      next heq => rw [filter_cons_of_neg (by simp), filter_cons_of_neg (by simp [heq])]
      next => rw [filter_cons, filter_cons, ih]

theorem sum_entries (m : OrdMap κ α) (k : κ) (f : κ × α → Nat) :
    (m.entries.map f).sum =
      ((m.get? k).map fun v => f (k, v)).getD 0 + ((m.filter (·.1 ≠ k)).entries.map f).sum := by
  have hkey : ((m.entries.filter (·.1 = k)).map f).sum =
      ((m.get? k).map fun v => f (k, v)).getD 0 := by
    rw [entries_filter_key]
    cases m.get? k <;> simp
  rw [← hkey]
  show _ = _ + ((m.entries.filter fun e => decide (e.1 ≠ k)).map f).sum
  generalize m.entries = es
  induction es with
  | nil => rfl
  | cons e es ih =>
    rw [map_cons, sum_cons, ih]
    by_cases hk : e.1 = k
    · rw [filter_cons_of_pos (by simpa using hk), filter_cons_of_neg (by simpa using hk),
        map_cons, sum_cons]
      ac_rfl
    · rw [filter_cons_of_neg (by simpa using hk), filter_cons_of_pos (by simpa using hk),
        map_cons, sum_cons]
      ac_rfl

theorem sum_insert (m : OrdMap κ α) (k : κ) (v : α) (f : κ × α → Nat) :
    ((m.insert k v).entries.map f).sum + ((m.get? k).map fun v => f (k, v)).getD 0 =
      (m.entries.map f).sum + f (k, v) := by
  rw [sum_entries (m.insert k v) k, sum_entries m k, get?_insert_self, filter_insert_ne]
  show f (k, v) + _ + _ = _
  ac_rfl

theorem length_insert_le (m : OrdMap κ α) (k : κ) (v : α) :
    (m.insert k v).entries.length ≤ m.entries.length + 1 := by
  show (insertEntry k v m.entries).length ≤ _
  induction m.entries with
  | nil => exact Nat.le_refl _
  | cons e es ih =>
    rw [insertEntry]
    split
    · exact Nat.le_refl _
    · split
      · exact Nat.le_succ _
      · exact Nat.succ_le_succ ih

end OrdMap
