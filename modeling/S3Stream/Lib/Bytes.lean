import Mathlib.Tactic

/-! # Big-endian wire integers

Fixed-width big-endian encodings of naturals, and the two's complement reading of signed
fields. Every layout in this development is a concatenation of such fields, so a field is read
back with `List.take`/`List.drop` at its position. -/

abbrev Bytes := List UInt8

namespace Bytes

open List

/-- The `k` low bytes of `n`, most significant first. -/
def ofNat : Nat → Nat → Bytes
  | 0, _ => []
  | k + 1, n => UInt8.ofNat (n / 256 ^ k) :: ofNat k n

/-- The natural number a byte string spells, most significant byte first. -/
def toNat (bs : Bytes) : Nat := bs.foldl (fun acc b => acc * 256 + b.toNat) 0

@[simp] theorem length_ofNat (k n : Nat) : (ofNat k n).length = k := by
  induction k with
  | zero => rfl
  | succ k ih => simp [ofNat, ih]

private theorem foldl_ofNat (k n acc : Nat) :
    (ofNat k n).foldl (fun acc b => acc * 256 + b.toNat) acc = acc * 256 ^ k + n % 256 ^ k := by
  induction k generalizing acc with
  | zero => simp [ofNat, Nat.mod_one]
  | succ k ih =>
    have hdigit : (UInt8.ofNat (n / 256 ^ k)).toNat = n / 256 ^ k % 256 := by
      simp [UInt8.toNat_ofNat']
    have hsplit : n % 256 ^ (k + 1) = n % 256 ^ k + 256 ^ k * (n / 256 ^ k % 256) := by
      rw [pow_succ, Nat.mod_mul]
    rw [ofNat, foldl_cons, ih, hdigit, hsplit]
    ring

/-- Reading a field back gives its value modulo the field's width. -/
theorem toNat_ofNat (k n : Nat) : toNat (ofNat k n) = n % 256 ^ k := by
  simp [toNat, foldl_ofNat]

theorem toNat_ofNat_of_lt (h : n < 256 ^ k) : toNat (ofNat k n) = n := by
  rw [toNat_ofNat, Nat.mod_eq_of_lt h]

theorem ofNat_inj (hm : m < 256 ^ k) (hn : n < 256 ^ k) (h : ofNat k m = ofNat k n) : m = n := by
  rw [← toNat_ofNat_of_lt hm, ← toNat_ofNat_of_lt hn, h]

/-- The two's complement representation of a signed value in `k` bytes. -/
def ofInt (k : Nat) (x : Int) : Bytes := ofNat k (x % (256 ^ k : Nat)).toNat

/-- The signed value of a field in two's complement. -/
def toInt (k : Nat) (bs : Bytes) : Int := (toNat bs : Int).bmod (256 ^ k)

@[simp] theorem length_ofInt (k : Nat) (x : Int) : (ofInt k x).length = k := length_ofNat ..

theorem toInt_ofInt {x : Int} (hl : -(256 ^ k : Nat) ≤ x * 2) (hu : x * 2 < (256 ^ k : Nat)) :
    toInt k (ofInt k x) = x := by
  have hpos : (0 : Int) < (256 ^ k : Nat) := by positivity
  have hnonneg := Int.emod_nonneg x hpos.ne'
  have hread : ((toNat (ofInt k x) : Nat) : Int) = x % (256 ^ k : Nat) := by
    rw [ofInt, toNat_ofNat_of_lt (by omega), Int.toNat_of_nonneg hnonneg]
  rw [toInt, hread, Int.emod_bmod, Int.bmod_eq_of_le_mul_two hl hu]

/-- The `k` bytes at position `p` of a buffer. -/
def field (p k : Nat) (buf : Bytes) : Bytes := (buf.drop p).take k

theorem field_front (rest : Bytes) (h : f.length = k) : field 0 k (f ++ rest) = f := by
  rw [field, drop_zero, ← h, take_left]

theorem field_skip (rest : Bytes) (h : f.length ≤ p) :
    field p k (f ++ rest) = field (p - f.length) k rest := by
  rw [field, drop_append, drop_eq_nil_of_le h, nil_append, field]

theorem field_append (rest : Bytes) (h : p + k ≤ f.length) :
    field p k (f ++ rest) = field p k f := by
  rw [field, field, drop_append_of_le_length (by omega),
    take_append_of_le_length (by rw [length_drop]; omega)]

theorem field_all (h : f.length = k) : field 0 k f = f := by
  rw [field, drop_zero, ← h, take_length]

theorem field_field (h : q + n ≤ k) : field q n (field p k data) = field (p + q) n data := by
  rw [field, field, field, drop_take, take_take, drop_drop, min_eq_left (by omega)]

theorem length_field (h : p + k ≤ data.length) : (field p k data).length = k := by
  rw [field, length_take, length_drop]
  omega

theorem field_append_field (data : Bytes) (p k n : Nat) :
    field p k data ++ field (p + k) n data = field p (k + n) data := by
  rw [field, field, field, ← drop_drop, ← take_add]

theorem take_front (rest : Bytes) (h : f.length = k) : (f ++ rest).take k = f := by
  rw [← h, take_left]

theorem drop_front (rest : Bytes) (h : f.length = k) : (f ++ rest).drop k = rest := by
  rw [← h, drop_left]

/-- Where a buffer of two parts is cut: inside the first one, or behind it. -/
theorem cut_append {cut rest a b : Bytes} (h : cut ++ rest = a ++ b) :
    (∃ tail, tail ≠ [] ∧ cut ++ tail = a) ∨ ∃ cut', cut = a ++ cut' ∧ cut' ++ rest = b := by
  rcases append_eq_append_iff.mp h with ⟨tail, ha, hrest⟩ | ⟨cut', hcut, hb⟩
  · by_cases htail : tail = []
    · subst htail
      exact .inr ⟨[], by simpa using ha.symm, hrest⟩
    · exact .inl ⟨tail, htail, ha.symm⟩
  · exact .inr ⟨cut', hcut, hb.symm⟩

theorem drop_flatMap {f : α → Bytes} {xs : List α} (h : ∀ x ∈ xs, (f x).length = k) (i : Nat) :
    (xs.flatMap f).drop (i * k) = (xs.drop i).flatMap f := by
  induction i generalizing xs with
  | zero => simp
  | succ i ih =>
    cases xs with
    | nil => simp
    | cons x xs =>
      have hx := h x mem_cons_self
      rw [flatMap_cons, drop_succ_cons, Nat.succ_mul, add_comm, ← drop_drop,
        drop_front _ hx, ih fun y hy => h y (mem_cons_of_mem x hy)]

theorem length_flatMap {f : α → List β} {xs : List α} (h : ∀ x ∈ xs, (f x).length = k) :
    (xs.flatMap f).length = xs.length * k := by
  induction xs with
  | nil => simp
  | cons x xs ih =>
    rw [flatMap_cons, length_append, h x mem_cons_self,
      ih fun y hy => h y (mem_cons_of_mem x hy), length_cons, Nat.succ_mul, add_comm]

end Bytes
