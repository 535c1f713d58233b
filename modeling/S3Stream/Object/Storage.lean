import S3Stream.Codec.WalRecord

/-! # Object storage

The part of `s3stream-object/src/storage.rs` that the layers above rely on: a map from keys to
whole objects with atomic writes, idempotent deletes and clamped range reads. Keys are lists of
characters, so that building and parsing them is ordinary list recursion. -/

namespace S3Stream

open List

abbrev Key := List Char

/-- A number as the source's `format!` prints it. -/
def decimal (n : Nat) : List Char := Nat.toDigits 10 n

theorem decimal_injective : Function.Injective decimal := by
  intro m n h
  rw [← Nat.ofDigitChars_ten_toDigits (n := m), ← Nat.ofDigitChars_ten_toDigits (n := n)]
  exact congrArg _ h

theorem isDigit_of_mem_decimal (h : c ∈ decimal n) : c.isDigit :=
  Nat.isDigit_of_mem_toDigits (by decide) (by decide) h

theorem decimal_ne_nil (n : Nat) : decimal n ≠ [] := Nat.toDigits_ne_nil

/-- Errors of object formats and of the storage (`s3stream-object/src/error.rs`). -/
inductive ObjectError where
  | codec (error : CodecError)
  | notFound (key : Key)
  | invalidFormat (reason : String)
  | orderingViolation (reason : String)
  | backend
  deriving DecidableEq, Repr

theorem bind_eq_ok {x : Except ε α} {f : α → Except ε β} {b : β} (h : x.bind f = .ok b) :
    ∃ a, x = .ok a ∧ f a = .ok b := by
  cases x with
  | error e => cases h
  | ok a => exact ⟨a, rfl, h⟩

/-- One entry of a listing. -/
structure ObjectInfo where
  key : Key
  size : Nat
  deriving DecidableEq, Repr

/-- The objects of a bucket; a key's object is its first entry. -/
abbrev Storage := List (Key × Bytes)

namespace Storage

/-- Read `[start, stop)` of an object; `none` reads to its end. -/
def rangeRead (s : Storage) (key : Key) (start : Nat) (stop : Option Nat) :
    Except ObjectError Bytes :=
  match s.lookup key with
  | none => .error (.notFound key)
  | some data => .ok (data.field (min start data.length) (stop.getD data.length - start))

def write (s : Storage) (key : Key) (data : Bytes) : Storage :=
  (key, data) :: s.filter (·.1 ≠ key)

def delete (s : Storage) (key : Key) : Storage := s.filter (·.1 ≠ key)

def list (s : Storage) (root : Key) : List ObjectInfo :=
  (s.filter (root.isPrefixOf ·.1)).map fun o => ⟨o.1, o.2.length⟩

private theorem lookup_filter_ne {s : Storage} (h : k ≠ key) :
    (s.filter (·.1 ≠ key)).lookup k = s.lookup k := by
  induction s with
  | nil => rfl
  | cons o s ih =>
    obtain ⟨ko, d⟩ := o
    by_cases ho : ko = key
    · have hk : (k == ko) = false := by simpa [ho] using h
      rw [filter_cons_of_neg (by simpa using ho), ih, lookup_cons, hk]
    · rw [filter_cons_of_pos (by simpa using ho), lookup_cons, lookup_cons, ih]

theorem lookup_write (s : Storage) (key k : Key) (data : Bytes) :
    (s.write key data).lookup k = if k = key then some data else s.lookup k := by
  by_cases h : k = key
  · simp [write, h]
  · have hk : (k == key) = false := by simpa using h
    rw [write, lookup_cons, hk, if_neg h]
    exact lookup_filter_ne h

theorem lookup_delete {s : Storage} (h : k ≠ key) : (s.delete key).lookup k = s.lookup k :=
  lookup_filter_ne h

theorem rangeRead_of_lookup {s : Storage} (h : s.lookup key = some data) (start : Nat)
    (stop : Option Nat) : s.rangeRead key start stop =
      .ok ((data.drop start).take (stop.getD data.length - start)) := by
  have hdrop : data.drop (min start data.length) = data.drop start := by
    rcases le_total start data.length with hle | hge
    · rw [min_eq_left hle]
    · rw [min_eq_right hge, drop_length, drop_eq_nil_of_le hge]
  simp only [rangeRead, h, Bytes.field, hdrop]

theorem rangeRead_whole {s : Storage} (h : s.lookup key = some data) (hn : data.length ≤ n) :
    s.rangeRead key 0 (some n) = .ok data := by
  simp [rangeRead, h, Bytes.field, take_of_length_le hn]

end Storage

end S3Stream
