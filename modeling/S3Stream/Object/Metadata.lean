import S3Stream.Object.Storage

/-! # Object metadata and keys

`s3stream-object/src/metadata.rs`: what the metadata plane says about a committed object, and the
storage key of an object id. -/

namespace S3Stream

/-- Sentinel object id and offset (`u64::MAX`). -/
def noopObjectId : Nat := 2 ^ 64 - 1

def noopOffset : Nat := 2 ^ 64 - 1

inductive S3ObjectType where
  | streamSet
  | stream
  deriving DecidableEq, Repr

/-- Packed attributes: type in bits 0 and 1, bucket in bits 2 to 17, deep-delete mark in
bit 18. -/
structure ObjectAttributes where
  value : Nat
  deriving DecidableEq, Repr

namespace ObjectAttributes

def deepDeleteMask : Nat := 2 ^ 18

def new (bucketId : Int) (composite deepDelete : Bool) : ObjectAttributes :=
  ⟨((if composite then 1 else 0) ||| (bucketId % 2 ^ 16).toNat <<< 2) |||
    (if deepDelete then deepDeleteMask else 0)⟩

def bucketId (a : ObjectAttributes) : Int := Int.bmod ((a.value >>> 2) &&& 0xFFFF : Nat) (2 ^ 16)

def isComposite (a : ObjectAttributes) : Bool := a.value &&& 0x3 == 1

end ObjectAttributes

structure StreamOffsetRange where
  streamId : Nat
  startOffset : Nat
  endOffset : Nat
  deriving DecidableEq, Repr

/-- One committed object as the metadata plane returns it. -/
structure S3ObjectMetadata where
  objectId : Nat
  objectType : S3ObjectType
  offsetRanges : List StreamOffsetRange
  objectSize : Nat
  attributes : ObjectAttributes
  committedTimestampMs : Int
  dataTimestampMs : Int
  deriving DecidableEq, Repr

/-- A number as the source's `{:08x}` prints it. -/
def hex08 (n : Nat) : List Char :=
  let digits := Nat.toDigits 16 n
  List.replicate (8 - digits.length) '0' ++ digits

def defaultObjectNamespace : List Char := "DEFAULT".toList

/-- The storage key of an object: its reversed hexadecimal id, the namespace and its id. -/
def genObjectKey (objectId : Nat) : Key :=
  (hex08 objectId).reverse ++ '/' :: (defaultObjectNamespace ++ '/' :: decimal objectId)

theorem takeWhile_reverse_genObjectKey (objectId : Nat) :
    (genObjectKey objectId).reverse.takeWhile (· ≠ '/') = (decimal objectId).reverse := by
  have hdigits : ∀ c ∈ (decimal objectId).reverse, decide (c ≠ '/') = true := by
    intro c hc
    have hdigit := isDigit_of_mem_decimal (List.mem_reverse.mp hc)
    rw [decide_eq_true_eq]
    rintro rfl
    exact absurd hdigit (by decide)
  simp only [genObjectKey, List.reverse_append, List.reverse_cons, List.append_assoc]
  rw [List.takeWhile_append_of_pos hdigits]
  simp

theorem genObjectKey_injective : Function.Injective genObjectKey := by
  intro m n h
  apply decimal_injective
  apply List.reverse_injective
  rw [← takeWhile_reverse_genObjectKey, ← takeWhile_reverse_genObjectKey, h]

def S3ObjectMetadata.key (m : S3ObjectMetadata) : Key := genObjectKey m.objectId

end S3Stream
