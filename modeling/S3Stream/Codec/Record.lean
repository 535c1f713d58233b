import S3Stream.Lib.Bytes

/-! # Stream record batches

The encoded `StreamRecordBatch` (`s3stream-codec/src/record.rs`): a 33-byte header
`magic, streamId, epoch, baseOffset, count, payloadLength` and the payload. A batch is kept by
its fields; `encoded` is its wire form and `parse` reads one batch off the front of a buffer. -/

namespace S3Stream

open Bytes

/-- Errors of the wire formats (`s3stream-codec/src/error.rs`). -/
inductive CodecError where
  | invalidMagic (expected actual : Nat)
  | bufferTooShort (need have_ : Nat)
  | crcMismatch (expected computed : Nat)
  deriving DecidableEq, Repr

def i32Max : Nat := 2 ^ 31 - 1

/-- The source's cast of an unsigned integer to `i32`. -/
def asI32 (n : Nat) : Int := (n : Int).bmod (2 ^ 32)

theorem asI32_of_lt (h : n < 2 ^ 31) : asI32 n = n :=
  Int.bmod_eq_of_le_mul_two (by omega) (by omega)

theorem asI32_neg (hl : 2 ^ 31 ≤ n) (hu : n < 2 ^ 32) : asI32 n < 0 := by
  have h := Int.bmod_def n (2 ^ 32)
  unfold asI32
  omega

/-- The source's cast of an unsigned integer to `u32`. -/
def asU32 (n : Nat) : Nat := n % 2 ^ 32

theorem asU32_of_lt (h : n < 2 ^ 32) : asU32 n = n := Nat.mod_eq_of_lt h

/-- The source's cast of a `u64` to `i64`. -/
def asI64 (n : Nat) : Int := (n : Int).bmod (2 ^ 64)

theorem asI64_of_lt (h : n < 2 ^ 63) : asI64 n = n :=
  Int.bmod_eq_of_le_mul_two (by omega) (by omega)

theorem asI64_le (n : Nat) : asI64 n ≤ n := by
  by_cases h : n < 2 ^ 63
  · exact (asI64_of_lt h).le
  · have hle := @Int.bmod_le n (2 ^ 64) (by decide)
    unfold asI64
    omega

def magicV0 : Nat := 0x22

def headerSize : Nat := 33

/-- Cache accounting overhead of one batch. -/
def objectOverhead : Nat := 48

structure StreamRecordBatch where
  streamId : Nat
  epoch : Nat
  baseOffset : Nat
  /-- Number of logical records; negative marks a link record. -/
  count : Int
  payload : Bytes
  deriving DecidableEq, Repr

namespace StreamRecordBatch

/-- The fields fit the integer types of the source (`u64`, `u64`, `u64`, `i32`) and the
payload length is not negative as an `i32`. -/
def InRange (r : StreamRecordBatch) : Prop :=
  r.streamId < 256 ^ 8 ∧ r.epoch < 256 ^ 8 ∧ r.baseOffset < 256 ^ 8 ∧
    -(2 ^ 31) ≤ r.count ∧ r.count < 2 ^ 31 ∧ r.payload.length < 2 ^ 31

instance (r : StreamRecordBatch) : Decidable r.InRange := by
  unfold InRange; infer_instance

def header (r : StreamRecordBatch) : Bytes :=
  Bytes.ofNat 1 magicV0 ++ (Bytes.ofNat 8 r.streamId ++ (Bytes.ofNat 8 r.epoch ++
    (Bytes.ofNat 8 r.baseOffset ++ (Bytes.ofInt 4 r.count ++ Bytes.ofNat 4 r.payload.length))))

/-- The full encoded form, header and payload. -/
def encoded (r : StreamRecordBatch) : Bytes := r.header ++ r.payload

@[simp] theorem length_header (r : StreamRecordBatch) : r.header.length = 33 := by
  simp [header]

@[simp] theorem length_encoded (r : StreamRecordBatch) :
    r.encoded.length = 33 + r.payload.length := by
  simp [encoded]

/-- The end of the range of the record: a link record (`count ≤ 0`) spans `-count` offsets. -/
def lastOffset (r : StreamRecordBatch) : Nat :=
  if 0 < r.count then r.baseOffset + r.count.toNat else r.baseOffset + (-r.count).toNat

/-- What `last_offset` returns, which wraps at `2 ^ 64`. -/
def lastOffsetU64 (r : StreamRecordBatch) : Nat := r.lastOffset % 2 ^ 64

theorem baseOffset_le_lastOffset (r : StreamRecordBatch) : r.baseOffset ≤ r.lastOffset := by
  unfold lastOffset
  split <;> exact Nat.le_add_right _ _

def size (r : StreamRecordBatch) : Nat := r.payload.length

/-- In-memory footprint used for cache accounting. -/
def occupiedSize (r : StreamRecordBatch) : Nat := r.size + objectOverhead

/-- Read one batch off the front of `buf`; returns the batch and what follows it. -/
def parse (buf : Bytes) : Except CodecError (StreamRecordBatch × Bytes) :=
  if buf.length < headerSize then .error (.bufferTooShort headerSize buf.length)
  else if Bytes.toNat (buf.field 0 1) ≠ magicV0 then
    .error (.invalidMagic magicV0 (Bytes.toNat (buf.field 0 1)))
  else
    let payloadLen := Bytes.toInt 4 (buf.field 29 4)
    if payloadLen < 0 then .error (.bufferTooShort headerSize buf.length)
    else
      let encodedSize := headerSize + payloadLen.toNat
      if buf.length < encodedSize then .error (.bufferTooShort encodedSize buf.length)
      else .ok
        ({ streamId := Bytes.toNat (buf.field 1 8)
           epoch := Bytes.toNat (buf.field 9 8)
           baseOffset := Bytes.toNat (buf.field 17 8)
           count := Bytes.toInt 4 (buf.field 25 4)
           payload := (buf.take encodedSize).drop headerSize }, buf.drop encodedSize)

private theorem toInt_ofNat_small (h : n < 2 ^ 31) : toInt 4 (ofNat 4 n) = n := by
  rw [toInt, toNat_ofNat_of_lt (by omega)]
  exact Int.bmod_eq_of_le_mul_two (by omega) (by omega)

private theorem fields_encoded (r : StreamRecordBatch) (rest : Bytes) :
    field 0 1 (r.encoded ++ rest) = ofNat 1 magicV0 ∧
      field 1 8 (r.encoded ++ rest) = ofNat 8 r.streamId ∧
      field 9 8 (r.encoded ++ rest) = ofNat 8 r.epoch ∧
      field 17 8 (r.encoded ++ rest) = ofNat 8 r.baseOffset ∧
      field 25 4 (r.encoded ++ rest) = ofInt 4 r.count ∧
      field 29 4 (r.encoded ++ rest) = ofNat 4 r.payload.length := by
  simp only [encoded, header, List.append_assoc]
  refine ⟨?_, ?_, ?_, ?_, ?_, ?_⟩ <;> simp [field_skip, field_front]

/-- **Round trip**: parsing an encoded batch gives the batch back and leaves the trailer. -/
theorem parse_encoded (h : r.InRange) (rest : Bytes) :
    parse (r.encoded ++ rest) = .ok (r, rest) := by
  obtain ⟨hs, he, hb, hcl, hcu, hp⟩ := h
  obtain ⟨fm, fs, fe, fb, fc, fp⟩ := fields_encoded r rest
  have hmagic : toNat (ofNat 1 magicV0) = magicV0 := by decide
  have hfits : ¬ (r.encoded ++ rest).length < 33 := by simp; omega
  have hsize : ¬ (r.encoded ++ rest).length < 33 + r.payload.length := by simp
  have hcount : toInt 4 (ofInt 4 r.count) = r.count := toInt_ofInt (by omega) (by omega)
  have hpayload : ((r.encoded ++ rest).take (33 + r.payload.length)).drop 33 = r.payload := by
    rw [take_front _ (length_encoded r), encoded, drop_front _ (length_header r)]
  have hlen : ¬ ((r.payload.length : Int) < 0) := by omega
  simp only [parse, headerSize, hfits, fm, hmagic, fs, fe, fb, fc, fp, toInt_ofNat_small hp, hlen,
    ne_eq, not_true_eq_false, if_false, Int.toNat_natCast, hsize, hcount, hpayload,
    toNat_ofNat_of_lt hs, toNat_ofNat_of_lt he, toNat_ofNat_of_lt hb,
    drop_front _ (length_encoded r)]

/-- A payload whose length is negative as an `i32` is not read back. -/
theorem parse_encoded_of_le {r : StreamRecordBatch} (hl : 2 ^ 31 ≤ r.payload.length)
    (hu : r.payload.length < 2 ^ 32) (rest : Bytes) :
    ∃ e, parse (r.encoded ++ rest) = .error e := by
  obtain ⟨fm, -, -, -, -, fp⟩ := fields_encoded r rest
  have hneg : toInt 4 (ofNat 4 r.payload.length) < 0 := by
    rw [toInt, toNat_ofNat_of_lt (by omega)]
    exact asI32_neg hl hu
  have hmagic : toNat (ofNat 1 magicV0) = magicV0 := by decide
  have hfits : ¬(r.encoded ++ rest).length < headerSize := by simp [headerSize]; omega
  rw [parse, if_neg hfits, fm, if_neg (not_not.mpr hmagic), fp]
  exact ⟨_, if_pos hneg⟩

end StreamRecordBatch

end S3Stream
