import S3Stream.Object.Storage

/-! # WAL object header

The errors of the WAL crate (`s3stream-wal/src/error.rs`) and the header in front of every WAL
object (`s3stream-wal/src/object/header.rs`). -/

namespace S3Stream

open Bytes

inductive WalError where
  | overCapacity (unconfirmedBytes capBytes : Nat)
  | fenced (nodeId ourEpoch : Nat)
  | notInitialized
  | recordTooLarge (size max : Nat)
  | recovery (message : String)
  | shutdown
  | unmarshal (error : CodecError)
  | storage (error : ObjectError)
  /-- The thread panics. -/
  | panic
  deriving DecidableEq, Repr

def walHeaderMagicV0 : Nat := 0x12345678
def walHeaderSizeV0 : Nat := 40
def walHeaderMagicV1 : Nat := 0xEDCBA987
def walHeaderSizeV1 : Nat := walHeaderSizeV0 + 8
def maxWalHeaderSize : Nat := walHeaderSizeV1

/-- The trim watermark before the first trim; v0 headers always report it. -/
def trimOffsetNone : Int := -1

/-- Header of one WAL object. New objects are written v1, v0 is only read. -/
structure WalObjectHeader where
  magic : Nat
  /-- Logical WAL offset of the first record in this object. -/
  startOffset : Nat
  /-- Bytes of record data in this object. -/
  bodyLength : Nat
  stickyRecordLength : Nat
  nodeId : Nat
  epoch : Nat
  /-- Trim watermark at write time. -/
  trimOffset : Int
  deriving DecidableEq, Repr

namespace WalObjectHeader

def v1 (startOffset bodyLength nodeId epoch : Nat) (trimOffset : Int) : WalObjectHeader where
  magic := walHeaderMagicV1
  startOffset := startOffset
  bodyLength := bodyLength
  stickyRecordLength := 0
  nodeId := nodeId
  epoch := epoch
  trimOffset := trimOffset

def size (h : WalObjectHeader) : Nat :=
  if h.magic = walHeaderMagicV1 then walHeaderSizeV1 else walHeaderSizeV0

def marshal (h : WalObjectHeader) : Bytes :=
  Bytes.ofNat 4 h.magic ++ (Bytes.ofNat 8 h.startOffset ++ (Bytes.ofNat 8 h.bodyLength ++
    (Bytes.ofNat 8 h.stickyRecordLength ++ (Bytes.ofNat 4 h.nodeId ++ (Bytes.ofNat 8 h.epoch ++
      if h.magic = walHeaderMagicV1 then Bytes.ofInt 8 h.trimOffset else [])))))

/-- Parse and validate a header at the front of an object. -/
def unmarshal (buf : Bytes) : Except WalError WalObjectHeader :=
  if buf.length < 4 then
    .error (.recovery
      s!"Insufficient bytes to read magic code, Recovered: [{buf.length}] expect: [4]")
  else
    let magic := Bytes.toNat (buf.field 0 4)
    if magic ≠ walHeaderMagicV0 ∧ magic ≠ walHeaderMagicV1 then
      .error (.recovery ("WALHeader magic code not match, Recovered: [0x" ++
        String.ofList (Nat.toDigits 16 magic) ++ "]"))
    else
      let size := if magic = walHeaderMagicV0 then walHeaderSizeV0 else walHeaderSizeV1
      if buf.length < size then
        .error (.recovery
          s!"WALHeader does not have enough bytes, Recovered: [{buf.length}] expect: [{size}]")
      else .ok
        { magic := magic
          startOffset := Bytes.toNat (buf.field 4 8)
          bodyLength := Bytes.toNat (buf.field 12 8)
          stickyRecordLength := Bytes.toNat (buf.field 20 8)
          nodeId := Bytes.toNat (buf.field 28 4)
          epoch := Bytes.toNat (buf.field 32 8)
          trimOffset :=
            if magic = walHeaderMagicV1 then Bytes.toInt 8 (buf.field 40 8) else trimOffsetNone }

/-- A v1 header whose fields fit the integer types of the source. -/
structure InRange (h : WalObjectHeader) : Prop where
  magic : h.magic = walHeaderMagicV1
  startOffset : h.startOffset < 256 ^ 8
  bodyLength : h.bodyLength < 256 ^ 8
  stickyRecordLength : h.stickyRecordLength < 256 ^ 8
  nodeId : h.nodeId < 256 ^ 4
  epoch : h.epoch < 256 ^ 8
  trimOffset_ge : -(2 ^ 63) ≤ h.trimOffset
  trimOffset_lt : h.trimOffset < 2 ^ 63

theorem InRange.size_eq {h : WalObjectHeader} (hr : h.InRange) : h.size = 48 := by
  simp [size, hr.magic, walHeaderSizeV1, walHeaderSizeV0]

theorem InRange.length_marshal {h : WalObjectHeader} (hr : h.InRange) : h.marshal.length = 48 := by
  simp [marshal, hr.magic]

private theorem fields_marshal {h : WalObjectHeader} (hm : h.magic = walHeaderMagicV1)
    (rest : Bytes) :
    field 0 4 (h.marshal ++ rest) = ofNat 4 h.magic ∧
      field 4 8 (h.marshal ++ rest) = ofNat 8 h.startOffset ∧
      field 12 8 (h.marshal ++ rest) = ofNat 8 h.bodyLength ∧
      field 20 8 (h.marshal ++ rest) = ofNat 8 h.stickyRecordLength ∧
      field 28 4 (h.marshal ++ rest) = ofNat 4 h.nodeId ∧
      field 32 8 (h.marshal ++ rest) = ofNat 8 h.epoch ∧
      field 40 8 (h.marshal ++ rest) = ofInt 8 h.trimOffset := by
  simp only [marshal, hm, if_true, List.append_assoc]
  refine ⟨?_, ?_, ?_, ?_, ?_, ?_, ?_⟩ <;> simp [field_skip, field_front]

/-- **Round trip** of a v1 header in front of any data. -/
theorem unmarshal_marshal (hr : h.InRange) (rest : Bytes) :
    unmarshal (h.marshal ++ rest) = .ok h := by
  obtain ⟨fm, fs, fb, fk, fn, fe, ft⟩ := fields_marshal hr.magic rest
  have hlen : ¬ (h.marshal ++ rest).length < 4 := by simp [hr.length_marshal]; omega
  have hlen' : ¬ (h.marshal ++ rest).length < 48 := by simp [hr.length_marshal]
  have hmagic : toNat (ofNat 4 walHeaderMagicV1) = walHeaderMagicV1 := by decide
  have hne : walHeaderMagicV1 ≠ walHeaderMagicV0 := by decide
  have htrim : toInt 8 (ofInt 8 h.trimOffset) = h.trimOffset :=
    toInt_ofInt (by have := hr.trimOffset_ge; omega) (by have := hr.trimOffset_lt; omega)
  simp only [unmarshal, hlen, if_false, fm, fs, fb, fk, fn, fe, ft, hr.magic, hmagic, hne, ne_eq,
    not_false_eq_true, not_true_eq_false, and_false, if_true, walHeaderSizeV1, walHeaderSizeV0,
    hlen', toNat_ofNat_of_lt hr.startOffset, toNat_ofNat_of_lt hr.bodyLength,
    toNat_ofNat_of_lt hr.stickyRecordLength, toNat_ofNat_of_lt hr.nodeId,
    toNat_ofNat_of_lt hr.epoch, htrim]
  rw [← hr.magic]

end WalObjectHeader

end S3Stream
