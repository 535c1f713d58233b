import S3Stream.Codec.Record

/-! # WAL record frames

The checksum and the 24-byte frame header in front of every record body of a WAL object
(`s3stream-codec/src/crc.rs`, `s3stream-codec/src/wal_record.rs`). -/

namespace S3Stream

open Bytes

/-! ## The checksum -/

/-- One bit of the reflected CRC-32 with polynomial `0xEDB88320`. -/
def crcStep (c : UInt32) : UInt32 :=
  if c &&& 1 = 1 then (c >>> 1) ^^^ 0xEDB88320 else c >>> 1

def crcByte (c : UInt32) (b : UInt8) : UInt32 := crcStep^[8] (c ^^^ b.toUInt32)

/-- CRC-32/ISO-HDLC, the function the `crc32fast` crate computes. -/
def crc32 (data : Bytes) : UInt32 := data.foldl crcByte 0xFFFFFFFF ^^^ 0xFFFFFFFF

/-- The WAL checksum: the CRC masked to 31 bits. -/
def walCrc32 (data : Bytes) : Nat := (crc32 data &&& 0x7FFFFFFF).toNat

theorem walCrc32_lt (data : Bytes) : walCrc32 data < 256 ^ 4 :=
  UInt32.toNat_lt _

-- The check value of the source's own test, the CRC of the digits `1` to `9`.
example : walCrc32 [0x31, 0x32, 0x33, 0x34, 0x35, 0x36, 0x37, 0x38, 0x39] = 0x4BF43926 := by
  decide +kernel

/-! ## The frame header -/

def walRecordHeaderSize : Nat := 24
def walRecordHeaderWithoutCrcSize : Nat := 20
def recordDataMagic : Nat := 0x87654321
def recordEmptyMagic : Nat := 0x76543210

structure WalRecordHeader where
  magic : Nat
  bodyLength : Nat
  /-- Logical WAL offset of the body: the frame's own offset plus 24. -/
  bodyOffset : Nat
  bodyCrc : Nat
  /-- Checksum of the preceding 20 bytes, computed by `marshal`. -/
  headerCrc : Nat
  deriving DecidableEq, Repr

namespace WalRecordHeader

/-- The header of a data record whose frame starts at logical offset `offset`. -/
def data (offset bodyLength bodyCrc : Nat) : WalRecordHeader where
  magic := recordDataMagic
  bodyLength := bodyLength
  bodyOffset := offset + walRecordHeaderSize
  bodyCrc := bodyCrc
  headerCrc := 0

/-- The 20 bytes the header checksum covers. -/
def marshalWithoutCrc (h : WalRecordHeader) : Bytes :=
  Bytes.ofNat 4 h.magic ++ (Bytes.ofNat 4 h.bodyLength ++
    (Bytes.ofNat 8 h.bodyOffset ++ Bytes.ofNat 4 h.bodyCrc))

def marshal (h : WalRecordHeader) : Bytes :=
  h.marshalWithoutCrc ++ Bytes.ofNat 4 (walCrc32 h.marshalWithoutCrc)

@[simp] theorem length_marshalWithoutCrc (h : WalRecordHeader) :
    h.marshalWithoutCrc.length = 20 := by
  simp [marshalWithoutCrc]

@[simp] theorem length_marshal (h : WalRecordHeader) : h.marshal.length = 24 := by
  simp [marshal]

/-- Parse and validate a header: length, checksum, then magic. -/
def unmarshal (buf : Bytes) : Except CodecError WalRecordHeader :=
  if buf.length < walRecordHeaderSize then
    .error (.bufferTooShort walRecordHeaderSize buf.length)
  else
    let storedCrc := Bytes.toNat (buf.field 20 4)
    let computedCrc := walCrc32 (buf.take walRecordHeaderWithoutCrcSize)
    if storedCrc ≠ computedCrc then .error (.crcMismatch storedCrc computedCrc)
    else
      let magic := Bytes.toNat (buf.field 0 4)
      if magic ≠ recordDataMagic ∧ magic ≠ recordEmptyMagic then
        .error (.invalidMagic recordDataMagic magic)
      else .ok
        { magic := magic
          bodyLength := Bytes.toNat (buf.field 4 4)
          bodyOffset := Bytes.toNat (buf.field 8 8)
          bodyCrc := Bytes.toNat (buf.field 16 4)
          headerCrc := storedCrc }

private theorem fields_marshal (h : WalRecordHeader) :
    field 0 4 h.marshal = ofNat 4 h.magic ∧
      field 4 4 h.marshal = ofNat 4 h.bodyLength ∧
      field 8 8 h.marshal = ofNat 8 h.bodyOffset ∧
      field 16 4 h.marshal = ofNat 4 h.bodyCrc := by
  simp only [marshal, marshalWithoutCrc, List.append_assoc]
  refine ⟨?_, ?_, ?_, ?_⟩ <;> simp [field_skip, field_front]

/-- **Round trip** of a data header; the stored header checksum is the only field `data` does not
fix. -/
theorem unmarshal_marshal_data (offset : Nat) (hl : length < 256 ^ 4) (hc : crc < 256 ^ 4) :
    ∃ h, unmarshal (data offset length crc).marshal = .ok h ∧ h.magic = recordDataMagic ∧
      h.bodyLength = length ∧ h.bodyOffset = (offset + 24) % 256 ^ 8 ∧ h.bodyCrc = crc := by
  obtain ⟨fm, fl, fo, fc⟩ := fields_marshal (data offset length crc)
  have hlen : ¬ (data offset length crc).marshal.length < 24 := by simp
  have hcrc : field 20 4 (data offset length crc).marshal =
      ofNat 4 (walCrc32 (data offset length crc).marshalWithoutCrc) := by
    rw [marshal, field_skip _ (by simp), length_marshalWithoutCrc]
    exact field_all (by simp)
  have hcov : (data offset length crc).marshal.take 20 =
      (data offset length crc).marshalWithoutCrc := take_front _ (by simp)
  have hmagic : toNat (ofNat 4 recordDataMagic) = recordDataMagic := by decide
  refine ⟨⟨recordDataMagic, length, (offset + 24) % 256 ^ 8, crc,
    walCrc32 (data offset length crc).marshalWithoutCrc⟩, ?_, rfl, rfl, rfl, rfl⟩
  simp only [unmarshal, walRecordHeaderSize, walRecordHeaderWithoutCrcSize, hlen, if_false, hcrc,
    hcov, toNat_ofNat_of_lt (walCrc32_lt _), ne_eq, not_true_eq_false, fm, fl, fo, fc]
  simp only [data, walRecordHeaderSize, hmagic, toNat_ofNat_of_lt hl, toNat_ofNat,
    toNat_ofNat_of_lt hc, not_true_eq_false, false_and, if_false]

theorem unmarshal_append (h : buf.length = 24) (rest : Bytes) :
    unmarshal (buf ++ rest) = unmarshal buf := by
  have htake : (buf ++ rest).take 20 = buf.take 20 := List.take_append_of_le_length (by omega)
  have hfield : ∀ {p k : Nat}, p + k ≤ 24 → (buf ++ rest).field p k = buf.field p k := by
    intro p k hpk
    exact field_append rest (by omega)
  have hlen : ¬ (buf ++ rest).length < 24 := by rw [List.length_append]; omega
  unfold unmarshal walRecordHeaderSize walRecordHeaderWithoutCrcSize
  rw [if_neg hlen, if_neg h.not_lt, htake, hfield (by omega), hfield (by omega),
    hfield (by omega), hfield (by omega), hfield (by omega)]

end WalRecordHeader

/-- Decode the record at the front of `buf`; returns the record and what follows it. -/
def decodeRecord (buf : Bytes) : Except CodecError (StreamRecordBatch × Bytes) := do
  let header ← WalRecordHeader.unmarshal buf
  if header.magic ≠ recordDataMagic then
    throw (.invalidMagic recordDataMagic header.magic)
  let total := walRecordHeaderSize + header.bodyLength
  if buf.length < total then throw (.bufferTooShort total buf.length)
  let body := (buf.take total).drop walRecordHeaderSize
  if walCrc32 body ≠ header.bodyCrc then throw (.crcMismatch header.bodyCrc (walCrc32 body))
  let (record, rest) ← StreamRecordBatch.parse body
  -- The body holds exactly one batch.
  if rest ≠ [] then
    throw (.bufferTooShort header.bodyLength (header.bodyLength - rest.length))
  return (record, buf.drop total)

/-- **Round trip** of a framed record. -/
theorem decodeRecord_frame (hr : r.InRange) (offset : Nat) (rest : Bytes) :
    decodeRecord ((WalRecordHeader.data offset r.encoded.length (walCrc32 r.encoded)).marshal ++
      (r.encoded ++ rest)) = .ok (r, rest) := by
  have hbody : r.encoded.length < 256 ^ 4 := by
    have := hr.2.2.2.2.2
    simp only [StreamRecordBatch.length_encoded]
    omega
  obtain ⟨h, hhead, hmagic, hlength, -, hcrc⟩ :=
    WalRecordHeader.unmarshal_marshal_data offset hbody (walCrc32_lt r.encoded)
  have hparse := StreamRecordBatch.parse_encoded hr []
  rw [List.append_nil] at hparse
  generalize hm : (WalRecordHeader.data offset r.encoded.length (walCrc32 r.encoded)).marshal = m
    at hhead
  have hmlen : m.length = 24 := by rw [← hm, WalRecordHeader.length_marshal]
  have htotal : ¬ (m ++ (r.encoded ++ rest)).length < 24 + r.encoded.length := by
    simp only [List.length_append]
    omega
  have hfront : (m ++ r.encoded).length = 24 + r.encoded.length := by
    rw [List.length_append, hmlen]
  have htake : ((m ++ (r.encoded ++ rest)).take (24 + r.encoded.length)).drop 24 = r.encoded := by
    rw [← List.append_assoc, take_front _ hfront, drop_front _ hmlen]
  have hdrop : (m ++ (r.encoded ++ rest)).drop (24 + r.encoded.length) = rest := by
    rw [← List.append_assoc, drop_front _ hfront]
  simp only [decodeRecord, WalRecordHeader.unmarshal_append hmlen, hhead, hmagic, hlength, hcrc,
    walRecordHeaderSize, htotal, htake, hdrop, hparse, bind, Except.bind, ne_eq,
    not_true_eq_false, if_false, pure, Except.pure]

end S3Stream
