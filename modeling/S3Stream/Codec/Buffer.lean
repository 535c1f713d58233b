import S3Stream.Codec.WalRecord

/-! # Decoding from a buffer

`StreamRecordBatch::parse` and `decode_record` take their buffer by `&mut Bytes` and advance it past
what they read; here both return the buffer they leave behind. -/

namespace S3Stream

open Bytes List

/-- `Bytes::split_to`: the front, and the buffer behind it. -/
def splitTo (n : Nat) (buf : Bytes) : Bytes × Bytes := (buf.take n, buf.drop n)

/-- The batch with this encoded form, as its accessors read it. -/
def StreamRecordBatch.ofEncoded (encoded : Bytes) : StreamRecordBatch where
  streamId := toNat (field 1 8 encoded)
  epoch := toNat (field 9 8 encoded)
  baseOffset := toNat (field 17 8 encoded)
  count := toInt 4 (field 25 4 encoded)
  payload := encoded.drop headerSize

def StreamRecordBatch.parseMut (buf : Bytes) : Except CodecError StreamRecordBatch × Bytes :=
  if buf.length < headerSize then (.error (.bufferTooShort headerSize buf.length), buf)
  else if toNat (field 0 1 buf) ≠ magicV0 then
    (.error (.invalidMagic magicV0 (toNat (field 0 1 buf))), buf)
  else
    let payloadLen := toInt 4 (field 29 4 buf)
    if payloadLen < 0 then (.error (.bufferTooShort headerSize buf.length), buf)
    else
      let encodedSize := headerSize + payloadLen.toNat
      if buf.length < encodedSize then (.error (.bufferTooShort encodedSize buf.length), buf)
      else
        let (encoded, buf) := splitTo encodedSize buf
        (.ok (.ofEncoded encoded), buf)

def frameRecord (offset : Nat) (body : Bytes) : Bytes :=
  (WalRecordHeader.data offset body.length (walCrc32 body)).marshal ++ body

def decodeRecordMut (buf : Bytes) : Except CodecError StreamRecordBatch × Bytes :=
  match WalRecordHeader.unmarshal buf with
  | .error e => (.error e, buf)
  | .ok header =>
    if header.magic ≠ recordDataMagic then
      (.error (.invalidMagic recordDataMagic header.magic), buf)
    else
      let total := walRecordHeaderSize + header.bodyLength
      if buf.length < total then (.error (.bufferTooShort total buf.length), buf)
      else
        let body := (buf.take total).drop walRecordHeaderSize
        if walCrc32 body ≠ header.bodyCrc then
          (.error (.crcMismatch header.bodyCrc (walCrc32 body)), buf)
        else
          -- The body is parsed from a buffer of its own.
          match StreamRecordBatch.parseMut body with
          | (.error e, _) => (.error e, buf)
          | (.ok record, bodyBuf) =>
            if bodyBuf ≠ [] then
              (.error (.bufferTooShort header.bodyLength (header.bodyLength - bodyBuf.length)), buf)
            else (.ok record, (splitTo total buf).2)

/-- What is left of the buffer when the decoder returns what follows its record. -/
def onBuffer (buf : Bytes) : Except CodecError (α × Bytes) → Except CodecError α × Bytes
  | .ok (a, rest) => (.ok a, rest)
  | .error e => (.error e, buf)

theorem onBuffer_eq_error {x : Except CodecError (α × Bytes)}
    (h : onBuffer buf x = (.error e, rest)) :
    rest = buf := by
  cases x with
  | error => exact (Prod.ext_iff.mp h).2.symm
  | ok => cases h

theorem StreamRecordBatch.parseMut_eq (buf : Bytes) : parseMut buf = onBuffer buf (parse buf) := by
  have hfield : ∀ {p k n : Nat}, p + k ≤ 33 → field p k (buf.take (33 + n)) = field p k buf := by
    intro p k n h
    rw [field, field, drop_take, take_take, min_eq_left (by omega)]
  unfold parseMut parse headerSize
  split
  · rfl
  split
  · rfl
  dsimp only
  split
  · rfl
  split
  · rfl
  · simp only [onBuffer, splitTo, ofEncoded, headerSize]
    rw [hfield (by omega), hfield (by omega), hfield (by omega), hfield (by omega)]

theorem decodeRecordMut_eq (buf : Bytes) :
    decodeRecordMut buf = onBuffer buf (decodeRecord buf) := by
  unfold decodeRecordMut decodeRecord
  cases WalRecordHeader.unmarshal buf with
  | error => rfl
  | ok header =>
    simp only [bind, Except.bind]
    split
    · rfl
    split
    · rfl
    split
    · rfl
    rw [StreamRecordBatch.parseMut_eq]
    cases StreamRecordBatch.parse ((buf.take (walRecordHeaderSize + header.bodyLength)).drop
        walRecordHeaderSize) with
    | error => rfl
    | ok =>
      dsimp only [onBuffer]
      split <;> rfl

/-- **The codecs are inverse and local.** -/
theorem codecs_inverse_and_local {r : StreamRecordBatch} (hr : r.InRange) (offset : Nat)
    (trailer : Bytes) :
    StreamRecordBatch.parseMut (r.encoded ++ trailer) = (.ok r, trailer) ∧
    decodeRecordMut (frameRecord offset r.encoded ++ trailer) = (.ok r, trailer) ∧
    (∀ buf e buf', StreamRecordBatch.parseMut buf = (.error e, buf') → buf' = buf) ∧
    ∀ buf e buf', decodeRecordMut buf = (.error e, buf') → buf' = buf := by
  refine ⟨?_, ?_, fun buf e buf' h => ?_, fun buf e buf' h => ?_⟩
  · rw [StreamRecordBatch.parseMut_eq, StreamRecordBatch.parse_encoded hr, onBuffer]
  · rw [decodeRecordMut_eq, frameRecord, append_assoc, decodeRecord_frame hr, onBuffer]
  · exact onBuffer_eq_error (StreamRecordBatch.parseMut_eq buf ▸ h)
  · exact onBuffer_eq_error (decodeRecordMut_eq buf ▸ h)

theorem codecs_inverse_and_local_link :
    decodeRecordMut (frameRecord (2 ^ 64 - 1) (StreamRecordBatch.mk 7 2 500 (-5) [1, 2]).encoded ++
      [9]) = (.ok ⟨7, 2, 500, -5, [1, 2]⟩, [9]) :=
  (codecs_inverse_and_local (by decide) (2 ^ 64 - 1) [9]).2.1

end S3Stream
