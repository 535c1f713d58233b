import S3Stream.Wal.RecoverFiles

/-! # The read side of the object WAL

`WalReader` of `s3stream-wal/src/object/service.rs`: a record by its offset, and a range of
records through an index of the epochs that is rebuilt from a listing when a read asks for an
epoch the index does not cover. -/

namespace S3Stream

/-- The epoch index: the start offset of the first listed object of each epoch. -/
structure ReaderIndex where
  map : OrdMap Nat Nat
  largestEpoch : Option Nat

def ReaderIndex.new : ReaderIndex := ⟨.empty, none⟩

/-- A record offset as `{:?}` prints it. -/
def RecordOffset.debug (o : RecordOffset) : String :=
  "RecordOffset \x7b epoch: " ++ toString o.epoch ++ ", offset: " ++ toString o.offset ++
    ", size: " ++ toString o.size ++ " \x7d"

namespace WalReader

variable (s : Storage) (root : Key)

def get (offset : RecordOffset) : Except WalError StreamRecordBatch := do
  let objectStart := floorAlignOffset offset.offset
  let objectPath := genObjectPathV1Aligned root offset.epoch objectStart
  let relativeStart := offset.offset - objectStart + walHeaderSizeV1
  let buf ← (s.rangeRead objectPath relativeStart (some (relativeStart + offset.size))).mapError
    WalError.storage
  let decoded ← (decodeRecord buf).mapError WalError.unmarshal
  return decoded.1

/-- Rebuild the index when it does not cover `epoch` yet. The objects are in epoch order, so the
largest epoch is the one of the last object. -/
def ensureIndex (index : ReaderIndex) (epoch : Nat) : ReaderIndex :=
  if index.largestEpoch.any (epoch ≤ ·) then index
  else
    let objects := parseWalObjects (s.list root)
    ⟨startOffsetToEpoch objects, objects.getLast?.map WalObject.epoch⟩

/-- One read of a range: the offset it starts at, the object and the position in it. -/
structure Read where
  readFrom : Nat
  objectPath : Key
  relativeStart : Nat
  deriving DecidableEq

/-- The reads of one epoch, and the offset behind them: window by window, up to the start of the
next epoch or the end of the range. `fuel` bounds the windows. -/
def epochReads (epoch epochEndOffset stop : Nat) : Nat → Nat → List Read × Nat
  | 0, nextGetOffset => ([], nextGetOffset)
  | fuel + 1, nextGetOffset =>
    if nextGetOffset < epochEndOffset ∧ nextGetOffset < stop then
      let objectStart := floorAlignOffset nextGetOffset
      let rest := epochReads epoch epochEndOffset stop fuel (objectStart + dataFileAlignSize)
      (⟨nextGetOffset, genObjectPathV1Aligned root epoch objectStart,
        nextGetOffset - objectStart + walHeaderSizeV1⟩ :: rest.1, rest.2)
    else ([], nextGetOffset)

/-- The reads of a range, epoch by epoch. The last epoch has no end. -/
def rangeReads (stop : Nat) : List (Nat × Nat) → Nat → List Read
  | [], _ => []
  | [(_, epoch)], nextGetOffset =>
    (epochReads root epoch (2 ^ 64 - 1) stop (stop / dataFileAlignSize + 1) nextGetOffset).1
  | (_, epoch) :: (next, epoch') :: entries, nextGetOffset =>
    let reads := epochReads root epoch next stop (stop / dataFileAlignSize + 1) nextGetOffset
    reads.1 ++ rangeReads stop ((next, epoch') :: entries) reads.2

def isTriggerTrimRecord (batch : StreamRecordBatch) : Bool :=
  batch.count = 0 ∧ batch.streamId = trimRecordSentinel ∧ batch.epoch = trimRecordSentinel

/-- The records of one buffer up to the end of the range. Every record takes bytes off the
buffer, so its length bounds the records. -/
def decodeRecords (stop : Nat) : Nat → Nat → Bytes → Except WalError (List StreamRecordBatch)
  | 0, _, _ => .ok []
  | fuel + 1, nextRecordOffset, buf =>
    if ¬ buf.isEmpty ∧ nextRecordOffset < stop then do
      let (batch, rest) ← (decodeRecord buf).mapError WalError.unmarshal
      let consumed := buf.length - rest.length
      let batches ← decodeRecords stop fuel (nextRecordOffset + consumed) rest
      return if isTriggerTrimRecord batch then batches else batch :: batches
    else .ok []

def readRecords (stop : Nat) (read : Read) : Except WalError (List StreamRecordBatch) := do
  let buf ← (s.rangeRead read.objectPath read.relativeStart none).mapError WalError.storage
  decodeRecords stop buf.length read.readFrom buf

/-- The records of `[start, stop)`, read through an index that covers the range. A range of keys
that ends before it starts panics. -/
def readRange (index : ReaderIndex) (start stop : RecordOffset) :
    Except WalError (List StreamRecordBatch) :=
  let message := "Cannot find epoch for [" ++ start.debug ++ ", " ++ stop.debug ++ ")"
  match index.map.floor? start.offset with
  | none => .error (.recovery message)
  | some (floorKey, _) =>
    let entries := (index.map.filter fun e => floorKey ≤ e.1 ∧ e.1 < stop.offset).entries
    if stop.offset < floorKey then .error .panic
    else if entries.isEmpty then .error (.recovery message)
    else do
      let batches ← (rangeReads root stop.offset entries start.offset).mapM
        (readRecords s stop.offset)
      return batches.flatten

/-- The records of `[start, stop)` and the index that is left behind. -/
def getRange (index : ReaderIndex) (start stop : RecordOffset) :
    Except WalError (List StreamRecordBatch) × ReaderIndex :=
  if start.offset = stop.offset then (.ok [], index)
  else
    let index := ensureIndex s root index stop.epoch
    (readRange s root index start stop, index)

end WalReader

/-! ## Reading well-formed objects -/

/-- The window of the file is one aligned block. -/
def WalFile.Aligned (f : WalFile) : Prop :=
  dataFileAlignSize ∣ f.startOffset ∧ f.endOffset = f.startOffset + dataFileAlignSize

instance (f : WalFile) : Decidable f.Aligned := by unfold WalFile.Aligned; infer_instance

theorem WalEntry.decodeRecord_frame {e : WalEntry} (hr : e.record.InRange) (rest : Bytes) :
    decodeRecord (e.frame ++ rest) = .ok (e.record, rest) := by
  exact S3Stream.decodeRecord_frame hr e.offset rest

section file

variable {s : Storage} {root : Key} {f : WalFile} {e : WalEntry}

/-- The reader computes the key of an aligned object from any offset inside its window. -/
theorem WalFile.Aligned.key_eq (h : f.Aligned) (hle : f.startOffset ≤ offset)
    (hlt : offset < f.endOffset) :
    genObjectPathV1Aligned root f.epoch (floorAlignOffset offset) = f.key root := by
  rw [floorAlignOffset_eq h.1 hle (h.2 ▸ hlt), genObjectPathV1Aligned, ← h.2]
  rfl

theorem WalReader.get_entry (hf : f.Valid) (ha : f.Aligned)
    (hs : s.lookup (f.key root) = some f.payload) (he : e ∈ f.entries) :
    WalReader.get s root ⟨f.epoch, e.offset, e.size % 2 ^ 32⟩ = .ok e.record := by
  obtain ⟨hlo, hlt, hhi⟩ := hf.bounds he
  obtain ⟨front, back, hsplit⟩ := List.append_of_mem he
  have hfloor : floorAlignOffset e.offset = f.startOffset :=
    floorAlignOffset_eq ha.1 hlo (by have := ha.2; omega)
  have hsize : e.size % 2 ^ 32 = e.size := by
    refine Nat.mod_eq_of_lt ?_
    have := ha.2
    simp only [WalEntry.stop, dataFileAlignSize] at *
    omega
  have hdecode := e.decodeRecord_frame (hf.inRange e he) []
  rw [List.append_nil] at hdecode
  have hread : s.rangeRead (f.key root) (e.offset - f.startOffset + walHeaderSizeV1)
      (some (e.offset - f.startOffset + walHeaderSizeV1 + e.size)) = .ok e.frame := by
    rw [Storage.rangeRead_of_lookup hs, hf.drop_payload hsplit, List.flatMap_cons,
      Option.getD_some, Nat.add_sub_cancel_left, Bytes.take_front _ e.length_frame]
  simp only [WalReader.get, hfloor, hsize, genObjectPathV1Aligned, ← ha.2]
  rw [show genObjectPathV1 root f.epoch f.startOffset f.endOffset = f.key root from rfl, hread]
  change ((decodeRecord e.frame).mapError WalError.unmarshal >>= fun decoded => pure decoded.1) = _
  rw [hdecode]
  rfl

end file

end S3Stream
