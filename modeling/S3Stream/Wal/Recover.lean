import S3Stream.Wal.File
import S3Stream.Lib.OrdMap

/-! # WAL recovery

The recovery cursor over a node's WAL objects (`s3stream-wal/src/object/recover.rs`): discover the
objects, read the trim watermark off the newest header, cut the list to the continuous run past
it, then decode frame by frame. The storage does not change while a recovery runs. -/

namespace S3Stream

/-- A position in the WAL (`s3stream-wal/src/lib.rs`). -/
structure RecordOffset where
  epoch : Nat
  offset : Nat
  size : Nat
  deriving DecidableEq, Repr

structure RecoverResult where
  record : StreamRecordBatch
  recordOffset : RecordOffset
  deriving DecidableEq, Repr

def discoverWalObjects (s : Storage) (root : Key) : List WalObject :=
  skipOverlapObjects (parseWalObjects (s.list root))

/-- Return a recovery error unless `c` holds. -/
def ensure (c : Prop) [Decidable c] (message : String) : Except WalError Unit :=
  if c then .ok () else .error (.recovery message)

theorem ensure_of [Decidable c] (h : c) (message : String) : ensure c message = .ok () := if_pos h

/-- The trim watermark in the header of the newest object. -/
def getTrimOffset (s : Storage) (objects : List WalObject) : Except WalError Int :=
  match objects.getLast? with
  | none => .ok trimOffsetNone
  | some object => do
    let buffer ← (s.rangeRead object.key 0 (some (min maxWalHeaderSize object.size))).mapError
      WalError.storage
    let header ← WalObjectHeader.unmarshal buffer
    return header.trimOffset

/-- The continuous run of objects that starts with the first one past the trim offset. -/
def getContinuousFromTrimOffset (objects : List WalObject) (trimOffset : Int) : List WalObject :=
  Windows.contiguousRun WalObject.startOffset WalObject.endOffset
    (objects.dropWhile fun object => asI64 object.endOffset ≤ trimOffset)

/-- The start offset of each group of objects of one epoch, over all objects. -/
def startOffsetToEpoch (objects : List WalObject) : OrdMap Nat Nat :=
  (objects.foldl (fun (acc : OrdMap Nat Nat × Option Nat) object =>
    if acc.2 ≠ some object.epoch then
      (acc.1.insert object.startOffset object.epoch, some object.epoch)
    else acc) (OrdMap.empty, none)).1

structure RecoverIterator where
  trimOffset : Int
  /-- The objects of the run that are not prefetched yet. -/
  objects : List WalObject
  /-- What the prefetch tasks read, in order. -/
  readahead : List (Except ObjectError Bytes)
  readaheadDataSize : Nat
  /-- The rest of the object that is being decoded. -/
  data : Bytes
  startOffsetToEpoch : OrdMap Nat Nat

namespace RecoverIterator

variable (s : Storage) (maxReadaheadDataSize : Nat)

/-- Prefetch objects until the readahead window is full. -/
def readAheadFrom : List WalObject → RecoverIterator → RecoverIterator
  | [], it => { it with objects := [] }
  | object :: objects, it =>
    if it.readaheadDataSize < maxReadaheadDataSize then
      readAheadFrom objects
        { it with
          readahead := it.readahead ++ [s.rangeRead object.key 0 (some object.size)]
          readaheadDataSize := it.readaheadDataSize + object.size }
    else { it with objects := object :: objects }

def tryReadAhead (it : RecoverIterator) : RecoverIterator :=
  readAheadFrom s maxReadaheadDataSize it.objects it

def new (allObjects : List WalObject) : Except WalError RecoverIterator := do
  let trimOffset ← getTrimOffset s allObjects
  return tryReadAhead s maxReadaheadDataSize
    { trimOffset
      objects := getContinuousFromTrimOffset allObjects trimOffset
      readahead := []
      readaheadDataSize := 0
      data := []
      startOffsetToEpoch := S3Stream.startOffsetToEpoch allObjects }

def hasNext0 (it : RecoverIterator) : Bool :=
  !it.data.isEmpty || !it.readahead.isEmpty || !it.objects.isEmpty

def loadNextBuffer (it : RecoverIterator) : Except WalError RecoverIterator :=
  match it.readahead with
  | [] => .error (.recovery "no prefetched buffer")
  | .error e :: _ => .error (.storage e)
  | .ok buffer :: readahead => do
    let header ← WalObjectHeader.unmarshal buffer
    return { it with
      readahead
      readaheadDataSize := it.readaheadDataSize - buffer.length
      data := buffer.drop header.size }

def takeBody (it : RecoverIterator) (length : Nat) : Except WalError (Bytes × RecoverIterator) :=
  if length ≤ it.data.length then
    .ok (it.data.take length, { it with data := it.data.drop length })
  else if it.readahead.isEmpty && it.objects.isEmpty then
    .error (.recovery "[Bug] There is a record part but no more data to read.")
  else do
    let it' ← { it with data := [] }.loadNextBuffer
    let need := length - it.data.length
    if it'.data.length < need then
      .error (.recovery "[Bug] There is a record part but no more data to read.")
    else
      return (it.data ++ it'.data.take need, { it' with data := it'.data.drop need })

/-- The epoch of the last group of objects that starts at or below `offset`. -/
def epochAt (it : RecoverIterator) (offset : Nat) : Except WalError Nat :=
  match it.startOffsetToEpoch.floor? offset with
  | some (_, epoch) => .ok epoch
  | none => .error (.recovery "[BUG] Cannot find any epoch for offset")

def decodeFrame (it : RecoverIterator) : Except WalError (RecoverResult × RecoverIterator) := do
  ensure (walRecordHeaderSize ≤ it.data.length) "record header truncated"
  let header ← (WalRecordHeader.unmarshal (it.data.take walRecordHeaderSize)).mapError
    WalError.unmarshal
  ensure (header.magic = recordDataMagic) "Invalid magic code in record header."
  let taken ← { it with data := it.data.drop walRecordHeaderSize }.takeBody header.bodyLength
  ensure (header.bodyCrc = walCrc32 taken.1) "Record body crc check failed."
  let offset := (header.bodyOffset + 2 ^ 64 - walRecordHeaderSize) % 2 ^ 64
  let parsed ← (StreamRecordBatch.parse taken.1).mapError WalError.unmarshal
  let epoch ← taken.2.epochAt offset
  return (⟨parsed.1, epoch, offset, (header.bodyLength + walRecordHeaderSize) % 2 ^ 32⟩, taken.2)

def next0 (it : RecoverIterator) : Except WalError (RecoverResult × RecoverIterator) := do
  let it ← if it.data.isEmpty then it.loadNextBuffer else .ok it
  (tryReadAhead s maxReadaheadDataSize it).decodeFrame

/-- Records at or below the trim offset and trim records are not yielded. -/
def skips (it : RecoverIterator) (result : RecoverResult) : Bool :=
  decide (asI64 result.recordOffset.offset ≤ it.trimOffset ∨
    (result.record.streamId = trimRecordSentinel ∧ result.record.epoch = trimRecordSentinel))

/-- Everything the cursor yields; an error is the last item. Every call of `next0` that does not
end the stream consumes a frame header, so `fuel` bounds the bytes that are left. -/
def items : Nat → RecoverIterator → List (Except WalError RecoverResult)
  | 0, _ => []
  | fuel + 1, it =>
    if !it.hasNext0 then []
    else match it.next0 s maxReadaheadDataSize with
      | .error e => [.error e]
      | .ok (result, it') =>
        if it'.skips result then items fuel it' else .ok result :: items fuel it'

end RecoverIterator

def recoverStream (s : Storage) (maxReadaheadDataSize : Nat) (objects : List WalObject) :
    List (Except WalError RecoverResult) :=
  match RecoverIterator.new s maxReadaheadDataSize objects with
  | .error e => [.error e]
  | .ok it => it.items s maxReadaheadDataSize ((objects.map WalObject.size).sum + 1)

end S3Stream
