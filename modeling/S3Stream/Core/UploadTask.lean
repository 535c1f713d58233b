import S3Stream.Core.Recovery
import S3Stream.Lib.JoinAll
import S3Stream.Object.RoundTrip

/-! # The upload task of a sealed block

`UploadWalTask` of `s3stream-core/src/storage/upload.rs`: the records of a block go into stream
objects and one stream set object, which are committed in one request. The objects are written side
by side (`JoinAll`); what one of them does to the storage it does when it is closed. -/

namespace S3Stream

open JoinAll

/-- The fields of `S3StorageConfig` that an upload task reads. -/
structure UploadConfig where
  streamSplitSize : Nat
  objectBlockSize : Nat
  objectPartSize : Nat

structure ObjectStreamRange where
  streamId : Nat
  epoch : Nat
  startOffset : Nat
  endOffset : Nat
  size : Nat
  deriving DecidableEq, Repr

structure StreamObject where
  objectId : Nat
  objectSize : Nat
  streamId : Nat
  startOffset : Nat
  endOffset : Nat
  attributes : ObjectAttributes
  deriving DecidableEq, Repr

structure CommitStreamSetObjectRequest where
  objectId : Nat
  objectSize : Nat
  attributes : ObjectAttributes
  streamRanges : List ObjectStreamRange
  streamObjects : List StreamObject
  compactedObjectIds : List Nat
  deriving DecidableEq, Repr

def streamSize (records : List StreamRecordBatch) : Nat :=
  (records.map StreamRecordBatch.size).sum

/-- The range of the records of a stream; `none` where the source indexes an empty list. -/
def streamRange (e : Nat × List StreamRecordBatch) : Option ObjectStreamRange :=
  match e.2.head?, e.2.getLast? with
  | some first, some last =>
    some ⟨e.1, 2 ^ 64 - 1, first.baseOffset, last.lastOffsetU64, streamSize e.2⟩
  | _, _ => none

/-! ## Writing an object -/

/-- What one of the futures of `upload` writes: the stream set object, or a stream object. -/
structure ObjectWrite where
  objectId : Nat
  writes : List (Nat × List StreamRecordBatch)

/-- What such a future returns. -/
structure WrittenObject where
  objectId : Nat
  objectSize : Nat
  ranges : List ObjectStreamRange

namespace ObjectWrite

def writer (w : ObjectWrite) (blockSize partSize : Nat) : Except ObjectError ObjectWriter :=
  (ObjectWriter.open_ w.objectId blockSize partSize).writeAll w.writes

def run (blockSize partSize : Nat) (w : ObjectWrite) (s : Storage) :
    Option (Storage × WrittenObject) := do
  let ranges ← w.writes.mapM streamRange
  let writer ← (w.writer blockSize partSize).toOption
  let (s, size) := writer.close s
  return (s, ⟨w.objectId, size, ranges⟩)

end ObjectWrite

/-- `write_stream_object` has one stream. -/
def WrittenObject.streamObjects (o : WrittenObject) : List StreamObject :=
  o.ranges.map fun r =>
    ⟨o.objectId, o.objectSize, r.streamId, r.startOffset, r.endOffset, .new 0 false false⟩

structure UploadWalTask where
  streamSetObjectMap : OrdMap Nat (List StreamRecordBatch)
  streamObjectMap : OrdMap Nat (List StreamRecordBatch)
  objectBlockSize : Nat
  objectPartSize : Nat
  preparedObjectId : Option Nat
  commitRequest : Option CommitStreamSetObjectRequest

namespace UploadWalTask

/-- Which stream goes into which kind of object. -/
def plan (config : UploadConfig) (records : OrdMap Nat (List StreamRecordBatch)) :
    UploadWalTask :=
  let maps :=
    if records.entries.length = 1 then (OrdMap.empty, records)
    else
      (records.filter fun e => streamSize e.2 < config.streamSplitSize,
        records.filter fun e => config.streamSplitSize ≤ streamSize e.2)
  { streamSetObjectMap := maps.1
    streamObjectMap := maps.2
    objectBlockSize := config.objectBlockSize
    objectPartSize := config.objectPartSize
    preparedObjectId := none
    commitRequest := none }

def objectCount (t : UploadWalTask) : Nat :=
  t.streamObjectMap.entries.length + if t.streamSetObjectMap.entries.isEmpty then 0 else 1

/-- `prepare_object` has leased `objectCount` ids, from `objectId` on. -/
def prepare (t : UploadWalTask) (objectId : Nat) : UploadWalTask :=
  { t with preparedObjectId := some objectId }

def streamSetObjectId (t : UploadWalTask) (objectId : Nat) : Nat :=
  if t.streamSetObjectMap.entries.isEmpty then noopObjectId else objectId

/-- The stream set object, unless it has the noop id, and the stream objects. -/
def objectWrites (t : UploadWalTask) (objectId : Nat) : List ObjectWrite :=
  (if t.streamSetObjectId objectId = noopObjectId then []
    else [⟨t.streamSetObjectId objectId, t.streamSetObjectMap.entries⟩]) ++
  (t.streamObjectMap.entries.zipIdx
    (if t.streamSetObjectMap.entries.isEmpty then objectId else objectId + 1)).map
      fun e => ⟨e.2, [e.1]⟩

def request (streamSetObjectId : Nat) (written : List WrittenObject) :
    CommitStreamSetObjectRequest :=
  if streamSetObjectId = noopObjectId then
    ⟨streamSetObjectId, 0, ⟨0⟩, [], written.flatMap WrittenObject.streamObjects, []⟩
  else
    match written with
    | [] => ⟨streamSetObjectId, 0, ⟨0⟩, [], [], []⟩
    | sso :: written =>
      ⟨streamSetObjectId, sso.objectSize, .new 0 false false, sso.ranges,
        written.flatMap WrittenObject.streamObjects, []⟩

/-- `upload`, with objects that are closed in the order `order`. -/
def upload (t : UploadWalTask) (s : Storage) (order : List Nat) :
    Option (Storage × UploadWalTask) := do
  let objectId ← t.preparedObjectId
  let (s, written) ← joinAll (ObjectWrite.run t.objectBlockSize t.objectPartSize)
    (t.objectWrites objectId) order s
  return (s, { t with commitRequest := some (request (t.streamSetObjectId objectId) written) })

end UploadWalTask

end S3Stream
