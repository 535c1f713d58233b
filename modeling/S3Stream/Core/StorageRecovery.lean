import S3Stream.Core.UploadExact
import S3Stream.Lib.ChainScan

/-! # Recovering a storage

`S3Storage::recover` of `s3stream-core/src/storage/s3_storage.rs`: the records that the WAL yields
above the committed ends of the opening streams are uploaded block by block, then every opening
stream is closed, and last the WAL is reset; the future of the reset is made before the streams are
closed, but it is awaited behind them. The call is a process that can be cut in front of each of its
actions. What it works on stays: the metadata plane, the object storage and the WAL. -/

namespace S3Stream

/-- The fields of `StreamMetadata` that `recover` reads. -/
structure OpeningStream where
  streamId : Nat
  epoch : Nat
  endOffset : Nat
  deriving DecidableEq, Repr

/-- The committed ends of the streams as a map. -/
def endOffsets (streams : List OpeningStream) : OrdMap Nat Nat :=
  streams.foldl (fun m o => m.insert o.streamId o.endOffset) .empty

/-- The loop variables in front of the first block. -/
def Recovery.start (endOffsets : OrdMap Nat Nat) (wal : List RecoverResult) : Recovery where
  it := wal.map .ok
  pending := none
  next := none
  eof := false
  openingStreamEndOffsets := endOffsets
  cacheBlock := .new 0 (2 ^ 29) defaultMaxBlockStreamCount
  blockLastOffset := none

/-- Where a call of `recover` stands. -/
inductive RecoverPhase
  /-- No call runs. -/
  | idle
  /-- In front of the next block. -/
  | filling (r : Recovery)
  /-- The upload of the block is planned. -/
  | planned (r : Recovery) (records : OrdMap Nat (List StreamRecordBatch)) (task : UploadWalTask)
  /-- The ids are leased and some objects are written. -/
  | uploading (r : Recovery) (records : OrdMap Nat (List StreamRecordBatch)) (task : UploadWalTask)
      (written : List (Option WrittenObject))
  /-- The objects are written. -/
  | uploaded (r : Recovery) (records : OrdMap Nat (List StreamRecordBatch)) (task : UploadWalTask)
  /-- The streams `streams` are still to be closed. -/
  | closing (streams : List OpeningStream)
  | resetting
  | finished

/-- A recovery: the opening streams and the commits in the metadata plane, each commit with the
records that its objects were written from, the object storage, what the WAL yields, and the call
of `recover` with the streams that it has found opening. -/
structure StorageRecovery where
  opening : List OpeningStream
  commits : List (CommitStreamSetObjectRequest × OrdMap Nat (List StreamRecordBatch))
  storage : Storage
  wal : List RecoverResult
  streams : List OpeningStream
  phase : RecoverPhase

namespace StorageRecovery

inductive Action
  | start
  | nextBlock
  /-- `prepare_object` leases ids from `objectId` on. -/
  | prepare (objectId : Nat)
  /-- The object in the position `k` is closed. -/
  | write (k : Nat)
  | finishUpload
  | commit
  | closeStream
  | awaitReset
  /-- The reset takes effect. -/
  | reset
  | finish
  /-- The process dies, or one of the calls fails. -/
  | cut
  deriving DecidableEq

/-- `block_handler` up to the first call of the metadata plane. -/
def handleBlock (config : UploadConfig) (s : StorageRecovery) (r : Recovery)
    (block : LogCacheBlock) : StorageRecovery :=
  if block.size = 0 then { s with phase := .filling r }
  else { s with phase := .planned r block.records (.plan config block.records) }

/-- A pass of the loop of `recover` up to the first call of the metadata plane. -/
def nextBlock (config : UploadConfig) (s : StorageRecovery) (r : Recovery) : StorageRecovery :=
  match r.lookAhead with
  | .error _ => { s with phase := .idle }
  | .ok none => { s with phase := .closing s.streams }
  | .ok (some r) =>
    match (r.startBlock (2 ^ 29) 0).fill with
    | .error _ => { s with phase := .idle }
    | .ok r =>
      match decodeLinkRecords r.sealedBlock none with
      | .error _ => { s with phase := .idle }
      | .ok block => s.handleBlock config r block

/-- The streams of a request end where it says. -/
def advance (request : CommitStreamSetObjectRequest) (o : OpeningStream) : OpeningStream :=
  { o with endOffset :=
      ((request.ranges.find? fun r => r.1 = o.streamId).map fun r => r.2.2).getD o.endOffset }

def step (config : UploadConfig) (s : StorageRecovery) : Action → Option StorageRecovery
  | .start =>
    match s.phase with
    | .idle =>
      some { s with streams := s.opening, phase := .filling (.start (endOffsets s.opening) s.wal) }
    | _ => none
  | .nextBlock =>
    match s.phase with
    | .filling r => some (s.nextBlock config r)
    | _ => none
  | .prepare objectId =>
    match s.phase with
    | .planned r records task =>
      if objectId + task.objectCount ≤ noopObjectId then
        some { s with
          phase := .uploading r records (task.prepare objectId)
            ((task.objectWrites objectId).map fun _ => none) }
      else none
    | _ => none
  | .write k =>
    match s.phase with
    | .uploading r records task written =>
      match written[k]? with
      | some none =>
        task.preparedObjectId.bind fun objectId =>
          (JoinAll.finish (ObjectWrite.run task.objectBlockSize task.objectPartSize)
            (task.objectWrites objectId) (s.storage, written) k).map fun p =>
              { s with storage := p.1, phase := .uploading r records task p.2 }
      | _ => none
    | _ => none
  | .finishUpload =>
    match s.phase with
    | .uploading r records task written =>
      task.preparedObjectId.bind fun objectId =>
        (written.mapM id).map fun written =>
          { s with
            phase := .uploaded r records { task with
              commitRequest :=
                some (UploadWalTask.request (task.streamSetObjectId objectId) written) } }
    | _ => none
  | .commit =>
    match s.phase with
    | .uploaded r records task =>
      task.commitRequest.map fun request =>
        { s with
          commits := s.commits ++ [(request, records)]
          opening := s.opening.map (advance request)
          phase := .filling r }
    | _ => none
  | .closeStream =>
    match s.phase with
    | .closing (o :: streams) =>
      some { s with
        opening := s.opening.filter fun o' => o'.streamId ≠ o.streamId
        phase := .closing streams }
    | _ => none
  | .awaitReset =>
    match s.phase with
    | .closing [] => some { s with phase := .resetting }
    | _ => none
  | .reset =>
    match s.phase with
    | .resetting => some { s with wal := [] }
    | _ => none
  | .finish =>
    match s.phase with
    | .resetting => if s.wal.isEmpty then some { s with phase := .finished } else none
    | _ => none
  | .cut => some { s with phase := .idle }

/-- The records of a stream that are committed. -/
def committedOf (s : StorageRecovery) (streamId : Nat) : List StreamRecordBatch :=
  s.commits.flatMap fun c => (c.2.get? streamId).getD []

/-- The ranges of a stream that are committed: stream, start and end offset. -/
def rangesOf (s : StorageRecovery) (streamId : Nat) : List (Nat × Nat × Nat) :=
  s.commits.flatMap fun c => c.1.ranges.filter fun r => r.1 = streamId

/-- The records of a stream that a scan of the WAL keeps. -/
def kept (s : StorageRecovery) (streamId : Nat) : List StreamRecordBatch :=
  (scanOnce (endOffsets s.opening) (s.wal.map RecoverResult.record)).1.filter
    fun r => r.streamId = streamId

end StorageRecovery

end S3Stream
