import S3Stream.Wal.RecoverFiles

/-! # The upload pipeline of the object WAL writer

The part of `ObjectWalWriter` (`s3stream-wal/src/object/writer.rs`) that takes a record from the
active bulk to its acknowledgement: bulks are sealed, uploaded concurrently and completed in
order by the callback loop. Every critical section and every storage round trip is one
operation; what the environment answers (the outcome of a PUT, of a lease verification) is part
of the operation. -/

namespace S3Stream

inductive OpenMode where
  | readWrite
  | recovery
  deriving DecidableEq, Repr

/-- Configuration of one WAL instance (`object/config.rs`). `nodeHash` is the hex MD5 of the node
id in the key root. -/
structure WalConfig where
  clusterId : List Char
  nodeHash : List Char
  walType : List Char
  nodeId : Nat
  epoch : Nat
  openMode : OpenMode
  maxBytesInBatch : Nat
  maxUnflushedBytes : Nat
  maxInflightUploadCount : Nat
  readaheadDataSize : Nat
  nodeId_lt : nodeId < 2 ^ 32
  epoch_lt : epoch < 2 ^ 64
  readahead_pos : 0 < readaheadDataSize

namespace WalConfig

def defaults : WalConfig where
  clusterId := []
  nodeHash := []
  walType := []
  nodeId := 0
  epoch := 0
  openMode := .readWrite
  maxBytesInBatch := 8 * 1024 * 1024
  maxUnflushedBytes := 1024 * 1024 * 1024
  maxInflightUploadCount := 50
  readaheadDataSize := 100 * 1024 * 1024
  nodeId_lt := by decide
  epoch_lt := by decide
  readahead_pos := by decide

def failover (c : WalConfig) : Bool := c.openMode = .recovery

def lease (c : WalConfig) : Lease := ⟨c.nodeId, c.epoch, c.failover, c.nodeId_lt, c.epoch_lt⟩

def root (c : WalConfig) : Key := nodePrefix c.nodeHash c.clusterId c.nodeId c.walType

/-- The key prefix without its last slash. -/
def dir (c : WalConfig) : Key := c.root.dropLast

theorem root_eq (c : WalConfig) : c.root = c.dir ++ ['/'] := by
  have hsplit : ∃ ys, c.root = ys ++ ['/'] :=
    ⟨c.nodeHash ++ ('/' :: (defaultNamespace ++ (c.clusterId ++ ('/' :: (decimal c.nodeId ++
      (if c.walType.all Char.isWhitespace then [] else '_' :: c.walType)))))),
      by simp [root, nodePrefix]⟩
  obtain ⟨ys, hys⟩ := hsplit
  rw [dir, hys, List.dropLast_concat]

end WalConfig

/-- The sender of one append's acknowledgement: the bulk that took the record and the record's
place in it. -/
abbrev AckId := Nat × Nat

structure AppendResult where
  recordOffset : RecordOffset
  nextOffset : RecordOffset
  deriving DecidableEq, Repr

structure PendingRecord where
  record : StreamRecordBatch
  size : Nat
  /-- Logical WAL offset, assigned when the payload of the bulk is built. -/
  offset : Nat
  ack : AckId
  deriving DecidableEq, Repr

/-- The accumulating, or sealed but not yet uploading, batch. -/
structure Bulk where
  seq : Nat
  baseOffset : Nat
  size : Nat
  records : List PendingRecord
  deriving DecidableEq, Repr

/-- The sender the next record of the bulk gets. -/
def Bulk.nextAck (b : Bulk) : AckId := (b.seq, b.records.length)

def Bulk.push (b : Bulk) (record : StreamRecordBatch) : Bulk :=
  { b with
    records := b.records ++ [⟨record, framedSize record, 0, b.nextAck⟩]
    size := b.size + framedSize record }

/-- A bulk handed to its upload task. `put` is the object whose PUT the task has issued and
`done` the outcome of that PUT. -/
structure UploadingBulk where
  seq : Nat
  baseOffset : Nat
  endOffsetAligned : Nat
  records : List PendingRecord
  put : Option WalFile
  done : Option Bool
  deriving DecidableEq, Repr

/-- A PUT that was issued, and whether it has taken effect. -/
structure Put where
  seq : Nat
  file : WalFile
  landed : Bool
  deriving DecidableEq, Repr

def Bulk.toUploading (b : Bulk) : UploadingBulk where
  seq := b.seq
  baseOffset := b.baseOffset
  endOffsetAligned := ceilAlignOffset (b.baseOffset + b.size)
  records := b.records
  put := none
  done := none

/-- The order of records in an object: by stream, then by base offset. -/
def RecordLe (a b : PendingRecord) : Prop :=
  a.record.streamId < b.record.streamId ∨
    a.record.streamId = b.record.streamId ∧ a.record.baseOffset ≤ b.record.baseOffset

instance : DecidableRel RecordLe := fun a b => by unfold RecordLe; infer_instance

/-- The record as it stands in the object. -/
def PendingRecord.entry (r : PendingRecord) : WalEntry := ⟨r.offset, r.record⟩

/-- Give the records consecutive offsets from `base`. -/
def assignOffsets : Nat → List PendingRecord → List PendingRecord
  | _, [] => []
  | offset, r :: rs => { r with offset } :: assignOffsets (offset + r.size) rs

/-- The object that an upload task builds; the trim watermark is read now. -/
def WalConfig.buildFile (c : WalConfig) (trimOffset : Int) (baseOffset : Nat)
    (records : List PendingRecord) : WalFile where
  nodeId := c.nodeId
  epoch := c.epoch
  startOffset := baseOffset
  endOffset := ceilAlignOffset (baseOffset + (records.map PendingRecord.size).sum)
  trimOffset := trimOffset
  entries := records.map PendingRecord.entry

/-- The bulk once its task has sorted the records, built the object and issued the PUT. -/
def UploadingBulk.issue (b : UploadingBulk) (c : WalConfig) (trimOffset : Int) : UploadingBulk :=
  let records := assignOffsets b.baseOffset (b.records.insertionSort RecordLe)
  { b with records, put := some (c.buildFile trimOffset b.baseOffset records) }

def updateBulk (bs : List UploadingBulk) (seq : Nat) (f : UploadingBulk → UploadingBulk) :
    List UploadingBulk :=
  bs.map fun b => if b.seq = seq then f b else b

/-- WAL offset of the last record of an uploaded bulk. -/
def UploadingBulk.lastRecordOffset (b : UploadingBulk) : Nat :=
  (b.records.getLast?.map PendingRecord.offset).getD b.baseOffset

/-- Where the callback loop is. -/
inductive CallbackState where
  | idle
  /-- Completed bulks were taken off the queue; the lease is not verified yet. -/
  | popped (completed : List UploadingBulk)
  /-- The lease check has returned. -/
  | verified (completed : List UploadingBulk)
  /-- The fenced flag was read as `fenced`; the bulks are completed one by one. -/
  | completing (fenced : Bool) (completed : List UploadingBulk)
  deriving DecidableEq, Repr

def CallbackState.bulks : CallbackState → List UploadingBulk
  | idle => []
  | popped bs | verified bs | completing _ bs => bs

structure Ack where
  id : AckId
  record : StreamRecordBatch
  result : Except WalError AppendResult
  deriving DecidableEq

inductive VerifyOutcome where
  | held
  | lost
  | error
  deriving DecidableEq, Repr

/-- What the environment has answered: the outcome of a PUT, the outcome of a lease check. -/
inductive WalEvent where
  | put (seq : Nat) (ok : Bool)
  | verify (outcome : VerifyOutcome)
  deriving DecidableEq, Repr

/-- The state of the pipeline. `flushed` and `failed` are the bulks the callback loop has
completed, `startOffset` is where the writer's own windows begin, `puts`, `acks` and `log` record
the PUTs issued, the acknowledgements sent and the answers received. -/
structure Pipeline where
  config : WalConfig
  startOffset : Nat
  active : Option Bulk
  bulkSeq : Nat
  /-- The bulk that was sealed last; `flush` waits for its completion signal. -/
  lastInactiveComplete : Option Nat
  waiting : List Bulk
  uploading : List UploadingBulk
  callbackQueue : Nat
  callback : CallbackState
  flushed : List UploadingBulk
  failed : List UploadingBulk
  nextOffset : Nat
  flushedOffset : Nat
  trimOffset : Int
  fenced : Bool
  puts : List Put
  acks : List Ack
  log : List WalEvent

namespace Pipeline

/-! ## Filling bulks -/

def newActiveBulk (p : Pipeline) : Pipeline :=
  { p with
    bulkSeq := p.bulkSeq + 1
    active := some ⟨p.bulkSeq + 1, p.nextOffset, 0, []⟩ }

def sealActive (p : Pipeline) : Pipeline :=
  match p.active with
  | none => p
  | some bulk =>
    { p with
      active := none
      nextOffset := ceilAlignOffset (p.nextOffset + bulk.size)
      lastInactiveComplete := some bulk.seq
      waiting := p.waiting ++ [bulk] }

/-- Make the active bulk one that has room for `size` more bytes. -/
def ensureRoom (p : Pipeline) (size : Nat) : Pipeline :=
  let p := if p.active.isNone then p.newActiveBulk else p
  if dataFileAlignSize < size + (p.active.map Bulk.size).getD 0 then p.sealActive.newActiveBulk
  else p

/-- Push a record to the active bulk, which seals it when it is full or in recovery mode. -/
def pushRecord (p : Pipeline) (record : StreamRecordBatch) : Pipeline :=
  match p.active with
  | none => p
  | some bulk =>
    let p := { p with active := some (bulk.push record) }
    if p.config.maxBytesInBatch < (bulk.push record).size || p.config.openMode = .recovery then
      p.sealActive
    else p

/-- The critical section of `submit`. -/
def place (p : Pipeline) (record : StreamRecordBatch) : Pipeline :=
  (p.ensureRoom (framedSize record)).pushRecord record

/-! ## Uploads -/

/-- Hand waiting bulks to upload tasks while the inflight limit allows it. -/
def tryUploadWaiting (p : Pipeline) : Pipeline :=
  let room := p.config.maxInflightUploadCount - p.uploading.length
  { p with
    uploading := p.uploading ++ (p.waiting.take room).map Bulk.toUploading
    waiting := p.waiting.drop room }

/-- An upload task builds its object and issues the PUT. -/
def uploadStart (p : Pipeline) (seq : Nat) : Option Pipeline :=
  match p.uploading.find? fun b => b.seq = seq ∧ b.put = none with
  | none => none
  | some b =>
    some { p with
      uploading := updateBulk p.uploading seq (·.issue p.config p.trimOffset)
      puts := p.puts ++ (b.issue p.config p.trimOffset).put.toList.map (⟨seq, ·, false⟩) }

def putLand (p : Pipeline) (seq : Nat) : Option Pipeline :=
  if p.puts.any fun q => q.seq = seq ∧ q.landed = false then
    some { p with puts := p.puts.map fun q => if q.seq = seq then { q with landed := true } else q }
  else none

/-- The bulk whose task waits for the outcome of its PUT. -/
def inFlight? (p : Pipeline) (seq : Nat) : Option UploadingBulk :=
  p.uploading.find? fun b => b.seq = seq ∧ b.put.isSome ∧ b.done = none

/-- The upload task learns the outcome of its PUT, which fences the writer if it failed. A PUT
that returned Ok has taken effect; one that failed may still take effect. -/
def putReturn (p : Pipeline) (seq : Nat) (ok : Bool) : Option Pipeline :=
  if (p.inFlight? seq).isSome ∧ (ok = true → p.puts.any fun q => q.seq = seq ∧ q.landed) then
    some { p with
      uploading := updateBulk p.uploading seq ({ · with done := some ok })
      callbackQueue := p.callbackQueue + 1
      fenced := p.fenced || !ok
      log := p.log ++ [.put seq ok] }
  else none

/-! ## The callback loop -/

def ackResult (c : WalConfig) (r : PendingRecord) (last : Bool) : AppendResult where
  recordOffset := ⟨c.epoch, r.offset, r.size % 2 ^ 32⟩
  nextOffset :=
    ⟨c.epoch, if last then ceilAlignOffset (r.offset + r.size) else r.offset + r.size, 0⟩

/-- The acknowledgements of one bulk, in record order. -/
def bulkAcks (c : WalConfig) (fenced : Bool) : List PendingRecord → List Ack
  | [] => []
  | r :: rs =>
    ⟨r.ack, r.record,
      if fenced then .error (.fenced c.nodeId c.epoch) else .ok (ackResult c r rs.isEmpty)⟩ ::
      bulkAcks c fenced rs

/-- Take the completed bulks off the front of the queue. -/
def recv (p : Pipeline) : Option Pipeline :=
  if p.callback = .idle ∧ 0 < p.callbackQueue then
    let completed := p.uploading.takeWhile (·.done.isSome)
    some { p with
      callbackQueue := p.callbackQueue - 1
      uploading := p.uploading.dropWhile (·.done.isSome)
      callback := if completed.isEmpty then .idle else .popped completed }
  else none

def verify (p : Pipeline) (outcome : VerifyOutcome) : Option Pipeline :=
  match p.callback with
  | .popped completed => some { p with
      callback := .verified completed
      fenced := p.fenced || outcome ≠ .held
      log := p.log ++ [.verify outcome] }
  | _ => none

def loadFenced (p : Pipeline) : Option Pipeline :=
  match p.callback with
  | .verified completed => some { p with callback := .completing p.fenced completed }
  | _ => none

/-- Complete the next bulk: advance `flushed_offset` unless fenced, then send the acks. -/
def completeBulk (p : Pipeline) : Option Pipeline :=
  match p.callback with
  | .completing _ [] => some { p with callback := .idle }
  | .completing true (b :: bs) => some { p with
      callback := .completing true bs
      failed := p.failed ++ [b]
      acks := p.acks ++ bulkAcks p.config true b.records }
  | .completing false (b :: bs) => some { p with
      callback := .completing false bs
      flushed := p.flushed ++ [b]
      flushedOffset := b.endOffsetAligned
      acks := p.acks ++ bulkAcks p.config false b.records }
  | _ => none

/-- The sender that `place` gives to the record. -/
def ackFor (p : Pipeline) (record : StreamRecordBatch) : AckId :=
  ((p.ensureRoom (framedSize record)).active.map Bulk.nextAck).getD (0, 0)

end Pipeline

/-! ## The pipeline as a machine -/

inductive PipeOp where
  | begin (offset : Nat)
  | fence
  | storeTrim (offset : Int)
  | place (record : StreamRecordBatch)
  | sealActive
  | tryUpload
  | uploadStart (seq : Nat)
  | putLand (seq : Nat)
  | putReturn (seq : Nat) (ok : Bool)
  | recv
  | verify (outcome : VerifyOutcome)
  | loadFenced
  | completeBulk
  deriving DecidableEq, Repr

namespace Pipeline

def new (config : WalConfig) : Pipeline where
  config := config
  startOffset := 0
  active := none
  bulkSeq := 0
  lastInactiveComplete := none
  waiting := []
  uploading := []
  callbackQueue := 0
  callback := .idle
  flushed := []
  failed := []
  nextOffset := 0
  flushedOffset := 0
  trimOffset := trimOffsetNone
  fenced := false
  puts := []
  acks := []
  log := []

/-- One operation. Offsets stay below `2 ^ 63`: the writer begins below that bound and a record
is placed only while four more windows fit. -/
def step (p : Pipeline) : PipeOp → Option Pipeline
  | .begin offset =>
    if p.bulkSeq = 0 ∧ offset < 2 ^ 63 then
      some { p with startOffset := offset, flushedOffset := offset, nextOffset := offset }
    else none
  | .fence => some { p with fenced := true }
  | .storeTrim offset =>
    if p.trimOffset < offset ∧ offset < 2 ^ 63 then some { p with trimOffset := offset } else none
  | .place record =>
    if record.InRange ∧ framedSize record ≤ dataFileAlignSize ∧
        p.nextOffset + 4 * dataFileAlignSize < 2 ^ 63 then
      some (p.place record)
    else none
  | .sealActive => some p.sealActive
  | .tryUpload => some p.tryUploadWaiting
  | .uploadStart seq => p.uploadStart seq
  | .putLand seq => p.putLand seq
  | .putReturn seq ok => p.putReturn seq ok
  | .recv => p.recv
  | .verify outcome => p.verify outcome
  | .loadFenced => p.loadFenced
  | .completeBulk => p.completeBulk

end Pipeline

end S3Stream
