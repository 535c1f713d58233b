import S3Stream.Core.LogCache

/-! # The delta-WAL upload pipeline

The part of `S3Storage` behind the WAL (`s3stream-core/src/storage/s3_storage.rs`): confirmed
records enter the log cache, full or forced blocks are sealed and handed to `prepare_worker`,
their uploads run concurrently, `commit_worker` commits them one at a time and trims the WAL
behind each commit. An action is a critical section, one side of an external call or the code
between two of them, so a list of actions is one interleaving of the WAL callbacks, the two
workers, the uploads, the trims, the `force_upload` callers and the commit requests. -/

namespace S3Stream

/-- The settings that the pipeline reads. -/
structure S3StorageConfig where
  walCacheSize : Nat
  walUploadThreshold : Nat
  maxStreamNumPerStreamSetObject : Nat
  snapshotReadEnable : Bool

/-- A result that is set once. -/
abbrev Completion := Option (Except String Unit)

def Completion.complete (c : Completion) (result : Except String Unit) : Completion :=
  c.or (some result)

/-- An upload task. `records` is the input the task was planned from. -/
structure TaskContext where
  cache : LogCacheBlock
  records : OrdMap Nat (List StreamRecordBatch)
  uploadDone : Completion
  cf : Completion
  trimCf : Completion
  force : Bool

/-- A new task for a sealed block. -/
def TaskContext.ofBlock (block : LogCacheBlock) (force : Bool) : TaskContext where
  cache := block
  records := block.records
  uploadDone := none
  cf := none
  trimCf := none
  force

def TaskContext.fail (reason trimReason : String) (t : TaskContext) : TaskContext :=
  { t with cf := t.cf.complete (.error reason), trimCf := t.trimCf.complete (.error trimReason) }

inductive PrepareWorker where
  | idle
  /-- Waits for `prepare` of the task. -/
  | preparing (task : Nat)
  /-- The task has failed and is still inflight. -/
  | removing (task : Nat)
  deriving DecidableEq, Repr

@[simp] def PrepareWorker.task? : PrepareWorker → Option Nat
  | .idle => none
  | .preparing k | .removing k => some k

inductive CommitWorker where
  | idle
  /-- Waits for `upload_done` of the task. -/
  | uploading (task : Nat)
  /-- Waits for `commit` of the task. -/
  | committing (task : Nat)
  /-- The commit has succeeded; next is `delay_trim`. -/
  | trimming (task : Nat)
  /-- Next is `mark_free`. -/
  | freeing (task : Nat)
  /-- Next is the completion of `cf`. -/
  | completing (task : Nat)
  /-- Next is `remove_inflight`. -/
  | removing (task : Nat)
  deriving DecidableEq, Repr

@[simp] def CommitWorker.task? : CommitWorker → Option Nat
  | .idle => none
  | .uploading k | .committing k | .trimming k | .freeing k | .completing k | .removing k =>
    some k

inductive ForcePhase where
  /-- Waits for the 100 ms batching window. -/
  | ticking
  /-- The active block is sealed if it held the stream. -/
  | sealed
  /-- Waits for the completions of these tasks, in this order. -/
  | waiting (tasks : List Nat)
  | returned (result : Except String Unit)
  deriving DecidableEq

/-- A call of `force_upload`; `before` is how many records were confirmed when it started. -/
structure ForceCall where
  stream : Nat
  before : Nat
  phase : ForcePhase

/-- A commit request of `ConfirmWal`; `before` is how many records were confirmed when it was
made. Its linger only decides when an upload is triggered for it. -/
structure LazyRequest where
  before : Nat
  awaitTrim : Bool
  commitCf : Completion
  trimCf : Completion

/-- A call of `notify_lazy_upload`. -/
inductive NotifyPhase where
  | called
  /-- Took these requests out of the queue. -/
  | drained (requests : List Nat)
  /-- Waits for the commits of `rest`, the last of the inflight `tasks`. -/
  | committing (requests tasks rest : List Nat)
  /-- Waits for the trims of `rest`. -/
  | trimming (requests rest : List Nat)
  | done
  deriving DecidableEq, Repr

/-- A record that passed through `handle_append_confirm`. `block` is the block that took it, by
its number in seal order. -/
structure ConfirmedRecord where
  record : StreamRecordBatch
  offset : RecordOffset
  block : Option Nat
  deriving DecidableEq, Repr

/-- The state of the pipeline. Tasks are numbered in the order their blocks were sealed.
`confirmed`, `failedPrepares` (the tasks whose `prepare` failed), `commits` (the tasks whose
commit succeeded, in that order) and `trims` (the offsets passed to `wal.trim`) are the history
that the results are about. -/
structure S3Storage where
  config : S3StorageConfig
  logCache : LogCache
  tasks : List TaskContext
  inflightTasks : List Nat
  prepareQueue : List Nat
  prepareWorker : PrepareWorker
  /-- Tasks whose upload runs. -/
  uploads : List Nat
  commitQueue : List Nat
  commitWorker : CommitWorker
  poisoned : Option String
  /-- Trims that wait for their delay. -/
  delayTrimQueue : List (RecordOffset × Nat)
  /-- Trims that are due. -/
  inflightTrims : List (RecordOffset × Nat)
  forceCalls : List ForceCall
  lazyRequests : List LazyRequest
  lazyUploadQueue : List Nat
  notifies : List NotifyPhase
  confirmed : List ConfirmedRecord
  failedPrepares : List Nat
  commits : List Nat
  trims : List (RecordOffset × Nat)

namespace S3Storage

def deltaWalCacheSize (config : S3StorageConfig) : Nat :=
  if config.snapshotReadEnable then max (config.walCacheSize / 3) (10 * 1024 * 1024)
  else config.walCacheSize

def new (config : S3StorageConfig) : S3Storage where
  config
  logCache :=
    let size := deltaWalCacheSize config
    .new size (max (min (size * 2 / 5) config.walUploadThreshold) 1)
      config.maxStreamNumPerStreamSetObject
  tasks := []
  inflightTasks := []
  prepareQueue := []
  prepareWorker := .idle
  uploads := []
  commitQueue := []
  commitWorker := .idle
  poisoned := none
  delayTrimQueue := []
  inflightTrims := []
  forceCalls := []
  lazyRequests := []
  lazyUploadQueue := []
  notifies := []
  confirmed := []
  failedPrepares := []
  commits := []
  trims := []

/-- Some task calls `notify_lazy_upload`. -/
def notifyLazyUpload (s : S3Storage) : S3Storage := { s with notifies := s.notifies ++ [.called] }

def modifyTask (s : S3Storage) (k : Nat) (f : TaskContext → TaskContext) : S3Storage :=
  { s with tasks := s.tasks.modify k f }

/-- The result of a task, as far as it is there. -/
def cf? (s : S3Storage) (k : Nat) : Completion := s.tasks[k]?.bind TaskContext.cf

/-- Tasks share their blocks with the cache: releasing a block empties the block of its task. -/
def releaseTasks (s : S3Storage) (released : List LogCacheBlock) : S3Storage :=
  { s with tasks := s.tasks.map fun t =>
      if t.cache.blockId ∈ released.map LogCacheBlock.blockId then
        { t with cache := t.cache.freeAndNotify }
      else t }

/-! ## Confirming and sealing -/

def submitBlockUpload (s : S3Storage) (block : LogCacheBlock) (force : Bool) : S3Storage :=
  let k := s.tasks.length
  let tasks := s.tasks ++ [.ofBlock block force]
  let inflightTasks := s.inflightTasks ++ [k]
  { s with
    tasks := if force then
        inflightTasks.foldl (fun ts j => ts.modify j fun t => { t with force := true }) tasks
      else tasks
    inflightTasks
    prepareQueue := s.prepareQueue ++ [k] }

/-- The critical section of `upload_delta_wal`. -/
def uploadDeltaWal (s : S3Storage) (streamId : Nat) (force : Bool) : S3Storage :=
  match s.logCache.archiveCurrentBlockIfContains streamId with
  | (logCache, some block) => { s with logCache }.submitBlockUpload block force
  | (_, none) => s

/-- `LogCache::put` on the cache of the pipeline. -/
def putCache (s : S3Storage) (record : StreamRecordBatch) : S3Storage × Bool :=
  let (logCache, added) := s.logCache.put record
  ({ s with logCache }.releaseTasks s.logCache.released, added)

/-- Put a record; when the active block refuses it, seal that block and try once more. -/
def putOrSeal (s : S3Storage) (record : StreamRecordBatch) : S3Storage × Bool :=
  match s.putCache record with
  | (s, true) => (s, true)
  | (s, false) => (s.uploadDeltaWal matchAllStreams false).putCache record

/-- `handle_append_confirm` up to the end of its critical section. -/
def handleAppendConfirm (s : S3Storage) (record : StreamRecordBatch) (offset : RecordOffset) :
    S3Storage :=
  let (s', added) := s.putOrSeal record
  { s' with
    logCache := s'.logCache.setLastRecordOffset offset
    confirmed := s'.confirmed ++
      [⟨record, offset, if added then some s'.tasks.length else none⟩]
    -- A sealed block is announced to the commit requests.
    notifies := if s.tasks.length < s'.tasks.length then s'.notifies ++ [.called]
      else s'.notifies }

/-- The WAL confirms records in the order of their offsets. -/
def confirm (s : S3Storage) (record : StreamRecordBatch) (offset : RecordOffset) :
    Option S3Storage :=
  if s.logCache.lastRecordOffset.all (·.offset < offset.offset) then
    some (s.handleAppendConfirm record offset)
  else none

/-! ## The workers -/

def removeInflight (s : S3Storage) (k : Nat) : S3Storage :=
  { s with inflightTasks := s.inflightTasks.filter (· ≠ k) }

def prepareRecv (s : S3Storage) : Option S3Storage :=
  match s.prepareWorker, s.prepareQueue with
  | .idle, k :: prepareQueue => some { s with prepareQueue, prepareWorker := .preparing k }
  | _, _ => none

def prepareReturn (s : S3Storage) (result : Except String Unit) : Option S3Storage :=
  match s.prepareWorker, result with
  | .preparing k, .ok () => some { s with
      prepareWorker := .idle, uploads := s.uploads ++ [k], commitQueue := s.commitQueue ++ [k] }
  | .preparing k, .error e => some { s.modifyTask k (TaskContext.fail e "prepare failed") with
      prepareWorker := .removing k, failedPrepares := s.failedPrepares ++ [k] }
  | _, _ => none

def prepareRemove (s : S3Storage) : Option S3Storage :=
  match s.prepareWorker with
  | .removing k => some { s.removeInflight k with prepareWorker := .idle }
  | _ => none

def uploadReturn (s : S3Storage) (k : Nat) (result : Except String Unit) : Option S3Storage :=
  if k ∈ s.uploads then
    some { s.modifyTask k (fun t => { t with uploadDone := t.uploadDone.complete result }) with
      uploads := s.uploads.erase k }
  else none

/-- The error branch of `commit_worker`. -/
def commitFail (s : S3Storage) (k : Nat) (reason : String) : S3Storage :=
  { s.modifyTask k (TaskContext.fail reason reason) with
    commitWorker := .removing k, poisoned := some reason }

def commitRecv (s : S3Storage) : Option S3Storage :=
  match s.commitWorker, s.commitQueue with
  | .idle, k :: commitQueue =>
    match s.poisoned with
    | some reason => some { s.modifyTask k (TaskContext.fail reason reason) with
        commitQueue, commitWorker := .removing k }
    | none => some { s with commitQueue, commitWorker := .uploading k }
  | _, _ => none

def commitUploaded (s : S3Storage) : Option S3Storage :=
  match s.commitWorker with
  | .uploading k =>
    match s.tasks[k]?.bind TaskContext.uploadDone with
    | some (.ok ()) => some { s with commitWorker := .committing k }
    | some (.error e) => some (s.commitFail k e)
    | none => none
  | _ => none

def commitReturn (s : S3Storage) (result : Except String Unit) : Option S3Storage :=
  match s.commitWorker, result with
  | .committing k, .ok () =>
    some { s with commits := s.commits ++ [k], commitWorker := .trimming k }
  | .committing k, .error e => some (s.commitFail k e)
  | _, _ => none

/-- `delay_trim`: with the snapshot cache on, the trim waits in a queue. -/
def delayTrim (s : S3Storage) (offset : RecordOffset) (k : Nat) : S3Storage :=
  if s.config.snapshotReadEnable then
    { s with delayTrimQueue := s.delayTrimQueue ++ [(offset, k)] }
  else { s with inflightTrims := s.inflightTrims ++ [(offset, k)] }

def commitTrim (s : S3Storage) : Option S3Storage :=
  match s.commitWorker with
  | .trimming k =>
    let s := { s with commitWorker := .freeing k }
    match s.tasks[k]?.bind fun t => t.cache.lastRecordOffset with
    | some offset => some (s.delayTrim offset k)
    | none => some (s.modifyTask k fun t => { t with trimCf := t.trimCf.complete (.ok ()) })
  | _ => none

def commitFree (s : S3Storage) : Option S3Storage :=
  match s.commitWorker with
  | .freeing k =>
    match s.tasks[k]? with
    | some t => some ({ s with
        logCache := s.logCache.markFree t.cache.blockId
        commitWorker := .completing k }.releaseTasks
          (s.logCache.setFree t.cache.blockId).released)
    | none => none
  | _ => none

def commitComplete (s : S3Storage) : Option S3Storage :=
  match s.commitWorker with
  | .completing k => some { s.modifyTask k (fun t => { t with cf := t.cf.complete (.ok ()) }) with
      commitWorker := .removing k }
  | _ => none

def commitRemove (s : S3Storage) : Option S3Storage :=
  match s.commitWorker with
  | .removing k => some { s.removeInflight k with commitWorker := .idle }
  | _ => none

/-! ## Trims -/

/-- A delay has passed: the front of the queue is due, whichever trim the timer belongs to. -/
def trimTimer (s : S3Storage) : Option S3Storage :=
  match s.delayTrimQueue with
  | [] => none
  | e :: delayTrimQueue =>
    some { s with delayTrimQueue, inflightTrims := s.inflightTrims ++ [e] }

/-- `delay_trim_close`: every waiting trim is due. -/
def delayTrimClose (s : S3Storage) : Option S3Storage :=
  some { s with delayTrimQueue := [], inflightTrims := s.inflightTrims ++ s.delayTrimQueue }

def trimCall (s : S3Storage) (n : Nat) : Option S3Storage :=
  match s.inflightTrims[n]? with
  | none => none
  | some e => some { s with
      inflightTrims := s.inflightTrims.eraseIdx n, trims := s.trims ++ [e] }

def trimReturn (s : S3Storage) (n : Nat) (result : Except String Unit) : Option S3Storage :=
  match s.trims[n]? with
  | none => none
  | some e => some (s.modifyTask e.2 fun t => { t with trimCf := t.trimCf.complete result })

/-! ## Forced uploads -/

def setForcePhase (s : S3Storage) (n : Nat) (phase : ForcePhase) : S3Storage :=
  { s with forceCalls := s.forceCalls.modify n fun c => { c with phase } }

def forceUpload (s : S3Storage) (streamId : Nat) : Option S3Storage :=
  some { s with forceCalls := s.forceCalls ++ [⟨streamId, s.confirmed.length, .ticking⟩] }

def forceSeal (s : S3Storage) (n : Nat) : Option S3Storage :=
  match s.forceCalls[n]? with
  | some ⟨streamId, _, .ticking⟩ =>
    some ((s.uploadDeltaWal streamId true).notifyLazyUpload.setForcePhase n .sealed)
  | _ => none

/-- The inflight tasks that hold the stream. -/
def inflightOf (s : S3Storage) (streamId : Nat) : List Nat :=
  s.inflightTasks.filter fun k => s.tasks[k]?.any (·.cache.containsStream streamId)

def forceCollect (s : S3Storage) (n : Nat) : Option S3Storage :=
  match s.forceCalls[n]? with
  | some ⟨streamId, _, .sealed⟩ => some (s.setForcePhase n (.waiting (s.inflightOf streamId)))
  | _ => none

/-- The call goes on: its first completion is there, or none is left. -/
def forceWait (s : S3Storage) (n : Nat) : Option S3Storage :=
  match s.forceCalls[n]? with
  | some ⟨_, _, .waiting []⟩ => some (s.setForcePhase n (.returned (.ok ())))
  | some ⟨_, _, .waiting (k :: ks)⟩ =>
    match s.cf? k with
    | some (.ok ()) => some (s.setForcePhase n (.waiting ks))
    | some (.error e) => some (s.setForcePhase n (.returned (.error e)))
    | none => none
  | _ => none

/-! ## Commit requests -/

def lazyUpload (s : S3Storage) (awaitTrim : Bool) : Option S3Storage :=
  some { s with
    lazyRequests := s.lazyRequests ++ [⟨s.confirmed.length, awaitTrim, none, none⟩]
    lazyUploadQueue := s.lazyUploadQueue ++ [s.lazyRequests.length] }

def setNotifyPhase (s : S3Storage) (n : Nat) (phase : NotifyPhase) : S3Storage :=
  { s with notifies := s.notifies.set n phase }

def completeRequests (s : S3Storage) (requests : List Nat) (f : LazyRequest → LazyRequest) :
    S3Storage :=
  { s with lazyRequests := s.lazyRequests.mapIdx fun i q => if i ∈ requests then f q else q }

def notifyDrain (s : S3Storage) (n : Nat) : Option S3Storage :=
  match s.notifies[n]? with
  | some .called =>
    some ({ s with lazyUploadQueue := [] }.setNotifyPhase n
      (if s.lazyUploadQueue = [] then .done else .drained s.lazyUploadQueue))
  | _ => none

def notifySnapshot (s : S3Storage) (n : Nat) : Option S3Storage :=
  match s.notifies[n]? with
  | some (.drained requests) =>
    some (s.setNotifyPhase n (.committing requests s.inflightTasks s.inflightTasks))
  | _ => none

def completeCommits (s : S3Storage) (requests : List Nat) (result : Except String Unit) :
    S3Storage :=
  s.completeRequests requests fun q => { q with commitCf := q.commitCf.complete result }

def completeTrims (s : S3Storage) (requests : List Nat) (result : Except String Unit) :
    S3Storage :=
  s.completeRequests requests fun q => { q with trimCf := q.trimCf.complete result }

def notifyCommit (s : S3Storage) (n : Nat) : Option S3Storage :=
  match s.notifies[n]? with
  | some (.committing requests tasks []) =>
    some ((s.completeCommits requests (.ok ())).setNotifyPhase n (.trimming requests tasks))
  | some (.committing requests tasks (k :: rest)) =>
    match s.cf? k with
    | some (.ok ()) => some (s.setNotifyPhase n (.committing requests tasks rest))
    | some (.error e) =>
      some ((s.completeCommits requests (.error e)).setNotifyPhase n (.trimming requests tasks))
    | none => none
  | _ => none

def notifyTrim (s : S3Storage) (n : Nat) : Option S3Storage :=
  match s.notifies[n]? with
  | some (.trimming requests []) =>
    some ((s.completeTrims requests (.ok ())).setNotifyPhase n .done)
  | some (.trimming requests (k :: rest)) =>
    match s.tasks[k]?.bind TaskContext.trimCf with
    | some (.ok ()) => some (s.setNotifyPhase n (.trimming requests rest))
    | some (.error e) => some ((s.completeTrims requests (.error e)).setNotifyPhase n .done)
    | none => none
  | _ => none

inductive Action where
  | confirm (record : StreamRecordBatch) (offset : RecordOffset)
  /-- Any caller of `upload_delta_wal`: the upload interval, a lazy commit, back pressure. -/
  | uploadDeltaWal (streamId : Nat) (force : Bool)
  | prepareRecv
  | prepareReturn (result : Except String Unit)
  | prepareRemove
  | uploadReturn (task : Nat) (result : Except String Unit)
  | commitRecv
  | commitUploaded
  | commitReturn (result : Except String Unit)
  | commitTrim
  | commitFree
  | commitComplete
  | commitRemove
  | trimTimer
  | delayTrimClose
  | trimCall (n : Nat)
  | trimReturn (n : Nat) (result : Except String Unit)
  | forceUpload (streamId : Nat)
  | forceSeal (n : Nat)
  | forceCollect (n : Nat)
  | forceWait (n : Nat)
  | lazyUpload (awaitTrim : Bool)
  | notifyDrain (n : Nat)
  | notifySnapshot (n : Nat)
  | notifyCommit (n : Nat)
  | notifyTrim (n : Nat)

def step (s : S3Storage) : Action → Option S3Storage
  | .confirm record offset => s.confirm record offset
  | .uploadDeltaWal streamId force => some (s.uploadDeltaWal streamId force).notifyLazyUpload
  | .prepareRecv => s.prepareRecv
  | .prepareReturn result => s.prepareReturn result
  | .prepareRemove => s.prepareRemove
  | .uploadReturn k result => s.uploadReturn k result
  | .commitRecv => s.commitRecv
  | .commitUploaded => s.commitUploaded
  | .commitReturn result => s.commitReturn result
  | .commitTrim => s.commitTrim
  | .commitFree => s.commitFree
  | .commitComplete => s.commitComplete
  | .commitRemove => s.commitRemove
  | .trimTimer => s.trimTimer
  | .delayTrimClose => s.delayTrimClose
  | .trimCall n => s.trimCall n
  | .trimReturn n result => s.trimReturn n result
  | .forceUpload streamId => s.forceUpload streamId
  | .forceSeal n => s.forceSeal n
  | .forceCollect n => s.forceCollect n
  | .forceWait n => s.forceWait n
  | .lazyUpload awaitTrim => s.lazyUpload awaitTrim
  | .notifyDrain n => s.notifyDrain n
  | .notifySnapshot n => s.notifySnapshot n
  | .notifyCommit n => s.notifyCommit n
  | .notifyTrim n => s.notifyTrim n

end S3Storage

end S3Stream
