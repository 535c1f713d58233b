import S3Stream.Core.Storage
import S3Stream.Wal.Writer

/-! # The append path

The front of `S3Storage` (`s3stream-core/src/storage/s3_storage.rs`): `submit` hands a record to
`append0`, which places it in the WAL or parks it in the backoff queue; the drain task takes
parked records to the WAL in order; the WAL's confirm hook feeds the upload pipeline and the
acknowledgement of the WAL answers the request. An action is a critical section, one of the two
halves of `wal.submit` or the code between them, so a list of actions is one interleaving of the
`append0` calls, the drain task, the WAL, the upload pipeline and a shutdown. -/

namespace S3Stream

/-- Errors of the stream API (`s3stream-core/src/api/error.rs`) that appends report. -/
inductive StreamError where
  | closed (streamId : Nat)
  | wal (error : WalError)
  | unexpected (reason : String)
  deriving DecidableEq, Repr

inductive RequestPhase where
  /-- In `append0`; next is the look at the backoff queue. -/
  | entered
  /-- The queue was empty; next is `try_acquire_permit`. -/
  | permitting
  /-- Next are the checks of `wal.submit`. -/
  | submitting
  /-- The checks have passed; next is the critical section of `wal.submit`. -/
  | placing
  /-- Next is `push_back`. -/
  | requeueing
  /-- In the backoff queue. -/
  | queued
  /-- `spawn_durable_ack` waits for this acknowledgement of the WAL. -/
  | durable (pending : AckId)
  /-- `fail_request` reports this error. -/
  | failing (error : WalError)
  /-- Answered; `pending` is the acknowledgement that was waited for. -/
  | answered (pending : Option AckId) (result : Except StreamError Unit)
  deriving DecidableEq

/-- The acknowledgement of the WAL that decides the request. -/
def RequestPhase.pending? : RequestPhase → Option AckId
  | .durable id => some id
  | .answered pending _ => pending
  | _ => none

/-- `append0` has not returned. -/
def RequestPhase.InAppend0 : RequestPhase → Prop
  | .entered | .permitting | .submitting | .placing | .requeueing => True
  | _ => False

instance : ∀ phase : RequestPhase, Decidable phase.InAppend0
  | .entered | .permitting | .submitting | .placing | .requeueing => isTrue trivial
  | .queued | .durable _ | .failing _ | .answered .. => isFalse id

structure WalWriteRequest where
  record : StreamRecordBatch
  phase : RequestPhase
  deriving DecidableEq

/-- Where the drain task is in `try_drain_backoff_records`. It holds a clone of the record at the
head of the queue; `request` is the request the record was cloned from. -/
inductive DrainPhase where
  | idle
  /-- Next is the look at the head of the queue. -/
  | looping
  /-- Next is `try_acquire_permit`. -/
  | peeked (request : Nat) (record : StreamRecordBatch)
  /-- Next are the checks of `wal.submit`. -/
  | permitted (request : Nat) (record : StreamRecordBatch)
  /-- Next is the critical section of `wal.submit`. -/
  | placing (request : Nat) (record : StreamRecordBatch)
  /-- Next is `pop_front`. -/
  | popping (request : Nat) (outcome : Except WalError AckId)
  /-- The queue was empty when `pop_front` expected a request. -/
  | panicked
  deriving DecidableEq

/-- The request whose record the drain task holds. -/
def DrainPhase.request? : DrainPhase → Option Nat
  | .peeked n _ | .permitted n _ | .placing n _ | .popping n _ => some n
  | .idle | .looping | .panicked => none

/-- The state of the storage. `delivered` is how many acknowledgements of the WAL have passed the
confirm hook; `answers` is the history of answered requests. -/
structure StorageInner where
  pipeline : S3Storage
  wal : Writer
  delivered : Nat
  requests : List WalWriteRequest
  backoff : List Nat
  drain : DrainPhase
  shutdown : Bool
  answers : List (Nat × Except StreamError Unit)

namespace StorageInner

def new (config : S3StorageConfig) (walConfig : WalConfig) : StorageInner where
  pipeline := .new config
  wal := .new walConfig
  delivered := 0
  requests := []
  backoff := []
  drain := .idle
  shutdown := false
  answers := []

def setPhase (s : StorageInner) (n : Nat) (phase : RequestPhase) : StorageInner :=
  { s with requests := s.requests.modify n fun q => { q with phase } }

def tryAcquirePermit (s : StorageInner) : Bool :=
  s.pipeline.logCache.size < s.pipeline.logCache.capacity

/-! ## Fresh appends -/

/-- `Storage::submit`: a request enters `append0`. -/
def submit (s : StorageInner) (record : StreamRecordBatch) : Option StorageInner :=
  if record.InRange then some { s with requests := s.requests ++ [⟨record, .entered⟩] } else none

def appendCheck (s : StorageInner) (n : Nat) : Option StorageInner :=
  match s.requests[n]? with
  | some ⟨_, .entered⟩ =>
    -- Queue behind earlier waiting appends to keep stream order.
    some (s.setPhase n (if s.backoff = [] then .permitting else .requeueing))
  | _ => none

def appendPermit (s : StorageInner) (n : Nat) : Option StorageInner :=
  match s.requests[n]? with
  | some ⟨_, .permitting⟩ =>
    some (s.setPhase n (if s.tryAcquirePermit then .submitting else .requeueing))
  | _ => none

/-- The checks of `wal.submit`. Over capacity, `append0` also triggers an upload. -/
def appendSubmit (s : StorageInner) (n : Nat) : Option StorageInner :=
  match s.requests[n]? with
  | some ⟨record, .submitting⟩ =>
    match s.wal.submitCheck record with
    | .ok () => (s.wal.step (.submit record)).map fun wal => { s.setPhase n .placing with wal }
    | .error (.overCapacity _ _) => some (s.setPhase n .requeueing)
    | .error e => some (s.setPhase n (.failing e))
  | _ => none

/-- The critical section of `wal.submit`; `k` is where the WAL has the record among the admitted
ones. -/
def appendPlace (s : StorageInner) (n k : Nat) : Option StorageInner :=
  match s.requests[n]? with
  | some ⟨record, .placing⟩ =>
    if s.wal.admitted[k]? = some ⟨record, none⟩ then
      (s.wal.step (.place k)).map fun wal =>
        { s.setPhase n (.durable (s.wal.ackFor record)) with wal }
    else none
  | _ => none

def appendQueue (s : StorageInner) (n : Nat) : Option StorageInner :=
  match s.requests[n]? with
  | some ⟨_, .requeueing⟩ => some { s.setPhase n .queued with backoff := s.backoff ++ [n] }
  | _ => none

/-! ## The drain task -/

/-- The timer of the drain task fires. -/
def drainStart (s : StorageInner) : Option StorageInner :=
  if s.drain = .idle ∧ s.shutdown = false then some { s with drain := .looping } else none

def drainPeek (s : StorageInner) : Option StorageInner :=
  match s.drain, s.backoff with
  | .looping, [] => some { s with drain := .idle }
  | .looping, n :: _ =>
    match s.requests[n]? with
    | some q => some { s with drain := .peeked n q.record }
    | none => none
  | _, _ => none

def drainPermit (s : StorageInner) : Option StorageInner :=
  match s.drain with
  | .peeked n record =>
    some { s with drain := if s.tryAcquirePermit then .permitted n record else .idle }
  | _ => none

def drainSubmit (s : StorageInner) : Option StorageInner :=
  match s.drain with
  | .permitted n record =>
    match s.wal.submitCheck record with
    | .ok () => (s.wal.step (.submit record)).map fun wal =>
        { s with wal, drain := .placing n record }
    | .error (.overCapacity _ _) => some { s with drain := .idle }
    | .error e => some { s with drain := .popping n (.error e) }
  | _ => none

def drainPlace (s : StorageInner) (k : Nat) : Option StorageInner :=
  match s.drain with
  | .placing n record =>
    if s.wal.admitted[k]? = some ⟨record, none⟩ then
      (s.wal.step (.place k)).map fun wal =>
        { s with wal, drain := .popping n (.ok (s.wal.ackFor record)) }
    else none
  | _ => none

/-- `pop_front` and what follows: the request at the head of the queue, whichever it is now, gets
the outcome. -/
def drainPop (s : StorageInner) : Option StorageInner :=
  match s.drain, s.backoff with
  | .popping _ _, [] => some { s with drain := .panicked }
  | .popping _ (.ok id), m :: backoff =>
    some { s.setPhase m (.durable id) with backoff, drain := .looping }
  | .popping _ (.error e), m :: backoff =>
    some { s.setPhase m (.failing e) with backoff, drain := .looping }
  | _, _ => none

/-! ## Confirms and answers -/

/-- The callback loop of the WAL passes the next acknowledgement on: the confirm hook sees a
record that was confirmed, except the records of trims, before its caller does. -/
def deliver (s : StorageInner) : Option StorageInner :=
  match s.wal.acks[s.delivered]? with
  | none => none
  | some ⟨_, _, .error _⟩ => some { s with delivered := s.delivered + 1 }
  | some ⟨_, record, .ok result⟩ =>
    if record.streamId = trimRecordSentinel then some { s with delivered := s.delivered + 1 }
    else (s.pipeline.step (.confirm record result.recordOffset)).map fun pipeline =>
      { s with pipeline, delivered := s.delivered + 1 }

def answerWith (s : StorageInner) (n : Nat) (pending : Option AckId)
    (result : Except StreamError Unit) : StorageInner :=
  { s.setPhase n (.answered pending result) with answers := s.answers ++ [(n, result)] }

/-- The task of `spawn_durable_ack` or `fail_request` answers its request. -/
def answer (s : StorageInner) (n : Nat) : Option StorageInner :=
  match s.requests[n]? with
  | some ⟨_, .durable id⟩ =>
    match (s.wal.acks.take s.delivered).find? (·.id = id) with
    | none => none
    | some ⟨_, _, .ok _⟩ => some (s.answerWith n (some id) (.ok ()))
    | some ⟨_, _, .error e⟩ => some (s.answerWith n (some id) (.error (.wal e)))
  | some ⟨_, .failing e⟩ => some (s.answerWith n none (.error (.wal e)))
  | _ => none

/-! ## Shutdown -/

/-- Answer requests that were taken out of the queue. -/
def answerShutdown (s : StorageInner) : List Nat → StorageInner
  | [] => s
  | n :: ns =>
    answerShutdown (s.answerWith n none (.error (.unexpected "S3Storage is shutdown"))) ns

/-- `shutdown` drains the backoff queue; its other steps are actions of the WAL and of the
pipeline. -/
def shutdownDrain (s : StorageInner) : Option StorageInner :=
  if s.shutdown then some ({ s with backoff := [] }.answerShutdown s.backoff) else none

/-! ## The machine -/

/-- Actions of the WAL that are not a part of an append: its own and those of its trims. -/
def walOwn (w : Writer) : WalAct → Bool
  | .submit _ => false
  | .place k => w.admitted[k]?.any (·.trim.isSome)
  | _ => true

/-- Actions of the pipeline other than the confirm hook. -/
def pipelineOwn : S3Storage.Action → Bool
  | .confirm _ _ => false
  | _ => true

inductive Action where
  | submit (record : StreamRecordBatch)
  | appendCheck (n : Nat)
  | appendPermit (n : Nat)
  | appendSubmit (n : Nat)
  | appendPlace (n k : Nat)
  | appendQueue (n : Nat)
  | drainStart
  | drainPeek
  | drainPermit
  | drainSubmit
  | drainPlace (k : Nat)
  | drainPop
  | deliver
  | answer (n : Nat)
  | shutdownStart
  | shutdownDrain
  | wal (a : WalAct)
  | pipeline (a : S3Storage.Action)

def step (s : StorageInner) : Action → Option StorageInner
  | .submit record => s.submit record
  | .appendCheck n => s.appendCheck n
  | .appendPermit n => s.appendPermit n
  | .appendSubmit n => s.appendSubmit n
  | .appendPlace n k => s.appendPlace n k
  | .appendQueue n => s.appendQueue n
  | .drainStart => s.drainStart
  | .drainPeek => s.drainPeek
  | .drainPermit => s.drainPermit
  | .drainSubmit => s.drainSubmit
  | .drainPlace k => s.drainPlace k
  | .drainPop => s.drainPop
  | .deliver => s.deliver
  | .answer n => s.answer n
  | .shutdownStart => some { s with shutdown := true }
  | .shutdownDrain => s.shutdownDrain
  | .wal a => if walOwn s.wal a then (s.wal.step a).map fun wal => { s with wal } else none
  | .pipeline a =>
    if pipelineOwn a then (s.pipeline.step a).map fun pipeline => { s with pipeline } else none

end StorageInner

end S3Stream
