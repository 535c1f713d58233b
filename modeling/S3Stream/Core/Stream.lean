import S3Stream.Core.Append

/-! # Streams over the storage

The façade `S3Stream` (`s3stream-core/src/stream.rs`) of each open stream: an append reserves its
offsets and submits its record under the append lock, and advances the confirm offset when it is
acknowledged; a close waits for the pending appends, forces the upload and closes the stream in
the metadata plane. An action is a critical section or the code between two waits. Streams in
snapshot-read mode, which neither append nor close anything, are not modelled. -/

namespace S3Stream

/-- The state of an open stream; `openedAt` is the committed end it was opened at. -/
structure StreamFacade where
  streamId : Nat
  epoch : Nat
  openedAt : Nat
  nextOffset : Nat
  confirmOffset : Nat
  closed : Bool
  fenced : Bool
  closeResult : Option (Except String Unit)
  deriving DecidableEq

namespace StreamFacade

def new (streamId epoch nextOffset : Nat) : StreamFacade where
  streamId
  epoch
  openedAt := nextOffset
  nextOffset
  confirmOffset := nextOffset
  closed := false
  fenced := false
  closeResult := none

def isOperable (st : StreamFacade) : Bool := !st.closed && !st.fenced

def record (st : StreamFacade) (count : Nat) (payload : Bytes) : StreamRecordBatch where
  streamId := st.streamId
  epoch := st.epoch
  baseOffset := st.nextOffset
  count := asI32 count
  payload

def completeAppend (st : StreamFacade) (offset count : Nat) :
    Except StreamError Unit → StreamFacade × Except StreamError Nat
  | .ok () => ({ st with confirmOffset := max st.confirmOffset (offset + count) }, .ok offset)
  | .error e => ({ st with fenced := true }, .error e)

end StreamFacade

/-- Where a call of `append` or `submit_append` is. -/
inductive AppendPhase where
  /-- Counted in `pending_appends`; next is the check of the status. -/
  | begun
  /-- The stream was operable; next is the append lock. -/
  | operable
  /-- Submitted to the storage. -/
  | waiting (request offset count : Nat)
  | done (result : Except StreamError Nat)
  /-- The caller of `append` has dropped its future, and with it the guard that counts the call. -/
  | dropped (request : Nat)
  deriving DecidableEq

structure AppendCall where
  stream : Nat
  phase : AppendPhase
  deriving DecidableEq

/-- The call is counted in `pending_appends`. -/
def AppendPhase.Pending : AppendPhase → Prop
  | .done _ | .dropped _ => False
  | _ => True

instance : ∀ phase : AppendPhase, Decidable phase.Pending
  | .done _ | .dropped _ => isFalse id
  | .begun | .operable | .waiting .. => isTrue trivial

/-- Where a call of `close_with` is. -/
inductive ClosePhase where
  /-- The stream is marked closed; next is the wait for pending appends unless forced. -/
  | marked
  /-- Next is the lock of the close result. -/
  | drained
  /-- Holds the lock and waits for this call of `force_upload`. -/
  | uploading (call : Nat)
  /-- The upload was Ok; next is `close_stream`. -/
  | closing (call : Nat)
  /-- Waits for `close_stream`. -/
  | sent
  | returned (result : Except String Unit)
  /-- The caller has dropped the future at one of its waits. -/
  | dropped
  deriving DecidableEq

structure CloseCall where
  stream : Nat
  force : Bool
  phase : ClosePhase

/-- The call holds the lock of the close result. -/
def ClosePhase.Locked : ClosePhase → Prop
  | .uploading _ | .closing _ | .sent => True
  | _ => False

instance : ∀ phase : ClosePhase, Decidable phase.Locked
  | .uploading _ | .closing _ | .sent => isTrue trivial
  | .marked | .drained | .returned _ | .dropped => isFalse id

/-- The storage with its open streams and the calls on them. -/
structure Streams where
  storage : StorageInner
  streams : List StreamFacade
  appends : List AppendCall
  closes : List CloseCall

namespace Streams

def new (config : S3StorageConfig) (walConfig : WalConfig) : Streams where
  storage := .new config walConfig
  streams := []
  appends := []
  closes := []

def setStream (s : Streams) (f : Nat) (st : StreamFacade) : Streams :=
  { s with streams := s.streams.set f st }

def setAppend (s : Streams) (c : Nat) (phase : AppendPhase) : Streams :=
  { s with appends := s.appends.modify c fun call => { call with phase } }

def setClose (s : Streams) (n : Nat) (phase : ClosePhase) : Streams :=
  { s with closes := s.closes.modify n fun call => { call with phase } }

/-- A stream is opened once, when the storage has been started. Its id is not the one that marks
the WAL's own records. -/
def openStream (s : Streams) (streamId epoch nextOffset : Nat) : Option Streams :=
  if s.storage.wal.start = .returned ∧ streamId ≠ trimRecordSentinel ∧
      ∀ st ∈ s.streams, st.streamId ≠ streamId then
    some { s with streams := s.streams ++ [.new streamId epoch nextOffset] }
  else none

/-! ## Appends -/

def appendCall (s : Streams) (f : Nat) : Option Streams :=
  if f < s.streams.length then some { s with appends := s.appends ++ [⟨f, .begun⟩] } else none

def appendOperable (s : Streams) (c : Nat) : Option Streams :=
  match s.appends[c]? with
  | some ⟨f, .begun⟩ =>
    match s.streams[f]? with
    | some st => some (s.setAppend c
        (if st.isOperable then .operable else .done (.error (.closed st.streamId))))
    | none => none
  | _ => none

/-- The append lock of a stream is free: `append0` of its earlier requests has returned. -/
def lockFree (s : Streams) (streamId : Nat) : Bool :=
  s.storage.requests.all fun q => q.record.streamId ≠ streamId ∨ ¬q.phase.InAppend0

/-- The critical section of `admit_append` up to `append0`. Offsets stay below `2 ^ 64`. -/
def appendReserve (s : Streams) (c count : Nat) (payload : Bytes) : Option Streams :=
  match s.appends[c]? with
  | some ⟨f, .operable⟩ =>
    match s.streams[f]? with
    | some st =>
      if s.lockFree st.streamId ∧ count < 2 ^ 32 ∧ st.nextOffset + count < 2 ^ 64 then
        (s.storage.step (.submit (st.record count payload))).map fun storage =>
          { (s.setAppend c (.waiting s.storage.requests.length st.nextOffset count)).setStream f
              { st with nextOffset := st.nextOffset + count } with storage }
      else none
    | none => none
  | _ => none

def appendComplete (s : Streams) (c : Nat) : Option Streams :=
  match s.appends[c]? with
  | some ⟨f, .waiting n offset count⟩ =>
    match s.streams[f]?, s.storage.requests[n]? with
    | some st, some ⟨_, .answered _ result⟩ =>
      let (st', result') := st.completeAppend offset count result
      some ((s.setStream f st').setAppend c (.done result'))
    | _, _ => none
  | _ => none

def appendDrop (s : Streams) (c : Nat) : Option Streams :=
  match s.appends[c]? with
  | some ⟨_, .waiting n _ _⟩ => some (s.setAppend c (.dropped n))
  | _ => none

/-! ## Closing -/

def closeCall (s : Streams) (f : Nat) (force : Bool) : Option Streams :=
  match s.streams[f]? with
  | some st =>
    some { s.setStream f { st with closed := true } with
      closes := s.closes ++ [⟨f, force, .marked⟩] }
  | none => none

/-- The wait for pending appends is over. The wait for pending fetches has a timeout. -/
def closeWait (s : Streams) (n : Nat) : Option Streams :=
  match s.closes[n]? with
  | some ⟨f, force, .marked⟩ =>
    if force ∨ ∀ c ∈ s.appends, c.stream = f → ¬c.phase.Pending then some (s.setClose n .drained)
    else none
  | _ => none

/-- Take the lock of the close result; the first call goes on to `close0`. -/
def closeLock (s : Streams) (n : Nat) : Option Streams :=
  match s.closes[n]? with
  | some ⟨f, _, .drained⟩ =>
    if ∀ c ∈ s.closes, c.stream = f → ¬c.phase.Locked then
      match s.streams[f]? with
      | some st =>
        match st.closeResult with
        | some result => some (s.setClose n (.returned result))
        | none => (s.storage.step (.pipeline (.forceUpload st.streamId))).map fun storage =>
            { s.setClose n (.uploading s.storage.pipeline.forceCalls.length) with storage }
      | none => none
    else none
  | _ => none

/-- Keep the result of `close0` and return it. -/
def closeFinish (s : Streams) (n f : Nat) (result : Except String Unit) : Streams :=
  { s.setClose n (.returned result) with
    streams := s.streams.modify f fun st => { st with closeResult := some result } }

/-- `force_upload` has returned. -/
def closeUploaded (s : Streams) (n : Nat) : Option Streams :=
  match s.closes[n]? with
  | some ⟨f, _, .uploading k⟩ =>
    match s.storage.pipeline.forceCalls[k]? with
    | some ⟨_, _, .returned (.ok ())⟩ => some (s.setClose n (.closing k))
    | some ⟨_, _, .returned (.error e)⟩ => some (s.closeFinish n f (.error e))
    | _ => none
  | _ => none

def closeSend (s : Streams) (n : Nat) : Option Streams :=
  match s.closes[n]? with
  | some ⟨_, _, .closing _⟩ => some (s.setClose n .sent)
  | _ => none

def closeReturn (s : Streams) (n : Nat) (result : Except String Unit) : Option Streams :=
  match s.closes[n]? with
  | some ⟨f, _, .sent⟩ => some (s.closeFinish n f result)
  | _ => none

def closeDrop (s : Streams) (n : Nat) : Option Streams :=
  match s.closes[n]? with
  | some ⟨_, _, .marked⟩ | some ⟨_, _, .drained⟩ | some ⟨_, _, .uploading _⟩ | some ⟨_, _, .sent⟩ =>
    some (s.setClose n .dropped)
  | _ => none

/-! ## The machine -/

inductive Action where
  | openStream (streamId epoch nextOffset : Nat)
  | appendCall (f : Nat)
  | appendOperable (c : Nat)
  | appendReserve (c count : Nat) (payload : Bytes)
  | appendComplete (c : Nat)
  | appendDrop (c : Nat)
  | closeCall (f : Nat) (force : Bool)
  | closeWait (n : Nat)
  | closeLock (n : Nat)
  | closeUploaded (n : Nat)
  | closeSend (n : Nat)
  | closeReturn (n : Nat) (result : Except String Unit)
  | closeDrop (n : Nat)
  | storage (a : StorageInner.Action)

/-- Actions of the storage that are not a call of a stream. -/
def storageOwn : StorageInner.Action → Bool
  | .submit _ => false
  | _ => true

def step (s : Streams) : Action → Option Streams
  | .openStream streamId epoch nextOffset => s.openStream streamId epoch nextOffset
  | .appendCall f => s.appendCall f
  | .appendOperable c => s.appendOperable c
  | .appendReserve c count payload => s.appendReserve c count payload
  | .appendComplete c => s.appendComplete c
  | .appendDrop c => s.appendDrop c
  | .closeCall f force => s.closeCall f force
  | .closeWait n => s.closeWait n
  | .closeLock n => s.closeLock n
  | .closeUploaded n => s.closeUploaded n
  | .closeSend n => s.closeSend n
  | .closeReturn n result => s.closeReturn n result
  | .closeDrop n => s.closeDrop n
  | .storage a =>
    if storageOwn a then (s.storage.step a).map fun storage => { s with storage } else none

end Streams

end S3Stream
