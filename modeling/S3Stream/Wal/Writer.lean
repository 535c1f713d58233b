import S3Stream.Wal.PipelineInv

/-! # The object WAL writer

The writer of the object WAL (`s3stream-wal/src/object/writer.rs`) as a state machine over its
upload pipeline: `start`, the two halves of `submit`, `close`, `flush`, and the phases of `trim`
and `reset`. An action is a critical section, an atomic access or a storage round trip of the
source, so a list of actions is one interleaving of the callers, the bulk timers, the upload
tasks, the callback loop and the trims. A crash is the end of the list; a PUT or a delete that
was issued may take effect at any later point. -/

namespace S3Stream

/-- A record that passed the checks of `submit` and has no place yet; `trim` is the index of the
trim that submitted it. -/
structure Admission where
  record : StreamRecordBatch
  trim : Option Nat
  deriving DecidableEq, Repr

inductive TrimPhase where
  /-- A trim at or above this one runs; wait for its completion. -/
  | waiting
  /-- `trim_offset` is stored. -/
  | stored
  /-- The trim record passed the checks of `submit`. -/
  | admitted
  /-- The trim record has its place in a bulk. -/
  | placed (ack : AckId)
  /-- The trim record was acked Ok and the deletes are issued. -/
  | deleting (ack : AckId)
  | done (ack : AckId)
  /-- Returned Ok because a trim at or above it is complete. -/
  | joined
  | failed
  deriving DecidableEq, Repr

structure TrimTask where
  offset : Int
  phase : TrimPhase
  deriving DecidableEq, Repr

def setPhase (trims : List TrimTask) (k : Nat) (phase : TrimPhase) : List TrimTask :=
  trims.modify k fun t => { t with phase }

inductive StartPhase where
  | created
  | verified
  | returned
  deriving DecidableEq, Repr

/-- The state of a writer. `deletes` are the objects whose delete was issued. -/
structure Writer extends Pipeline where
  start : StartPhase
  previousObjects : List WalObject
  lastRecordOffsetToObject : OrdMap Nat WalObject
  bufferedDataBytes : Nat
  completedTrim : Int
  closed : Bool
  admitted : List Admission
  unresolved : List (AckId × Nat)
  trims : List TrimTask
  deletes : List WalObject

namespace Writer

/-- A freshly created writer; it is closed until it is started. -/
def new (config : WalConfig) : Writer where
  toPipeline := Pipeline.new config
  start := .created
  previousObjects := []
  lastRecordOffsetToObject := .empty
  bufferedDataBytes := 0
  completedTrim := trimOffsetNone
  closed := true
  admitted := []
  unresolved := []
  trims := []
  deletes := []

def pipe (w : Writer) (op : PipeOp) : Option Writer :=
  (w.toPipeline.step op).map fun p => { w with toPipeline := p }

/-! ## Start -/

def startVerify (w : Writer) (outcome : VerifyOutcome) : Option Writer :=
  if w.start = .created then
    match outcome with
    | .held => some { w with start := .verified }
    | .lost => { w with start := .returned }.pipe .fence
    | .error => some { w with start := .returned }
  else none

/-- The part of `start` behind the LIST. -/
def startList (w : Writer) (listed : List ObjectInfo) : Option Writer :=
  if w.start = .verified then
    let parsed := parseWalObjects listed
    let objects := skipOverlapObjects parsed
    let w := { w with start := .returned, deletes := w.deletes ++ overlapObjects parsed }
    if (objects.getLast?.map WalObject.epoch).any (w.config.epoch < ·) then
      -- A newer epoch has started: the writer stays closed.
      w.pipe .fence
    else
      { w with previousObjects := w.previousObjects ++ objects, closed := false }.pipe
        (.begin ((objects.getLast?.map WalObject.endOffset).getD 0))
  else none

/-! ## Submit -/

def checkStatus (w : Writer) : Except WalError Unit :=
  if w.closed then .error .notInitialized
  else if w.fenced then .error (.fenced w.config.nodeId w.config.epoch)
  else .ok ()

/-- The checks of `submit`, which run before the record is placed. -/
def submitCheck (w : Writer) (record : StreamRecordBatch) : Except WalError Unit := do
  w.checkStatus
  if w.config.maxUnflushedBytes < w.bufferedDataBytes then
    .error (.overCapacity w.bufferedDataBytes w.config.maxUnflushedBytes)
  else if dataFileAlignSize < framedSize record then
    .error (.recordTooLarge (framedSize record) dataFileAlignSize)
  else .ok ()

/-- A caller submits a record; a rejected record leaves the writer as it is. -/
def submit (w : Writer) (record : StreamRecordBatch) : Option Writer :=
  if record.InRange then
    match w.submitCheck record with
    | .ok () => some { w with admitted := w.admitted ++ [⟨record, none⟩] }
    | .error _ => some w
  else none

/-- The critical section of `submit` for the `n`-th admitted record. -/
def place (w : Writer) (n : Nat) : Option Writer :=
  match w.admitted[n]? with
  | none => none
  | some a =>
    let ack := w.ackFor a.record
    let size := framedSize a.record
    { w with
      admitted := w.admitted.eraseIdx n
      bufferedDataBytes := w.bufferedDataBytes + size
      unresolved := w.unresolved ++ [(ack, size)]
      -- The trim that submitted the record, if any, now waits for its ack.
      trims := match a.trim with
        | none => w.trims
        | some k => setPhase w.trims k (.placed ack) }.pipe (.place a.record)

def resolve (w : Writer) (id : AckId) : Option Writer :=
  match w.unresolved.lookup id with
  | none => none
  | some size =>
    if w.acks.any (·.id = id) then
      some { w with
        unresolved := w.unresolved.eraseP (·.1 = id)
        bufferedDataBytes := w.bufferedDataBytes - size }
    else none

def timer (w : Writer) (seq : Nat) : Option Writer :=
  if w.active.map Bulk.seq = some seq then w.pipe .sealActive else some w

/-- The objects the writer knows once the PUT of `b` has returned. -/
def uploadedObjects (w : Writer) (b : UploadingBulk) (ok : Bool) : OrdMap Nat WalObject :=
  match b.put, ok with
  | some file, true => w.lastRecordOffsetToObject.insert b.lastRecordOffset
      (file.toWalObject w.config.root)
  | _, _ => w.lastRecordOffsetToObject

/-- The outcome of a PUT; an uploaded object is remembered under its last record offset. -/
def putReturn (w : Writer) (seq : Nat) (ok : Bool) : Option Writer :=
  match w.inFlight? seq with
  | none => none
  | some b =>
    { w with lastRecordOffsetToObject := w.uploadedObjects b ok }.pipe (.putReturn seq ok)

/-! ## Trim -/

def trimRecord : StreamRecordBatch := ⟨trimRecordSentinel, trimRecordSentinel, 0, 0, []⟩

/-- The first critical section of `trim0`. -/
def trimStart (w : Writer) (offset : Int) : Option Writer :=
  if -(2 ^ 63) ≤ offset ∧ offset < 2 ^ 63 then
    match w.checkStatus with
    | .error _ => some w
    | .ok () =>
      if offset ≤ w.trimOffset then some { w with trims := w.trims ++ [⟨offset, .waiting⟩] }
      else
        let w : Writer := { w with trims := w.trims ++ [⟨offset, .stored⟩] }
        w.pipe (.storeTrim offset)
  else none

/-- `reset` trims everything below the next offset. -/
def reset (w : Writer) : Option Writer :=
  if w.nextOffset = 0 then some w else w.trimStart (asI64 w.nextOffset - 1)

def trimSubmit (w : Writer) (k : Nat) : Option Writer :=
  match w.trims[k]? with
  | some ⟨_, .stored⟩ =>
    match w.submitCheck trimRecord with
    | .ok () => some { w with
        admitted := w.admitted ++ [⟨trimRecord, some k⟩]
        trims := setPhase w.trims k .admitted }
    | .error _ => some { w with trims := setPhase w.trims k .failed }
  | _ => none

/-- The objects of this writer that a trim deletes: those whose last record is covered, except
the newest one. -/
def coveredObjects (w : Writer) (offset : Int) : OrdMap Nat WalObject :=
  match w.lastRecordOffsetToObject.last? with
  | none => .empty
  | some (lastFlushed, _) =>
    w.lastRecordOffsetToObject.filter fun e => e.1 ≤ offset.toNat ∧ e.1 ≠ lastFlushed

/-- The previous objects that a trim deletes; the last one is kept when no own object is. -/
def coveredPrevious (w : Writer) (offset : Int) : List WalObject :=
  let bound := w.previousObjects.length - if (w.coveredObjects offset).entries.isEmpty then 1 else 0
  (w.previousObjects.take bound).takeWhile fun o => asI64 o.endOffset ≤ offset

/-- The trim record was acknowledged: compute the delete list and issue the deletes. -/
def trimProceed (w : Writer) (k : Nat) : Option Writer :=
  match w.trims[k]? with
  | some ⟨offset, .placed id⟩ =>
    match w.acks.find? (·.id = id) with
    | none => none
    | some ⟨_, _, .error _⟩ => some { w with trims := setPhase w.trims k .failed }
    | some ⟨_, _, .ok _⟩ =>
      let covered := w.coveredObjects offset
      let previous := w.coveredPrevious offset
      some { w with
        lastRecordOffsetToObject :=
          w.lastRecordOffsetToObject.filter fun e => e ∉ covered.entries
        previousObjects := w.previousObjects.drop previous.length
        deletes := w.deletes ++ (covered.values ++ previous)
        trims := setPhase w.trims k (.deleting id) }
  | _ => none

def trimFinish (w : Writer) (k : Nat) : Option Writer :=
  match w.trims[k]? with
  | some ⟨offset, .deleting id⟩ =>
    some { w with
      completedTrim := max w.completedTrim offset
      trims := setPhase w.trims k (.done id) }
  | _ => none

/-- A trim that found a larger one running returns once that one is complete. -/
def trimJoin (w : Writer) (k : Nat) : Option Writer :=
  match w.trims[k]? with
  | some ⟨offset, .waiting⟩ =>
    if offset ≤ w.completedTrim then some { w with trims := setPhase w.trims k .joined } else none
  | _ => none

/-- `object_list`, the objects a running writer knows. -/
def objectList (w : Writer) : Except WalError (List WalObject) := do
  w.checkStatus
  return w.previousObjects ++ w.lastRecordOffsetToObject.values

end Writer

/-! ## The machine -/

inductive WalAct where
  | startVerify (outcome : VerifyOutcome)
  | startList (listed : List ObjectInfo)
  | submit (record : StreamRecordBatch)
  | place (n : Nat)
  | resolve (id : AckId)
  | timer (seq : Nat)
  | flush
  | close
  | tryUpload
  | uploadStart (seq : Nat)
  | putLand (seq : Nat)
  | putReturn (seq : Nat) (ok : Bool)
  | recv
  | verify (outcome : VerifyOutcome)
  | loadFenced
  | completeBulk
  | trimStart (offset : Int)
  | reset
  | trimSubmit (k : Nat)
  | trimProceed (k : Nat)
  | trimFinish (k : Nat)
  | trimJoin (k : Nat)
  deriving DecidableEq, Repr

def Writer.step (w : Writer) : WalAct → Option Writer
  | .startVerify outcome => w.startVerify outcome
  | .startList listed => w.startList listed
  | .submit record => w.submit record
  | .place n => w.place n
  | .resolve id => w.resolve id
  | .timer seq => w.timer seq
  | .flush => w.pipe .sealActive
  | .close => some { w with closed := true }
  | .tryUpload => w.pipe .tryUpload
  | .uploadStart seq => w.pipe (.uploadStart seq)
  | .putLand seq => w.pipe (.putLand seq)
  | .putReturn seq ok => w.putReturn seq ok
  | .recv => w.pipe .recv
  | .verify outcome => w.pipe (.verify outcome)
  | .loadFenced => w.pipe .loadFenced
  | .completeBulk => w.pipe .completeBulk
  | .trimStart offset => w.trimStart offset
  | .reset => w.reset
  | .trimSubmit k => w.trimSubmit k
  | .trimProceed k => w.trimProceed k
  | .trimFinish k => w.trimFinish k
  | .trimJoin k => w.trimJoin k

end S3Stream
