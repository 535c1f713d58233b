import S3Stream.Object.Reader

/-! # The object writer

`ObjectWriter` of `s3stream-object/src/writer.rs`: records are grouped into data blocks, blocks go
out in multipart parts, and `close` writes the rest with the index block and the footer. Whatever
the thresholds, the parts are cut between blocks, so a writer is described by the sequence of its
blocks (`ObjectWriter.blocks`) and the bytes handed to the upload are the bytes of a prefix of
them. -/

namespace S3Stream

def minPartSize : Nat := 5 * 1024 * 1024

structure DataBlock where
  encoded : Bytes
  streamId : Nat
  epoch : Nat
  startOffset : Nat
  endOffset : Nat
  recordCount : Nat
  deriving DecidableEq

namespace DataBlock

/-- The block of a group of records. The source panics on an empty group, which the writer never
builds. -/
def new (streamId : Nat) (records : List StreamRecordBatch) : DataBlock where
  encoded := encodeDataBlock records
  streamId
  epoch := (records.head?.map StreamRecordBatch.epoch).getD 0
  startOffset := (records.head?.map StreamRecordBatch.baseOffset).getD 0
  endOffset := (records.getLast?.map StreamRecordBatch.lastOffsetU64).getD 0
  recordCount := asU32 records.length

def size (b : DataBlock) : Nat := b.encoded.length

/-- The index entries of blocks that lie one behind the other from position `pos`. The subtraction
of the offsets is that of `u64`. -/
def indexes (blockId : Nat → Int) : Nat → Nat → List DataBlock → List DataBlockIndex
  | _, _, [] => []
  | i, pos, b :: bs =>
    { blockId := blockId i
      streamId := b.streamId
      startOffset := b.startOffset
      endOffsetDelta := asU32 (b.endOffset + 2 ^ 64 - b.startOffset)
      recordCount := b.recordCount
      startPosition := pos
      size := asU32 b.size } :: indexes blockId (i + 1) (pos + b.size) bs

@[simp] theorem length_indexes (blockId : Nat → Int) (i pos : Nat) (bs : List DataBlock) :
    (indexes blockId i pos bs).length = bs.length := by
  induction bs generalizing i pos with
  | nil => rfl
  | cons b bs ih => rw [indexes, List.length_cons, List.length_cons, ih]

end DataBlock

/-- The state of a writer; `parts` is what its multipart upload holds. -/
structure ObjectWriter where
  key : Key
  parts : List Bytes
  blockSizeThreshold : Nat
  partSizeThreshold : Nat
  waitingUploadBlocks : List DataBlock
  waitingUploadSize : Nat
  completedBlocks : List DataBlock
  groupAcc : Nat
  last : Option (Nat × Nat)

namespace ObjectWriter

def open_ (objectId blockSizeThreshold partSizeThreshold : Nat) : ObjectWriter where
  key := genObjectKey objectId
  parts := []
  blockSizeThreshold
  partSizeThreshold := max partSizeThreshold minPartSize
  waitingUploadBlocks := []
  waitingUploadSize := 0
  completedBlocks := []
  groupAcc := 0
  last := none

/-- The ordering check; the cursor moves behind the records of a call that passes. -/
def check (w : ObjectWriter) (streamId : Nat) :
    List StreamRecordBatch → ObjectWriter × Except ObjectError Unit
  | [] => (w, .ok ())
  | first :: rest =>
    let recordsEnd := ((first :: rest).getLast (List.cons_ne_nil _ _)).lastOffsetU64
    match w.last with
    | none => ({ w with last := some (streamId, recordsEnd) }, .ok ())
    | some (lastStreamId, lastEndOffset) =>
      if streamId < lastStreamId then
        (w, .error (.orderingViolation
          s!"incoming streamId={streamId} is less than last streamId={lastStreamId}"))
      else if lastStreamId = streamId ∧ first.baseOffset < lastEndOffset then
        let start := first.baseOffset
        (w, .error (.orderingViolation
          s!"streamId={streamId} startOffset={start} is less than lastEndOffset={lastEndOffset}"))
      else ({ w with last := some (streamId, recordsEnd) }, .ok ())

/-- Cut records into groups; the accumulator is only reset when it reaches the threshold. -/
def groupByBlock (threshold : Nat) : List StreamRecordBatch → Nat → List StreamRecordBatch →
    List (List StreamRecordBatch) × Nat
  | [], groupAcc, blockRecords => (if blockRecords.isEmpty then [] else [blockRecords], groupAcc)
  | record :: records, groupAcc, blockRecords =>
    if threshold ≤ groupAcc + record.size then
      let rest := groupByBlock threshold records 0 []
      ((blockRecords ++ [record]) :: rest.1, rest.2)
    else groupByBlock threshold records (groupAcc + record.size) (blockRecords ++ [record])

/-- Size and number of the blocks that fill the next part. -/
def takePart (threshold : Nat) : List DataBlock → Nat → Nat × Nat
  | [], partSize => (partSize, 0)
  | b :: bs, partSize =>
    if threshold ≤ partSize + b.size then (partSize + b.size, 1)
    else
      let rest := takePart threshold bs (partSize + b.size)
      (rest.1, rest.2 + 1)

/-- Send the first `take` waiting blocks as one part. -/
def uploadPart (w : ObjectWriter) (take : Nat) : ObjectWriter :=
  let part := w.waitingUploadBlocks.take take
  { w with
    parts := w.parts ++ [part.flatMap DataBlock.encoded]
    completedBlocks := w.completedBlocks ++ part
    waitingUploadBlocks := w.waitingUploadBlocks.drop take
    waitingUploadSize := w.waitingUploadSize - (part.map DataBlock.size).sum }

/-- Upload full parts. A part takes at least one block, so their number bounds the rounds. -/
def tryUploadPart : Nat → ObjectWriter → ObjectWriter
  | 0, w => w
  | fuel + 1, w =>
    let next := takePart w.partSizeThreshold w.waitingUploadBlocks 0
    if next.1 < w.partSizeThreshold then w else tryUploadPart fuel (w.uploadPart next.2)

/-- Group the records of a checked call into blocks that wait for their upload. -/
def pushBlocks (w : ObjectWriter) (streamId : Nat) (records : List StreamRecordBatch) :
    ObjectWriter :=
  let groups := groupByBlock w.blockSizeThreshold records w.groupAcc []
  let blocks := groups.1.map (DataBlock.new streamId)
  { w with
    groupAcc := groups.2
    waitingUploadSize := w.waitingUploadSize + (blocks.map DataBlock.size).sum
    waitingUploadBlocks := w.waitingUploadBlocks ++ blocks }

def write (w : ObjectWriter) (streamId : Nat) (records : List StreamRecordBatch) :
    ObjectWriter × Except ObjectError Unit :=
  match w.check streamId records with
  | (w, .error e) => (w, .error e)
  | (w, .ok ()) =>
    let w := w.pushBlocks streamId records
    (if w.partSizeThreshold ≤ w.waitingUploadSize then
      tryUploadPart w.waitingUploadBlocks.length w else w, .ok ())

def writeAll : ObjectWriter → List (Nat × List StreamRecordBatch) → Except ObjectError ObjectWriter
  | w, [] => .ok w
  | w, (streamId, records) :: writes =>
    match w.write streamId records with
    | (_, .error e) => .error e
    | (w, .ok ()) => writeAll w writes

def blocks (w : ObjectWriter) : List DataBlock := w.completedBlocks ++ w.waitingUploadBlocks

/-- Write the rest, the index block and the footer and complete the upload; returns the storage
and the object's size. -/
def close (w : ObjectWriter) (s : Storage) : Storage × Nat :=
  let data := w.waitingUploadBlocks.flatMap DataBlock.encoded
  let index : IndexBlock := ⟨DataBlock.indexes (fun _ => -1) 0 0 w.blocks⟩
  let indexPosition := (w.blocks.map DataBlock.size).sum
  let indexSize := index.encode.length
  let tail := data ++ (index.encode ++ footer indexPosition indexSize)
  (s.write w.key (w.parts ++ [tail]).flatten, indexPosition + indexSize + footerSize)

/-! ## What the calls do to the blocks -/

/-- The upload holds the completed blocks. -/
def Uploaded (w : ObjectWriter) : Prop :=
  w.parts.flatten = w.completedBlocks.flatMap DataBlock.encoded

theorem flatten_groupByBlock (threshold : Nat) (records : List StreamRecordBatch) (groupAcc : Nat)
    (blockRecords : List StreamRecordBatch) :
    (groupByBlock threshold records groupAcc blockRecords).1.flatten =
      blockRecords ++ records := by
  induction records generalizing groupAcc blockRecords with
  | nil =>
    rw [groupByBlock]
    split
    · rename_i hempty
      simp [List.isEmpty_iff.mp hempty]
    · simp
  | cons r records ih =>
    rw [groupByBlock]
    split
    · simp [ih]
    · simp [ih]

theorem ne_nil_of_mem_groupByBlock {groupAcc : Nat}
    (hg : g ∈ (groupByBlock threshold records groupAcc blockRecords).1) : g ≠ [] := by
  induction records generalizing groupAcc blockRecords with
  | nil =>
    rw [groupByBlock] at hg
    split at hg
    · cases hg
    · rename_i hempty
      rw [List.mem_singleton.mp hg]
      simpa using hempty
  | cons r records ih =>
    rw [groupByBlock] at hg
    split at hg
    · rcases List.mem_cons.mp hg with rfl | hg
      · simp
      · exact ih hg
    · exact ih hg

/-- Uploading parts moves blocks from the waiting to the completed ones and nothing else. -/
theorem tryUploadPart_spec (fuel : Nat) (w : ObjectWriter) :
    (tryUploadPart fuel w).blocks = w.blocks ∧ (w.Uploaded → (tryUploadPart fuel w).Uploaded) ∧
      (tryUploadPart fuel w).key = w.key ∧ (tryUploadPart fuel w).last = w.last := by
  induction fuel generalizing w with
  | zero => exact ⟨rfl, id, rfl, rfl⟩
  | succ fuel ih =>
    rw [tryUploadPart]
    split
    · exact ⟨rfl, id, rfl, rfl⟩
    · obtain ⟨hblocks, huploaded, hkey, hlast⟩ :=
        ih (w.uploadPart (takePart w.partSizeThreshold w.waitingUploadBlocks 0).2)
      refine ⟨hblocks.trans ?_, fun h => huploaded ?_, hkey, hlast⟩
      · simp [blocks, uploadPart]
      · have hparts : w.parts.flatten = w.completedBlocks.flatMap DataBlock.encoded := h
        simp [Uploaded, uploadPart, hparts]

/-- The check changes nothing but the cursor, and a call that it refuses changes nothing. -/
theorem check_spec (w : ObjectWriter) (streamId : Nat) (records : List StreamRecordBatch) :
    (w.check streamId records).1 = { w with last := (w.check streamId records).1.last } ∧
      ∀ e, (w.check streamId records).2 = .error e → (w.check streamId records).1 = w := by
  cases records with
  | nil => exact ⟨rfl, fun _ _ => rfl⟩
  | cons =>
    rw [check]
    dsimp only
    split
    · exact ⟨rfl, nofun⟩
    · split
      · exact ⟨rfl, fun _ _ => rfl⟩
      · split
        · exact ⟨rfl, fun _ _ => rfl⟩
        · exact ⟨rfl, nofun⟩

theorem write_refused {w : ObjectWriter} (h : (w.write streamId records).2 = .error e) :
    (w.write streamId records).1 = w := by
  unfold write at h ⊢
  split at h
  · rename_i w₁ e' hcheck
    have hsame := (w.check_spec streamId records).2 e'
    rw [hcheck] at hsame
    exact hsame rfl
  · cases h

/-- A call that succeeds: the check's cursor, and the new blocks behind the others. -/
theorem write_eq_ok {w : ObjectWriter} (h : w.write streamId records = (w', .ok ())) :
    w.check streamId records = ({ w with last := w'.last }, .ok ()) ∧ w'.key = w.key ∧
      (w.Uploaded → w'.Uploaded) ∧
      w'.blocks = w.blocks ++ (groupByBlock w.blockSizeThreshold records w.groupAcc []).1.map
        (DataBlock.new streamId) := by
  unfold write at h
  split at h
  · cases h
  rename_i w₁ hcheck
  have hframe : w₁ = { w with last := w₁.last } := by
    simpa only [hcheck] using (w.check_spec streamId records).1
  have hpush : (w₁.pushBlocks streamId records).blocks = w.blocks ++
      (groupByBlock w.blockSizeThreshold records w.groupAcc []).1.map (DataBlock.new streamId) := by
    rw [hframe]
    simp [blocks, pushBlocks]
  have hkey₁ : w₁.key = w.key := by rw [hframe]
  have huploaded₁ : w.Uploaded → w₁.Uploaded := by
    rw [hframe]
    exact id
  dsimp only at h
  split at h
  · obtain ⟨hblocks, huploaded, hkey, hlast⟩ := tryUploadPart_spec
      (w₁.pushBlocks streamId records).waitingUploadBlocks.length (w₁.pushBlocks streamId records)
    cases h
    refine ⟨?_, hkey.trans hkey₁, fun h => huploaded (huploaded₁ h), hblocks.trans hpush⟩
    rw [hcheck, hlast]
    exact congrArg (·, _) hframe
  · cases h
    exact ⟨hcheck.trans (congrArg (·, _) hframe), hkey₁, huploaded₁, hpush⟩

end ObjectWriter

end S3Stream
