import S3Stream.Lib.Loop
import S3Stream.Lib.OrdMap
import S3Stream.Object.Index

/-! # Compaction plans

`CompactionAnalyzer` of `s3stream-core/src/compact/plan.rs`: the data blocks of a node's stream set
objects are sorted, cut into output objects at gaps and at the split size, reduced until the limits
on streams and stream objects hold, and spread over plans that fit the compaction cache.

A `HashMap` from object ids is a list of its entries in the order of its iteration, and a set of ids
a list whose order and repetitions nothing reads. The stable sorts of the source are
`insertionSort`. The two loops run with fuel. -/

namespace S3Stream

/-- A data block with the object it comes from. -/
structure StreamDataBlock where
  objectId : Nat
  index : DataBlockIndex
  deriving DecidableEq, Repr

namespace StreamDataBlock

def streamId (b : StreamDataBlock) : Nat := b.index.streamId

def startOffset (b : StreamDataBlock) : Nat := b.index.startOffset

def endOffset (b : StreamDataBlock) : Nat := b.index.endOffset

def blockStartPosition (b : StreamDataBlock) : Nat := b.index.startPosition

def blockSize (b : StreamDataBlock) : Nat := b.index.size

end StreamDataBlock

inductive CompactionType where
  /-- Blocks of one stream, for a stream object. -/
  | split
  /-- Blocks of many streams, for a stream set object. -/
  | compact
  deriving DecidableEq, Repr

structure CompactedObject where
  compactionType : CompactionType
  blocks : List StreamDataBlock

/-- Blocks by a key, each with its blocks in their order. -/
def groupBlocks (key : StreamDataBlock → Nat) (blocks : List StreamDataBlock) :
    OrdMap Nat (List StreamDataBlock) :=
  blocks.foldl (fun m b => m.insert (key b) ((m.get? (key b)).getD [] ++ [b])) OrdMap.empty

structure CompactionPlan where
  order : Nat
  compactedObjects : List CompactedObject
  streamDataBlocksMap : OrdMap Nat (List StreamDataBlock)

/-! ## The builder of an output object -/

/-- The two positions enclose the blocks of the last stream. -/
structure CompactedObjectBuilder where
  compactionType : CompactionType
  blocks : List StreamDataBlock
  currStreamIndexHead : Int
  currStreamIndexTail : Int

/-- The loop of `reset_curr_stream_position`. -/
def currStreamPosition (currStreamId : Option Nat) (i : Nat) (head tail : Int) :
    List StreamDataBlock → Int × Int
  | [] => (head, tail)
  | b :: bs =>
    currStreamPosition (some b.streamId) (i + 1)
      (if currStreamId ≠ some b.streamId then i else head) (i + 1) bs

namespace CompactedObjectBuilder

def new : CompactedObjectBuilder := ⟨.compact, [], -1, -1⟩

def resetCurrStreamPosition (b : CompactedObjectBuilder) : CompactedObjectBuilder :=
  let position := currStreamPosition none 0 (-1) (-1) b.blocks
  { b with currStreamIndexHead := position.1, currStreamIndexTail := position.2 }

def lastStreamId (b : CompactedObjectBuilder) : Option Nat :=
  b.blocks.getLast?.map StreamDataBlock.streamId

def lastOffset (b : CompactedObjectBuilder) : Option Nat :=
  b.blocks.getLast?.map StreamDataBlock.endOffset

def addBlock (b : CompactedObjectBuilder) (block : StreamDataBlock) : CompactedObjectBuilder :=
  { b with
    currStreamIndexHead :=
      if some block.streamId ≠ b.lastStreamId then b.blocks.length else b.currStreamIndexHead
    blocks := b.blocks ++ [block]
    currStreamIndexTail := b.blocks.length + 1 }

/-- What is left of the builder, and what was cut out of it. -/
def split (b : CompactedObjectBuilder) (start stop : Int) :
    CompactedObjectBuilder × CompactedObjectBuilder :=
  if start < 0 ∨ b.currStreamIndexTail < stop then (b, new)
  else
    let drained := (b.blocks.drop start.toNat).take (stop.toNat - start.toNat)
    let left := { b with blocks := b.blocks.take start.toNat ++ b.blocks.drop stop.toNat }
    (left.resetCurrStreamPosition,
      { drained.foldl addBlock new with compactionType := b.compactionType })

def splitCurrentStream (b : CompactedObjectBuilder) :
    CompactedObjectBuilder × CompactedObjectBuilder :=
  b.split b.currStreamIndexHead b.currStreamIndexTail

def totalStreamNum (b : CompactedObjectBuilder) : Nat :=
  (b.blocks.map StreamDataBlock.streamId).dedup.length

def sumBlockSize (blocks : List StreamDataBlock) : Nat :=
  (blocks.map StreamDataBlock.blockSize).sum

def currStreamBlockSize (b : CompactedObjectBuilder) : Nat :=
  if b.currStreamIndexHead < 0 ∨ b.currStreamIndexTail < 0 then 0
  else
    sumBlockSize ((b.blocks.drop b.currStreamIndexHead.toNat).take
      (b.currStreamIndexTail.toNat - b.currStreamIndexHead.toNat))

def uniqueObjectIds (b : CompactedObjectBuilder) : List Nat :=
  (b.blocks.map StreamDataBlock.objectId).dedup

def totalBlockSize (b : CompactedObjectBuilder) : Nat := sumBlockSize b.blocks

def merge (b other : CompactedObjectBuilder) : CompactedObjectBuilder :=
  if other.compactionType = .split then b
  else { b with blocks := b.blocks ++ other.blocks }.resetCurrStreamPosition

def build (b : CompactedObjectBuilder) : CompactedObject := ⟨b.compactionType, b.blocks⟩

end CompactedObjectBuilder

open CompactedObjectBuilder

/-! ## Which objects to compact -/

structure CompactionStats where
  streamNumInStreamSet : Nat
  streamObjectNum : Nat
  /-- In how many output objects an object has blocks. -/
  objectToCompactedObjectNum : Nat → Nat

def CompactionStats.of (builders : List CompactedObjectBuilder) : CompactionStats where
  streamNumInStreamSet :=
    ((builders.filter (·.compactionType = .compact)).map totalStreamNum).sum
  streamObjectNum :=
    (builders.filter fun b => b.compactionType = .split ∧ b.blocks ≠ []).length
  objectToCompactedObjectNum id := (builders.filter (·.uniqueObjectIds.contains id)).length

def totalObjectStats (b : CompactedObjectBuilder) (stats : CompactionStats) : Nat :=
  (b.uniqueObjectIds.map stats.objectToCompactedObjectNum).sum

/-- The entries of a map from object ids to their blocks. -/
abbrev BlockMap := List (Nat × List StreamDataBlock)

def BlockMap.blocks (m : BlockMap) : List StreamDataBlock := m.flatMap Prod.snd

def sortStreamRangePositions (m : BlockMap) : List StreamDataBlock :=
  (groupBlocks StreamDataBlock.streamId m.blocks).entries.flatMap fun e =>
    e.2.insertionSort fun a b => a.startOffset ≤ b.startOffset

def streamToObjectIds (m : BlockMap) (streamId : Nat) : List Nat :=
  ((m.blocks.filter (·.streamId = streamId)).map StreamDataBlock.objectId).dedup

def objectsToCompact (m : BlockMap) : List Nat :=
  (m.blocks.map fun b => streamToObjectIds m b.streamId).flatMap fun ids =>
    if 1 < ids.length then ids else []

/-- Objects that share a stream with another one. -/
def filterBlocksToCompact (m : BlockMap) : BlockMap :=
  m.filter fun e => (objectsToCompact m).contains e.1

/-- The objects of the stream object with the fewest blocks, or of the stream with the least
dispersion. -/
def addObjectsToRemove (compactionType : CompactionType) (builders : List CompactedObjectBuilder)
    (stats : CompactionStats) : List Nat :=
  let candidates := builders.filter (·.compactionType = compactionType)
  match compactionType with
  | .split =>
    let key (b : CompactedObjectBuilder) := toLex (b.blocks.length, totalObjectStats b stats)
    match (candidates.insertionSort fun a b => key a ≤ key b).head? with
    | none => []
    | some b => b.blocks.map StreamDataBlock.objectId
  | .compact =>
    let blocks := candidates.flatMap CompactedObjectBuilder.blocks
    let objectIds (streamId : Nat) :=
      ((blocks.filter (·.streamId = streamId)).map StreamDataBlock.objectId).dedup
    let streamIds (objectId : Nat) :=
      ((blocks.filter (·.objectId = objectId)).map StreamDataBlock.streamId).dedup
    let dispersion (streamId : Nat) :=
      ((objectIds streamId).map fun id => (streamIds id).length).sum
    let dispersions := blocks.map fun b => toLex (dispersion b.streamId, b.streamId)
    match (dispersions.insertionSort (· ≤ ·)).head? with
    | none => []
    | some min => objectIds (ofLex min).2

structure CompactionAnalyzer where
  compactionCacheSize : Nat
  streamSplitSize : Nat
  maxStreamNumInStreamSet : Nat
  maxStreamObjectNum : Nat

namespace CompactionAnalyzer

variable (a : CompactionAnalyzer)

/-! ## Cutting the sorted blocks into output objects -/

/-- The builders with what is left of the current one and its last stream behind them. -/
def splitObject (builder : CompactedObjectBuilder) (builders : List CompactedObjectBuilder) :
    List CompactedObjectBuilder :=
  let cut := builder.splitCurrentStream
  (if cut.1.totalBlockSize ≠ 0 then builders ++ [cut.1] else builders) ++
    [{ cut.2 with compactionType := .split }]

/-- The builders, and the builder for the blocks to come. -/
abbrev Cutting := List CompactedObjectBuilder × CompactedObjectBuilder

def splitAndAddBlock (s : Cutting) (block : StreamDataBlock) : Cutting :=
  if a.streamSplitSize < s.2.currStreamBlockSize then
    (splitObject s.2 s.1, new.addBlock block)
  else (s.1, s.2.addBlock block)

/-- One round of `compact_objects`; `none` is an illegal position. -/
def compactBlock (s : Cutting) (block : StreamDataBlock) : Option Cutting :=
  match s.2.lastStreamId, s.2.lastOffset with
  | some lastStreamId, some lastOffset =>
    if lastStreamId = block.streamId then
      if lastOffset < block.startOffset then
        -- A gap: the run so far becomes a stream object.
        some (splitObject s.2 s.1, new.addBlock block)
      else if block.startOffset = lastOffset then some (s.1, s.2.addBlock block)
      else none
    else some (a.splitAndAddBlock s block)
  | _, _ => some (s.1, s.2.addBlock block)

def compactObjects (sortedBlocks : List StreamDataBlock) :
    Option (List CompactedObjectBuilder) := do
  let (builders, builder) ← sortedBlocks.foldlM a.compactBlock ([], new)
  return if a.streamSplitSize < builder.currStreamBlockSize then splitObject builder builders
    else builders ++ [builder]

/-! ## The limits -/

/-- The variables of the loop of `group_object_with_limits`. -/
structure Grouping where
  streamDataBlockMap : BlockMap
  excludedObjectIds : List Nat
  sortedBlocks : List StreamDataBlock
  builders : List CompactedObjectBuilder
  stats : Option CompactionStats

def objectsToRemove (s : Grouping) : List Nat :=
  match s.stats with
  | none => []
  | some stats =>
    if a.maxStreamObjectNum < stats.streamObjectNum then
      addObjectsToRemove .split s.builders stats
    else addObjectsToRemove .compact s.builders stats

/-- One round: go on, or leave with the builders and the excluded objects. -/
def groupingStep (s : Grouping) : Grouping ⊕ (Option (List CompactedObjectBuilder) × List Nat) :=
  let removed := a.objectsToRemove s
  if s.stats.isSome ∧ removed = [] then .inr (none, s.excludedObjectIds)
  else
    let excluded := s.excludedObjectIds ++ removed
    let sortedBlocks := s.sortedBlocks.filter fun b => !removed.contains b.objectId
    let map := filterBlocksToCompact (s.streamDataBlockMap.filter fun e => !removed.contains e.1)
    if map = [] then .inr (none, excluded)
    else
      match a.compactObjects sortedBlocks with
      | none => .inr (none, excluded)
      | some builders =>
        let stats := CompactionStats.of builders
        if a.maxStreamNumInStreamSet < stats.streamNumInStreamSet ∨
            a.maxStreamObjectNum < stats.streamObjectNum then
          .inl ⟨map, excluded, sortedBlocks, builders, some stats⟩
        else .inr (some builders, excluded)

/-- A round removes a block, so their number bounds the rounds. -/
def groupObjectWithLimits (m : BlockMap) (excludedObjectIds : List Nat) :
    Option (Option (List CompactedObjectBuilder) × List Nat) :=
  let sortedBlocks := sortStreamRangePositions m
  Loop.loop a.groupingStep (sortedBlocks.length + 2)
    ⟨m, excludedObjectIds, sortedBlocks, [], none⟩

/-! ## Plans within the cache -/

/-- The first block with which the size passes the cache size. -/
def cutAt (j tmpSize : Nat) : List StreamDataBlock → Nat
  | [] => 0
  | b :: bs =>
    if a.compactionCacheSize < tmpSize + b.blockSize then j
    else cutAt (j + 1) (tmpSize + b.blockSize) bs

/-- The variables of the loop of `generate_plan_with_cache_limit`, with the builders from `i` on. -/
structure Planning where
  plans : List CompactionPlan
  compactedObjects : List CompactedObject
  streamSetBuilder : Option CompactedObjectBuilder
  totalSize : Nat
  order : Nat
  builders : List CompactedObjectBuilder

def addOrMerge (builder : CompactedObjectBuilder) (s : Planning) : Planning :=
  if builder.compactionType = .split then
    { s with compactedObjects := s.compactedObjects ++ [builder.build] }
  else { s with streamSetBuilder := some ((s.streamSetBuilder.getD new).merge builder) }

def generatePlan (order : Nat) (compactedObjects : List CompactedObject)
    (streamSetBuilder : Option CompactedObjectBuilder) : CompactionPlan :=
  let compactedObjects := compactedObjects ++ (streamSetBuilder.map build).toList
  { order
    compactedObjects
    streamDataBlocksMap :=
      (groupBlocks StreamDataBlock.objectId
        (compactedObjects.flatMap CompactedObject.blocks)).mapValues
          (List.insertionSort fun a b => a.blockStartPosition ≤ b.blockStartPosition) }

def pushPlan (s : Planning) : Planning :=
  { s with
    plans := s.plans ++ [generatePlan s.order s.compactedObjects s.streamSetBuilder]
    compactedObjects := []
    streamSetBuilder := none
    order := s.order + 1
    totalSize := 0 }

def planningStep (s : Planning) : Planning ⊕ List CompactionPlan :=
  match s.builders with
  | [] =>
    .inr (if s.compactedObjects ≠ [] ∨ s.streamSetBuilder.isSome then (pushPlan s).plans
      else s.plans)
  | builder :: rest =>
    if a.compactionCacheSize < s.totalSize + builder.totalBlockSize then
      let endOffset := a.cutAt 0 s.totalSize builder.blocks
      if endOffset ≠ 0 then
        let cut := builder.split 0 endOffset
        .inl { pushPlan (addOrMerge cut.2 s) with builders := cut.1 :: rest }
      else .inl (pushPlan s)
    else
      .inl { addOrMerge builder s with
        totalSize := s.totalSize + builder.totalBlockSize
        builders := rest }

/-- A round takes a block or a builder, or makes room in the cache for the next round to do so. -/
def generatePlanWithCacheLimit (builders : List CompactedObjectBuilder) :
    Option (List CompactionPlan) :=
  Loop.loop a.planningStep
    (2 * (builders.length + (builders.flatMap CompactedObjectBuilder.blocks).length) + 1)
    ⟨[], [], none, 0, 0, builders⟩

/-- The plans and the excluded objects; `none` when a loop does not end in its fuel. -/
def analyze (m : BlockMap) (excludedObjectIds : List Nat) :
    Option (List CompactionPlan × List Nat) :=
  if m = [] then some ([], excludedObjectIds)
  else
    let m := filterBlocksToCompact m
    if m = [] then some ([], excludedObjectIds)
    else
      (a.groupObjectWithLimits m excludedObjectIds).bind fun
        | (none, excluded) => some ([], excluded)
        | (some builders, excluded) =>
          (a.generatePlanWithCacheLimit builders).map fun plans => (plans, excluded)

/-- The checks for an empty map only save work. -/
theorem analyze_eq (m : BlockMap) (excludedObjectIds : List Nat) :
    a.analyze m excludedObjectIds =
      (a.groupObjectWithLimits (filterBlocksToCompact m) excludedObjectIds).bind fun
        | (none, excluded) => some ([], excluded)
        | (some builders, excluded) =>
          (a.generatePlanWithCacheLimit builders).map fun plans => (plans, excluded) := by
  have hempty : a.groupObjectWithLimits [] excludedObjectIds = some (none, excludedObjectIds) :=
    congrArg (fun ids => some (none, ids)) (List.append_nil _)
  unfold analyze
  dsimp only
  split
  next hm => rw [hm, show filterBlocksToCompact [] = [] from rfl, hempty]; rfl
  next =>
    split
    next hm => rw [hm, hempty]; rfl
    next => rfl

end CompactionAnalyzer

end S3Stream
