import S3Stream.Wal.Recover

/-! # The log cache

The readable in-memory twin of the delta WAL (`s3stream-core/src/cache/log_cache.rs`): one
active block that takes the records the WAL confirms and the archived blocks that wait for
their upload or, once marked free, for their memory to be released. The source keeps all blocks
in one vector whose last element is the active one; here the active block has its own field, so
that there always is one. -/

namespace S3Stream

open List OrdMap

/-- The stream id that stands for every stream. -/
def matchAllStreams : Nat := 2 ^ 64 - 1

def maxBlocksCount : Nat := 64

def mergeBlockThreshold : Nat := 8

def defaultMaxBlockStreamCount : Nat := 10000

def wrappingSub (a b : Nat) : Nat := (a + (2 ^ 64 - b % 2 ^ 64)) % 2 ^ 64

theorem wrappingSub_add (a : Nat) (h : d < 2 ^ 64) : wrappingSub (a + d) a = d := by
  have : a + d + (2 ^ 64 - a % 2 ^ 64) = d + 2 ^ 64 * (a / 2 ^ 64 + 1) := by omega
  rw [wrappingSub, this, Nat.add_mul_mod_self_left, Nat.mod_eq_of_lt h]

/-- `a - b` on the `u64` size of the cache, which wraps below zero (a debug build panics). -/
def sizeSub (a b : Nat) : Nat := if b ≤ a then a - b else a + 2 ^ 64 - b

theorem sizeSub_of_le {a b : Nat} (h : b ≤ a) : sizeSub a b = a - b := if_pos h

/-- The records of one stream in one block, in the order they were added. -/
structure StreamCache where
  records : List StreamRecordBatch
  startOffset : Option Nat
  endOffset : Option Nat
  deriving DecidableEq, Repr

namespace StreamCache

def new : StreamCache := ⟨[], none, none⟩

/-- Append a record; `none` when the stream would span more than `i32::MAX` offsets. A base
offset other than the end is only logged. -/
def add (c : StreamCache) (record : StreamRecordBatch) : Option StreamCache :=
  let effectiveStart := c.startOffset.getD record.baseOffset
  if i32Max < wrappingSub record.lastOffset effectiveStart then none
  else some
    { records := c.records ++ [record]
      startOffset := some effectiveStart
      endOffset := some record.lastOffset }

theorem records_of_add {c : StreamCache} (h : c.add r = some c') :
    c'.records = c.records ++ [r] := by
  simp only [add, Option.ite_none_left_eq_some, Option.some.injEq] at h
  rw [← h.2]

end StreamCache

/-- The offsets a batch covers fit an `i32`; of all counts only `i32::MIN` breaks this. -/
def StreamRecordBatch.SpanFits (r : StreamRecordBatch) : Prop :=
  r.lastOffset ≤ r.baseOffset + i32Max

instance (r : StreamRecordBatch) : Decidable r.SpanFits :=
  inferInstanceAs (Decidable (_ ≤ _))

theorem StreamCache.isSome_add_new (h : r.SpanFits) : (StreamCache.new.add r).isSome := by
  obtain ⟨d, hd⟩ := Nat.exists_eq_add_of_le r.baseOffset_le_lastOffset
  have hle : d ≤ i32Max := by unfold StreamRecordBatch.SpanFits at h; omega
  have hlt : d < 2 ^ 64 := by unfold i32Max at hle; omega
  simp [add, new, hd, wrappingSub_add _ hlt, not_lt.mpr hle]

/-- A block. `created`, which only the upload rate reads, and the free listeners of the
snapshot cache are left out. -/
structure LogCacheBlock where
  blockId : Nat
  maxSize : Nat
  maxStreamCount : Nat
  map : OrdMap Nat StreamCache
  lastRecordOffset : Option RecordOffset
  size : Nat
  overflow : Bool
  free : Bool

namespace LogCacheBlock

def new (blockId maxSize maxStreamCount : Nat) : LogCacheBlock where
  blockId
  maxSize
  maxStreamCount
  map := .empty
  lastRecordOffset := none
  size := 0
  overflow := false
  free := false

def isFull (b : LogCacheBlock) : Bool :=
  b.overflow || b.maxSize ≤ b.size || b.maxStreamCount ≤ b.map.entries.length

/-- Put a record. A refused record may leave its stream behind with no records. -/
def put (b : LogCacheBlock) (record : StreamRecordBatch) : LogCacheBlock × Bool :=
  if b.isFull then (b, false)
  else
    let cache := (b.map.get? record.streamId).getD StreamCache.new
    match cache.add record with
    | none => ({ b with map := b.map.insert record.streamId cache, overflow := true }, false)
    | some cache =>
      ({ b with
          map := b.map.insert record.streamId cache
          size := b.size + record.occupiedSize }, true)

/-- The records of every stream, the input of an upload. -/
def records (b : LogCacheBlock) : OrdMap Nat (List StreamRecordBatch) :=
  b.map.mapValues StreamCache.records

def containsStream (b : LogCacheBlock) (streamId : Nat) : Bool :=
  streamId = matchAllStreams || b.map.contains streamId

/-- Release the memory of a block. -/
def freeAndNotify (b : LogCacheBlock) : LogCacheBlock := { b with map := .empty }

def Holds (b : LogCacheBlock) (r : StreamRecordBatch) : Prop :=
  ∃ rs, b.records.get? r.streamId = some rs ∧ r ∈ rs

variable {b : LogCacheBlock} {r r' : StreamRecordBatch}

theorem Holds.containsStream (h : b.Holds r) : b.containsStream r.streamId = true := by
  obtain ⟨rs, hget, -⟩ := h
  rw [records, OrdMap.get?_mapValues] at hget
  obtain ⟨c, hc, -⟩ := Option.map_eq_some_iff.mp hget
  simp [LogCacheBlock.containsStream, OrdMap.contains, hc]

/-- What a call of `put` can do: leave the block, note an overflow, or add the record. -/
inductive PutEffect (b : LogCacheBlock) (r : StreamRecordBatch) : LogCacheBlock × Bool → Prop
  | full (hfull : b.isFull) : PutEffect b r (b, false)
  | overflow {c} (hnot : b.isFull = false)
      (hc : c = (b.map.get? r.streamId).getD StreamCache.new) (hadd : c.add r = none) :
      PutEffect b r ({ b with map := b.map.insert r.streamId c, overflow := true }, false)
  | added {c c'} (hnot : b.isFull = false)
      (hc : c = (b.map.get? r.streamId).getD StreamCache.new) (hadd : c.add r = some c') :
      PutEffect b r ({ b with
        map := b.map.insert r.streamId c', size := b.size + r.occupiedSize }, true)

theorem put_effect (h : b.put r = p) : PutEffect b r p := by
  subst h
  unfold put
  split
  next hfull => exact .full hfull
  next hfull =>
    have hnot : b.isFull = false := by simpa using hfull
    dsimp only
    split
    next hadd => exact .overflow hnot rfl hadd
    next c' hadd => exact .added hnot rfl hadd

theorem Holds.insert (h : b.Holds r')
    (hc : ∀ x ∈ ((b.map.get? r.streamId).getD StreamCache.new).records, x ∈ c.records) :
    ({ b with map := b.map.insert r.streamId c } : LogCacheBlock).Holds r' := by
  obtain ⟨rs, hget, hmem⟩ := h
  rw [records, get?_mapValues] at hget
  obtain ⟨d, hd, rfl⟩ := Option.map_eq_some_iff.mp hget
  by_cases hid : r'.streamId = r.streamId
  · refine ⟨c.records, ?_, hc r' ?_⟩
    · rw [records, hid, get?_mapValues, get?_insert_self]; rfl
    · rwa [← hid, hd]
  · refine ⟨d.records, ?_, hmem⟩
    rw [records, get?_mapValues, get?_insert_of_ne hid, hd]; rfl

theorem Holds.put (h : b.Holds r') : (b.put r).1.Holds r' := by
  generalize hp : b.put r = p
  cases put_effect hp with
  | full => exact h
  | overflow _ hc => exact h.insert fun x hx => hc ▸ hx
  | added _ hc hadd =>
    refine h.insert fun x hx => ?_
    rw [StreamCache.records_of_add hadd, hc]
    exact mem_append_left _ hx

theorem holds_of_put (h : (b.put r).2 = true) : (b.put r).1.Holds r := by
  generalize hp : b.put r = p at h
  cases put_effect hp with
  | full => cases h
  | overflow => cases h
  | @added c c' _ _ hadd =>
    refine ⟨c'.records, ?_, ?_⟩
    · rw [records, get?_mapValues, get?_insert_self]; rfl
    · rw [StreamCache.records_of_add hadd]
      exact mem_append_right _ (mem_singleton_self r)

theorem size_of_put_refused (h : (b.put r).2 = false) : (b.put r).1.size = b.size := by
  generalize hp : b.put r = p at h
  cases put_effect hp with
  | full => rfl
  | overflow => rfl
  | added => cases h

@[simp] theorem lastRecordOffset_put : (b.put r).1.lastRecordOffset = b.lastRecordOffset := by
  generalize hp : b.put r = p
  cases put_effect hp <;> rfl

@[simp] theorem put_blockId : (b.put r).1.blockId = b.blockId := by
  generalize hp : b.put r = p
  cases put_effect hp <;> rfl

@[simp] theorem put_free : (b.put r).1.free = b.free := by
  generalize hp : b.put r = p
  cases put_effect hp <;> rfl

/-- A block that still takes records: until the first one is in, nothing is. -/
structure Accepting (b : LogCacheBlock) : Prop where
  maxSize : 0 < b.maxSize
  maxStreamCount : 0 < b.maxStreamCount
  untouched : b.size = 0 → b.map = .empty ∧ b.overflow = false

theorem accepting_new {blockId maxSize maxStreamCount : Nat} (hsize : 0 < maxSize)
    (hcount : 0 < maxStreamCount) : (new blockId maxSize maxStreamCount).Accepting :=
  ⟨hsize, hcount, fun _ => ⟨rfl, rfl⟩⟩

theorem Accepting.size_pos (h : b.Accepting) (hr : b.Holds r) : 0 < b.size := by
  refine pos_of_ne_zero fun hzero => ?_
  obtain ⟨rs, hget, -⟩ := hr
  rw [records, (h.untouched hzero).1] at hget
  cases hget

theorem Accepting.put_of_empty (h : b.Accepting) (hr : r.SpanFits) (hzero : b.size = 0) :
    (b.put r).2 = true := by
  obtain ⟨hmap, hover⟩ := h.untouched hzero
  have hfull : b.isFull = false := by
    have hsize := h.maxSize
    have hcount := h.maxStreamCount
    simp only [isFull, hover, hmap, empty, length_nil, Bool.false_or,
      Bool.or_eq_false_iff, decide_eq_false_iff_not]
    omega
  generalize hp : b.put r = p
  cases put_effect hp with
  | full hf => rw [hfull] at hf; cases hf
  | overflow _ hc hadd =>
    rw [hmap, get?_empty, Option.getD_none] at hc
    have hsome := StreamCache.isSome_add_new hr
    rw [← hc, hadd] at hsome
    cases hsome
  | added => rfl

theorem Accepting.put (h : b.Accepting) (hr : r.SpanFits) : (b.put r).1.Accepting := by
  have hempty := h.put_of_empty hr
  generalize hp : b.put r = p at hempty
  cases put_effect hp with
  | full => exact h
  | overflow =>
    refine ⟨h.maxSize, h.maxStreamCount, fun hzero => ?_⟩
    cases hempty hzero
  | added =>
    refine ⟨h.maxSize, h.maxStreamCount, fun hzero => ?_⟩
    simp [StreamRecordBatch.occupiedSize, objectOverhead] at hzero

end LogCacheBlock

/-- The delta-WAL cache. `archived` are the blocks before the active one, oldest first, and
`nextBlockId` is the allocator of block ids. -/
structure LogCache where
  capacity : Nat
  cacheBlockMaxSize : Nat
  maxCacheBlockStreamCount : Nat
  size : Nat
  archived : List LogCacheBlock
  active : LogCacheBlock
  lastRecordOffset : Option RecordOffset
  nextBlockId : Nat

namespace LogCache

def new (capacity cacheBlockMaxSize maxCacheBlockStreamCount : Nat) : LogCache where
  capacity
  cacheBlockMaxSize
  maxCacheBlockStreamCount
  size := 0
  archived := []
  active := .new 0 cacheBlockMaxSize maxCacheBlockStreamCount
  lastRecordOffset := none
  nextBlockId := 1

/-! ## Releasing memory -/

def isOver (c : LogCache) (size blocks : Nat) : Bool :=
  c.capacity / 10 * 9 < size || maxBlocksCount < blocks

/-- The loop of `try_real_free` over the archived blocks: how many it releases. The active
block is never free, so the loop ends there at the latest. -/
def releaseCount (c : LogCache) : Nat → List LogCacheBlock → Nat
  | _, [] => 0
  | size, b :: bs =>
    if c.isOver size (bs.length + 2) && b.free then c.releaseCount (sizeSub size b.size) bs + 1
    else 0

/-- The blocks that `try_real_free` releases. -/
def released (c : LogCache) : List LogCacheBlock :=
  c.archived.take (c.releaseCount c.size c.archived)

def tryRealFree (c : LogCache) : LogCache :=
  { c with
    archived := c.archived.drop (c.releaseCount c.size c.archived)
    size := sizeSub c.size (c.released.map LogCacheBlock.size).sum }

def isDiscontinuous (left right : LogCacheBlock) : Bool :=
  left.map.entries.any fun e =>
    (right.map.get? e.1).any fun cache => e.2.endOffset ≠ cache.startOffset

/-- Copy the records of one stream into a merged block. -/
def mergeStream (map : OrdMap Nat StreamCache) (streamId : Nat) (source : StreamCache) :
    OrdMap Nat StreamCache :=
  match map.get? streamId with
  | none => map.insert streamId source
  | some merged => map.insert streamId
      { merged with records := merged.records ++ source.records, endOffset := source.endOffset }

def mergeBlock (merged source : LogCacheBlock) : LogCacheBlock :=
  { merged with
    size := merged.size + source.size
    lastRecordOffset := source.lastRecordOffset.or merged.lastRecordOffset
    map := source.map.entries.foldl (fun map e => mergeStream map e.1 e.2) merged.map }

/-- The loop of `try_merge`: `before` blocks stand before `left`, then the given ones and the
active block. Returns the blocks from `left` on and the id allocator. -/
def mergeFrom (c : LogCache) (before nextBlockId : Nat) (left : LogCacheBlock) :
    List LogCacheBlock → List LogCacheBlock × Nat
  | [] => ([left], nextBlockId)
  | right :: rest =>
    if before + rest.length + 3 ≤ mergeBlockThreshold || !left.free || !right.free then
      (left :: right :: rest, nextBlockId)
    else if c.cacheBlockMaxSize ≤ left.size + right.size || isDiscontinuous left right then
      let (blocks, nextBlockId) := c.mergeFrom (before + 1) nextBlockId right rest
      (left :: blocks, nextBlockId)
    else
      let merged := mergeBlock (mergeBlock (.new nextBlockId (2 ^ 64 - 1)
        defaultMaxBlockStreamCount) left) right
      c.mergeFrom before (nextBlockId + 1) { merged with free := true } rest

def tryMerge (c : LogCache) : LogCache :=
  match c.archived with
  | [] => c
  | left :: rest =>
    let (blocks, nextBlockId) := c.mergeFrom 0 c.nextBlockId left rest
    { c with archived := blocks, nextBlockId }

/-- The part of `mark_free` before `try_real_free`. -/
def setFree (c : LogCache) (blockId : Nat) : LogCache :=
  { c with archived := c.archived.map fun b =>
      if b.blockId = blockId then { b with free := true } else b }

def markFree (c : LogCache) (blockId : Nat) : LogCache :=
  (c.setFree blockId).tryRealFree.tryMerge

/-! ## Putting and archiving -/

def put (c : LogCache) (record : StreamRecordBatch) : LogCache × Bool :=
  let c := c.tryRealFree
  let (active, added) := c.active.put record
  ({ c with active, size := if added then c.size + record.occupiedSize else c.size }, added)

def archiveCurrentBlock (c : LogCache) : LogCache × LogCacheBlock :=
  let block := { c.active with
    lastRecordOffset := c.lastRecordOffset.or c.active.lastRecordOffset }
  ({ c with
      archived := c.archived ++ [block]
      active := .new c.nextBlockId c.cacheBlockMaxSize c.maxCacheBlockStreamCount
      nextBlockId := c.nextBlockId + 1 }, block)

def shouldArchive (c : LogCache) (streamId : Nat) : Bool :=
  if streamId = matchAllStreams then 0 < c.active.size else c.active.containsStream streamId

def archiveCurrentBlockIfContains (c : LogCache) (streamId : Nat) :
    LogCache × Option LogCacheBlock :=
  if c.shouldArchive streamId then
    let (c, block) := c.archiveCurrentBlock
    (c, some block)
  else (c, none)

def setLastRecordOffset (c : LogCache) (offset : RecordOffset) : LogCache :=
  { c with lastRecordOffset := some offset }

/-! ## The active side

Releasing and merging touch the archived blocks only. -/

/-- What putting and archiving read. -/
def front (c : LogCache) : LogCacheBlock × Option RecordOffset × Nat × Nat :=
  (c.active, c.lastRecordOffset, c.cacheBlockMaxSize, c.maxCacheBlockStreamCount)

@[simp] theorem front_markFree (c : LogCache) (blockId : Nat) :
    (c.markFree blockId).front = c.front := by
  unfold markFree tryMerge
  split <;> rfl

/-! ## The archived side -/

variable {c : LogCache} {b left : LogCacheBlock} {rest : List LogCacheBlock}

theorem free_of_mem_take_releaseCount {size : Nat} {bs : List LogCacheBlock}
    (h : b ∈ bs.take (c.releaseCount size bs)) : b.free = true := by
  induction bs generalizing size with
  | nil => cases h
  | cons d bs ih =>
    rw [releaseCount] at h
    split at h
    next hcond =>
      rw [take_succ_cons, mem_cons] at h
      rcases h with rfl | h
      · exact (Bool.and_eq_true_iff.mp hcond).2
      · exact ih h
    next => cases h

/-- Only free blocks are released. -/
theorem free_of_mem_released (h : b ∈ c.released) : b ∈ c.archived ∧ b.free = true :=
  ⟨mem_of_mem_take h, free_of_mem_take_releaseCount h⟩

theorem mem_archived_of_tryRealFree (h : b ∈ c.tryRealFree.archived) : b ∈ c.archived :=
  mem_of_mem_drop h

theorem mem_mergeFrom (before nextBlockId : Nat) (left : LogCacheBlock)
    (rest : List LogCacheBlock) :
    nextBlockId ≤ (c.mergeFrom before nextBlockId left rest).2 ∧
    ∀ b ∈ (c.mergeFrom before nextBlockId left rest).1, b = left ∨ b ∈ rest ∨
      nextBlockId ≤ b.blockId ∧ b.blockId < (c.mergeFrom before nextBlockId left rest).2 := by
  induction rest generalizing before nextBlockId left with
  | nil =>
    refine ⟨le_rfl, fun b hb => .inl ?_⟩
    simpa [mergeFrom] using hb
  | cons right rest ih =>
    rw [mergeFrom]
    split
    · refine ⟨le_rfl, fun b hb => ?_⟩
      rcases mem_cons.mp hb with rfl | hb
      · exact .inl rfl
      · exact .inr (.inl hb)
    · split
      · obtain ⟨hle, hmem⟩ := ih (before + 1) nextBlockId right
        refine ⟨hle, fun b hb => ?_⟩
        rcases mem_cons.mp hb with rfl | hb
        · exact .inl rfl
        · rcases hmem b hb with rfl | hb | hb
          · exact .inr (.inl mem_cons_self)
          · exact .inr (.inl (mem_cons_of_mem _ hb))
          · exact .inr (.inr hb)
      · -- The merged block takes the place of `left` and has the next id.
        obtain ⟨hle, hmem⟩ := ih before (nextBlockId + 1)
          { mergeBlock (mergeBlock (.new nextBlockId (2 ^ 64 - 1)
            defaultMaxBlockStreamCount) left) right with free := true }
        refine ⟨Nat.le_of_succ_le hle, fun b hb => ?_⟩
        rcases hmem b hb with rfl | hb | hb
        · exact .inr (.inr ⟨le_rfl, hle⟩)
        · exact .inr (.inl (mem_cons_of_mem _ hb))
        · exact .inr (.inr ⟨Nat.le_of_succ_le hb.1, hb.2⟩)

theorem mem_tryMerge : c.nextBlockId ≤ c.tryMerge.nextBlockId ∧
    ∀ b ∈ c.tryMerge.archived, b ∈ c.archived ∨
      c.nextBlockId ≤ b.blockId ∧ b.blockId < c.tryMerge.nextBlockId := by
  unfold tryMerge
  split
  next h => exact ⟨le_rfl, fun b hb => .inl hb⟩
  next left rest h =>
    obtain ⟨hle, hmem⟩ := mem_mergeFrom 0 c.nextBlockId left rest
    refine ⟨hle, fun b hb => ?_⟩
    rw [h, mem_cons, or_assoc]
    exact hmem b hb

/-- What `mark_free` leaves in the archive, with the flag of its block. -/
theorem mem_markFree (c : LogCache) (blockId : Nat) :
    c.nextBlockId ≤ (c.markFree blockId).nextBlockId ∧
    ∀ b ∈ (c.markFree blockId).archived, b ∈ (c.setFree blockId).archived ∨
      c.nextBlockId ≤ b.blockId ∧ b.blockId < (c.markFree blockId).nextBlockId := by
  obtain ⟨hle, hmem⟩ := mem_tryMerge
  exact ⟨hle, fun b hb => (hmem b hb).imp_left mem_archived_of_tryRealFree⟩

end LogCache

end S3Stream
