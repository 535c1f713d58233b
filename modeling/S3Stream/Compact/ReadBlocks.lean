import S3Stream.Compact.Plan

/-! # Reading the blocks of a compaction

`DataBlockReader::read_blocks` of `s3stream-core/src/compact/executor.rs`: the blocks are read in
runs without a gap between their positions, a run in batches, and a block that is a batch of its own
in chunks. Whatever the batches, every block gets its bytes of the object.

The throttle only waits and is left out. -/

namespace S3Stream

open List

structure FetchedBlock where
  block : StreamDataBlock
  data : Bytes
  deriving DecidableEq, Repr

inductive ReadFailure where
  | storage (error : ObjectError)
  /-- A slice outside of what it is taken from. -/
  | panic
  /-- The loop has not ended. -/
  | running
  deriving DecidableEq, Repr

structure DataBlockReader where
  storage : Storage
  key : Key

namespace DataBlockReader

variable (r : DataBlockReader)

def rangeRead (start stop : Nat) : Except ReadFailure Bytes :=
  (r.storage.rangeRead r.key start (some stop)).mapError .storage

def sliceBytes (data : Bytes) (start stop : Nat) : Except ReadFailure Bytes :=
  if start ≤ stop ∧ stop ≤ data.length then .ok (data.field start (stop - start))
  else .error .panic

/-- The bytes of a run, cut into its blocks. -/
def sliceBlocks (data : Bytes) : Nat → List StreamDataBlock → Except ReadFailure (List FetchedBlock)
  | _, [] => .ok []
  | cursor, b :: bs => do
    let piece ← sliceBytes data cursor (cursor + b.blockSize)
    let rest ← sliceBlocks data (cursor + b.blockSize) bs
    return ⟨b, piece⟩ :: rest

/-- One read for blocks that follow one another. -/
def readRun (blocks : List StreamDataBlock) : Except ReadFailure (List FetchedBlock) :=
  match blocks.head?, blocks.getLast? with
  | some first, some last => do
    let data ← r.rangeRead first.blockStartPosition last.index.endPosition
    sliceBlocks data 0 blocks
  | _, _ => .error .panic

/-- The variables of the loop over the chunks of a block. -/
structure Chunking where
  position : Nat
  chunks : Bytes

def chunkStep (blockEnd maxReadBatchSize : Nat) (s : Chunking) :
    Chunking ⊕ Except ReadFailure Bytes :=
  if s.position < blockEnd then
    let stop := min blockEnd (s.position + maxReadBatchSize)
    match r.rangeRead s.position stop with
    | .error e => .inr (.error e)
    | .ok data => .inl ⟨stop, s.chunks ++ data⟩
  else .inr (.ok s.chunks)

def readChunks (block : StreamDataBlock) (maxReadBatchSize : Nat) : Except ReadFailure Bytes :=
  (Loop.loop (r.chunkStep block.index.endPosition maxReadBatchSize) (block.blockSize + 1)
    ⟨block.blockStartPosition, []⟩).getD (.error .running)

/-- The variables of the loop of `read_continuous`. -/
structure Batching where
  start : Nat
  current : Nat
  i : Nat
  out : List FetchedBlock

def batchStep (blocks : List StreamDataBlock) (maxReadBatchSize : Nat) (s : Batching) :
    Batching ⊕ Except ReadFailure (List FetchedBlock) :=
  match blocks[s.i]? with
  | some block =>
    if 0 < maxReadBatchSize ∧ maxReadBatchSize ≤ s.current + block.blockSize then
      if s.start = s.i then
        match r.readChunks block maxReadBatchSize with
        | .error e => .inr (.error e)
        | .ok data => .inl ⟨s.i + 1, 0, s.i + 1, s.out ++ [⟨block, data⟩]⟩
      else
        -- The batch is read without the block, which is looked at again.
        match r.readRun ((blocks.drop s.start).take (s.i - s.start)) with
        | .error e => .inr (.error e)
        | .ok run => .inl ⟨s.i, 0, s.i, s.out ++ run⟩
    else .inl { s with current := s.current + block.blockSize, i := s.i + 1 }
  | none =>
    .inr (if s.start < blocks.length then (r.readRun (blocks.drop s.start)).map (s.out ++ ·)
      else .ok s.out)

def readContinuous (blocks : List StreamDataBlock) (maxReadBatchSize : Nat)
    (out : List FetchedBlock) : Except ReadFailure (List FetchedBlock) :=
  if blocks = [] then .ok out
  else
    (Loop.loop (r.batchStep blocks maxReadBatchSize) (2 * blocks.length + 1)
      ⟨0, 0, 0, out⟩).getD (.error .running)

/-- The variables of the loop of `read_blocks`. -/
structure Reading where
  start : Nat
  offset : Option Nat
  fetched : List FetchedBlock

/-- One round, for a block and its index. -/
def readBlock (blocks : List StreamDataBlock) (maxReadBatchSize : Nat) (s : Reading)
    (next : StreamDataBlock × Nat) : Except ReadFailure Reading :=
  if s.offset.any fun expected => next.1.blockStartPosition ≠ expected then
    (r.readContinuous ((blocks.drop s.start).take (next.2 - s.start)) maxReadBatchSize
      s.fetched).map fun fetched => ⟨next.2, some next.1.index.endPosition, fetched⟩
  else .ok { s with offset := some next.1.index.endPosition }

def readBlocks (blocks : List StreamDataBlock) (maxReadBatchSize : Nat) :
    Except ReadFailure (List FetchedBlock) := do
  let s ← blocks.zipIdx.foldlM (r.readBlock blocks maxReadBatchSize) ⟨0, none, []⟩
  if s.start < blocks.length then
    r.readContinuous (blocks.drop s.start) maxReadBatchSize s.fetched
  else return s.fetched

end DataBlockReader

/-! ## The bytes of a block -/

def FetchedBlock.of (data : Bytes) (b : StreamDataBlock) : FetchedBlock :=
  ⟨b, data.field b.blockStartPosition b.blockSize⟩

def Adjoining (bs : List StreamDataBlock) : Prop :=
  bs.IsChain fun x y => x.index.endPosition = y.blockStartPosition

namespace DataBlockReader

variable {r : DataBlockReader} {data : Bytes} {bs blocks : List StreamDataBlock}

theorem sliceBlocks_eq (hstop : stop ≤ data.length) (hbs : Adjoining bs)
    (hhead : ∀ b ∈ bs.head?, b.blockStartPosition = start + cursor)
    (hlast : ∀ b ∈ bs, b.index.endPosition ≤ stop) :
    sliceBlocks (data.field start (stop - start)) cursor bs = .ok (bs.map (.of data)) := by
  induction bs generalizing cursor with
  | nil => rfl
  | cons b bs ih =>
    obtain ⟨hnext, hrest⟩ := isChain_cons.mp hbs
    have hb : b.blockStartPosition = start + cursor := hhead b rfl
    have hend : b.blockStartPosition + b.blockSize ≤ stop := hlast b mem_cons_self
    have hlength : (data.field start (stop - start)).length = stop - start :=
      Bytes.length_field (by omega)
    have hslice : sliceBytes (data.field start (stop - start)) cursor (cursor + b.blockSize) =
        .ok (data.field b.blockStartPosition b.blockSize) := by
      rw [sliceBytes, if_pos (by omega), Nat.add_sub_cancel_left, Bytes.field_field (by omega), hb]
    have htail : sliceBlocks (data.field start (stop - start)) (cursor + b.blockSize) bs =
        .ok (bs.map (.of data)) := by
      refine ih hrest (fun c hc => ?_) fun c hc => hlast c (mem_cons_of_mem b hc)
      rw [← hnext c hc, ← add_assoc, ← hb]
      rfl
    rw [sliceBlocks, hslice, htail]
    rfl

theorem le_endPosition_getLast (hbs : Adjoining bs) (hlast : bs.getLast? = some last) :
    ∀ b ∈ bs, b.index.endPosition ≤ last.index.endPosition := by
  induction bs with
  | nil => nofun
  | cons b bs ih =>
    obtain ⟨hnext, hrest⟩ := isChain_cons.mp hbs
    cases bs with
    | nil =>
      obtain rfl : b = last := Option.some.inj hlast
      intro c hc
      rw [mem_singleton.mp hc]
    | cons c bs =>
      have hall := ih hrest (by rwa [getLast?_cons_cons] at hlast)
      refine forall_mem_cons.mpr ⟨?_, hall⟩
      have hc : b.index.endPosition = c.index.startPosition := hnext c rfl
      rw [hc]
      exact (Nat.le_add_right _ _).trans (hall c mem_cons_self)

section
variable (hobject : r.storage.lookup r.key = some data)
include hobject

theorem rangeRead_eq (start stop : Nat) :
    r.rangeRead start stop = .ok (data.field start (stop - start)) := by
  rw [rangeRead, Storage.rangeRead_of_lookup hobject]
  rfl

theorem readRun_eq (hne : bs ≠ []) (hbs : Adjoining bs)
    (hin : ∀ b ∈ bs, b.index.endPosition ≤ data.length) :
    r.readRun bs = .ok (bs.map (.of data)) := by
  have hlast := getLast?_eq_some_getLast hne
  obtain ⟨first, hfirst⟩ := Option.isSome_iff_exists.mp (isSome_head?.mpr hne)
  rw [readRun, hfirst, hlast]
  dsimp only
  rw [rangeRead_eq hobject]
  refine sliceBlocks_eq (hin _ (getLast_mem hne)) hbs (fun b hb => ?_)
    (le_endPosition_getLast hbs hlast)
  rw [hfirst] at hb
  cases hb
  rfl

theorem readChunks_eq (hmax : 0 < maxReadBatchSize) : r.readChunks block maxReadBatchSize =
      .ok (data.field block.blockStartPosition block.blockSize) := by
  have hblock : block.index.endPosition = block.blockStartPosition + block.blockSize := rfl
  -- The chunks are the bytes up to the position.
  have hloop : ∃ result, Loop.loop (r.chunkStep block.index.endPosition maxReadBatchSize)
      (block.blockSize + 1) ⟨block.blockStartPosition, []⟩ = some result ∧
        result = .ok (data.field block.blockStartPosition block.blockSize) := by
    refine Loop.loop_spec (I := fun s => block.blockStartPosition ≤ s.position ∧
        s.position ≤ block.index.endPosition ∧
        s.chunks = data.field block.blockStartPosition (s.position - block.blockStartPosition))
      (fun s => block.index.endPosition - s.position) ?_ ?_ ?_ ?_
    · rintro s s' ⟨hfrom, hto, hchunks⟩ hstep
      simp only [chunkStep, rangeRead_eq hobject] at hstep
      split at hstep
      · rename_i hlt
        cases hstep
        dsimp only
        refine ⟨⟨by omega, by omega, ?_⟩, by omega⟩
        have hposition : s.position =
            block.blockStartPosition + (s.position - block.blockStartPosition) := by omega
        rw [hchunks]
        nth_rewrite 2 [hposition]
        rw [Bytes.field_append_field]
        congr 1
        omega
      · cases hstep
    · rintro s result ⟨hfrom, hto, hchunks⟩ hstep
      simp only [chunkStep, rangeRead_eq hobject] at hstep
      split at hstep
      · cases hstep
      · rename_i hge
        cases hstep
        rw [hchunks, show s.position - block.blockStartPosition = block.blockSize by omega]
    · exact ⟨le_rfl, Nat.le_add_right _ _, by simp [Bytes.field]⟩
    · show block.index.endPosition - block.blockStartPosition < block.blockSize + 1
      omega
  obtain ⟨result, hresult, rfl⟩ := hloop
  rw [readChunks, hresult]
  rfl

end

/-- What holds between two rounds of `read_continuous`: the blocks before `start` are read. -/
structure Batched (data : Bytes) (blocks : List StreamDataBlock) (out : List FetchedBlock)
    (s : Batching) : Prop where
  le : s.start ≤ s.i ∧ s.i ≤ blocks.length
  read : s.out = out ++ (blocks.take s.start).map (.of data)

def Batching.rest (blocks : List StreamDataBlock) (s : Batching) : Nat :=
  2 * (blocks.length - s.i) + if s.start < s.i then 1 else 0

section
variable {maxReadBatchSize : Nat} {out : List FetchedBlock}
variable (hobject : r.storage.lookup r.key = some data)
variable (hin : ∀ b ∈ blocks, b.index.endPosition ≤ data.length)
include hobject hin

theorem Batched.exists_batchStep (h : Batched data blocks out s) (hblocks : Adjoining blocks)
    (hi : s.i < blocks.length) :
    ∃ s', r.batchStep blocks maxReadBatchSize s = .inl s' ∧ Batched data blocks out s' ∧
      s'.rest blocks < s.rest blocks := by
  obtain ⟨hle, hlength⟩ := h.le
  have hblock := getElem?_eq_getElem hi
  simp only [DataBlockReader.batchStep, hblock]
  split
  · rename_i hbatch
    split
    · -- The block is a batch of its own.
      rename_i hstart
      rw [readChunks_eq hobject hbatch.1]
      refine ⟨_, rfl, ⟨⟨le_rfl, hi⟩, ?_⟩, ?_⟩
      · dsimp only
        rw [h.read, hstart, take_add_one, hblock, map_append, append_assoc]
        rfl
      · simp only [Batching.rest, lt_irrefl, if_false]
        omega
    · rename_i hstart
      have hne : (blocks.drop s.start).take (s.i - s.start) ≠ [] := by
        apply ne_nil_of_length_pos
        rw [length_take, length_drop]
        omega
      rw [readRun_eq hobject hne ((hblocks.drop _).take _) fun b hb =>
        hin b (mem_of_mem_drop (mem_of_mem_take hb))]
      refine ⟨_, rfl, ⟨⟨le_rfl, hlength⟩, ?_⟩, ?_⟩
      · dsimp only
        have hsplit : s.i = s.start + (s.i - s.start) := by omega
        rw [h.read, append_assoc, ← map_append]
        nth_rewrite 2 [hsplit]
        rw [take_add]
      · simp only [Batching.rest, lt_irrefl, if_false]
        rw [if_pos (by omega)]
        omega
  · refine ⟨_, rfl, ⟨⟨Nat.le_succ_of_le hle, hi⟩, h.read⟩, ?_⟩
    simp only [Batching.rest]
    split <;> split <;> omega

theorem Batched.batchStep_end (h : Batched data blocks out s) (hblocks : Adjoining blocks)
    (hi : blocks.length ≤ s.i) :
    r.batchStep blocks maxReadBatchSize s = .inr (.ok (out ++ blocks.map (.of data))) := by
  simp only [DataBlockReader.batchStep, getElem?_eq_none hi, h.read]
  congr 1
  split
  · have hne : blocks.drop s.start ≠ [] := by
      apply ne_nil_of_length_pos
      rw [length_drop]
      omega
    rw [readRun_eq hobject hne (hblocks.drop _) fun b hb => hin b (mem_of_mem_drop hb),
      Except.map, append_assoc, ← map_append, take_append_drop]
  · rw [take_of_length_le (by omega)]

theorem readContinuous_eq (hblocks : Adjoining blocks) :
    r.readContinuous blocks maxReadBatchSize out = .ok (out ++ blocks.map (.of data)) := by
  unfold readContinuous
  split
  · rename_i hnil
    rw [hnil, map_nil, append_nil]
  · have hloop : ∃ result, Loop.loop (r.batchStep blocks maxReadBatchSize) (2 * blocks.length + 1)
        ⟨0, 0, 0, out⟩ = some result ∧ result = .ok (out ++ blocks.map (.of data)) := by
      refine Loop.loop_spec (I := Batched data blocks out) (Batching.rest blocks)
        (fun s s' hs hstep => ?_) (fun s result hs hstep => ?_)
        ⟨⟨le_rfl, Nat.zero_le _⟩, by simp⟩ (Nat.lt_succ_self _)
      all_goals rcases lt_or_ge s.i blocks.length with hi | hi
      · obtain ⟨next, hnext, hbatched, hlt⟩ := hs.exists_batchStep hobject hin hblocks hi
        cases hnext.symm.trans hstep
        exact ⟨hbatched, hlt⟩
      · cases (hs.batchStep_end hobject hin hblocks hi).symm.trans hstep
      · obtain ⟨next, hnext, -⟩ := hs.exists_batchStep hobject hin hblocks hi
        cases hnext.symm.trans hstep
      · cases (hs.batchStep_end hobject hin hblocks hi).symm.trans hstep
        rfl
    obtain ⟨result, hresult, rfl⟩ := hloop
    rw [hresult]
    rfl

end

/-- What holds between two rounds of `read_blocks`, behind the blocks `done`. -/
structure Scanned (data : Bytes) (done : List StreamDataBlock) (s : Reading) : Prop where
  start : s.start ≤ done.length
  read : s.fetched = (done.take s.start).map (.of data)
  run : Adjoining (done.drop s.start)
  offset : s.offset = (done.drop s.start).getLast?.map (·.index.endPosition)

section
variable {maxReadBatchSize : Nat}
variable (hobject : r.storage.lookup r.key = some data)
variable (hin : ∀ b ∈ blocks, b.index.endPosition ≤ data.length)
include hobject hin

theorem Scanned.readBlock (h : Scanned data done s) (hblocks : blocks = done ++ b :: rest) :
    ∃ s', r.readBlock blocks maxReadBatchSize s (b, done.length) = .ok s' ∧
      Scanned data (done ++ [b]) s' := by
  unfold DataBlockReader.readBlock
  dsimp only
  split
  · -- A gap: the run before the block is read.
    have hrun : (blocks.drop s.start).take (done.length - s.start) = done.drop s.start := by
      rw [hblocks, drop_append_of_le_length h.start]
      exact take_left' (length_drop ..)
    have hmem : ∀ c ∈ done.drop s.start, c.index.endPosition ≤ data.length := fun c hc =>
      hin c (hblocks ▸ mem_append_left _ (mem_of_mem_drop hc))
    rw [hrun, readContinuous_eq hobject hmem h.run, h.read, ← map_append, take_append_drop]
    refine ⟨_, rfl, ⟨?_, ?_, ?_, ?_⟩⟩
    · simp
    · simp
    · simp [Adjoining]
    · simp
  · rename_i hnext
    refine ⟨_, rfl, ⟨?_, ?_, ?_, ?_⟩⟩
    · exact h.start.trans (by simp)
    · rw [h.read, take_append_of_le_length h.start]
    · rw [drop_append_of_le_length h.start]
      refine isChain_append.mpr ⟨h.run, isChain_singleton _, fun c hc d hd => ?_⟩
      obtain rfl : d = b := (Option.some.inj hd).symm
      rw [h.offset, Option.mem_def.mp hc] at hnext
      have hsame : d.blockStartPosition = c.index.endPosition := by simpa using hnext
      exact hsame.symm
    · rw [drop_append_of_le_length h.start]
      simp

theorem Scanned.foldlM (h : Scanned data done s) (hblocks : blocks = done ++ rest) :
    ∃ s', (rest.zipIdx done.length).foldlM (r.readBlock blocks maxReadBatchSize) s = .ok s' ∧
      Scanned data blocks s' := by
  induction rest generalizing done s with
  | nil =>
    rw [append_nil] at hblocks
    exact ⟨s, rfl, hblocks ▸ h⟩
  | cons b rest ih =>
    obtain ⟨s₁, hstep, h₁⟩ := h.readBlock hobject hin hblocks
    obtain ⟨s', hfold, h'⟩ := ih h₁ (by rw [hblocks, append_assoc]; rfl)
    refine ⟨s', ?_, h'⟩
    rw [zipIdx_cons, foldlM_cons, hstep]
    rw [length_append] at hfold
    exact hfold

end

/-- **Every block gets its bytes of the object**, in the order of the blocks. -/
theorem readBlocks_eq (r : DataBlockReader) {data : Bytes}
    (hobject : r.storage.lookup r.key = some data) {blocks : List StreamDataBlock}
    (hblocks : ∀ b ∈ blocks, 0 < b.blockSize ∧ b.index.endPosition ≤ data.length)
    (maxReadBatchSize : Nat) : r.readBlocks blocks maxReadBatchSize = .ok (blocks.map fun b =>
      ⟨b, (data.drop b.blockStartPosition).take
        (b.index.endPosition - b.blockStartPosition)⟩) := by
  have hin : ∀ b ∈ blocks, b.index.endPosition ≤ data.length := fun b hb => (hblocks b hb).2
  have hof : (fun b : StreamDataBlock => (⟨b, (data.drop b.blockStartPosition).take
      (b.index.endPosition - b.blockStartPosition)⟩ : FetchedBlock)) = .of data := by
    funext b
    show FetchedBlock.mk b (take (b.blockStartPosition + b.blockSize - _) _) = _
    rw [Nat.add_sub_cancel_left]
    rfl
  have hstart : Scanned data [] ⟨0, none, []⟩ := ⟨le_rfl, rfl, .nil, rfl⟩
  obtain ⟨s, hfold, h⟩ := hstart.foldlM hobject hin rfl
  have hlast : (if s.start < blocks.length then
      r.readContinuous (blocks.drop s.start) maxReadBatchSize s.fetched
      else .ok s.fetched) = .ok (blocks.map (.of data)) := by
    split
    · rw [readContinuous_eq hobject (fun b hb => hin b (mem_of_mem_drop hb)) h.run, h.read,
        ← map_append, take_append_drop]
    · rw [h.read, take_of_length_le (by omega)]
  rw [hof, ← hlast]
  exact congrArg (· >>= _) hfold

/-- Three blocks, of which the first two are one run and the last lies before them. -/
def threeBlocks : List StreamDataBlock :=
  [⟨0, ⟨-1, 0, 0, 1, 1, 2, 2⟩⟩, ⟨0, ⟨-1, 0, 1, 1, 1, 4, 1⟩⟩, ⟨0, ⟨-1, 0, 2, 1, 1, 0, 2⟩⟩]

def threeBlocksReader : DataBlockReader := ⟨[(['k'], [1, 2, 3, 4, 5, 6])], ['k']⟩

/-- In batches of one byte the first block is read in two chunks. -/
theorem readBlocks_eq_three : threeBlocksReader.readBlocks threeBlocks 1 =
    .ok (threeBlocks.zipWith FetchedBlock.mk [[3, 4], [5], [1, 2]]) :=
  have hobject : threeBlocksReader.storage.lookup threeBlocksReader.key =
      some [1, 2, 3, 4, 5, 6] := rfl
  threeBlocksReader.readBlocks_eq hobject (by decide) 1

end DataBlockReader

end S3Stream
