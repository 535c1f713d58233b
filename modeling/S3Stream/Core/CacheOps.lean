import S3Stream.Core.CacheAnswers

/-! # Operations of the log cache

All operations that change a `LogCache` (`s3stream-core/src/cache/log_cache.rs`), with
`clear_stream_records`. Two properties over their sequences: the sizes that the cache and its blocks
keep are those of the records they hold as long as no records of a stream are cleared, and the
records of a stream in a block are contiguous as long as the callers put them so; a record out of
order is not refused. -/

namespace S3Stream

open List TransitionSystem Windows StreamRecordBatch LogCacheBlock

namespace LogCacheBlock

/-- Drop the records of a stream; the second component is their occupied size. The block keeps the
size it had. -/
def freeStream (b : LogCacheBlock) (streamId : Nat) : LogCacheBlock × Nat :=
  ({ b with map := b.map.filter (·.1 ≠ streamId) },
    match b.map.get? streamId with
    | some cache => total StreamRecordBatch.occupiedSize cache.records
    | none => 0)

def occupied (b : LogCacheBlock) : Nat :=
  (b.map.entries.map fun e => total StreamRecordBatch.occupiedSize e.2.records).sum

end LogCacheBlock

namespace LogCache

def clearStreamRecords (c : LogCache) (streamId : Nat) : LogCache :=
  { c with
    archived := c.archived.map fun b => (b.freeStream streamId).1
    active := (c.active.freeStream streamId).1
    size := sizeSub c.size (c.blocks.map fun b => (b.freeStream streamId).2).sum }

theorem blocks_clearStreamRecords (c : LogCache) (streamId : Nat) :
    (c.clearStreamRecords streamId).blocks = c.blocks.map fun b => (b.freeStream streamId).1 := by
  rw [blocks, blocks, map_append]
  rfl

/-- The calls that change a cache. Releasing and merging are part of `put` and `mark_free`. -/
inductive Op where
  | put (record : StreamRecordBatch)
  | archive
  | archiveIfContains (streamId : Nat)
  | markFree (blockId : Nat)
  | clear (streamId : Nat)
  deriving DecidableEq, Repr

def step (c : LogCache) : Op → Option LogCache
  | .put record => some (c.put record).1
  | .archive => some c.archiveCurrentBlock.1
  | .archiveIfContains streamId => some (c.archiveCurrentBlockIfContains streamId).1
  | .markFree blockId => some (c.markFree blockId)
  | .clear streamId => some (c.clearStreamRecords streamId)

variable {c c' : LogCache} {b left right : LogCacheBlock} {op : Op} {ops : List Op}
  {n streamId : Nat}
  {r : StreamRecordBatch} {P : LogCacheBlock → Prop}

/-! ## What an operation does to the blocks -/

/-- What releasing, marking, merging and archiving keep of a block. -/
structure Kept (P : LogCacheBlock → Prop) : Prop where
  new : ∀ blockId maxSize maxStreamCount, P (.new blockId maxSize maxStreamCount)
  flags : ∀ b free lastRecordOffset, P b → P { b with free, lastRecordOffset }
  merged : ∀ n left right, isDiscontinuous left right = false → P left → P right →
    P (merged n left right)

theorem Kept.tryMerge (hP : Kept P) (h : ∀ b ∈ c.archived, P b) :
    ∀ b ∈ c.tryMerge.archived, P b := by
  refine c.tryMerge_induction (P := fun bs _ => ∀ b ∈ bs, P b) h ?_
  intro us vs left right n _ _ hcont hbs b hb
  rcases mem_of_mem_merge hb with rfl | hb
  · exact hP.merged n left right hcont (hbs left (by simp)) (hbs right (by simp))
  · exact hbs b hb

theorem Kept.setFree (hP : Kept P) (blockId : Nat) (h : ∀ b ∈ c.archived, P b) :
    ∀ b ∈ (c.setFree blockId).archived, P b := by
  intro b hb
  obtain ⟨d, hd, rfl⟩ := mem_map.mp hb
  split
  · exact hP.flags d true d.lastRecordOffset (h d hd)
  · exact h d hd

theorem Kept.archive (hP : Kept P) (h : ∀ b ∈ c.blocks, P b) :
    ∀ b ∈ c.archiveCurrentBlock.1.blocks, P b := by
  obtain ⟨harchived, hactive⟩ := forall_mem_append.mp h
  rw [forall_mem_singleton] at hactive
  simp only [archiveCurrentBlock, blocks, forall_mem_append, forall_mem_singleton]
  exact ⟨⟨harchived, hP.flags c.active c.active.free _ hactive⟩, hP.new ..⟩

/-- An operation keeps what putting its record and clearing its stream keep. -/
theorem Kept.step (hP : Kept P) (hput : ∀ r, op = .put r → P c.active → P (c.active.put r).1)
    (hclear : ∀ streamId, op = .clear streamId → ∀ b ∈ c.blocks, P b → P (b.freeStream streamId).1)
    (h : ∀ b ∈ c.blocks, P b) (hs : c.step op = some c') : ∀ b ∈ c'.blocks, P b := by
  have harchived : ∀ b ∈ c.archived, P b := fun b hb => h b (mem_append_left _ hb)
  have hactive := h c.active (mem_append_right _ (mem_singleton_self _))
  cases op with
  | put r =>
    cases hs
    exact forall_mem_append.mpr
      ⟨fun b hb => harchived b (mem_archived_of_tryRealFree hb),
        forall_mem_singleton.mpr (hput r rfl hactive)⟩
  | archive =>
    cases hs
    exact hP.archive h
  | archiveIfContains =>
    cases hs
    rw [archiveCurrentBlockIfContains]
    split
    · exact hP.archive h
    · exact h
  | markFree blockId =>
    cases hs
    refine forall_mem_append.mpr ⟨hP.tryMerge fun d hd => ?_, forall_mem_singleton.mpr ?_⟩
    · exact hP.setFree blockId harchived d (mem_archived_of_tryRealFree hd)
    · have hfront : (c.markFree blockId).active = c.active :=
        congrArg Prod.fst (front_markFree c blockId)
      rwa [hfront]
  | clear streamId =>
    cases hs
    intro b hb
    rw [blocks_clearStreamRecords] at hb
    obtain ⟨d, hd, rfl⟩ := mem_map.mp hb
    exact hclear streamId rfl d hd (h d hd)

/-! ## The sizes of blocks -/

def Sized (b : LogCacheBlock) : Prop := b.size = b.occupied

theorem sum_mergeStream (map : OrdMap Nat StreamCache) (id : Nat) (source : StreamCache) :
    ((mergeStream map id source).entries.map
        fun e => total occupiedSize e.2.records).sum =
      (map.entries.map fun e => total occupiedSize e.2.records).sum +
        total occupiedSize source.records := by
  unfold mergeStream
  split
  next hget =>
    have hsum := map.sum_insert id source
      fun e => total occupiedSize e.2.records
    rw [hget] at hsum
    exact hsum
  next merged hget =>
    have hsum := map.sum_insert id { merged with
      records := merged.records ++ source.records, endOffset := source.endOffset }
      fun e => total occupiedSize e.2.records
    rw [hget] at hsum
    simp only [Option.map_some, Option.getD_some, total_append] at hsum
    omega

theorem occupied_mergeBlock (merged source : LogCacheBlock) :
    (mergeBlock merged source).occupied = merged.occupied + source.occupied := by
  unfold mergeBlock occupied
  generalize merged.map = map
  generalize source.map.entries = es
  induction es generalizing map with
  | nil => rfl
  | cons e es ih =>
    rw [foldl_cons, ih, sum_mergeStream, map_cons, sum_cons, add_assoc]

theorem occupied_new (blockId maxSize maxStreamCount : Nat) :
    (LogCacheBlock.new blockId maxSize maxStreamCount).occupied = 0 := rfl

theorem size_merged (n : Nat) (left right : LogCacheBlock) :
    (merged n left right).size = left.size + right.size := by
  show 0 + left.size + right.size = _
  rw [zero_add]

theorem occupied_merged (n : Nat) (left right : LogCacheBlock) :
    (merged n left right).occupied = left.occupied + right.occupied := by
  show (mergeBlock (mergeBlock _ left) right).occupied = _
  rw [occupied_mergeBlock, occupied_mergeBlock, occupied_new, zero_add]

theorem kept_sized : Kept Sized where
  new _ _ _ := rfl
  flags _ _ _ h := h
  merged n left right _ hleft hright := by
    rw [Sized, size_merged, occupied_merged, hleft, hright]

theorem occupied_put (b : LogCacheBlock) (r : StreamRecordBatch) :
    (b.put r).1.occupied = b.occupied + (if (b.put r).2 then r.occupiedSize else 0) := by
  generalize hp : b.put r = p
  cases put_effect hp with
  | full => rfl
  | @overflow c _ hc =>
    have hsum := b.map.sum_insert r.streamId c
      fun e => total occupiedSize e.2.records
    show ((b.map.insert r.streamId c).entries.map _).sum = b.occupied + 0
    rw [occupied]
    cases hget : b.map.get? r.streamId with
    | none =>
      rw [hget] at hc hsum
      subst hc
      exact hsum
    | some =>
      rw [hget] at hc hsum
      subst hc
      simp only [Option.map_some, Option.getD_some] at hsum ⊢
      omega
  | @added c c' _ hc hadd =>
    have hsum := b.map.sum_insert r.streamId c'
      fun e => total occupiedSize e.2.records
    show ((b.map.insert r.streamId c').entries.map _).sum = b.occupied + r.occupiedSize
    rw [occupied]
    rw [StreamCache.records_of_add hadd, total_append, total_cons, total_nil] at hsum
    cases hget : b.map.get? r.streamId with
    | none =>
      rw [hget] at hc hsum
      subst hc
      simp only [Option.getD_none, StreamCache.new, total_nil] at hsum
      simp only [Option.map_none, Option.getD_none] at hsum
      omega
    | some =>
      rw [hget] at hc hsum
      subst hc
      simp only [Option.map_some, Option.getD_some] at hsum
      omega

theorem size_put (b : LogCacheBlock) (r : StreamRecordBatch) :
    (b.put r).1.size = b.size + (if (b.put r).2 then r.occupiedSize else 0) := by
  generalize hp : b.put r = p
  cases put_effect hp <;> rfl

theorem occupied_freeStream (b : LogCacheBlock) (streamId : Nat) :
    (b.freeStream streamId).2 + (b.freeStream streamId).1.occupied = b.occupied := by
  have hsum := b.map.sum_entries streamId
    fun e => total occupiedSize e.2.records
  refine Eq.trans ?_ hsum.symm
  unfold freeStream occupied
  cases b.map.get? streamId <;> rfl

/-! ## The sizes of a cache -/

/-- The accounts of a cache: its size is the sum of its blocks' sizes and the occupied size of the
records in it, that of a block is the occupied size of its records, and neither the release of the
first blocks nor the clearing of a stream takes off more than the size. -/
structure Accounted (c : LogCache) : Prop where
  block : ∀ b ∈ c.blocks, Sized b
  size : c.size = total LogCacheBlock.size c.blocks
  records : c.size = total LogCacheBlock.occupied c.blocks
  release : ∀ k, total LogCacheBlock.size (c.archived.take k) ≤ c.size
  clear : ∀ streamId, (c.blocks.map fun b => (b.freeStream streamId).2).sum ≤ c.size

theorem total_congr (h : ∀ b ∈ bs, f b = g b) : total f bs = total g bs := by
  rw [total, total, map_congr_left h]

theorem accounted_of_size (hblock : ∀ b ∈ c.blocks, Sized b)
    (hsize : c.size = total LogCacheBlock.size c.blocks) : c.Accounted := by
  refine ⟨hblock, hsize, hsize.trans (total_congr hblock), fun k => ?_, fun streamId => ?_⟩
  · rw [hsize, blocks, total_append, ← take_append_drop k c.archived, total_append,
      take_append_drop]
    omega
  · rw [hsize, total_congr hblock]
    exact sum_le_sum fun b _ => by
      have hsum := occupied_freeStream b streamId
      omega

theorem total_setFree (c : LogCache) (blockId : Nat) :
    total LogCacheBlock.size (c.setFree blockId).archived =
      total LogCacheBlock.size c.archived := by
  show (map _ (map _ _)).sum = _
  rw [map_map]
  refine congrArg sum (map_congr_left fun b _ => ?_)
  dsimp only [Function.comp]
  split <;> rfl

theorem total_tryMerge (c : LogCache) :
    total LogCacheBlock.size c.tryMerge.archived = total LogCacheBlock.size c.archived := by
  refine c.tryMerge_induction
    (P := fun bs _ => total LogCacheBlock.size bs = total LogCacheBlock.size c.archived) rfl ?_
  intro us vs left right n _ _ _ hbs
  rw [← hbs]
  simp only [total_append, total_cons, size_merged]
  omega

theorem total_tryRealFree (h : c.size = total LogCacheBlock.size c.blocks) :
    c.tryRealFree.size = total LogCacheBlock.size c.tryRealFree.blocks := by
  have hsplit : total LogCacheBlock.size c.archived =
      total LogCacheBlock.size c.released + total LogCacheBlock.size c.tryRealFree.archived := by
    rw [← total_append]
    exact congrArg (total LogCacheBlock.size) (take_append_drop _ _).symm
  rw [blocks, total_append] at h
  show sizeSub c.size (total LogCacheBlock.size c.released) = total LogCacheBlock.size
    (c.tryRealFree.archived ++ [c.active])
  rw [total_append, sizeSub_of_le (by omega)]
  omega

/-- The streams that are cleared have no records in the cache. -/
def ClearsNothing (c : LogCache) : Op → Prop
  | .clear streamId => ∀ b ∈ c.blocks, b.streamRecords streamId = []
  | .put _ | .archive | .archiveIfContains _ | .markFree _ => True

instance (c : LogCache) : ∀ op, Decidable (c.ClearsNothing op)
  | .clear streamId => inferInstanceAs (Decidable (∀ b ∈ c.blocks, b.streamRecords streamId = []))
  | .put _ | .archive | .archiveIfContains _ | .markFree _ => isTrue trivial

theorem freeStream_eq_zero (h : b.streamRecords streamId = []) : (b.freeStream streamId).2 = 0 := by
  unfold freeStream
  split
  next hget =>
    rw [streamRecords_of_get? hget] at h
    rw [h]
    rfl
  next => rfl

theorem Accounted.step (h : c.Accounted) (hop : c.ClearsNothing op) (hs : c.step op = some c') :
    c'.Accounted := by
  have hblock : ∀ b ∈ c'.blocks, Sized b := by
    refine kept_sized.step (fun r _ hactive => ?_)
      (fun streamId hclear b hb hsized => ?_) h.block hs
    · rw [Sized, size_put, occupied_put, hactive]
    · subst hclear
      have hsum := occupied_freeStream b streamId
      have hzero := freeStream_eq_zero (hop b hb)
      show b.size = _
      rw [hsized]
      omega
  refine accounted_of_size hblock ?_
  cases op with
  | put r =>
    cases hs
    have hfree := total_tryRealFree h.size
    rw [blocks, total_append] at hfree
    show (if (c.active.put r).2 then c.tryRealFree.size + r.occupiedSize else c.tryRealFree.size) =
      total LogCacheBlock.size (c.tryRealFree.archived ++ [(c.active.put r).1])
    rw [total_append, total_cons, total_nil, size_put]
    rw [total_cons, total_nil] at hfree
    have hactive : c.tryRealFree.active.size = c.active.size := rfl
    split <;> omega
  | archive =>
    cases hs
    rw [archiveCurrentBlock, blocks, total_append, total_append]
    exact h.size.trans (by rw [blocks, total_append]; rfl)
  | archiveIfContains =>
    cases hs
    rw [archiveCurrentBlockIfContains]
    split
    · rw [archiveCurrentBlock, blocks, total_append, total_append]
      exact h.size.trans (by rw [blocks, total_append]; rfl)
    · exact h.size
  | markFree blockId =>
    cases hs
    have hset : (c.setFree blockId).size = total LogCacheBlock.size (c.setFree blockId).blocks := by
      rw [blocks, total_append, total_setFree, ← total_append]
      exact h.size
    have hfree := total_tryRealFree hset
    have hsize : (c.markFree blockId).size = (c.setFree blockId).tryRealFree.size := by
      rw [markFree, LogCache.tryMerge]
      split <;> rfl
    rw [hsize, hfree, blocks, blocks, total_append, total_append, markFree, total_tryMerge,
      active_tryMerge]
  | clear streamId =>
    cases hs
    have hzero : (c.blocks.map fun b => (b.freeStream streamId).2).sum = 0 :=
      sum_eq_zero fun k hk => by
        obtain ⟨b, hb, rfl⟩ := mem_map.mp hk
        exact freeStream_eq_zero (hop b hb)
    show sizeSub c.size (c.blocks.map fun b => (b.freeStream streamId).2).sum = _
    rw [hzero, sizeSub_of_le (Nat.zero_le _), Nat.sub_zero, h.size, blocks_clearStreamRecords,
      total, total, map_map]
    rfl

theorem accounted_new (capacity cacheBlockMaxSize maxCacheBlockStreamCount : Nat) :
    (new capacity cacheBlockMaxSize maxCacheBlockStreamCount).Accounted := by
  refine accounted_of_size (fun b hb => ?_) rfl
  rw [mem_singleton.mp hb]
  rfl

/-- **Size accounting**: as long as only streams without records are cleared, the sizes of the cache
and of its blocks are those of the records, and nothing is taken off that is not there. -/
theorem accounted_of_run {capacity cacheBlockMaxSize maxCacheBlockStreamCount : Nat}
    (hG : Guarded step ClearsNothing (new capacity cacheBlockMaxSize maxCacheBlockStreamCount) ops)
    (hrun : run step (new capacity cacheBlockMaxSize maxCacheBlockStreamCount) ops = some c) :
    c.Accounted :=
  run_invariant_of_guarded Accounted.step (accounted_new ..) hG hrun

/-- A stream without records is cleared, and the first block is released. -/
def releaseOps : List Op :=
  [.put ⟨1, 0, 0, 5, [1, 2]⟩, .archive, .put ⟨2, 0, 0, 1, [3]⟩, .clear 3, .markFree 0]

theorem accounted_of_run_released :
    ∃ c, run step (new 100 1000 10) releaseOps = some c ∧ c.archived.length = 0 ∧ c.Accounted :=
  exists_and (by decide +kernel) fun _ hc _ => accounted_of_run (by decide +kernel) hc

/-- The records of stream 1 are cleared from the first block. -/
def clearOps : List Op :=
  [.put ⟨1, 0, 0, 5, [1, 2]⟩, .archive, .put ⟨2, 0, 0, 1, [3]⟩, .clear 1]

/-- The cleared block keeps its size: the sum of the blocks is larger than the cache, and when the
block is marked free the cache takes off more than it has. -/
theorem not_accounted_of_clear :
    ∃ c, run step (new 10 1000 10) clearOps = some c ∧
      c.size < total LogCacheBlock.size c.blocks ∧
      (∃ b ∈ c.blocks, b.occupied < b.size) ∧
      c.size < total LogCacheBlock.size (c.setFree 0).released := by
  decide +kernel

/-! ## Contiguity -/

/-- The range reported for some records is the one they cover without a gap. -/
def ReportsRange (rs : List StreamRecordBatch) : Option (Nat × Nat) → Prop
  | none => rs = []
  | some (a, b) => rs ≠ [] ∧ Joined StreamRecordBatch.baseOffset StreamRecordBatch.lastOffset a rs b

theorem reportsRange_of_contiguous (h : b.Contiguous) (streamId : Nat) :
    ReportsRange (b.streamRecords streamId) (b.streamRange streamId) := by
  cases hget : b.map.get? streamId with
  | none =>
    rw [streamRange, hget, streamRecords_of_none hget]
    exact rfl
  | some cache =>
    rw [streamRange, hget, streamRecords_of_get? hget]
    have hcache := h _ (OrdMap.mem_of_get? hget)
    obtain ⟨records, first, stop⟩ := cache
    cases first <;> cases stop
    · exact hcache
    · exact hcache.elim
    · exact hcache.elim
    · exact hcache

theorem contiguous_iff_get? : b.Contiguous ↔
    ∀ streamId cache, b.map.get? streamId = some cache → cache.Contiguous :=
  ⟨fun h streamId cache hget => h (streamId, cache) (OrdMap.mem_of_get? hget),
    fun h e he => h e.1 e.2 (OrdMap.get?_of_mem he)⟩

theorem contiguous_merged (hcont : isDiscontinuous left right = false) (hleft : left.Contiguous)
    (hright : right.Contiguous) : (merged n left right).Contiguous := by
  rw [contiguous_iff_get?] at *
  intro streamId cache hget
  rw [get?_merged] at hget
  cases hr : right.map.get? streamId with
  | none =>
    rw [hr] at hget
    exact hleft streamId cache hget
  | some c₂ =>
    rw [hr] at hget
    have h₂ := hright streamId c₂ hr
    cases hl : left.map.get? streamId with
    | none =>
      rw [hl] at hget
      cases hget
      exact h₂
    | some c₁ =>
      rw [hl] at hget
      cases hget
      have h₁ := hleft streamId c₁ hl
      have hend := endOffset_eq_of_continuous hcont hl hr
      obtain ⟨rs₁, s₁, e₁⟩ := c₁
      obtain ⟨rs₂, s₂, e₂⟩ := c₂
      obtain rfl : e₁ = s₂ := hend
      cases s₁ <;> cases e₁ <;> cases e₂
      · exact append_eq_nil_iff.mpr ⟨h₁, h₂⟩
      · exact h₂.elim
      · exact h₁.elim
      · exact h₁.elim
      · exact h₁.elim
      · exact h₁.elim
      · exact h₂.elim
      · exact ⟨fun hnil => h₁.1 (append_eq_nil_iff.mp hnil).1, Joined.append.mpr ⟨_, h₁.2, h₂.2⟩⟩

theorem kept_contiguous : Kept LogCacheBlock.Contiguous where
  new _ _ _ := nofun
  flags _ _ _ h := h
  merged _ _ _ hcont hleft hright := contiguous_merged hcont hleft hright

/-- The end offset of what a block holds for a stream. -/
def endOf (b : LogCacheBlock) (streamId : Nat) : Option Nat :=
  (b.map.get? streamId).bind StreamCache.endOffset

/-- The active block is full, or the stream would span more than `i32::MAX` offsets in it. -/
def Refuses (c : LogCache) (r : StreamRecordBatch) : Prop :=
  c.active.isFull = true ∨ i32Max < wrappingSub r.lastOffset
    (((c.active.map.get? r.streamId).getD .new).startOffset.getD r.baseOffset)

instance (c : LogCache) (r : StreamRecordBatch) : Decidable (c.Refuses r) :=
  inferInstanceAs (Decidable (_ ∨ _))

theorem put_eq_false_iff (c : LogCache) (r : StreamRecordBatch) :
    (c.put r).2 = false ↔ c.Refuses r := by
  show (c.active.put r).2 = false ↔ _
  generalize hp : c.active.put r = p
  have hadd : ∀ cache : StreamCache, cache.add r = none ↔
      i32Max < wrappingSub r.lastOffset (cache.startOffset.getD r.baseOffset) := by
    intro cache
    simp only [StreamCache.add, ite_eq_left_iff, reduceCtorEq, imp_false, not_not]
  cases put_effect hp with
  | full hfull => exact iff_of_true rfl (.inl hfull)
  | overflow _ hc hnone => exact iff_of_true rfl (.inr ((hadd _).mp (hc ▸ hnone)))
  | @added cache _ hnot hc hsome =>
    refine iff_of_false (by simp) (not_or.mpr ⟨by simp [hnot], fun hwide => ?_⟩)
    rw [← hc, ← hadd, hsome] at hwide
    cases hwide

/-- The records of a stream are put where they end in the active block, or refused. -/
def PutsAtEnd (c : LogCache) : Op → Prop
  | .put r => c.Refuses r ∨ ∀ e ∈ endOf c.active r.streamId, r.baseOffset = e
  | .archive | .archiveIfContains _ | .markFree _ | .clear _ => True

instance (c : LogCache) : ∀ op, Decidable (c.PutsAtEnd op)
  | .put r => inferInstanceAs (Decidable (c.Refuses r ∨
      ∀ e ∈ endOf c.active r.streamId, r.baseOffset = e))
  | .archive | .archiveIfContains _ | .markFree _ | .clear _ => isTrue trivial

theorem contiguous_insert {id : Nat} (h : b.Contiguous) (hcache : cache.Contiguous) :
    ({ b with map := b.map.insert id cache } : LogCacheBlock).Contiguous := by
  intro e he
  rcases OrdMap.eq_or_mem_of_mem_insert he with rfl | he
  · exact hcache
  · exact h e he

theorem contiguous_getD (h : b.Contiguous) (streamId : Nat) :
    ((b.map.get? streamId).getD .new).Contiguous := by
  cases hget : b.map.get? streamId with
  | none => exact rfl
  | some => exact h _ (OrdMap.mem_of_get? hget)

theorem contiguous_add {cache : StreamCache} (h : cache.Contiguous)
    (hadd : cache.add r = some cache') (hnext : ∀ e ∈ cache.endOffset, r.baseOffset = e) :
    cache'.Contiguous := by
  simp only [StreamCache.add, Option.ite_none_left_eq_some, Option.some.injEq] at hadd
  obtain ⟨-, rfl⟩ := hadd
  obtain ⟨records, first, stop⟩ := cache
  cases first <;> cases stop
  · obtain rfl : records = [] := h
    exact ⟨cons_ne_nil _ _, rfl, rfl⟩
  · exact h.elim
  · exact h.elim
  · exact ⟨append_ne_nil_of_right_ne_nil _ (cons_ne_nil _ _),
      Joined.append.mpr ⟨_, h.2, hnext _ rfl, rfl⟩⟩

theorem contiguous_put (h : b.Contiguous)
    (hnext : (b.put r).2 = true → ∀ e ∈ endOf b r.streamId, r.baseOffset = e) :
    (b.put r).1.Contiguous := by
  generalize hp : b.put r = p at hnext
  have hcache := contiguous_getD h r.streamId
  cases put_effect hp with
  | full => exact h
  | overflow _ hc => exact contiguous_insert h (hc ▸ hcache)
  | added _ hc hadd =>
    subst hc
    refine contiguous_insert h (contiguous_add hcache hadd fun e he => hnext rfl e ?_)
    rw [endOf]
    cases hget : b.map.get? r.streamId with
    | none =>
      rw [hget] at he
      cases he
    | some =>
      rw [hget] at he
      exact he

theorem forall_contiguous_step (h : ∀ b ∈ c.blocks, b.Contiguous) (hop : c.PutsAtEnd op)
    (hs : c.step op = some c') : ∀ b ∈ c'.blocks, b.Contiguous := by
  refine kept_contiguous.step (fun r hput hactive => ?_) (fun streamId _ b _ hb => ?_) h hs
  · subst hput
    refine contiguous_put hactive fun hadded => ?_
    refine hop.resolve_left fun hrefused => ?_
    rw [← put_eq_false_iff] at hrefused
    exact absurd (hrefused.symm.trans hadded) Bool.false_ne_true
  · intro e he
    exact hb e (OrdMap.mem_filter.mp he).1

/-- **What `put` does about contiguity**: a record that does not start at the end of its stream in
the active block is refused exactly if the block is full or the span too wide, and not otherwise;
where no such record is put, every block holds contiguous records of each stream and reports their
range. -/
theorem put_out_of_order_iff {capacity cacheBlockMaxSize maxCacheBlockStreamCount : Nat}
    {ops : List Op} {c : LogCache}
    (hrun : run step (new capacity cacheBlockMaxSize maxCacheBlockStreamCount) ops = some c) :
    (∀ (r : StreamRecordBatch) (e : Nat), endOf c.active r.streamId = some e → r.baseOffset ≠ e →
      (((c.put r).2 = false ∧ ∀ streamId, (c.put r).1.active.streamRecords streamId =
          c.active.streamRecords streamId) ↔ c.Refuses r)) ∧
    (Guarded step PutsAtEnd (new capacity cacheBlockMaxSize maxCacheBlockStreamCount) ops →
      ∀ b ∈ c.blocks, ∀ streamId,
        ReportsRange (b.streamRecords streamId) (b.streamRange streamId)) := by
  refine ⟨fun r e _ _ => ⟨fun h => (put_eq_false_iff c r).mp h.1, fun h => ?_⟩, ?_⟩
  · have hrefused := (put_eq_false_iff c r).mpr h
    refine ⟨hrefused, fun streamId => ?_⟩
    show (c.active.put r).1.streamRecords streamId = _
    have hnot : ¬((c.active.put r).2 = true ∧ r.streamId = streamId) := fun hadded =>
      absurd (hrefused.symm.trans hadded.1) Bool.false_ne_true
    rw [streamRecords_put, if_neg hnot, append_nil]
  · intro hG b hb
    have hall := run_invariant_of_guarded
      forall_contiguous_step (fun b hb => by rw [mem_singleton.mp hb]; exact nofun) hG hrun
    exact reportsRange_of_contiguous (hall b hb)

/-- A record behind a gap, with the block open. -/
def gapOps : List Op := [.put ⟨1, 0, 0, 5, [1]⟩, .put ⟨1, 0, 9, 1, [2]⟩]

/-- The record is taken, and the range of the block covers offsets that it does not hold. -/
theorem put_takes_gap :
    ∃ c, run step (new 1000 1000 10) gapOps = some c ∧
      c.active.streamRecords 1 = [⟨1, 0, 0, 5, [1]⟩, ⟨1, 0, 9, 1, [2]⟩] ∧
      c.active.streamRange 1 = some (0, 10) := by
  decide +kernel

/-- A full block refuses the record behind the gap. -/
theorem put_out_of_order_iff_full :
    ∃ c, run step (new 1000 1 10) [.put ⟨1, 0, 0, 5, [1]⟩] = some c ∧
      (c.put ⟨1, 0, 9, 1, [2]⟩).2 = false ∧
      ReportsRange (c.active.streamRecords 1) (c.active.streamRange 1) := by
  obtain ⟨c, hc, hend, hrefuses⟩ : ∃ c, run step (new 1000 1 10) [.put ⟨1, 0, 0, 5, [1]⟩] = some c ∧
      endOf c.active 1 = some 5 ∧ c.Refuses ⟨1, 0, 9, 1, [2]⟩ := by decide +kernel
  obtain ⟨hiff, hcontiguous⟩ := put_out_of_order_iff hc
  refine ⟨c, hc, ((hiff ⟨1, 0, 9, 1, [2]⟩ 5 hend (by decide)).mpr hrefuses).1,
    hcontiguous (by decide +kernel) c.active ?_ 1⟩
  exact mem_append_right _ (mem_singleton_self _)

end LogCache

end S3Stream
