import S3Stream.Core.CacheListeners
import S3Stream.Core.Recovery

/-! # The snapshot cache

`put_locked` and `sweep_expired` (`s3stream-core/src/cache/snapshot_read.rs`): the records of other
nodes' streams in a log cache of their own, with the next offset that each stream expects. A record
below that offset is skipped, one behind it clears the stream first. So whatever is put, and
whatever is archived, released and merged meanwhile, the cached records of a stream are one
contiguous run that ends at the next offset.

Which blocks `try_real_free` releases depends on the size of the cache, which `clear_stream_records`
leaves wrong; so the number of blocks released by each call is taken from outside here. -/

namespace S3Stream

open List TransitionSystem Windows OrdMap

/-- In seconds. -/
def activeExpire : Nat := 10 * 60

namespace LogCache

/-- Release up to `count` of the free blocks at the front. -/
def releaseFirst (c : LogCache) (count : Nat) : LogCache :=
  let n := min count (c.archived.takeWhile LogCacheBlock.free).length
  { c with
    archived := c.archived.drop n
    size := sizeSub c.size ((c.archived.take n).map LogCacheBlock.size).sum }

theorem releaseCount_le (c : LogCache) (size : Nat) (bs : List LogCacheBlock) :
    c.releaseCount size bs ≤ (bs.takeWhile LogCacheBlock.free).length := by
  induction bs generalizing size with
  | nil => exact le_rfl
  | cons b bs ih =>
    rw [releaseCount]
    split
    next hcond =>
      rw [takeWhile_cons_of_pos (Bool.and_eq_true_iff.mp hcond).2, length_cons]
      exact Nat.succ_le_succ (ih _)
    next => exact Nat.zero_le _

/-- `try_real_free` releases a number of blocks that `releaseFirst` can be given. -/
theorem tryRealFree_eq_releaseFirst (c : LogCache) :
    c.tryRealFree = c.releaseFirst (c.releaseCount c.size c.archived) := by
  rw [releaseFirst, Nat.min_eq_left (c.releaseCount_le ..)]
  rfl

end LogCache

/-- How many blocks the three calls of `try_real_free` release while one record is put. -/
structure Releases where
  put : Nat
  markFree : Nat
  putAgain : Nat
  deriving DecidableEq, Repr

structure SnapshotCache where
  cache : LogCache
  streamNextOffsets : OrdMap Nat Nat
  activeStreams : OrdMap Nat Nat
  now : Nat

namespace SnapshotCache

def new (capacity cacheBlockMaxSize maxCacheBlockStreamCount : Nat) : SnapshotCache where
  cache := .new capacity cacheBlockMaxSize maxCacheBlockStreamCount
  streamNextOffsets := .empty
  activeStreams := .empty
  now := 0

/-- A stream that comes up in a list of records: it is tracked from here on. -/
def track (s : SnapshotCache) (batch : StreamRecordBatch) : SnapshotCache :=
  { s with
    streamNextOffsets := match s.streamNextOffsets.get? batch.streamId with
      | some _ => s.streamNextOffsets
      | none => s.streamNextOffsets.insert batch.streamId batch.baseOffset
    activeStreams := s.activeStreams.insert batch.streamId s.now }

/-- Put a record; if the active block refuses it, archive that block, mark it free and put again,
whatever comes of it. -/
def storeBatch (cache : LogCache) (batch : StreamRecordBatch) (releases : Releases) : LogCache :=
  let cache := cache.releaseFirst releases.put
  if (cache.active.put batch).2 then cache.putActive batch
  else
    let (cache, block) := (cache.putActive batch).archiveCurrentBlock
    let cache := ((cache.setFree block.blockId).releaseFirst releases.markFree).tryMerge
    (cache.releaseFirst releases.putAgain).putActive batch

/-- With the numbers of blocks that `try_real_free` releases, `storeBatch` is made of `put`,
`archive_current_block` and `mark_free`. -/
theorem exists_storeBatch (c : LogCache) (r : StreamRecordBatch) : ∃ releases,
    storeBatch c r releases =
      if (c.put r).2 then (c.put r).1
      else
        let (c, block) := (c.put r).1.archiveCurrentBlock
        ((c.markFree block.blockId).put r).1 := by
  let count := fun c : LogCache => c.releaseCount c.size c.archived
  have hput : ∀ c : LogCache, c.put r = ((c.releaseFirst (count c)).putActive r,
      ((c.releaseFirst (count c)).active.put r).2) := by
    intro c
    rw [← LogCache.tryRealFree_eq_releaseFirst]
    rfl
  have hmark : ∀ (c : LogCache) (blockId : Nat), c.markFree blockId =
      ((c.setFree blockId).releaseFirst (count (c.setFree blockId))).tryMerge := by
    intro c blockId
    rw [← LogCache.tryRealFree_eq_releaseFirst]
    rfl
  let archived := ((c.releaseFirst (count c)).putActive r).archiveCurrentBlock
  let marked := archived.1.setFree archived.2.blockId
  refine ⟨⟨count c, count marked, count (marked.releaseFirst (count marked)).tryMerge⟩, ?_⟩
  rw [hput c]
  dsimp only
  rw [hmark, hput]
  rfl

/-- `put_locked` behind the records of stream `streamId`; `none` if an expected offset is missing.
-/
def putLocked (s : SnapshotCache) :
    Option Nat → List (StreamRecordBatch × Releases) → Option SnapshotCache
  | _, [] => some s
  | streamId, (batch, releases) :: records =>
    let s := if streamId ≠ some batch.streamId then s.track batch else s
    match s.streamNextOffsets.get? batch.streamId with
    | none => none
    | some expected =>
      if batch.baseOffset < expected then s.putLocked (some batch.streamId) records
      else
        let cache := if expected < batch.baseOffset then
          s.cache.clearStreamRecords batch.streamId else s.cache
        let s := { s with
          cache := storeBatch cache batch releases
          streamNextOffsets := s.streamNextOffsets.insert batch.streamId batch.lastOffsetU64 }
        s.putLocked (some batch.streamId) records

def clearStream (s : SnapshotCache) (streamId : Nat) : SnapshotCache :=
  { s with
    cache := s.cache.clearStreamRecords streamId
    streamNextOffsets := s.streamNextOffsets.filter (·.1 ≠ streamId)
    activeStreams := s.activeStreams.filter (·.1 ≠ streamId) }

def sweepExpired (s : SnapshotCache) : SnapshotCache :=
  let expired := s.activeStreams.entries.filter fun e => activeExpire ≤ s.now - e.2
  (expired.map Prod.fst).foldl clearStream s

/-- `put` is a sweep and a `putLocked`; the replays call `putLocked` alone. The last four actions
are those of the cache on the side. -/
inductive Action where
  | tick (seconds : Nat)
  | sweep
  | putLocked (records : List (StreamRecordBatch × Releases))
  | archive
  | setFree (blockId : Nat)
  | release (count : Nat)
  | merge (index : Nat)

def step (s : SnapshotCache) : Action → Option SnapshotCache
  | .tick seconds => some { s with now := s.now + seconds }
  | .sweep => some s.sweepExpired
  | .putLocked records => s.putLocked none records
  | .archive => some { s with cache := s.cache.archiveCurrentBlock.1 }
  | .setFree blockId => some { s with cache := s.cache.setFree blockId }
  | .release count => some { s with cache := s.cache.releaseFirst count }
  | .merge index => (s.cache.mergeAt index).map fun cache => { s with cache }

/-- A record with a count between 1 and `i32::MAX` whose last offset does not wrap. -/
def Fits (r : StreamRecordBatch) : Prop :=
  1 ≤ r.count ∧ r.count ≤ i32Max ∧ r.lastOffset < 2 ^ 64

instance (r : StreamRecordBatch) : Decidable (Fits r) := inferInstanceAs (Decidable (_ ∧ _ ∧ _))

def PutsFit : Action → Prop
  | .putLocked records => ∀ p ∈ records, Fits p.1
  | .tick _ | .sweep | .archive | .setFree _ | .release _ | .merge _ => True

instance : ∀ a, Decidable (PutsFit a)
  | .putLocked records => inferInstanceAs (Decidable (∀ p ∈ records, Fits p.1))
  | .tick _ | .sweep | .archive | .setFree _ | .release _ | .merge _ => isTrue trivial

end SnapshotCache

/-! ## What the operations do to the cached records -/

namespace LogCache

variable {c c' : LogCache} {streamId : Nat}

theorem streamRecords_eq (c : LogCache) (streamId : Nat) : c.streamRecords streamId =
    c.archived.flatMap (·.streamRecords streamId) ++ c.active.streamRecords streamId := by
  rw [streamRecords, blocks, flatMap_append, flatMap_singleton]

theorem streamRecords_releaseFirst (c : LogCache) (count streamId : Nat) :
    (c.releaseFirst count).streamRecords streamId <:+ c.streamRecords streamId := by
  rw [streamRecords_eq, streamRecords_eq]
  generalize hn : min count (c.archived.takeWhile LogCacheBlock.free).length = n
  have harch : (c.releaseFirst count).archived = c.archived.drop n := by rw [← hn]; rfl
  have hactive : (c.releaseFirst count).active = c.active := rfl
  refine ⟨(c.archived.take n).flatMap (·.streamRecords streamId), ?_⟩
  rw [harch, hactive, ← append_assoc, ← flatMap_append, take_append_drop]

theorem streamRecords_putActive (c : LogCache) (r : StreamRecordBatch) (streamId : Nat) :
    (c.putActive r).streamRecords streamId = c.streamRecords streamId ++
      if (c.active.put r).2 = true ∧ r.streamId = streamId then [r] else [] := by
  rw [streamRecords_eq, streamRecords_eq, append_assoc, ← LogCacheBlock.streamRecords_put]
  rfl

theorem streamRecords_archive (c : LogCache) (streamId : Nat) :
    c.archiveCurrentBlock.1.streamRecords streamId = c.streamRecords streamId := by
  rw [streamRecords_eq, streamRecords_eq]
  simp only [archiveCurrentBlock, flatMap_append, flatMap_singleton]
  exact append_nil _

theorem streamRecords_setFree (c : LogCache) (blockId streamId : Nat) :
    (c.setFree blockId).streamRecords streamId = c.streamRecords streamId := by
  rw [streamRecords_eq, streamRecords_eq]
  refine congrArg (· ++ _) ?_
  show (map _ _).flatMap _ = _
  rw [flatMap_map]
  refine congrArg (c.archived.flatMap ·) (funext fun b => ?_)
  split <;> rfl

theorem streamRecords_of_mergeAt (h : c.mergeAt i = some c') (streamId : Nat) :
    c'.streamRecords streamId = c.streamRecords streamId := by
  obtain ⟨us, left, right, vs, harch, -, -, -, -, rfl⟩ := of_mergeAt h
  rw [streamRecords_eq, streamRecords_eq, harch]
  exact congrArg (· ++ _) flatMap_merge

theorem streamRecords_tryMerge (c : LogCache) (streamId : Nat) :
    c.tryMerge.streamRecords streamId = c.streamRecords streamId := by
  rw [streamRecords_eq, streamRecords_eq, active_tryMerge]
  refine congrArg (· ++ _) ?_
  refine c.tryMerge_induction (P := fun bs _ => bs.flatMap (·.streamRecords streamId) =
    c.archived.flatMap (·.streamRecords streamId)) rfl ?_
  intro us vs left right n _ _ _ hbs
  exact flatMap_merge.trans hbs

theorem streamRecords_freeStream (b : LogCacheBlock) (id streamId : Nat) :
    (b.freeStream id).1.streamRecords streamId =
      if streamId = id then [] else b.streamRecords streamId := by
  have hget : (b.freeStream id).1.map.get? streamId =
      if streamId = id then none else b.map.get? streamId := b.map.get?_filter_ne id streamId
  rw [LogCacheBlock.streamRecords, hget, LogCacheBlock.streamRecords]
  split <;> rfl

theorem streamRecords_clear (c : LogCache) (id streamId : Nat) :
    (c.clearStreamRecords id).streamRecords streamId =
      if streamId = id then [] else c.streamRecords streamId := by
  rw [streamRecords, blocks_clearStreamRecords, flatMap_map]
  simp only [streamRecords_freeStream]
  split
  next => exact flatMap_eq_nil_iff.mpr fun _ _ => rfl
  next => rfl

end LogCache

namespace SnapshotCache

open LogCache

variable {s s' : SnapshotCache} {a : Action} {as : List Action} {c : LogCache}
  {r : StreamRecordBatch} {next : Option Nat} {cached : List StreamRecordBatch}

/-- The active block has the limits of the cache. -/
structure Limits (c : LogCache) : Prop where
  size : c.active.maxSize = c.cacheBlockMaxSize
  streams : c.active.maxStreamCount = c.maxCacheBlockStreamCount

/-- A block of this cache can take a record at all. -/
def Takes (c : LogCache) : Prop := 0 < c.cacheBlockMaxSize ∧ 0 < c.maxCacheBlockStreamCount

instance (c : LogCache) : Decidable (Takes c) := inferInstanceAs (Decidable (_ ∧ _))

theorem limits_putActive (h : Limits c) (r : StreamRecordBatch) : Limits (c.putActive r) := by
  have hput : (c.active.put r).1.maxSize = c.active.maxSize ∧
      (c.active.put r).1.maxStreamCount = c.active.maxStreamCount := by
    generalize hp : c.active.put r = p
    cases LogCacheBlock.put_effect hp <;> exact ⟨rfl, rfl⟩
  exact ⟨hput.1.trans h.size, hput.2.trans h.streams⟩

theorem put_of_not_takes (h : Limits c) (hnot : ¬Takes c) (r : StreamRecordBatch) :
    (c.active.put r).2 = false := by
  have hfull : c.active.isFull = true := by
    rw [LogCacheBlock.isFull, h.size, h.streams, Bool.or_eq_true, Bool.or_eq_true,
      decide_eq_true_eq, decide_eq_true_eq]
    unfold Takes at hnot
    omega
  rw [LogCacheBlock.put, if_pos hfull]

theorem put_fresh (hactive : ∃ n, c.active = .new n c.cacheBlockMaxSize c.maxCacheBlockStreamCount)
    (htakes : Takes c) (hspan : r.SpanFits) : (c.active.put r).2 = true := by
  obtain ⟨n, hn⟩ := hactive
  rw [hn]
  exact (LogCacheBlock.accepting_new htakes.1 htakes.2).put_of_empty hspan rfl

/-- **What storing a record does**: records leave the front of streams, and the record is put behind
the rest of its stream, unless no block can take any. -/
theorem storeBatch_spec (hlimits : Limits c) (hspan : r.SpanFits) (releases : Releases) :
    Limits (storeBatch c r releases) ∧ (Takes (storeBatch c r releases) ↔ Takes c) ∧
    ∃ kept : Nat → List StreamRecordBatch,
      (∀ streamId, kept streamId <:+ c.streamRecords streamId) ∧
      ∀ streamId, (storeBatch c r releases).streamRecords streamId = kept streamId ++
        if Takes c ∧ r.streamId = streamId then [r] else [] := by
  unfold storeBatch
  dsimp only
  have hfirst : Limits (c.releaseFirst releases.put) := ⟨hlimits.size, hlimits.streams⟩
  have hsuffix := c.streamRecords_releaseFirst releases.put
  have htakes : Takes (c.releaseFirst releases.put) ↔ Takes c := Iff.rfl
  generalize c.releaseFirst releases.put = c₁ at hfirst hsuffix htakes
  split
  next hadded =>
    refine ⟨limits_putActive hfirst r, htakes, c₁.streamRecords, hsuffix, fun streamId => ?_⟩
    have hc : Takes c := htakes.mp (by
      by_contra hnot
      rw [put_of_not_takes hfirst hnot] at hadded
      cases hadded)
    rw [streamRecords_putActive]
    simp only [hadded, hc, true_and]
  next hrefused =>
    -- The active block is archived, and a fresh one takes its place.
    let c₂ := (((c₁.putActive r).archiveCurrentBlock.1.setFree
      (c₁.putActive r).archiveCurrentBlock.2.blockId).releaseFirst releases.markFree).tryMerge
    have hactive : (c₂.releaseFirst releases.putAgain).active =
        .new c₁.nextBlockId c₁.cacheBlockMaxSize c₁.maxCacheBlockStreamCount := active_tryMerge _
    have hconfig : (c₂.releaseFirst releases.putAgain).cacheBlockMaxSize = c₁.cacheBlockMaxSize ∧
        (c₂.releaseFirst releases.putAgain).maxCacheBlockStreamCount =
          c₁.maxCacheBlockStreamCount := by
      show c₂.cacheBlockMaxSize = _ ∧ c₂.maxCacheBlockStreamCount = _
      show (tryMerge _).cacheBlockMaxSize = _ ∧ (tryMerge _).maxCacheBlockStreamCount = _
      unfold tryMerge
      split <;> exact ⟨rfl, rfl⟩
    have hlimits₂ : Limits (c₂.releaseFirst releases.putAgain) := by
      refine ⟨?_, ?_⟩
      · rw [hactive, hconfig.1]
        rfl
      · rw [hactive, hconfig.2]
        rfl
    have htakes₂ : Takes (c₂.releaseFirst releases.putAgain) ↔ Takes c := by
      rw [← htakes, Takes, Takes, hconfig.1, hconfig.2]
    have hkept : ∀ streamId, (c₂.releaseFirst releases.putAgain).streamRecords streamId <:+
        c.streamRecords streamId := by
      intro streamId
      refine (streamRecords_releaseFirst _ _ _).trans ?_
      rw [show c₂.streamRecords streamId = _ from streamRecords_tryMerge _ _]
      refine (streamRecords_releaseFirst _ _ _).trans ?_
      have hnot : ¬((c₁.active.put r).2 = true ∧ r.streamId = streamId) := fun h => hrefused h.1
      rw [streamRecords_setFree, streamRecords_archive, streamRecords_putActive, if_neg hnot,
        append_nil]
      exact hsuffix streamId
    refine ⟨limits_putActive hlimits₂ r, htakes₂, _, hkept, fun streamId => ?_⟩
    show ((c₂.releaseFirst releases.putAgain).putActive r).streamRecords streamId = _
    rw [streamRecords_putActive]
    have hadded : ((c₂.releaseFirst releases.putAgain).active.put r).2 = true ↔ Takes c := by
      constructor
      · intro hadded
        by_contra hnot
        rw [put_of_not_takes hlimits₂ (mt htakes₂.mp hnot)] at hadded
        cases hadded
      · intro hc
        exact put_fresh ⟨_, by rw [hactive, hconfig.1, hconfig.2]⟩ (htakes₂.mpr hc) hspan
    simp only [hadded]

/-! ## One run per stream -/

/-- The cached records of a stream that is not tracked, or is tracked up to `e`. -/
def Runs (cached : List StreamRecordBatch) : Option Nat → Prop
  | none => cached = []
  | some e => cached = [] ∨ ∃ x, RecordsTile x cached e

theorem Runs.suffix (h : Runs cached next) (hkept : kept <:+ cached) : Runs kept next := by
  obtain ⟨front, rfl⟩ := hkept
  cases next with
  | none => exact (append_eq_nil_iff.mp h).2
  | some =>
    rcases h with hnil | ⟨x, htile⟩
    · exact .inl (append_eq_nil_iff.mp hnil).2
    · obtain ⟨y, -, hback⟩ := Tiles.append.mp htile
      exact .inr ⟨y, hback⟩

theorem Runs.snoc (h : Runs cached (some r.baseOffset)) (hcount : r.baseOffset < r.lastOffset) :
    Runs (cached ++ [r]) (some r.lastOffset) := by
  rcases h with rfl | ⟨x, htile⟩
  · exact .inr ⟨r.baseOffset, rfl, hcount, rfl⟩
  · exact .inr ⟨x, htile.snoc rfl hcount⟩

structure Inv (s : SnapshotCache) : Prop where
  limits : Limits s.cache
  runs : ∀ streamId, Runs (s.cache.streamRecords streamId) (s.streamNextOffsets.get? streamId)
  /-- Where no block can take a record, none is cached. -/
  nothing : ¬Takes s.cache → ∀ streamId, s.cache.streamRecords streamId = []

theorem inv_new (capacity cacheBlockMaxSize maxCacheBlockStreamCount : Nat) :
    (new capacity cacheBlockMaxSize maxCacheBlockStreamCount).Inv :=
  ⟨⟨rfl, rfl⟩, fun _ => rfl, fun _ _ => rfl⟩

/-- A change of the cache that at most drops records from the front of streams. -/
theorem Inv.shrink (h : s.Inv) {cache : LogCache} (hlimits : Limits cache)
    (htakes : Takes cache ↔ Takes s.cache)
    (hkept : ∀ streamId, cache.streamRecords streamId <:+ s.cache.streamRecords streamId) :
    ({ s with cache } : SnapshotCache).Inv := by
  refine ⟨hlimits, fun streamId => (h.runs streamId).suffix (hkept streamId),
    fun hnot streamId => ?_⟩
  have hnil := hkept streamId
  rw [h.nothing (mt htakes.mpr hnot) streamId, suffix_nil] at hnil
  exact hnil

theorem Inv.track (h : s.Inv) (r : StreamRecordBatch) : (s.track r).Inv := by
  refine ⟨h.limits, fun streamId => ?_, h.nothing⟩
  have hruns := h.runs streamId
  show Runs _ (get? (match s.streamNextOffsets.get? r.streamId with
    | some _ => s.streamNextOffsets
    | none => s.streamNextOffsets.insert r.streamId r.baseOffset) streamId)
  split
  next => exact hruns
  next hnone =>
    by_cases hid : streamId = r.streamId
    · subst hid
      rw [hnone] at hruns
      rw [get?_insert_self]
      exact .inl hruns
    · rwa [get?_insert_of_ne hid]

theorem limits_clear (h : Limits c) (streamId : Nat) : Limits (c.clearStreamRecords streamId) :=
  ⟨h.size, h.streams⟩

theorem Inv.clearStream (h : s.Inv) (id : Nat) : (s.clearStream id).Inv := by
  refine ⟨limits_clear h.limits id, fun streamId => ?_, fun hnot streamId => ?_⟩
  · show Runs ((s.cache.clearStreamRecords id).streamRecords streamId)
      ((s.streamNextOffsets.filter (·.1 ≠ id)).get? streamId)
    rw [streamRecords_clear, get?_filter_ne]
    split
    · rfl
    · exact h.runs streamId
  · show (s.cache.clearStreamRecords id).streamRecords streamId = []
    rw [streamRecords_clear]
    split
    · rfl
    · exact h.nothing hnot streamId

theorem Inv.clearStreams (h : s.Inv) (ids : List Nat) :
    (ids.foldl SnapshotCache.clearStream s).Inv := by
  induction ids generalizing s with
  | nil => exact h
  | cons id ids ih => exact ih (h.clearStream id)

theorem Fits.spanFits (h : Fits r) : r.SpanFits := by
  obtain ⟨hpos, hcount, -⟩ := h
  unfold StreamRecordBatch.SpanFits StreamRecordBatch.lastOffset
  split <;> omega

theorem Fits.base_lt_last (h : Fits r) : r.baseOffset < r.lastOffset :=
  StreamRecordBatch.baseOffset_lt_lastOffset h.1

theorem Fits.lastOffsetU64 (h : Fits r) : r.lastOffsetU64 = r.lastOffset := Nat.mod_eq_of_lt h.2.2

theorem Inv.store (h : s.Inv) (hfits : Fits r)
    (hnext : s.streamNextOffsets.get? r.streamId = some expected) (hle : ¬r.baseOffset < expected)
    (releases : Releases) :
    ({ s with
      cache := storeBatch (if expected < r.baseOffset then
        s.cache.clearStreamRecords r.streamId else s.cache) r releases
      streamNextOffsets := s.streamNextOffsets.insert r.streamId r.lastOffsetU64 } :
        SnapshotCache).Inv := by
  -- The records before the put: those of the stream go up to the start of the new one.
  have hbefore : ∃ c, (if expected < r.baseOffset then s.cache.clearStreamRecords r.streamId
        else s.cache) = c ∧ Limits c ∧ (Takes c ↔ Takes s.cache) ∧
      Runs (c.streamRecords r.streamId) (some r.baseOffset) ∧
      ∀ streamId, streamId ≠ r.streamId →
        c.streamRecords streamId = s.cache.streamRecords streamId := by
    split
    next =>
      refine ⟨_, rfl, limits_clear h.limits _, Iff.rfl, ?_, fun streamId hid => ?_⟩
      · rw [streamRecords_clear, if_pos rfl]
        exact .inl rfl
      · rw [streamRecords_clear, if_neg hid]
    next =>
      obtain rfl : expected = r.baseOffset := by omega
      exact ⟨_, rfl, h.limits, Iff.rfl, hnext ▸ h.runs r.streamId, fun _ _ => rfl⟩
  obtain ⟨c, hc, hlimits, htakes, hruns, hothers⟩ := hbefore
  rw [hc]
  obtain ⟨hlimits', htakes', kept, hkept, hrecords⟩ :=
    storeBatch_spec hlimits hfits.spanFits releases
  refine ⟨hlimits', fun streamId => ?_, fun hnot streamId => ?_⟩
  · show Runs ((storeBatch c r releases).streamRecords streamId)
      ((s.streamNextOffsets.insert r.streamId r.lastOffsetU64).get? streamId)
    rw [hrecords, hfits.lastOffsetU64]
    by_cases hid : streamId = r.streamId
    · subst hid
      rw [get?_insert_self]
      by_cases hcan : Takes c
      · rw [if_pos ⟨hcan, rfl⟩]
        exact (hruns.suffix (hkept _)).snoc hfits.base_lt_last
      · -- Nothing is cached at all.
        rw [if_neg fun h => hcan h.1, append_nil]
        have hnil := hkept r.streamId
        rcases hruns with hempty | ⟨x, -⟩
        · rw [hempty, suffix_nil] at hnil
          exact .inl hnil
        · by_cases hgap : expected < r.baseOffset
          · rw [if_pos hgap] at hc
            rw [← hc, streamRecords_clear, if_pos rfl, suffix_nil] at hnil
            exact .inl hnil
          · rw [if_neg hgap] at hc
            rw [← hc, h.nothing (mt htakes.mpr hcan), suffix_nil] at hnil
            exact .inl hnil
    · rw [get?_insert_of_ne hid, if_neg fun h => hid h.2.symm, append_nil]
      refine (h.runs streamId).suffix ?_
      rw [← hothers streamId hid]
      exact hkept streamId
  · show (storeBatch c r releases).streamRecords streamId = []
    have hcan : ¬Takes c := mt htakes'.mpr hnot
    have hnil : c.streamRecords streamId = [] := by
      have hcleared : ∀ id, (s.cache.clearStreamRecords r.streamId).streamRecords id = [] := by
        intro id
        rw [streamRecords_clear]
        split
        · rfl
        · exact h.nothing (mt htakes.mpr hcan) id
      rw [← hc]
      split
      · exact hcleared streamId
      · exact h.nothing (mt htakes.mpr hcan) streamId
    have hkept' := hkept streamId
    rw [hnil, suffix_nil] at hkept'
    rw [hrecords, hkept', if_neg fun h => hcan h.1]
    rfl

/-- What `putLocked` does with one record, from the state in which its stream is tracked on. -/
inductive BatchStep (s : SnapshotCache) (r : StreamRecordBatch) (releases : Releases) :
    SnapshotCache → Prop
  | skip : BatchStep s r releases s
  | store {expected : Nat} (hnext : s.streamNextOffsets.get? r.streamId = some expected)
      (hle : ¬r.baseOffset < expected) : BatchStep s r releases { s with
        cache := storeBatch (if expected < r.baseOffset then
          s.cache.clearStreamRecords r.streamId else s.cache) r releases
        streamNextOffsets := s.streamNextOffsets.insert r.streamId r.lastOffsetU64 }

theorem putLocked_cons (h : s.putLocked streamId ((r, releases) :: records) = some s') :
    ∃ s₁ s₂, (s₁ = s ∨ s₁ = s.track r) ∧ BatchStep s₁ r releases s₂ ∧
      s₂.putLocked (some r.streamId) records = some s' := by
  rw [SnapshotCache.putLocked] at h
  have htrack : ∃ s₁, (if streamId ≠ some r.streamId then s.track r else s) = s₁ ∧
      (s₁ = s ∨ s₁ = s.track r) := by
    split
    · exact ⟨_, rfl, .inr rfl⟩
    · exact ⟨_, rfl, .inl rfl⟩
  obtain ⟨s₁, hs₁, htracked⟩ := htrack
  rw [hs₁] at h
  dsimp only at h
  split at h
  · cases h
  next hnext =>
    split at h
    · exact ⟨s₁, s₁, htracked, .skip, h⟩
    next hle => exact ⟨s₁, _, htracked, .store hnext hle, h⟩

theorem Inv.putLocked (h : s.Inv) (hfits : ∀ p ∈ records, Fits p.1)
    (hs : s.putLocked streamId records = some s') : s'.Inv := by
  induction records generalizing s streamId with
  | nil =>
    cases hs
    exact h
  | cons p records ih =>
    obtain ⟨r, releases⟩ := p
    have hr : Fits r := hfits (r, releases) mem_cons_self
    obtain ⟨s₁, s₂, htracked, hbatch, hrest⟩ := putLocked_cons hs
    have h₁ : s₁.Inv := by
      rcases htracked with rfl | rfl
      · exact h
      · exact h.track r
    refine ih ?_ (fun p hp => hfits p (mem_cons_of_mem _ hp)) hrest
    cases hbatch with
    | skip => exact h₁
    | store hnext hle => exact h₁.store hr hnext hle releases

theorem Inv.step (h : s.Inv) (hG : PutsFit a) (hs : s.step a = some s') : s'.Inv := by
  cases a with
  | tick =>
    cases hs
    exact ⟨h.limits, h.runs, h.nothing⟩
  | sweep =>
    cases hs
    exact h.clearStreams _
  | putLocked => exact h.putLocked hG hs
  | archive =>
    cases hs
    exact h.shrink ⟨rfl, rfl⟩ Iff.rfl fun streamId =>
      (streamRecords_archive s.cache streamId).symm ▸ suffix_rfl
  | setFree blockId =>
    cases hs
    exact h.shrink ⟨h.limits.size, h.limits.streams⟩ Iff.rfl fun streamId =>
      (streamRecords_setFree s.cache blockId streamId).symm ▸ suffix_rfl
  | release count =>
    cases hs
    exact h.shrink ⟨h.limits.size, h.limits.streams⟩ Iff.rfl
      (streamRecords_releaseFirst s.cache count)
  | merge =>
    obtain ⟨cache, hmerge, rfl⟩ := Option.map_eq_some_iff.mp hs
    have hsame := streamRecords_of_mergeAt hmerge
    obtain ⟨us, left, right, vs, -, -, -, -, -, rfl⟩ := of_mergeAt hmerge
    exact h.shrink ⟨h.limits.size, h.limits.streams⟩ Iff.rfl fun streamId =>
      (hsame streamId).symm ▸ suffix_rfl

/-! ## The next offset -/

/-- The next offset of a tracked stream only grows while records are put. -/
theorem next_le_putLocked (hfits : ∀ p ∈ records, Fits p.1)
    (hs : s.putLocked streamId records = some s') {id : Nat}
    (he : s.streamNextOffsets.get? id = some e) :
    ∃ e', s'.streamNextOffsets.get? id = some e' ∧ e ≤ e' := by
  induction records generalizing s streamId e with
  | nil =>
    cases hs
    exact ⟨e, he, le_rfl⟩
  | cons p records ih =>
    obtain ⟨r, releases⟩ := p
    have hr : Fits r := hfits (r, releases) mem_cons_self
    obtain ⟨s₁, s₂, htracked, hbatch, hrest⟩ := putLocked_cons hs
    have h₁ : s₁.streamNextOffsets.get? id = some e := by
      rcases htracked with rfl | rfl
      · exact he
      · show get? (match s.streamNextOffsets.get? r.streamId with
          | some _ => s.streamNextOffsets
          | none => s.streamNextOffsets.insert r.streamId r.baseOffset) id = some e
        split
        · exact he
        next hnone =>
          have hid : id ≠ r.streamId := by
            rintro rfl
            cases hnone.symm.trans he
          rwa [get?_insert_of_ne hid]
    have h₂ : ∃ e₂, s₂.streamNextOffsets.get? id = some e₂ ∧ e ≤ e₂ := by
      cases hbatch with
      | skip => exact ⟨e, h₁, le_rfl⟩
      | @store expected hnext hle =>
        by_cases hid : id = r.streamId
        · subst hid
          cases hnext.symm.trans h₁
          refine ⟨r.lastOffsetU64, get?_insert_self, ?_⟩
          have hlast := hr.base_lt_last
          rw [hr.lastOffsetU64]
          omega
        · exact ⟨e, (get?_insert_of_ne hid).trans h₁, le_rfl⟩
    obtain ⟨e₂, he₂, hle₂⟩ := h₂
    obtain ⟨e', he', hle'⟩ := ih (fun p hp => hfits p (mem_cons_of_mem _ hp)) hrest he₂
    exact ⟨e', he', hle₂.trans hle'⟩

theorem next_clearStreams (ids : List Nat) {id : Nat}
    (he : (ids.foldl SnapshotCache.clearStream s).streamNextOffsets.get? id = some e) :
    s.streamNextOffsets.get? id = some e := by
  induction ids generalizing s with
  | nil => exact he
  | cons k ids ih =>
    have hcleared := ih he
    replace hcleared : (s.streamNextOffsets.filter (·.1 ≠ k)).get? id = some e := hcleared
    rw [get?_filter_ne] at hcleared
    split at hcleared
    · cases hcleared
    · exact hcleared

theorem next_le_step (hG : PutsFit a) (hs : s.step a = some s') {id : Nat}
    (he : s.streamNextOffsets.get? id = some e) (he' : s'.streamNextOffsets.get? id = some e') :
    e ≤ e' := by
  have hsame : s'.streamNextOffsets.get? id = s.streamNextOffsets.get? id → e ≤ e' := fun heq => by
    rw [heq, he] at he'
    exact (Option.some.inj he').le
  cases a with
  | sweep =>
    cases hs
    exact (Option.some.inj (he.symm.trans (next_clearStreams _ he'))).le
  | putLocked =>
    obtain ⟨e₂, he₂, hle⟩ := next_le_putLocked hG hs he
    exact hle.trans (Option.some.inj (he₂.symm.trans he')).le
  | merge =>
    obtain ⟨cache, -, rfl⟩ := Option.map_eq_some_iff.mp hs
    exact hsame rfl
  | tick | archive | setFree | release =>
    cases hs
    exact hsame rfl

/-- The expected offset is always there: `putLocked` does not fail. -/
theorem isSome_putLocked (records : List (StreamRecordBatch × Releases))
    (h : ∀ id, streamId = some id → (s.streamNextOffsets.get? id).isSome) :
    (s.putLocked streamId records).isSome := by
  induction records generalizing s streamId with
  | nil => rfl
  | cons p records ih =>
    obtain ⟨r, releases⟩ := p
    rw [SnapshotCache.putLocked]
    have htracked : ∃ s₁, (if streamId ≠ some r.streamId then s.track r else s) = s₁ ∧
        (s₁.streamNextOffsets.get? r.streamId).isSome := by
      split
      next =>
        refine ⟨_, rfl, ?_⟩
        show (get? (match s.streamNextOffsets.get? r.streamId with
          | some _ => s.streamNextOffsets
          | none => s.streamNextOffsets.insert r.streamId r.baseOffset) r.streamId).isSome
        split
        next e he => rw [he]; rfl
        next => rw [get?_insert_self]; rfl
      next hsame => exact ⟨_, rfl, h r.streamId (not_not.mp hsame)⟩
    obtain ⟨s₁, hs₁, hnext⟩ := htracked
    obtain ⟨expected, hexpected⟩ := Option.isSome_iff_exists.mp hnext
    rw [hs₁]
    rw [hexpected]
    dsimp only
    split
    · exact ih fun id hid => by cases hid; exact hnext
    · exact ih fun id hid => by
        cases hid
        rw [get?_insert_self]
        rfl

/-- **One run per stream**: in every state the cached records of a tracked stream are contiguous and
end at its next offset, no put fails, and the next offset of a stream that stays tracked does not
decrease. -/
theorem one_run_of_run {capacity cacheBlockMaxSize maxCacheBlockStreamCount : Nat}
    (hG : Guarded step (fun _ => PutsFit)
      (new capacity cacheBlockMaxSize maxCacheBlockStreamCount) as)
    (hrun : run step (new capacity cacheBlockMaxSize maxCacheBlockStreamCount) as = some s) :
    (∀ streamId e, s.streamNextOffsets.get? streamId = some e →
      s.cache.streamRecords streamId = [] ∨
        ∃ x, RecordsTile x (s.cache.streamRecords streamId) e) ∧
    (∀ records, (s.step (.putLocked records)).isSome) ∧
    ∀ a s', PutsFit a → s.step a = some s' → ∀ streamId e e',
      s.streamNextOffsets.get? streamId = some e →
      s'.streamNextOffsets.get? streamId = some e' → e ≤ e' := by
  have h : s.Inv := run_invariant_of_guarded Inv.step (inv_new ..) hG hrun
  refine ⟨fun streamId e he => ?_, fun records => isSome_putLocked records nofun,
    fun a s' hfit hs streamId e e' => next_le_step hfit hs⟩
  have hruns := h.runs streamId
  rw [he] at hruns
  exact hruns

/-- A duplicate, a gap, a full block that is archived, marked free and released, and a record of
another stream. -/
def gapSchedule : List Action :=
  [.putLocked [(⟨1, 0, 10, 5, [1]⟩, ⟨0, 0, 0⟩), (⟨1, 0, 10, 5, [1]⟩, ⟨0, 0, 0⟩)],
    .putLocked [(⟨1, 0, 20, 1, [2]⟩, ⟨0, 0, 0⟩), (⟨2, 0, 7, 1, [3]⟩, ⟨0, 0, 0⟩),
      (⟨1, 0, 21, 2, [4]⟩, ⟨1, 0, 0⟩)]]

theorem one_run_of_run_gap :
    ∃ s, run step (new 1000 60 10) gapSchedule = some s ∧
      s.cache.streamRecords 1 = [⟨1, 0, 21, 2, [4]⟩] ∧ s.streamNextOffsets.get? 1 = some 23 ∧
      (s.cache.streamRecords 1 = [] ∨ ∃ x, RecordsTile x (s.cache.streamRecords 1) 23) := by
  obtain ⟨s, hs, hcached, hnext⟩ : ∃ s, run step (new 1000 60 10) gapSchedule = some s ∧
      s.cache.streamRecords 1 = [⟨1, 0, 21, 2, [4]⟩] ∧ s.streamNextOffsets.get? 1 = some 23 := by
    decide +kernel
  exact ⟨s, hs, hcached, hnext, (one_run_of_run (by decide +kernel) hs).1 1 23 hnext⟩

/-- The last offset of the second record wraps. -/
def wrapSchedule : List Action :=
  [.putLocked [(⟨1, 0, 2 ^ 64 - 3, 2, [1]⟩, ⟨0, 0, 0⟩)],
    .putLocked [(⟨1, 0, 2 ^ 64 - 1, 1, [2]⟩, ⟨0, 0, 0⟩)]]

/-- The next offset goes back to 0 while the stream is tracked. -/
theorem next_decreases_on_wrap :
    ∃ s s', run step (new 1000 1000 10) (wrapSchedule.take 1) = some s ∧
      s.streamNextOffsets.get? 1 = some (2 ^ 64 - 1) ∧
      run step (new 1000 1000 10) wrapSchedule = some s' ∧
      s'.streamNextOffsets.get? 1 = some 0 :=
  ⟨_, _, rfl, by decide +kernel, rfl, by decide +kernel⟩

end SnapshotCache

end S3Stream
