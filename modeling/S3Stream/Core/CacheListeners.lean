import S3Stream.Core.CacheOps

/-! # Free listeners

`add_free_listener` and `free_and_notify` (`s3stream-core/src/cache/log_cache.rs`). A block carries
the listeners that were added to it; when its memory is released, each of them is called with the
ranges of the block. A merge makes a new block from two old ones and does not take their listeners
along. Here `put` and `mark_free` are taken apart into their locked steps: setting the flag, the
release of the first block, the merge of two neighbours. -/

namespace S3Stream

open List TransitionSystem Windows Function LogCacheBlock LogCache

namespace LogCache

variable {c c' : LogCache} {b left right : LogCacheBlock}
  {us vs rest : List LogCacheBlock} {n i : Nat}

/-! ## The locked steps of `put` and `mark_free` -/

/-- One round of the loop of `try_real_free`: the first block leaves the cache. -/
def freeFirst (c : LogCache) : Option (LogCacheBlock × LogCache) :=
  match c.archived with
  | [] => none
  | b :: rest =>
    if c.isOver c.size (rest.length + 2) && b.free then
      some (b, { c with archived := rest, size := sizeSub c.size b.size })
    else none

def neighbours (c : LogCache) (i : Nat) : Option (LogCacheBlock × LogCacheBlock) :=
  match c.archived.drop i with
  | left :: right :: _ => some (left, right)
  | _ => none

def mergeable (c : LogCache) (left right : LogCacheBlock) : Bool :=
  mergeBlockThreshold < c.archived.length + 1 && left.free && right.free &&
    left.size + right.size < c.cacheBlockMaxSize && !isDiscontinuous left right

/-- One round of the loop of `try_merge` that merges, at index `i`. -/
def mergeAt (c : LogCache) (i : Nat) : Option LogCache :=
  (c.neighbours i).bind fun (left, right) =>
    if c.mergeable left right then
      some { c with
        archived := c.archived.take i ++ merged c.nextBlockId left right :: c.archived.drop (i + 2)
        nextBlockId := c.nextBlockId + 1 }
    else none

/-- The put of a record behind `try_real_free`. -/
def putActive (c : LogCache) (record : StreamRecordBatch) : LogCache :=
  { c with
    active := (c.active.put record).1
    size := if (c.active.put record).2 then c.size + record.occupiedSize else c.size }

inductive Locked where
  | put (record : StreamRecordBatch)
  | archive
  | setFree (blockId : Nat)
  | free
  | merge (index : Nat)
  deriving DecidableEq, Repr

def lockedStep (c : LogCache) : Locked → Option LogCache
  | .put record => some (c.putActive record)
  | .archive => some c.archiveCurrentBlock.1
  | .setFree blockId => some (c.setFree blockId)
  | .free => c.freeFirst.map Prod.snd
  | .merge index => c.mergeAt index

theorem neighbours_eq_some (h : c.neighbours i = some (left, right)) :
    ∃ vs, c.archived = c.archived.take i ++ left :: right :: vs ∧ c.archived.drop (i + 2) = vs := by
  unfold neighbours at h
  split at h <;> cases h
  next vs hdrop =>
    refine ⟨vs, ?_, ?_⟩
    · rw [← hdrop, take_append_drop]
    · rw [← drop_drop, hdrop]
      rfl

theorem of_mergeAt (h : c.mergeAt i = some c') : ∃ us left right vs,
    c.archived = us ++ left :: right :: vs ∧ c.neighbours i = some (left, right) ∧
    left.free = true ∧ right.free = true ∧ isDiscontinuous left right = false ∧
    c' = { c with
      archived := us ++ merged c.nextBlockId left right :: vs
      nextBlockId := c.nextBlockId + 1 } := by
  obtain ⟨⟨left, right⟩, hpair, h⟩ := Option.bind_eq_some_iff.mp h
  obtain ⟨vs, harch, hdrop⟩ := neighbours_eq_some hpair
  simp only [Option.ite_none_right_eq_some, Option.some.injEq, mergeable, Bool.and_eq_true,
    Bool.not_eq_true'] at h
  obtain ⟨⟨⟨⟨⟨-, hleft⟩, hright⟩, -⟩, hcont⟩, rfl⟩ := h
  exact ⟨_, left, right, vs, harch, hpair, hleft, hright, hcont, by rw [hdrop]⟩

theorem of_freeFirst (h : c.freeFirst = some (b, c')) : b.free = true ∧
    c.archived = b :: c'.archived ∧
    c' = { c with archived := c'.archived, size := sizeSub c.size b.size } := by
  unfold freeFirst at h
  split at h
  · cases h
  next harch =>
    split at h <;> cases h
    next hcond => exact ⟨(Bool.and_eq_true_iff.mp hcond).2, harch, rfl⟩

theorem releaseCount_congr (h : c.capacity = c'.capacity) (size : Nat) (bs : List LogCacheBlock) :
    c.releaseCount size bs = c'.releaseCount size bs := by
  induction bs generalizing size with
  | nil => rfl
  | cons b bs ih => rw [releaseCount, releaseCount, ih, isOver, isOver, h]

/-- The sizes of the archived blocks are in the size of the cache. -/
def Covers (c : LogCache) : Prop := (c.archived.map LogCacheBlock.size).sum ≤ c.size

instance (c : LogCache) : Decidable c.Covers := inferInstanceAs (Decidable (_ ≤ _))

theorem covers_setFree (h : c.Covers) (blockId : Nat) : (c.setFree blockId).Covers := by
  have hsum : ((c.setFree blockId).archived.map LogCacheBlock.size).sum =
      (c.archived.map LogCacheBlock.size).sum := total_setFree c blockId
  exact hsum.trans_le h

/-- `try_real_free` is a run of releases. -/
theorem tryRealFree_run (h : c.Covers) :
    run lockedStep c (replicate c.released.length .free) = some c.tryRealFree := by
  have hkeep : ∀ c : LogCache, c.releaseCount c.size c.archived = 0 →
      run lockedStep c (replicate c.released.length .free) = some c.tryRealFree := by
    intro c hcount
    simp only [tryRealFree, released, hcount]
    rfl
  induction harch : c.archived generalizing c with
  | nil => exact hkeep c (by rw [harch]; rfl)
  | cons b bs ih =>
    by_cases hcond : (c.isOver c.size (bs.length + 2) && b.free) = true
    · -- The first block is released, and the loop goes on with the rest.
      let c₁ : LogCache := { c with archived := bs, size := sizeSub c.size b.size }
      have hfirst : lockedStep c .free = some c₁ := by
        simp only [lockedStep, freeFirst, harch, hcond, if_true, Option.map_some]
        rfl
      have hcount : c.releaseCount c.size (b :: bs) = c₁.releaseCount c₁.size bs + 1 := by
        rw [releaseCount, if_pos hcond]
        exact congrArg (· + 1) (releaseCount_congr (show c.capacity = c₁.capacity from rfl) _ _)
      have hreleased : c.released = b :: c₁.released := by
        rw [released, harch, hcount]
        rfl
      rw [Covers, harch, map_cons, sum_cons] at h
      have hsize : c₁.size = c.size - b.size := sizeSub_of_le (by omega)
      have hcovers : c₁.Covers := show (bs.map LogCacheBlock.size).sum ≤ c₁.size by omega
      have hle : (c₁.released.map LogCacheBlock.size).sum ≤ c₁.size :=
        (((take_sublist ..).map _).sum_le_sum (by simp)).trans hcovers
      rw [hreleased]
      refine run_cons.mpr ⟨c₁, hfirst, (ih hcovers rfl).trans (congrArg some ?_)⟩
      have hsub : sizeSub c.size (b.size + (c₁.released.map LogCacheBlock.size).sum) =
          sizeSub c₁.size (c₁.released.map LogCacheBlock.size).sum := by
        rw [sizeSub_of_le hle, sizeSub_of_le (by omega)]
        omega
      simp only [tryRealFree, hreleased, harch, hcount, drop_succ_cons, map_cons, sum_cons, hsub]
      rfl
    · exact hkeep c (by rw [harch, releaseCount, if_neg hcond])

theorem mergeFrom_congr (h : c.cacheBlockMaxSize = c'.cacheBlockMaxSize) (before n : Nat)
    (left : LogCacheBlock) (rest : List LogCacheBlock) :
    c.mergeFrom before n left rest = c'.mergeFrom before n left rest := by
  induction rest generalizing before n left with
  | nil => rfl
  | cons right rest ih => simp only [mergeFrom, ih, h]

/-- The loop of `try_merge` is a run of merges. -/
theorem mergeFrom_run (left : LogCacheBlock) (harch : c.archived = us ++ left :: rest) :
    ∃ merges : List Nat, run lockedStep c (merges.map .merge) = some { c with
      archived := us ++ (c.mergeFrom us.length c.nextBlockId left rest).1
      nextBlockId := (c.mergeFrom us.length c.nextBlockId left rest).2 } := by
  induction rest generalizing c us left with
  | nil =>
    refine ⟨[], congrArg some ?_⟩
    simp only [mergeFrom, ← harch]
  | cons right rest ih =>
    rw [mergeFrom]
    split
    · exact ⟨[], congrArg some (by simp only [← harch])⟩
    next hopen =>
      split
      next =>
        -- The loop goes on with the next block.
        have hnext : c.archived = (us ++ [left]) ++ right :: rest := by simp [harch]
        obtain ⟨merges, hmerges⟩ := ih right hnext
        exact ⟨merges, by simpa using hmerges⟩
      next hmerge =>
        simp only [Bool.or_eq_true, decide_eq_true_eq, Bool.not_eq_true', not_or, not_le,
          Bool.not_eq_true, Bool.not_eq_false] at hopen hmerge
        let c₁ : LogCache := { c with
          archived := us ++ merged c.nextBlockId left right :: rest
          nextBlockId := c.nextBlockId + 1 }
        have hcond : c.mergeable left right = true := by
          simp only [mergeable, harch, length_append, length_cons, Bool.and_eq_true,
            decide_eq_true_eq, Bool.not_eq_true']
          exact ⟨⟨⟨⟨by omega, hopen.1.2⟩, hopen.2⟩, hmerge.1⟩, hmerge.2⟩
        have hfirst : lockedStep c (.merge us.length) = some c₁ := by
          simp only [lockedStep, mergeAt, neighbours, harch, drop_left, Option.bind_some, hcond,
            if_true, take_left, ← drop_drop]
          rfl
        obtain ⟨merges, hmerges⟩ :=
          ih (merged c.nextBlockId left right) (show c₁.archived = _ from rfl)
        rw [mergeFrom_congr (show c₁.cacheBlockMaxSize = c.cacheBlockMaxSize from rfl)] at hmerges
        exact ⟨us.length :: merges, run_cons.mpr ⟨c₁, hfirst, hmerges⟩⟩

/-- **`mark_free` is a run of locked steps**: the flag is set, blocks are released from the front
and then neighbours are merged. -/
theorem markFree_run (h : c.Covers) (blockId : Nat) : ∃ merges : List Nat,
    run lockedStep c (.setFree blockId ::
      (replicate (c.setFree blockId).released.length .free ++ merges.map .merge)) =
        some (c.markFree blockId) := by
  have hmerge : ∃ merges : List Nat, run lockedStep (c.setFree blockId).tryRealFree
      (merges.map .merge) = some (c.markFree blockId) := by
    unfold markFree tryMerge
    split
    next => exact ⟨[], rfl⟩
    next left rest harch =>
      have hnil : (c.setFree blockId).tryRealFree.archived = [] ++ left :: rest := harch
      exact mergeFrom_run left hnil
  obtain ⟨merges, hmerges⟩ := hmerge
  exact ⟨merges, run_cons.mpr ⟨_, rfl,
    run_append.mpr ⟨_, tryRealFree_run (covers_setFree h blockId), hmerges⟩⟩⟩

/-- Two archived blocks, the first of them free, in a cache that is over its capacity. -/
def overfull : LogCache :=
  { LogCache.new 100 1000 10 with
    size := 120
    archived := [{ LogCacheBlock.new 0 1000 10 with size := 80, free := true },
      { LogCacheBlock.new 1 1000 10 with size := 40 }]
    active := .new 2 1000 10
    nextBlockId := 3 }

theorem markFree_run_overfull : (overfull.setFree 1).released.length = 1 ∧
    ∃ merges : List Nat, run lockedStep overfull (.setFree 1 :: ([.free] ++ merges.map .merge)) =
      some (overfull.markFree 1) :=
  ⟨by decide +kernel, markFree_run (by decide) 1⟩

/-- **`put` is a run of locked steps**: releases from the front and one put. -/
theorem put_run (h : c.Covers) (r : StreamRecordBatch) :
    run lockedStep c (replicate c.released.length .free ++ [.put r]) = some (c.put r).1 :=
  run_append.mpr ⟨_, tryRealFree_run h, rfl⟩

theorem put_run_overfull : overfull.released.length = 1 ∧
    run lockedStep overfull [.free, .put ⟨7, 0, 0, 1, [1]⟩] =
      some (overfull.put ⟨7, 0, 0, 1, [1]⟩).1 :=
  ⟨by decide +kernel, put_run (by decide) _⟩

end LogCache

/-! ## Listeners -/

/-- What a listener is told about one stream of a released block. -/
structure StreamRangeBound where
  streamId : Nat
  startOffset : Nat
  endOffset : Nat
  deriving DecidableEq, Repr

/-- The bounds that `free_and_notify` collects. -/
def LogCacheBlock.bounds (b : LogCacheBlock) : List StreamRangeBound :=
  b.map.entries.filterMap fun e => e.2.range.map fun r => ⟨e.1, r.1, r.2⟩

/-- A log cache with the listeners of its blocks, by block id, and the history: which listener was
added to which block, the calls, the released blocks, the merges (the new id and the two old ones),
and the blocks that left the cache. Each call of `add_free_listener` has its own number. -/
structure ListenedCache where
  cache : LogCache
  listeners : Nat → List Nat
  nextListener : Nat
  registered : List (Nat × Nat)
  calls : List (Nat × List StreamRangeBound)
  released : List Nat
  merges : List (Nat × Nat × Nat)
  gone : Nat → Option LogCacheBlock

namespace ListenedCache

def new (capacity cacheBlockMaxSize maxCacheBlockStreamCount : Nat) : ListenedCache where
  cache := .new capacity cacheBlockMaxSize maxCacheBlockStreamCount
  listeners := fun _ => []
  nextListener := 0
  registered := []
  calls := []
  released := []
  merges := []
  gone := fun _ => none

inductive Action where
  | put (record : StreamRecordBatch)
  | archive
  | setFree (blockId : Nat)
  | addFreeListener (blockId : Nat)
  /-- The physical release of the first block. -/
  | free
  | merge (index : Nat)
  deriving DecidableEq, Repr

def step (s : ListenedCache) : Action → Option ListenedCache
  | .put record => some { s with cache := s.cache.putActive record }
  | .archive => some { s with cache := s.cache.archiveCurrentBlock.1 }
  | .setFree blockId => some { s with cache := s.cache.setFree blockId }
  | .addFreeListener blockId => some { s with
      listeners := Function.update s.listeners blockId (s.listeners blockId ++ [s.nextListener])
      nextListener := s.nextListener + 1
      registered := s.registered ++ [(s.nextListener, blockId)] }
  | .free => s.cache.freeFirst.map fun (b, cache) => { s with
      cache
      listeners := Function.update s.listeners b.blockId []
      calls := s.calls ++ (s.listeners b.blockId).map fun l => (l, b.bounds)
      released := s.released ++ [b.blockId]
      gone := Function.update s.gone b.blockId (some b) }
  | .merge index =>
    (s.cache.neighbours index).bind fun (left, right) =>
      (s.cache.mergeAt index).map fun cache => { s with
        cache
        merges := s.merges ++ [(s.cache.nextBlockId, left.blockId, right.blockId)]
        gone := Function.update (Function.update s.gone left.blockId (some left)) right.blockId
          (some right) }

/-- The records of block `k` are in block `n`, by merges. -/
inductive TookOver (merges : List (Nat × Nat × Nat)) : Nat → Nat → Prop
  | self (n : Nat) : TookOver merges n n
  | left {n l r k : Nat} (hmerge : (n, l, r) ∈ merges) (h : TookOver merges l k) :
      TookOver merges n k
  | right {n l r k : Nat} (hmerge : (n, l, r) ∈ merges) (h : TookOver merges r k) :
      TookOver merges n k

def callsOf (s : ListenedCache) (l : Nat) : List (Nat × List StreamRangeBound) :=
  s.calls.filter (·.1 = l)

/-- Whenever the records of a block with a listener are released, in this block or in one that took
them over, the listener has been called once, with the range of every stream of the block. -/
def NotifiedOnce (s : ListenedCache) : Prop :=
  ∀ l k, (l, k) ∈ s.registered → ∀ n ∈ s.released, TookOver s.merges n k →
    ∃ b bounds, s.gone k = some b ∧ s.callsOf l = [(l, bounds)] ∧
      ∀ streamId x y, b.streamRange streamId = some (x, y) → ⟨streamId, x, y⟩ ∈ bounds

/-- Listeners are added to blocks of the cache, and no block with a listener is merged. -/
def KeepsListeners (s : ListenedCache) : Action → Prop
  | .addFreeListener blockId => ∃ b ∈ s.cache.blocks, b.blockId = blockId
  | .merge index => ∀ p ∈ s.cache.neighbours index,
      s.listeners p.1.blockId = [] ∧ s.listeners p.2.blockId = []
  | .put _ | .archive | .setFree _ | .free => True

instance (s : ListenedCache) : ∀ a, Decidable (s.KeepsListeners a)
  | .addFreeListener blockId =>
    inferInstanceAs (Decidable (∃ b ∈ s.cache.blocks, b.blockId = blockId))
  | .merge index => inferInstanceAs (Decidable (∀ p ∈ s.cache.neighbours index, _ ∧ _))
  | .put _ | .archive | .setFree _ | .free => isTrue trivial

/-! ## Every listener is called once -/

variable {s s' : ListenedCache} {a : Action} {as : List Action} {l k : Nat} {b : LogCacheBlock}

/-- A listener waits in its block, or the block was released and the listener called. -/
inductive Served (s : ListenedCache) (l k : Nat) : Prop
  | waiting (hblock : ∃ b ∈ s.cache.blocks, b.blockId = k) (hlisted : l ∈ s.listeners k)
      (hcalls : s.callsOf l = [])
  | called {b : LogCacheBlock} (hgone : s.gone k = some b) (hcalls : s.callsOf l = [(l, b.bounds)])

structure Inv (s : ListenedCache) : Prop where
  numbered : LogCache.Numbered s.cache.blocks s.cache.nextBlockId
  gone : ∀ k, (s.gone k).isSome → k < s.cache.nextBlockId ∧ ∀ b ∈ s.cache.blocks, b.blockId ≠ k
  released : ∀ k ∈ s.released, (s.gone k).isSome
  merged : ∀ n l r, (n, l, r) ∈ s.merges → ((s.gone l).isSome ∧ (s.gone r).isSome) ∧
    ∀ x k, (x, k) ∈ s.registered → k ≠ l ∧ k ≠ r
  fresh : ∀ x k, (x, k) ∈ s.registered → x < s.nextListener
  single : ∀ x k k', (x, k) ∈ s.registered → (x, k') ∈ s.registered → k = k'
  listed : ∀ k, (s.listeners k).Nodup ∧ ∀ x ∈ s.listeners k, (x, k) ∈ s.registered
  served : ∀ x k, (x, k) ∈ s.registered → s.Served x k
  uncalled : ∀ c ∈ s.calls, c.1 < s.nextListener

theorem inv_new (capacity cacheBlockMaxSize maxCacheBlockStreamCount : Nat) :
    (new capacity cacheBlockMaxSize maxCacheBlockStreamCount).Inv where
  numbered := ⟨nodup_singleton _, fun b hb => by
    rw [mem_singleton.mp hb]
    exact Nat.zero_lt_one⟩
  gone := nofun
  released := nofun
  merged := nofun
  fresh := nofun
  single := nofun
  listed := fun _ => ⟨nodup_nil, nofun⟩
  served := nofun
  uncalled := nofun

theorem Inv.grow (h : s.Inv) {cache : LogCache}
    (hnumbered : LogCache.Numbered cache.blocks cache.nextBlockId)
    (hle : s.cache.nextBlockId ≤ cache.nextBlockId)
    (hkeep : ∀ b ∈ s.cache.blocks, ∃ d ∈ cache.blocks, d.blockId = b.blockId)
    (hnew : ∀ d ∈ cache.blocks, (∃ b ∈ s.cache.blocks, b.blockId = d.blockId) ∨
      s.cache.nextBlockId ≤ d.blockId) : ({ s with cache } : ListenedCache).Inv where
  numbered := hnumbered
  gone := by
    intro k hk
    obtain ⟨hlt, hnot⟩ := h.gone k hk
    refine ⟨hlt.trans_le hle, fun d hd heq => ?_⟩
    rcases hnew d hd with ⟨b, hb, hid⟩ | hge
    · exact hnot b hb (hid.trans heq)
    · omega
  released := h.released
  merged := h.merged
  fresh := h.fresh
  single := h.single
  listed := h.listed
  served := by
    intro x k hx
    cases h.served x k hx with
    | waiting hblock hlisted hcalls =>
      obtain ⟨b, hb, rfl⟩ := hblock
      exact .waiting (hkeep b hb) hlisted hcalls
    | called hgone hcalls => exact .called hgone hcalls
  uncalled := h.uncalled

theorem Inv.of_ids (h : s.Inv) {cache : LogCache}
    (hids : cache.blocks.map blockId = s.cache.blocks.map blockId)
    (hnext : cache.nextBlockId = s.cache.nextBlockId) :
    ({ s with cache } : ListenedCache).Inv := by
  have hold : ∀ d ∈ cache.blocks, ∃ b ∈ s.cache.blocks, b.blockId = d.blockId := by
    intro d hd
    have hmem := mem_map_of_mem (f := blockId) hd
    rw [hids] at hmem
    exact mem_map.mp hmem
  refine h.grow ⟨hids ▸ h.numbered.ids, fun d hd => ?_⟩ hnext.ge (fun b hb => ?_)
    fun d hd => .inl (hold d hd)
  · obtain ⟨b, hb, hid⟩ := hold d hd
    exact hid ▸ hnext ▸ h.numbered.idLt b hb
  · have hmem := mem_map_of_mem (f := blockId) hb
    rw [← hids] at hmem
    exact mem_map.mp hmem

theorem Inv.put (h : s.Inv) (r : StreamRecordBatch) :
    ({ s with cache := s.cache.putActive r } : ListenedCache).Inv := by
  refine h.of_ids ?_ rfl
  rw [blocks, blocks, map_append, map_append]
  show _ ++ [(s.cache.active.put r).1.blockId] = _
  rw [put_blockId]
  rfl

theorem Inv.archive (h : s.Inv) :
    ({ s with cache := s.cache.archiveCurrentBlock.1 } : ListenedCache).Inv := by
  have hblocks : s.cache.archiveCurrentBlock.1.blocks.map blockId =
      s.cache.blocks.map blockId ++ [s.cache.nextBlockId] := by
    simp only [blocks, archiveCurrentBlock, map_append, map_singleton]
    rfl
  refine h.grow ?_ (Nat.le_succ _) (fun b hb => ?_) fun d hd => ?_
  · have hlast : LogCache.Numbered (s.cache.archived ++ [{ s.cache.active with
        lastRecordOffset := s.cache.lastRecordOffset.or s.cache.active.lastRecordOffset }])
        s.cache.nextBlockId := h.numbered.replace_last rfl
    exact hlast.snoc ..
  · have hmem := mem_append_left [s.cache.nextBlockId]
      (mem_map_of_mem (f := blockId) hb)
    rw [← hblocks] at hmem
    exact mem_map.mp hmem
  · have hmem := mem_map_of_mem (f := blockId) hd
    rw [hblocks, mem_append] at hmem
    rcases hmem with hmem | hmem
    · exact .inl (mem_map.mp hmem)
    · exact .inr (mem_singleton.mp hmem).ge

theorem Inv.setFree (h : s.Inv) (blockId : Nat) :
    ({ s with cache := s.cache.setFree blockId } : ListenedCache).Inv := by
  refine h.of_ids ?_ rfl
  rw [blocks, blocks, map_append, map_append]
  refine congrArg (· ++ _) ?_
  show map _ (map _ _) = _
  rw [map_map]
  refine map_congr_left fun b _ => ?_
  dsimp only [comp]
  split <;> rfl

theorem callsOf_of_uncalled (h : s.Inv) : s.callsOf s.nextListener = [] :=
  filter_eq_nil_iff.mpr fun c hc => by
    have hlt := h.uncalled c hc
    simpa using hlt.ne

theorem Inv.addFreeListener (h : s.Inv) (hs : s.step (.addFreeListener k) = some s')
    (hblock : ∃ b ∈ s.cache.blocks, b.blockId = k) : s'.Inv := by
  cases hs
  have hcases : ∀ x k', (x, k') ∈ s.registered ++ [(s.nextListener, k)] →
      (x, k') ∈ s.registered ∨ x = s.nextListener ∧ k' = k := by
    exact fun x k' hx => (mem_append.mp hx).imp_right fun hx => Prod.mk.inj (mem_singleton.mp hx)
  refine ⟨h.numbered, h.gone, h.released, fun n l r hm => ⟨(h.merged n l r hm).1, ?_⟩, ?_, ?_, ?_,
    ?_, fun c hc => Nat.lt_succ_of_lt (h.uncalled c hc)⟩
  · intro x k' hx
    rcases hcases x k' hx with hx | ⟨-, rfl⟩
    · exact (h.merged n l r hm).2 x k' hx
    · -- Merged blocks are not in the cache any more.
      obtain ⟨⟨hl, hr⟩, -⟩ := h.merged n l r hm
      obtain ⟨b, hb, rfl⟩ := hblock
      exact ⟨(h.gone l hl).2 b hb, (h.gone r hr).2 b hb⟩
  · intro x k' hx
    rcases hcases x k' hx with hx | ⟨rfl, -⟩
    · exact Nat.lt_succ_of_lt (h.fresh x k' hx)
    · exact Nat.lt_succ_self _
  · intro x k₁ k₂ h₁ h₂
    rcases hcases x k₁ h₁ with h₁ | ⟨hx₁, hk₁⟩
    · rcases hcases x k₂ h₂ with h₂ | ⟨hx₂, -⟩
      · exact h.single x k₁ k₂ h₁ h₂
      · exact absurd hx₂ (h.fresh x k₁ h₁).ne
    · rcases hcases x k₂ h₂ with h₂ | ⟨-, hk₂⟩
      · exact absurd hx₁ (h.fresh x k₂ h₂).ne
      · exact hk₁.trans hk₂.symm
  · intro k'
    by_cases hk : k' = k
    · subst hk
      show (update s.listeners k' _ k').Nodup ∧ ∀ x ∈ update s.listeners k' _ k', _
      rw [update_self]
      refine ⟨nodup_append.mpr ⟨(h.listed k').1, nodup_singleton _, ?_⟩, fun x hx => ?_⟩
      · rintro x hx _ hy rfl
        have hlt := h.fresh x k' ((h.listed k').2 x hx)
        exact absurd (mem_singleton.mp hy) hlt.ne
      · rcases mem_append.mp hx with hx | hx
        · exact mem_append_left _ ((h.listed k').2 x hx)
        · obtain rfl := mem_singleton.mp hx
          exact mem_append_right _ (mem_singleton_self _)
    · show (update s.listeners k _ k').Nodup ∧ ∀ x ∈ update s.listeners k _ k', _
      rw [update_of_ne hk]
      exact ⟨(h.listed k').1, fun x hx => mem_append_left _ ((h.listed k').2 x hx)⟩
  · intro x k' hx
    rcases hcases x k' hx with hx | ⟨rfl, rfl⟩
    · cases h.served x k' hx with
      | waiting hb hlisted hcalls =>
        refine .waiting hb ?_ hcalls
        show x ∈ update s.listeners k _ k'
        by_cases hk : k' = k
        · subst hk
          rw [update_self]
          exact mem_append_left _ hlisted
        · rwa [update_of_ne hk]
      | called hgone hcalls => exact .called hgone hcalls
    · refine .waiting hblock ?_ (callsOf_of_uncalled h)
      show s.nextListener ∈ update s.listeners k' _ k'
      rw [update_self]
      exact mem_append_right _ (mem_singleton_self _)

theorem filter_calls {ls : List Nat} (hnodup : ls.Nodup)
    (bounds : List StreamRangeBound) (x : Nat) :
    (ls.map fun l => (l, bounds)).filter (·.1 = x) = if x ∈ ls then [(x, bounds)] else [] := by
  induction ls with
  | nil => rfl
  | cons l ls ih =>
    obtain ⟨hnot, hnodup⟩ := nodup_cons.mp hnodup
    rw [map_cons]
    by_cases hx : l = x
    · subst hx
      rw [filter_cons_of_pos (by simp), ih hnodup, if_neg hnot, if_pos mem_cons_self]
    · rw [filter_cons_of_neg (by simpa using hx), ih hnodup]
      simp only [mem_cons, Ne.symm hx, false_or]

section Update

variable {gone : Nat → Option LogCacheBlock} {j : Nat}

theorem isSome_update (h : (gone k).isSome) : (update gone j (some b) k).isSome := by
  rw [update_apply]
  split
  · rfl
  · exact h

theorem isSome_update_self : (update gone j (some b) j).isSome := by
  rw [update_self]
  rfl

theorem of_isSome_update (h : (update gone j (some b) k).isSome) : k = j ∨ (gone k).isSome := by
  rw [update_apply] at h
  split at h
  next heq => exact .inl heq
  next => exact .inr h

end Update

theorem Inv.free (h : s.Inv) (hs : s.step .free = some s') : s'.Inv := by
  obtain ⟨⟨b, cache⟩, hfree, rfl⟩ := Option.map_eq_some_iff.mp hs
  obtain ⟨-, harch, hcache⟩ := of_freeFirst hfree
  have hblocks : s.cache.blocks = b :: cache.blocks := by
    rw [blocks, harch, cons_append]
    rw [hcache]
    rfl
  have hnext : cache.nextBlockId = s.cache.nextBlockId := by rw [hcache]
  have hids := h.numbered.ids
  rw [hblocks, map_cons, nodup_cons] at hids
  have hb : b ∈ s.cache.blocks := hblocks ▸ mem_cons_self
  have hother : ∀ d ∈ cache.blocks, d.blockId ≠ b.blockId := fun d hd heq =>
    hids.1 (heq ▸ mem_map_of_mem hd)
  have hsub : ∀ d ∈ cache.blocks, d ∈ s.cache.blocks := fun d hd =>
    hblocks ▸ mem_cons_of_mem b hd
  have hcalls : ∀ x, (s.calls ++ (s.listeners b.blockId).map
      fun l => (l, b.bounds)).filter (·.1 = x) = s.callsOf x ++
        if x ∈ s.listeners b.blockId then [(x, b.bounds)] else [] := by
    intro x
    rw [filter_append, filter_calls (h.listed _).1]
    rfl
  -- A listener of the released block is a listener of no other one.
  have howner : ∀ x k, (x, k) ∈ s.registered → x ∈ s.listeners b.blockId → k = b.blockId :=
    fun x k hx hl => h.single x k _ hx ((h.listed _).2 x hl)
  refine ⟨?_, ?_, ?_, fun n l r hm => ?_, h.fresh, h.single, fun k => ?_, fun x k hx => ?_,
    fun c hc => ?_⟩
  · show LogCache.Numbered cache.blocks cache.nextBlockId
    rw [hnext]
    exact ⟨hids.2, fun d hd => h.numbered.idLt d (hsub d hd)⟩
  · intro k hk
    rw [hnext]
    rcases of_isSome_update hk with rfl | hk
    · exact ⟨h.numbered.idLt b hb, hother⟩
    · exact ⟨(h.gone k hk).1, fun d hd => (h.gone k hk).2 d (hsub d hd)⟩
  · intro k hk
    rcases mem_append.mp hk with hk | hk
    · exact isSome_update (h.released k hk)
    · obtain rfl := mem_singleton.mp hk
      exact isSome_update_self
  · obtain ⟨⟨hl, hr⟩, hnot⟩ := h.merged n l r hm
    exact ⟨⟨isSome_update hl, isSome_update hr⟩, hnot⟩
  · show (update s.listeners b.blockId [] k).Nodup ∧
      ∀ x ∈ update s.listeners b.blockId [] k, (x, k) ∈ s.registered
    by_cases heq : k = b.blockId
    · rw [heq, update_self]
      exact ⟨nodup_nil, by simp⟩
    · rw [update_of_ne heq]
      exact h.listed k
  · cases h.served x k hx with
    | waiting hblock hlisted hnone =>
      by_cases heq : k = b.blockId
      · subst heq
        refine .called (update_self ..) ?_
        show (s.calls ++ _).filter _ = _
        rw [hcalls x, hnone, if_pos hlisted]
        rfl
      · obtain ⟨d, hd, rfl⟩ := hblock
        rw [hblocks] at hd
        refine .waiting ⟨d, (mem_cons.mp hd).resolve_left fun hdb => heq (hdb ▸ rfl), rfl⟩ ?_ ?_
        · show x ∈ update s.listeners b.blockId [] d.blockId
          rwa [update_of_ne heq]
        · show (s.calls ++ _).filter _ = _
          rw [hcalls x, hnone, if_neg fun hl => heq (howner x _ hx hl)]
          rfl
    | called hgone hone =>
      have heq : k ≠ b.blockId := fun heq =>
        (h.gone k (by rw [hgone]; rfl)).2 b hb heq.symm
      refine .called ((update_of_ne heq ..).trans hgone) ?_
      show (s.calls ++ _).filter _ = _
      rw [hcalls x, hone, if_neg fun hl => heq (howner x _ hx hl)]
      rfl
  · rcases mem_append.mp hc with hc | hc
    · exact h.uncalled c hc
    · obtain ⟨x, hx, rfl⟩ := mem_map.mp hc
      exact h.fresh x _ ((h.listed _).2 x hx)

theorem Inv.not_registered (h : s.Inv) (hb : b ∈ s.cache.blocks)
    (hnone : s.listeners b.blockId = [])
    (x : Nat) : (x, b.blockId) ∉ s.registered := by
  intro hx
  cases h.served x _ hx with
  | waiting _ hlisted =>
    rw [hnone] at hlisted
    cases hlisted
  | called hgone _ => exact (h.gone _ (by rw [hgone]; rfl)).2 b hb rfl

/-- The two blocks are not among the others, and the merged one is new. -/
theorem blockId_ne_of_mem_merge (h : LogCache.Numbered (us ++ left :: right :: vs) n)
    (hb : b ∈ us ++ LogCache.merged n left right :: vs) :
    b.blockId ≠ left.blockId ∧ b.blockId ≠ right.blockId := by
  have hids := h.ids
  rw [map_append, map_cons, map_cons, nodup_middle, nodup_cons, nodup_middle, nodup_cons] at hids
  by_cases hbm : b = LogCache.merged n left right
  · subst hbm
    exact ⟨(h.idLt left (by simp)).ne', (h.idLt right (by simp)).ne'⟩
  · have hb' : b.blockId ∈ us.map blockId ++ vs.map blockId := by
      rw [← map_append]
      refine mem_map_of_mem ?_
      rcases mem_append.mp hb with hb | hb
      · exact mem_append_left _ hb
      · exact mem_append_right _ ((mem_cons.mp hb).resolve_left hbm)
    refine ⟨fun heq => hids.1 ?_, fun heq => hids.2.1 (heq ▸ hb')⟩
    rw [← heq]
    rcases mem_append.mp hb' with hb' | hb'
    · exact mem_append_left _ hb'
    · exact mem_append_right _ (mem_cons_of_mem _ hb')

theorem Inv.merge (h : s.Inv) (hG : s.KeepsListeners (.merge index))
    (hs : s.step (.merge index) = some s') : s'.Inv := by
  obtain ⟨⟨left, right⟩, hpair, hs⟩ := Option.bind_eq_some_iff.mp hs
  obtain ⟨cache, hmerge, rfl⟩ := Option.map_eq_some_iff.mp hs
  obtain ⟨us, left', right', vs, harch, hpair', -, -, -, rfl⟩ := LogCache.of_mergeAt hmerge
  cases hpair.symm.trans hpair'
  obtain ⟨hleft, hright⟩ := hG _ hpair
  have hblocks : s.cache.blocks = us ++ left :: right :: (vs ++ [s.cache.active]) := by
    rw [LogCache.blocks, harch, append_assoc]
    rfl
  have hmemL : left ∈ s.cache.blocks := hblocks ▸ by simp
  have hmemR : right ∈ s.cache.blocks := hblocks ▸ by simp
  generalize hn : s.cache.nextBlockId = n at *
  have hblocks' : ({ s.cache with
      archived := us ++ LogCache.merged n left right :: vs
      nextBlockId := n + 1 } : LogCache).blocks =
      us ++ LogCache.merged n left right :: (vs ++ [s.cache.active]) := by
    rw [LogCache.blocks, append_assoc]
    rfl
  have hnumbered := h.numbered
  rw [hblocks, hn] at hnumbered
  refine ⟨?_, ?_, fun k hk => isSome_update (isSome_update (h.released k hk)),
    fun m l r hm => ?_, h.fresh, h.single, h.listed, fun x k hx => ?_, h.uncalled⟩
  · show LogCache.Numbered (LogCache.blocks _) (n + 1)
    rw [hblocks']
    exact hnumbered.merge
  · intro k hk
    rw [hblocks']
    rcases of_isSome_update hk with rfl | hk
    · exact ⟨Nat.lt_succ_of_lt (hnumbered.idLt right (by simp)), fun d hd =>
        (blockId_ne_of_mem_merge hnumbered hd).2⟩
    rcases of_isSome_update hk with rfl | hk
    · exact ⟨Nat.lt_succ_of_lt (hnumbered.idLt left (by simp)), fun d hd =>
        (blockId_ne_of_mem_merge hnumbered hd).1⟩
    obtain ⟨hlt, hnot⟩ := h.gone k hk
    rw [hn] at hlt
    rw [hblocks] at hnot
    refine ⟨Nat.lt_succ_of_lt hlt, fun d hd => ?_⟩
    rcases LogCache.mem_of_mem_merge hd with rfl | hd
    · exact hlt.ne'
    · exact hnot d hd
  · rcases mem_append.mp hm with hm | hm
    · obtain ⟨⟨hl, hr⟩, hnot⟩ := h.merged m l r hm
      exact ⟨⟨isSome_update (isSome_update hl), isSome_update (isSome_update hr)⟩, hnot⟩
    · obtain ⟨-, rfl, rfl⟩ : m = n ∧ l = left.blockId ∧ r = right.blockId := by simpa using hm
      refine ⟨⟨isSome_update isSome_update_self, isSome_update_self⟩, fun x k hx => ⟨?_, ?_⟩⟩
      · rintro rfl
        exact h.not_registered hmemL hleft x hx
      · rintro rfl
        exact h.not_registered hmemR hright x hx
  · cases h.served x k hx with
    | waiting hblock hlisted hcalls =>
      obtain ⟨d, hd, rfl⟩ := hblock
      have hdl : d ≠ left := by
        rintro rfl
        exact h.not_registered hd hleft x hx
      have hdr : d ≠ right := by
        rintro rfl
        exact h.not_registered hd hright x hx
      refine .waiting ⟨d, ?_, rfl⟩ hlisted hcalls
      rw [hblocks']
      rw [hblocks] at hd
      rcases mem_append.mp hd with hd | hd
      · exact mem_append_left _ hd
      · refine mem_append_right _ (mem_cons_of_mem _ ?_)
        exact (mem_cons.mp ((mem_cons.mp hd).resolve_left hdl)).resolve_left hdr
    | called hgone hcalls =>
      have hnot := (h.gone k (by rw [hgone]; rfl)).2
      refine .called ?_ hcalls
      show update _ _ _ k = _
      rw [update_of_ne (hnot right hmemR).symm, update_of_ne (hnot left hmemL).symm]
      exact hgone

theorem Inv.step (h : s.Inv) (hG : s.KeepsListeners a) (hs : s.step a = some s') : s'.Inv := by
  cases a with
  | put r =>
    cases hs
    exact h.put r
  | archive =>
    cases hs
    exact h.archive
  | setFree blockId =>
    cases hs
    exact h.setFree blockId
  | addFreeListener => exact h.addFreeListener hs hG
  | free => exact h.free hs
  | merge => exact h.merge hG hs

/-- Where no block with a listener is merged, its records are released with the block itself. -/
theorem Inv.tookOver (h : s.Inv) (hx : (x, k) ∈ s.registered) (htook : TookOver s.merges n k) :
    n = k := by
  induction htook with
  | self => rfl
  | left hmerge _ ih => exact absurd (ih hx).symm ((h.merged _ _ _ hmerge).2 x _ hx).1
  | right hmerge _ ih => exact absurd (ih hx).symm ((h.merged _ _ _ hmerge).2 x _ hx).2

theorem mem_bounds (h : b.streamRange streamId = some (x, y)) : ⟨streamId, x, y⟩ ∈ b.bounds := by
  obtain ⟨c, hget, hrange⟩ := Option.bind_eq_some_iff.mp h
  exact mem_filterMap.mpr ⟨(streamId, c), OrdMap.mem_of_get? hget, by rw [hrange]; rfl⟩

/-- **Every listener is called once**, as long as no block with a listener is merged. -/
theorem notifiedOnce_of_run {capacity cacheBlockMaxSize maxCacheBlockStreamCount : Nat}
    (hG : Guarded step KeepsListeners
      (new capacity cacheBlockMaxSize maxCacheBlockStreamCount) as)
    (hrun : run step (new capacity cacheBlockMaxSize maxCacheBlockStreamCount) as = some s) :
    s.NotifiedOnce := by
  have h : s.Inv := run_invariant_of_guarded Inv.step (inv_new ..) hG hrun
  intro l k hl n hn htook
  obtain rfl := h.tookOver hl htook
  cases h.served l n hl with
  | waiting hblock =>
    obtain ⟨b, hb, hid⟩ := hblock
    exact absurd hid ((h.gone n (h.released n hn)).2 b hb)
  | called hgone hcalls => exact ⟨_, _, hgone, hcalls, fun _ _ _ => mem_bounds⟩

/-- A block with a listener is marked free and released. -/
def releaseSchedule : List Action :=
  [.put ⟨1, 0, 0, 5, [1]⟩, .put ⟨2, 0, 3, 1, [1]⟩, .archive, .addFreeListener 0, .setFree 0, .free]

theorem notifiedOnce_of_run_released :
    ∃ s, run step (new 1 1000 10) releaseSchedule = some s ∧
      s.calls = [(0, [⟨1, 0, 5⟩, ⟨2, 3, 4⟩])] ∧ s.NotifiedOnce :=
  exists_and (by decide +kernel) fun _ hs _ => notifiedOnce_of_run (by decide +kernel) hs

/-- Nine blocks; the first one has a listener and is merged with the second one before their memory
is released. -/
def mergeSchedule : List Action :=
  [.put ⟨1, 0, 0, 5, [1]⟩, .archive, .addFreeListener 0, .put ⟨1, 0, 5, 1, [1]⟩, .archive, .archive,
    .archive, .archive, .archive, .archive, .archive, .setFree 0, .setFree 1, .merge 0,
    .put ⟨1, 0, 6, 1, List.replicate 100 0⟩, .free]

/-- The merged block is released, and the listener is never called. -/
theorem not_notifiedOnce_of_merge :
    ∃ s, run step (new 200 1000 10) mergeSchedule = some s ∧ s.registered = [(0, 0)] ∧
      s.released = [9] ∧ TookOver s.merges 9 0 ∧ s.calls = [] ∧ ¬s.NotifiedOnce := by
  obtain ⟨s, hs, hreg, hrel, hmerges, hcalls⟩ : ∃ s, run step (new 200 1000 10) mergeSchedule =
      some s ∧ s.registered = [(0, 0)] ∧ s.released = [9] ∧ s.merges = [(9, 0, 1)] ∧
        s.calls = [] := by decide +kernel
  have htook : TookOver s.merges 9 0 := .left (hmerges ▸ mem_cons_self) (.self 0)
  refine ⟨s, hs, hreg, hrel, htook, hcalls, fun h => ?_⟩
  obtain ⟨b, bounds, -, hone, -⟩ := h 0 0 (hreg ▸ mem_cons_self) 9
    (hrel ▸ mem_cons_self) htook
  rw [callsOf, hcalls] at hone
  cases hone

end ListenedCache

end S3Stream
