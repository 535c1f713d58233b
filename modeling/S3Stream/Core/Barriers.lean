import S3Stream.Core.TrimSafety

/-! # Waiting for commits

Two callers wait until records are committed: `force_upload` for the records of one stream, a
commit request of `ConfirmWal` for all records. Both collect inflight tasks and wait for their
results, so what they know when they return depends on which tasks were inflight then. -/

namespace S3Stream

open List LogCacheBlock S3Storage TransitionSystem Table

/-- The requests a notification has taken out of the queue and not yet matched with tasks. -/
def NotifyPhase.drained? : NotifyPhase → List Nat
  | .drained requests => requests
  | _ => []

namespace S3Storage

variable {s s' : S3Storage} {a : Action} {k j n : Nat} {r : StreamRecordBatch}

/-! ## The blocks of the tasks -/

/-- The blocks that the tasks share with the cache, with the records they were planned from. -/
def taskBlocks (s : S3Storage) : List (LogCacheBlock × OrdMap Nat (List StreamRecordBatch)) :=
  s.tasks.map fun t => (t.cache, t.records)

theorem taskBlocks_modifyTask (hf : ∀ t, ((f t).cache, (f t).records) = (t.cache, t.records)) :
    (s.modifyTask k f).taskBlocks = s.taskBlocks :=
  map_tasks_modifyTask _ hf

theorem taskBlocks_submitBlockUpload (s : S3Storage) (block : LogCacheBlock) (force : Bool) :
    (s.submitBlockUpload block force).taskBlocks = s.taskBlocks ++ [(block, block.records)] :=
  map_tasks_submitBlockUpload _ _ _ fun _ => rfl

/-- The memory of a block is released only after its commit, so until then the block tells which
streams it holds. -/
structure Blocks (s : S3Storage) : Prop where
  kept : ∀ k b rs, s.taskBlocks[k]? = some (b, rs) →
    k ∈ s.commits ∨ ∀ id, rs.contains id → b.containsStream id
  free : ∀ b ∈ s.logCache.archived, b.free → ∀ k p, s.taskBlocks[k]? = some p →
    p.1.blockId = b.blockId → k ∈ s.commits
  ids : s.taskBlocks.Pairwise fun p q => p.1.blockId < q.1.blockId
  below : ∀ p ∈ s.taskBlocks, p.1.blockId < s.logCache.active.blockId
  next : s.logCache.active.blockId < s.logCache.nextBlockId
  archived : ∀ b ∈ s.logCache.archived,
    b.blockId ≠ s.logCache.active.blockId ∧ b.blockId < s.logCache.nextBlockId
  active : s.logCache.active.free = false

theorem Blocks.new (config : S3StorageConfig) : (new config).Blocks where
  kept := nofun
  free := nofun
  ids := .nil
  below := nofun
  next := Nat.zero_lt_one
  archived := nofun
  active := rfl

section

variable (h : s.Blocks)

include h

theorem Blocks.congr (hblocks : s'.taskBlocks = s.taskBlocks)
    (hcache : (s'.logCache.archived, s'.logCache.active, s'.logCache.nextBlockId) =
      (s.logCache.archived, s.logCache.active, s.logCache.nextBlockId))
    (hcommits : ∀ k ∈ s.commits, k ∈ s'.commits) : s'.Blocks := by
  simp only [Prod.mk.injEq] at hcache
  obtain ⟨harchived, hactive, hnext⟩ := hcache
  refine ⟨?_, ?_, ?_, ?_, ?_, ?_, ?_⟩
  · rw [hblocks]
    exact fun k b rs hk => (h.kept k b rs hk).imp_left (hcommits k)
  · rw [hblocks, harchived]
    exact fun b hb hfree k p hp hid => hcommits k (h.free b hb hfree k p hp hid)
  · rw [hblocks]; exact h.ids
  · rw [hblocks, hactive]; exact h.below
  · rw [hactive, hnext]; exact h.next
  · rw [harchived, hactive, hnext]; exact h.archived
  · rw [hactive]; exact h.active

theorem Blocks.releaseTasks (logCache : LogCache)
    (hreleased : ∀ b ∈ released, b ∈ s.logCache.archived ∧ b.free = true)
    (hactive : (logCache.active.blockId, logCache.active.free) =
      (s.logCache.active.blockId, s.logCache.active.free))
    (hnext : s.logCache.nextBlockId ≤ logCache.nextBlockId)
    (harchived : ∀ b ∈ logCache.archived, b ∈ s.logCache.archived ∨
      s.logCache.nextBlockId ≤ b.blockId ∧ b.blockId < logCache.nextBlockId) :
    ({ s with logCache := logCache }.releaseTasks released).Blocks := by
  simp only [Prod.mk.injEq] at hactive
  obtain ⟨hid, hfree⟩ := hactive
  set f : LogCacheBlock × OrdMap Nat (List StreamRecordBatch) →
      LogCacheBlock × OrdMap Nat (List StreamRecordBatch) := fun p =>
    if p.1.blockId ∈ released.map blockId then (p.1.freeAndNotify, p.2) else p
    with hf
  have hblocks : ({ s with logCache := logCache }.releaseTasks released).taskBlocks =
      s.taskBlocks.map f := by
    simp only [taskBlocks, S3Storage.releaseTasks, map_map]
    refine map_congr_left fun t _ => ?_
    simp only [Function.comp_apply, hf]
    split <;> rfl
  have hsame : ∀ p, (f p).1.blockId = p.1.blockId := by
    intro p
    simp only [hf]
    split <;> rfl
  have hget : ∀ (k : Nat) q, (s.taskBlocks.map f)[k]? = some q →
      ∃ p, s.taskBlocks[k]? = some p ∧ f p = q := by
    intro k q hq
    rwa [getElem?_map, Option.map_eq_some_iff] at hq
  refine ⟨?_, ?_, ?_, ?_, ?_, ?_, ?_⟩
  · rw [hblocks]
    intro k b rs hk
    obtain ⟨p, hp, hfp⟩ := hget k _ hk
    by_cases hmem : p.1.blockId ∈ released.map blockId
    · obtain ⟨b', hb', hid'⟩ := mem_map.mp hmem
      obtain ⟨harch, hb'free⟩ := hreleased b' hb'
      exact .inl (h.free b' harch hb'free k p hp hid'.symm)
    · simp only [hf, if_neg hmem] at hfp
      exact h.kept k b rs (hfp ▸ hp)
  · rw [hblocks]
    intro b hb hbfree k q hq hqid
    obtain ⟨p, hp, rfl⟩ := hget k q hq
    rw [hsame] at hqid
    rcases harchived b hb with hb | ⟨hle, -⟩
    · exact h.free b hb hbfree k p hp hqid
    · -- A merged block has a fresh id, which no task has.
      have hlt := h.below p (mem_of_getElem? hp)
      have := h.next
      omega
  · rw [hblocks, pairwise_map]
    simp only [hsame]
    exact h.ids
  · rw [hblocks]
    intro q hq
    obtain ⟨p, hp, rfl⟩ := mem_map.mp hq
    rw [hsame]
    exact (h.below p hp).trans_eq hid.symm
  · exact hid ▸ lt_of_lt_of_le h.next hnext
  · intro b hb
    rcases harchived b hb with hb | ⟨hle, hlt⟩
    · obtain ⟨hne, hlt⟩ := h.archived b hb
      exact ⟨fun heq => hne (heq.trans hid), lt_of_lt_of_le hlt hnext⟩
    · refine ⟨fun heq => ?_, hlt⟩
      have hactive : b.blockId = s.logCache.active.blockId := heq.trans hid
      have := h.next
      omega
  · exact hfree.trans h.active

theorem Blocks.putCache : (s.putCache r).1.Blocks := by
  refine h.releaseTasks _ (fun b hb => LogCache.free_of_mem_released hb) ?_ le_rfl
    fun b hb => .inl (LogCache.mem_archived_of_tryRealFree hb)
  show ((s.logCache.active.put r).1.blockId, (s.logCache.active.put r).1.free) = _
  rw [put_blockId, put_free]

theorem Blocks.archive :
    ({ s with logCache := s.logCache.archiveCurrentBlock.1 }.submitBlockUpload
      s.logCache.archiveCurrentBlock.2 force).Blocks := by
  have hblocks := taskBlocks_submitBlockUpload
    { s with logCache := s.logCache.archiveCurrentBlock.1 } s.logCache.archiveCurrentBlock.2 force
  set block := s.logCache.archiveCurrentBlock.2
  have hid : block.blockId = s.logCache.active.blockId := rfl
  have hnext := h.next
  -- The number of a task of the new list is an old one or the last one.
  have hget : ∀ (k : Nat) p, (s.taskBlocks ++ [(block, block.records)])[k]? = some p →
      s.taskBlocks[k]? = some p ∨ p = (block, block.records) :=
    fun k p hp => (of_getElem?_concat hp).imp_right And.right
  refine ⟨?_, ?_, ?_, ?_, Nat.lt_succ_self _, ?_, rfl⟩
  · rw [hblocks]
    intro k b rs hk
    rcases hget k _ hk with hk | heq
    · exact h.kept k b rs hk
    · cases heq
      refine .inr fun id hid => ?_
      rw [OrdMap.contains, records, OrdMap.get?_mapValues, Option.isSome_map] at hid
      simp [containsStream, OrdMap.contains, hid]
  · rw [hblocks]
    intro b hb hfree k p hp hpid
    rcases mem_append.mp hb with hb | hb
    · rcases hget k p hp with hp | rfl
      · exact h.free b hb hfree k p hp hpid
      · exact absurd (hpid.symm.trans hid) (h.archived b hb).1
    · obtain rfl := mem_singleton.mp hb
      exact absurd (h.active.symm.trans hfree) Bool.false_ne_true
  · rw [hblocks, pairwise_append]
    refine ⟨h.ids, pairwise_singleton _ _, fun p hp q hq => ?_⟩
    rw [mem_singleton.mp hq]
    exact h.below p hp
  · rw [hblocks]
    exact forall_mem_append.mpr ⟨fun p hp => (h.below p hp).trans hnext,
      forall_mem_singleton.mpr hnext⟩
  · intro b hb
    show b.blockId ≠ s.logCache.nextBlockId ∧ b.blockId < s.logCache.nextBlockId + 1
    have hlt : b.blockId < s.logCache.nextBlockId := by
      rcases mem_append.mp hb with hb | hb
      · exact (h.archived b hb).2
      · obtain rfl := mem_singleton.mp hb
        exact hnext
    exact ⟨hlt.ne, Nat.lt_succ_of_lt hlt⟩

theorem Blocks.uploadDeltaWal : (s.uploadDeltaWal streamId force).Blocks := by
  rw [uploadDeltaWal_eq]
  split
  · exact h.archive
  · exact h

theorem Blocks.putOrSeal : (s.putOrSeal r).1.Blocks := by
  rcases putOrSeal_cases with ⟨-, heq⟩ | ⟨-, heq⟩
  · rw [heq]; exact h.putCache
  · rw [heq]; exact h.putCache.uploadDeltaWal.putCache

theorem Blocks.index_eq (hp : s.taskBlocks[j]? = some p) (hq : s.taskBlocks[k]? = some q)
    (hid : p.1.blockId = q.1.blockId) : j = k := by
  obtain ⟨hj, rfl⟩ := List.getElem?_eq_some_iff.mp hp
  obtain ⟨hk, rfl⟩ := List.getElem?_eq_some_iff.mp hq
  have hpair := pairwise_iff_getElem.mp h.ids
  rcases lt_trichotomy j k with hlt | heq | hlt
  · exact absurd hid (ne_of_lt (hpair j k hj hk hlt))
  · exact heq
  · exact absurd hid.symm (ne_of_lt (hpair k j hk hj hlt))

theorem Blocks.setFree (ht : s.tasks[k]? = some t) (hk : k ∈ s.commits) :
    ({ s with logCache := s.logCache.setFree t.cache.blockId } : S3Storage).Blocks := by
  have hblock : s.taskBlocks[k]? = some (t.cache, t.records) := by simp [taskBlocks, ht]
  have harchived : ∀ b ∈ (s.logCache.setFree t.cache.blockId).archived,
      ∃ b' ∈ s.logCache.archived, b.blockId = b'.blockId ∧
        (b.free → b'.free ∨ b'.blockId = t.cache.blockId) := by
    intro b hb
    obtain ⟨b', hb', rfl⟩ := mem_map.mp hb
    refine ⟨b', hb', ?_⟩
    split
    next hid => exact ⟨rfl, fun _ => .inr hid⟩
    next => exact ⟨rfl, .inl⟩
  refine ⟨h.kept, ?_, h.ids, h.below, h.next, ?_, h.active⟩
  · intro b hb hfree j p hp hpid
    obtain ⟨b', hb', hid, hcase⟩ := harchived b hb
    rcases hcase hfree with hfree' | hself
    · exact h.free b' hb' hfree' j p hp (hpid.trans hid)
    · have hjk := h.index_eq hp hblock (hpid.trans (hid.trans hself))
      exact hjk ▸ hk
  · intro b hb
    obtain ⟨b', hb', hid, -⟩ := harchived b hb
    rw [hid]
    exact h.archived b' hb'

theorem Blocks.step (horder : s.Order) (hstep : s.step a = some s') : s'.Blocks := by
  cases effect_of_step hstep with
  | confirm => exact h.putOrSeal.congr rfl rfl fun _ hk => hk
  | uploadDeltaWal | forceSeal => exact h.uploadDeltaWal.congr rfl rfl fun _ hk => hk
  | prepareErr | uploadReturn | commitRefuse | commitFail | commitNoTrim | commitComplete
  | trimReturn => exact h.congr (taskBlocks_modifyTask fun _ => rfl) rfl fun _ hk => hk
  | commitOk => exact h.congr rfl rfl fun _ hk => mem_append_left _ hk
  | commitTrim =>
    unfold delayTrim
    split <;> exact h.congr rfl rfl fun _ hk => hk
  | @commitFree k t hworker ht =>
    have hk := horder.worker
    rw [hworker] at hk
    obtain ⟨hnext, hmem⟩ := LogCache.mem_markFree s.logCache t.cache.blockId
    have hfront := LogCache.front_markFree s.logCache t.cache.blockId
    have hrelease := (h.setFree ht hk).releaseTasks
      (s.logCache.markFree t.cache.blockId)
      (fun b hb => LogCache.free_of_mem_released hb) ?_ hnext hmem
    · exact hrelease.congr rfl rfl fun _ hk => hk
    · rw [show (s.logCache.markFree t.cache.blockId).active = s.logCache.active from
        congrArg Prod.fst hfront]
      rfl
  | _ => exact h.congr rfl rfl fun _ hk => hk

end

/-! ## Waiting -/

instance (s : S3Storage) (k : Nat) : Decidable (s.Failed k) :=
  match h : s.cf? k with
  | some (.error e) => isTrue ⟨e, h⟩
  | some (.ok ()) => isFalse fun ⟨_, he⟩ => by cases h.symm.trans he
  | none => isFalse fun ⟨_, he⟩ => by cases h.symm.trans he

/-- Of the first `n` confirmed records, each one that satisfies `p` is in a committed block or in
the block of one of the tasks `ks`. -/
def Awaits (s : S3Storage) (n : Nat) (p : ConfirmedRecord → Prop) (ks : List Nat) : Prop :=
  ∀ c ∈ s.confirmed.take n, p c → ∃ k, c.block = some k ∧ (k ∈ s.commits ∨ k ∈ ks)

variable {p : ConfirmedRecord → Prop} {ks : List Nat}

theorem Awaits.next (h : s.Awaits n p (k :: ks)) (horder : s.Order)
    (hcf : s.cf? k = some (.ok ())) : s.Awaits n p ks := by
  intro c hc hp
  obtain ⟨j, hj, hcase⟩ := h c hc hp
  refine ⟨j, hj, ?_⟩
  rw [mem_cons] at hcase
  rcases hcase with hmem | rfl | hmem
  · exact .inl hmem
  · exact .inl (horder.done j hcf)
  · exact .inr hmem

/-- Records that are in sealed blocks whose tasks have not failed are covered by the inflight
tasks. -/
theorem Order.awaits (h : s.Order)
    (hcover : ∀ c ∈ s.confirmed.take n, p c →
      ∃ k < s.tasks.length, c.block = some k ∧ ¬s.Failed k)
    (hks : ∀ c ∈ s.confirmed.take n, p c → ∀ k ∈ s.inflightTasks, c.block = some k →
      k ∈ s.commits ∨ k ∈ ks) : s.Awaits n p ks := by
  intro c hc hp
  obtain ⟨k, hk, hblock, hfailed⟩ := hcover c hc hp
  refine ⟨k, hblock, ?_⟩
  rcases h.inflight k hk with hin | hcommit | hfail
  · exact hks c hc hp k hin hblock
  · exact .inl hcommit
  · exact absurd hfail hfailed

theorem confirmed_step (hstep : s.step a = some s') : s.confirmed <+: s'.confirmed := by
  cases effect_of_step hstep with
  | confirm =>
    rw [confirmed_handleAppendConfirm, putOrSeal_frame confirmed fun _ _ _ _ _ => rfl]
    exact prefix_append _ _
  | uploadDeltaWal | forceSeal =>
    exact prefix_of_eq (uploadDeltaWal_frame confirmed fun _ _ _ _ _ => rfl)
  | commitTrim =>
    unfold delayTrim
    split <;> exact prefix_rfl
  | _ => exact prefix_rfl

theorem take_confirmed_step (hstep : s.step a = some s') (hn : n ≤ s.confirmed.length) :
    s'.confirmed.take n = s.confirmed.take n := by
  obtain ⟨later, hlater⟩ := confirmed_step hstep
  rw [← hlater, take_append_of_le_length hn]

theorem Awaits.step (h : s.Awaits n p ks) (hstep : s.step a = some s')
    (hn : n ≤ s.confirmed.length) : s'.Awaits n p ks := by
  intro c hc hp
  rw [take_confirmed_step hstep hn] at hc
  obtain ⟨k, hk, hcase⟩ := h c hc hp
  exact ⟨k, hk, hcase.imp_left (mem_commits_step hstep)⟩

theorem length_tasks_step (hstep : s.step a = some s') : s.tasks.length ≤ s'.tasks.length := by
  have hle := (sealedBlocks_step hstep).length_le
  rwa [length_sealedBlocks, length_sealedBlocks] at hle

/-! ## Forced uploads -/

def ForceOk (s : S3Storage) (c : ForceCall) : Prop :=
  match c.phase with
  | .ticking => True
  | .sealed => ∀ d ∈ s.confirmed.take c.before, d.record.streamId = c.stream →
      ∃ k < s.tasks.length, d.block = some k
  | .waiting ks => s.Awaits c.before (·.record.streamId = c.stream) ks
  | .returned (.ok ()) => s.Awaits c.before (·.record.streamId = c.stream) []
  | .returned (.error _) => True

structure Forces (s : S3Storage) : Prop where
  before : ∀ c ∈ s.forceCalls, c.before ≤ s.confirmed.length
  ok : ∀ c ∈ s.forceCalls, s.ForceOk c

theorem ForceOk.step (h : s.ForceOk c) (hstep : s.step a = some s')
    (hbefore : c.before ≤ s.confirmed.length) : s'.ForceOk c := by
  unfold ForceOk at h ⊢
  split
  next => trivial
  next hphase =>
    rw [hphase] at h
    intro d hd hstream
    rw [take_confirmed_step hstep hbefore] at hd
    obtain ⟨k, hk, hblock⟩ := h d hd hstream
    exact ⟨k, lt_of_lt_of_le hk (length_tasks_step hstep), hblock⟩
  next hphase => rw [hphase] at h; exact h.step hstep hbefore
  next hphase => rw [hphase] at h; exact h.step hstep hbefore
  next => trivial

theorem mem_setForcePhase (hc : s.forceCalls[n]? = some c)
    (hd : d ∈ (s.setForcePhase n phase).forceCalls) :
    d ∈ s.forceCalls ∨ d = { c with phase := phase } := by
  refine (mem_modify hd).imp_right ?_
  rintro ⟨c', hc', rfl⟩
  rw [Option.some.inj (hc'.symm.trans hc)]

/-- The calls after a step: those before, one that went on, or a new one. -/
theorem forceCalls_step (hstep : s.step a = some s') (hd : d ∈ s'.forceCalls) :
    d ∈ s.forceCalls ∨ (∃ id, d = ⟨id, s.confirmed.length, .ticking⟩) ∨
      ∃ n c phase, s.forceCalls[n]? = some c ∧ d = { c with phase := phase } ∧
        (phase = .sealed ∧ s'.tasks = (s.uploadDeltaWal c.stream true).tasks ∨
          a = .forceCollect n ∧ c.phase = .sealed ∧
            phase = .waiting (s.inflightOf c.stream) ∨
          c.phase = .waiting [] ∧ phase = .returned (.ok ()) ∨
          (∃ k ks, c.phase = .waiting (k :: ks) ∧ phase = .waiting ks ∧
            s.cf? k = some (.ok ())) ∨
          ∃ e, phase = .returned (.error e)) := by
  cases effect_of_step hstep with
  | @confirm r o =>
    have hsame : (s.handleAppendConfirm r o).forceCalls = s.forceCalls :=
      putOrSeal_frame forceCalls fun _ _ _ _ _ => rfl
    exact .inl (hsame ▸ hd)
  | uploadDeltaWal => exact .inl (uploadDeltaWal_frame forceCalls (fun _ _ _ _ _ => rfl) ▸ hd)
  | commitTrim =>
    unfold delayTrim at hd
    split at hd <;> exact .inl hd
  | forceUpload =>
    exact (mem_append.mp hd).imp_right fun hd => .inl ⟨_, mem_singleton.mp hd⟩
  | @forceSeal n c hc =>
    have hsame : (s.uploadDeltaWal c.stream true).forceCalls = s.forceCalls :=
      uploadDeltaWal_frame forceCalls fun _ _ _ _ _ => rfl
    have hc' : (s.uploadDeltaWal c.stream true).notifyLazyUpload.forceCalls[n]? = some c :=
      hsame.symm ▸ hc
    rcases mem_setForcePhase hc' hd with hd | rfl
    · exact .inl (hsame ▸ hd)
    · exact .inr (.inr ⟨n, c, _, hc, rfl, .inl ⟨rfl, rfl⟩⟩)
  | forceCollect hc hphase =>
    exact (mem_setForcePhase hc hd).imp_right fun h =>
      .inr ⟨_, _, _, hc, h, .inr (.inl ⟨rfl, hphase, rfl⟩)⟩
  | forceDone hc hphase =>
    exact (mem_setForcePhase hc hd).imp_right fun h =>
      .inr ⟨_, _, _, hc, h, .inr (.inr (.inl ⟨hphase, rfl⟩))⟩
  | forceNext hc hphase hcf =>
    exact (mem_setForcePhase hc hd).imp_right fun h =>
      .inr ⟨_, _, _, hc, h, .inr (.inr (.inr (.inl ⟨_, _, hphase, rfl, hcf⟩)))⟩
  | forceErr hc =>
    exact (mem_setForcePhase hc hd).imp_right fun h =>
      .inr ⟨_, _, _, hc, h, .inr (.inr (.inr (.inr ⟨_, rfl⟩)))⟩
  | _ => exact .inl hd

/-- After its upload trigger, the records of a stream are in sealed blocks. -/
theorem Cached.sealed_of_uploadDeltaWal (h : s.Cached) (hd : d ∈ s.confirmed) :
    ∃ k < (s.uploadDeltaWal d.record.streamId force).tasks.length, d.block = some k := by
  obtain ⟨k, hblock, hheld⟩ := h.held d hd
  refine ⟨k, ?_, hblock⟩
  rw [uploadDeltaWal_eq]
  rcases hheld with ⟨b, hb, -⟩ | ⟨rfl, hholds⟩
  · have hlt := of_getElem?_eq_some hb
    rw [length_sealedBlocks] at hlt
    split
    · rw [length_submitBlockUpload]
      exact Nat.lt_succ_of_lt hlt
    · exact hlt
  · -- The record is in the active block, which therefore is archived.
    have hshould : s.logCache.shouldArchive d.record.streamId = true := by
      unfold LogCache.shouldArchive
      split
      · exact decide_eq_true (h.accepting.size_pos hholds)
      · exact hholds.containsStream
    rw [if_pos hshould, length_submitBlockUpload]
    exact Nat.lt_succ_self _

/-- An inflight task is collected for every stream it holds, or is committed. -/
theorem Blocks.collected (h : s.Blocks) (hcached : s.Cached) (hd : d ∈ s.confirmed)
    (hblock : d.block = some k) (hlt : k < s.tasks.length) (hin : k ∈ s.inflightTasks) :
    k ∈ s.commits ∨ k ∈ s.inflightOf d.record.streamId := by
  obtain ⟨k', hk', hheld⟩ := hcached.held d hd
  obtain rfl : k' = k := Option.some.inj (hk'.symm.trans hblock)
  rcases hheld with ⟨b, hb, rs, hrs, -⟩ | ⟨rfl, -⟩
  · rw [sealedBlocks, getElem?_map, Option.map_eq_some_iff] at hb
    obtain ⟨t, ht, rfl⟩ := hb
    refine (h.kept k' t.cache t.records (by simp [taskBlocks, ht])).imp_right fun hcontains => ?_
    refine mem_filter.mpr ⟨hin, ?_⟩
    rw [ht]
    exact hcontains _ (Option.isSome_iff_exists.mpr ⟨rs, hrs⟩)
  · exact absurd hlt (lt_irrefl _)

/-- The steps with which `force_upload` waits for all it should: no task with a record it is
called for has failed when it collects the inflight tasks. -/
def CollectsAll (s : S3Storage) : Action → Prop
  | .forceCollect n => ∀ c ∈ s.forceCalls[n]?, ∀ d ∈ s.confirmed.take c.before,
      d.record.streamId = c.stream → ∀ k ∈ d.block, ¬s.Failed k
  | .confirm r _ => r.SpanFits
  | _ => True

theorem Forces.step (h : s.Forces) (horder : s.Order) (hcached : s.Cached) (hblocks : s.Blocks)
    (hG : s.CollectsAll a) (hstep : s.step a = some s') : s'.Forces := by
  constructor
  · intro d hd
    have hle := (confirmed_step hstep).length_le
    rcases forceCalls_step hstep hd with hd | ⟨id, rfl⟩ | ⟨n, c, phase, hc, rfl, -⟩
    · exact (h.before d hd).trans hle
    · exact hle
    · exact (h.before c (mem_of_getElem? hc)).trans hle
  · intro d hd
    rcases forceCalls_step hstep hd with hd | ⟨id, rfl⟩ | ⟨n, c, phase, hc, rfl, hcase⟩
    · exact (h.ok d hd).step hstep (h.before d hd)
    · trivial
    have hmem := mem_of_getElem? hc
    have hbefore := h.before c hmem
    have hok := h.ok c hmem
    unfold ForceOk at hok
    rcases hcase with ⟨rfl, htasks⟩ | ⟨rfl, hphase, rfl⟩ | ⟨hphase, rfl⟩ |
      ⟨k, ks, hphase, rfl, hcf⟩ | ⟨e, rfl⟩
    · -- The active block is sealed if it has records of the stream.
      intro d hd hstream
      rw [take_confirmed_step hstep hbefore] at hd
      rw [htasks, ← show d.record.streamId = c.stream from hstream]
      exact hcached.sealed_of_uploadDeltaWal (mem_of_mem_take hd)
    · rw [hphase] at hok
      refine Awaits.step (horder.awaits ?_ ?_) hstep hbefore
      · intro d hd hstream
        obtain ⟨k, hk, hblock⟩ := hok d hd hstream
        exact ⟨k, hk, hblock, hG c hc d hd hstream k hblock⟩
      · intro d hd hstream k hin hblock
        obtain ⟨k', hk', hblock'⟩ := hok d hd hstream
        obtain rfl : k' = k := Option.some.inj (hblock'.symm.trans hblock)
        rw [← show d.record.streamId = c.stream from hstream]
        exact hblocks.collected hcached (mem_of_mem_take hd) hblock hk' hin
    · rw [hphase] at hok
      exact Awaits.step hok hstep hbefore
    · rw [hphase] at hok
      exact (Awaits.next hok horder hcf).step hstep hbefore
    · trivial

/-! ## Commit requests -/

def NotifyOk (s : S3Storage) : NotifyPhase → Prop
  | .drained requests => ∀ i ∈ requests, i < s.lazyRequests.length
  | .committing requests _ rest => ∀ i ∈ requests, ∃ q, s.lazyRequests[i]? = some q ∧
      s.Awaits q.before (fun _ => True) rest
  | .called | .trimming .. | .done => True

structure Notifies (s : S3Storage) : Prop where
  before : ∀ q ∈ s.lazyRequests, q.before ≤ s.confirmed.length
  queued : ∀ i ∈ s.lazyUploadQueue, i < s.lazyRequests.length
  ok : ∀ phase ∈ s.notifies, s.NotifyOk phase
  done : ∀ q ∈ s.lazyRequests, q.commitCf = some (.ok ()) → s.Awaits q.before (fun _ => True) []

theorem getElem?_completeRequests :
    (s.completeRequests requests f).lazyRequests[i]? = some q' ↔
      ∃ q, s.lazyRequests[i]? = some q ∧ (if i ∈ requests then f q else q) = q' := by
  simp [completeRequests]

/-- Some notification has seen all its tasks commit and completes request `i` next. -/
def Completing (s : S3Storage) (i : Nat) : Prop :=
  ∃ (n : Nat) (requests tasks : List Nat),
    s.notifies[n]? = some (.committing requests tasks []) ∧ i ∈ requests

/-- The requests after a step: the old ones at their places, and maybe a new one. -/
theorem lazyRequests_step (hstep : s.step a = some s') (hq' : s'.lazyRequests[i]? = some q') :
    (∃ q, s.lazyRequests[i]? = some q ∧ q'.before = q.before ∧
      (q'.commitCf = some (.ok ()) → q.commitCf = some (.ok ()) ∨ s.Completing i)) ∨
    ∃ awaitTrim, q' = ⟨s.confirmed.length, awaitTrim, none, none⟩ := by
  have hsame : s'.lazyRequests = s.lazyRequests → ∃ q, s.lazyRequests[i]? = some q ∧
      q'.before = q.before ∧ (q'.commitCf = some (.ok ()) →
        q.commitCf = some (.ok ()) ∨ s.Completing i) := fun heq => ⟨q', heq ▸ hq', rfl, .inl⟩
  cases effect_of_step hstep with
  | confirm => exact .inl (hsame (putOrSeal_frame lazyRequests fun _ _ _ _ _ => rfl))
  | uploadDeltaWal | forceSeal =>
    exact .inl (hsame (uploadDeltaWal_frame lazyRequests fun _ _ _ _ _ => rfl))
  | commitTrim =>
    unfold delayTrim at hsame
    refine .inl (hsame ?_)
    split <;> rfl
  | lazyUpload =>
    rcases of_getElem?_concat hq' with hq' | ⟨-, heq⟩
    · exact .inl ⟨q', hq', rfl, .inl⟩
    · exact .inr ⟨_, heq⟩
  | @notifyCommitted n requests tasks hn =>
    obtain ⟨q, hq, rfl⟩ := getElem?_completeRequests.mp hq'
    refine .inl ⟨q, hq, by split <;> rfl, ?_⟩
    split
    next hi => exact fun _ => .inr ⟨n, requests, tasks, hn, hi⟩
    next => exact .inl
  | notifyCommitErr =>
    obtain ⟨q, hq, rfl⟩ := getElem?_completeRequests.mp hq'
    refine .inl ⟨q, hq, by split <;> rfl, ?_⟩
    split
    next =>
      intro hcf
      cases hold : q.commitCf with
      | none => rw [hold] at hcf; cases hcf
      | some => rw [hold] at hcf; exact .inl hcf
    next => exact .inl
  | notifyTrimDone =>
    obtain ⟨q, hq, rfl⟩ := getElem?_completeRequests.mp hq'
    refine .inl ⟨q, hq, by split <;> rfl, ?_⟩
    split <;> exact .inl
  | _ => exact .inl (hsame rfl)

theorem lazyRequests_persist (hstep : s.step a = some s') {i : Nat}
    (hq : s.lazyRequests[i]? = some q) :
    ∃ q', s'.lazyRequests[i]? = some q' ∧ q'.before = q.before := by
  have hsame : s'.lazyRequests = s.lazyRequests →
      ∃ q', s'.lazyRequests[i]? = some q' ∧ q'.before = q.before :=
    fun heq => ⟨q, heq.symm ▸ hq, rfl⟩
  cases effect_of_step hstep with
  | confirm => exact hsame (putOrSeal_frame lazyRequests fun _ _ _ _ _ => rfl)
  | uploadDeltaWal | forceSeal =>
    exact hsame (uploadDeltaWal_frame lazyRequests fun _ _ _ _ _ => rfl)
  | commitTrim =>
    unfold delayTrim at hsame ⊢
    refine hsame ?_
    split <;> rfl
  | lazyUpload =>
    exact ⟨q, by grind, rfl⟩
  | notifyCommitted | notifyCommitErr | notifyTrimDone =>
    refine ⟨_, getElem?_completeRequests.mpr ⟨q, hq, rfl⟩, ?_⟩
    split <;> rfl
  | _ => exact hsame rfl

theorem lazyUploadQueue_step (hstep : s.step a = some s') (hi : i ∈ s'.lazyUploadQueue) :
    i ∈ s.lazyUploadQueue ∨ i < s'.lazyRequests.length := by
  cases effect_of_step hstep with
  | @confirm r o =>
    have hsame : (s.handleAppendConfirm r o).lazyUploadQueue = s.lazyUploadQueue :=
      putOrSeal_frame lazyUploadQueue fun _ _ _ _ _ => rfl
    exact .inl (hsame ▸ hi)
  | uploadDeltaWal | forceSeal =>
    exact .inl (uploadDeltaWal_frame lazyUploadQueue (fun _ _ _ _ _ => rfl) ▸ hi)
  | commitTrim =>
    unfold delayTrim at hi
    split at hi <;> exact .inl hi
  | lazyUpload =>
    rcases mem_append.mp hi with hi | hi
    · exact .inl hi
    · obtain rfl := mem_singleton.mp hi
      rw [length_append]
      exact .inr (Nat.lt_succ_self _)
  | notifyDrain => cases hi
  | _ => exact .inl hi

theorem mem_setNotifyPhase (h : phase ∈ (s.setNotifyPhase n phase').notifies) :
    phase ∈ s.notifies ∨ phase = phase' :=
  mem_or_eq_of_mem_set h

/-- The notifications after a step: those before, or one that went on. -/
theorem notifies_step (hstep : s.step a = some s') (hphase : phase ∈ s'.notifies) :
    phase ∈ s.notifies ∨ phase = .called ∨ phase = .done ∨
      phase = .drained s.lazyUploadQueue ∨ (∃ requests rest, phase = .trimming requests rest) ∨
      (∃ (n : Nat) (requests : List Nat), a = .notifySnapshot n ∧
        s.notifies[n]? = some (.drained requests) ∧
        phase = .committing requests s.inflightTasks s.inflightTasks) ∨
      ∃ (n k : Nat) (requests tasks rest : List Nat),
        s.notifies[n]? = some (.committing requests tasks (k :: rest)) ∧
        s.cf? k = some (.ok ()) ∧ phase = .committing requests tasks rest := by
  have hcalled : ∀ ns : List NotifyPhase, ns = s.notifies → phase ∈ ns ++ [.called] →
      phase ∈ s.notifies ∨ phase = .called := fun ns hns h => by
    rwa [hns, mem_append, mem_singleton] at h
  cases effect_of_step hstep with
  | @confirm r =>
    have hsame : (s.putOrSeal r).1.notifies = s.notifies :=
      putOrSeal_frame notifies fun _ _ _ _ _ => rfl
    replace hphase : phase ∈ (if s.tasks.length < (s.putOrSeal r).1.tasks.length then
      (s.putOrSeal r).1.notifies ++ [.called] else (s.putOrSeal r).1.notifies) := hphase
    split at hphase
    · exact (hcalled _ hsame hphase).imp_right .inl
    · exact .inl (hsame ▸ hphase)
  | uploadDeltaWal | forceSeal =>
    exact (hcalled _ (uploadDeltaWal_frame notifies fun _ _ _ _ _ => rfl) hphase).imp_right .inl
  | commitTrim =>
    unfold delayTrim at hphase
    split at hphase <;> exact .inl hphase
  | notifyDrain =>
    rcases mem_setNotifyPhase hphase with h | h
    · exact .inl h
    · split at h
      · exact .inr (.inr (.inl h))
      · exact .inr (.inr (.inr (.inl h)))
  | notifySnapshot hn =>
    exact (mem_setNotifyPhase hphase).imp_right fun h =>
      .inr (.inr (.inr (.inr (.inl ⟨_, _, rfl, hn, h⟩))))
  | notifyCommitted | notifyCommitErr | notifyTrimNext =>
    exact (mem_setNotifyPhase hphase).imp_right fun h =>
      .inr (.inr (.inr (.inl ⟨_, _, h⟩)))
  | notifyCommitNext hn hcf =>
    exact (mem_setNotifyPhase hphase).imp_right fun h =>
      .inr (.inr (.inr (.inr (.inr ⟨_, _, _, _, _, hn, hcf, h⟩))))
  | notifyTrimDone =>
    exact (mem_setNotifyPhase hphase).imp_right fun h => .inr (.inl h)
  | _ => exact .inl hphase

theorem NotifyOk.step (h : s.NotifyOk phase)
    (hbefore : ∀ q ∈ s.lazyRequests, q.before ≤ s.confirmed.length) (hstep : s.step a = some s') :
    s'.NotifyOk phase := by
  cases phase with
  | called | trimming | done => trivial
  | drained =>
    intro i hi
    obtain ⟨q', hq', -⟩ := lazyRequests_persist hstep (getElem?_eq_getElem (h i hi))
    exact (List.getElem_of_getElem? hq').1
  | committing =>
    intro i hi
    obtain ⟨q, hq, hawaits⟩ := h i hi
    obtain ⟨q', hq', heq⟩ := lazyRequests_persist hstep hq
    refine ⟨q', hq', ?_⟩
    rw [heq]
    exact hawaits.step hstep (hbefore q (mem_of_getElem? hq))

/-- The steps with which a notification sees all it should: when it looks at the inflight tasks,
each record confirmed before one of its requests is in a sealed block whose task has not
failed. -/
def SnapshotsAll (s : S3Storage) : Action → Prop
  | .notifySnapshot n => ∀ phase ∈ s.notifies[n]?, ∀ i ∈ phase.drained?,
      ∀ q ∈ s.lazyRequests[i]?, ∀ d ∈ s.confirmed.take q.before,
        ∃ k ∈ d.block, k < s.tasks.length ∧ ¬s.Failed k
  | .confirm r _ => r.SpanFits
  | _ => True

instance (s : S3Storage) (a : Action) : Decidable (s.SnapshotsAll a) := by
  apply a.casesOn (motive := fun a => Decidable (s.SnapshotsAll a)) <;> intros <;>
    dsimp only [SnapshotsAll] <;> infer_instance

theorem Notifies.step (h : s.Notifies) (horder : s.Order) (hG : s.SnapshotsAll a)
    (hstep : s.step a = some s') : s'.Notifies := by
  have hle := (confirmed_step hstep).length_le
  refine ⟨?_, ?_, ?_, ?_⟩
  · intro q' hq'
    obtain ⟨i, hi⟩ := mem_iff_getElem?.mp hq'
    rcases lazyRequests_step hstep hi with ⟨q, hq, heq, -⟩ | ⟨awaitTrim, rfl⟩
    · rw [heq]
      exact (h.before q (mem_of_getElem? hq)).trans hle
    · exact hle
  · intro i hi
    rcases lazyUploadQueue_step hstep hi with hi | hi
    · obtain ⟨q', hq', -⟩ := lazyRequests_persist hstep (getElem?_eq_getElem (h.queued i hi))
      exact (List.getElem_of_getElem? hq').1
    · exact hi
  · intro phase hphase
    refine NotifyOk.step ?_ h.before hstep
    rcases notifies_step hstep hphase with hphase | rfl | rfl | rfl | ⟨requests, rest, rfl⟩ |
      ⟨n, requests, rfl, hn, rfl⟩ | ⟨n, k, requests, tasks, rest, hn, hcf, rfl⟩
    · exact h.ok phase hphase
    · trivial
    · trivial
    · exact h.queued
    · trivial
    · intro i hi
      have hlt := h.ok _ (mem_of_getElem? hn) i hi
      refine ⟨s.lazyRequests[i], getElem?_eq_getElem hlt, horder.awaits ?_ ?_⟩
      · intro d hd _
        obtain ⟨k, hblock, hk, hfailed⟩ := hG _ hn i hi _ (getElem?_eq_getElem hlt) d hd
        exact ⟨k, hk, hblock, hfailed⟩
      · exact fun d _ _ k hin _ => .inr hin
    · intro i hi
      obtain ⟨q, hq, hawaits⟩ := h.ok _ (mem_of_getElem? hn) i hi
      exact ⟨q, hq, hawaits.next horder hcf⟩
  · intro q' hq' hcf
    obtain ⟨i, hi⟩ := mem_iff_getElem?.mp hq'
    rcases lazyRequests_step hstep hi with ⟨q, hq, heq, hcase⟩ | ⟨awaitTrim, rfl⟩
    · have hmem := mem_of_getElem? hq
      rw [heq]
      refine Awaits.step ?_ hstep (h.before q hmem)
      rcases hcase hcf with hcf | ⟨n, requests, tasks, hn, hreq⟩
      · exact h.done q hmem hcf
      · obtain ⟨q'', hq'', hawaits⟩ := h.ok _ (mem_of_getElem? hn) i hreq
        obtain rfl : q'' = q := Option.some.inj (hq''.symm.trans hq)
        exact hawaits
    · cases hcf

theorem Notifies.new (config : S3StorageConfig) : (new config).Notifies :=
  ⟨nofun, nofun, nofun, nofun⟩

theorem Forces.new (config : S3StorageConfig) : (new config).Forces := ⟨nofun, nofun⟩

theorem Cached.committed_of_awaits (h : s.Cached) (horder : s.Order) (hawaits : s.Awaits n p [])
    (hc : c ∈ s.confirmed.take n) (hp : p c) :
    ∃ k ∈ s.commits, c.block = some k ∧
      ∃ t, s.tasks[k]? = some t ∧ t.sealed.Holds c.record := by
  obtain ⟨k, hblock, hcase⟩ := hawaits c hc hp
  have hk := hcase.resolve_right not_mem_nil
  refine ⟨k, hk, hblock, ?_⟩
  obtain ⟨k', hk', hheld⟩ := h.held c (mem_of_mem_take hc)
  obtain rfl : k' = k := Option.some.inj (hk'.symm.trans hblock)
  rcases hheld with ⟨b, hb, hholds⟩ | ⟨rfl, -⟩
  · rw [sealedBlocks, getElem?_map, Option.map_eq_some_iff] at hb
    obtain ⟨t, ht, rfl⟩ := hb
    exact ⟨t, ht, hholds⟩
  · exact absurd (horder.committed _ hk).1 (lt_irrefl _)

/-- **A commit request is a commit**, as long as every notification finds the records of its
requests sealed and not failed: when a request resolves Ok, each record confirmed before it was
made is in a committed block. -/
theorem commit_request_commits {config : S3StorageConfig} {as : List Action}
    (hconfig : 0 < config.maxStreamNumPerStreamSetObject)
    (hG : Guarded step SnapshotsAll (S3Storage.new config) as)
    (h : run step (S3Storage.new config) as = some s) :
    ∀ q ∈ s.lazyRequests, q.commitCf = some (.ok ()) → ∀ c ∈ s.confirmed.take q.before,
      ∃ k ∈ s.commits, c.block = some k ∧
        ∃ t, s.tasks[k]? = some t ∧ t.sealed.Holds c.record := by
  have hinv : s.Order ∧ s.Cached ∧ s.Notifies := by
    refine run_invariant_of_guarded
      (I := fun s => s.Order ∧ s.Cached ∧ s.Notifies) ?_
      ⟨.new config, .new hconfig, .new config⟩ hG h
    rintro s a s' ⟨horder, hcached, hnotifies⟩ hGa hstep
    refine ⟨horder.step hstep, hcached.step ?_ hstep, hnotifies.step horder hGa hstep⟩
    rintro r o rfl
    exact hGa
  obtain ⟨horder, hcached, hnotifies⟩ := hinv
  intro q hq hcf c hc
  exact hcached.committed_of_awaits horder (hnotifies.done q hq hcf) hc trivial

/-- A record of stream 1 is confirmed and a commit is requested; then `force_upload` is called
for stream 2, which archives nothing but drains the request. -/
def drainedSchedule : List Action :=
  [.confirm ⟨1, 0, 0, 1, []⟩ ⟨0, 0, 57⟩, .lazyUpload false, .forceUpload 2, .forceSeal 0,
    .notifyDrain 0, .notifySnapshot 0, .notifyCommit 0]

/-- A commit request resolves Ok while the record confirmed before it is still in the active
block. -/
theorem commit_request_drained_by_other_stream :
    ∃ s, run step (S3Storage.new smallConfig) drainedSchedule = some s ∧
      ∃ q ∈ s.lazyRequests, q.awaitTrim = false ∧ q.commitCf = some (.ok ()) ∧
        ∃ c ∈ s.confirmed.take q.before, ∀ k ∈ s.commits, c.block ≠ some k := by
  decide +kernel

/-- A request that is drained by its own trigger and waits for the sealed block. -/
def requestSchedule : List Action :=
  [.confirm ⟨1, 0, 0, 1, []⟩ ⟨0, 0, 57⟩, .lazyUpload false,
    .uploadDeltaWal matchAllStreams false, .notifyDrain 0, .notifySnapshot 0] ++ commitOne 0 ++
    [.notifyCommit 0, .notifyCommit 0]

theorem commit_request_commits_one :
    ∃ s, run step (S3Storage.new smallConfig) requestSchedule = some s ∧
      (∃ q ∈ s.lazyRequests, q.commitCf = some (.ok ()) ∧ q.before = 1) ∧
      ∀ q ∈ s.lazyRequests, q.commitCf = some (.ok ()) → ∀ c ∈ s.confirmed.take q.before,
        ∃ k ∈ s.commits, c.block = some k ∧
          ∃ t, s.tasks[k]? = some t ∧ t.sealed.Holds c.record :=
  exists_and (by decide +kernel) fun _ hs _ =>
    commit_request_commits (by decide) (by decide +kernel) hs

end S3Storage

end S3Stream
