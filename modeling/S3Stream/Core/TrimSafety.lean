import S3Stream.Core.CommitOrder

/-! # The WAL is trimmed behind commits

Where each confirmed record is, in the active block or in a sealed one, and what the last record
offset of a sealed block says about the records before it. While no block is committed over one
whose `prepare` failed, the committed blocks are the first ones in seal order, and the offsets
passed to `wal.trim` cover records of committed blocks only. -/

namespace S3Stream

open List LogCacheBlock TransitionSystem

/-- What a task keeps of its block for good. -/
structure SealedBlock where
  records : OrdMap Nat (List StreamRecordBatch)
  lastRecordOffset : Option RecordOffset

def SealedBlock.Holds (b : SealedBlock) (r : StreamRecordBatch) : Prop :=
  ∃ rs, b.records.get? r.streamId = some rs ∧ r ∈ rs

def TaskContext.sealed (t : TaskContext) : SealedBlock := ⟨t.records, t.cache.lastRecordOffset⟩

namespace S3Storage

variable {s s' : S3Storage} {a : Action} {k j : Nat} {r : StreamRecordBatch}

/-! ## Sealed blocks -/

/-- The blocks handed to the pipeline, in seal order. -/
def sealedBlocks (s : S3Storage) : List SealedBlock := s.tasks.map TaskContext.sealed

@[simp] theorem length_sealedBlocks : s.sealedBlocks.length = s.tasks.length := by
  simp [sealedBlocks]

theorem sealedBlocks_modifyTask (hf : ∀ t, (f t).sealed = t.sealed) :
    (s.modifyTask k f).sealedBlocks = s.sealedBlocks :=
  map_tasks_modifyTask _ hf

@[simp] theorem sealedBlocks_releaseTasks :
    (s.releaseTasks released).sealedBlocks = s.sealedBlocks :=
  map_tasks_releaseTasks _ fun _ => rfl

@[simp] theorem sealedBlocks_submitBlockUpload :
    (s.submitBlockUpload block force).sealedBlocks =
      s.sealedBlocks ++ [⟨block.records, block.lastRecordOffset⟩] :=
  map_tasks_submitBlockUpload _ _ _ fun _ => rfl

theorem sealedBlocks_putCache : (s.putCache r).1.sealedBlocks = s.sealedBlocks :=
  sealedBlocks_releaseTasks

theorem length_putCache : (s.putCache r).1.tasks.length = s.tasks.length := length_releaseTasks

theorem sealedBlocks_delayTrim : (s.delayTrim offset k).sealedBlocks = s.sealedBlocks := by
  unfold delayTrim
  split <;> rfl

/-! ## Confirmed records -/

/-- The record is in the `k`-th block, which is sealed or active. -/
def HeldIn (s : S3Storage) (r : StreamRecordBatch) (k : Nat) : Prop :=
  (∃ b, s.sealedBlocks[k]? = some b ∧ b.Holds r) ∨
    k = s.tasks.length ∧ s.logCache.active.Holds r

theorem HeldIn.le (h : s.HeldIn r k) : k ≤ s.tasks.length := by
  rcases h with ⟨b, hb, -⟩ | ⟨rfl, -⟩
  · have hlt := of_getElem?_eq_some hb
    rw [length_sealedBlocks] at hlt
    exact hlt.le
  · exact le_rfl

/-- Every confirmed record has its block, and the last record offset of a sealed block separates
the records up to this block from the later ones. -/
structure Cached (s : S3Storage) : Prop where
  maxSize : 0 < s.logCache.cacheBlockMaxSize
  maxStreamCount : 0 < s.logCache.maxCacheBlockStreamCount
  accepting : s.logCache.active.Accepting
  active : s.logCache.active.lastRecordOffset = none
  held : ∀ c ∈ s.confirmed, ∃ k, c.block = some k ∧ s.HeldIn c.record k
  last : ∀ b ∈ s.sealedBlocks, ∀ o, b.lastRecordOffset = some o →
    ∃ o', s.logCache.lastRecordOffset = some o' ∧ o.offset ≤ o'.offset
  separated : ∀ k b o, s.sealedBlocks[k]? = some b → b.lastRecordOffset = some o →
    ∀ c ∈ s.confirmed, c.offset.offset ≤ o.offset → ∃ j ≤ k, c.block = some j

theorem Cached.new {config : S3StorageConfig}
    (hconfig : 0 < config.maxStreamNumPerStreamSetObject) : (S3Storage.new config).Cached where
  maxSize := lt_of_lt_of_le Nat.zero_lt_one (le_max_right _ _)
  maxStreamCount := hconfig
  accepting := accepting_new
    (lt_of_lt_of_le Nat.zero_lt_one (le_max_right _ _)) hconfig
  active := rfl
  held := nofun
  last := nofun
  separated := nofun

theorem Cached.congr (h : s.Cached) (hsealed : s'.sealedBlocks = s.sealedBlocks)
    (hfront : s'.logCache.front = s.logCache.front) (hconfirmed : s'.confirmed = s.confirmed) :
    s'.Cached := by
  simp only [LogCache.front, Prod.mk.injEq] at hfront
  obtain ⟨h1, h2, h3, h4⟩ := hfront
  have hlen : s'.tasks.length = s.tasks.length := by
    rw [← length_sealedBlocks, hsealed, length_sealedBlocks]
  refine ⟨?_, ?_, ?_, ?_, ?_, ?_, ?_⟩
  · rw [h3]; exact h.maxSize
  · rw [h4]; exact h.maxStreamCount
  · rw [h1]; exact h.accepting
  · rw [h1]; exact h.active
  · simp only [hconfirmed, HeldIn, hsealed, hlen, h1]; exact h.held
  · simp only [hsealed, h2]; exact h.last
  · simp only [hsealed, hconfirmed]; exact h.separated

theorem Cached.putCache (h : s.Cached) (hr : r.SpanFits) : (s.putCache r).1.Cached := by
  refine ⟨h.maxSize, h.maxStreamCount, h.accepting.put hr, ?_, ?_, ?_, ?_⟩
  · show (s.logCache.active.put r).1.lastRecordOffset = none
    rw [lastRecordOffset_put]
    exact h.active
  · intro c hc
    obtain ⟨k, hk, hheld⟩ := h.held c hc
    refine ⟨k, hk, ?_⟩
    rw [HeldIn, sealedBlocks_putCache, length_putCache]
    exact hheld.imp_right (And.imp_right LogCacheBlock.Holds.put)
  · rw [sealedBlocks_putCache]; exact h.last
  · rw [sealedBlocks_putCache]; exact h.separated

theorem Cached.archive (h : s.Cached) (force : Bool) :
    ({ s with logCache := s.logCache.archiveCurrentBlock.1 }.submitBlockUpload
      s.logCache.archiveCurrentBlock.2 force).Cached := by
  set s' := { s with logCache := s.logCache.archiveCurrentBlock.1 }.submitBlockUpload
    s.logCache.archiveCurrentBlock.2 force with hs'
  have hsealed : s'.sealedBlocks = s.sealedBlocks ++
      [⟨s.logCache.active.records, s.logCache.lastRecordOffset⟩] := by
    rw [hs', sealedBlocks_submitBlockUpload]
    simp only [LogCache.archiveCurrentBlock, h.active, Option.or_none]
    rfl
  refine ⟨h.maxSize, h.maxStreamCount, accepting_new h.maxSize h.maxStreamCount, rfl, ?_, ?_, ?_⟩
  · intro c hc
    obtain ⟨k, hk, hheld⟩ := h.held c hc
    refine ⟨k, hk, .inl ?_⟩
    rw [hsealed]
    rcases hheld with ⟨b, hb, hholds⟩ | ⟨rfl, hholds⟩
    · exact ⟨b, by grind, hholds⟩
    · refine ⟨⟨s.logCache.active.records, s.logCache.lastRecordOffset⟩, ?_, hholds⟩
      rw [← length_sealedBlocks, getElem?_concat_length]
  · intro b hb o ho
    rw [hsealed, mem_append, mem_singleton] at hb
    rcases hb with hb | rfl
    · exact h.last b hb o ho
    · exact ⟨o, ho, le_rfl⟩
  · intro k b o hb ho c hc hle
    rw [hsealed] at hb
    by_cases hlt : k < s.sealedBlocks.length
    · rw [getElem?_append_left hlt] at hb
      exact h.separated k b o hb ho c hc hle
    · -- The new block is the last one, so every record is in it or before it.
      have hk : k = s.tasks.length := by
        have := of_getElem?_eq_some hb
        simp only [length_append, length_sealedBlocks, length_singleton] at this hlt
        omega
      obtain ⟨j, hj, hheld⟩ := h.held c hc
      exact ⟨j, hk ▸ hheld.le, hj⟩

theorem uploadDeltaWal_eq :
    s.uploadDeltaWal streamId force =
      if s.logCache.shouldArchive streamId then
        { s with logCache := s.logCache.archiveCurrentBlock.1 }.submitBlockUpload
          s.logCache.archiveCurrentBlock.2 force
      else s := by
  unfold uploadDeltaWal LogCache.archiveCurrentBlockIfContains
  split
  next heq =>
    split at heq <;> cases heq
    next hshould => rw [if_pos hshould]; rfl
  next heq =>
    split at heq
    next => cases heq
    next hshould => rw [if_neg hshould]

theorem Cached.uploadDeltaWal (h : s.Cached) : (s.uploadDeltaWal streamId force).Cached := by
  rw [uploadDeltaWal_eq]
  split
  · exact h.archive force
  · exact h

theorem putOrSeal_cases :
    (s.putCache r).2 = true ∧ s.putOrSeal r = ((s.putCache r).1, true) ∨
    (s.putCache r).2 = false ∧
      s.putOrSeal r = ((s.putCache r).1.uploadDeltaWal matchAllStreams false).putCache r := by
  unfold putOrSeal
  split
  next heq => rw [heq]; exact .inl ⟨rfl, rfl⟩
  next heq => rw [heq]; exact .inr ⟨rfl, rfl⟩

section Frame

variable {β : Type} (g : S3Storage → β)
  (hg : ∀ (s : S3Storage) logCache tasks inflight queue, g { s with
    logCache := logCache, tasks := tasks, inflightTasks := inflight, prepareQueue := queue } = g s)
include hg

/-- Sealing and putting touch the cache, the tasks and the way into the pipeline. -/
theorem uploadDeltaWal_frame : g (s.uploadDeltaWal streamId force) = g s := by
  rw [uploadDeltaWal_eq]
  split
  · exact hg s _ _ _ _
  · rfl

theorem putOrSeal_frame : g (s.putOrSeal r).1 = g s := by
  have hput : ∀ s : S3Storage, g (s.putCache r).1 = g s := fun s => hg s _ _ _ _
  rcases putOrSeal_cases with ⟨-, heq⟩ | ⟨-, heq⟩
  · rw [heq, hput]
  · rw [heq, hput, uploadDeltaWal_frame g hg, hput]

end Frame

theorem lastRecordOffset_putOrSeal :
    (s.putOrSeal r).1.logCache.lastRecordOffset = s.logCache.lastRecordOffset := by
  rcases putOrSeal_cases with ⟨-, heq⟩ | ⟨-, heq⟩
  · rw [heq]; rfl
  · rw [heq, uploadDeltaWal_eq]
    split <;> rfl

theorem Cached.putOrSeal (h : s.Cached) (hr : r.SpanFits) : (s.putOrSeal r).1.Cached := by
  rcases putOrSeal_cases with ⟨-, heq⟩ | ⟨-, heq⟩
  · rw [heq]; exact h.putCache hr
  · rw [heq]; exact (h.putCache hr).uploadDeltaWal.putCache hr

/-- The second try never fails: the refusing block is not empty, so it is sealed. -/
theorem Cached.putOrSeal_added (h : s.Cached) (hr : r.SpanFits) :
    (s.putOrSeal r).2 = true ∧ (s.putOrSeal r).1.logCache.active.Holds r := by
  rcases putOrSeal_cases with ⟨hput, heq⟩ | ⟨hput, heq⟩
  · rw [heq]
    exact ⟨rfl, holds_of_put hput⟩
  · have hsize : (s.putCache r).1.logCache.active.size ≠ 0 := by
      intro hzero
      have hsame : (s.putCache r).1.logCache.active.size = s.logCache.active.size :=
        size_of_put_refused hput
      have hadded : (s.putCache r).2 = true := h.accepting.put_of_empty hr (hsame.symm.trans hzero)
      rw [hput] at hadded
      cases hadded
    have hshould : (s.putCache r).1.logCache.shouldArchive matchAllStreams = true := by
      simpa [LogCache.shouldArchive] using pos_of_ne_zero hsize
    rw [heq, uploadDeltaWal_eq, if_pos hshould]
    have hadded := ((h.putCache hr).archive false).accepting.put_of_empty hr rfl
    exact ⟨hadded, holds_of_put hadded⟩

theorem confirmed_handleAppendConfirm :
    (s.handleAppendConfirm r o).confirmed = (s.putOrSeal r).1.confirmed ++ [⟨r, o,
      if (s.putOrSeal r).2 then some (s.putOrSeal r).1.tasks.length else none⟩] := rfl

theorem Cached.confirm (h : s.Cached) (hr : r.SpanFits)
    (horder : s.logCache.lastRecordOffset.all (·.offset < o.offset)) :
    (s.handleAppendConfirm r o).Cached := by
  have hput := h.putOrSeal hr
  obtain ⟨hadded, hholds⟩ := h.putOrSeal_added hr
  -- Every sealed block ends below the new offset.
  have hbelow : ∀ b ∈ (s.putOrSeal r).1.sealedBlocks, ∀ o', b.lastRecordOffset = some o' →
      o'.offset < o.offset := by
    intro b hb o' ho'
    obtain ⟨o'', ho'', hle⟩ := hput.last b hb o' ho'
    rw [lastRecordOffset_putOrSeal] at ho''
    rw [ho'', Option.all_some, decide_eq_true_eq] at horder
    omega
  refine ⟨hput.maxSize, hput.maxStreamCount, hput.accepting, hput.active, ?_, ?_, ?_⟩
  · intro c hc
    rw [confirmed_handleAppendConfirm, hadded, mem_append, mem_singleton] at hc
    rcases hc with hc | rfl
    · exact hput.held c hc
    · exact ⟨(s.putOrSeal r).1.tasks.length, rfl, .inr ⟨rfl, hholds⟩⟩
  · intro b hb o' ho'
    exact ⟨o, rfl, (hbelow b hb o' ho').le⟩
  · intro k b o' hb ho' c hc hle
    rw [confirmed_handleAppendConfirm, hadded, mem_append, mem_singleton] at hc
    rcases hc with hc | rfl
    · exact hput.separated k b o' hb ho' c hc hle
    · have hlt := hbelow b (mem_of_getElem? hb) o' ho'
      exact absurd hle (not_le.mpr hlt)

/-! ## Steps -/

/-- The steps with which the WAL stays untrimmed past uncommitted records: a commit succeeds
only when no block sealed before it failed its `prepare`, and a confirmed record spans at most
`i32::MAX` offsets. -/
def CommitsInLine (s : S3Storage) : Action → Prop
  | .commitReturn (.ok ()) =>
    ∀ k ∈ s.commitWorker.undecided?, ∀ j ∈ s.failedPrepares, k ≤ j
  | .confirm r _ => r.SpanFits
  | _ => True

instance (s : S3Storage) (a : Action) : Decidable (s.CommitsInLine a) := by
  unfold CommitsInLine
  split <;> infer_instance

theorem Cached.step (h : s.Cached) (hG : ∀ r o, a = .confirm r o → r.SpanFits)
    (hstep : s.step a = some s') : s'.Cached := by
  cases effect_of_step hstep with
  | confirm horder => exact h.confirm (hG _ _ rfl) horder
  | uploadDeltaWal => exact h.uploadDeltaWal.congr rfl rfl rfl
  | forceSeal => exact h.uploadDeltaWal.congr rfl rfl rfl
  | prepareErr | uploadReturn | commitRefuse | commitFail | commitNoTrim | commitComplete
  | trimReturn => exact h.congr (sealedBlocks_modifyTask fun _ => rfl) rfl rfl
  | commitTrim =>
    unfold S3Storage.delayTrim
    split <;> exact h.congr rfl rfl rfl
  | commitFree => exact h.congr sealedBlocks_releaseTasks (LogCache.front_markFree _ _) rfl
  | prepareRecv | prepareOk | prepareRemove | commitRecv | commitUploaded | commitOk
  | commitRemove | trimTimer | delayTrimClose | trimCall | forceUpload | forceCollect
  | forceDone | forceNext | forceErr | lazyUpload | notifyDrain | notifySnapshot
  | notifyCommitted | notifyCommitNext | notifyCommitErr | notifyTrimNext | notifyTrimDone =>
    exact h.congr rfl rfl rfl

/-! ## What a step adds -/

theorem sealedBlocks_uploadDeltaWal :
    s.sealedBlocks <+: (s.uploadDeltaWal streamId force).sealedBlocks := by
  rw [uploadDeltaWal_eq]
  split
  · rw [sealedBlocks_submitBlockUpload]
    exact prefix_append _ _
  · exact prefix_rfl

theorem sealedBlocks_putOrSeal : s.sealedBlocks <+: (s.putOrSeal r).1.sealedBlocks := by
  rcases putOrSeal_cases with ⟨-, heq⟩ | ⟨-, heq⟩
  · rw [heq, sealedBlocks_putCache]
  · rw [heq, sealedBlocks_putCache, ← sealedBlocks_putCache]
    exact sealedBlocks_uploadDeltaWal

theorem prefix_of_eq {l l' : List α} (h : l' = l) : l <+: l' :=
  h ▸ prefix_rfl

theorem sealedBlocks_step (hstep : s.step a = some s') : s.sealedBlocks <+: s'.sealedBlocks := by
  cases effect_of_step hstep with
  | confirm => exact sealedBlocks_putOrSeal
  | uploadDeltaWal | forceSeal => exact sealedBlocks_uploadDeltaWal
  | prepareErr | uploadReturn | commitRefuse | commitFail | commitNoTrim | commitComplete
  | trimReturn =>
    exact prefix_of_eq (sealedBlocks_modifyTask fun _ => rfl)
  | commitTrim => exact prefix_of_eq sealedBlocks_delayTrim
  | commitFree => exact prefix_of_eq sealedBlocks_releaseTasks
  | _ => exact prefix_rfl

theorem commits_step (hstep : s.step a = some s') :
    s'.commits = s.commits ∨
      ∃ k, a = .commitReturn (.ok ()) ∧ s.commitWorker = .committing k ∧
        s'.commits = s.commits ++ [k] := by
  cases effect_of_step hstep with
  | confirm => exact .inl (putOrSeal_frame commits fun _ _ _ _ _ => rfl)
  | uploadDeltaWal | forceSeal => exact .inl (uploadDeltaWal_frame commits fun _ _ _ _ _ => rfl)
  | commitTrim =>
    unfold S3Storage.delayTrim
    split <;> exact .inl rfl
  | commitOk hworker => exact .inr ⟨_, rfl, hworker, rfl⟩
  | _ => exact .inl rfl

theorem mem_commits_step (hstep : s.step a = some s') (hk : k ∈ s.commits) : k ∈ s'.commits := by
  rcases commits_step hstep with heq | ⟨_, -, -, heq⟩
  · rwa [heq]
  · rw [heq]; exact mem_append_left _ hk

/-- The trims that are queued, due or called. -/
def trimEntries (s : S3Storage) : List (RecordOffset × Nat) :=
  s.delayTrimQueue ++ (s.inflightTrims ++ s.trims)

theorem trimEntries_step (hstep : s.step a = some s') (he : e ∈ s'.trimEntries) :
    e ∈ s.trimEntries ∨ s.commitWorker = .trimming e.2 ∧
      ∃ b, s.sealedBlocks[e.2]? = some b ∧ b.lastRecordOffset = some e.1 := by
  cases effect_of_step hstep with
  | @confirm r o =>
    have hsame : (s.handleAppendConfirm r o).trimEntries = s.trimEntries :=
      putOrSeal_frame trimEntries fun _ _ _ _ _ => rfl
    exact .inl (hsame ▸ he)
  | uploadDeltaWal | forceSeal =>
    exact .inl (uploadDeltaWal_frame trimEntries (fun _ _ _ _ _ => rfl) ▸ he)
  | @commitTrim k t offset hworker ht hoffset =>
    have hnew : e ∈ s.trimEntries ∨ e = (offset, k) := by
      unfold S3Storage.delayTrim at he
      split at he
      · simp only [trimEntries, mem_append, mem_singleton] at he ⊢
        tauto
      · simp only [trimEntries, mem_append, mem_singleton] at he ⊢
        tauto
    refine hnew.imp_right fun heq => ?_
    subst heq
    exact ⟨hworker, t.sealed, by simp [sealedBlocks, ht], hoffset⟩
  | trimTimer hqueue =>
    refine .inl ?_
    simp only [trimEntries, hqueue, mem_append, mem_cons, not_mem_nil, or_false] at he ⊢
    tauto
  | delayTrimClose =>
    refine .inl ?_
    simp only [trimEntries, mem_append, not_mem_nil, false_or] at he ⊢
    tauto
  | trimCall hn =>
    refine .inl ?_
    have hmem := mem_of_getElem? hn
    simp only [trimEntries, mem_append, mem_singleton] at he ⊢
    rcases he with he | he | he | rfl
    · exact .inl he
    · exact .inr (.inl (mem_of_mem_eraseIdx he))
    · exact .inr (.inr he)
    · exact .inr (.inl hmem)
  | _ => exact .inl he

/-- Every trim, called or not, is that of a committed block. -/
def TrimsCommitted (s : S3Storage) : Prop :=
  ∀ e ∈ s.trimEntries, e.2 ∈ s.commits ∧
    ∃ b, s.sealedBlocks[e.2]? = some b ∧ b.lastRecordOffset = some e.1

theorem TrimsCommitted.step (h : s.TrimsCommitted) (horder : s.Order)
    (hstep : s.step a = some s') : s'.TrimsCommitted := by
  intro e he
  have hsealed : ∀ b, s.sealedBlocks[e.2]? = some b → s'.sealedBlocks[e.2]? = some b := by
    intro b hb
    obtain ⟨later, hlater⟩ := sealedBlocks_step hstep
    rw [← hlater]
    grind
  rcases trimEntries_step hstep he with hold | ⟨hworker, b, hb, hlast⟩
  · obtain ⟨hk, b, hb, hlast⟩ := h e hold
    exact ⟨mem_commits_step hstep hk, b, hsealed b hb, hlast⟩
  · have hk := horder.worker
    rw [hworker] at hk
    exact ⟨mem_commits_step hstep hk, b, hsealed b hb, hlast⟩

/-! ## Whole runs -/

/-- When a commit is due and no earlier `prepare` has failed, every earlier block is
committed. -/
theorem Order.committed_below (h : s.Order) (hworker : s.commitWorker = .committing k)
    (hprepared : ∀ i ∈ s.failedPrepares, k ≤ i) (hj : j < k) : j ∈ s.commits := by
  have hline : s.line =
      k :: (s.commitQueue ++ (s.prepareWorker.task?.toList ++ s.prepareQueue)) := by
    simp [line, hworker, CommitWorker.task?]
  have hsorted := h.sorted
  have hk := h.bound k (hline ▸ mem_cons_self)
  rw [hline, pairwise_cons] at hsorted
  rcases h.finished j (hj.trans hk) with hmem | hmem | hfailed
  · rw [hline, mem_cons] at hmem
    rcases hmem with rfl | hmem
    · exact absurd hj (lt_irrefl j)
    · exact absurd (hsorted.1 j hmem) hj.le.not_gt
  · exact hmem
  · rcases h.blame j hfailed with hprepare | hpoisoned
    · exact absurd (hprepared j hprepare) (not_le.mpr hj)
    · have hw := h.worker
      rw [hworker] at hw
      rw [show s.poisoned = none from hw] at hpoisoned
      cases hpoisoned

/-- The committed blocks are the first ones in seal order. -/
def CommitsPrefix (s : S3Storage) : Prop := s.commits = List.range s.commits.length

theorem CommitsPrefix.mem_iff (h : s.CommitsPrefix) : k ∈ s.commits ↔ k < s.commits.length := by
  conv_lhs => rw [h]
  exact mem_range

theorem CommitsPrefix.step (h : s.CommitsPrefix) (horder : s.Order) (hG : s.CommitsInLine a)
    (hstep : s.step a = some s') : s'.CommitsPrefix := by
  rcases commits_step hstep with heq | ⟨k, rfl, hworker, heq⟩
  · rwa [CommitsPrefix, heq]
  · have hundecided : k ∈ s.commitWorker.undecided? := by rw [hworker]; rfl
    have hbelow : ∀ j < k, j ∈ s.commits := fun j hj =>
      horder.committed_below hworker (hG k hundecided) hj
    have hnot : k ∉ s.commits := horder.not_mem_commits (by
      simp [undecided, hworker, CommitWorker.undecided?])
    -- All numbers below `k` are committed and `k` is not, so `k` is the next number.
    have hk : k = s.commits.length := by
      rw [h.mem_iff, Nat.not_lt] at hnot
      refine Nat.le_antisymm (Nat.le_of_not_lt fun hlt => ?_) hnot
      exact lt_irrefl _ (h.mem_iff.mp (hbelow _ hlt))
    rw [CommitsPrefix, heq, length_append, length_singleton, range_succ, ← h, hk]

/-- **Trims stay behind commits.** As long as no block is committed over a block whose `prepare`
failed, the committed blocks are the first ones in seal order, and every confirmed record at or
below an offset passed to `wal.trim` is in a committed block. -/
theorem trims_behind_commits {config : S3StorageConfig} {as : List Action}
    (hconfig : 0 < config.maxStreamNumPerStreamSetObject)
    (hG : Guarded step CommitsInLine (S3Storage.new config) as)
    (h : run step (S3Storage.new config) as = some s) :
    (∀ c ∈ s.confirmed, ∀ e ∈ s.trims, c.offset.offset ≤ e.1.offset →
      ∃ k ∈ s.commits, c.block = some k ∧ ∃ t, s.tasks[k]? = some t ∧ t.sealed.Holds c.record) ∧
    s.commits = List.range s.commits.length := by
  have hinv : s.Order ∧ s.Cached ∧ s.TrimsCommitted ∧ s.CommitsPrefix := by
    refine run_invariant_of_guarded
      (I := fun s => s.Order ∧ s.Cached ∧ s.TrimsCommitted ∧ s.CommitsPrefix) ?_
      ⟨.new config, .new hconfig, ?_, rfl⟩ hG h
    · rintro s a s' ⟨horder, hcached, htrims, hfirst⟩ hGa hstep
      refine ⟨horder.step hstep, hcached.step ?_ hstep, htrims.step horder hstep,
        hfirst.step horder hGa hstep⟩
      rintro r o rfl
      exact hGa
    · intro e he
      cases he
  obtain ⟨-, hcached, htrims, hfirst⟩ := hinv
  refine ⟨fun c hc e he hle => ?_, hfirst⟩
  obtain ⟨hk, b, hb, hlast⟩ := htrims e (mem_append_right _ (mem_append_right _ he))
  obtain ⟨j, hj, hblock⟩ := hcached.separated e.2 b e.1 hb hlast c hc hle
  -- The block of the record is not after the trimmed one, which is committed.
  have hcommitted : j ∈ s.commits := by
    rw [hfirst.mem_iff] at hk ⊢
    exact lt_of_le_of_lt hj hk
  obtain ⟨j', hj', hheld⟩ := hcached.held c hc
  obtain rfl : j' = j := Option.some.inj (hj'.symm.trans hblock)
  refine ⟨j', hcommitted, hblock, ?_⟩
  have hlt : j' < s.tasks.length := by
    have hbound := of_getElem?_eq_some hb
    rw [length_sealedBlocks] at hbound
    exact lt_of_le_of_lt hj hbound
  rcases hheld with ⟨b', hb', hholds⟩ | ⟨rfl, -⟩
  · rw [sealedBlocks, getElem?_map, Option.map_eq_some_iff] at hb'
    obtain ⟨t, ht, rfl⟩ := hb'
    exact ⟨t, ht, hholds⟩
  · exact absurd hlt (lt_irrefl _)

/-- A block of one record, sealed. -/
def sealOne (streamId walOffset : Nat) : List Action :=
  [.confirm ⟨streamId, 0, 0, 1, []⟩ ⟨0, walOffset, 57⟩, .uploadDeltaWal matchAllStreams false]

/-- The block at the front of the prepare queue goes through the pipeline as task `k`. -/
def commitOne (k : Nat) : List Action :=
  [.prepareRecv, .prepareReturn (.ok ()), .uploadReturn k (.ok ()), .commitRecv, .commitUploaded,
    .commitReturn (.ok ()), .commitTrim, .commitFree, .commitComplete, .commitRemove]

/-- Two blocks are sealed, the `prepare` of the first one fails, the second one is committed and
the WAL is trimmed to its end. -/
def failedPrepareSchedule : List Action :=
  sealOne 1 0 ++ sealOne 2 57 ++
    [.prepareRecv, .prepareReturn (.error "expired"), .prepareRemove] ++ commitOne 1 ++
    [.trimCall 0]

def smallConfig : S3StorageConfig := ⟨1000, 400, 10, false⟩

/-- A failed `prepare` does not stop the pipeline: the next block is committed before it, and
the WAL loses the record of the failed block. -/
theorem trim_past_failed_prepare :
    ∃ s, run step (S3Storage.new smallConfig) failedPrepareSchedule = some s ∧
      (∃ c ∈ s.confirmed, ∃ e ∈ s.trims, c.offset.offset ≤ e.1.offset ∧
        ∀ k ∈ s.commits, c.block ≠ some k) ∧
      s.commits ≠ List.range s.commits.length := by
  decide +kernel

/-! ## Fail-stop -/

theorem Order.poisoned_step (h : s.Order) (hp : s.poisoned.isSome) (hstep : s.step a = some s') :
    s'.poisoned.isSome ∧ s'.commits = s.commits := by
  refine ⟨?_, (commits_step hstep).resolve_right fun ⟨k, _, hworker, _⟩ => ?_⟩
  · cases effect_of_step hstep with
    | confirm => rwa [S3Storage.handleAppendConfirm, putOrSeal_frame poisoned fun _ _ _ _ _ => rfl]
    | uploadDeltaWal | forceSeal =>
      exact (congrArg Option.isSome (uploadDeltaWal_frame poisoned fun _ _ _ _ _ => rfl)).trans hp
    | commitTrim =>
      unfold S3Storage.delayTrim
      split <;> exact hp
    | commitFail => rfl
    | _ => exact hp
  · have hw := h.worker
    rw [hworker] at hw
    rw [show s.poisoned = none from hw] at hp
    cases hp

/-- **A failed commit stops the pipeline**: in every run behind it nothing is committed, and an
upload ends Ok only if its block was committed before. -/
theorem poisoned_run {config : S3StorageConfig} {as bs : List Action}
    (hs : run step (S3Storage.new config) as = some s) (hp : s.poisoned.isSome)
    (hs' : run step s bs = some s') :
    s'.commits = s.commits ∧ ∀ k, s'.cf? k = some (.ok ()) → k ∈ s.commits := by
  have horder : s.Order := run_invariant (fun h hs => h.step hs) (.new config) hs
  obtain ⟨horder', -, hcommits⟩ := run_invariant
    (I := fun m => m.Order ∧ m.poisoned.isSome ∧ m.commits = s.commits)
    (fun ⟨h, hp, heq⟩ hstep => ⟨h.step hstep, (h.poisoned_step hp hstep).imp_right (·.trans heq)⟩)
    ⟨horder, hp, rfl⟩ hs'
  exact ⟨hcommits, fun k hk => hcommits ▸ horder'.done k hk⟩

/-- The commit of the first block fails. -/
theorem poisoned_run_first : ∃ s, run step (S3Storage.new smallConfig)
    (sealOne 1 0 ++ (commitOne 0).take 5 ++ [.commitReturn (.error "down")]) = some s ∧
      (s.poisoned.isSome ∧ s.commits = []) ∧ ∀ bs s', run step s bs = some s' → s'.commits = [] :=
  exists_and (by decide +kernel) fun _ hs ⟨hp, hnil⟩ _ _ hs' =>
    (poisoned_run hs hp hs').1.trans hnil

theorem trims_behind_commits_two :
    ∃ s, run step (S3Storage.new smallConfig)
        (sealOne 1 0 ++ commitOne 0 ++ sealOne 2 57 ++ commitOne 1 ++ [.trimCall 1]) = some s ∧
      s.trims.length = 1 ∧
      (∀ c ∈ s.confirmed, ∀ e ∈ s.trims, c.offset.offset ≤ e.1.offset →
        ∃ k ∈ s.commits, c.block = some k ∧
          ∃ t, s.tasks[k]? = some t ∧ t.sealed.Holds c.record) ∧
      s.commits = List.range s.commits.length :=
  exists_and (by decide +kernel) fun _ hs _ =>
    trims_behind_commits (by decide) (by decide +kernel) hs

end S3Storage

end S3Stream
