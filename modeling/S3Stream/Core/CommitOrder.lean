import S3Stream.Lib.Update
import S3Stream.Core.Storage

/-! # Order of the upload pipeline

What one step of the upload pipeline can do, and the invariant that says where each task is:
waiting in one of the two queues or at a worker, in seal order, or finished, that is committed
or failed. -/

namespace S3Stream

open List S3Storage

/-- The task whose commit is not decided yet. -/
@[simp] def CommitWorker.undecided? : CommitWorker → Option Nat
  | .uploading k | .committing k => some k
  | _ => none

namespace S3Storage

/-! ## Steps -/

inductive Effect (s : S3Storage) : Action → S3Storage → Prop where
  | confirm (horder : s.logCache.lastRecordOffset.all (·.offset < o.offset)) :
    Effect s (.confirm r o) (s.handleAppendConfirm r o)
  | uploadDeltaWal :
    Effect s (.uploadDeltaWal streamId force) (s.uploadDeltaWal streamId force).notifyLazyUpload
  | prepareRecv (hworker : s.prepareWorker = .idle) (hqueue : s.prepareQueue = k :: queue) :
    Effect s .prepareRecv { s with prepareQueue := queue, prepareWorker := .preparing k }
  | prepareOk (hworker : s.prepareWorker = .preparing k) :
    Effect s (.prepareReturn (.ok ())) { s with
      prepareWorker := .idle, uploads := s.uploads ++ [k], commitQueue := s.commitQueue ++ [k] }
  | prepareErr (hworker : s.prepareWorker = .preparing k) :
    Effect s (.prepareReturn (.error e)) { s.modifyTask k
        (TaskContext.fail e "prepare failed") with
      prepareWorker := .removing k, failedPrepares := s.failedPrepares ++ [k] }
  | prepareRemove (hworker : s.prepareWorker = .removing k) :
    Effect s .prepareRemove { s.removeInflight k with prepareWorker := .idle }
  | uploadReturn :
    Effect s (.uploadReturn k result)
      { s.modifyTask k (fun t => { t with uploadDone := t.uploadDone.complete result }) with
        uploads := s.uploads.erase k }
  | commitRecv (hworker : s.commitWorker = .idle) (hqueue : s.commitQueue = k :: queue)
      (hpoisoned : s.poisoned = none) :
    Effect s .commitRecv { s with commitQueue := queue, commitWorker := .uploading k }
  | commitRefuse (hworker : s.commitWorker = .idle) (hqueue : s.commitQueue = k :: queue)
      (hpoisoned : s.poisoned = some reason) :
    Effect s .commitRecv { s.modifyTask k (TaskContext.fail reason reason) with
      commitQueue := queue, commitWorker := .removing k }
  | commitUploaded (hworker : s.commitWorker = .uploading k) :
    Effect s .commitUploaded { s with commitWorker := .committing k }
  | commitFail (hworker : s.commitWorker = .uploading k ∨ s.commitWorker = .committing k)
      (ha : a = .commitUploaded ∨ a = .commitReturn (.error reason)) :
    Effect s a (s.commitFail k reason)
  | commitOk (hworker : s.commitWorker = .committing k) :
    Effect s (.commitReturn (.ok ()))
      { s with commits := s.commits ++ [k], commitWorker := .trimming k }
  | commitTrim {offset : RecordOffset} (hworker : s.commitWorker = .trimming k)
      (ht : s.tasks[k]? = some t) (hoffset : t.cache.lastRecordOffset = some offset) :
    Effect s .commitTrim ({ s with commitWorker := .freeing k }.delayTrim offset k)
  | commitNoTrim (hworker : s.commitWorker = .trimming k) :
    Effect s .commitTrim ({ s with commitWorker := .freeing k }.modifyTask k
      fun t => { t with trimCf := t.trimCf.complete (.ok ()) })
  | commitFree (hworker : s.commitWorker = .freeing k) (ht : s.tasks[k]? = some t) :
    Effect s .commitFree ({ s with
      logCache := s.logCache.markFree t.cache.blockId
      commitWorker := .completing k }.releaseTasks
        (s.logCache.setFree t.cache.blockId).released)
  | commitComplete (hworker : s.commitWorker = .completing k) :
    Effect s .commitComplete { s.modifyTask k
        (fun t => { t with cf := t.cf.complete (.ok ()) }) with
      commitWorker := .removing k }
  | commitRemove (hworker : s.commitWorker = .removing k) :
    Effect s .commitRemove { s.removeInflight k with commitWorker := .idle }
  | trimTimer (hqueue : s.delayTrimQueue = e :: queue) :
    Effect s .trimTimer { s with
      delayTrimQueue := queue, inflightTrims := s.inflightTrims ++ [e] }
  | delayTrimClose :
    Effect s .delayTrimClose { s with
      delayTrimQueue := [], inflightTrims := s.inflightTrims ++ s.delayTrimQueue }
  | trimCall (he : s.inflightTrims[n]? = some e) :
    Effect s (.trimCall n) { s with
      inflightTrims := s.inflightTrims.eraseIdx n, trims := s.trims ++ [e] }
  | trimReturn {e : RecordOffset × Nat} :
    Effect s (.trimReturn n result)
      (s.modifyTask e.2 fun t => { t with trimCf := t.trimCf.complete result })
  | forceUpload :
    Effect s (.forceUpload streamId) { s with
      forceCalls := s.forceCalls ++ [⟨streamId, s.confirmed.length, .ticking⟩] }
  | forceSeal (hc : s.forceCalls[n]? = some c) (hphase : c.phase = .ticking) :
    Effect s (.forceSeal n)
      ((s.uploadDeltaWal c.stream true).notifyLazyUpload.setForcePhase n .sealed)
  | forceCollect (hc : s.forceCalls[n]? = some c) (hphase : c.phase = .sealed) :
    Effect s (.forceCollect n) (s.setForcePhase n (.waiting (s.inflightOf c.stream)))
  | forceDone (hc : s.forceCalls[n]? = some c) (hphase : c.phase = .waiting []) :
    Effect s (.forceWait n) (s.setForcePhase n (.returned (.ok ())))
  | forceNext (hc : s.forceCalls[n]? = some c) (hphase : c.phase = .waiting (k :: ks))
      (hcf : s.cf? k = some (.ok ())) : Effect s (.forceWait n) (s.setForcePhase n (.waiting ks))
  | forceErr (hc : s.forceCalls[n]? = some c) (hphase : c.phase = .waiting (k :: ks))
      (hcf : s.cf? k = some (.error e)) :
    Effect s (.forceWait n) (s.setForcePhase n (.returned (.error e)))
  | lazyUpload :
    Effect s (.lazyUpload awaitTrim) { s with
      lazyRequests := s.lazyRequests ++ [⟨s.confirmed.length, awaitTrim, none, none⟩]
      lazyUploadQueue := s.lazyUploadQueue ++ [s.lazyRequests.length] }
  | notifyDrain (hn : s.notifies[n]? = some .called) :
    Effect s (.notifyDrain n) ({ s with lazyUploadQueue := [] }.setNotifyPhase n
      (if s.lazyUploadQueue = [] then .done else .drained s.lazyUploadQueue))
  | notifySnapshot (hn : s.notifies[n]? = some (.drained requests)) :
    Effect s (.notifySnapshot n)
      (s.setNotifyPhase n (.committing requests s.inflightTasks s.inflightTasks))
  | notifyCommitted {tasks : List Nat}
      (hn : s.notifies[n]? = some (.committing requests tasks [])) :
    Effect s (.notifyCommit n)
      ((s.completeCommits requests (.ok ())).setNotifyPhase n (.trimming requests tasks))
  | notifyCommitNext {tasks : List Nat}
      (hn : s.notifies[n]? = some (.committing requests tasks (k :: rest)))
      (hcf : s.cf? k = some (.ok ())) :
    Effect s (.notifyCommit n) (s.setNotifyPhase n (.committing requests tasks rest))
  | notifyCommitErr {tasks : List Nat}
      (hn : s.notifies[n]? = some (.committing requests tasks (k :: rest)))
      (hcf : s.cf? k = some (.error e)) :
    Effect s (.notifyCommit n)
      ((s.completeCommits requests (.error e)).setNotifyPhase n (.trimming requests tasks))
  | notifyTrimNext (hn : s.notifies[n]? = some (.trimming requests (k :: rest))) :
    Effect s (.notifyTrim n) (s.setNotifyPhase n (.trimming requests rest))
  | notifyTrimDone (hn : s.notifies[n]? = some (.trimming requests rest)) :
    Effect s (.notifyTrim n) ((s.completeTrims requests result).setNotifyPhase n .done)

variable {s s' : S3Storage} {a : Action} {k j : Nat}

theorem effect_of_step (h : s.step a = some s') : Effect s a s' := by
  cases a with
  | confirm =>
    simp only [step, confirm, Option.ite_none_right_eq_some, Option.some.injEq] at h
    exact h.2 ▸ .confirm h.1
  | uploadDeltaWal => cases h; exact .uploadDeltaWal
  | prepareRecv | prepareReturn | prepareRemove | uploadReturn | commitComplete | commitRemove
  | trimTimer | trimCall | trimReturn | notifyDrain | notifySnapshot =>
    simp only [step, prepareRecv, prepareReturn, prepareRemove, uploadReturn, commitComplete,
      commitRemove, trimTimer, trimCall, trimReturn, notifyDrain, notifySnapshot] at h
    split at h <;> cases h
    all_goals constructor <;> assumption
  | commitRecv =>
    simp only [step, commitRecv] at h
    split at h
    next hw hq =>
      split at h
      next hp => cases h; exact .commitRefuse hw hq hp
      next hp => cases h; exact .commitRecv hw hq hp
    next => cases h
  | commitUploaded =>
    simp only [step, commitUploaded] at h
    split at h
    next hw =>
      split at h <;> cases h
      next => exact .commitUploaded hw
      next => exact .commitFail (.inl hw) (.inl rfl)
    next => cases h
  | commitReturn =>
    simp only [step, commitReturn] at h
    split at h <;> cases h
    next hw => exact .commitOk hw
    next hw => exact .commitFail (.inr hw) (.inr rfl)
  | commitTrim =>
    simp only [step, commitTrim] at h
    split at h
    next hw =>
      split at h
      next ho =>
        cases h
        obtain ⟨t, ht, hto⟩ := Option.bind_eq_some_iff.mp ho
        exact .commitTrim hw ht hto
      next => cases h; exact .commitNoTrim hw
    next => cases h
  | commitFree =>
    simp only [step, commitFree] at h
    split at h
    next hw =>
      split at h <;> cases h
      next ht => exact .commitFree hw ht
    next => cases h
  | delayTrimClose => cases h; exact .delayTrimClose
  | forceUpload => cases h; exact .forceUpload
  | forceSeal =>
    simp only [step, forceSeal] at h
    split at h <;> cases h
    next hc => exact .forceSeal hc rfl
  | forceCollect =>
    simp only [step, forceCollect] at h
    split at h <;> cases h
    next hc => exact .forceCollect hc rfl
  | forceWait =>
    simp only [step, forceWait] at h
    split at h
    next hc => cases h; exact .forceDone hc rfl
    next hc =>
      split at h <;> cases h
      next hcf => exact .forceNext hc rfl hcf
      next hcf => exact .forceErr hc rfl hcf
    next => cases h
  | lazyUpload => cases h; exact .lazyUpload
  | notifyCommit =>
    simp only [step, notifyCommit] at h
    split at h
    next hn => cases h; exact .notifyCommitted hn
    next hn =>
      split at h <;> cases h
      next hcf => exact .notifyCommitNext hn hcf
      next hcf => exact .notifyCommitErr hn hcf
    next => cases h
  | notifyTrim =>
    simp only [step, notifyTrim] at h
    split at h
    next hn => cases h; exact .notifyTrimDone hn
    next hn =>
      split at h <;> cases h
      next => exact .notifyTrimNext hn
      next => exact .notifyTrimDone hn
    next => cases h

/-! ## Tasks -/

def Failed (s : S3Storage) (k : Nat) : Prop := ∃ e, s.cf? k = some (.error e)

theorem cf?_eq : s.cf? k = (s.tasks.map TaskContext.cf)[k]?.join := by
  rw [cf?, getElem?_map]
  cases s.tasks[k]? <;> rfl

@[simp] theorem length_modifyTask (f : TaskContext → TaskContext) :
    (s.modifyTask k f).tasks.length = s.tasks.length :=
  length_modify ..

theorem map_tasks_modifyTask {β : Type} (g : TaskContext → β) (hg : ∀ t, g (f t) = g t) :
    (s.modifyTask k f).tasks.map g = s.tasks.map g :=
  Table.map_modify g hg

theorem cf?_modifyTask (hf : ∀ t, (f t).cf = t.cf) : (s.modifyTask k f).cf? j = s.cf? j := by
  rw [cf?_eq, cf?_eq, map_tasks_modifyTask _ hf]

theorem cf?_modifyTask_of_ne (hne : k ≠ j) : (s.modifyTask k f).cf? j = s.cf? j := by
  simp [cf?, modifyTask, getElem?_modify_ne _ _ hne]

theorem cf?_complete (hf : ∀ t, (f t).cf = t.cf.complete result) (hk : k < s.tasks.length) :
    (s.modifyTask k f).cf? k = (s.cf? k).complete result := by
  simp [cf?, modifyTask, hf, hk]

@[simp] theorem map_tasks_releaseTasks (g : TaskContext → β)
    (hg : ∀ t : TaskContext, g { t with cache := t.cache.freeAndNotify } = g t) :
    (s.releaseTasks released).tasks.map g = s.tasks.map g := by
  simp only [releaseTasks, map_map, Function.comp_def, apply_ite g, hg, ite_self]

theorem map_tasks_submitBlockUpload {β : Type} (g : TaskContext → β) (block : LogCacheBlock)
    (force : Bool) (hg : ∀ t : TaskContext, g { t with force := true } = g t) :
    (s.submitBlockUpload block force).tasks.map g =
      s.tasks.map g ++ [g (.ofBlock block force)] := by
  have hfold : ∀ (ks : List Nat) (ts : List TaskContext),
      (ks.foldl (fun ts j => ts.modify j fun t => { t with force := true }) ts).map g =
        ts.map g := by
    intro ks
    induction ks with
    | nil => exact fun _ => rfl
    | cons k ks ih =>
      intro ts
      rw [foldl_cons, ih]
      exact map_tasks_modifyTask (s := { s with tasks := ts }) g hg
  unfold submitBlockUpload
  dsimp only
  split
  · rw [hfold, map_append]; rfl
  · rw [map_append]; rfl

@[simp] theorem length_releaseTasks : (s.releaseTasks released).tasks.length = s.tasks.length := by
  simp [releaseTasks]

@[simp] theorem cf?_releaseTasks : (s.releaseTasks released).cf? j = s.cf? j := by
  rw [cf?_eq, cf?_eq, map_tasks_releaseTasks _ fun _ => rfl]

@[simp] theorem length_submitBlockUpload :
    (s.submitBlockUpload block force).tasks.length = s.tasks.length + 1 := by
  have h := congrArg length
    (map_tasks_submitBlockUpload (s := s) (fun _ => ()) block force fun _ => rfl)
  simpa using h

private theorem join_getElem?_append_none (l : List (Option β)) :
    (l ++ [none])[k]?.join = l[k]?.join := by
  rcases lt_trichotomy k l.length with h | h | h
  · rw [getElem?_append_left h]
  · simp [h]
  · rw [getElem?_eq_none (by simpa using h), getElem?_eq_none h.le]

@[simp] theorem cf?_submitBlockUpload : (s.submitBlockUpload block force).cf? j = s.cf? j := by
  rw [cf?_eq, cf?_eq, map_tasks_submitBlockUpload _ _ _ fun _ => rfl]
  exact join_getElem?_append_none _

theorem lt_of_cf? (h : s.cf? k = some result) : k < s.tasks.length := by
  obtain ⟨t, ht, -⟩ := Option.bind_eq_some_iff.mp h
  exact (List.getElem_of_getElem? ht).1

theorem failed_of_modifyTask (h : (s.modifyTask k f).Failed j) : s.Failed j ∨ j = k := by
  obtain ⟨e', he'⟩ := h
  by_cases hne : k = j
  · exact .inr hne.symm
  · exact .inl ⟨e', by rwa [cf?_modifyTask_of_ne hne] at he'⟩

theorem Failed.complete (hf : ∀ t, (f t).cf = t.cf.complete result) (h : s.Failed j) :
    (s.modifyTask k f).Failed j := by
  obtain ⟨e', he'⟩ := h
  refine ⟨e', ?_⟩
  by_cases hne : k = j
  · subst hne
    rw [cf?_complete hf (lt_of_cf? he'), he']
    rfl
  · rw [cf?_modifyTask_of_ne hne, he']

theorem cf?_of_complete (hf : ∀ t, (f t).cf = t.cf.complete result)
    (h : (s.modifyTask k f).cf? j = some r) (hne : r ≠ result) : s.cf? j = some r := by
  by_cases hkj : k = j
  · subst hkj
    rw [cf?_complete hf (by simpa using lt_of_cf? h)] at h
    cases hcf : s.cf? k with
    | none => rw [hcf] at h; exact absurd (Option.some.inj h).symm hne
    | some => rwa [hcf] at h
  · rwa [cf?_modifyTask_of_ne hkj] at h

theorem failed_fail (hf : ∀ t, (f t).cf = t.cf.complete (.error e)) (hk : k < s.tasks.length) :
    s.cf? k = some (.ok ()) ∨ (s.modifyTask k f).Failed k := by
  rw [Failed, cf?_complete hf hk]
  match s.cf? k with
  | none => exact .inr ⟨e, rfl⟩
  | some (.error e') => exact .inr ⟨e', rfl⟩
  | some (.ok ()) => exact .inl rfl

/-! ## The invariant -/

/-- The tasks in the queues and at the workers, in the order they are committed. -/
def line (s : S3Storage) : List Nat :=
  s.commitWorker.task?.toList ++
    (s.commitQueue ++ (s.prepareWorker.task?.toList ++ s.prepareQueue))

/-- The tasks of the line whose commit is not decided yet. -/
def undecided (s : S3Storage) : List Nat :=
  s.commitWorker.undecided?.toList ++
    (s.commitQueue ++ (s.prepareWorker.task?.toList ++ s.prepareQueue))

/-- What the commit worker knows about its task. -/
def WorkerOk (s : S3Storage) : CommitWorker → Prop
  | .idle => True
  | .uploading _ | .committing _ => s.poisoned = none
  | .trimming k | .freeing k | .completing k => k ∈ s.commits
  | .removing k => k ∈ s.commits ∨ s.Failed k

structure Order (s : S3Storage) : Prop where
  sorted : s.line.Pairwise (· < ·)
  bound : ∀ k ∈ s.line, k < s.tasks.length
  finished : ∀ k < s.tasks.length, k ∈ s.line ∨ k ∈ s.commits ∨ s.Failed k
  inflight : ∀ k < s.tasks.length, k ∈ s.inflightTasks ∨ k ∈ s.commits ∨ s.Failed k
  committed : ∀ k ∈ s.commits, k < s.tasks.length ∧ ∀ j ∈ s.undecided, k < j
  worker : s.WorkerOk s.commitWorker
  removing : ∀ k, s.prepareWorker = .removing k → s.Failed k
  /-- A task fails by its `prepare` or after the pipeline is poisoned. -/
  blame : ∀ k, s.Failed k → k ∈ s.failedPrepares ∨ s.poisoned.isSome
  done : ∀ k, s.cf? k = some (.ok ()) → k ∈ s.commits

theorem Order.new (config : S3StorageConfig) : (new config).Order where
  sorted := .nil
  bound := nofun
  finished := nofun
  inflight := nofun
  committed := nofun
  worker := trivial
  removing := nofun
  blame := by rintro k ⟨e, he⟩; cases he
  done := by intro k hk; cases hk

/-- A step that seals nothing and commits nothing. -/
structure Move (s s' : S3Storage) : Prop where
  length : s'.tasks.length = s.tasks.length
  commits : s'.commits = s.commits
  line : s'.line.Sublist s.line
  undecided : ∀ k ∈ s'.undecided, k ∈ s.undecided
  left : ∀ k ∈ s.line, k ∈ s'.line ∨ k ∈ s.commits ∨ s'.Failed k
  inflight : ∀ k ∈ s.inflightTasks, k ∈ s'.inflightTasks ∨ k ∈ s.commits ∨ s'.Failed k
  failed : ∀ k, s.Failed k → s'.Failed k
  blame : ∀ k, s'.Failed k → k ∈ s'.failedPrepares ∨ s'.poisoned.isSome
  done : ∀ k, s'.cf? k = some (.ok ()) → k ∈ s.commits
  worker : s'.WorkerOk s'.commitWorker
  removing : ∀ k, s'.prepareWorker = .removing k → s'.Failed k

theorem Order.move (h : s.Order) (hm : Move s s') : s'.Order where
  sorted := h.sorted.sublist hm.line
  bound k hk := hm.length ▸ h.bound k (hm.line.subset hk)
  finished k hk := by
    rw [hm.commits]
    rcases h.finished k (hm.length ▸ hk) with hline | hcommit | hfailed
    · exact hm.left k hline
    · exact .inr (.inl hcommit)
    · exact .inr (.inr (hm.failed k hfailed))
  inflight k hk := by
    rw [hm.commits]
    rcases h.inflight k (hm.length ▸ hk) with hin | hcommit | hfailed
    · exact hm.inflight k hin
    · exact .inr (.inl hcommit)
    · exact .inr (.inr (hm.failed k hfailed))
  committed k hk := by
    obtain ⟨hlt, hbefore⟩ := h.committed k (hm.commits ▸ hk)
    exact ⟨hm.length ▸ hlt, fun j hj => hbefore j (hm.undecided j hj)⟩
  worker := hm.worker
  removing := hm.removing
  blame := hm.blame
  done k hk := hm.commits ▸ hm.done k hk

theorem WorkerOk.mono (h : s.WorkerOk w) (hpoisoned : s'.poisoned = s.poisoned)
    (hcommits : s'.commits = s.commits) (hfailed : ∀ k, s.Failed k → s'.Failed k) :
    s'.WorkerOk w := by
  cases w with
  | idle => trivial
  | uploading | committing => exact hpoisoned.trans h
  | trimming | freeing | completing => exact Eq.mpr (congrArg (_ ∈ ·) hcommits) h
  | removing k => exact h.imp (Eq.mpr (congrArg (_ ∈ ·) hcommits)) (hfailed k)

section

variable (h : s.Order) (hlen : s'.tasks.length = s.tasks.length) (hcf : ∀ k, s'.cf? k = s.cf? k)
  (hrest : (s'.inflightTasks, s'.failedPrepares, s'.poisoned, s'.commits) =
    (s.inflightTasks, s.failedPrepares, s.poisoned, s.commits))

include h hlen hcf hrest

/-- A move that leaves the results of the tasks, the inflight tasks and the poison alone. -/
theorem Order.move_of_results (hline : s'.line = s.line)
    (hundecided : ∀ k ∈ s'.undecided, k ∈ s.undecided) (hworker : s'.WorkerOk s'.commitWorker)
    (hremoving : ∀ k, s'.prepareWorker = .removing k → s'.Failed k) : s'.Order := by
  simp only [Prod.mk.injEq] at hrest
  obtain ⟨hinflight, hprepares, hpoisoned, hcommits⟩ := hrest
  have hfailed : ∀ k, s'.Failed k ↔ s.Failed k := fun k => by rw [Failed, Failed, hcf]
  exact h.move {
    length := hlen
    commits := hcommits
    line := hline ▸ List.Sublist.refl _
    undecided := hundecided
    left := fun k hk => .inl (hline ▸ hk)
    inflight := fun k hk => .inl (hinflight ▸ hk)
    failed := fun k => (hfailed k).mpr
    blame := fun k hk => by
      rw [hprepares, hpoisoned]
      exact h.blame k ((hfailed k).mp hk)
    done := fun k hk => h.done k (hcf k ▸ hk)
    worker := hworker
    removing := hremoving }

/-- The invariant reads the queues, the workers and the results of the tasks. -/
theorem Order.congr (hq : (s'.prepareQueue, s'.prepareWorker, s'.commitQueue, s'.commitWorker) =
      (s.prepareQueue, s.prepareWorker, s.commitQueue, s.commitWorker)) : s'.Order := by
  have hrest' := hrest
  simp only [Prod.mk.injEq] at hq hrest'
  obtain ⟨h1, h2, h3, h4⟩ := hq
  have hfailed : ∀ k, s.Failed k → s'.Failed k := fun k hk => by rwa [Failed, hcf]
  refine h.move_of_results hlen hcf hrest ?_ ?_ ?_ ?_
  · rw [line, line, h1, h2, h3, h4]
  · rw [undecided, undecided, h1, h2, h3, h4]
    exact fun k hk => hk
  · rw [h4]
    exact h.worker.mono hrest'.2.2.1 hrest'.2.2.2 hfailed
  · rw [h2]
    exact fun k hk => hfailed k (h.removing k hk)

end

theorem Order.workerOk (h : s.Order) (hworker : s.commitWorker = w) : s.WorkerOk w :=
  hworker ▸ h.worker

theorem Order.submitBlockUpload (h : s.Order) : (s.submitBlockUpload block force).Order := by
  have hline : (s.submitBlockUpload block force).line = s.line ++ [s.tasks.length] := by
    simp [line, S3Storage.submitBlockUpload]
  have hundecided :
      (s.submitBlockUpload block force).undecided = s.undecided ++ [s.tasks.length] := by
    simp [undecided, S3Storage.submitBlockUpload]
  have hfailed : ∀ k, (s.submitBlockUpload block force).Failed k ↔ s.Failed k := fun k => by
    rw [Failed, Failed, cf?_submitBlockUpload]
  refine ⟨?_, ?_, ?_, ?_, ?_, ?_, ?_, ?_, ?_⟩
  · rw [hline, pairwise_append]
    refine ⟨h.sorted, pairwise_singleton _ _, fun k hk j hj => ?_⟩
    rw [mem_singleton.mp hj]
    exact h.bound k hk
  · intro k hk
    rw [hline, mem_append, mem_singleton] at hk
    rw [length_submitBlockUpload]
    rcases hk with hk | rfl
    · exact Nat.lt_succ_of_lt (h.bound k hk)
    · exact Nat.lt_succ_self _
  · intro k hk
    rw [length_submitBlockUpload, Nat.lt_succ_iff_lt_or_eq] at hk
    rw [hline, mem_append, mem_singleton, hfailed]
    rcases hk with hk | rfl
    · exact (h.finished k hk).imp_left .inl
    · exact .inl (.inr rfl)
  · intro k hk
    rw [length_submitBlockUpload, Nat.lt_succ_iff_lt_or_eq] at hk
    rw [hfailed]
    rcases hk with hk | rfl
    · exact (h.inflight k hk).imp_left (mem_append_left _)
    · exact .inl (mem_append_right _ (mem_singleton_self _))
  · intro k hk
    obtain ⟨hlt, hbefore⟩ := h.committed k hk
    refine ⟨by rw [length_submitBlockUpload]; omega, fun j hj => ?_⟩
    rw [hundecided, mem_append, mem_singleton] at hj
    rcases hj with hj | rfl
    · exact hbefore j hj
    · exact hlt
  · exact h.worker.mono rfl rfl fun k => (hfailed k).mpr
  · exact fun k hk => (hfailed k).mpr (h.removing k hk)
  · exact fun k hk => h.blame k ((hfailed k).mp hk)
  · intro k hk
    rw [cf?_submitBlockUpload] at hk
    exact h.done k hk

theorem Order.uploadDeltaWal (h : s.Order) : (s.uploadDeltaWal streamId force).Order := by
  unfold S3Storage.uploadDeltaWal
  split
  next logCache block _ =>
    have hcache : ({ s with logCache } : S3Storage).Order := h.congr rfl (fun _ => rfl) rfl rfl
    exact hcache.submitBlockUpload
  next => exact h

theorem Order.releaseTasks (h : s.Order) : (s.releaseTasks released).Order :=
  h.congr length_releaseTasks (fun _ => cf?_releaseTasks) rfl rfl

theorem Order.putCache (h : s.Order) : (s.putCache r).1.Order := by
  have hcache : ({ s with logCache := (s.logCache.put r).1 } : S3Storage).Order :=
    h.congr rfl (fun _ => rfl) rfl rfl
  exact hcache.releaseTasks

theorem Order.putOrSeal (h : s.Order) : (s.putOrSeal r).1.Order := by
  have hput : (s.putCache r).1.Order := h.putCache
  unfold S3Storage.putOrSeal
  split
  next heq => rw [heq] at hput; exact hput
  next heq => rw [heq] at hput; exact hput.uploadDeltaWal.putCache

theorem Order.handleAppendConfirm (h : s.Order) : (s.handleAppendConfirm r o).Order :=
  h.putOrSeal.congr rfl (fun _ => rfl) rfl rfl

theorem mem_line_of_undecided (h : k ∈ s.undecided) : k ∈ s.line := by
  rw [undecided, mem_append] at h
  rw [line, mem_append]
  refine h.imp_left fun hk => ?_
  cases hw : s.commitWorker <;> rw [hw] at hk <;> first | exact hk | cases hk

section

variable (h : s.Order)

include h

theorem Order.not_mem_commits (hk : k ∈ s.undecided) : k ∉ s.commits :=
  fun hc => lt_irrefl k ((h.committed k hc).2 k hk)

theorem Order.fail (hk : k ∈ s.undecided) (hf : ∀ t, (f t).cf = t.cf.complete (.error e))
    (htasks : s'.tasks = (s.modifyTask k f).tasks)
    (hrest : (s'.inflightTasks, s'.commits) = (s.inflightTasks, s.commits))
    (hline : s'.line = s.line) (hundecided : ∀ j ∈ s'.undecided, j ∈ s.undecided)
    (hblame : ∀ j, s.Failed j ∨ j = k → j ∈ s'.failedPrepares ∨ s'.poisoned.isSome)
    (hworker : s'.Failed k → (∀ j, s.Failed j → s'.Failed j) → s'.WorkerOk s'.commitWorker)
    (hremoving : s'.Failed k → (∀ j, s.Failed j → s'.Failed j) →
      ∀ j, s'.prepareWorker = .removing j → s'.Failed j) : s'.Order := by
  simp only [Prod.mk.injEq] at hrest
  obtain ⟨hinflight, hcommits⟩ := hrest
  have hcf : ∀ j, s'.cf? j = (s.modifyTask k f).cf? j := fun j => by rw [cf?, cf?, htasks]
  have hfailed : ∀ j, s.Failed j → s'.Failed j := fun j hj => by
    rw [Failed, hcf]
    exact hj.complete hf
  -- The task is not committed, so its result was not there yet.
  have hself : s'.Failed k := by
    rw [Failed, hcf]
    refine (failed_fail hf (h.bound k (mem_line_of_undecided hk))).resolve_left fun hdone => ?_
    exact h.not_mem_commits hk (h.done k hdone)
  exact h.move {
    length := by rw [htasks]; exact length_modifyTask _
    commits := hcommits
    line := hline ▸ List.Sublist.refl _
    undecided := hundecided
    left := fun j hj => .inl (hline ▸ hj)
    inflight := fun j hj => .inl (hinflight ▸ hj)
    failed := hfailed
    blame := fun j hj => by
      rw [Failed, hcf] at hj
      exact hblame j (failed_of_modifyTask hj)
    done := fun j hj => h.done j (cf?_of_complete hf (hcf j ▸ hj) nofun)
    worker := hworker hself hfailed
    removing := hremoving hself hfailed }

theorem Order.remove (hk : k ∈ s.commits ∨ s.Failed k) (htasks : s'.tasks = s.tasks)
    (hrest : (s'.failedPrepares, s'.poisoned, s'.commits) =
      (s.failedPrepares, s.poisoned, s.commits))
    (hinflight : s'.inflightTasks = s.inflightTasks.filter (· ≠ k)) (hline : s'.line.Sublist s.line)
    (hleft : ∀ j ∈ s.line, j ∈ s'.line ∨ j = k) (hundecided : ∀ j ∈ s'.undecided, j ∈ s.undecided)
    (hworker : (∀ j, s.Failed j → s'.Failed j) → s'.WorkerOk s'.commitWorker)
    (hremoving : (∀ j, s.Failed j → s'.Failed j) →
      ∀ j, s'.prepareWorker = .removing j → s'.Failed j) : s'.Order := by
  simp only [Prod.mk.injEq] at hrest
  obtain ⟨hprepares, hpoisoned, hcommits⟩ := hrest
  have hfailed : ∀ j, s'.Failed j ↔ s.Failed j := fun j => by
    rw [Failed, Failed, cf?, cf?, htasks]
  have hself : k ∈ s.commits ∨ s'.Failed k := hk.imp_right (hfailed k).mpr
  exact h.move {
    length := by rw [htasks]
    commits := hcommits
    line := hline
    undecided := hundecided
    left := fun j hj => (hleft j hj).imp_right fun heq : j = k => heq ▸ hself
    inflight := fun j hj => by
      by_cases hjk : j = k
      · exact .inr (hjk ▸ hself)
      · rw [hinflight]
        exact .inl (mem_filter.mpr ⟨hj, decide_eq_true hjk⟩)
    failed := fun j => (hfailed j).mpr
    blame := fun j hj => by
      rw [hprepares, hpoisoned]
      exact h.blame j ((hfailed j).mp hj)
    done := fun j hj => h.done j (by rwa [cf?, htasks] at hj)
    worker := hworker fun j => (hfailed j).mpr
    removing := hremoving fun j => (hfailed j).mpr }

theorem Order.advance (hworker : s.commitWorker = w) (htask : c.task? = w.task?)
    (hundecided : c.undecided? = w.undecided?) (hw : s.WorkerOk w → s.WorkerOk c) :
    ({ s with commitWorker := c } : S3Storage).Order := by
  refine h.move_of_results rfl (fun _ => rfl) rfl ?_ ?_ (hw (h.workerOk hworker)) h.removing
  · simp only [line, htask, hworker]
  · simp only [undecided, hundecided, hworker]
    exact fun _ hk => hk

theorem Order.delayTrim : (s.delayTrim offset k).Order := by
  unfold S3Storage.delayTrim
  split <;> exact h.congr rfl (fun _ => rfl) rfl rfl

theorem Order.commit (hworker : s.commitWorker = .committing k) :
    ({ s with commits := s.commits ++ [k], commitWorker := .trimming k } : S3Storage).Order := by
  have hline : s.line =
      k :: (s.commitQueue ++ (s.prepareWorker.task?.toList ++ s.prepareQueue)) := by
    simp [line, hworker]
  have hsorted := h.sorted
  have hbound := h.bound
  have hfinished := h.finished
  rw [hline] at hsorted hbound hfinished
  refine ⟨hsorted, hbound, ?_, ?_, ?_, ?_, h.removing, h.blame, ?_⟩
  · intro j hj
    rw [mem_append]
    exact (hfinished j hj).imp_right (Or.imp_left .inl)
  · intro j hj
    rw [mem_append]
    exact (h.inflight j hj).imp_right (Or.imp_left .inl)
  · intro j hj
    rw [mem_append, mem_singleton] at hj
    rcases hj with hj | rfl
    · obtain ⟨hlt, hbefore⟩ := h.committed j hj
      refine ⟨hlt, fun i hi => hbefore i ?_⟩
      exact mem_append_right _ hi
    · exact ⟨hbound j mem_cons_self, (pairwise_cons.mp hsorted).1⟩
  · exact mem_append_right _ (mem_singleton_self k)
  · exact fun j hj => mem_append_left _ (h.done j hj)

theorem Order.complete (hworker : s.commitWorker = .completing k) :
    ({ s.modifyTask k (fun t => { t with cf := t.cf.complete (.ok ()) }) with
      commitWorker := .removing k } : S3Storage).Order := by
  have hk : k ∈ s.commits := h.workerOk hworker
  refine h.move {
    length := length_modifyTask _
    commits := rfl
    line := by simp [line, hworker, modifyTask]
    undecided := by simp [undecided, hworker, modifyTask]
    left := fun j hj => .inl (by
      simpa [line, hworker, modifyTask] using hj)
    inflight := fun j hj => .inl hj
    failed := fun j hj => hj.complete fun _ => rfl
    blame := fun j ⟨e, he⟩ => h.blame j ⟨e, cf?_of_complete (fun _ => rfl) he nofun⟩
    done := fun j hj => ?_
    worker := .inl hk
    removing := fun j hj => (h.removing j hj).complete fun _ => rfl }
  by_cases hne : k = j
  · exact hne ▸ hk
  · exact h.done j (by rwa [← cf?_modifyTask_of_ne hne])

theorem Order.step (hstep : s.step a = some s') : s'.Order := by
  cases effect_of_step hstep with
  | confirm => exact h.handleAppendConfirm
  | uploadDeltaWal | forceSeal => exact h.uploadDeltaWal.congr rfl (fun _ => rfl) rfl rfl
  | prepareRecv hworker hqueue =>
    refine h.move_of_results rfl (fun _ => rfl) rfl ?_ ?_ h.worker (fun _ hj => by cases hj)
    · simp [line, hworker, hqueue]
    · simp [undecided, hworker, hqueue]
  | prepareOk hworker =>
    refine h.move_of_results rfl (fun _ => rfl) rfl ?_ ?_ h.worker (fun _ hj => by cases hj)
    · simp [line, hworker]
    · simp [undecided, hworker]
  | @prepareErr k e hworker =>
    refine h.fail (k := k) (f := .fail e "prepare failed") (by simp [undecided, hworker])
      (fun _ => rfl) rfl rfl ?_ ?_ ?_ ?_ ?_
    · simp [line, hworker, modifyTask]
    · simp [undecided, hworker, modifyTask]
    · rintro j (hj | rfl)
      · exact (h.blame j hj).imp_left (mem_append_left _)
      · exact .inl (mem_append_right _ (mem_singleton_self j))
    · exact fun _ hfailed => h.worker.mono rfl rfl hfailed
    · intro hself _ j hj
      cases hj
      exact hself
  | prepareRemove hworker =>
    refine h.remove (.inr (h.removing _ hworker)) rfl rfl rfl ?_ ?_ ?_ ?_
      (fun _ _ hj => by cases hj)
    · simp only [line, removeInflight, hworker, PrepareWorker.task?]
      exact ((sublist_cons_self _ _).append_left _).append_left _
    · simp [line, removeInflight, hworker]
      tauto
    · simp [undecided, removeInflight, hworker]
      tauto
    · exact fun hfailed => h.worker.mono rfl rfl hfailed
  | commitRecv hworker hqueue hpoisoned =>
    refine h.move_of_results rfl (fun _ => rfl) rfl ?_ ?_ hpoisoned h.removing
    · simp [line, hworker, hqueue]
    · simp [undecided, hworker, hqueue]
  | @commitRefuse k queue reason hworker hqueue hpoisoned =>
    refine h.fail (k := k) (f := .fail reason reason) (by simp [undecided, hworker, hqueue])
      (fun _ => rfl) rfl rfl ?_ ?_ ?_ ?_ ?_
    · simp [line, hworker, hqueue, modifyTask]
    · simp +contextual [undecided, hworker, hqueue, modifyTask]
    · exact fun _ _ => .inr (by simp [modifyTask, hpoisoned])
    · exact fun hself _ => .inr hself
    · exact fun _ hfailed j hj => hfailed j (h.removing j hj)
  | commitUploaded hworker => exact h.advance hworker rfl rfl id
  | @commitFail k _ reason hworker =>
    refine h.fail (k := k) (f := .fail reason reason) ?_ (fun _ => rfl) rfl rfl ?_ ?_ ?_ ?_ ?_
    · rcases hworker with hw | hw <;> simp [undecided, hw]
    · rcases hworker with hw | hw <;>
        simp [line, hw, commitFail, modifyTask]
    · rcases hworker with hw | hw <;>
        simp +contextual [undecided, hw, commitFail, modifyTask]
    · exact fun _ _ => .inr rfl
    · exact fun hself _ => .inr hself
    · exact fun _ hfailed j hj => hfailed j (h.removing j hj)
  | commitOk hworker => exact h.commit hworker
  | @commitTrim k _ _ hworker =>
    have hadvance := h.advance (c := .freeing k) hworker rfl rfl id
    exact hadvance.delayTrim
  | @commitNoTrim k hworker =>
    have hadvance := h.advance (c := .freeing k) hworker rfl rfl id
    exact hadvance.congr (length_modifyTask _) (fun _ => cf?_modifyTask fun _ => rfl) rfl rfl
  | @commitFree k t hworker =>
    have hadvance := h.advance (c := .completing k) hworker rfl rfl id
    have hcache : ({ s with
        logCache := s.logCache.markFree t.cache.blockId
        commitWorker := .completing k } : S3Storage).Order :=
      hadvance.congr rfl (fun _ => rfl) rfl rfl
    exact hcache.releaseTasks
  | commitComplete hworker => exact h.complete hworker
  | commitRemove hworker =>
    refine h.remove (h.workerOk hworker) rfl rfl rfl ?_ ?_ ?_ (fun _ => trivial) ?_
    · simp only [line, removeInflight, hworker, CommitWorker.task?]
      exact sublist_cons_self _ _
    · simp [line, removeInflight, hworker]
      tauto
    · simp [undecided, removeInflight, hworker]
    · exact fun hfailed j hj => hfailed j (h.removing j hj)
  | trimTimer | delayTrimClose | trimCall | forceUpload | forceCollect | forceDone | forceNext
  | forceErr | lazyUpload | notifyDrain | notifySnapshot | notifyCommitted | notifyCommitNext
  | notifyCommitErr | notifyTrimNext | notifyTrimDone => exact h.congr rfl (fun _ => rfl) rfl rfl
  | uploadReturn | trimReturn =>
    exact h.congr (length_modifyTask _) (fun _ => cf?_modifyTask fun _ => rfl) rfl rfl

end

end S3Storage

end S3Stream
