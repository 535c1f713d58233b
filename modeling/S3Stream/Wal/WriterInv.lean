import S3Stream.Wal.Writer

/-! # What a writer action does

The inversion of `Writer.step`, and from it: every run of a writer is a run of its pipeline, a
writer that has not been started is untouched, and trims only move forward. -/

namespace S3Stream

open TransitionSystem Writer

namespace Writer

/-- Operations of the pipeline that a writer runs without touching the rest of its state. -/
def PipeOnly : PipeOp → Prop
  | .sealActive | .tryUpload | .uploadStart _ | .putLand _ | .recv | .verify _ | .loadFenced
  | .completeBulk => True
  | _ => False

/-- The append of a trim's record ends in an error: `submit` refuses the record, or its ack is an
error. -/
def AppendFails (w : Writer) (a : WalAct) (k : Nat) : TrimPhase → Prop
  | .stored => a = .trimSubmit k ∧ ∃ e, w.submitCheck trimRecord = .error e
  | .placed id => a = .trimProceed k ∧ ∃ x e, w.acks.find? (·.id = id) = some x ∧
      x.result = .error e
  | _ => False

/-- Where the last object of a listing ends. -/
abbrev listedEnd (listed : List ObjectInfo) : Nat :=
  ((skipOverlapObjects (parseWalObjects listed)).getLast?.map WalObject.endOffset).getD 0

/-- Everything an action can do to a writer, with the conditions under which it does it. -/
inductive Effect (w : Writer) : WalAct → Writer → Prop where
  /-- The action is refused or has nothing to do. -/
  | skip : Effect w a w
  | startHeld (hstart : w.start = .created) :
    Effect w (.startVerify .held) { w with start := .verified }
  | startLost (hstart : w.start = .created) :
    Effect w (.startVerify .lost) { w with start := .returned, fenced := true }
  | startError (hstart : w.start = .created) :
    Effect w (.startVerify .error) { w with start := .returned }
  | startNewer (hstart : w.start = .verified)
      (hlast : (skipOverlapObjects (parseWalObjects listed)).getLast? = some o)
      (hnewer : w.config.epoch < o.epoch) :
    Effect w (.startList listed) { w with
      start := .returned
      deletes := w.deletes ++ overlapObjects (parseWalObjects listed)
      fenced := true }
  | started {offset : Nat} (hstart : w.start = .verified)
      (hepoch : ∀ o, (skipOverlapObjects (parseWalObjects listed)).getLast? = some o →
        o.epoch ≤ w.config.epoch)
      (hoffset : offset = listedEnd listed) (hseq : w.bulkSeq = 0) (hlt : offset < 2 ^ 63) :
    Effect w (.startList listed) { w with
      start := .returned
      deletes := w.deletes ++ overlapObjects (parseWalObjects listed)
      previousObjects := w.previousObjects ++ skipOverlapObjects (parseWalObjects listed)
      closed := false
      startOffset := offset
      flushedOffset := offset
      nextOffset := offset }
  | submit (hr : record.InRange) (hcheck : w.submitCheck record = .ok ()) :
    Effect w (.submit record) { w with admitted := w.admitted ++ [⟨record, none⟩] }
  | place (hd : w.admitted[n]? = some d) (hp : w.toPipeline.step (.place d.record) = some p) :
    Effect w (.place n) { w with
      toPipeline := p
      admitted := w.admitted.eraseIdx n
      bufferedDataBytes := w.bufferedDataBytes + framedSize d.record
      unresolved := w.unresolved ++ [(w.ackFor d.record, framedSize d.record)]
      trims := match d.trim with
        | none => w.trims
        | some k => setPhase w.trims k (.placed (w.ackFor d.record)) }
  | resolve {id : AckId} (hsize : w.unresolved.lookup id = some size)
      (hack : w.acks.any (·.id = id)) :
    Effect w (.resolve id) { w with
      unresolved := w.unresolved.eraseP (·.1 = id)
      bufferedDataBytes := w.bufferedDataBytes - size }
  | close : Effect w .close { w with closed := true }
  | pipe (hop : PipeOnly op) (hp : w.toPipeline.step op = some p)
      (hland : ∀ seq, op = .putLand seq → a = .putLand seq)
      (hstart : ∀ seq, op = .uploadStart seq → a = .uploadStart seq)
      (hverify : ∀ o, op = .verify o → a = .verify o) : Effect w a { w with toPipeline := p }
  | putReturn (hb : w.inFlight? seq = some b)
      (hp : w.toPipeline.step (.putReturn seq ok) = some p) :
    Effect w (.putReturn seq ok) { w with
      toPipeline := p
      lastRecordOffsetToObject := w.uploadedObjects b ok }
  | trimWait {offset : Int} (hopen : w.checkStatus = .ok ()) (hle : offset ≤ w.trimOffset)
      (ha : a = .trimStart offset ∨ a = .reset ∧ offset = asI64 w.nextOffset - 1) :
    Effect w a { w with trims := w.trims ++ [⟨offset, .waiting⟩] }
  | trimStore {offset : Int} (hopen : w.checkStatus = .ok ())
      (ha : a = .trimStart offset ∨ a = .reset ∧ offset = asI64 w.nextOffset - 1)
      (hlt : w.trimOffset < offset) (hhi : offset < 2 ^ 63) :
    Effect w a { w with
      trimOffset := offset
      trims := w.trims ++ [⟨offset, .stored⟩] }
  | trimSubmit {offset : Int} (hk : w.trims[k]? = some ⟨offset, .stored⟩)
      (hcheck : w.submitCheck trimRecord = .ok ()) :
    Effect w (.trimSubmit k) { w with
      admitted := w.admitted ++ [⟨trimRecord, some k⟩]
      trims := setPhase w.trims k .admitted }
  | trimFail (hk : w.trims[k]? = some t) (hfail : w.AppendFails a k t.phase) :
    Effect w a { w with trims := setPhase w.trims k .failed }
  | trimProceed {offset : Int} {id : AckId} (hk : w.trims[k]? = some ⟨offset, .placed id⟩)
      (hack : x ∈ w.acks) (hid : x.id = id) (hok : x.result = .ok res) :
    Effect w (.trimProceed k) { w with
      lastRecordOffsetToObject :=
        w.lastRecordOffsetToObject.filter fun e => e ∉ (w.coveredObjects offset).entries
      previousObjects := w.previousObjects.drop (w.coveredPrevious offset).length
      deletes := w.deletes ++ ((w.coveredObjects offset).values ++ w.coveredPrevious offset)
      trims := setPhase w.trims k (.deleting id) }
  | trimFinish {offset : Int} {id : AckId} (hk : w.trims[k]? = some ⟨offset, .deleting id⟩) :
    Effect w (.trimFinish k) { w with
      completedTrim := max w.completedTrim offset
      trims := setPhase w.trims k (.done id) }
  | trimJoin {offset : Int} (hk : w.trims[k]? = some ⟨offset, .waiting⟩)
      (hle : offset ≤ w.completedTrim) :
    Effect w (.trimJoin k) { w with trims := setPhase w.trims k .joined }

variable {w w' : Writer} {a : WalAct}

theorem pipe_eq_some (h : w.pipe op = some w') :
    ∃ p, w.toPipeline.step op = some p ∧ w' = { w with toPipeline := p } := by
  simp only [pipe, Option.map_eq_some_iff] at h
  obtain ⟨p, hp, rfl⟩ := h
  exact ⟨p, hp, rfl⟩

private theorem effect_of_pipe (h : w.pipe op = some w') (hop : PipeOnly op)
    (hland : ∀ seq, op = .putLand seq → a = .putLand seq)
    (hstart : ∀ seq, op = .uploadStart seq → a = .uploadStart seq)
    (hverify : ∀ o, op = .verify o → a = .verify o) : Effect w a w' := by
  obtain ⟨p, hp, rfl⟩ := pipe_eq_some h
  exact .pipe hop hp hland hstart hverify

private theorem effect_of_startList (h : w.startList listed = some w') :
    Effect w (.startList listed) w' := by
  unfold startList at h
  split at h
  next hstart =>
    cases hlast : (skipOverlapObjects (parseWalObjects listed)).getLast? with
    | none =>
      simp only [hlast, Option.map_none, Option.any_none, Bool.false_eq_true, if_false] at h
      obtain ⟨p, hp, rfl⟩ := pipe_eq_some h
      simp only [Pipeline.step] at hp
      split at hp <;> cases hp
      next hc =>
        exact .started hstart (fun o ho => by cases hlast.symm.trans ho)
          (by rw [listedEnd, hlast]; rfl) hc.1 hc.2
    | some =>
      simp only [hlast, Option.map_some, Option.any_some, decide_eq_true_eq] at h
      split at h
      next hnewer =>
        obtain ⟨p, hp, rfl⟩ := pipe_eq_some h
        cases hp
        exact .startNewer hstart hlast hnewer
      next hnot =>
        obtain ⟨p, hp, rfl⟩ := pipe_eq_some h
        simp only [Pipeline.step] at hp
        split at hp <;> cases hp
        next hc =>
          refine .started hstart (fun o' ho' => ?_) (by rw [listedEnd, hlast]; rfl) hc.1 hc.2
          cases hlast.symm.trans ho'
          exact not_lt.mp hnot
  next => cases h

private theorem effect_of_trimStart (h : w.trimStart offset = some w')
    (ha : a = .trimStart offset ∨ a = .reset ∧ offset = asI64 w.nextOffset - 1) :
    Effect w a w' := by
  unfold trimStart at h
  split at h
  next =>
    cases hopen : w.checkStatus with
    | error =>
      simp only [hopen] at h
      cases h
      exact .skip
    | ok =>
      simp only [hopen] at h
      split at h
      next hle =>
        cases h
        exact .trimWait hopen hle ha
      next =>
        obtain ⟨p, hp, rfl⟩ := pipe_eq_some h
        simp only [Pipeline.step] at hp
        split at hp <;> cases hp
        next hc => exact .trimStore hopen ha hc.1 hc.2
  next => cases h

theorem effect_of_step (h : w.step a = some w') : Effect w a w' := by
  cases a with
  | startVerify outcome =>
    simp only [step, startVerify] at h
    split at h
    next hstart =>
      cases outcome with
      | held => cases h; exact .startHeld hstart
      | lost =>
        obtain ⟨p, hp, rfl⟩ := pipe_eq_some h
        cases hp
        exact .startLost hstart
      | error => cases h; exact .startError hstart
    next => cases h
  | startList => exact effect_of_startList h
  | submit record =>
    simp only [step, submit] at h
    split at h
    next hr =>
      cases hcheck : w.submitCheck record with
      | ok => simp only [hcheck] at h; cases h; exact .submit hr hcheck
      | error => simp only [hcheck] at h; cases h; exact .skip
    next => cases h
  | place =>
    simp only [step, place] at h
    split at h
    next => cases h
    next hd =>
      obtain ⟨p, hp, rfl⟩ := pipe_eq_some h
      exact .place hd hp
  | resolve =>
    simp only [step, resolve] at h
    split at h
    next => cases h
    next hsize =>
      split at h <;> cases h
      next hack => exact .resolve hsize hack
  | timer =>
    simp only [step, timer] at h
    split at h
    next => exact effect_of_pipe h trivial (by simp) (by simp) (by simp)
    next => cases h; exact .skip
  | flush | tryUpload | uploadStart | putLand | recv | verify | loadFenced | completeBulk =>
    exact effect_of_pipe h trivial (by simp) (by simp) (by simp)
  | close => cases h; exact .close
  | putReturn =>
    simp only [step, putReturn] at h
    split at h
    next => cases h
    next hb =>
      obtain ⟨p, hp, rfl⟩ := pipe_eq_some h
      exact .putReturn hb hp
  | trimStart => exact effect_of_trimStart h (.inl rfl)
  | reset =>
    simp only [step, reset] at h
    split at h
    next => cases h; exact .skip
    next => exact effect_of_trimStart h (.inr ⟨rfl, rfl⟩)
  | trimSubmit =>
    simp only [step, trimSubmit] at h
    split at h
    next hk =>
      cases hcheck : w.submitCheck trimRecord with
      | ok => simp only [hcheck] at h; cases h; exact .trimSubmit hk hcheck
      | error e => simp only [hcheck] at h; cases h; exact .trimFail hk ⟨rfl, e, hcheck⟩
    next => cases h
  | trimProceed =>
    simp only [step, trimProceed] at h
    split at h
    next hk =>
      split at h <;> cases h
      next hfind => exact .trimFail hk ⟨rfl, _, _, hfind, rfl⟩
      next hfind =>
        have hid := List.find?_some hfind
        exact .trimProceed hk (List.mem_of_find?_eq_some hfind) (of_decide_eq_true hid) rfl
    next => cases h
  | trimFinish =>
    simp only [step, trimFinish] at h
    split at h <;> cases h
    next hk => exact .trimFinish hk
  | trimJoin =>
    simp only [step, trimJoin] at h
    split at h
    next hk =>
      split at h <;> cases h
      next hle => exact .trimJoin hk hle
    next => cases h

/-! ## The pipeline of a writer -/

theorem Effect.pipeline (h : Effect w a w') :
    w'.toPipeline = w.toPipeline ∨ ∃ op, w.toPipeline.step op = some w'.toPipeline := by
  cases h with
  | startLost hstart | startNewer hstart => exact .inr ⟨.fence, rfl⟩
  | @started listed offset hstart hepoch hoffset hseq hlt =>
    exact .inr ⟨.begin offset, if_pos ⟨hseq, hlt⟩⟩
  | place hd hp => exact .inr ⟨_, hp⟩
  | pipe hop hp => exact .inr ⟨_, hp⟩
  | putReturn hb hp => exact .inr ⟨_, hp⟩
  | @trimStore a offset hopen ha hlt hhi => exact .inr ⟨.storeTrim offset, if_pos ⟨hlt, hhi⟩⟩
  | _ => exact .inl rfl

theorem pipelineInv_step (hi : w.toPipeline.Inv) (h : w.step a = some w') :
    w'.toPipeline.Inv := by
  rcases (effect_of_step h).pipeline with heq | ⟨op, hop⟩
  · rw [heq]
    exact hi
  · exact hi.step hop

/-- **Every reachable writer has a well-formed pipeline.** -/
theorem pipelineInv_run (h : run step (new c) as = some w) :
    w.toPipeline.Inv :=
  run_invariant (I := fun w => w.toPipeline.Inv)
    (fun hi hs => pipelineInv_step hi hs) (Pipeline.Inv.new c) h

theorem config_step (h : w.step a = some w') : w'.config = w.config := by
  have hpipe : ∀ {op p'}, w.toPipeline.step op = some p' → p'.config = w.config := by
    intro op p' hp
    cases Pipeline.effect_of_step hp with
    | place => exact (Pipeline.Fills.place w.toPipeline _).config
    | sealActive => exact (Pipeline.Fills.sealActive w.toPipeline).config
    | _ => rfl
  rcases (effect_of_step h).pipeline with heq | ⟨op, hop⟩
  · rw [heq]
  · exact hpipe hop

/-! ## Before the start -/

/-- The writer is as it was created, except that its lease may have been verified. -/
structure Untouched (w : Writer) : Prop where
  pipeline : w.toPipeline = Pipeline.new w.config
  closed : w.closed = true
  admitted : w.admitted = []
  trims : w.trims = []
  deletes : w.deletes = []
  previousObjects : w.previousObjects = []
  objects : w.lastRecordOffsetToObject = .empty

theorem Untouched.new (c : WalConfig) : Untouched (new c) :=
  ⟨rfl, rfl, rfl, rfl, rfl, rfl, rfl⟩

theorem step_new_of_pipeOnly (hop : PipeOnly op) (h : (Pipeline.new c).step op = some p) :
    p = Pipeline.new c := by
  cases op with
  | sealActive => cases h; rfl
  | tryUpload =>
    cases h
    simp [Pipeline.tryUploadWaiting, Pipeline.new]
  | recv =>
    simp only [Pipeline.step, Pipeline.recv] at h
    split at h
    next hc => simp [Pipeline.new] at hc
    next => cases h
  | begin | fence | storeTrim | place | putReturn => cases hop
  | uploadStart | putLand | verify | loadFenced | completeBulk => cases h

theorem Untouched.checkStatus (hu : Untouched w) : w.checkStatus = .error .notInitialized := by
  simp [Writer.checkStatus, hu.closed]

/-- `start` returns once. -/
theorem Effect.start_returned (h : Effect w a w') (hret : w.start = .returned) :
    w'.start = .returned := by
  cases h with
  | startHeld hs | startLost hs | startError hs | startNewer hs | started hs =>
    cases hret.symm.trans hs
  | _ => exact hret

/-- Nothing happens to a writer until `start` returns. -/
theorem Untouched.step (hu : w.start ≠ .returned → Untouched w) (h : Effect w a w') :
    w'.start ≠ .returned → Untouched w' := by
  intro hstart
  have hbefore : Untouched w := by
    apply hu
    intro hret
    exact hstart (h.start_returned hret)
  have hclosed := hbefore.checkStatus
  cases h with
  | skip => exact hbefore
  | startHeld => exact ⟨hbefore.pipeline, hbefore.closed, hbefore.admitted, hbefore.trims,
      hbefore.deletes, hbefore.previousObjects, hbefore.objects⟩
  | startLost | startError | startNewer | started => exact absurd rfl hstart
  | submit hr hcheck =>
    simp only [submitCheck, hclosed, bind, Except.bind] at hcheck
    cases hcheck
  | place hd => simp [hbefore.admitted] at hd
  | resolve => exact ⟨hbefore.pipeline, hbefore.closed, hbefore.admitted, hbefore.trims,
      hbefore.deletes, hbefore.previousObjects, hbefore.objects⟩
  | close => exact ⟨hbefore.pipeline, rfl, hbefore.admitted, hbefore.trims,
      hbefore.deletes, hbefore.previousObjects, hbefore.objects⟩
  | @pipe a op p hop hp =>
    rw [hbefore.pipeline] at hp
    obtain rfl := step_new_of_pipeOnly hop hp
    exact ⟨rfl, hbefore.closed, hbefore.admitted, hbefore.trims, hbefore.deletes,
      hbefore.previousObjects, hbefore.objects⟩
  | putReturn hb =>
    rw [hbefore.pipeline] at hb
    cases hb
  | trimWait hopen | trimStore hopen => cases hclosed.symm.trans hopen
  | trimSubmit hk | trimFail hk | trimProceed hk | trimFinish hk | trimJoin hk =>
    simp [hbefore.trims] at hk

theorem untouched_run (h : run step (new c) as = some w) :
    w.start ≠ .returned → Untouched w :=
  run_invariant
    (fun hu hs => Untouched.step hu (effect_of_step hs)) (fun _ => Untouched.new c) h

end Writer

end S3Stream
