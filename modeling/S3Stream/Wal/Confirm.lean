import S3Stream.Wal.WriterInv

/-! # In-order confirm

Bulks are flushed in sequence order, each after a successful PUT and a verified lease behind it.
After the first PUT that failed or the first lease check that did not hold, the callback loop
acknowledges nothing any more. -/

namespace S3Stream

open List TransitionSystem Pipeline Writer Windows

namespace Pipeline

variable {p p' : Pipeline}

/-! ## What the log shows -/

/-- A successful PUT of the bulk and, later, a lease check that held. -/
def Confirmed (p : Pipeline) (b : UploadingBulk) : Prop :=
  ∃ before between after,
    p.log = before ++ .put b.seq true :: (between ++ .verify .held :: after)

theorem Confirmed.mono (h : p.Confirmed b) (hlog : p'.log = p.log ++ es) : p'.Confirmed b := by
  obtain ⟨before, between, after, hb⟩ := h
  exact ⟨before, between, after ++ es, by simp [hlog, hb]⟩

structure Logged (p : Pipeline) : Prop where
  put : ∀ b ∈ p.sealed, ∀ ok, b.done = some ok → .put b.seq ok ∈ p.log
  verified : ∀ bs, p.callback = .verified bs → p.fenced = false → ∀ b ∈ bs, p.Confirmed b
  completing : ∀ bs, p.callback = .completing false bs → ∀ b ∈ bs, p.Confirmed b
  flushed : ∀ b ∈ p.flushed, p.Confirmed b

theorem Logged.congr (h : Logged p)
    (hs : ∀ b ∈ p'.sealed, b.done ≠ none → ∃ d ∈ p.sealed, d.seq = b.seq ∧ d.done = b.done)
    (hcb : p'.callback = p.callback) (hfl : p'.flushed = p.flushed) (hlog : p'.log = p.log)
    (hf : p.fenced = true → p'.fenced = true) : Logged p' := by
  have hconf : ∀ {b}, p.Confirmed b → p'.Confirmed b := fun hb =>
    hb.mono (hlog.trans (append_nil _).symm)
  constructor
  · intro b hb ok hd
    obtain ⟨d, hd', hseq, hdone⟩ := hs b hb (by simp [hd])
    rw [hlog, ← hseq]
    exact h.put d hd' ok (hdone.trans hd)
  · intro bs hbs hfenced b hb
    refine hconf (h.verified bs (hcb ▸ hbs) ?_ b hb)
    cases hp : p.fenced with
    | false => rfl
    | true => cases hfenced.symm.trans (hf hp)
  · exact fun bs hbs b hb => hconf (h.completing bs (hcb ▸ hbs) b hb)
  · exact fun b hb => hconf (h.flushed b (hfl ▸ hb))

theorem Logged.fills (h : Logged p) (hq : Fills p p') : Logged p' := by
  obtain ⟨new, hnew⟩ := hq.sealed_eq
  refine h.congr (fun b hb hd => ?_) hq.callback hq.flushed hq.log (fun hf => hq.fenced ▸ hf)
  rw [hnew] at hb
  rcases mem_append.mp hb with hb | hb
  · exact ⟨b, hb, rfl, rfl⟩
  · obtain ⟨d, -, rfl⟩ := mem_map.mp hb
    exact absurd rfl hd

theorem Logged.step (h : Logged p) (hi : Inv p) (hstep : Effect p op p') : Logged p' := by
  have hsealed := fun hop => sealed_congr hi.control hstep hop
  have hsame : p'.sealed = p.sealed →
      ∀ b ∈ p'.sealed, b.done ≠ none → ∃ d ∈ p.sealed, d.seq = b.seq ∧ d.done = b.done :=
    fun heq b hb _ => ⟨b, heq ▸ hb, rfl, rfl⟩
  cases hstep with
  | begin | storeTrim | putLand => exact h.congr (hsame rfl) rfl rfl rfl id
  | fence => exact h.congr (hsame rfl) rfl rfl rfl fun _ => rfl
  | place => exact h.fills (Fills.place p _)
  | sealActive => exact h.fills (Fills.sealActive p)
  | tryUpload => exact h.congr (hsame (hsealed trivial)) rfl rfl rfl id
  | @uploadStart b₀ seq f₀ hb₀ hseq =>
    have hmem := @mem_sealed_update p seq (·.issue p.config p.trimOffset) hi.layout b₀ hb₀ hseq
    refine h.congr (fun b hb hd => ?_) rfl rfl rfl id
    rcases hmem.mp hb with rfl | ⟨hb, -⟩
    · exact ⟨b₀, mem_sealed_of_mem_uploading hb₀, rfl, rfl⟩
    · exact ⟨b, hb, rfl, rfl⟩
  | @putReturn seq b₀ ok hfind hb₀ hseq =>
    have hmem := @mem_sealed_update p seq ({ · with done := some ok }) hi.layout b₀ hb₀ hseq
    have hconf : ∀ {b}, p.Confirmed b → Confirmed { p with
        uploading := updateBulk p.uploading seq ({ · with done := some ok })
        callbackQueue := p.callbackQueue + 1
        fenced := p.fenced || !ok
        log := p.log ++ [.put seq ok] } b := fun hb => hb.mono rfl
    constructor
    · intro b hb ok' hd
      rcases hmem.mp hb with rfl | ⟨hb, -⟩
      · cases hd
        simp [hseq]
      · exact mem_append_left _ (h.put b hb ok' hd)
    · intro bs hbs hfenced b hb
      exact hconf (h.verified bs hbs (Bool.or_eq_false_iff.mp hfenced).1 b hb)
    · exact fun bs hbs b hb => hconf (h.completing bs hbs b hb)
    · exact fun b hb => hconf (h.flushed b hb)
  | @recv cb hidle hcb =>
    have hseal := hsealed trivial
    refine ⟨fun b hb => h.put b (hseal ▸ hb), fun bs hbs => ?_, fun bs hbs => ?_,
      h.flushed⟩ <;> rcases hcb with ⟨rfl, -⟩ | rfl <;> cases hbs
  | @verify bs outcome hcb =>
    have hseal := hsealed trivial
    have hbulks : p.callback.bulks = bs := by rw [hcb]; rfl
    constructor
    · exact fun b hb ok hd => mem_append_left _ (h.put b (hseal ▸ hb) ok hd)
    · -- The PUTs of the popped bulks are in the log, in front of this check.
      intro bs' hbs hfenced b hb
      obtain rfl : bs = bs' := by simpa using hbs
      obtain ⟨hclear, hheld⟩ : p.fenced = false ∧ outcome = .held := by
        simpa using Bool.or_eq_false_iff.mp hfenced
      have hmem : b ∈ p.sealed := by simp [sealed, hbulks, hb]
      have hsome := hi.flush.callback_done b (hbulks ▸ hb)
      obtain ⟨ok, hd⟩ := Option.isSome_iff_exists.mp hsome
      cases ok with
      | false => cases hclear.symm.trans (hi.flush.failed_put b hmem hd)
      | true =>
        obtain ⟨before, after, hlog⟩ := append_of_mem (h.put b hmem true hd)
        exact ⟨before, after, [], by simp [hlog, hheld]⟩
    · simp
    · exact fun b hb => (h.flushed b hb).mono rfl
  | @loadFenced bs hcb =>
    have hseal := hsealed trivial
    refine ⟨fun b hb => h.put b (hseal ▸ hb), by simp, ?_, h.flushed⟩
    intro bs' hbs b hb
    obtain ⟨hclear, rfl⟩ : p.fenced = false ∧ bs = bs' := by simpa using hbs
    exact h.verified bs hcb hclear b hb
  | finish | fail =>
    have hseal := hsealed trivial
    exact ⟨fun b hb => h.put b (hseal ▸ hb), by simp, by simp, h.flushed⟩
  | @flush b₀ bs hcb =>
    have hseal := hsealed trivial
    have hdone := h.completing _ hcb
    refine ⟨fun b hb => h.put b (hseal ▸ hb), by simp, fun bs' hbs b hb => ?_,
      forall_mem_append.mpr ⟨h.flushed, forall_mem_singleton.mpr (hdone b₀ mem_cons_self)⟩⟩
    obtain rfl : bs = bs' := by simpa using hbs
    exact hdone b (mem_cons_of_mem b₀ hb)

theorem Logged.new (c : WalConfig) : Logged (new c) :=
  ⟨nofun, nofun, nofun,
    nofun⟩

/-! ## Flushed bulks -/

theorem mem_bulkAcks {fenced : Bool} (h : a ∈ bulkAcks c fenced rs) :
    ∃ r ∈ rs, a.id = r.ack ∧ a.record = r.record ∧
      ∃ last, a.result =
        if fenced then .error (.fenced c.nodeId c.epoch) else .ok (ackResult c r last) := by
  induction rs with
  | nil => cases h
  | cons r rs ih =>
    rcases mem_cons.mp h with rfl | h
    · exact ⟨r, mem_cons_self, rfl, rfl, rs.isEmpty, rfl⟩
    · obtain ⟨s, hs, hid⟩ := ih h
      exact ⟨s, mem_cons_of_mem r hs, hid⟩

theorem Flush.exists_of_ok (h : Flush p) (ha : a ∈ p.acks) (hok : a.result = .ok res) :
    ∃ b ∈ p.flushed, a ∈ bulkAcks p.config false b.records := by
  rw [h.acks] at ha
  rcases mem_append.mp ha with ha | ha
  · exact mem_flatMap.mp ha
  · obtain ⟨b, -, hb⟩ := mem_flatMap.mp ha
    obtain ⟨r, -, -, -, last, hres⟩ := mem_bulkAcks hb
    cases hok.symm.trans hres

theorem Flush.mem_acks (h : Flush p) (hb : b ∈ p.flushed)
    (ha : a ∈ bulkAcks p.config false b.records) : a ∈ p.acks := by
  rw [h.acks]
  exact mem_append_left _ (mem_flatMap.mpr ⟨b, hb, ha⟩)

theorem mem_sealed_of_mem_flushed (h : b ∈ p.flushed) : b ∈ p.sealed :=
  mem_append_left _ h

theorem Inv.exists_put_of_flushed (h : Inv p) (hb : b ∈ p.flushed) : ∃ f, b.put = some f := by
  have hdone := h.flush.flushed_done b hb
  cases hput : b.put with
  | some f => exact ⟨f, rfl⟩
  | none =>
    have hnone := (h.layout.ok b (mem_sealed_of_mem_flushed hb)).unissued hput
    cases hnone.symm.trans hdone

theorem Inv.flushedOffset_lt_of_not_mem (h : Inv p) (hb : b ∈ p.sealed) (hnot : b ∉ p.flushed) :
    p.flushedOffset < b.endOffsetAligned := by
  obtain ⟨mid, hfl, hrest⟩ := Tiles.append.mp h.layout.tiles
  obtain rfl := Tiles.right_unique hfl h.flush.tiles
  have hmem := (mem_append.mp hb).resolve_left hnot
  have hlo := (Tiles.bounds hrest hmem).1
  have hlt := Tiles.lo_lt_hi hrest hmem
  omega

theorem Inv.mem_flushed_of_seq_le (h : Inv p) (hb : b ∈ p.flushed) (hd : d ∈ p.sealed)
    (hle : d.seq ≤ b.seq) : d ∈ p.flushed := by
  rcases mem_append.mp hd with hd | hd
  · exact hd
  · have hlt := (pairwise_append.mp h.layout.seqs).2.2 b hb d hd
    omega

theorem Inv.endOffset_le_of_mem_flushed (h : Inv p) (hb : b ∈ p.flushed) :
    b.endOffsetAligned ≤ p.flushedOffset :=
  (Tiles.bounds h.flush.tiles hb).2

/-- `flushed_offset` only moves forward, except that `start` sets it. -/
theorem Inv.flushedOffset_le_step (h : Inv p) (hstep : p.step op = some p')
    (hbegin : ∀ offset, op = .begin offset → p.flushedOffset = 0) :
    p.flushedOffset ≤ p'.flushedOffset := by
  have hi' := h.step hstep
  cases effect_of_step hstep with
  | begin =>
    rw [hbegin _ rfl]
    exact Nat.zero_le _
  | place => exact (Fills.place p _).flushedOffset.ge
  | sealActive => exact (Fills.sealActive p).flushedOffset.ge
  | flush =>
    obtain ⟨mid, hfl, hb⟩ := Tiles.append.mp hi'.flush.tiles
    obtain rfl := Tiles.right_unique hfl h.flush.tiles
    exact Tiles.le hb
  | _ => exact le_refl _

/-! ## Behind a failure -/

/-- The bulks of a callback step that has read the fenced flag as clear. -/
def clear (p : Pipeline) : List UploadingBulk :=
  match p.callback with
  | .completing false bs => bs
  | _ => []

/-- A fenced writer flushes at most the bulks for which the flag was read before. -/
theorem fenced_step (hstep : p.step op = some p') (hf : p.fenced = true) :
    p'.fenced = true ∧ p'.flushed ++ p'.clear = p.flushed ++ p.clear := by
  cases effect_of_step hstep with
  | place =>
    have hq := Fills.place p ‹_›
    exact ⟨hq.fenced.trans hf, by simp [clear, hq.flushed, hq.callback]⟩
  | sealActive =>
    have hq := Fills.sealActive p
    exact ⟨hq.fenced.trans hf, by simp [clear, hq.flushed, hq.callback]⟩
  | putReturn => exact ⟨by simp [hf], rfl⟩
  | recv hidle hcb =>
    refine ⟨hf, ?_⟩
    rcases hcb with ⟨rfl, -⟩ | rfl <;> simp [clear, hidle]
  | verify hcb => exact ⟨by simp [hf], by simp [clear, hcb]⟩
  | loadFenced hcb => exact ⟨hf, by simp [clear, hcb, hf]⟩
  | @finish fenced hcb => exact ⟨hf, by cases fenced <;> simp [clear, hcb]⟩
  | fail hcb => exact ⟨hf, by simp [clear, hcb]⟩
  | flush hcb => exact ⟨hf, by simp [clear, hcb]⟩
  | fence => exact ⟨rfl, rfl⟩
  | _ => exact ⟨hf, rfl⟩

end Pipeline

/-- The answers of the environment that an action carries to the pipeline. -/
def WalAct.events : WalAct → List WalEvent
  | .putReturn seq ok => [.put seq ok]
  | .verify outcome => [.verify outcome]
  | _ => []

/-- A failed PUT, or a lease check that did not return true. -/
def WalAct.Breaks : WalAct → Prop
  | .putReturn _ ok => ok = false
  | .verify outcome | .startVerify outcome => outcome ≠ .held
  | _ => False

instance : DecidablePred WalAct.Breaks := fun a => by
  cases a <;> unfold WalAct.Breaks <;> infer_instance

namespace Writer

variable {w w' : Writer} {a : WalAct} {c : WalConfig} {as : List WalAct}

theorem logged_run (h : run step (new c) as = some w) :
    w.toPipeline.Logged := by
  refine (run_invariant
    (I := fun w => w.toPipeline.Inv ∧ w.toPipeline.Logged) ?_
    ⟨Pipeline.Inv.new c, Pipeline.Logged.new c⟩ h).2
  rintro w a w' ⟨hi, hl⟩ hs
  refine ⟨pipelineInv_step hi hs, ?_⟩
  rcases (effect_of_step hs).pipeline with heq | ⟨op, hop⟩
  · rw [heq]
    exact hl
  · exact hl.step hi (Pipeline.effect_of_step hop)

theorem log_step (h : w.step a = some w') : w'.log = w.log ++ a.events := by
  have hquiet : a.events = [] → w'.log = w.log := by
    intro ha
    cases effect_of_step h with
    | place hd hp =>
      cases Pipeline.effect_of_step hp
      exact (Pipeline.Fills.place w.toPipeline _).log
    | pipe hop hp hland hstart hverify =>
      cases Pipeline.effect_of_step hp with
      | begin | fence | storeTrim | place | putReturn => cases hop
      | sealActive => exact (Pipeline.Fills.sealActive w.toPipeline).log
      | verify =>
        rw [hverify _ rfl] at ha
        cases ha
      | _ => rfl
    | putReturn => cases ha
    | _ => rfl
  cases a with
  | verify =>
    obtain ⟨p, hp, rfl⟩ := pipe_eq_some h
    cases Pipeline.effect_of_step hp
    rfl
  | putReturn =>
    simp only [step, putReturn] at h
    split at h
    next => cases h
    next =>
      obtain ⟨p, hp, rfl⟩ := pipe_eq_some h
      cases Pipeline.effect_of_step hp
      rfl
  | _ => exact (hquiet rfl).trans (append_nil _).symm

theorem log_run (h : run step w as = some w') :
    w'.log = w.log ++ as.flatMap WalAct.events := by
  induction as generalizing w with
  | nil => cases h; simp
  | cons a as ih =>
    obtain ⟨m, ha, has⟩ := run_cons.mp h
    rw [ih has, log_step ha, flatMap_cons, append_assoc]

theorem flushedOffset_le_step (hi : w.toPipeline.Inv) (hu : w.start ≠ .returned → Untouched w)
    (h : w.step a = some w') : w.flushedOffset ≤ w'.flushedOffset := by
  have hop : ∀ {op}, w.toPipeline.step op = some w'.toPipeline →
      (∀ offset, op ≠ .begin offset) → w.flushedOffset ≤ w'.flushedOffset := fun hp hne =>
    hi.flushedOffset_le_step hp fun offset ho => absurd ho (hne offset)
  cases effect_of_step h with
  | started hstart =>
    have hzero : w.flushedOffset = 0 := by
      rw [(hu (by simp [hstart])).pipeline]
      rfl
    rw [hzero]
    exact Nat.zero_le _
  | place hd hp => exact hop hp (by simp)
  | putReturn hb hp => exact hop hp (by simp)
  | pipe hp hstep =>
    refine hop hstep fun offset ho => ?_
    subst ho
    cases hp
  | _ => exact le_refl _

/-- Nothing was submitted since the start. -/
structure Quiet (w : Writer) : Prop where
  admitted : w.admitted = []
  trims : w.trims = []
  sealed : w.sealed = []
  active : w.active = none

theorem Untouched.quiet (h : Untouched w) : w.Quiet where
  admitted := h.admitted
  trims := h.trims
  sealed := by
    rw [h.pipeline]
    rfl
  active := by
    rw [h.pipeline]
    rfl

/-- A writer whose `start` failed: it has taken no record and never will. -/
structure Idle (w : Writer) : Prop where
  start : w.start = .returned
  closed : w.closed = true
  admitted : w.admitted = []
  trims : w.trims = []
  sealed : w.sealed = []
  active : w.active = none

theorem Idle.acks (h : Idle w) (hi : w.toPipeline.Inv) : w.acks = [] := by
  have hnil := h.sealed
  simp only [Pipeline.sealed, append_eq_nil_iff] at hnil
  rw [hi.flush.acks, hnil.1, hnil.2.1]
  rfl

/-- The upload machinery does nothing without a bulk. -/
theorem empty_of_pipeOnly (hi : w.toPipeline.Inv) (hsealed : w.sealed = [])
    (hactive : w.active = none) (hop : PipeOnly op) (hp : w.toPipeline.step op = some p) :
    p.sealed = [] ∧ p.active = none := by
  have hsame := fun hkeep => Pipeline.sealed_congr hi.control (Pipeline.effect_of_step hp) hkeep
  have hempty : p.sealed = w.sealed → p.active = w.active → p.sealed = [] ∧ p.active = none :=
    fun hs ha => ⟨hs.trans hsealed, ha.trans hactive⟩
  cases Pipeline.effect_of_step hp with
  | begin | fence | storeTrim | place | putReturn => cases hop
  | sealActive =>
    have heq : w.toPipeline.sealActive = w.toPipeline := by simp [Pipeline.sealActive, hactive]
    rw [heq]
    exact ⟨hsealed, hactive⟩
  | uploadStart hb =>
    have hmem := Pipeline.mem_sealed_of_mem_uploading hb
    simp [hsealed] at hmem
  | putLand => exact ⟨hsealed, hactive⟩
  | _ => exact hempty (hsame trivial) rfl

theorem inFlight?_of_empty (hsealed : w.sealed = []) (hb : w.inFlight? seq = some b) : False := by
  have hmem := mem_sealed_of_mem_uploading (mem_of_find?_eq_some hb)
  simp [hsealed] at hmem

theorem Idle.step (h : Idle w) (hi : w.toPipeline.Inv) (hstep : w.step a = some w') :
    Idle w' := by
  have hclosed : w.checkStatus = .error .notInitialized := by simp [checkStatus, h.closed]
  cases effect_of_step hstep with
  | skip => exact h
  | startHeld hs | startLost hs | startError hs | startNewer hs | started hs =>
    cases h.start.symm.trans hs
  | submit hr hcheck =>
    simp only [submitCheck, hclosed, bind, Except.bind] at hcheck
    cases hcheck
  | place hd => simp [h.admitted] at hd
  | resolve => exact ⟨h.start, h.closed, h.admitted, h.trims, h.sealed, h.active⟩
  | close => exact ⟨h.start, rfl, h.admitted, h.trims, h.sealed, h.active⟩
  | pipe hop hp =>
    obtain ⟨hs, ha⟩ := empty_of_pipeOnly hi h.sealed h.active hop hp
    exact ⟨h.start, h.closed, h.admitted, h.trims, hs, ha⟩
  | putReturn hb => exact (inFlight?_of_empty h.sealed hb).elim
  | trimWait hopen | trimStore hopen => cases hclosed.symm.trans hopen
  | trimSubmit hk | trimFail hk | trimProceed hk | trimFinish hk | trimJoin hk =>
    simp [h.trims] at hk

/-- The writer is fenced, or it never started. -/
def Stopped (w : Writer) : Prop := w.fenced = true ∨ Idle w

theorem fenced_step (hf : w.fenced = true) (h : w.step a = some w') :
    w'.fenced = true ∧ w'.flushed ++ w'.clear = w.flushed ++ w.clear := by
  rcases (effect_of_step h).pipeline with heq | ⟨op, hop⟩
  · rw [heq]
    exact ⟨hf, rfl⟩
  · exact Pipeline.fenced_step hop hf

theorem Stopped.step (hs : Stopped w) (hi : w.toPipeline.Inv) (h : w.step a = some w') :
    Stopped w' := by
  cases hs with
  | inl hf => exact .inl (fenced_step hf h).1
  | inr hidle => exact .inr (hidle.step hi h)

theorem stopped_of_breaks_step (hu : w.start ≠ .returned → Untouched w)
    (h : w.step a = some w') (hbad : a.Breaks) : Stopped w' := by
  cases a with
  | putReturn seq ok =>
    obtain rfl : ok = false := hbad
    simp only [step, putReturn] at h
    split at h
    next => cases h
    next =>
      obtain ⟨p, hp, rfl⟩ := pipe_eq_some h
      cases Pipeline.effect_of_step hp
      exact .inl (Bool.or_true _)
  | verify =>
    obtain ⟨p, hp, rfl⟩ := pipe_eq_some h
    cases Pipeline.effect_of_step hp
    refine .inl (Bool.or_eq_true_iff.mpr (.inr ?_))
    exact decide_eq_true hbad
  | startVerify outcome =>
    simp only [step, startVerify] at h
    split at h
    next hstart =>
      have hnew := hu (by simp [hstart])
      cases outcome with
      | held => exact absurd rfl hbad
      | lost =>
        obtain ⟨p, hp, rfl⟩ := pipe_eq_some h
        cases hp
        exact .inl rfl
      | error =>
        cases h
        refine .inr ⟨rfl, hnew.closed, hnew.admitted, hnew.trims, ?_, ?_⟩
        · exact (congrArg Pipeline.sealed hnew.pipeline).trans rfl
        · exact (congrArg Pipeline.active hnew.pipeline).trans rfl
    next => cases h
  | _ => exact hbad.elim

theorem stopped_run (h : run step (new c) as = some w)
    (hbad : ∃ a ∈ as, a.Breaks) : Stopped w := by
  obtain ⟨a, hmem, ha⟩ := hbad
  obtain ⟨before, after, rfl⟩ := append_of_mem hmem
  obtain ⟨m, hm, hrest⟩ := run_append.mp h
  obtain ⟨m', hstep, hafter⟩ := run_cons.mp hrest
  have hi := pipelineInv_step (pipelineInv_run hm) hstep
  have hstop := stopped_of_breaks_step (untouched_run hm) hstep ha
  exact (run_invariant (I := fun w => w.toPipeline.Inv ∧ Stopped w)
    (fun hw hs => ⟨pipelineInv_step hw.1 hs, hw.2.step hw.1 hs⟩) ⟨hi, hstop⟩ hafter).2

theorem fenced_run (hf : w.fenced = true) (h : run step w as = some w') :
    w'.flushed ++ w'.clear = w.flushed ++ w.clear := by
  refine (run_invariant (I := fun v => v.fenced = true ∧
    v.flushed ++ v.clear = w.flushed ++ w.clear) ?_ ⟨hf, rfl⟩ h).2
  intro v a v' hv hs
  obtain ⟨hf', hsame⟩ := fenced_step hv.1 hs
  exact ⟨hf', hsame.trans hv.2⟩

theorem config_run (h : run step w as = some w') :
    w'.config = w.config :=
  run_invariant (I := fun v => v.config = w.config)
    (fun hv hs => (config_step hs).trans hv) rfl h

theorem flushedOffset_le_run (h : run step (new c) as = some w)
    (h' : run step w bs = some w') :
    w.flushedOffset ≤ w'.flushedOffset := by
  have hrun := run_invariant (I := fun v => v.toPipeline.Inv ∧
      (v.start ≠ .returned → Untouched v) ∧ w.flushedOffset ≤ v.flushedOffset) ?_
    ⟨pipelineInv_run h, untouched_run h, le_refl _⟩ h'
  · exact hrun.2.2
  · rintro v a v' ⟨hi, hu, hle⟩ hs
    exact ⟨pipelineInv_step hi hs, Untouched.step hu (effect_of_step hs),
      hle.trans (flushedOffset_le_step hi hu hs)⟩

/-- Acknowledgements behind a failure: an Ok one was sent before, or its bulk belongs to the
callback step that had read the fenced flag before the failure. -/
theorem ok_ack_of_stopped (hi : w.toPipeline.Inv) (hs : Stopped w)
    (h : run step w bs = some w') {a : Ack} (ha : a ∈ w'.acks)
    (hok : a.result = .ok res) : a ∈ w.acks ∨ ∃ b ∈ w.clear, ∃ r ∈ b.records, r.ack = a.id := by
  have hrun := run_invariant
    (I := fun v => v.toPipeline.Inv ∧ (Idle w → Idle v))
    (fun hv hs => ⟨pipelineInv_step hv.1 hs, fun hw => (hv.2 hw).step hv.1 hs⟩) ⟨hi, id⟩ h
  cases hs with
  | inr hidle =>
    rw [(hrun.2 hidle).acks hrun.1] at ha
    cases ha
  | inl hf =>
    obtain ⟨b, hb, hab⟩ := hrun.1.flush.exists_of_ok ha hok
    have hmem : b ∈ w.flushed ++ w.clear := by
      rw [← fenced_run hf h]
      exact mem_append_left _ hb
    rw [config_run h] at hab
    rcases mem_append.mp hmem with hmem | hmem
    · exact .inl (hi.flush.mem_acks hmem hab)
    · obtain ⟨r, hr, hid, -⟩ := mem_bulkAcks hab
      exact .inr ⟨b, hmem, r, hr, hid.symm⟩

/-- **In-order confirm.** In every state that a schedule reaches: a bulk at or below
`flushed_offset` had a successful PUT and behind it a lease check that returned true; an Ok
acknowledgement is for a record of a bulk that is, with every earlier bulk, at or below
`flushed_offset`; `flushed_offset` never decreases; and behind a failed PUT or a lease check that
did not return true, a callback step that reads the fenced flag sends no Ok acknowledgement. -/
theorem confirm_in_order (h : run Writer.step (Writer.new c) as = some w) :
    (∀ b ∈ w.sealed, b.endOffsetAligned ≤ w.flushedOffset → ∃ before between after,
      as.flatMap WalAct.events =
        before ++ .put b.seq true :: (between ++ .verify .held :: after)) ∧
    (∀ a ∈ w.acks, ∀ res, a.result = .ok res →
      ∃ b ∈ w.sealed, (∃ r ∈ b.records, r.ack = a.id ∧ r.record = a.record) ∧
        ∀ d ∈ w.sealed, d.seq ≤ b.seq → d.endOffsetAligned ≤ w.flushedOffset) ∧
    (∀ bs w', run Writer.step w bs = some w' →
      w.flushedOffset ≤ w'.flushedOffset) ∧
    ((∃ a ∈ as, a.Breaks) → ∀ bs w', run Writer.step w bs = some w' →
      ∀ a ∈ w'.acks, ∀ res, a.result = .ok res →
        a ∈ w.acks ∨ ∃ b ∈ w.clear, ∃ r ∈ b.records, r.ack = a.id) := by
  have hi := pipelineInv_run h
  refine ⟨fun b hb hle => ?_, fun a ha res hok => ?_, fun bs w' h' => flushedOffset_le_run h h',
    fun hbad bs w' h' a ha res hok => ok_ack_of_stopped hi (stopped_run h hbad) h' ha hok⟩
  · have hflushed : b ∈ w.flushed := by
      by_contra hnot
      have hlt := hi.flushedOffset_lt_of_not_mem hb hnot
      omega
    have hlog : w.log = as.flatMap WalAct.events := log_run h
    rw [← hlog]
    exact (logged_run h).flushed b hflushed
  · obtain ⟨b, hb, hab⟩ := hi.flush.exists_of_ok ha hok
    obtain ⟨r, hr, hid, hrecord, -⟩ := mem_bulkAcks hab
    refine ⟨b, mem_sealed_of_mem_flushed hb, ⟨r, hr, hid.symm, hrecord.symm⟩, ?_⟩
    intro d hd hle
    exact hi.endOffset_le_of_mem_flushed (hi.mem_flushed_of_seq_le hb hd hle)

/-- A schedule with an acknowledged record behind which a PUT fails. -/
def failedPutSchedule : List WalAct :=
  [.startVerify .held, .startList [], .submit ⟨5, 0, 0, 1, [1, 2, 3]⟩, .place 0, .flush,
    .tryUpload, .uploadStart 1, .putLand 1, .putReturn 1 true, .recv, .verify .held, .loadFenced,
    .completeBulk, .completeBulk, .submit ⟨5, 0, 1, 1, [4]⟩, .place 0, .flush, .tryUpload,
    .uploadStart 2, .putReturn 2 false]

theorem confirm_in_order_failedPut :
    ∃ w, run Writer.step (Writer.new .defaults) failedPutSchedule = some w ∧
      w.flushedOffset = dataFileAlignSize ∧ w.acks.length = 1 ∧
      ∀ bs w', run Writer.step w bs = some w' → ∀ a ∈ w'.acks, ∀ res,
        a.result = .ok res → a ∈ w.acks := by
  obtain ⟨w, hw, hflushed, hacks, hclear⟩ : ∃ w,
      run step (new .defaults) failedPutSchedule = some w ∧
        w.flushedOffset = dataFileAlignSize ∧ w.acks.length = 1 ∧ w.clear = [] := by
    decide +kernel
  refine ⟨w, hw, hflushed, hacks, fun bs w' h' a ha res hok => ?_⟩
  have hbad : ∃ a ∈ failedPutSchedule, a.Breaks := ⟨.putReturn 2 false, by decide, rfl⟩
  rcases (confirm_in_order hw).2.2.2 hbad bs w' h' a ha res hok with hold | ⟨b, hb, -⟩
  · exact hold
  · rw [hclear] at hb
    cases hb

end Writer

end S3Stream
