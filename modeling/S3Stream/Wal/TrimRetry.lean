import S3Stream.Wal.WriterTrim

/-! # Trims that can be repeated

`trim0` stores its offset before it appends the trim record, and it raises the completed watermark
only behind that append. A later call at or below the stored offset waits for the watermark. As
long as no append of the newest trim fails, whoever waits has a running trim to wait for. -/

namespace S3Stream

open TransitionSystem

/-- The call is on its way to the completed watermark. -/
def TrimPhase.Running : TrimPhase → Prop
  | .stored | .admitted | .placed _ | .deleting _ => True
  | .waiting | .done _ | .joined | .failed => False

instance : DecidablePred TrimPhase.Running := fun phase => by
  cases phase <;> unfold TrimPhase.Running <;> infer_instance

namespace Writer

variable {w w' : Writer} {a : WalAct} {c : WalConfig} {as : List WalAct}

/-- The newest trim runs, or it is complete. -/
def Retryable (w : Writer) : Prop :=
  w.completedTrim < w.trimOffset →
    ∃ (k : Nat) (t : TrimTask), w.trims[k]? = some t ∧ t.offset = w.trimOffset ∧ t.phase.Running

/-- The action ends the newest trim with an error: its record is refused by `submit`, or the ack of
the record is an error. -/
def failsNewest (w : Writer) : WalAct → Bool
  | .trimSubmit k =>
    match w.trims[k]? with
    | some ⟨offset, .stored⟩ => offset = w.trimOffset && !(w.submitCheck trimRecord).isOk
    | _ => false
  | .trimProceed k =>
    match w.trims[k]? with
    | some ⟨offset, .placed id⟩ =>
      offset = w.trimOffset && (w.acks.find? (·.id = id)).any (!·.result.isOk)
    | _ => false
  | _ => false

theorem offset_ne_of_not_failsNewest (hk : w.trims[k]? = some t)
    (hfail : w.AppendFails a k t.phase) (hnot : w.failsNewest a = false) :
    t.offset ≠ w.trimOffset := by
  obtain ⟨offset, phase⟩ := t
  intro heq
  cases phase with
  | stored =>
    obtain ⟨rfl, e, he⟩ := hfail
    simp [failsNewest, hk, he, Except.isOk, Except.toBool] at hnot
    exact hnot heq
  | placed =>
    obtain ⟨rfl, x, e, hx, he⟩ := hfail
    simp [failsNewest, hk, hx, he, Except.isOk, Except.toBool] at hnot
    exact hnot heq
  | _ => exact hfail.elim

/-- A trim keeps its place and offset; its phase changes only where it is moved. -/
theorem Retryable.of_setPhase (h : Retryable w) (htrims : w'.trims = setPhase w.trims k phase)
    (htrim : w'.trimOffset = w.trimOffset) (hdone : w.completedTrim ≤ w'.completedTrim)
    (hphase : ∀ t, w.trims[k]? = some t → t.phase.Running → t.offset = w.trimOffset →
      w'.completedTrim < w.trimOffset → phase.Running) : Retryable w' := by
  intro hlt
  rw [htrim] at hlt
  obtain ⟨n, t, hn, hoffset, hrun⟩ := h (hdone.trans_lt hlt)
  rw [htrims, htrim, setPhase]
  by_cases hk : k = n
  · subst hk
    exact ⟨k, { t with phase }, by simp [hn], hoffset, hphase t hn hrun hoffset hlt⟩
  · exact ⟨n, t, by simp [hk, hn], hoffset, hrun⟩

theorem Retryable.congr (h : Retryable w) (htrims : w'.trims = w.trims)
    (htrim : w'.trimOffset = w.trimOffset) (hdone : w'.completedTrim = w.completedTrim) :
    Retryable w' := by
  unfold Retryable
  rw [htrims, htrim, hdone]
  exact h

theorem Retryable.step (h : Retryable w) (hnot : w.failsNewest a = false)
    (hs : Effect w a w') : Retryable w' := by
  cases hs with
  | skip => exact h
  | startHeld | startLost | startError | startNewer | started | submit | resolve | close =>
    exact h.congr rfl rfl rfl
  | pipe hop hp => exact h.congr rfl (trimOffset_eq_of_pipeOnly hop hp) rfl
  | putReturn hb hp =>
    cases Pipeline.effect_of_step hp
    exact h.congr rfl rfl rfl
  | @place n d p hd hp =>
    cases Pipeline.effect_of_step hp with
    | place =>
      have htrim := (Pipeline.Fills.place w.toPipeline d.record).trimOffset
      cases hk : d.trim with
      | none => exact h.congr rfl htrim rfl
      | some => exact h.of_setPhase rfl htrim le_rfl fun _ _ _ _ _ => trivial
  | trimWait =>
    intro hlt
    obtain ⟨n, t, hn, hrest⟩ := h hlt
    refine ⟨n, t, ?_, hrest⟩
    grind
  | @trimStore a offset =>
    intro _
    refine ⟨w.trims.length, ⟨offset, .stored⟩, ?_, rfl, trivial⟩
    exact List.getElem?_concat_length
  | trimSubmit | trimProceed => exact h.of_setPhase rfl rfl le_rfl fun _ _ _ _ _ => trivial
  | trimFail hk hfail =>
    refine h.of_setPhase rfl rfl le_rfl fun t ht _ heq _ => ?_
    cases hk.symm.trans ht
    exact absurd heq (offset_ne_of_not_failsNewest hk hfail hnot)
  | @trimFinish k offset id hk =>
    -- The newest trim finishes by raising the watermark to its own offset.
    refine h.of_setPhase rfl rfl (le_max_left ..) fun t ht _ heq hlt => ?_
    cases hk.symm.trans ht
    exact absurd heq (max_lt_iff.mp hlt).2.ne
  | @trimJoin k offset hk =>
    refine h.of_setPhase rfl rfl le_rfl fun t ht hrun _ _ => ?_
    cases hk.symm.trans ht
    exact hrun.elim

theorem Retryable.new (c : WalConfig) : Retryable (Writer.new c) := fun hlt => by
  exact absurd hlt (lt_irrefl _)

/-- **A trim can be repeated**, in every run in which the append of the newest trim never fails:
while the stored offset is above the completed watermark a trim at the stored offset runs, and
whoever calls at or below it either is covered by the watermark or has that trim to wait for. -/
theorem trim_retry (hfree : Guarded Writer.step
      (fun w a => w.failsNewest a = false) (Writer.new c) as)
    (h : run Writer.step (Writer.new c) as = some w) :
    (w.completedTrim < w.trimOffset →
        ∃ t ∈ w.trims, t.phase.Running ∧ t.offset = w.trimOffset) ∧
      ∀ offset ≤ w.trimOffset, offset ≤ w.completedTrim ∨
        ∃ t ∈ w.trims, t.phase.Running ∧ offset ≤ t.offset := by
  have hinv : Retryable w := run_invariant_of_guarded
    (fun hr hG hs => hr.step hG (effect_of_step hs)) (Retryable.new c) hfree h
  have hrunning : w.completedTrim < w.trimOffset →
      ∃ t ∈ w.trims, t.phase.Running ∧ t.offset = w.trimOffset := by
    intro hlt
    obtain ⟨n, t, hn, hoffset, hrun⟩ := hinv hlt
    exact ⟨t, List.mem_of_getElem? hn, hrun, hoffset⟩
  refine ⟨hrunning, fun offset hle => ?_⟩
  by_cases hdone : offset ≤ w.completedTrim
  · exact .inl hdone
  · obtain ⟨t, ht, hrun, hoffset⟩ := hrunning (by omega)
    exact .inr ⟨t, ht, hrun, hoffset ▸ hle⟩

/-- A record is acknowledged, and the next one makes the writer too full for the trim record; the
trim of the first record fails. Then everything is acknowledged and the trim is called again. -/
def refusedTrimSchedule : List WalAct :=
  [.startVerify .held, .startList [], .submit ⟨5, 0, 0, 1, [1]⟩, .place 0, .flush, .tryUpload,
    .uploadStart 1, .putLand 1, .putReturn 1 true, .recv, .verify .held, .loadFenced,
    .completeBulk, .completeBulk, .resolve (1, 0), .submit ⟨5, 0, 1, 1, [2]⟩, .place 0,
    .trimStart 0, .trimSubmit 0, .flush, .tryUpload, .uploadStart 2, .putLand 2, .putReturn 2 true,
    .recv, .verify .held, .loadFenced, .completeBulk, .completeBulk, .resolve (2, 0), .trimStart 0]

/-- The second call waits although nothing is buffered and no trim runs. -/
theorem trim_waits_for_nobody :
    ∃ w, run Writer.step
        (Writer.new { WalConfig.defaults with maxUnflushedBytes := 0 }) refusedTrimSchedule =
          some w ∧
      w.bufferedDataBytes = 0 ∧ w.fenced = false ∧ w.closed = false ∧
      w.trims = [⟨0, .failed⟩, ⟨0, .waiting⟩] ∧ w.completedTrim < w.trimOffset ∧
      ¬ ∃ t ∈ w.trims, t.phase.Running := by decide +kernel

/-- The trim of an acknowledged record, with its own record on the way. -/
def acceptedTrimSchedule : List WalAct :=
  refusedTrimSchedule.take 15 ++ [.trimStart 0, .trimSubmit 0, .place 0, .trimStart 0]

theorem trim_retry_running :
    ∃ w, run Writer.step (Writer.new .defaults) acceptedTrimSchedule = some w ∧
      w.completedTrim < w.trimOffset ∧ ∃ t ∈ w.trims, t.phase.Running ∧ t.offset = w.trimOffset :=
  exists_and (by decide +kernel) fun _ hw hlt =>
    (trim_retry (by decide +kernel) hw).1 hlt

end Writer

end S3Stream
