import S3Stream.Core.SubmitOrder

/-! # Requests take turns

While the `append0` calls of a stream do not overlap and no shutdown empties the backoff queue,
the WAL accepts the records of a stream in the order of their requests and each at most once,
whatever the cache and the WAL answer and whenever the drain task runs. -/

namespace S3Stream

open TransitionSystem StorageInner

namespace StorageInner

variable {s s' : StorageInner} {a : Action} {i j n : Nat} {p q : WalWriteRequest}

instance (s : StorageInner) (a : Action) : Decidable (s.TakesTurns a) := by
  unfold TakesTurns
  split <;> infer_instance

/-- The request whose record a step places in the WAL. -/
def acceptedBy (s : StorageInner) : Action → Option Nat
  | .appendPlace n _ => some n
  | .drainPlace _ => s.drain.request?
  | _ => none

/-- The requests that `wal.submit` accepts along a schedule, in its order. -/
def acceptances (s : StorageInner) (as : List Action) : List Nat :=
  outputs step (fun s a => (s.acceptedBy a).toList) s as

/-- The request waits for the WAL, or the drain task is about to take it out of the queue. -/
def InWal (s : StorageInner) (n : Nat) : Prop :=
  ∃ q id, s.requests[n]? = some q ∧ (q.phase.pending? = some id ∨ s.drain = .popping n (.ok id))

/-- What was accepted along a run. -/
structure Turns (s : StorageInner) (accepted : List Nat) : Prop where
  nodup : accepted.Nodup
  inWal : ∀ n ∈ accepted, s.InWal n
  order : accepted.Pairwise fun i j => ∀ p q, ¬s.Before j i p q

theorem InLine.left_of_inWal (h : s.InLine) (hj : s.InWal j) (hbefore : s.Before i j p q) :
    p.phase.Left := by
  obtain ⟨q', id, hq', hcase⟩ := hj
  cases hbefore.2.2.1.symm.trans hq'
  refine h.left i j p q hbefore ?_
  rcases hcase with hpending | hdrain
  · refine .inl ?_
    generalize q.phase = phase at hpending
    cases phase <;> trivial
  · exact .inr (by rw [hdrain]; rfl)

theorem InWal.step (h : s.InWal n) (hline : s.InLine) (hqueue : s.Queue) (hdraining : s.Draining)
    (hG : s.TakesTurns a) (hstep : s.step a = some s') : s'.InWal n := by
  obtain ⟨q, id, hq, hcase⟩ := h
  obtain ⟨q', hq', -, hle⟩ := requests_persist hstep hqueue hG.ne hq
  rcases hcase with hpending | hdrain
  · exact ⟨q', id, hq', .inl (hle.pending id hpending)⟩
  have hsame : s'.drain = s.drain → s'.InWal n := fun heq =>
    ⟨q', id, hq', .inr (heq.trans hdrain)⟩
  cases effect_of_step hstep with
  | drain hmove =>
    cases hmove with
    | start hidle => cases hdrain.symm.trans hidle
    | stop hstop =>
      rcases hstop with hloop | ⟨m, r, hpeek | hpermit⟩
      · cases hdrain.symm.trans hloop
      · cases hdrain.symm.trans hpeek
      · cases hdrain.symm.trans hpermit
    | peek hloop => cases hdrain.symm.trans hloop
    | permit hpeek => cases hdrain.symm.trans hpeek
    | fail hpermit => cases hdrain.symm.trans hpermit
  | drainAccept hpermit => cases hdrain.symm.trans hpermit
  | drainPlace hplacing => cases hdrain.symm.trans hplacing
  | @pop k m outcome ns hpop hbackoff =>
    -- The request that is popped is the one whose record is in the WAL.
    cases hdrain.symm.trans (hline.pop_own hdraining hpop hbackoff)
    refine ⟨{ q with phase := .durable id }, id, ?_, .inl rfl⟩
    rw [getElem?_setPhase hq, if_pos rfl]
    rfl
  | panic hpop hempty =>
    have hmem := hline.held n (by rw [hdrain]; rfl)
    rw [hempty] at hmem
    cases hmem
  | shutdownDrain => exact absurd rfl hG.ne
  | _ => exact hsame rfl

/-- The request whose record is placed is in the WAL from now on, and has not left before. -/
theorem inWal_of_acceptedBy (hqueue : s.Queue) (hline : s.InLine) (hstep : s.step a = some s')
    (hn : s.acceptedBy a = some n) :
    s'.InWal n ∧ ¬s.InWal n ∧ ∃ q, s.requests[n]? = some q ∧ ¬q.phase.Left := by
  have hnot : ∀ {q : WalWriteRequest}, s.requests[n]? = some q → q.phase.pending? = none →
      (∀ id, s.drain ≠ .popping n (.ok id)) → ¬s.InWal n := by
    rintro q hq hnone hdrain ⟨q', id, hq', hpending | hpop⟩
    · cases hq.symm.trans hq'
      cases hnone.symm.trans hpending
    · exact hdrain id hpop
  cases a with
  | appendPlace m k =>
    obtain rfl := Option.some.inj hn
    simp only [step, appendPlace] at hstep
    split at hstep
    next record hq =>
      split at hstep
      next hk =>
        obtain ⟨wal, -, rfl⟩ := Option.map_eq_some_iff.mp hstep
        refine ⟨⟨⟨record, .durable (s.wal.ackFor record)⟩, _, ?_, .inl rfl⟩, hnot hq rfl ?_, _, hq,
          id⟩
        · show (s.setPhase m _).requests[m]? = _
          rw [getElem?_setPhase hq, if_pos rfl]
        · -- A request that the drain task holds is queued.
          intro id hpop
          obtain ⟨q', hq', hqueued⟩ := hqueue.queued m (hline.held m (by rw [hpop]; rfl))
          cases hq.symm.trans hq'
          cases hqueued
      next => cases hstep
    next => cases hstep
  | drainPlace k =>
    simp only [step, drainPlace] at hstep
    split at hstep
    next m record hdrain =>
      split at hstep
      next hk =>
        obtain ⟨wal, -, rfl⟩ := Option.map_eq_some_iff.mp hstep
        obtain rfl : m = n := by simpa [acceptedBy, hdrain, DrainPhase.request?] using hn
        obtain ⟨q, hq, hqueued⟩ := hqueue.queued m (hline.held m (by rw [hdrain]; rfl))
        refine ⟨⟨q, _, hq, .inr rfl⟩, hnot hq (by rw [hqueued]; rfl) ?_, q, hq, ?_⟩
        · intro id hpop
          cases hdrain.symm.trans hpop
        · rw [hqueued]
          exact id
      next => cases hstep
    next => cases hstep
  | _ => cases hn

/-- A request in the WAL is no newcomer, so the pairs it is the later one of were there before. -/
theorem before_of_inWal (hqueue : s.Queue) (ha : a ≠ .shutdownDrain) (hstep : s.step a = some s')
    (hi : s.InWal i) (h : s'.Before j i p' q') : ∃ p q, s.Before j i p q := by
  obtain ⟨p, -, -, -, hcase⟩ := before_step hqueue ha hstep h
  rcases hcase with ⟨r, -, rfl, -⟩ | ⟨q, hold, -⟩
  · obtain ⟨q, id, hq, -⟩ := hi
    exact absurd (List.getElem_of_getElem? hq).1 (lt_irrefl _)
  · exact ⟨p, q, hold⟩

theorem Turns.step (h : s.Turns accepted) (hline : s.InLine) (hqueue : s.Queue)
    (hdraining : s.Draining) (hG : s.TakesTurns a) (hstep : s.step a = some s') :
    s'.Turns (accepted ++ (s.acceptedBy a).toList) := by
  have hinWal : ∀ n ∈ accepted, s'.InWal n := fun n hn =>
    (h.inWal n hn).step hline hqueue hdraining hG hstep
  have horder : accepted.Pairwise fun i j => ∀ p q, ¬s'.Before j i p q := by
    refine h.order.imp_of_mem fun {i j} hi hj hnot p' q' hbefore => ?_
    obtain ⟨p, q, hold⟩ := before_of_inWal hqueue hG.ne hstep (h.inWal i hi) hbefore
    exact hnot p q hold
  cases hn : s.acceptedBy a with
  | none => exact ⟨by simpa using h.nodup, by simpa using hinWal, by simpa using horder⟩
  | some n =>
    obtain ⟨hin, hnot, q, hq, hleft⟩ := inWal_of_acceptedBy hqueue hline hstep hn
    refine ⟨?_, ?_, ?_⟩
    · refine List.nodup_append.mpr ⟨h.nodup, List.nodup_singleton n, ?_⟩
      rintro m hm _ hm' rfl
      exact hnot (List.mem_singleton.mp hm' ▸ h.inWal m hm)
    · exact List.forall_mem_append.mpr ⟨hinWal, List.forall_mem_singleton.mpr hin⟩
    · refine List.pairwise_append.mpr ⟨horder, List.pairwise_singleton _ _, ?_⟩
      intro i hi j hj p' q' hbefore
      rw [List.mem_singleton.mp hj] at hbefore
      obtain ⟨p, q', hold⟩ := before_of_inWal hqueue hG.ne hstep (h.inWal i hi) hbefore
      cases hold.2.1.symm.trans hq
      exact hleft (hline.left_of_inWal (h.inWal i hi) hold)

theorem Turns.new (config : S3StorageConfig) (walConfig : WalConfig) :
    (new config walConfig).Turns [] :=
  ⟨.nil, nofun, .nil⟩

theorem turns_run
    (hG : Guarded step TakesTurns (new config walConfig) as)
    (h : run step (new config walConfig) as = some s) :
    s.Queue ∧ s.Paired ∧ s.Draining ∧ s.InLine ∧
      s.Turns ((new config walConfig).acceptances as) := by
  refine run_induction_of_guarded
    (P := fun pre m => m.Queue ∧ m.Paired ∧ m.Draining ∧ m.InLine ∧
      m.Turns ((new config walConfig).acceptances pre)) ?_
    ⟨.new config walConfig, .new config walConfig, .new config walConfig, .new config walConfig,
      .new config walConfig⟩ hG h
  rintro pre a m m' hpre ⟨hqueue, hpaired, hdraining, hline, hturns⟩ hGa hstep
  have hpops : m.PopsOwn a := hline.held.popsOwn
  refine ⟨hqueue.step hstep, hpaired.step hqueue hdraining hpops hstep,
    hdraining.step hqueue hpaired hpops hstep, hline.step hqueue hGa hstep hdraining, ?_⟩
  rw [acceptances, outputs_concat hpre]
  exact hturns.step hline hqueue hdraining hGa hstep

/-- **Per-stream order through backpressure.** Along every run in which the `append0` calls of a
stream do not overlap and no shutdown empties the queue, the WAL accepts each request at most once
and those of a stream in their order, no request is accepted while an earlier one of its stream is
parked, and the record of an accepted request is in the WAL. -/
theorem accepted_in_turn {config : S3StorageConfig} {walConfig : WalConfig} {as : List Action}
    (hG : Guarded step TakesTurns (StorageInner.new config walConfig) as)
    (h : run step (StorageInner.new config walConfig) as = some s) :
    ((StorageInner.new config walConfig).acceptances as).Pairwise (fun i j => i ≠ j ∧
      ∀ p q, s.requests[i]? = some p → s.requests[j]? = some q →
        p.record.streamId = q.record.streamId → i < j) ∧
    (∀ i ∈ s.backoff, ∀ j ∈ (StorageInner.new config walConfig).acceptances as,
      ∀ p q, ¬s.Before i j p q) ∧
    ∀ n ∈ (StorageInner.new config walConfig).acceptances as,
      ∃ q id, s.requests[n]? = some q ∧ (id, q.record) ∈ s.wal.slots := by
  obtain ⟨hqueue, hpaired, hdraining, hline, hturns⟩ := turns_run hG h
  refine ⟨?_, fun i hi j hj p q hbefore => ?_, fun n hn => ?_⟩
  · refine hturns.nodup.imp₂ (fun i j hne hnot => ⟨hne, fun p q hp hq hstream => ?_⟩) hturns.order
    by_contra hge
    exact hnot q p ⟨lt_of_le_of_ne (not_lt.mp hge) (Ne.symm hne), hq, hp, hstream.symm⟩
  · -- A parked request has not left.
    have hleft := hline.left_of_inWal (hturns.inWal j hj) hbefore
    obtain ⟨q', hq', hphase⟩ := hqueue.queued i hi
    cases hbefore.2.1.symm.trans hq'
    rw [hphase] at hleft
    exact hleft
  · obtain ⟨q, id, hq, hpending | hdrain⟩ := hturns.inWal n hn
    · exact ⟨q, id, hq, hpaired.placed n q id hq hpending⟩
    · obtain ⟨⟨q', hq', hslot⟩, -⟩ := hdraining.placed n id hdrain
      exact ⟨q', id, hq', hslot⟩

/-- Three records of one stream: the first one is placed, the others are parked, and the drain task
takes the second one to the WAL. -/
def backpressureSchedule : List Action :=
  [.wal (.startVerify .held), .wal (.startList []), .submit ⟨1, 0, 0, 1, [1]⟩, .appendCheck 0,
    .appendPermit 0, .appendSubmit 0, .appendPlace 0 0, .submit ⟨1, 0, 1, 1, [2]⟩, .appendCheck 1,
    .appendPermit 1, .appendSubmit 1, .appendQueue 1, .submit ⟨1, 0, 2, 1, [3]⟩, .appendCheck 2,
    .appendQueue 2] ++ confirmBulk 1 ++ [.answer 0, .drainStart, .drainPeek, .drainPermit,
    .drainSubmit, .drainPlace 0, .drainPop]

theorem accepted_in_turn_parked :
    ∃ s, run step (StorageInner.new S3Storage.smallConfig tightConfig)
        backpressureSchedule = some s ∧ s.backoff = [2] ∧
      (StorageInner.new S3Storage.smallConfig tightConfig).acceptances backpressureSchedule =
        [0, 1] ∧
      ∀ i ∈ s.backoff, ∀ j ∈ (StorageInner.new S3Storage.smallConfig tightConfig).acceptances
        backpressureSchedule, ∀ p q, ¬s.Before i j p q :=
  exists_and (by decide +kernel) fun _ hs _ =>
    ⟨by decide +kernel, (accepted_in_turn (by decide +kernel) hs).2.1⟩

end StorageInner

end S3Stream
