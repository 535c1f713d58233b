import S3Stream.Core.Append
import S3Stream.Core.TrimSafety
import S3Stream.Wal.AckOrder

/-! # Whose acknowledgement answers a request

The drain task clones the record at the head of the backoff queue, submits it without the queue
lock and pops afterwards. As long as the request it cloned the record from is still queued when
it pops, every request is answered by the acknowledgement of its own record. -/

namespace S3Stream

open List Writer StorageInner TransitionSystem Table

theorem RequestPhase.InAppend0.not_left {phase : RequestPhase} (h : phase.InAppend0) :
    phase ≠ .queued ∧ ∀ pending result, phase ≠ .answered pending result := by
  cases phase <;> simp_all [RequestPhase.InAppend0]

/-- The request the drain task has looked at, with the clone of its record. -/
def DrainPhase.clone? : DrainPhase → Option (Nat × StreamRecordBatch)
  | .peeked n r | .permitted n r | .placing n r => some (n, r)
  | .idle | .looping | .popping .. | .panicked => none

namespace StorageInner

/-! ## What an action does -/

/-- The moves of a request inside `append0` that leave the WAL and the queue alone. -/
inductive Advance (s : StorageInner) (q : WalWriteRequest) : RequestPhase → Prop where
  | permit (hphase : q.phase = .entered) (hempty : s.backoff = []) : Advance s q .permitting
  | park (hphase : q.phase.InAppend0) : Advance s q .requeueing
  | submit (hphase : q.phase = .permitting) : Advance s q .submitting
  | fail {e : WalError} (hphase : q.phase = .submitting)
      (hcheck : s.wal.submitCheck q.record = .error e) (he : ∀ x y, e ≠ .overCapacity x y) :
    Advance s q (.failing e)

/-- The moves of the drain task that leave the WAL and the queue alone. -/
inductive DrainMove (s : StorageInner) : DrainPhase → Prop where
  | start (hdrain : s.drain = .idle) : DrainMove s .looping
  | stop (hdrain : s.drain = .looping ∨ ∃ n r, s.drain = .peeked n r ∨ s.drain = .permitted n r) :
    DrainMove s .idle
  | peek (hdrain : s.drain = .looping) (hbackoff : s.backoff = n :: ns)
      (hq : s.requests[n]? = some q) : DrainMove s (.peeked n q.record)
  | permit (hdrain : s.drain = .peeked n r) : DrainMove s (.permitted n r)
  | fail (hdrain : s.drain = .permitted n r) (hcheck : s.wal.submitCheck r = .error e)
      (he : ∀ x y, e ≠ .overCapacity x y) : DrainMove s (.popping n (.error e))

/-- What a popped request waits for. -/
def afterPop : Except WalError AckId → RequestPhase
  | .ok id => .durable id
  | .error e => .failing e

/-- How a request gets its answer. -/
inductive Answers (s : StorageInner) (q : WalWriteRequest) :
    Option AckId → Except StreamError Unit → Prop where
  | confirmed {id : AckId} (hphase : q.phase = .durable id) (hx : x ∈ s.wal.acks.take s.delivered)
      (hid : x.id = id) (hok : x.result = .ok res) : Answers s q (some id) (.ok ())
  | refused {id : AckId} (hphase : q.phase = .durable id) (hx : x ∈ s.wal.acks.take s.delivered)
      (hid : x.id = id) (herr : x.result = .error e) : Answers s q (some id) (.error (.wal e))
  | failed (hphase : q.phase = .failing e) : Answers s q none (.error (.wal e))

/-- Everything an action can do, with the conditions under which it does it. -/
inductive Effect (s : StorageInner) : Action → StorageInner → Prop where
  | submit (hr : record.InRange) :
    Effect s (.submit record) { s with requests := s.requests ++ [⟨record, .entered⟩] }
  | advance (hq : s.requests[n]? = some q) (hmove : Advance s q phase) :
    Effect s a (s.setPhase n phase)
  | accept {n q wal} (hq : s.requests[n]? = some q) (hphase : q.phase = .submitting)
      (hcheck : s.wal.submitCheck q.record = .ok ())
      (hwal : s.wal.step (.submit q.record) = some wal) :
    Effect s (.appendSubmit n) { s.setPhase n .placing with wal }
  | place {n k q wal} (hq : s.requests[n]? = some q) (hphase : q.phase = .placing)
      (hk : s.wal.admitted[k]? = some ⟨q.record, none⟩) (hwal : s.wal.step (.place k) = some wal) :
    Effect s (.appendPlace n k) { s.setPhase n (.durable (s.wal.ackFor q.record)) with wal }
  | queue (hq : s.requests[n]? = some q) (hphase : q.phase = .requeueing) :
    Effect s (.appendQueue n) { s.setPhase n .queued with backoff := s.backoff ++ [n] }
  | drain (hmove : DrainMove s phase) : Effect s a { s with drain := phase }
  | drainAccept {n r wal} (hdrain : s.drain = .permitted n r)
      (hcheck : s.wal.submitCheck r = .ok ()) (hwal : s.wal.step (.submit r) = some wal) :
    Effect s .drainSubmit { s with wal := wal, drain := .placing n r }
  | drainPlace {n k r wal} (hdrain : s.drain = .placing n r)
      (hk : s.wal.admitted[k]? = some ⟨r, none⟩) (hwal : s.wal.step (.place k) = some wal) :
    Effect s (.drainPlace k) { s with wal := wal, drain := .popping n (.ok (s.wal.ackFor r)) }
  | pop {n m outcome ns} (hdrain : s.drain = .popping n outcome) (hbackoff : s.backoff = m :: ns) :
    Effect s .drainPop { s.setPhase m (afterPop outcome) with backoff := ns, drain := .looping }
  | panic (hdrain : s.drain = .popping n outcome) (hempty : s.backoff = []) :
    Effect s .drainPop { s with drain := .panicked }
  | skip (hx : s.wal.acks[s.delivered]? = some x)
      (hskip : (∃ e, x.result = .error e) ∨ x.record.streamId = trimRecordSentinel) :
    Effect s .deliver { s with delivered := s.delivered + 1 }
  | confirm {pipeline : S3Storage} (hx : s.wal.acks[s.delivered]? = some x)
      (hok : x.result = .ok res) (hstream : x.record.streamId ≠ trimRecordSentinel)
      (hstep : s.pipeline.step (.confirm x.record res.recordOffset) = some pipeline) :
    Effect s .deliver { s with pipeline := pipeline, delivered := s.delivered + 1 }
  | answer (hq : s.requests[n]? = some q) (hanswer : Answers s q pending result) :
    Effect s (.answer n) (s.answerWith n pending result)
  | shutdownStart : Effect s .shutdownStart { s with shutdown := true }
  | shutdownDrain :
    Effect s .shutdownDrain ({ s with backoff := [] }.answerShutdown s.backoff)
  | wal {wal : Writer} (hown : walOwn s.wal b = true) (hwal : s.wal.step b = some wal) :
    Effect s (.wal b) { s with wal := wal }
  | pipeline {pipeline : S3Storage} (hconfirm : ∀ r o, b ≠ .confirm r o)
      (hstep : s.pipeline.step b = some pipeline) :
    Effect s (.pipeline b) { s with pipeline := pipeline }

variable {s s' : StorageInner} {a : Action} {m n : Nat} {q : WalWriteRequest}

theorem Advance.inAppend0 (h : Advance s q phase) : q.phase.InAppend0 := by
  cases h with
  | park hphase => exact hphase
  | permit hphase | submit hphase | fail hphase => rw [hphase]; trivial

theorem effect_of_step (h : s.step a = some s') : Effect s a s' := by
  cases a with
  | submit =>
    simp only [step, submit] at h
    split at h <;> cases h
    next hr => exact .submit hr
  | appendCheck =>
    simp only [step, appendCheck] at h
    split at h <;> cases h
    next hq =>
      split
      next hempty => exact .advance hq (.permit rfl hempty)
      next => exact .advance hq (.park trivial)
  | appendPermit =>
    simp only [step, appendPermit] at h
    split at h <;> cases h
    next hq =>
      split
      · exact .advance hq (.submit rfl)
      · exact .advance hq (.park trivial)
  | appendSubmit =>
    simp only [step, appendSubmit] at h
    split at h
    next hq =>
      split at h
      next hcheck =>
        obtain ⟨wal, hwal, rfl⟩ := Option.map_eq_some_iff.mp h
        exact .accept hq rfl hcheck hwal
      next => cases h; exact .advance hq (.park trivial)
      next he hcheck => cases h; exact .advance hq (.fail rfl hcheck fun x y hxy => he x y hxy)
    next => cases h
  | appendPlace =>
    simp only [step, appendPlace] at h
    split at h
    next r hq =>
      split at h
      next hk =>
        obtain ⟨wal, hwal, rfl⟩ := Option.map_eq_some_iff.mp h
        exact .place (q := ⟨r, .placing⟩) hq rfl hk hwal
      next => cases h
    next => cases h
  | appendQueue =>
    simp only [step, appendQueue] at h
    split at h <;> cases h
    next hq => exact .queue hq rfl
  | drainStart =>
    simp only [step, drainStart] at h
    split at h <;> cases h
    next hc => exact .drain (.start hc.1)
  | drainPeek =>
    simp only [step, drainPeek] at h
    split at h
    next hdrain hempty => cases h; exact .drain (.stop (.inl hdrain))
    next hdrain hbackoff =>
      split at h <;> cases h
      next hq => exact .drain (.peek hdrain hbackoff hq)
    next => cases h
  | drainPermit =>
    simp only [step, drainPermit] at h
    split at h <;> cases h
    next n r hdrain =>
      split
      · exact .drain (.permit hdrain)
      · exact .drain (.stop (.inr ⟨n, r, .inl hdrain⟩))
  | drainSubmit =>
    simp only [step, drainSubmit] at h
    split at h
    next n r hdrain =>
      split at h
      next hcheck =>
        obtain ⟨wal, hwal, rfl⟩ := Option.map_eq_some_iff.mp h
        exact .drainAccept hdrain hcheck hwal
      next => cases h; exact .drain (.stop (.inr ⟨n, r, .inr hdrain⟩))
      next he hcheck => cases h; exact .drain (.fail hdrain hcheck fun x y hxy => he x y hxy)
    next => cases h
  | drainPlace =>
    simp only [step, drainPlace] at h
    split at h
    next hdrain =>
      split at h
      next hk =>
        obtain ⟨wal, hwal, rfl⟩ := Option.map_eq_some_iff.mp h
        exact .drainPlace hdrain hk hwal
      next => cases h
    next => cases h
  | drainPop =>
    simp only [step, drainPop] at h
    split at h <;> cases h
    next hdrain hempty => exact .panic hdrain hempty
    next hdrain hbackoff => exact .pop hdrain hbackoff
    next hdrain hbackoff => exact .pop hdrain hbackoff
  | deliver =>
    simp only [step, deliver] at h
    split at h
    next => cases h
    next hx => cases h; exact .skip hx (.inl ⟨_, rfl⟩)
    next hx =>
      split at h
      next hstream => cases h; exact .skip hx (.inr hstream)
      next hstream =>
        obtain ⟨pipeline, hstep, rfl⟩ := Option.map_eq_some_iff.mp h
        exact .confirm hx rfl hstream hstep
  | answer =>
    simp only [step, answer] at h
    split at h
    next hq =>
      split at h <;> cases h
      next hfind =>
        have hid := find?_some hfind
        exact .answer hq (.confirmed rfl (mem_of_find?_eq_some hfind) (of_decide_eq_true hid) rfl)
      next hfind =>
        have hid := find?_some hfind
        exact .answer hq (.refused rfl (mem_of_find?_eq_some hfind) (of_decide_eq_true hid) rfl)
    next hq => cases h; exact .answer hq (.failed rfl)
    next => cases h
  | shutdownStart => cases h; exact .shutdownStart
  | shutdownDrain =>
    simp only [step, shutdownDrain] at h
    split at h <;> cases h
    exact .shutdownDrain
  | wal =>
    simp only [step] at h
    split at h
    next hown =>
      obtain ⟨wal, hwal, rfl⟩ := Option.map_eq_some_iff.mp h
      exact .wal hown hwal
    next => cases h
  | pipeline =>
    simp only [step] at h
    split at h
    next hown =>
      obtain ⟨pipeline, hstep, rfl⟩ := Option.map_eq_some_iff.mp h
      refine .pipeline ?_ hstep
      rintro r o rfl
      cases hown
    next => cases h

/-! ## The queue and the answers -/

theorem getElem?_setPhase (hq : s.requests[n]? = some q) :
    (s.setPhase n phase).requests[m]? =
      if n = m then some { q with phase := phase } else s.requests[m]? := by
  rw [setPhase, getElem?_modify]
  split
  next h => rw [← h, hq]; rfl
  next => simp

/-- The backoff queue holds queued requests, and answered requests are in the history. -/
structure Queue (s : StorageInner) : Prop where
  nodup : s.backoff.Nodup
  queued : ∀ m ∈ s.backoff, ∃ q, s.requests[m]? = some q ∧ q.phase = .queued
  answers : (s.answers.map Prod.fst).Nodup
  answered : ∀ x ∈ s.answers, ∃ q pending, s.requests[x.1]? = some q ∧
    q.phase = .answered pending x.2

theorem Queue.congr (h : s.Queue) (hrequests : s'.requests = s.requests)
    (hbackoff : s'.backoff = s.backoff) (hanswers : s'.answers = s.answers) : s'.Queue := by
  obtain ⟨nodup, queued, answers, answered⟩ := h
  constructor <;> simp only [hrequests, hbackoff, hanswers] <;> assumption

section

variable (h : s.Queue) (hq : s.requests[n]? = some q) (hqueued : q.phase ≠ .queued ∨ n ∉ s.backoff)
  (hanswered : ∀ pending result, q.phase ≠ .answered pending result)

include h hq hqueued hanswered

theorem Queue.setPhase : (s.setPhase n phase).Queue := by
  refine ⟨h.nodup, fun m hm => ?_, h.answers, fun x hx => ?_⟩
  · obtain ⟨q', hq', hphase⟩ := h.queued m hm
    refine ⟨q', ?_, hphase⟩
    rw [getElem?_setPhase hq, if_neg]
    · exact hq'
    rintro rfl
    cases hq.symm.trans hq'
    exact hqueued.elim (fun hne => hne hphase) fun hnot => hnot hm
  · obtain ⟨q', pending, hq', hphase⟩ := h.answered x hx
    refine ⟨q', pending, ?_, hphase⟩
    rw [getElem?_setPhase hq, if_neg]
    · exact hq'
    rintro rfl
    cases hq.symm.trans hq'
    exact hanswered _ _ hphase

theorem Queue.answerWith : (s.answerWith n pending result).Queue := by
  have hset : (s.setPhase n (.answered pending result)).Queue := h.setPhase hq hqueued hanswered
  refine ⟨hset.nodup, hset.queued, ?_, ?_⟩
  · simp only [StorageInner.answerWith, map_append, nodup_append]
    refine ⟨h.answers, nodup_singleton _, fun m hm m' hm' => ?_⟩
    rw [map_cons, map_nil, mem_singleton] at hm'
    obtain ⟨x, hx, rfl⟩ := mem_map.mp hm
    rintro rfl
    obtain ⟨q', pending', hq', hphase⟩ := h.answered x hx
    rw [hm', hq] at hq'
    cases hq'
    exact hanswered _ _ hphase
  · exact forall_mem_append.mpr
      ⟨hset.answered,
        forall_mem_singleton.mpr ⟨_, pending, (getElem?_setPhase hq).trans (if_pos rfl), rfl⟩⟩

end

/-- The rule for what holds while `shutdown` answers the queued requests. -/
theorem answerShutdown_induction {I : StorageInner → Prop} (hI : I s) (hnodup : ns.Nodup)
    (hqueued : ∀ m ∈ ns, ∃ q, s.requests[m]? = some q ∧ q.phase = .queued)
    (hstep : ∀ {s : StorageInner} {n q reason}, I s → s.requests[n]? = some q →
      q.phase = .queued → I (s.answerWith n none (.error (.unexpected reason)))) :
    I (s.answerShutdown ns) := by
  induction ns generalizing s with
  | nil => exact hI
  | cons n ns ih =>
    obtain ⟨q, hq, hphase⟩ := hqueued n mem_cons_self
    obtain ⟨hn, hnodup⟩ := nodup_cons.mp hnodup
    refine ih (hstep hI hq hphase) hnodup fun m hm => ?_
    obtain ⟨q', hq', hphase'⟩ := hqueued m (mem_cons_of_mem _ hm)
    refine ⟨q', (getElem?_setPhase hq).trans ((if_neg ?_).trans hq'), hphase'⟩
    rintro rfl
    exact hn hm

theorem Queue.step (h : s.Queue) (hstep : s.step a = some s') : s'.Queue := by
  cases effect_of_step hstep with
  | submit =>
    refine ⟨h.nodup, fun m hm => ?_, h.answers, fun x hx => ?_⟩
    · obtain ⟨q, hq, hphase⟩ := h.queued m hm
      exact ⟨q, by grind, hphase⟩
    · obtain ⟨q, pending, hq, hphase⟩ := h.answered x hx
      exact ⟨q, pending, by grind, hphase⟩
  | advance hq hmove =>
    obtain ⟨hqueued, hanswered⟩ := hmove.inAppend0.not_left
    exact h.setPhase hq (.inl hqueued) hanswered
  | accept hq hphase | place hq hphase =>
    exact (h.setPhase hq (.inl (by simp [hphase])) (by simp [hphase])).congr rfl rfl rfl
  | @queue n q hq hphase =>
    have hset : (s.setPhase n .queued).Queue :=
      h.setPhase hq (.inl (by simp [hphase])) (by simp [hphase])
    refine ⟨?_, fun m hm => ?_, hset.answers, hset.answered⟩
    · refine nodup_append.mpr ⟨h.nodup, nodup_singleton _, fun m hm m' hm' heq => ?_⟩
      rw [mem_singleton.mp hm'] at heq
      subst heq
      obtain ⟨q', hq', hphase'⟩ := h.queued m hm
      cases hq.symm.trans hq'
      cases hphase.symm.trans hphase'
    · exact forall_mem_append.mpr
        ⟨hset.queued,
          forall_mem_singleton.mpr ⟨_, (getElem?_setPhase hq).trans (if_pos rfl), rfl⟩⟩ m hm
  | @pop n m outcome ns hdrain hbackoff =>
    obtain ⟨hm, hnodup⟩ := nodup_cons.mp (hbackoff ▸ h.nodup)
    obtain ⟨q, hq, hphase⟩ := h.queued m (by simp [hbackoff])
    have htail : Queue { s with backoff := ns } :=
      ⟨hnodup, fun k hk => h.queued k (by simp [hbackoff, hk]), h.answers, h.answered⟩
    exact (htail.setPhase hq (.inr hm) (by simp [hphase])).congr rfl rfl rfl
  | answer hq hanswer =>
    refine h.answerWith hq (.inl ?_) fun pending' result' hphase' => ?_
    · cases hanswer with
      | confirmed hphase | refused hphase | failed hphase => simp [hphase]
    · cases hanswer with
      | confirmed hphase | refused hphase | failed hphase => cases hphase.symm.trans hphase'
  | shutdownDrain =>
    have hempty : Queue { s with backoff := [] } := ⟨.nil, nofun, h.answers, h.answered⟩
    refine (answerShutdown_induction (I := fun s => s.Queue ∧ s.backoff = []) ⟨hempty, rfl⟩
      h.nodup h.queued ?_).1
    rintro s n q reason ⟨h, hbackoff⟩ hq hphase
    exact ⟨h.answerWith hq (.inr (by simp [hbackoff])) (by simp [hphase]), hbackoff⟩
  | _ => exact h.congr rfl rfl rfl

theorem Queue.new (config : S3StorageConfig) (walConfig : WalConfig) :
    (new config walConfig).Queue := ⟨.nil, nofun, .nil, nofun⟩

/-! ## Requests and acknowledgements -/

/-- The requests that wait for the WAL, or were answered by it, and their acknowledgements. -/
structure Paired (s : StorageInner) : Prop where
  inv : s.wal.toPipeline.Inv
  senders : s.wal.toPipeline.Senders
  placed : ∀ (n : Nat) q id, s.requests[n]? = some q → q.phase.pending? = some id →
    (id, q.record) ∈ s.wal.slots
  distinct : ∀ (m n : Nat) q q' id, s.requests[m]? = some q → s.requests[n]? = some q' →
    q.phase.pending? = some id → q'.phase.pending? = some id → m = n
  confirmed : ∀ (n : Nat) q pending, s.requests[n]? = some q →
    q.phase = .answered pending (.ok ()) → ∃ id, pending = some id ∧
      ∃ x ∈ s.wal.acks.take s.delivered, x.id = id ∧ ∃ res, x.result = .ok res

/-- A request that was answered Ok waited for the acknowledgement of its own record. -/
theorem Paired.confirmed_own (h : s.Paired) (hq : s.requests[n]? = some q)
    (hphase : q.phase = .answered pending (.ok ())) :
    ∃ x ∈ s.wal.acks.take s.delivered, pending = some x.id ∧ x.record = q.record ∧
      ∃ res, x.result = .ok res := by
  obtain ⟨id, rfl, x, hx, rfl, hok⟩ := h.confirmed n q pending hq hphase
  refine ⟨x, hx, rfl, ?_, hok⟩
  -- The record under a sender is the one that was placed there.
  have hslot := h.inv.mem_slots_of_ack (mem_of_mem_take hx)
  exact h.senders.record_unique hslot (h.placed n q x.id hq (by rw [hphase]; rfl))

theorem Paired.congr (h : s.Paired) (hwal : s'.wal = s.wal) (hrequests : s'.requests = s.requests)
    (hdelivered : s.delivered ≤ s'.delivered) : s'.Paired := by
  have htake := take_subset_take_left s.wal.acks hdelivered
  obtain ⟨inv, senders, placed, distinct, confirmed⟩ := h
  constructor
  · rwa [hwal]
  · rwa [hwal]
  · rwa [hwal, hrequests]
  · rwa [hrequests]
  · rw [hwal, hrequests]
    intro n q pending hq hphase
    obtain ⟨id, hid, x, hx, hrest⟩ := confirmed n q pending hq hphase
    exact ⟨id, hid, x, htake hx, hrest⟩

theorem mem_slots_step {w : Writer} (hi : w.toPipeline.Inv) (h : w.step b = some w')
    (hx : x ∈ w.slots) : x ∈ w'.slots := by
  rcases slots_step hi h with ⟨n, d, -, -, hslots⟩ | hperm
  · rw [hslots]
    exact mem_append_left _ hx
  · exact hperm.mem_iff.mpr hx

theorem mem_take_acks_step {w : Writer} (h : w.step b = some w') (hx : x ∈ w.acks.take k) :
    x ∈ w'.acks.take k :=
  ((acks_step h).take k).subset hx

theorem Paired.wal (h : s.Paired) {w : Writer} (hwal : s.wal.step b = some w) :
    ({ s with wal := w } : StorageInner).Paired where
  inv := pipelineInv_step h.inv hwal
  senders := senders_step h.senders h.inv hwal
  placed n q id hq hid := mem_slots_step h.inv hwal (h.placed n q id hq hid)
  distinct := h.distinct
  confirmed n q pending hq hphase := by
    obtain ⟨id, hid, x, hx, hrest⟩ := h.confirmed n q pending hq hphase
    exact ⟨id, hid, x, mem_take_acks_step hwal hx, hrest⟩

theorem of_getElem?_setPhase (hq : s.requests[n]? = some q)
    (hq' : (s.setPhase n phase).requests[m]? = some q') :
    m = n ∧ q' = { q with phase := phase } ∨ m ≠ n ∧ s.requests[m]? = some q' := by
  rw [getElem?_setPhase hq] at hq'
  split at hq'
  next heq => exact .inl ⟨heq.symm, (Option.some.inj hq').symm⟩
  next hne => exact .inr ⟨fun heq => hne heq.symm, hq'⟩

/-- A request changes its phase; if that gives it an acknowledgement to wait for, that is the one
of its record and nobody else's. -/
theorem Paired.setPhase (h : s.Paired) (hq : s.requests[n]? = some q)
    (hpending : ∀ id, phase.pending? = some id → q.phase.pending? = some id ∨
      (id, q.record) ∈ s.wal.slots ∧
        ∀ (m : Nat) q', s.requests[m]? = some q' → q'.phase.pending? ≠ some id)
    (hok : ∀ pending, phase = .answered pending (.ok ()) → ∃ id, pending = some id ∧
      ∃ x ∈ s.wal.acks.take s.delivered, x.id = id ∧ ∃ res, x.result = .ok res) :
    (s.setPhase n phase).Paired := by
  -- Whoever else waits for the new acknowledgement is the request itself.
  have hself : ∀ (m : Nat) q' id, s.requests[m]? = some q' → q'.phase.pending? = some id →
      phase.pending? = some id → m = n := by
    intro m q' id hq' hid' hid
    rcases hpending id hid with hold | ⟨-, hfresh⟩
    · exact h.distinct m n q' q id hq' hq hid' hold
    · exact absurd hid' (hfresh m q' hq')
  refine ⟨h.inv, h.senders, ?_, ?_, ?_⟩
  · intro m q' id hq' hid
    rcases of_getElem?_setPhase hq hq' with ⟨rfl, rfl⟩ | ⟨-, hq'⟩
    · rcases hpending id hid with hold | ⟨hslot, -⟩
      · exact h.placed m q id hq hold
      · exact hslot
    · exact h.placed m q' id hq' hid
  · intro m k q₁ q₂ id h₁ h₂ hid₁ hid₂
    rcases of_getElem?_setPhase hq h₁ with ⟨rfl, rfl⟩ | ⟨-, hq₁⟩ <;>
      rcases of_getElem?_setPhase hq h₂ with ⟨rfl, rfl⟩ | ⟨-, hq₂⟩
    · rfl
    · exact (hself k q₂ id hq₂ hid₂ hid₁).symm
    · exact hself m q₁ id hq₁ hid₁ hid₂
    · exact h.distinct m k q₁ q₂ id hq₁ hq₂ hid₁ hid₂
  · intro m q' pending hq' hphase
    rcases of_getElem?_setPhase hq hq' with ⟨rfl, rfl⟩ | ⟨-, hq'⟩
    · exact hok pending hphase
    · exact h.confirmed m q' pending hq' hphase

/-- The acknowledgement is that of the record of the request, and no request waits for it. -/
def Owns (s : StorageInner) (n : Nat) (id : AckId) : Prop :=
  (∃ q, s.requests[n]? = some q ∧ (id, q.record) ∈ s.wal.slots) ∧
    ∀ (m : Nat) q, s.requests[m]? = some q → q.phase.pending? ≠ some id

/-- Where the drain task is. -/
structure Draining (s : StorageInner) : Prop where
  head : ∀ n, s.drain.request? = some n → n ∈ s.backoff → s.backoff.head? = some n
  left : ∀ n, s.drain.request? = some n → ∃ q, s.requests[n]? = some q ∧ ¬q.phase.InAppend0
  record : ∀ n r, s.drain.clone? = some (n, r) → ∃ q, s.requests[n]? = some q ∧ q.record = r
  placed : ∀ n id, s.drain = .popping n (.ok id) → s.Owns n id
  running : s.drain ≠ .panicked

/-- Nothing the drain task holds changes when the phase of a request moves on. -/
theorem Draining.setPhase (h : s.Draining) (hq : s.requests[n]? = some q)
    (hleft : q.phase.InAppend0 ∨ ¬phase.InAppend0)
    (hpending : ∀ id, phase.pending? = some id → q.phase.pending? = some id ∨
      ∀ m, s.drain ≠ .popping m (.ok id)) : (s.setPhase n phase).Draining := by
  have hkeep : ∀ (m : Nat) q', s.requests[m]? = some q' →
      ∃ q'', (s.setPhase n phase).requests[m]? = some q'' ∧ q''.record = q'.record := by
    intro m q' hq'
    rw [getElem?_setPhase hq]
    split
    next heq =>
      cases hq.symm.trans (heq ▸ hq')
      exact ⟨_, rfl, rfl⟩
    next => exact ⟨q', hq', rfl⟩
  refine ⟨h.head, fun m hm => ?_, fun m r hm => ?_, fun m id hm => ⟨?_, fun k q' hq' hid => ?_⟩,
    h.running⟩
  · obtain ⟨q', hq', hout⟩ := h.left m hm
    rw [getElem?_setPhase hq]
    split
    next heq =>
      cases hq.symm.trans (heq ▸ hq')
      exact ⟨_, rfl, hleft.resolve_left hout⟩
    next => exact ⟨q', hq', hout⟩
  · obtain ⟨q', hq', rfl⟩ := h.record m r hm
    exact hkeep m q' hq'
  · obtain ⟨⟨q', hq', hslot⟩, -⟩ := h.placed m id hm
    obtain ⟨q'', hq'', hrecord⟩ := hkeep m q' hq'
    exact ⟨q'', hq'', hrecord ▸ hslot⟩
  · obtain ⟨-, hothers⟩ := h.placed m id hm
    rcases of_getElem?_setPhase hq hq' with ⟨rfl, rfl⟩ | ⟨-, hq'⟩
    · rcases hpending id hid with hold | hnot
      · exact hothers k q hq hold
      · exact hnot m hm
    · exact hothers k q' hq' hid

theorem Draining.congr (h : s.Draining) (hdrain : s'.drain = s.drain)
    (hrequests : s'.requests = s.requests) (hbackoff : s'.backoff = s.backoff)
    (hslots : ∀ x ∈ s.wal.slots, x ∈ s'.wal.slots) : s'.Draining := by
  obtain ⟨head, left, record, placed, running⟩ := h
  constructor
  · rwa [hdrain, hbackoff]
  · rwa [hdrain, hrequests]
  · rwa [hdrain, hrequests]
  · intro n id hn
    obtain ⟨⟨q, hq, hslot⟩, hothers⟩ := placed n id (hdrain ▸ hn)
    exact ⟨⟨q, hrequests ▸ hq, hslots _ hslot⟩, hrequests ▸ hothers⟩
  · rwa [hdrain]

theorem Draining.rest (hdrain : s.drain = .idle ∨ s.drain = .looping) : s.Draining := by
  rcases hdrain with hdrain | hdrain <;>
    constructor <;> rw [hdrain] <;> nofun

/-- The drain task goes on with the request it has looked at. -/
theorem Draining.next {wal : Writer} {phase : DrainPhase} (h : s.Draining)
    (hrequest : s.drain.request? = phase.request?)
    (hclone : ∀ x, phase.clone? = some x → s.drain.clone? = some x)
    (hplaced : ∀ n id, phase = .popping n (.ok id) → Owns { s with wal } n id)
    (hrunning : phase ≠ .panicked) : Draining { s with wal, drain := phase } :=
  ⟨hrequest ▸ h.head, hrequest ▸ h.left, fun n r hphase => h.record n r (hclone _ hphase),
    hplaced, hrunning⟩

theorem Paired.fresh (h : s.Paired) {id : AckId} (hid : ∀ x ∈ s.wal.slots, x.1 ≠ id) :
    ∀ (m : Nat) q, s.requests[m]? = some q → q.phase.pending? ≠ some id :=
  fun m q hq hpending => hid _ (h.placed m q id hq hpending) rfl

/-- The drain task pops the request whose record it has submitted: no shutdown has emptied the
queue since it looked at its head. -/
def PopsOwn (s : StorageInner) : Action → Prop
  | .drainPop => ∀ n ∈ s.drain.request?, n ∈ s.backoff
  | _ => True

instance (s : StorageInner) (a : Action) : Decidable (s.PopsOwn a) := by
  unfold PopsOwn
  split <;> infer_instance

/-- The request that is popped is the one whose record was submitted. -/
theorem Draining.pop_own (h : s.Draining) (hG : s.PopsOwn .drainPop)
    (hdrain : s.drain = .popping n outcome) (hbackoff : s.backoff = m :: ns) : m = n := by
  have hrequest : s.drain.request? = some n := by rw [hdrain]; rfl
  have hhead := h.head n hrequest (hG n hrequest)
  rw [hbackoff] at hhead
  exact Option.some.inj hhead

theorem Paired.submit (h : s.Paired) (record : StreamRecordBatch) :
    ({ s with requests := s.requests ++ [⟨record, .entered⟩] } : StorageInner).Paired := by
  -- The new request waits for nothing.
  have hold : ∀ {m : Nat} {q : WalWriteRequest},
      (s.requests ++ [⟨record, .entered⟩])[m]? = some q → q.phase ≠ .entered →
      s.requests[m]? = some q := by
    intro m q hq hne
    rcases of_getElem?_concat hq with hq | ⟨-, rfl⟩
    · exact hq
    · exact absurd rfl hne
  have hne : ∀ {q : WalWriteRequest} {id}, q.phase.pending? = some id → q.phase ≠ .entered := by
    intro q id hid hphase
    rw [hphase] at hid
    cases hid
  refine ⟨h.inv, h.senders, ?_, ?_, ?_⟩
  · exact fun m q id hq hid => h.placed m q id (hold hq (hne hid)) hid
  · exact fun m n q q' id hq hq' hid hid' =>
      h.distinct m n q q' id (hold hq (hne hid)) (hold hq' (hne hid')) hid hid'
  · exact fun m q pending hq hphase =>
      h.confirmed m q pending (hold hq (by simp [hphase])) hphase

theorem Paired.answerWith (h : s.Paired) (hq : s.requests[n]? = some q)
    (hanswer : Answers s q pending result) : (s.answerWith n pending result).Paired := by
  have hset : (s.setPhase n (.answered pending result)).Paired := by
    cases hanswer with
    | confirmed hphase hx hid hok =>
      refine h.setPhase hq (fun id hid => .inl ?_) ?_
      · rw [hphase]; exact hid
      · rintro pending ⟨⟩
        exact ⟨_, rfl, _, hx, hid, _, hok⟩
    | refused hphase =>
      refine h.setPhase hq (fun id hid => .inl ?_) nofun
      rw [hphase]; exact hid
    | failed => exact h.setPhase hq nofun nofun
  exact hset.congr rfl rfl le_rfl

theorem Paired.step (h : s.Paired) (hqueue : s.Queue) (hdraining : s.Draining)
    (hG : s.PopsOwn a) (hstep : s.step a = some s') : s'.Paired := by
  cases effect_of_step hstep with
  | @submit record => exact h.submit record
  | advance hq hmove =>
    refine h.setPhase hq ?_ ?_
    · cases hmove <;> nofun
    · cases hmove <;> nofun
  | accept hq hphase hcheck hwal => exact (h.wal hwal).setPhase hq nofun nofun
  | @place n k q wal hq hphase hk hwal =>
    have hfresh := ackFor_fresh h.senders h.inv hk hwal
    refine (h.wal hwal).setPhase hq ?_ nofun
    rintro id ⟨⟩
    refine .inr ⟨?_, h.fresh fun x hx => (hfresh x hx).2⟩
    rw [slots_place hk hwal]
    exact mem_append_right _ (mem_singleton_self _)
  | @queue n q hq =>
    have hset : (s.setPhase n .queued).Paired := h.setPhase hq nofun nofun
    exact hset.congr rfl rfl le_rfl
  | drain | panic | shutdownStart | pipeline => exact h.congr rfl rfl le_rfl
  | drainAccept hdrain hcheck hwal => exact (h.wal hwal).congr rfl rfl le_rfl
  | drainPlace hdrain hk hwal => exact (h.wal hwal).congr rfl rfl le_rfl
  | @pop n m outcome ns hdrain hbackoff =>
    obtain rfl := hdraining.pop_own hG hdrain hbackoff
    obtain ⟨q, hq, hphase⟩ := hqueue.queued m (by simp [hbackoff])
    have hset : (s.setPhase m (afterPop outcome)).Paired := by
      refine h.setPhase hq ?_ ?_
      · intro id hid
        cases outcome with
        | error => cases hid
        | ok =>
          cases hid
          obtain ⟨⟨q', hq', hslot⟩, hothers⟩ := hdraining.placed m id hdrain
          cases hq.symm.trans hq'
          exact .inr ⟨hslot, hothers⟩
      · cases outcome <;> nofun
    exact hset.congr rfl rfl le_rfl
  | skip | confirm => exact h.congr rfl rfl (Nat.le_succ _)
  | answer hq hanswer => exact h.answerWith hq hanswer
  | shutdownDrain =>
    have hempty : Paired { s with backoff := [] } := h.congr rfl rfl le_rfl
    refine answerShutdown_induction hempty hqueue.nodup hqueue.queued ?_
    intro s n q reason h hq hphase
    have hset : (s.setPhase n (.answered none (.error (.unexpected reason)))).Paired :=
      h.setPhase hq nofun nofun
    exact hset.congr rfl rfl le_rfl
  | wal hown hwal => exact h.wal hwal

theorem Draining.submit (h : s.Draining) (record : StreamRecordBatch) :
    ({ s with requests := s.requests ++ [⟨record, .entered⟩] } : StorageInner).Draining := by
  refine ⟨h.head, fun n hn => ?_, fun n r hn => ?_, fun n id hn => ⟨?_, ?_⟩, h.running⟩
  · obtain ⟨q, hq, hout⟩ := h.left n hn
    exact ⟨q, by grind, hout⟩
  · obtain ⟨q, hq, hrecord⟩ := h.record n r hn
    exact ⟨q, by grind, hrecord⟩
  · obtain ⟨⟨q, hq, hslot⟩, -⟩ := h.placed n id hn
    exact ⟨q, by grind, hslot⟩
  · intro m q hq
    rcases of_getElem?_concat hq with hq | ⟨-, rfl⟩
    · exact (h.placed n id hn).2 m q hq
    · nofun

theorem Draining.step (h : s.Draining) (hqueue : s.Queue) (hpaired : s.Paired)
    (hG : s.PopsOwn a) (hstep : s.step a = some s') : s'.Draining := by
  have hwalSlots : ∀ {b w}, s.wal.step b = some w → ∀ x ∈ s.wal.slots, x ∈ w.slots :=
    fun hwal x hx => mem_slots_step hpaired.inv hwal hx
  cases effect_of_step hstep with
  | @submit record => exact h.submit record
  | advance hq hmove =>
    refine h.setPhase hq (.inl hmove.inAppend0) ?_
    cases hmove <;> nofun
  | @accept n q wal hq hphase hcheck hwal =>
    have hset : (s.setPhase n .placing).Draining :=
      h.setPhase hq (.inl (by rw [hphase]; trivial)) nofun
    exact hset.congr rfl rfl rfl (hwalSlots hwal)
  | @place n k q wal hq hphase hk hwal =>
    have hset : (s.setPhase n (.durable (s.wal.ackFor q.record))).Draining := by
      refine h.setPhase hq (.inl (by rw [hphase]; trivial)) ?_
      rintro id ⟨⟩
      refine .inr fun m hdrain => ?_
      obtain ⟨⟨q', -, hslot⟩, -⟩ := h.placed m _ hdrain
      exact (ackFor_fresh hpaired.senders hpaired.inv hk hwal _ hslot).2 rfl
    exact hset.congr rfl rfl rfl (hwalSlots hwal)
  | @queue n q hq hphase =>
    have hset : (s.setPhase n .queued).Draining :=
      h.setPhase hq (.inl (by rw [hphase]; trivial)) nofun
    refine ⟨fun m hm hmem => ?_, hset.left, hset.record, hset.placed, hset.running⟩
    rcases mem_append.mp hmem with hmem | hmem
    · have hhead := h.head m hm hmem
      obtain ⟨ns, hns⟩ : ∃ ns, s.backoff = m :: ns := head?_eq_some_iff.mp hhead
      rw [hns]
      rfl
    · -- A request that is pushed has not been in the queue before.
      rw [mem_singleton.mp hmem] at hm
      obtain ⟨q', hq', hout⟩ := h.left n hm
      cases hq.symm.trans hq'
      exact absurd (by rw [hphase]; trivial) hout
  | drain hmove =>
    cases hmove with
    | start => exact .rest (.inr rfl)
    | stop => exact .rest (.inl rfl)
    | @peek n ns q hdrain hbackoff hq =>
      obtain ⟨q', hq', hphase⟩ := hqueue.queued n (by simp [hbackoff])
      cases hq.symm.trans hq'
      refine ⟨?_, ?_, ?_, nofun, nofun⟩
      · rintro m ⟨⟩ -
        rw [hbackoff]
        rfl
      · rintro m ⟨⟩
        exact ⟨q, hq, by rw [hphase]; exact id⟩
      · rintro m r ⟨⟩
        exact ⟨q, hq, rfl⟩
    | permit hdrain =>
      exact h.next (by rw [hdrain]; rfl) (by rw [hdrain]; exact fun _ => id) nofun nofun
    | fail hdrain => exact h.next (by rw [hdrain]; rfl) nofun nofun nofun
  | drainAccept hdrain =>
    exact h.next (by rw [hdrain]; rfl) (by rw [hdrain]; exact fun _ => id) nofun nofun
  | @drainPlace n k r wal hdrain hk hwal =>
    refine h.next (by rw [hdrain]; rfl) nofun ?_ nofun
    rintro m id ⟨⟩
    obtain ⟨q, hq, rfl⟩ := h.record n r (by rw [hdrain]; rfl)
    have hfresh := ackFor_fresh hpaired.senders hpaired.inv hk hwal
    refine ⟨⟨q, hq, ?_⟩, hpaired.fresh fun x hx => (hfresh x hx).2⟩
    rw [slots_place hk hwal]
    exact mem_append_right _ (mem_singleton_self _)
  | pop => exact .rest (.inr rfl)
  | @panic n outcome hdrain hempty =>
    have hrequest : s.drain.request? = some n := by rw [hdrain]; rfl
    exact absurd (hG n hrequest) (by simp [hempty])
  | @answer n q pending result hq hanswer =>
    have hset : (s.setPhase n (.answered pending result)).Draining := by
      refine h.setPhase hq (.inr id) fun id hid => .inl ?_
      cases hanswer with
      | confirmed hphase | refused hphase => rw [hphase]; exact hid
      | failed => cases hid
    exact hset.congr rfl rfl rfl fun _ hx => hx
  | shutdownDrain =>
    have hempty : Draining { s with backoff := [] } :=
      ⟨nofun, h.left, h.record, h.placed, h.running⟩
    refine answerShutdown_induction hempty hqueue.nodup hqueue.queued ?_
    intro s n q reason h hq hphase
    have hset : (s.setPhase n (.answered none (.error (.unexpected reason)))).Draining :=
      h.setPhase hq (.inr id) nofun
    exact hset.congr rfl rfl rfl fun _ hx => hx
  | wal hown hwal => exact h.congr rfl rfl rfl (hwalSlots hwal)
  | _ => exact h.congr rfl rfl rfl fun _ hx => hx

theorem Paired.new (config : S3StorageConfig) (walConfig : WalConfig) :
    (StorageInner.new config walConfig).Paired where
  inv := Pipeline.Inv.new walConfig
  senders := Pipeline.Senders.new walConfig
  placed := by simp [StorageInner.new]
  distinct := by simp [StorageInner.new]
  confirmed := by simp [StorageInner.new]

theorem Draining.new (config : S3StorageConfig) (walConfig : WalConfig) :
    (new config walConfig).Draining := .rest (.inl rfl)

/-- **An append is answered by its own acknowledgement**, as long as no shutdown empties the queue
between the look of the drain task at its head and the pop. A request that is answered Ok waited
for the acknowledgement of its own record, which the WAL confirmed, and no other request waited
for that one; every request is answered at most once; and the drain task never panics. -/
theorem ack_of_own_record {config : S3StorageConfig} {walConfig : WalConfig} {as : List Action}
    (hG : Guarded step PopsOwn (StorageInner.new config walConfig) as)
    (h : run step (StorageInner.new config walConfig) as = some s) :
    (∀ n, (n, .ok ()) ∈ s.answers → ∃ q id, s.requests[n]? = some q ∧
      q.phase.pending? = some id ∧
      (∃ x ∈ s.wal.acks.take s.delivered, x.id = id ∧ x.record = q.record ∧
        ∃ res, x.result = .ok res) ∧
      ∀ m q', s.requests[m]? = some q' → q'.phase.pending? = some id → m = n) ∧
    (s.answers.map Prod.fst).Nodup ∧ s.drain ≠ .panicked := by
  obtain ⟨hqueue, hpaired, hdraining⟩ : s.Queue ∧ s.Paired ∧ s.Draining := by
    refine run_invariant_of_guarded
      (I := fun s => s.Queue ∧ s.Paired ∧ s.Draining) ?_
      ⟨.new config walConfig, .new config walConfig, .new config walConfig⟩ hG h
    rintro s a s' ⟨hqueue, hpaired, hdraining⟩ hGa hstep
    exact ⟨hqueue.step hstep, hpaired.step hqueue hdraining hGa hstep,
      hdraining.step hqueue hpaired hGa hstep⟩
  refine ⟨fun n hn => ?_, hqueue.answers, hdraining.running⟩
  obtain ⟨q, pending, hq, hphase⟩ := hqueue.answered _ hn
  obtain ⟨x, hx, rfl, hrecord, hok⟩ := hpaired.confirmed_own hq hphase
  have hpending : q.phase.pending? = some x.id := by rw [hphase]; rfl
  exact ⟨q, x.id, hq, hpending, ⟨x, hx, rfl, hrecord, hok⟩, fun m q' hq' hid' =>
    hpaired.distinct m n q' q x.id hq' hq hid' hpending⟩

/-- A WAL that takes one record at a time. -/
def tightConfig : WalConfig := { WalConfig.defaults with maxUnflushedBytes := 0 }

/-- The WAL uploads, acknowledges and delivers its `seq`-th bulk, which has one record. -/
def confirmBulk (seq : Nat) : List Action :=
  [.wal .flush, .wal .tryUpload, .wal (.uploadStart seq), .wal (.putLand seq),
    .wal (.putReturn seq true), .wal .recv, .wal (.verify .held), .wal .loadFenced,
    .wal .completeBulk, .wal .completeBulk, .deliver, .wal (.resolve (seq, 0))]

/-- Request 0 is placed, request 1 is parked, and the drain task looks at request 1. -/
def parkedSchedule : List Action :=
  [.wal (.startVerify .held), .wal (.startList []), .submit ⟨1, 0, 0, 1, [1]⟩, .appendCheck 0,
    .appendPermit 0, .appendSubmit 0, .appendPlace 0 0, .submit ⟨2, 0, 0, 1, [2]⟩, .appendCheck 1,
    .appendPermit 1, .appendSubmit 1, .appendQueue 1] ++ confirmBulk 1 ++ [.answer 0, .drainStart,
    .drainPeek, .drainPermit]

/-- Behind the look, a shutdown empties the queue and request 2 is parked. -/
def crossedSchedule : List Action :=
  parkedSchedule ++ [.shutdownStart, .shutdownDrain, .drainSubmit, .drainPlace 0,
    .submit ⟨3, 0, 0, 1, [3]⟩, .appendCheck 2, .appendPermit 2, .appendSubmit 2, .appendQueue 2,
    .drainPop] ++ confirmBulk 2 ++ [.answer 2]

/-- Without a new request the pop finds the queue empty. -/
def emptiedSchedule : List Action :=
  parkedSchedule ++ [.shutdownStart, .shutdownDrain, .drainSubmit, .drainPlace 0, .drainPop]

/-- A shutdown between look and pop: a request is answered Ok whose record never reached the WAL,
or the drain task panics. -/
theorem shutdown_between_peek_and_pop :
    (∃ s, run step (StorageInner.new S3Storage.smallConfig tightConfig)
        crossedSchedule = some s ∧ (2, .ok ()) ∈ s.answers ∧
      ∃ q, s.requests[2]? = some q ∧ ∀ x ∈ s.wal.slots, x.2 ≠ q.record) ∧
    ∃ s, run step (StorageInner.new S3Storage.smallConfig tightConfig)
        emptiedSchedule = some s ∧ s.drain = .panicked := by
  decide +kernel

/-- The parked request is drained, confirmed and answered; then the storage is shut down. -/
def drainedSchedule : List Action :=
  parkedSchedule ++ [.drainSubmit, .drainPlace 0, .drainPop] ++ confirmBulk 2 ++
    [.answer 1, .shutdownStart, .shutdownDrain]

theorem ack_of_own_record_drained :
    ∃ s, run step (StorageInner.new S3Storage.smallConfig tightConfig)
        drainedSchedule = some s ∧ s.answers = [(0, .ok ()), (1, .ok ())] ∧
      (∀ n, (n, .ok ()) ∈ s.answers → ∃ q id, s.requests[n]? = some q ∧
        q.phase.pending? = some id ∧
        (∃ x ∈ s.wal.acks.take s.delivered, x.id = id ∧ x.record = q.record ∧
          ∃ res, x.result = .ok res) ∧
        ∀ m q', s.requests[m]? = some q' → q'.phase.pending? = some id → m = n) ∧
      (s.answers.map Prod.fst).Nodup ∧ s.drain ≠ .panicked :=
  exists_and (by decide +kernel) fun _ hs _ =>
    ack_of_own_record (by decide +kernel) hs

end StorageInner

end S3Stream
