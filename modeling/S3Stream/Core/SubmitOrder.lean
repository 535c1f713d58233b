import S3Stream.Core.AckPairing

/-! # Submit order is persistence order

When the `append0` calls of a stream do not overlap, no record is too large for the WAL and no
shutdown empties the backoff queue, the records of a stream reach the WAL in the order of their
requests: a request gets its place in the WAL only behind all earlier requests of its stream. -/

namespace S3Stream

open List StorageInner Table

/-- The request has been handed to the WAL or refused by it. -/
def RequestPhase.Left : RequestPhase → Prop
  | .durable _ | .failing _ | .answered .. => True
  | _ => False

/-- The request has passed the queue. -/
def RequestPhase.Passed : RequestPhase → Prop
  | .permitting | .submitting | .placing | .durable _ | .failing _ | .answered .. => True
  | _ => False

def RequestPhase.Refused : RequestPhase → Prop
  | .failing _ | .answered none _ => True
  | _ => False

theorem RequestPhase.left_or {p : RequestPhase} (hin : ¬p.InAppend0) (hqueued : p ≠ .queued) :
    p.Left := by
  cases p with
  | queued => exact absurd rfl hqueued
  | durable | failing | answered => trivial
  | _ => exact absurd trivial hin

theorem RequestPhase.Left.pending {p : RequestPhase} (h : p.Left) (hrefused : ¬p.Refused) :
    ∃ id, p.pending? = some id := by
  cases p with
  | durable id => exact ⟨id, rfl⟩
  | answered pending =>
    cases pending with
    | none => exact absurd trivial hrefused
    | some id => exact ⟨id, rfl⟩
  | failing => exact absurd trivial hrefused
  | _ => cases h

/-- A request that moves on stays ahead. -/
structure RequestPhase.Le (p p' : RequestPhase) : Prop where
  left : p.Left → p'.Left
  pending : ∀ id, p.pending? = some id → p'.pending? = some id
  out : ¬p.InAppend0 → ¬p'.InAppend0
  answered : ∀ pending result, p = .answered pending result → p' = .answered pending result

namespace StorageInner

/-- How a request moves on. -/
inductive PhaseMove (s : StorageInner) (n : Nat) (q : WalWriteRequest) : RequestPhase → Prop where
  | advance {p : RequestPhase} (hmove : Advance s q p) : PhaseMove s n q p
  | accept (hphase : q.phase = .submitting) (hcheck : s.wal.submitCheck q.record = .ok ()) :
    PhaseMove s n q .placing
  | place {k : Nat} {wal : Writer} (hphase : q.phase = .placing)
      (hk : s.wal.admitted[k]? = some ⟨q.record, none⟩) (hwal : s.wal.step (.place k) = some wal) :
    PhaseMove s n q (.durable (s.wal.ackFor q.record))
  | queue (hphase : q.phase = .requeueing) : PhaseMove s n q .queued
  | pop {k : Nat} {outcome : Except WalError AckId} {ns : List Nat}
      (hdrain : s.drain = .popping k outcome) (hbackoff : s.backoff = n :: ns) :
    PhaseMove s n q (afterPop outcome)
  | answer {pending : Option AckId} {result : Except StreamError Unit}
      (hanswer : Answers s q pending result) : PhaseMove s n q (.answered pending result)

variable {s s' : StorageInner} {a : Action} {i j n : Nat} {q : WalWriteRequest}
  {p p' : RequestPhase}

theorem PhaseMove.le (h : PhaseMove s n q p) (hqueue : s.Queue)
    (hq : s.requests[n]? = some q) : q.phase.Le p := by
  cases h with
  | accept hphase | place hphase | queue hphase =>
    rw [hphase]
    exact ⟨nofun, nofun, fun hout => absurd trivial hout, nofun⟩
  | @pop k outcome ns hdrain hbackoff =>
    obtain ⟨q', hq', hphase⟩ := hqueue.queued n (by simp [hbackoff])
    cases hq.symm.trans hq'
    rw [hphase]
    refine ⟨nofun, nofun, fun _ => ?_, nofun⟩
    cases outcome <;> exact id
  | answer hanswer =>
    cases hanswer with
    | confirmed hphase | refused hphase | failed hphase =>
      rw [hphase]
      exact ⟨fun _ => trivial, fun _ hid => hid, fun _ => id, nofun⟩
  | advance hmove =>
    have hin := hmove.inAppend0
    refine ⟨fun hleft => ?_, fun id hid => ?_, fun hout => absurd hin hout,
      fun pending result hp => absurd hp (hin.not_left.2 pending result)⟩
    · cases hp : q.phase <;> simp_all [RequestPhase.InAppend0, RequestPhase.Left]
    · cases hp : q.phase <;> simp_all [RequestPhase.InAppend0, RequestPhase.pending?]

/-- The requests behind a step: a new one, or the old ones at their places. -/
theorem requests_step (hqueue : s.Queue) (ha : a ≠ .shutdownDrain) (hstep : s.step a = some s')
    (hq' : s'.requests[n]? = some q') :
    (∃ r, a = .submit r ∧ n = s.requests.length ∧ q' = ⟨r, .entered⟩) ∨
      ∃ q, s.requests[n]? = some q ∧ q'.record = q.record ∧
        (q'.phase = q.phase ∨ PhaseMove s n q q'.phase) := by
  have hset : ∀ {m q₀ phase}, s.requests[m]? = some q₀ → PhaseMove s m q₀ phase →
      (s.setPhase m phase).requests[n]? = some q' → ∃ q, s.requests[n]? = some q ∧
        q'.record = q.record ∧ (q'.phase = q.phase ∨ PhaseMove s n q q'.phase) := by
    intro m q₀ phase hq₀ hmove hq'
    rcases of_getElem?_setPhase hq₀ hq' with ⟨rfl, rfl⟩ | ⟨-, hq'⟩
    · exact ⟨q₀, hq₀, rfl, .inr hmove⟩
    · exact ⟨q', hq', rfl, .inl rfl⟩
  cases effect_of_step hstep with
  | @submit r =>
    rcases of_getElem?_concat hq' with hq' | ⟨hn, rfl⟩
    · exact .inr ⟨q', hq', rfl, .inl rfl⟩
    · exact .inl ⟨r, rfl, hn, rfl⟩
  | advance hq hmove => exact .inr (hset hq (.advance hmove) hq')
  | accept hq hphase hcheck => exact .inr (hset hq (.accept hphase hcheck) hq')
  | place hq hphase hk hwal => exact .inr (hset hq (.place hphase hk hwal) hq')
  | queue hq hphase => exact .inr (hset hq (.queue hphase) hq')
  | @pop k m outcome ns hdrain hbackoff =>
    obtain ⟨q, hq, -⟩ := hqueue.queued m (by simp [hbackoff])
    exact .inr (hset hq (.pop hdrain hbackoff) hq')
  | answer hq hanswer => exact .inr (hset hq (.answer hanswer) hq')
  | shutdownDrain => exact absurd rfl ha
  | _ => exact .inr ⟨q', hq', rfl, .inl rfl⟩

theorem requests_submit (hstep : s.step (.submit r) = some s') :
    s'.requests = s.requests ++ [⟨r, .entered⟩] := by
  simp only [step, submit] at hstep
  split at hstep <;> cases hstep
  rfl

theorem records_step (hstep : s.step a = some s') (ha : a ≠ .shutdownDrain) :
    s'.requests.map WalWriteRequest.record = s.requests.map WalWriteRequest.record ∨
      ∃ r, a = .submit r ∧ s'.requests = s.requests ++ [⟨r, .entered⟩] := by
  cases effect_of_step hstep with
  | submit => exact .inr ⟨_, rfl, rfl⟩
  | advance | accept | place | queue | pop | answer =>
    exact .inl (map_modify _ fun _ => rfl)
  | shutdownDrain => exact absurd rfl ha
  | _ => exact .inl rfl

theorem requests_persist (hstep : s.step a = some s') (hqueue : s.Queue)
    (ha : a ≠ .shutdownDrain) (hq : s.requests[n]? = some q) :
    ∃ q', s'.requests[n]? = some q' ∧ q'.record = q.record ∧ q.phase.Le q'.phase := by
  have hlen : s.requests.length ≤ s'.requests.length := by
    cases effect_of_step hstep with
    | submit => simp
    | shutdownDrain => exact absurd rfl ha
    | advance | accept | place | queue | pop | answer =>
      simp [setPhase, answerWith]
    | _ => exact le_rfl
  have hn := of_getElem?_eq_some hq
  obtain ⟨q', hq'⟩ : ∃ q', s'.requests[n]? = some q' :=
    ⟨_, getElem?_eq_getElem (lt_of_lt_of_le hn hlen)⟩
  refine ⟨q', hq', ?_⟩
  rcases requests_step hqueue ha hstep hq' with ⟨r, -, heq, -⟩ | ⟨q₀, hq₀, hrecord, hmove⟩
  · omega
  · cases hq.symm.trans hq₀
    refine ⟨hrecord, ?_⟩
    rcases hmove with heq | hmove
    · rw [heq]
      exact ⟨id, fun _ => id, id, fun _ _ => id⟩
    · exact hmove.le hqueue hq

theorem answerShutdown_frame (g : StorageInner → β) (hg : ∀ (s : StorageInner) requests answers,
      g { s with requests := requests, answers := answers } = g s) (ns : List Nat) :
    g (s.answerShutdown ns) = g s := by
  induction ns generalizing s with
  | nil => rfl
  | cons n ns ih =>
    rw [answerShutdown, ih]
    exact hg s _ _

theorem wal_step (hstep : s.step a = some s') :
    s'.wal = s.wal ∨ ∃ b, s.wal.step b = some s'.wal := by
  cases effect_of_step hstep with
  | accept _ _ _ hwal | place _ _ _ hwal | drainAccept _ _ hwal | drainPlace _ _ hwal
  | wal _ hwal => exact .inr ⟨_, hwal⟩
  | shutdownDrain => exact .inl (answerShutdown_frame wal (fun _ _ _ => rfl) _)
  | _ => exact .inl rfl

theorem dead_step (hstep : s.step a = some s') (hd : s.wal.Dead) : s'.wal.Dead := by
  rcases wal_step hstep with heq | ⟨b, hwal⟩
  · rw [heq]; exact hd
  · exact hd.step hwal

theorem drain_step (hstep : s.step a = some s') (hn : s'.drain.request? = some n) :
    s.drain.request? = some n ∨ ∃ ns, s.backoff = n :: ns := by
  cases effect_of_step hstep with
  | drain hmove =>
    cases hmove with
    | start | stop => cases hn
    | peek hdrain hbackoff => cases hn; exact .inr ⟨_, hbackoff⟩
    | permit hdrain | fail hdrain => rw [hdrain]; exact .inl hn
  | drainAccept hdrain | drainPlace hdrain => rw [hdrain]; exact .inl hn
  | pop | panic => cases hn
  | shutdownDrain =>
    rw [answerShutdown_frame drain fun _ _ _ => rfl] at hn
    exact .inl hn
  | _ => exact .inl hn

/-- The request whose record the drain task holds is queued. -/
def Held (s : StorageInner) : Prop := ∀ n, s.drain.request? = some n → n ∈ s.backoff

theorem Held.popsOwn (h : s.Held) : s.PopsOwn a := by
  cases a with
  | drainPop => exact h
  | _ => trivial

/-- Only a shutdown takes a request out of the queue behind the back of the drain task. -/
theorem Held.step (h : s.Held) (ha : a ≠ .shutdownDrain) (hstep : s.step a = some s') :
    s'.Held := by
  intro n hn
  have hmem : n ∈ s.backoff := by
    rcases drain_step hstep hn with hn | ⟨ns, hns⟩
    · exact h n hn
    · rw [hns]; exact mem_cons_self
  cases effect_of_step hstep with
  | queue => exact mem_append_left _ hmem
  | pop => cases hn
  | shutdownDrain => exact absurd rfl ha
  | _ => exact hmem

/-- The steps of streams that append one record after another: the `append0` calls of a stream do
not overlap, and no shutdown empties the queue. -/
def TakesTurns (s : StorageInner) : Action → Prop
  | .submit r => ∀ q ∈ s.requests, q.record.streamId = r.streamId → ¬q.phase.InAppend0
  | .shutdownDrain => False
  | _ => True

theorem TakesTurns.ne (hG : s.TakesTurns a) : a ≠ .shutdownDrain := by
  rintro rfl
  exact hG

/-- Request `i` is an earlier one of the stream of request `j`. -/
def Before (s : StorageInner) (i j : Nat) (p q : WalWriteRequest) : Prop :=
  i < j ∧ s.requests[i]? = some p ∧ s.requests[j]? = some q ∧
    p.record.streamId = q.record.streamId

/-- The requests of a stream wait in line. -/
structure InLine (s : StorageInner) : Prop where
  alone : ∀ i j p q, s.Before i j p q → ¬p.phase.InAppend0
  queued : ∀ (n : Nat) q, s.requests[n]? = some q → q.phase = .queued → n ∈ s.backoff
  queue : s.backoff.Pairwise fun i j => ∀ p q, ¬s.Before j i p q
  held : s.Held
  left : ∀ i j p q, s.Before i j p q → q.phase.Passed ∨ s.drain.request? = some j → p.phase.Left

/-- The pairs behind a step come from pairs before it, the later request being maybe new. -/
theorem before_step (hqueue : s.Queue) (ha : a ≠ .shutdownDrain) (hstep : s.step a = some s')
    {p' : WalWriteRequest} (h : s'.Before i j p' q') :
    ∃ p, s.requests[i]? = some p ∧ p'.record = p.record ∧ p.phase.Le p'.phase ∧
      ((∃ r, a = .submit r ∧ j = s.requests.length ∧ q' = ⟨r, .entered⟩ ∧
          p.record.streamId = r.streamId) ∨
        ∃ q, s.Before i j p q ∧ (q'.phase = q.phase ∨ PhaseMove s j q q'.phase)) := by
  obtain ⟨hlt, hp', hq', hstream⟩ := h
  have hi : i < s.requests.length := by
    rcases requests_step hqueue ha hstep hq' with ⟨r, -, rfl, -⟩ | ⟨q, hq, -⟩
    · exact hlt
    · exact hlt.trans (List.getElem_of_getElem? hq).1
  obtain ⟨p'', hp'', hrecord, hle⟩ := requests_persist hstep hqueue ha (getElem?_eq_getElem hi)
  cases hp'.symm.trans hp''
  refine ⟨_, getElem?_eq_getElem hi, hrecord, hle, ?_⟩
  rcases requests_step hqueue ha hstep hq' with ⟨r, har, hj, rfl⟩ | ⟨q, hq, hqr, hmove⟩
  · exact .inl ⟨r, har, hj, rfl, by rw [← hrecord]; exact hstream⟩
  · refine .inr ⟨q, ⟨hlt, getElem?_eq_getElem hi, hq, ?_⟩, hmove⟩
    rw [← hrecord, ← hqr]
    exact hstream

theorem request?_submit (hdraining : s.Draining) (hstep : s.step (.submit r) = some s') :
    s'.drain.request? ≠ some s.requests.length := by
  simp only [step, submit] at hstep
  split at hstep <;> cases hstep
  intro hn
  obtain ⟨q, hq, -⟩ := hdraining.left _ hn
  exact absurd (List.getElem_of_getElem? hq).1 (lt_irrefl _)

namespace InLine

section Step

variable (h : s.InLine) (hqueue : s.Queue) (hG : s.TakesTurns a) (hstep : s.step a = some s')

include h hqueue hG hstep

theorem alone_step : ∀ i j p q, s'.Before i j p q → ¬p.phase.InAppend0 := by
  intro i j p' q' hbefore
  obtain ⟨p, hp, -, hle, hcase⟩ := before_step hqueue hG.ne hstep hbefore
  refine hle.out ?_
  rcases hcase with ⟨r, rfl, -, -, hstream⟩ | ⟨q, hold, -⟩
  · exact hG p (mem_of_getElem? hp) hstream
  · exact h.alone i j p q hold

theorem queued_step :
    ∀ (n : Nat) q, s'.requests[n]? = some q → q.phase = .queued → n ∈ s'.backoff := by
  intro n q' hq' hphase
  have hset : ∀ {m q₀ phase}, s.requests[m]? = some q₀ →
      (s.setPhase m phase).requests[n]? = some q' → phase ≠ .queued → n ∈ s.backoff ∧ n ≠ m := by
    intro m q₀ phase hq₀ hq' hne
    rcases of_getElem?_setPhase hq₀ hq' with ⟨rfl, rfl⟩ | ⟨hnm, hq'⟩
    · exact absurd hphase hne
    · exact ⟨h.queued n q' hq' hphase, hnm⟩
  cases effect_of_step hstep with
  | submit =>
    rcases of_getElem?_concat hq' with hq' | ⟨-, rfl⟩
    · exact h.queued n q' hq' hphase
    · cases hphase
  | advance hq hmove => exact (hset hq hq' (by cases hmove <;> nofun)).1
  | accept hq | place hq | answer hq => exact (hset hq hq' nofun).1
  | @queue m q hq =>
    rcases of_getElem?_setPhase hq hq' with ⟨rfl, rfl⟩ | ⟨-, hq'⟩
    · exact mem_append_right _ (mem_singleton_self n)
    · exact mem_append_left _ (h.queued n q' hq' hphase)
  | @pop k m outcome ns hdrain hbackoff =>
    obtain ⟨q, hq, -⟩ := hqueue.queued m (by simp [hbackoff])
    obtain ⟨hmem, hne⟩ := hset hq hq' (by cases outcome <;> nofun)
    rw [hbackoff, mem_cons] at hmem
    exact hmem.resolve_left hne
  | shutdownDrain => exact absurd rfl hG.ne
  | _ => exact h.queued n q' hq' hphase

theorem queue_step : s'.backoff.Pairwise fun i j => ∀ p q, ¬s'.Before j i p q := by
  have hold : s.backoff.Pairwise fun i j => ∀ p q, ¬s'.Before j i p q := by
    refine h.queue.imp_of_mem fun {i j} hi hj hnot p' q' hbefore => ?_
    obtain ⟨p, hp, -, -, hcase⟩ := before_step hqueue hG.ne hstep hbefore
    rcases hcase with ⟨r, -, rfl, -⟩ | ⟨q, hold, -⟩
    · obtain ⟨q, hq, -⟩ := hqueue.queued _ hi
      exact absurd (List.getElem_of_getElem? hq).1 (lt_irrefl _)
    · exact hnot p q hold
  cases effect_of_step hstep with
  | @queue n q hq hphase =>
    refine pairwise_append.mpr ⟨hold, pairwise_singleton _ _, ?_⟩
    intro m hm n' hn' p' q' hbefore
    rw [mem_singleton.mp hn'] at hbefore
    -- A request that is pushed is inside `append0`, so it is the last one of its stream.
    obtain ⟨p, hp, -, -, hcase⟩ := before_step hqueue hG.ne hstep hbefore
    rcases hcase with ⟨r, har, -⟩ | ⟨q₀, hold, -⟩
    · cases har
    · cases hq.symm.trans hp
      exact h.alone n m q q₀ hold (by rw [hphase]; trivial)
  | pop hdrain hbackoff => exact (pairwise_cons.mp (hbackoff ▸ hold)).2
  | shutdownDrain => exact absurd rfl hG.ne
  | _ => exact hold

omit hqueue hG hstep in
theorem pop_own (hdraining : s.Draining) (hdrain : s.drain = .popping k outcome)
    (hbackoff : s.backoff = n :: ns) : s.drain = .popping n outcome := by
  obtain rfl : n = k := hdraining.pop_own h.held.popsOwn hdrain hbackoff
  exact hdrain

theorem left_step (hdraining : s.Draining) : ∀ i j p q, s'.Before i j p q →
    q.phase.Passed ∨ s'.drain.request? = some j → p.phase.Left := by
  intro i j p' q' hbefore hj
  obtain ⟨p, hp, -, hle, hcase⟩ := before_step hqueue hG.ne hstep hbefore
  refine hle.left ?_
  rcases hcase with ⟨r, rfl, rfl, rfl, -⟩ | ⟨q, hold, hmove⟩
  · exact absurd (hj.resolve_left id) (request?_submit hdraining hstep)
  have hout := h.alone i j p q hold
  rcases hj with hpassed | hn
  · rcases hmove with heq | hmove
    · exact h.left i j p q hold (.inl (heq ▸ hpassed))
    generalize q'.phase = phase at hmove hpassed
    have hphase : ∀ {phase}, q.phase = phase → phase.Passed → p.phase.Left :=
      fun heq hpassed => h.left i j p q hold (.inl (heq ▸ hpassed))
    cases hmove with
    | advance hmove =>
      cases hmove with
      | permit _ hempty =>
        refine RequestPhase.left_or hout fun hqueued => ?_
        have hmem := h.queued i p hp hqueued
        rw [hempty] at hmem
        cases hmem
      | park => cases hpassed
      | submit heq | fail heq => exact hphase heq trivial
    | accept heq | place heq => exact hphase heq trivial
    | queue => cases hpassed
    | pop hdrain hbackoff =>
      have hdrain := h.pop_own hdraining hdrain hbackoff
      exact h.left i j p q hold (.inr (by rw [hdrain]; rfl))
    | answer hanswer =>
      cases hanswer with
      | confirmed heq | refused heq | failed heq => exact hphase heq trivial
  · rcases drain_step hstep hn with hn | ⟨ns, hns⟩
    · exact h.left i j p q hold (.inr hn)
    · -- The head of the queue is the first of its stream in the queue.
      refine RequestPhase.left_or hout fun hqueued => ?_
      have hmem := h.queued i p hp hqueued
      rw [hns, mem_cons] at hmem
      have hhead := pairwise_cons.mp (hns ▸ h.queue)
      exact hhead.1 i (hmem.resolve_left hold.1.ne) p q hold

theorem step (hdraining : s.Draining) : s'.InLine where
  alone := h.alone_step hqueue hG hstep
  queued := h.queued_step hqueue hG hstep
  queue := h.queue_step hqueue hG hstep
  held := h.held.step hG.ne hstep
  left := h.left_step hqueue hG hstep hdraining

end Step

theorem new (config : S3StorageConfig) (walConfig : WalConfig) :
    (StorageInner.new config walConfig).InLine := by
  constructor <;> simp [StorageInner.new, Before, Held, DrainPhase.request?]

end InLine

/-- The steps that keep stream order: the `append0` calls of a stream do not overlap, the WAL was
started, no record is too large for it, and no shutdown empties the queue. -/
def InOrder (s : StorageInner) : Action → Prop
  | .submit r => s.wal.start = .returned ∧ framedSize r ≤ dataFileAlignSize ∧
      ∀ q ∈ s.requests, q.record.streamId = r.streamId → ¬q.phase.InAppend0
  | .shutdownDrain => False
  | _ => True

/-- The records of a stream reach the WAL in the order of their requests. -/
structure Ordered (s : StorageInner) : Prop extends s.InLine where
  started : s.requests ≠ [] → s.wal.start = .returned
  fits : ∀ q ∈ s.requests, framedSize q.record ≤ dataFileAlignSize
  refused : ∀ q ∈ s.requests, q.phase.Refused → s.wal.Dead
  popping : ∀ n e, s.drain = .popping n (.error e) → s.wal.Dead
  placing : ∀ i j p q, s.Before i j p q → q.phase = .placing ∨ (∃ r, s.drain = .placing j r) →
    ∃ id, p.phase.pending? = some id
  placed : ∀ i j p q id, s.Before i j p q →
    q.phase.pending? = some id ∨ s.drain = .popping j (.ok id) →
    ∃ id', p.phase.pending? = some id' ∧ id'.1 ≤ id.1

theorem InOrder.ne (hG : s.InOrder a) : a ≠ .shutdownDrain := by
  rintro rfl
  exact hG

theorem InOrder.takesTurns (hG : s.InOrder a) : s.TakesTurns a := by
  cases a with
  | submit => exact hG.2.2
  | shutdownDrain => exact hG
  | _ => trivial

namespace Ordered

section Step

variable (h : s.Ordered) (hG : s.InOrder a) (hstep : s.step a = some s')

include h hG hstep

theorem started_step : s'.requests ≠ [] → s'.wal.start = .returned := by
  have hkeep : s.wal.start = .returned → s'.wal.start = .returned := by
    intro hret
    rcases wal_step hstep with heq | ⟨b, hwal⟩
    · rw [heq]; exact hret
    · exact (Writer.effect_of_step hwal).start_returned hret
  intro hne
  refine hkeep ?_
  by_cases hnil : s.requests = []
  · -- Only `submit` makes the first request.
    have hlen : s'.requests = [] ∨ ∃ r, a = .submit r := by
      cases effect_of_step hstep with
      | submit => exact .inr ⟨_, rfl⟩
      | shutdownDrain => exact absurd rfl hG.ne
      | advance | accept | place | queue | pop | answer =>
        exact .inl (by simp [setPhase, answerWith, hnil])
      | _ => exact .inl hnil
    obtain ⟨r, rfl⟩ := hlen.resolve_left hne
    exact hG.1
  · exact h.started hnil

theorem fits_step (hqueue : s.Queue) :
    ∀ q ∈ s'.requests, framedSize q.record ≤ dataFileAlignSize := by
  intro q' hq'
  obtain ⟨n, hn⟩ := mem_iff_getElem?.mp hq'
  rcases requests_step hqueue hG.ne hstep hn with ⟨r, rfl, -, rfl⟩ | ⟨q, hq, hrecord, -⟩
  · exact hG.2.1
  · rw [hrecord]
    exact h.fits q (mem_of_getElem? hq)

theorem refused_step (hqueue : s.Queue) :
    ∀ q ∈ s'.requests, q.phase.Refused → s'.wal.Dead := by
  intro q' hq' hrefused
  obtain ⟨n, hn⟩ := mem_iff_getElem?.mp hq'
  refine dead_step hstep ?_
  rcases requests_step hqueue hG.ne hstep hn with ⟨r, -, -, rfl⟩ | ⟨q, hq, -, hmove⟩
  · cases hrefused
  have hmem := mem_of_getElem? hq
  rcases hmove with heq | hmove
  · exact h.refused q hmem (heq ▸ hrefused)
  generalize q'.phase = p at hmove hrefused
  cases hmove with
  | advance hmove =>
    cases hmove with
    | fail hphase hcheck he =>
      exact Writer.dead_of_submitCheck (h.started (ne_nil_of_mem hmem)) (h.fits q hmem)
        hcheck he
    | _ => cases hrefused
  | @pop k outcome ns hdrain =>
    cases outcome with
    | error e => exact h.popping k e hdrain
    | ok => cases hrefused
  | answer hanswer =>
    cases hanswer with
    | failed hphase => exact h.refused q hmem (by rw [hphase]; trivial)
    | _ => cases hrefused
  | _ => cases hrefused

theorem popping_step (hdraining : s.Draining) :
    ∀ n e, s'.drain = .popping n (.error e) → s'.wal.Dead := by
  intro n e hdrain'
  refine dead_step hstep ?_
  cases effect_of_step hstep with
  | drain hmove =>
    cases hmove with
    | fail hdrain hcheck he =>
      obtain ⟨q, hq, rfl⟩ := hdraining.record _ _ (by rw [hdrain]; rfl)
      have hmem := mem_of_getElem? hq
      exact Writer.dead_of_submitCheck (h.started (ne_nil_of_mem hmem)) (h.fits q hmem)
        hcheck he
    | _ => cases hdrain'
  | drainAccept | drainPlace | pop | panic => cases hdrain'
  | shutdownDrain => exact absurd rfl hG.ne
  | _ => exact h.popping n e hdrain'

omit hG hstep in
/-- An earlier request that has left `append0` is in the WAL if the WAL still takes records. -/
theorem pending_of_check {p : WalWriteRequest} (hp : s.requests[i]? = some p)
    (hleft : p.phase.Left) (hcheck : s.wal.submitCheck r = .ok ()) :
    ∃ id, p.phase.pending? = some id :=
  hleft.pending fun hrefused =>
    (h.refused p (mem_of_getElem? hp) hrefused).submitCheck r hcheck

theorem placing_step (hqueue : s.Queue) (hdraining : s.Draining) :
    ∀ i j p q, s'.Before i j p q →
      q.phase = .placing ∨ (∃ r, s'.drain = .placing j r) → ∃ id, p.phase.pending? = some id := by
  intro i j p' q' hbefore hj
  obtain ⟨p, hp, -, hle, hcase⟩ := before_step hqueue hG.ne hstep hbefore
  suffices hpending : ∃ id, p.phase.pending? = some id by
    obtain ⟨id, hid⟩ := hpending
    exact ⟨id, hle.pending id hid⟩
  rcases hcase with ⟨r, rfl, rfl, rfl, -⟩ | ⟨q, hold, hmove⟩
  · obtain ⟨r, hdrain'⟩ := hj.resolve_left nofun
    exact absurd (by rw [hdrain']; rfl) (request?_submit hdraining hstep)
  rcases hj with hphase' | ⟨r, hdrain'⟩
  · rcases hmove with heq | hmove
    · exact h.placing i j p q hold (.inl (heq.symm.trans hphase'))
    rw [hphase'] at hmove
    generalize hplacing : RequestPhase.placing = phase at hmove
    cases hmove with
    | advance hmove => cases hmove <;> cases hplacing
    | accept hphase hcheck =>
      exact h.pending_of_check hp (h.left i j p q hold (.inl (by rw [hphase]; trivial))) hcheck
    | @pop k outcome => cases outcome <;> cases hplacing
    | _ => cases hplacing
  · cases effect_of_step hstep with
    | drain hmove => cases hmove <;> cases hdrain'
    | drainAccept hdrain hcheck =>
      cases hdrain'
      exact h.pending_of_check hp (h.left i j p q hold (.inr (by rw [hdrain]; rfl))) hcheck
    | drainPlace | pop | panic => cases hdrain'
    | shutdownDrain => exact absurd rfl hG.ne
    | _ => exact h.placing i j p q hold (.inr ⟨r, hdrain'⟩)

theorem placed_step (hqueue : s.Queue) (hpaired : s.Paired) (hdraining : s.Draining) :
    ∀ i j p q id, s'.Before i j p q →
      q.phase.pending? = some id ∨ s'.drain = .popping j (.ok id) →
      ∃ id', p.phase.pending? = some id' ∧ id'.1 ≤ id.1 := by
  intro i j p' q' id hbefore hj
  obtain ⟨p, hp, -, hle, hcase⟩ := before_step hqueue hG.ne hstep hbefore
  suffices hpending : ∃ id', p.phase.pending? = some id' ∧ id'.1 ≤ id.1 by
    obtain ⟨id', hid', hseq⟩ := hpending
    exact ⟨id', hle.pending id' hid', hseq⟩
  rcases hcase with ⟨r, rfl, rfl, rfl, -⟩ | ⟨q, hold, hmove⟩
  · have hdrain' := hj.resolve_left nofun
    exact absurd (by rw [hdrain']; rfl) (request?_submit hdraining hstep)
  -- What is placed now gets a sender in the newest bulk.
  have hlast : ∀ {k wal r}, s.wal.admitted[k]? = some ⟨r, none⟩ → s.wal.step (.place k) = some wal →
      (∃ id', p.phase.pending? = some id') →
      ∃ id', p.phase.pending? = some id' ∧ id'.1 ≤ (s.wal.ackFor r).1 := by
    rintro k wal r hk hwal ⟨id', hid'⟩
    have hslot := hpaired.placed i p id' hp hid'
    exact ⟨id', hid', (Writer.ackFor_fresh hpaired.senders hpaired.inv hk hwal _ hslot).1⟩
  rcases hj with hid | hdrain'
  · rcases hmove with heq | hmove
    · exact h.placed i j p q id hold (.inl (heq ▸ hid))
    generalize q'.phase = phase at hmove hid
    cases hmove with
    | advance hmove => cases hmove <;> cases hid
    | accept | queue => cases hid
    | place hphase hk hwal =>
      cases hid
      exact hlast hk hwal (h.placing i j p q hold (.inl hphase))
    | @pop k outcome ns hdrain hbackoff =>
      cases outcome with
      | error => cases hid
      | ok =>
        cases hid
        exact h.placed i j p q id hold (.inr (h.pop_own hdraining hdrain hbackoff))
    | answer hanswer =>
      refine h.placed i j p q id hold (.inl ?_)
      cases hanswer with
      | confirmed heq | refused heq => rw [heq]; exact hid
      | failed => cases hid
  · cases effect_of_step hstep with
    | drain hmove => cases hmove <;> cases hdrain'
    | drainPlace hdrain hk hwal =>
      cases hdrain'
      exact hlast hk hwal (h.placing i j p q hold (.inr ⟨_, hdrain⟩))
    | drainAccept | pop | panic => cases hdrain'
    | shutdownDrain => exact absurd rfl hG.ne
    | _ => exact h.placed i j p q id hold (.inr hdrain')

theorem step (hqueue : s.Queue) (hpaired : s.Paired) (hdraining : s.Draining) : s'.Ordered where
  toInLine := h.toInLine.step hqueue hG.takesTurns hstep hdraining
  started := h.started_step hG hstep
  fits := h.fits_step hG hstep hqueue
  refused := h.refused_step hG hstep hqueue
  popping := h.popping_step hG hstep hdraining
  placing := h.placing_step hG hstep hqueue hdraining
  placed := h.placed_step hG hstep hqueue hpaired hdraining

end Step

theorem new (config : S3StorageConfig) (walConfig : WalConfig) :
    (StorageInner.new config walConfig).Ordered := by
  refine ⟨.new config walConfig, ?_, ?_, ?_, ?_, ?_, ?_⟩ <;> simp [StorageInner.new, Before]

/-- **Submit order is confirm order.** Before a request is answered Ok, every earlier request of
its stream with a smaller base offset was confirmed by the WAL and has passed the confirm hook. -/
theorem confirmed_before (h : s.Ordered) (hpaired : s.Paired) {p : WalWriteRequest}
    (hbefore : s.Before i j p q) (hbase : p.record.baseOffset < q.record.baseOffset)
    (hphase : q.phase = .answered pending (.ok ())) :
    ∃ x ∈ s.wal.acks.take s.delivered, x.record = p.record ∧ ∃ res, x.result = .ok res := by
  obtain ⟨-, hp, hq, hstream⟩ := id hbefore
  obtain ⟨y, hy, rfl, hrecord, res, hok⟩ := hpaired.confirmed_own hq hphase
  have hpending : q.phase.pending? = some y.id := by rw [hphase]; rfl
  obtain ⟨id', hid', hseq⟩ := h.placed i j p q y.id hbefore (.inl hpending)
  obtain ⟨l₁, l₂, hsplit⟩ := append_of_mem hy
  have hacks : s.wal.acks = l₁ ++ y :: (l₂ ++ s.wal.acks.drop s.delivered) := by
    rw [← cons_append, ← append_assoc, ← hsplit, take_append_drop]
  obtain ⟨x, hx, -, hxrecord, hxok⟩ := Pipeline.exists_ok_before hpaired.inv
    hpaired.senders hacks hok
    (hpaired.placed i p id' hp hid') hseq (hrecord ▸ hstream) (hrecord ▸ hbase)
  refine ⟨x, ?_, hxrecord, hxok⟩
  rw [hsplit]
  exact mem_append_left _ hx

end Ordered

end StorageInner

end S3Stream
