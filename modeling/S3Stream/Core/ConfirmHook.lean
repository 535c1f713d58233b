import S3Stream.Core.SubmitOrder
import S3Stream.Core.Barriers
import S3Stream.Wal.ConfirmChain

/-! # The confirm hook between the WAL and the pipeline

The acknowledgements of the WAL that were delivered, and the records the pipeline has seen, are
the same list; every user record in the WAL belongs to a request; and the pipeline never refuses
a confirmed record. -/

namespace S3Stream

open List StorageInner TransitionSystem

namespace S3Storage

variable {s s' : S3Storage} {a : Action}

theorem confirmed_of_step (hstep : s.step a = some s') (ha : ∀ r o, a ≠ .confirm r o) :
    s'.confirmed = s.confirmed := by
  cases effect_of_step hstep with
  | confirm => exact absurd rfl (ha _ _)
  | uploadDeltaWal | forceSeal => exact uploadDeltaWal_frame confirmed fun _ _ _ _ _ => rfl
  | commitTrim =>
    unfold S3Storage.delayTrim
    split <;> rfl
  | _ => rfl

theorem confirmed_of_confirm (hstep : s.step (.confirm r o) = some s') :
    ∃ block, s'.confirmed = s.confirmed ++ [⟨r, o, block⟩] := by
  simp only [step, confirm] at hstep
  split at hstep <;> cases hstep
  rw [confirmed_handleAppendConfirm, putOrSeal_frame confirmed fun _ _ _ _ _ => rfl]
  exact ⟨_, rfl⟩

/-- The last record offset of the cache is the one of the last confirmed record. -/
theorem lastRecordOffset_of_step (hstep : s.step a = some s') (ha : ∀ r o, a ≠ .confirm r o) :
    s'.logCache.lastRecordOffset = s.logCache.lastRecordOffset := by
  have hseal : ∀ {streamId force}, (s.uploadDeltaWal streamId force).logCache.lastRecordOffset =
      s.logCache.lastRecordOffset := by
    intro streamId force
    rw [uploadDeltaWal_eq]
    split <;> rfl
  cases effect_of_step hstep with
  | confirm => exact absurd rfl (ha _ _)
  | uploadDeltaWal | forceSeal => exact hseal
  | commitTrim =>
    unfold S3Storage.delayTrim
    split <;> rfl
  | @commitFree k t =>
    have hfront := LogCache.front_markFree s.logCache t.cache.blockId
    exact congrArg (fun f => f.2.1) hfront
  | _ => rfl

end S3Storage

/-- What the confirm hook sees of an acknowledgement. -/
def Ack.hooked? (x : Ack) : Option (StreamRecordBatch × RecordOffset) :=
  match x.result with
  | .ok res =>
    if x.record.streamId = trimRecordSentinel then none else some (x.record, res.recordOffset)
  | .error _ => none

namespace StorageInner

variable {s s' : StorageInner} {a : Action} {n : Nat} {q : WalWriteRequest}

theorem pipeline_step (hstep : s.step a = some s') :
    s'.pipeline = s.pipeline ∨ ∃ b, s.pipeline.step b = some s'.pipeline ∧
      ((a = .pipeline b ∧ ∀ r o, b ≠ .confirm r o) ∨
        ∃ x ∈ s.wal.acks, ∃ o, x.record.streamId ≠ trimRecordSentinel ∧
          b = .confirm x.record o) := by
  cases effect_of_step hstep with
  | confirm hx hok hstream hpipe =>
    exact .inr ⟨_, hpipe, .inr ⟨_, mem_of_getElem? hx, _, hstream, rfl⟩⟩
  | pipeline hconfirm hpipe => exact .inr ⟨_, hpipe, .inl ⟨rfl, hconfirm⟩⟩
  | shutdownDrain => exact .inl (answerShutdown_frame pipeline (fun _ _ _ => rfl) _)
  | _ => exact .inl rfl

/-- The pipeline has seen what was delivered. -/
structure Hooked (s : StorageInner) : Prop where
  bound : s.delivered ≤ s.wal.acks.length
  confirmed : s.pipeline.confirmed.map (fun c => (c.record, c.offset)) =
    (s.wal.acks.take s.delivered).filterMap Ack.hooked?
  last : ∀ o, s.pipeline.logCache.lastRecordOffset = some o →
    ∃ x ∈ s.wal.acks.take s.delivered, ∃ res, x.result = .ok res ∧ res.recordOffset = o

theorem Hooked.congr (h : s.Hooked) (hwal : s.wal.acks <+: s'.wal.acks)
    (hdelivered : s'.delivered = s.delivered)
    (hconfirmed : s'.pipeline.confirmed = s.pipeline.confirmed)
    (hlast : s'.pipeline.logCache.lastRecordOffset = s.pipeline.logCache.lastRecordOffset) :
    s'.Hooked := by
  obtain ⟨later, hlater⟩ := hwal
  have htake : s'.wal.acks.take s'.delivered = s.wal.acks.take s.delivered := by
    rw [← hlater, hdelivered, take_append_of_le_length h.bound]
  refine ⟨?_, ?_, ?_⟩
  · rw [hdelivered, ← hlater, length_append]
    exact h.bound.trans (Nat.le_add_right _ _)
  · rw [hconfirmed, htake]
    exact h.confirmed
  · rw [hlast, htake]
    exact h.last

theorem Hooked.step (h : s.Hooked) (hstep : s.step a = some s') : s'.Hooked := by
  have htake : ∀ {x}, s.wal.acks[s.delivered]? = some x → s.delivered + 1 ≤ s.wal.acks.length ∧
        s.wal.acks.take (s.delivered + 1) = s.wal.acks.take s.delivered ++ [x] := by
    intro x hx
    obtain ⟨hlt, heq⟩ := List.getElem?_eq_some_iff.mp hx
    exact ⟨hlt, by rw [← heq, take_append_getElem hlt]⟩
  cases effect_of_step hstep with
  | accept _ _ _ hwal | place _ _ _ hwal | drainAccept _ _ hwal | drainPlace _ _ hwal
  | wal _ hwal => exact h.congr (Writer.acks_step hwal) rfl rfl rfl
  | @skip x hx hskip =>
    obtain ⟨hlt, happ⟩ := htake hx
    have hnone : x.hooked? = none := by
      unfold Ack.hooked?
      split
      next res hok =>
        rcases hskip with ⟨e, he⟩ | hstream
        · cases hok.symm.trans he
        · exact if_pos hstream
      next => rfl
    refine ⟨hlt, ?_, fun o ho => ?_⟩
    · show _ = (s.wal.acks.take (s.delivered + 1)).filterMap Ack.hooked?
      rw [happ, filterMap_append, filterMap_cons_none hnone, filterMap_nil, append_nil]
      exact h.confirmed
    · obtain ⟨y, hy, hrest⟩ := h.last o ho
      exact ⟨y, take_subset_take_left _ (Nat.le_succ _) hy, hrest⟩
  | @confirm x res pipeline hx hok hstream hconfirm =>
    obtain ⟨hlt, happ⟩ := htake hx
    obtain ⟨block, hblock⟩ := S3Storage.confirmed_of_confirm hconfirm
    have hsome : x.hooked? = some (x.record, res.recordOffset) := by
      simp [Ack.hooked?, hok, hstream]
    refine ⟨hlt, ?_, fun o ho => ?_⟩
    · show pipeline.confirmed.map _ = (s.wal.acks.take (s.delivered + 1)).filterMap Ack.hooked?
      rw [happ, filterMap_append, filterMap_cons_some hsome, filterMap_nil, hblock,
        map_append, h.confirmed]
      rfl
    · refine ⟨x, ?_, res, hok, ?_⟩
      · show x ∈ s.wal.acks.take (s.delivered + 1)
        rw [happ]
        exact mem_append_right _ (mem_singleton_self x)
      · simp only [S3Storage.step, S3Storage.confirm] at hconfirm
        split at hconfirm <;> cases hconfirm
        exact Option.some.inj ho
  | pipeline hconfirm hpipe =>
    exact h.congr prefix_rfl rfl (S3Storage.confirmed_of_step hpipe hconfirm)
      (S3Storage.lastRecordOffset_of_step hpipe hconfirm)
  | shutdownDrain =>
    refine h.congr (S3Storage.prefix_of_eq ?_) ?_ ?_ ?_
    · exact answerShutdown_frame (fun s => s.wal.acks) (fun _ _ _ => rfl) _
    · exact answerShutdown_frame delivered (fun _ _ _ => rfl) _
    · exact answerShutdown_frame (fun s => s.pipeline.confirmed) (fun _ _ _ => rfl) _
    · exact answerShutdown_frame (fun s => s.pipeline.logCache.lastRecordOffset)
        (fun _ _ _ => rfl) _
  | _ => exact h.congr prefix_rfl rfl rfl rfl

theorem Hooked.new (config : S3StorageConfig) (walConfig : WalConfig) :
    (new config walConfig).Hooked :=
  ⟨Nat.zero_le _, rfl, nofun⟩

/-! ## User records in the WAL -/

/-- A request waits for the acknowledgement of the slot, or the drain task brings it. -/
def SlotOwned (s : StorageInner) (x : AckId × StreamRecordBatch) : Prop :=
  ∃ (n : Nat) (q : WalWriteRequest), s.requests[n]? = some q ∧ q.record = x.2 ∧
    (q.phase.pending? = some x.1 ∨ s.drain = .popping n (.ok x.1))

/-- Every user record in the WAL belongs to a request, and a request that was answered by the WAL
has seen its acknowledgement. -/
structure Own (s : StorageInner) : Prop where
  trims : ∀ d ∈ s.wal.admitted, d.trim.isSome → d.record.streamId = trimRecordSentinel
  slot : ∀ x ∈ s.wal.slots, x.2.streamId ≠ trimRecordSentinel → s.SlotOwned x
  answered : ∀ (n : Nat) q id result, s.requests[n]? = some q →
    q.phase = .answered (some id) result → ∃ x ∈ s.wal.acks.take s.delivered, x.id = id

theorem trims_step {w : Writer} (h : w.step b = some w')
    (htrims : ∀ d ∈ w.admitted, d.trim.isSome → d.record.streamId = trimRecordSentinel) :
    ∀ d ∈ w'.admitted, d.trim.isSome → d.record.streamId = trimRecordSentinel := by
  intro d hd htrim
  cases Writer.effect_of_step h with
  | submit =>
    exact forall_mem_append.mpr
      ⟨htrims, forall_mem_singleton.mpr fun hnone => by cases hnone⟩ d hd htrim
  | place => exact htrims d (mem_of_mem_eraseIdx hd) htrim
  | trimSubmit =>
    exact forall_mem_append.mpr ⟨htrims, forall_mem_singleton.mpr fun _ => rfl⟩ d hd htrim
  | _ => exact htrims d hd htrim

theorem mem_delivered_step (hstep : s.step a = some s') (hx : x ∈ s.wal.acks.take s.delivered) :
    x ∈ s'.wal.acks.take s'.delivered := by
  have hle : s.delivered ≤ s'.delivered := by
    cases effect_of_step hstep with
    | skip | confirm => exact Nat.le_succ _
    | shutdownDrain => rw [answerShutdown_frame delivered fun _ _ _ => rfl]
    | _ => exact le_rfl
  refine take_subset_take_left _ hle ?_
  rcases wal_step hstep with heq | ⟨b, hwal⟩
  · rw [heq]; exact hx
  · exact mem_take_acks_step hwal hx

section Step

variable (hqueue : s.Queue) (hdraining : s.Draining) (hheld : s.Held) (ha : a ≠ .shutdownDrain)
  (hstep : s.step a = some s')

include hqueue hdraining hheld ha hstep

theorem SlotOwned.step (h : s.SlotOwned x) : s'.SlotOwned x := by
  obtain ⟨n, q, hq, hrecord, hown⟩ := h
  obtain ⟨q', hq', hrecord', hle⟩ := requests_persist hstep hqueue ha hq
  rcases hown with hpending | hdrain
  · exact ⟨n, q', hq', hrecord'.trans hrecord, .inl (hle.pending _ hpending)⟩
  have hkeep : s'.drain = s.drain → s'.SlotOwned x :=
    fun heq => ⟨n, q', hq', hrecord'.trans hrecord, .inr (heq.trans hdrain)⟩
  cases effect_of_step hstep with
  | drain hmove =>
    exfalso
    cases hmove with
    | stop hstop =>
      rcases hstop with hstop | ⟨m, r, hstop | hstop⟩ <;> cases hdrain.symm.trans hstop
    | start hother | peek hother | permit hother | fail hother => cases hdrain.symm.trans hother
  | drainAccept hother | drainPlace hother => cases hdrain.symm.trans hother
  | @pop k m outcome ns hpop hbackoff =>
    -- The task pops the request and passes the acknowledgement on.
    obtain rfl : m = k := hdraining.pop_own hheld.popsOwn hpop hbackoff
    cases hdrain.symm.trans hpop
    exact ⟨n, _, (getElem?_setPhase hq).trans (if_pos rfl), hrecord, .inl rfl⟩
  | panic hpop hempty =>
    have hmem := hheld n (by rw [hdrain]; rfl)
    rw [hempty] at hmem
    cases hmem
  | shutdownDrain => exact absurd rfl ha
  | _ => exact hkeep rfl

theorem Own.slot_step (h : s.Own) (hpaired : s.Paired) :
    ∀ x ∈ s'.wal.slots, x.2.streamId ≠ trimRecordSentinel → s'.SlotOwned x := by
  intro x hx hstream
  have hold : x ∈ s.wal.slots → s'.SlotOwned x := fun hx =>
    (h.slot x hx hstream).step hqueue hdraining hheld ha hstep
  cases effect_of_step hstep with
  | accept _ _ _ hwal | drainAccept _ _ hwal =>
    refine hold ?_
    rcases Writer.slots_step hpaired.inv hwal with ⟨k, d, hb, -⟩ | hperm
    · cases hb
    · exact hperm.mem_iff.mp hx
  | @place n k q wal hq hphase hk hwal =>
    rw [show x ∈ wal.slots ↔ _ by rw [Writer.slots_place hk hwal, mem_append]] at hx
    rcases hx with hx | hx
    · exact hold hx
    · rw [mem_singleton.mp hx]
      exact ⟨n, _, (getElem?_setPhase hq).trans (if_pos rfl), rfl, .inl rfl⟩
  | @drainPlace n k r wal hdrain hk hwal =>
    rw [show x ∈ wal.slots ↔ _ by rw [Writer.slots_place hk hwal, mem_append]] at hx
    rcases hx with hx | hx
    · exact hold hx
    · obtain ⟨q, hq, rfl⟩ := hdraining.record n r (by rw [hdrain]; rfl)
      rw [mem_singleton.mp hx]
      exact ⟨n, q, hq, rfl, .inr rfl⟩
  | @wal b wal hown hwal =>
    rcases Writer.slots_step hpaired.inv hwal with ⟨k, d, rfl, hd, hslots⟩ | hperm
    · rw [show x ∈ wal.slots ↔ _ by rw [hslots, mem_append]] at hx
      rcases hx with hx | hx
      · exact hold hx
      · -- What the WAL places for itself is the record of a trim.
        rw [mem_singleton.mp hx] at hstream
        have htrim : d.trim.isSome = true := by simpa [walOwn, hd] using hown
        exact absurd (h.trims d (mem_of_getElem? hd) htrim) hstream
    · exact hold (hperm.mem_iff.mp hx)
  | shutdownDrain => exact absurd rfl ha
  | _ => exact hold hx

theorem Own.step (h : s.Own) (hpaired : s.Paired) : s'.Own := by
  refine ⟨?_, h.slot_step hqueue hdraining hheld ha hstep hpaired, ?_⟩
  · rcases wal_step hstep with heq | ⟨b, hwal⟩
    · rw [heq]; exact h.trims
    · exact trims_step hwal h.trims
  · intro n q' id result hq' hphase
    rcases requests_step hqueue ha hstep hq' with ⟨r, -, -, rfl⟩ | ⟨q, hq, -, hmove⟩
    · cases hphase
    suffices hx : ∃ x ∈ s.wal.acks.take s.delivered, x.id = id by
      obtain ⟨x, hx, hid⟩ := hx
      exact ⟨x, mem_delivered_step hstep hx, hid⟩
    rcases hmove with heq | hmove
    · exact h.answered n q id result hq (heq.symm.trans hphase)
    rw [hphase] at hmove
    generalize hanswered : RequestPhase.answered (some id) result = phase at hmove
    cases hmove with
    | advance hmove => cases hmove <;> cases hanswered
    | @pop k outcome => cases outcome <;> cases hanswered
    | answer hanswer =>
      cases hanswered
      cases hanswer with
      | confirmed _ hx hid | refused _ hx hid => exact ⟨_, hx, hid⟩
    | _ => cases hanswered

end Step

theorem Own.new (config : S3StorageConfig) (walConfig : WalConfig) :
    (StorageInner.new config walConfig).Own := by
  refine ⟨nofun, nofun, ?_⟩
  simp [StorageInner.new]

/-- The next acknowledgement is for a request that is not answered yet. -/
theorem Own.next_unanswered (h : s.Own) (hqueue : s.Queue) (hpaired : s.Paired) (hheld : s.Held)
    (hx : s.wal.acks[s.delivered]? = some x) (hstream : x.record.streamId ≠ trimRecordSentinel) :
    ∃ q ∈ s.requests, q.record = x.record ∧
      ∀ pending result, q.phase ≠ .answered pending result := by
  have hslot := hpaired.inv.mem_slots_of_ack (mem_of_getElem? hx)
  obtain ⟨n, q, hq, hrecord, hown⟩ := h.slot _ hslot hstream
  refine ⟨q, mem_of_getElem? hq, hrecord, fun pending result hphase => ?_⟩
  rcases hown with hpending | hdrain
  · rw [hphase] at hpending
    cases hpending
    obtain ⟨y, hy, hid⟩ := h.answered n q _ result hq hphase
    -- Its acknowledgement was delivered already, and there is only one.
    have hnodup := Pipeline.nodup_acks hpaired.inv hpaired.senders
    have hsplit : s.wal.acks = s.wal.acks.take s.delivered ++ x ::
        s.wal.acks.drop (s.delivered + 1) := by
      obtain ⟨hlt, heq⟩ := List.getElem?_eq_some_iff.mp hx
      rw [← heq, cons_getElem_drop_succ, take_append_drop]
    rw [hsplit, map_append, nodup_append] at hnodup
    exact hnodup.2.2 _ (mem_map_of_mem hy) _ (mem_map_of_mem mem_cons_self) hid
  · obtain ⟨q', hq', hqueued⟩ := hqueue.queued n (hheld n (by rw [hdrain]; rfl))
    cases hq.symm.trans hq'
    cases hphase.symm.trans hqueued

/-! ## The invariant of the storage -/

/-- What holds while no shutdown drains the queue. -/
structure Sound (s : StorageInner) : Prop where
  queue : s.Queue
  paired : s.Paired
  draining : s.Draining
  held : s.Held
  hooked : s.Hooked
  own : s.Own

theorem Sound.step (h : s.Sound) (ha : a ≠ .shutdownDrain) (hstep : s.step a = some s') :
    s'.Sound where
  queue := h.queue.step hstep
  paired := h.paired.step h.queue h.draining h.held.popsOwn hstep
  draining := h.draining.step h.queue h.paired h.held.popsOwn hstep
  held := h.held.step ha hstep
  hooked := h.hooked.step hstep
  own := h.own.step h.queue h.draining h.held ha hstep h.paired

theorem Sound.new (config : S3StorageConfig) (walConfig : WalConfig) :
    (new config walConfig).Sound :=
  ⟨.new config walConfig, .new config walConfig, .new config walConfig, nofun,
    .new config walConfig, .new config walConfig⟩

/-- **The confirm hook runs in WAL order**: until a shutdown drains the queue, the pipeline has seen
the confirmed records in the order of the WAL, and the next one has the greater offset that
`S3Storage.confirm` assumes. -/
theorem deliver_isSome {acts : List Action} (hacts : ∀ a ∈ acts, a ≠ .shutdownDrain)
    (hrun : run step (new config walConfig) acts = some s) :
    s.pipeline.confirmed.map (fun c => (c.record, c.offset)) =
        (s.wal.acks.take s.delivered).filterMap Ack.hooked? ∧
      (s.delivered < s.wal.acks.length → (s.step .deliver).isSome) := by
  have hsound : s.Sound := run_invariant_of_guarded
    (fun {_ a _} h (ha : a ≠ .shutdownDrain) hs => h.step ha hs) (.new ..)
    (guarded_of_forall hacts) hrun
  obtain ⟨-, hpaired, -, -, h, -⟩ := hsound
  refine ⟨h.confirmed, fun hlt => ?_⟩
  obtain ⟨x, hx⟩ : ∃ x, s.wal.acks[s.delivered]? = some x := ⟨_, getElem?_eq_getElem hlt⟩
  obtain ⟨id, record, result⟩ := x
  show (deliver s).isSome
  unfold deliver
  rw [hx]
  cases result with
  | error => rfl
  | ok res =>
    dsimp only
    split
    · rfl
    rw [Option.isSome_map]
    show (s.pipeline.confirm record res.recordOffset).isSome
    unfold S3Storage.confirm
    rw [if_pos]
    · rfl
    cases hlast : s.pipeline.logCache.lastRecordOffset with
    | none => rfl
    | some o =>
      obtain ⟨y, hy, res', hok, rfl⟩ := h.last o hlast
      have hpair := hpaired.inv.pairwise_rangeStart
      rw [← take_append_drop s.delivered s.wal.acks, pairwise_append] at hpair
      have hnext : ⟨id, record, .ok res⟩ ∈ s.wal.acks.drop s.delivered :=
        mem_of_getElem? (i := 0) (by rwa [getElem?_drop])
      simpa [Ack.rangeStart, hok] using hpair.2.2 y hy _ hnext ⟨res, rfl⟩

theorem deliver_isSome_parked : ∃ s, run step (new S3Storage.smallConfig tightConfig)
    (parkedSchedule.take 22) = some s ∧ s.delivered < s.wal.acks.length ∧
      (s.step .deliver).isSome :=
  exists_and (by decide +kernel) fun _ hs =>
    (deliver_isSome (by simp [parkedSchedule, confirmBulk]) hs).2

theorem Sound.request_of_ack (h : s.Sound) (hx : x ∈ s.wal.acks)
    (hstream : x.record.streamId ≠ trimRecordSentinel) : ∃ q ∈ s.requests, q.record = x.record := by
  obtain ⟨n, q, hq, hrecord, -⟩ := h.own.slot _ (h.paired.inv.mem_slots_of_ack hx) hstream
  exact ⟨q, mem_of_getElem? hq, hrecord⟩

/-- A user record that was confirmed and delivered has passed the confirm hook. -/
theorem Hooked.exists_confirmed (h : s.Hooked) (hx : x ∈ s.wal.acks.take s.delivered)
    (hok : ∃ res, x.result = .ok res) (hstream : x.record.streamId ≠ trimRecordSentinel) :
    ∃ c ∈ s.pipeline.confirmed, c.record = x.record := by
  obtain ⟨res, hok⟩ := hok
  have hmem : (x.record, res.recordOffset) ∈ (s.wal.acks.take s.delivered).filterMap Ack.hooked? :=
    mem_filterMap.mpr ⟨x, hx, by simp [Ack.hooked?, hok, hstream]⟩
  rw [← h.confirmed] at hmem
  obtain ⟨c, hc, heq⟩ := mem_map.mp hmem
  exact ⟨c, hc, congrArg Prod.fst heq⟩

/-- The pipeline keeps its confirmed records cached if the records of the requests fit. -/
theorem Sound.cached_step (h : s.Sound) (hcached : s.pipeline.Cached)
    (hspan : ∀ q ∈ s.requests, q.record.SpanFits) (hstep : s.step a = some s') :
    s'.pipeline.Cached := by
  rcases pipeline_step hstep with heq | ⟨b, hpipe, hb⟩
  · rw [heq]; exact hcached
  refine hcached.step (fun r o hr => ?_) hpipe
  rcases hb with ⟨-, hconfirm⟩ | ⟨x, hx, o', hstream, hb⟩
  · exact absurd hr (hconfirm r o)
  · obtain ⟨q, hq, hrecord⟩ := h.request_of_ack hx hstream
    cases hr.symm.trans hb
    rw [← hrecord]
    exact hspan q hq

end StorageInner

end S3Stream
