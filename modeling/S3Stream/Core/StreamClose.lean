import S3Stream.Core.StreamOffsets

/-! # A forced upload is a barrier, and a close waits for it

While no upload task that holds a record of the stream has failed when `force_upload` collects
the inflight tasks, an Ok of `force_upload` means that the records confirmed before the call are
committed. A graceful close has waited for the appends of its stream. Where those whose future was
dropped are answered as well, nothing more of the stream is confirmed behind its `force_upload`,
and `close_stream` is sent with all of it committed. -/

namespace S3Stream

open List S3Storage StorageInner TransitionSystem

namespace S3Storage

variable {s s' : S3Storage} {a : Action} {k : Nat}

/-- The call later on: it keeps its arguments, and its Ok once it has one. -/
structure ForceCall.Le (c c' : ForceCall) : Prop where
  stream : c'.stream = c.stream
  before : c'.before = c.before
  ok : c.phase = .returned (.ok ()) → c'.phase = .returned (.ok ())

theorem forceCalls_persist (hstep : s.step a = some s') (hc : s.forceCalls[k]? = some c) :
    ∃ c', s'.forceCalls[k]? = some c' ∧ ForceCall.Le c c' := by
  have hsame : s'.forceCalls = s.forceCalls → ∃ c', s'.forceCalls[k]? = some c' ∧
      ForceCall.Le c c' := fun heq => ⟨c, heq ▸ hc, rfl, rfl, id⟩
  -- The call of the step has not returned yet.
  have hset : ∀ {n d phase}, s.forceCalls[n]? = some d → d.phase ≠ .returned (.ok ()) →
      s'.forceCalls = (s.setForcePhase n phase).forceCalls →
      ∃ c', s'.forceCalls[k]? = some c' ∧ ForceCall.Le c c' := by
    intro n d phase hd hne heq
    rw [heq, setForcePhase, getElem?_modify, hc]
    by_cases hnk : n = k
    · subst hnk
      cases hc.symm.trans hd
      exact ⟨_, rfl, by simp, by simp, fun hphase => absurd hphase hne⟩
    · exact ⟨_, rfl, by simp [hnk], by simp [hnk], by simp [hnk]⟩
  cases effect_of_step hstep with
  | confirm => exact hsame (putOrSeal_frame forceCalls fun _ _ _ _ _ => rfl)
  | uploadDeltaWal => exact hsame (uploadDeltaWal_frame forceCalls fun _ _ _ _ _ => rfl)
  | commitTrim =>
    refine hsame ?_
    unfold delayTrim
    split <;> rfl
  | forceUpload =>
    exact ⟨c, by grind, rfl, rfl, id⟩
  | @forceSeal n c hd hphase =>
    have hcalls : (s.uploadDeltaWal c.stream true).forceCalls = s.forceCalls :=
      uploadDeltaWal_frame forceCalls fun _ _ _ _ _ => rfl
    have heq : ((s.uploadDeltaWal c.stream true).notifyLazyUpload.setForcePhase n
        .sealed).forceCalls = (s.setForcePhase n .sealed).forceCalls := by
      rw [setForcePhase, setForcePhase]
      exact congrArg (modify · n _) hcalls
    exact hset hd (by simp [hphase]) heq
  | forceCollect hd hphase | forceDone hd hphase | forceNext hd hphase | forceErr hd hphase =>
    exact hset hd (by simp [hphase]) rfl
  | _ => exact hsame rfl

/-- The invariant of the pipeline behind `force_upload`. -/
structure Uploads (s : S3Storage) : Prop where
  order : s.Order
  cached : s.Cached
  blocks : s.Blocks
  forces : s.Forces

theorem Uploads.new {config : S3StorageConfig}
    (hconfig : 0 < config.maxStreamNumPerStreamSetObject) : (new config).Uploads :=
  ⟨.new config, .new hconfig, .new config, .new config⟩

theorem Uploads.step (h : s.Uploads) (hG : s.CollectsAll a) (hstep : s.step a = some s') :
    s'.Uploads where
  order := h.order.step hstep
  cached := h.cached.step (fun r o ha => by subst ha; exact hG) hstep
  blocks := h.blocks.step h.order hstep
  forces := h.forces.step h.order h.cached h.blocks hG hstep

theorem Uploads.committed (h : s.Uploads) (hc : c ∈ s.forceCalls)
    (hphase : c.phase = .returned (.ok ())) (hd : d ∈ s.confirmed.take c.before)
    (hstream : d.record.streamId = c.stream) :
    ∃ k ∈ s.commits, d.block = some k ∧
      ∃ t, s.tasks[k]? = some t ∧ t.sealed.Holds d.record := by
  have hok := h.forces.ok c hc
  rw [ForceOk, hphase] at hok
  exact h.cached.committed_of_awaits h.order hok hd hstream

instance (s : S3Storage) (a : Action) : Decidable (s.CollectsAll a) := by
  apply a.casesOn (motive := fun a => Decidable (s.CollectsAll a)) <;> intros <;>
    dsimp only [CollectsAll] <;> infer_instance

end S3Storage

namespace StorageInner

variable {s s' : StorageInner} {a : Action}

/-- The steps of the storage whose pipeline steps collect all they should. -/
def CollectsAll (s : StorageInner) : Action → Prop
  | .pipeline b => s.pipeline.CollectsAll b
  | .submit r => r.SpanFits
  | .shutdownDrain => False
  | _ => True

instance (s : StorageInner) (a : Action) : Decidable (s.CollectsAll a) := by
  apply a.casesOn (motive := fun a => Decidable (s.CollectsAll a)) <;> intros <;>
    dsimp only [CollectsAll] <;> infer_instance

theorem Sound.uploads_step (h : s.Sound) (hup : s.pipeline.Uploads)
    (hspan : ∀ q ∈ s.requests, q.record.SpanFits) (hG : s.CollectsAll a)
    (hstep : s.step a = some s') : s'.pipeline.Uploads := by
  rcases pipeline_step hstep with heq | ⟨b, hpipe, hb⟩
  · rw [heq]; exact hup
  refine hup.step ?_ hpipe
  rcases hb with ⟨rfl, -⟩ | ⟨x, hx, o, hstream, rfl⟩
  · exact hG
  · obtain ⟨q, hq, hrecord⟩ := h.request_of_ack hx hstream
    rw [← hrecord]
    exact hspan q hq

def Answered (q : WalWriteRequest) : Prop := ∃ pending result, q.phase = .answered pending result

/-- Only an acknowledgement for a request that is not answered yet adds a confirmed record. -/
theorem Sound.confirmed_step (h : s.Sound) (hstep : s.step a = some s') :
    s'.pipeline.confirmed = s.pipeline.confirmed ∨ ∃ d, ∃ q ∈ s.requests,
      s'.pipeline.confirmed = s.pipeline.confirmed ++ [d] ∧ d.record = q.record ∧
        ¬Answered q := by
  cases effect_of_step hstep with
  | confirm hx hok hstream hpipe =>
    obtain ⟨block, hblock⟩ := confirmed_of_confirm hpipe
    obtain ⟨q, hq, hrecord, hphase⟩ := h.own.next_unanswered h.queue h.paired h.held hx hstream
    exact .inr ⟨_, q, hq, hblock, hrecord.symm, fun ⟨pending, result, h⟩ => hphase pending result h⟩
  | pipeline hconfirm hpipe => exact .inl (confirmed_of_step hpipe hconfirm)
  | shutdownDrain =>
    exact .inl (answerShutdown_frame (fun s => s.pipeline.confirmed) (fun _ _ _ => rfl) _)
  | _ => exact .inl rfl

end StorageInner

/-- The call of `close` is behind its wait. -/
def ClosePhase.Waited : ClosePhase → Prop
  | .marked | .dropped => False
  | _ => True

namespace Streams

variable {s s' : Streams} {a : Action}

/-- The requests of the appends of a stream whose future was dropped are answered. -/
def droppedAnswered (s : Streams) (f : Nat) : Bool :=
  s.appends.all fun d => match d with
    | ⟨g, .dropped n⟩ => g ≠ f || s.storage.requests[n]?.all fun q => match q.phase with
      | .answered .. => true
      | _ => false
    | _ => true

/-- The steps whose forced uploads collect all they should, and before which a graceful close has
no dropped append left to wait for; counts are not `i32::MIN` as an `i32`, and no shutdown drops
appends. -/
def CollectsAll (s : Streams) : Action → Prop
  | .storage b => s.storage.CollectsAll b
  | .appendReserve _ count _ => asI32 count ≠ -2 ^ 31
  | .closeLock n => ∀ c ∈ s.closes[n]?, c.force = false → s.droppedAnswered c.stream = true
  | _ => True

instance (s : Streams) (a : Action) : Decidable (s.CollectsAll a) := by
  apply a.casesOn (motive := fun a => Decidable (s.CollectsAll a)) <;> intros <;>
    dsimp only [CollectsAll] <;> infer_instance

theorem CollectsAll.ne (hG : s.CollectsAll a) : a ≠ .storage .shutdownDrain := by
  rintro rfl
  exact hG

theorem spanFits_record {st : StreamFacade} {count : Nat} (hcount : asI32 count ≠ -2 ^ 31) :
    (st.record count payload).SpanFits := by
  have hle : -2 ^ 31 ≤ asI32 count := Int.le_bmod (by norm_num)
  have hlt : asI32 count < 2 ^ 31 := Int.bmod_lt (by norm_num)
  have heq : (st.record count payload).count = asI32 count := by simp only [StreamFacade.record]
  rw [StreamRecordBatch.SpanFits, StreamRecordBatch.lastOffset, heq]
  unfold i32Max
  split <;> omega

/-- A call that is not on its way to offsets: it has not begun with them, was dropped or is done. -/
def Idle (c : AppendCall) : Prop := c.phase = .begun ∨ ¬c.phase.Pending

/-- The call holds the request, whether its caller still waits or not. -/
def Awaits (c : AppendCall) (n : Nat) : Prop :=
  (∃ offset count, c.phase = .waiting n offset count) ∨ c.phase = .dropped n

/-- Every request is that of a call of its stream until it is answered. -/
structure Covered (s : Streams) : Prop where
  spans : ∀ q ∈ s.storage.requests, q.record.SpanFits
  awaited : ∀ (n : Nat) q, s.storage.requests[n]? = some q →
    (∃ c ∈ s.appends, Awaits c n ∧ s.ids[c.stream]? = some q.record.streamId) ∨ Answered q

theorem Covered.spans_step (hcov : s.Covered) (hG : s.CollectsAll a) (h : s.step a = some s') :
    ∀ q ∈ s'.storage.requests, q.record.SpanFits := by
  refine forall_record_step hG.ne h hcov.spans ?_
  intro c count payload st ha
  subst ha
  exact spanFits_record hG

theorem awaits_persist (h : s.step a = some s') (hc : c ∈ s.appends) (hn : Awaits c n) :
    (∃ c' ∈ s'.appends, c'.stream = c.stream ∧ Awaits c' n) ∨ ∃ record pending result,
      s.storage.requests[n]? = some ⟨record, .answered pending result⟩ := by
  -- A change of another call keeps this one.
  have hset : ∀ {i call phase}, s.appends[i]? = some call →
      (call = c → Awaits { c with phase := phase } n) →
      ∃ c' ∈ (s.setAppend i phase).appends, c'.stream = c.stream ∧ Awaits c' n := by
    intro i call phase hi hcall
    obtain ⟨m, hm⟩ := mem_iff_getElem?.mp hc
    by_cases hmi : i = m
    · subst hmi
      cases hi.symm.trans hm
      refine ⟨{ c with phase := phase }, mem_iff_getElem?.mpr ⟨i, ?_⟩, rfl, hcall rfl⟩
      rw [setAppend, getElem?_modify_eq, hm]
      rfl
    · refine ⟨c, mem_iff_getElem?.mpr ⟨m, ?_⟩, rfl, hn⟩
      rw [setAppend, getElem?_modify_ne _ _ hmi]
      exact hm
  cases effect_of_step h with
  | appendCall => exact .inl ⟨c, mem_append_left _ hc, rfl, hn⟩
  | appendOperable hi | appendReserve hi =>
    refine .inl (hset hi ?_)
    rintro rfl
    simp [Awaits] at hn
  | @appendComplete i f st m record pending result offset count hi hst hm =>
    by_cases heq : (⟨f, .waiting m offset count⟩ : AppendCall) = c
    · subst heq
      simp only [Awaits, AppendPhase.waiting.injEq, reduceCtorEq, or_false] at hn
      obtain ⟨_, _, rfl, -⟩ := hn
      exact .inr ⟨record, pending, result, hm⟩
    · exact .inl (hset hi fun hcall => absurd hcall heq)
  | appendDrop hi =>
    refine .inl (hset hi ?_)
    rintro rfl
    simp only [Awaits, AppendPhase.waiting.injEq, reduceCtorEq, or_false] at hn
    obtain ⟨_, _, rfl, -⟩ := hn
    exact .inr rfl
  | _ => exact .inl ⟨c, hc, rfl, hn⟩

/-- A request behind a step is one from before it, or that of an append that has just reserved its
offsets. -/
theorem request_step (hsound : s.storage.Sound) (ha : a ≠ .storage .shutdownDrain)
    (h : s.step a = some s') {n : Nat} (hq' : s'.storage.requests[n]? = some q') :
    (∃ q, s.storage.requests[n]? = some q ∧ q'.record = q.record ∧ (Answered q → Answered q')) ∨
      ∃ i count payload f, ∃ st : StreamFacade, a = .appendReserve i count payload ∧
        s.appends[i]? = some ⟨f, .operable⟩ ∧ s.streams[f]? = some st ∧
        n = s.storage.requests.length ∧ q' = ⟨st.record count payload, .entered⟩ := by
  by_cases hn : n < s.storage.requests.length
  · obtain ⟨q'', hq'', hrecord, hle⟩ := request_persist hsound ha h (getElem?_eq_getElem hn)
    cases hq'.symm.trans hq''
    refine .inl ⟨_, getElem?_eq_getElem hn, hrecord, ?_⟩
    rintro ⟨pending, result, hphase⟩
    exact ⟨pending, result, hle.answered pending result hphase⟩
  · rcases records_step ha h with heq | ⟨i, count, payload, f, st, hact, hi, hst, happ, -⟩
    · have hlen := congrArg length heq
      rw [length_map, length_map] at hlen
      exact absurd (hlen ▸ (List.getElem_of_getElem? hq').1) hn
    · rcases Table.of_getElem?_concat (happ ▸ hq') with hq' | hlast
      · exact absurd (List.getElem_of_getElem? hq').1 hn
      · exact .inr ⟨i, count, payload, f, st, hact, hi, hst, hlast⟩

theorem Covered.awaited_step (hcov : s.Covered) (hsound : s.storage.Sound) (hG : s.CollectsAll a)
    (h : s.step a = some s') : ∀ (n : Nat) q, s'.storage.requests[n]? = some q →
      (∃ c ∈ s'.appends, Awaits c n ∧ s'.ids[c.stream]? = some q.record.streamId) ∨
      Answered q := by
  intro n q' hq'
  rcases request_step hsound hG.ne h hq' with
    ⟨q, hq, hrecord, hdone⟩ | ⟨i, count, payload, f, st, rfl, hi, hst, rfl, rfl⟩
  · rcases hcov.awaited n q hq with ⟨c, hc, hawaits, hid⟩ | hanswered
    · rcases awaits_persist h hc hawaits with
        ⟨c', hc', hstream, hawaits⟩ | ⟨record, pending, result, hrequest⟩
      · exact .inl ⟨c', hc', hawaits, hrecord ▸ hstream ▸ ids_mono h hid⟩
      · cases hq.symm.trans hrequest
        exact .inr (hdone ⟨pending, result, rfl⟩)
    · exact .inr (hdone hanswered)
  · refine .inl ⟨⟨f, .waiting s.storage.requests.length st.nextOffset count⟩, ?_,
      .inl ⟨_, _, rfl⟩, ids_mono h ?_⟩
    · cases effect_of_step h with
      | appendReserve hi' hst' =>
        cases hi.symm.trans hi'
        cases hst.symm.trans hst'
        refine mem_iff_getElem?.mpr ⟨i, ?_⟩
        show (s.appends.modify i _)[i]? = _
        rw [getElem?_modify_eq, hi]
        rfl
    · rw [ids, getElem?_map, hst]
      rfl

theorem Covered.step (hcov : s.Covered) (hsound : s.storage.Sound) (hG : s.CollectsAll a)
    (h : s.step a = some s') : s'.Covered :=
  ⟨hcov.spans_step hG h, hcov.awaited_step hsound hG h⟩

theorem Covered.new (config : S3StorageConfig) (walConfig : WalConfig) :
    (Streams.new config walConfig).Covered := by
  constructor <;> simp [Streams.new, StorageInner.new]

/-! ## Closing -/

/-- The requests of a stream are answered. -/
def Settled (s : Streams) (streamId : Nat) : Prop :=
  ∀ q ∈ s.storage.requests, q.record.streamId = streamId → Answered q

def Closed (s : Streams) (f : Nat) : Prop := ∃ st, s.streams[f]? = some st ∧ st.closed = true

/-- No append of the stream is on its way to offsets. -/
def Quiet (s : Streams) (f : Nat) : Prop := ∀ d ∈ s.appends, d.stream = f → Idle d

/-- The stream has no record behind the call `k` of `force_upload` for it, and gets none. -/
def Last (s : Streams) (f k : Nat) : Prop :=
  ∃ call, s.storage.pipeline.forceCalls[k]? = some call ∧ s.ids[f]? = some call.stream ∧
    s.Settled call.stream ∧
    ∀ d ∈ s.storage.pipeline.confirmed.drop call.before, d.record.streamId ≠ call.stream

def Uploaded (s : Streams) (k : Nat) : Prop :=
  ∃ call, s.storage.pipeline.forceCalls[k]? = some call ∧ call.phase = .returned (.ok ())

/-- A close behind the wait has no append of its stream in flight, and behind its forced upload
no more record of the stream is confirmed. -/
structure Closing (s : Streams) : Prop where
  closed : ∀ c ∈ s.closes, s.Closed c.stream
  idle : ∀ c ∈ s.closes, c.force = false → c.phase.Waited → s.Quiet c.stream
  uploading : ∀ c ∈ s.closes, c.force = false →
    ∀ k, c.phase = .uploading k ∨ c.phase = .closing k → s.Last c.stream k
  uploaded : ∀ c ∈ s.closes, ∀ k, c.phase = .closing k → s.Uploaded k

/-- How a call of `close` goes on. -/
inductive CloseMove (s s' : Streams) (a : Action) (c : CloseCall) : ClosePhase → Prop where
  | wait (hidle : c.force = true ∨ ∀ d ∈ s.appends, d.stream = c.stream → ¬d.phase.Pending)
      (happends : s'.appends = s.appends) : CloseMove s s' a c .drained
  | upload {st : StreamFacade} {n : Nat} (hact : a = .closeLock n) (hn : s.closes[n]? = some c)
      (hphase : c.phase = .drained) (hst : s.streams[c.stream]? = some st)
      (hstorage : s.storage.step (.pipeline (.forceUpload st.streamId)) = some s'.storage) :
    CloseMove s s' a c (.uploading s.storage.pipeline.forceCalls.length)
  | uploaded {k : Nat} {call : ForceCall} (hphase : c.phase = .uploading k)
      (hk : s.storage.pipeline.forceCalls[k]? = some call)
      (hreturned : call.phase = .returned (.ok ())) : CloseMove s s' a c (.closing k)
  | finish {phase : ClosePhase} (hphase : c.phase.Waited)
      (hdone : phase = .sent ∨ ∃ result, phase = .returned result) : CloseMove s s' a c phase
  | drop : CloseMove s s' a c .dropped

theorem closes_step (h : s.step a = some s') (hc : c ∈ s'.closes) :
    c ∈ s.closes ∨ (c.phase = .marked ∧ s'.Closed c.stream) ∨
      ∃ d ∈ s.closes, c.stream = d.stream ∧ c.force = d.force ∧ CloseMove s s' a d c.phase := by
  have hset : ∀ {n : Nat} {phase : ClosePhase} {d : CloseCall}, s.closes[n]? = some d →
      c ∈ (s.setClose n phase).closes → CloseMove s s' a d phase →
      c ∈ s.closes ∨ (c.phase = .marked ∧ s'.Closed c.stream) ∨
        ∃ d ∈ s.closes, c.stream = d.stream ∧ c.force = d.force ∧ CloseMove s s' a d c.phase := by
    intro n phase d hn hc hmove
    rcases Table.mem_modify hc with hc | ⟨d', hd', rfl⟩
    · exact .inl hc
    · cases hn.symm.trans hd'
      exact .inr (.inr ⟨d, mem_of_getElem? hn, rfl, rfl, hmove⟩)
  cases effect_of_step h with
  | @closeCall f st force hst =>
    rcases mem_append.mp hc with hc | hc
    · exact .inl hc
    · obtain rfl := mem_singleton.mp hc
      refine .inr (.inl ⟨rfl, { st with closed := true }, ?_, rfl⟩)
      exact getElem?_set_self (List.getElem_of_getElem? hst).1
  | closeWait hn hidle => exact hset hn hc (.wait hidle rfl)
  | closeMemo hn | closeFail hn | closeReturn hn =>
    exact hset hn hc (.finish trivial (.inr ⟨_, rfl⟩))
  | closeUpload hn hst hstorage => exact hset hn hc (.upload rfl hn rfl hst hstorage)
  | closeUploaded hn hk hphase => exact hset hn hc (.uploaded rfl hk hphase)
  | closeDrop hn => exact hset hn hc .drop
  | closeSend hn => exact hset hn hc (.finish trivial (.inl rfl))
  | _ => exact .inl hc

theorem closed_persist (h : s.step a = some s') (hf : s.Closed f) : s'.Closed f := by
  obtain ⟨st, hst, hclosed⟩ := hf
  have hlt := (List.getElem_of_getElem? hst).1
  have hset : ∀ {g : Nat} {st₀ st₁ : StreamFacade}, s.streams[g]? = some st₀ →
      (st₀.closed = true → st₁.closed = true) →
      ∃ st', (s.streams.set g st₁)[f]? = some st' ∧ st'.closed = true := by
    intro g st₀ st₁ hg himp
    rw [getElem?_set]
    by_cases hgf : g = f
    · subst hgf
      cases hst.symm.trans hg
      exact ⟨st₁, by simp [hlt], himp hclosed⟩
    · exact ⟨st, by rw [if_neg hgf]; exact hst, hclosed⟩
  cases effect_of_step h with
  | openStream => exact ⟨st, (getElem?_append_left hlt).trans hst, hclosed⟩
  | appendReserve _ hg => exact hset hg id
  | @appendComplete _ _ _ _ _ _ result _ _ _ hg => exact hset hg (by cases result <;> exact id)
  | closeCall hg => exact hset hg fun _ => rfl
  | closeFail | closeReturn =>
    refine ⟨_, (getElem?_modify _ _ _ _).trans (by rw [hst]; rfl), ?_⟩
    split <;> exact hclosed
  | _ => exact ⟨st, hst, hclosed⟩

namespace Closing

theorem closed_step (hcl : s.Closing) (h : s.step a = some s') :
    ∀ c ∈ s'.closes, s'.Closed c.stream := by
  intro c hc
  rcases closes_step h hc with hc | ⟨-, hclosed⟩ | ⟨d, hd, hstream, -⟩
  · exact closed_persist h (hcl.closed c hc)
  · exact hclosed
  · rw [hstream]
    exact closed_persist h (hcl.closed d hd)

/-- An append that finds its stream closed ends, so no new one gets offsets. -/
theorem idle_persist (h : s.step a = some s') (hclosed : s.Closed f) (hidle : s.Quiet f) :
    s'.Quiet f := by
  obtain ⟨st, hst, hclosed⟩ := hclosed
  have hset : ∀ {i : Nat} {phase : AppendPhase} {call : AppendCall}, s.appends[i]? = some call →
      (call.stream = f → Idle { call with phase := phase }) → (s.setAppend i phase).Quiet f := by
    intro i phase call hi hcall d hd hf
    rcases Table.mem_modify hd with hd | ⟨call', hcall', rfl⟩
    · exact hidle d hd hf
    · cases hi.symm.trans hcall'
      exact hcall hf
  cases effect_of_step h with
  | appendCall =>
    exact forall_mem_append.mpr ⟨hidle, forall_mem_singleton.mpr fun _ => .inl rfl⟩
  | appendOperable hi hst' =>
    refine hset hi ?_
    rintro rfl
    cases hst.symm.trans hst'
    simp [Idle, StreamFacade.isOperable, hclosed, AppendPhase.Pending]
  | appendReserve hi =>
    refine hset hi fun hf => ?_
    simpa [Idle, AppendPhase.Pending] using hidle _ (mem_of_getElem? hi) hf
  | appendComplete hi | appendDrop hi => exact hset hi fun _ => .inr id
  | _ => exact hidle

theorem idle_step (hcl : s.Closing) (h : s.step a = some s') :
    ∀ c ∈ s'.closes, c.force = false → c.phase.Waited → s'.Quiet c.stream := by
  have hkeep : ∀ c ∈ s.closes, c.force = false → c.phase.Waited → s'.Quiet c.stream := by
    intro c hc hforce hphase
    exact idle_persist h (hcl.closed c hc) (hcl.idle c hc hforce hphase)
  intro c hc hforce hphase
  rcases closes_step h hc with hc | ⟨hmarked, -⟩ | ⟨d, hd, hstream, hforce', hmove⟩
  · exact hkeep c hc hforce hphase
  · rw [hmarked] at hphase
    cases hphase
  rw [hstream]
  have hold : d.phase.Waited → s'.Quiet d.stream := hkeep d hd (hforce' ▸ hforce)
  generalize c.phase = phase at hmove hphase
  cases hmove with
  | wait hidle happends =>
    intro e he hf
    rw [happends] at he
    exact .inr (hidle.resolve_left (by rw [← hforce', hforce]; nofun) e he hf)
  | upload _ _ hd => exact hold (by rw [hd]; trivial)
  | uploaded hd => exact hold (by rw [hd]; trivial)
  | finish hd => exact hold hd
  | drop => cases hphase

/-- A graceful close that calls `force_upload` has the requests of its stream answered: the appends
it waited for are done, and those that were dropped are answered. -/
theorem settled (hcl : s.Closing) (hcalls : s.Calls) (hcov : s.Covered) (hc : c ∈ s.closes)
    (hforce : c.force = false) (hphase : c.phase = .drained) (hst : s.streams[c.stream]? = some st)
    (hdropped : s.droppedAnswered c.stream = true) : s.Settled st.streamId := by
  intro q hq hid
  obtain ⟨n, hn⟩ := mem_iff_getElem?.mp hq
  rcases hcov.awaited n q hn with ⟨d, hd, hawaits, hdid⟩ | hanswered
  · have hstream : d.stream = c.stream := by
      have hcid : s.ids[c.stream]? = some q.record.streamId := by
        rw [ids, getElem?_map, hst, hid]
        rfl
      exact (getElem?_inj (List.getElem_of_getElem? hdid).1 hcalls.nodup).mp (hdid.trans hcid.symm)
    rcases hawaits with ⟨offset, count, hwaiting⟩ | hdrop
    · have hidle := hcl.idle c hc hforce (by rw [hphase]; trivial) d hd hstream
      simp [Idle, hwaiting, AppendPhase.Pending] at hidle
    · obtain ⟨f, phase⟩ := d
      obtain rfl : phase = .dropped n := hdrop
      have hall := all_eq_true.mp hdropped _ hd
      simp only [← hstream, hn, ne_eq, not_true_eq_false, decide_false, Bool.false_or,
        Option.all_some] at hall
      split at hall
      · exact ⟨_, _, ‹_›⟩
      · cases hall
  · exact hanswered

/-- Requests stay answered, and no new one comes while the appends of the stream are idle. -/
theorem settled_step (hcalls : s.Calls) (hsound : s.storage.Sound)
    (ha : a ≠ .storage .shutdownDrain) (h : s.step a = some s') (hf : s.ids[f]? = some streamId)
    (hidle : s.Quiet f) (hsettled : s.Settled streamId) : s'.Settled streamId := by
  intro q' hq' hid
  obtain ⟨n, hn⟩ := mem_iff_getElem?.mp hq'
  rcases request_step hsound ha h hn with
    ⟨q, hq, hrecord, hdone⟩ | ⟨i, count, payload, g, st, -, hi, hst, -, rfl⟩
  · exact hdone (hsettled q (mem_of_getElem? hq) (hrecord ▸ hid))
  · have hg : s.ids[g]? = some streamId := by
      rw [ids, getElem?_map, hst, ← hid]
      rfl
    have hgf := (getElem?_inj (List.getElem_of_getElem? hg).1 hcalls.nodup).mp (hg.trans hf.symm)
    have hoperable := hidle _ (mem_of_getElem? hi) hgf
    simp [Idle, AppendPhase.Pending] at hoperable

theorem forceCalls_persist (h : s.step a = some s') {k : Nat}
    (hc : s.storage.pipeline.forceCalls[k]? = some c) :
    ∃ c', s'.storage.pipeline.forceCalls[k]? = some c' ∧ ForceCall.Le c c' := by
  rcases storage_step h with heq | ⟨b, hstorage, -⟩
  · exact ⟨c, heq ▸ hc, rfl, rfl, id⟩
  · rcases StorageInner.pipeline_step hstorage with heq | ⟨b, hpipe, -⟩
    · exact ⟨c, heq ▸ hc, rfl, rfl, id⟩
    · exact S3Storage.forceCalls_persist hpipe hc

/-- The records that a step confirms belong to requests that are not answered. -/
theorem confirmed_step (hsound : s.storage.Sound) (h : s.step a = some s')
    (hd : d ∈ s'.storage.pipeline.confirmed.drop n) :
    d ∈ s.storage.pipeline.confirmed.drop n ∨
      ∃ q ∈ s.storage.requests, d.record = q.record ∧ ¬Answered q := by
  rcases storage_step h with heq | ⟨b, hstorage, -⟩
  · exact .inl (heq ▸ hd)
  rcases hsound.confirmed_step hstorage with heq | ⟨d', q, hq, happ, hrecord, hphase⟩
  · exact .inl (heq ▸ hd)
  rw [happ, drop_append] at hd
  rcases mem_append.mp hd with hd | hd
  · exact .inl hd
  · rw [mem_singleton.mp (mem_of_mem_drop hd)]
    exact .inr ⟨q, hq, hrecord, hphase⟩

theorem uploading_step (hcl : s.Closing) (hcalls : s.Calls) (hcov : s.Covered)
    (hsound : s.storage.Sound) (hG : s.CollectsAll a) (h : s.step a = some s') :
    ∀ c ∈ s'.closes, c.force = false →
      ∀ k, c.phase = .uploading k ∨ c.phase = .closing k → s'.Last c.stream k := by
  have hkeep : ∀ c ∈ s.closes, c.force = false →
      ∀ k, c.phase = .uploading k ∨ c.phase = .closing k → s'.Last c.stream k := by
    intro c hc hforce k hphase
    obtain ⟨call, hcall, hid, hsettled, hnone⟩ := hcl.uploading c hc hforce k hphase
    obtain ⟨call', hcall', hstream, hbefore, -⟩ := forceCalls_persist h hcall
    have hidle : s.Quiet c.stream := by
      refine hcl.idle c hc hforce ?_
      rcases hphase with hphase | hphase <;> rw [hphase] <;> trivial
    rw [← hstream] at hid hsettled hnone
    refine ⟨call', hcall', ids_mono h hid, settled_step hcalls hsound hG.ne h hid hidle hsettled,
      fun d hd heq => ?_⟩
    rw [hbefore] at hd
    rcases confirmed_step hsound h hd with hd | ⟨q, hq, hrecord, hopen⟩
    · exact hnone d hd heq
    · exact hopen (hsettled q hq (hrecord ▸ heq))
  intro c hc hforce k hphase
  rcases closes_step h hc with hc | ⟨hmarked, -⟩ | ⟨d, hd, hstream, hforce', hmove⟩
  · exact hkeep c hc hforce k hphase
  · rw [hmarked] at hphase
    rcases hphase with hphase | hphase <;> cases hphase
  rw [hstream]
  generalize c.phase = phase at hmove hphase
  cases hmove with
  | wait => rcases hphase with hphase | hphase <;> cases hphase
  | @upload st n hact hn hdrained hst hstorage =>
    obtain rfl : s.storage.pipeline.forceCalls.length = k := by
      rcases hphase with hphase | hphase
      · exact ClosePhase.uploading.inj hphase
      · cases hphase
    have hpipe : s'.storage = { s.storage with pipeline := { s.storage.pipeline with
        forceCalls := s.storage.pipeline.forceCalls ++
          [⟨st.streamId, s.storage.pipeline.confirmed.length, .ticking⟩] } } :=
      (Option.some.inj hstorage).symm
    refine ⟨⟨st.streamId, s.storage.pipeline.confirmed.length, .ticking⟩,
      by rw [hpipe]; exact getElem?_concat_length, ids_mono h ?_, ?_, ?_⟩
    · rw [ids, getElem?_map, hst]
      rfl
    · have hdropped : s.droppedAnswered d.stream = true := by
        rw [hact] at hG
        exact hG d hn (hforce' ▸ hforce)
      rw [Settled, hpipe]
      exact hcl.settled hcalls hcov hd (hforce' ▸ hforce) hdrained hst hdropped
    · simp [hpipe]
  | uploaded hd' =>
    rcases hphase with hphase | hphase
    · cases hphase
    · cases hphase
      exact hkeep d hd (hforce' ▸ hforce) k (.inl hd')
  | finish _ hdone =>
    rcases hdone with rfl | ⟨result, rfl⟩ <;> rcases hphase with hphase | hphase <;> cases hphase
  | drop => rcases hphase with hphase | hphase <;> cases hphase

theorem uploaded_step (hcl : s.Closing) (h : s.step a = some s') :
    ∀ c ∈ s'.closes, ∀ k, c.phase = .closing k → s'.Uploaded k := by
  have hkeep : ∀ {k : Nat}, s.Uploaded k → s'.Uploaded k := by
    rintro k ⟨call, hcall, hphase⟩
    obtain ⟨call', hcall', hle⟩ := forceCalls_persist h hcall
    exact ⟨call', hcall', hle.ok hphase⟩
  intro c hc k hphase
  rcases closes_step h hc with hc | ⟨hmarked, -⟩ | ⟨d, -, -, -, hmove⟩
  · exact hkeep (hcl.uploaded c hc k hphase)
  · cases hmarked.symm.trans hphase
  rw [hphase] at hmove
  generalize hclosing : ClosePhase.closing k = phase at hmove
  cases hmove with
  | wait | upload | drop => cases hclosing
  | uploaded hd' hk hreturned =>
    cases hclosing
    exact hkeep ⟨_, hk, hreturned⟩
  | finish _ hdone => rcases hdone with rfl | ⟨result, rfl⟩ <;> cases hclosing

theorem step (hcl : s.Closing) (hcalls : s.Calls) (hcov : s.Covered) (hsound : s.storage.Sound)
    (hG : s.CollectsAll a) (h : s.step a = some s') : s'.Closing where
  closed := hcl.closed_step h
  idle := hcl.idle_step h
  uploading := hcl.uploading_step hcalls hcov hsound hG h
  uploaded := hcl.uploaded_step h

theorem new (config : S3StorageConfig) (walConfig : WalConfig) :
    (Streams.new config walConfig).Closing := by
  constructor <;> simp [Streams.new]

end Closing

theorem StorageAction.collectsAll (hb : s.StorageAction a b) (hG : s.CollectsAll a) :
    s.storage.CollectsAll b := by
  cases hb with
  | own => exact hG
  | upload => trivial
  | submit => exact spanFits_record hG

/-- A stream is opened and a record of it is appended and confirmed. -/
def appendedSchedule : List Action :=
  [.storage (.wal (.startVerify .held)), .storage (.wal (.startList [])), .openStream 1 0 0,
    .appendCall 0, .appendOperable 0, .appendReserve 0 1 [7]] ++ confirmedSchedule 0

/-- A graceful close of the stream up to the inflight tasks that its `force_upload` waits for. -/
def closeSchedule : List Action :=
  [.closeCall 0 false, .closeWait 0, .closeLock 0, .storage (.pipeline (.forceSeal 0)),
    .storage (.pipeline (.forceCollect 0)), .storage (.pipeline (.forceWait 0))]

/-- The record is sealed, and its upload task fails in `prepare` and is removed; the close that
follows finds no inflight task. -/
def lostSchedule : List Action :=
  appendedSchedule ++ (([.uploadDeltaWal matchAllStreams false, .prepareRecv,
    .prepareReturn (.error "expired"), .prepareRemove] : List S3Storage.Action).map
      fun b => .storage (.pipeline b)) ++ closeSchedule ++ [.closeUploaded 0]

/-- The record is committed while the close waits. -/
def committedSchedule : List Action :=
  appendedSchedule ++ closeSchedule.dropLast ++
    ((S3Storage.commitOne 0 ++ [S3Storage.Action.forceWait 0, .forceWait 0]).map
      fun b => .storage (.pipeline b)) ++
    [.closeUploaded 0]

end Streams

end S3Stream
