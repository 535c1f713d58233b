import S3Stream.Core.Stream
import S3Stream.Core.ConfirmHook

/-! # No hole below the confirm offset

A stream reserves offsets before the WAL takes the record. While every record fits the WAL and no
shutdown drops queued appends, the records below the confirm offset of a stream are contiguous,
confirmed by the WAL and in the log cache. -/

namespace S3Stream

open List TransitionSystem Table StorageInner Windows
open StreamRecordBatch (baseOffset lastOffset SpanFits length_encoded)

namespace Streams

/-! ## What an action does -/

/-- Everything an action can do, with the conditions under which it does it. -/
inductive Effect (s : Streams) : Action → Streams → Prop where
  | openStream (hstart : s.storage.wal.start = .returned) (hid : streamId ≠ trimRecordSentinel)
      (hfresh : ∀ st ∈ s.streams, st.streamId ≠ streamId) :
    Effect s (.openStream streamId epoch nextOffset)
      { s with streams := s.streams ++ [.new streamId epoch nextOffset] }
  | appendCall (hf : f < s.streams.length) :
    Effect s (.appendCall f) { s with appends := s.appends ++ [⟨f, .begun⟩] }
  | appendOperable (hc : s.appends[c]? = some ⟨f, .begun⟩) (hst : s.streams[f]? = some st) :
    Effect s (.appendOperable c) (s.setAppend c
      (if st.isOperable then .operable else .done (.error (.closed st.streamId))))
  | appendReserve {count : Nat} {storage : StorageInner}
      (hc : s.appends[c]? = some ⟨f, .operable⟩) (hst : s.streams[f]? = some st)
      (hlock : s.lockFree st.streamId = true) (hcount : count < 2 ^ 32)
      (hnext : st.nextOffset + count < 2 ^ 64)
      (hstorage : s.storage.step (.submit (st.record count payload)) = some storage) :
    Effect s (.appendReserve c count payload)
      { (s.setAppend c (.waiting s.storage.requests.length st.nextOffset count)).setStream f
          { st with nextOffset := st.nextOffset + count } with storage := storage }
  | appendComplete {offset count : Nat} (hc : s.appends[c]? = some ⟨f, .waiting n offset count⟩)
      (hst : s.streams[f]? = some st)
      (hn : s.storage.requests[n]? = some ⟨record, .answered pending result⟩) :
    Effect s (.appendComplete c)
      ((s.setStream f (st.completeAppend offset count result).1).setAppend c
        (.done (st.completeAppend offset count result).2))
  | appendDrop {offset count : Nat} (hc : s.appends[c]? = some ⟨f, .waiting n offset count⟩) :
    Effect s (.appendDrop c) (s.setAppend c (.dropped n))
  | closeCall (hst : s.streams[f]? = some st) :
    Effect s (.closeCall f force) { s.setStream f { st with closed := true } with
      closes := s.closes ++ [⟨f, force, .marked⟩] }
  | closeWait (hn : s.closes[n]? = some ⟨f, force, .marked⟩)
      (hidle : force = true ∨ ∀ c ∈ s.appends, c.stream = f → ¬c.phase.Pending) :
    Effect s (.closeWait n) (s.setClose n .drained)
  | closeMemo (hn : s.closes[n]? = some ⟨f, force, .drained⟩) :
    Effect s (.closeLock n) (s.setClose n (.returned result))
  | closeUpload {storage : StorageInner} (hn : s.closes[n]? = some ⟨f, force, .drained⟩)
      (hst : s.streams[f]? = some st)
      (hstorage : s.storage.step (.pipeline (.forceUpload st.streamId)) = some storage) :
    Effect s (.closeLock n)
      { s.setClose n (.uploading s.storage.pipeline.forceCalls.length) with storage := storage }
  | closeUploaded (hn : s.closes[n]? = some ⟨f, force, .uploading k⟩)
      (hk : s.storage.pipeline.forceCalls[k]? = some c) (hphase : c.phase = .returned (.ok ())) :
    Effect s (.closeUploaded n) (s.setClose n (.closing k))
  | closeFail (hn : s.closes[n]? = some ⟨f, force, .uploading k⟩) :
    Effect s (.closeUploaded n) (s.closeFinish n f (.error e))
  | closeSend (hn : s.closes[n]? = some ⟨f, force, .closing k⟩) :
    Effect s (.closeSend n) (s.setClose n .sent)
  | closeReturn (hn : s.closes[n]? = some ⟨f, force, .sent⟩) :
    Effect s (.closeReturn n result) (s.closeFinish n f result)
  | closeDrop (hn : s.closes[n]? = some ⟨f, force, phase⟩) :
    Effect s (.closeDrop n) (s.setClose n .dropped)
  | storage {storage : StorageInner} (hown : ∀ r, b ≠ .submit r)
      (hstorage : s.storage.step b = some storage) :
    Effect s (.storage b) { s with storage := storage }

variable {s s' : Streams} {a : Action}

theorem effect_of_step (h : s.step a = some s') : Effect s a s' := by
  cases a with
  | openStream =>
    simp only [step, Streams.openStream] at h
    split at h <;> cases h
    next hc => exact .openStream hc.1 hc.2.1 hc.2.2
  | appendCall =>
    simp only [step, Streams.appendCall] at h
    split at h <;> cases h
    next hf => exact .appendCall hf
  | appendOperable =>
    simp only [step, Streams.appendOperable] at h
    split at h
    next hc =>
      split at h <;> cases h
      next hst => exact .appendOperable hc hst
    next => cases h
  | appendReserve =>
    simp only [step, Streams.appendReserve] at h
    split at h
    next hc =>
      split at h
      next hst =>
        split at h
        next hcond =>
          obtain ⟨storage, hstorage, rfl⟩ := Option.map_eq_some_iff.mp h
          exact .appendReserve hc hst hcond.1 hcond.2.1 hcond.2.2 hstorage
        next => cases h
      next => cases h
    next => cases h
  | appendComplete =>
    simp only [step, Streams.appendComplete] at h
    split at h
    next hc =>
      split at h <;> cases h
      next hst hn => exact .appendComplete hc hst hn
    next => cases h
  | appendDrop =>
    simp only [step, Streams.appendDrop] at h
    split at h <;> cases h
    next hc => exact .appendDrop hc
  | closeCall =>
    simp only [step, Streams.closeCall] at h
    split at h <;> cases h
    next hst => exact .closeCall hst
  | closeWait =>
    simp only [step, Streams.closeWait] at h
    split at h
    next hn =>
      split at h <;> cases h
      next hidle => exact .closeWait hn hidle
    next => cases h
  | closeLock =>
    simp only [step, Streams.closeLock] at h
    split at h
    next hn =>
      split at h
      next =>
        split at h
        next hst =>
          split at h
          next => cases h; exact .closeMemo hn
          next =>
            obtain ⟨storage, hstorage, rfl⟩ := Option.map_eq_some_iff.mp h
            exact .closeUpload hn hst hstorage
        next => cases h
      next => cases h
    next => cases h
  | closeUploaded =>
    simp only [step, Streams.closeUploaded] at h
    split at h
    next hn =>
      split at h <;> cases h
      next hk => exact .closeUploaded hn hk rfl
      next => exact .closeFail hn
    next => cases h
  | closeSend =>
    simp only [step, Streams.closeSend] at h
    split at h <;> cases h
    next hn => exact .closeSend hn
  | closeReturn =>
    simp only [step, Streams.closeReturn] at h
    split at h <;> cases h
    next hn => exact .closeReturn hn
  | closeDrop =>
    simp only [step, Streams.closeDrop] at h
    split at h <;> cases h
    all_goals
      rename_i hn
      exact .closeDrop hn
  | storage =>
    simp only [step] at h
    split at h
    next hown =>
      obtain ⟨storage, hstorage, rfl⟩ := Option.map_eq_some_iff.mp h
      refine .storage ?_ hstorage
      rintro r rfl
      cases hown
    next => cases h

/-! ## Streams and calls -/

def ids (s : Streams) : List Nat := s.streams.map StreamFacade.streamId

theorem ids_step (h : s.step a = some s') :
    s'.ids = s.ids ∨ ∃ streamId epoch nextOffset, a = .openStream streamId epoch nextOffset ∧
      s'.streams = s.streams ++ [.new streamId epoch nextOffset] ∧ streamId ∉ s.ids ∧
      streamId ≠ trimRecordSentinel ∧ s'.storage = s.storage := by
  cases effect_of_step h with
  | openStream hstart hid hfresh =>
    refine .inr ⟨_, _, _, rfl, rfl, fun hmem => ?_, hid, rfl⟩
    obtain ⟨st, hst, heq⟩ := mem_map.mp hmem
    exact hfresh st hst heq
  | appendReserve _ hst => exact .inl (map_set _ hst rfl)
  | @appendComplete _ _ _ _ _ _ result _ _ _ hst =>
    exact .inl (map_set _ hst (by cases result <;> rfl))
  | closeCall hst => exact .inl (map_set _ hst rfl)
  | closeFail | closeReturn => exact .inl (map_modify _ fun _ => rfl)
  | _ => exact .inl rfl

theorem ids_mono (h : s.step a = some s') {f : Nat} (hf : s.ids[f]? = some streamId) :
    s'.ids[f]? = some streamId := by
  rcases ids_step h with heq | ⟨_, _, _, -, hstreams, -⟩
  · rw [heq]; exact hf
  · rw [ids, hstreams, map_append]
    exact (getElem?_append_left (List.getElem_of_getElem? hf).1).trans hf

/-- The action of the storage that an action stands for. -/
inductive StorageAction (s : Streams) : Action → StorageInner.Action → Prop where
  | own {b : StorageInner.Action} (hown : ∀ r, b ≠ .submit r) : StorageAction s (.storage b) b
  | upload {n streamId : Nat} : StorageAction s (.closeLock n) (.pipeline (.forceUpload streamId))
  | submit {c count f : Nat} {payload : Bytes} {st : StreamFacade} (hst : s.streams[f]? = some st)
      (hlock : s.lockFree st.streamId = true) :
    StorageAction s (.appendReserve c count payload) (.submit (st.record count payload))

theorem storage_step (h : s.step a = some s') :
    s'.storage = s.storage ∨ ∃ b, s.storage.step b = some s'.storage ∧ s.StorageAction a b := by
  cases effect_of_step h with
  | appendReserve hc hst hlock _ _ hstorage => exact .inr ⟨_, hstorage, .submit hst hlock⟩
  | closeUpload _ _ hstorage => exact .inr ⟨_, hstorage, .upload⟩
  | storage hown hstorage => exact .inr ⟨_, hstorage, .own hown⟩
  | _ => exact .inl rfl

theorem StorageAction.ne_shutdownDrain (hb : s.StorageAction a b)
    (ha : a ≠ .storage .shutdownDrain) : b ≠ .shutdownDrain := by
  rintro rfl
  cases hb
  exact ha rfl

theorem sound_step (hsound : s.storage.Sound) (ha : a ≠ .storage .shutdownDrain)
    (h : s.step a = some s') : s'.storage.Sound := by
  rcases storage_step h with heq | ⟨b, hstorage, hb⟩
  · rw [heq]; exact hsound
  · exact hsound.step (hb.ne_shutdownDrain ha) hstorage

/-- The requests behind a step have the records of those before it, but for the one an append has
submitted. -/
theorem records_step (ha : a ≠ .storage .shutdownDrain) (h : s.step a = some s') :
    s'.storage.requests.map WalWriteRequest.record = s.storage.requests.map WalWriteRequest.record ∨
      ∃ c count payload f, ∃ st : StreamFacade, a = .appendReserve c count payload ∧
        s.appends[c]? = some ⟨f, .operable⟩ ∧ s.streams[f]? = some st ∧
        s'.storage.requests = s.storage.requests ++ [⟨st.record count payload, .entered⟩] ∧
        s'.streams = s.streams.set f { st with nextOffset := st.nextOffset + count } := by
  cases effect_of_step h with
  | appendReserve hc hst _ _ _ hstorage =>
    exact .inr ⟨_, _, _, _, _, rfl, hc, hst, requests_submit hstorage, rfl⟩
  | closeUpload _ _ hstorage =>
    rcases records_step hstorage nofun with heq | ⟨r, hr, -⟩
    · exact .inl heq
    · cases hr
  | storage hown hstorage =>
    rcases records_step hstorage (fun hb => ha (congrArg _ hb)) with
      heq | ⟨r, hr, -⟩
    · exact .inl heq
    · exact absurd hr (hown r)
  | _ => exact .inl rfl

/-- What holds of the records of the requests before a step, and of the one it reserves. -/
theorem forall_record_step {P : StreamRecordBatch → Prop} (ha : a ≠ .storage .shutdownDrain)
    (h : s.step a = some s') (hold : ∀ q ∈ s.storage.requests, P q.record)
    (hnew : ∀ c count payload (st : StreamFacade), a = .appendReserve c count payload →
      P (st.record count payload)) : ∀ q ∈ s'.storage.requests, P q.record := by
  intro q hq
  rcases records_step ha h with heq | ⟨c, count, payload, f, st, hact, -, -, happ, -⟩
  · have hrecord : q.record ∈ s'.storage.requests.map WalWriteRequest.record := mem_map_of_mem hq
    rw [heq] at hrecord
    obtain ⟨q₀, hq₀, hqr⟩ := mem_map.mp hrecord
    rw [← hqr]
    exact hold q₀ hq₀
  · rw [happ] at hq
    exact forall_mem_append.mpr ⟨hold, forall_mem_singleton.mpr (hnew c count payload st hact)⟩ q hq

/-- Every request is one of an open stream, and the calls of `append` wait for requests of their
stream. -/
structure Calls (s : Streams) : Prop where
  nodup : s.ids.Nodup
  user : trimRecordSentinel ∉ s.ids
  owner : ∀ q ∈ s.storage.requests, q.record.streamId ∈ s.ids
  waiting : ∀ c ∈ s.appends, ∀ n offset count, c.phase = .waiting n offset count →
    ∃ q, s.storage.requests[n]? = some q ∧ s.ids[c.stream]? = some q.record.streamId ∧
      q.record.baseOffset = offset ∧ q.record.count = asI32 count ∧ count < 2 ^ 32

theorem request_persist (hsound : s.storage.Sound) (ha : a ≠ .storage .shutdownDrain)
    (h : s.step a = some s') {n : Nat} (hq : s.storage.requests[n]? = some q) :
    ∃ q', s'.storage.requests[n]? = some q' ∧ q'.record = q.record ∧ q.phase.Le q'.phase := by
  rcases storage_step h with heq | ⟨b, hstorage, hb⟩
  · exact ⟨q, heq ▸ hq, rfl, ⟨id, fun _ => id, id, fun _ _ => id⟩⟩
  · exact requests_persist hstorage hsound.queue (hb.ne_shutdownDrain ha) hq

/-- A call of `append` behind a step that waits for a request has waited before, or it has
submitted the request now. -/
theorem waiting_step (h : s.step a = some s') (hc : c ∈ s'.appends) {count : Nat}
    (hphase : c.phase = .waiting n offset count) :
    c ∈ s.appends ∨ ∃ i payload, ∃ st : StreamFacade, a = .appendReserve i count payload ∧
      s.streams[c.stream]? = some st ∧ n = s.storage.requests.length ∧ offset = st.nextOffset ∧
      s'.storage.requests = s.storage.requests ++ [⟨st.record count payload, .entered⟩] ∧
      count < 2 ^ 32 := by
  cases effect_of_step h with
  | appendCall =>
    rcases mem_append.mp hc with hc | hc
    · exact .inl hc
    · obtain rfl := mem_singleton.mp hc
      cases hphase
  | appendOperable =>
    rcases mem_modify hc with hc | ⟨call, -, rfl⟩
    · exact .inl hc
    · split at hphase <;> cases hphase
  | appendReserve hi hst _ hcount _ hstorage =>
    rcases mem_modify hc with hc | ⟨call, hcall, rfl⟩
    · exact .inl hc
    · cases hphase
      cases hi.symm.trans hcall
      exact .inr ⟨_, _, _, rfl, hst, rfl, rfl, requests_submit hstorage, hcount⟩
  | appendComplete | appendDrop =>
    rcases mem_modify hc with hc | ⟨call, -, rfl⟩
    · exact .inl hc
    · cases hphase
  | _ => exact .inl hc

theorem Calls.step (hcalls : s.Calls) (hsound : s.storage.Sound)
    (ha : a ≠ .storage .shutdownDrain) (h : s.step a = some s') : s'.Calls := by
  have hkeep : ∀ {streamId}, streamId ∈ s.ids → streamId ∈ s'.ids := by
    intro streamId hmem
    obtain ⟨f, hf⟩ := mem_iff_getElem?.mp hmem
    exact mem_of_getElem? (ids_mono h hf)
  refine ⟨?_, ?_, ?_, ?_⟩
  · rcases ids_step h with heq | ⟨_, _, _, -, hstreams, hfresh, -⟩
    · rw [heq]; exact hcalls.nodup
    · rw [ids, hstreams, map_append]
      refine nodup_append.mpr ⟨hcalls.nodup, nodup_singleton _, fun x hx y hy heq => ?_⟩
      obtain rfl := mem_singleton.mp hy
      exact hfresh (heq ▸ hx)
  · rcases ids_step h with heq | ⟨_, _, _, -, hstreams, -, huser, -⟩
    · rw [heq]; exact hcalls.user
    · rw [ids, hstreams, map_append, mem_append, not_or]
      exact ⟨hcalls.user, fun hmem => huser (mem_singleton.mp hmem).symm⟩
  · intro q hq
    have hrecord : q.record ∈ s'.storage.requests.map WalWriteRequest.record := mem_map_of_mem hq
    rcases records_step ha h with heq | ⟨c, count, payload, f, st, -, -, hst, happ, -⟩
    · rw [heq] at hrecord
      obtain ⟨q₀, hq₀, hqr⟩ := mem_map.mp hrecord
      exact hkeep (hqr ▸ hcalls.owner q₀ hq₀)
    · rw [happ] at hq
      rcases mem_append.mp hq with hq | hq
      · exact hkeep (hcalls.owner q hq)
      · obtain rfl := mem_singleton.mp hq
        exact hkeep (mem_map_of_mem (mem_of_getElem? hst))
  · intro c hc n offset count hphase
    rcases waiting_step h hc hphase with hc | ⟨i, payload, st, rfl, hst, rfl, rfl, happ, hlt⟩
    · obtain ⟨q, hq, hid, hbase, hcount⟩ := hcalls.waiting c hc n offset count hphase
      obtain ⟨q', hq', hrecord, -⟩ := request_persist hsound ha h hq
      exact ⟨q', hq', hrecord ▸ ids_mono h hid, hrecord ▸ hbase, hrecord ▸ hcount⟩
    · refine ⟨⟨st.record count payload, .entered⟩, ?_, ids_mono h ?_, rfl, ?_⟩
      · rw [happ, getElem?_concat_length]
      · rw [ids, getElem?_map, hst]
        rfl
      · exact ⟨by simp only [StreamFacade.record], hlt⟩

theorem Calls.new (config : S3StorageConfig) (walConfig : WalConfig) :
    (Streams.new config walConfig).Calls :=
  ⟨nodup_nil, not_mem_nil, nofun, nofun⟩

/-! ## Reserved offsets -/

theorem count_record {st : StreamFacade} {count : Nat} (hle : count ≤ i32Max) :
    (st.record count payload).count = count := by
  unfold i32Max at hle
  simp only [StreamFacade.record, asI32_of_lt (show count < 2 ^ 31 by omega)]

theorem lastOffset_record {st : StreamFacade} {count : Nat} (hpos : 1 ≤ count)
    (hle : count ≤ i32Max) : (st.record count payload).lastOffset = st.nextOffset + count := by
  rw [lastOffset, count_record hle, if_pos (by omega)]
  rfl

/-- Appends whose count is a positive `i32` and whose record the WAL can take; no shutdown. -/
def FitsWal (_ : Streams) : Action → Prop
  | .appendReserve _ count payload => 1 ≤ count ∧ count ≤ i32Max ∧
      headerSize + payload.length + walRecordHeaderSize ≤ dataFileAlignSize
  | .storage .shutdownDrain => False
  | _ => True

instance (s : Streams) (a : Action) : Decidable (s.FitsWal a) := by
  unfold FitsWal
  split <;> infer_instance

theorem FitsWal.ne (hG : s.FitsWal a) : a ≠ .storage .shutdownDrain := by
  rintro rfl
  exact hG

/-- The appends of a stream hold its append lock through `append0`, so they keep stream order. -/
theorem StorageAction.inOrder (hb : s.StorageAction a b) (hG : s.FitsWal a)
    (hstarted : s.streams ≠ [] → s.storage.wal.start = .returned) : s.storage.InOrder b := by
  cases hb with
  | @own b hown =>
    cases b with
    | submit r => exact absurd rfl (hown r)
    | shutdownDrain => exact hG
    | _ => trivial
  | upload => trivial
  | submit hst hlock =>
    refine ⟨hstarted (ne_nil_of_mem (mem_of_getElem? hst)), ?_, fun q hq hstream => ?_⟩
    · rw [framedSize, length_encoded]
      exact hG.2.2
    · have hfree := of_decide_eq_true (all_eq_true.mp hlock q hq)
      exact hfree.resolve_left (not_not_intro hstream)

/-- The records of a stream in the order of their requests. -/
def recordsOf (s : Streams) (streamId : Nat) : List StreamRecordBatch :=
  (s.storage.requests.map WalWriteRequest.record).filter (·.streamId = streamId)

def Tiled (s : Streams) : Prop :=
  ∀ st ∈ s.streams, Tiles baseOffset lastOffset st.openedAt (s.recordsOf st.streamId) st.nextOffset

/-- A record of the stream that ends at the offset was answered Ok. -/
def Confirms (s : Streams) (streamId offset : Nat) : Prop :=
  ∃ q ∈ s.storage.requests, q.record.streamId = streamId ∧ q.record.lastOffset = offset ∧
    ∃ pending, q.phase = .answered pending (.ok ())

/-- The records of a stream tile its offsets from the one it was opened at to the next one, and
the confirm offset is the end of a record that was answered Ok. -/
structure Reserved (s : Streams) : Prop where
  started : s.streams ≠ [] → s.storage.wal.start = .returned
  counts : ∀ q ∈ s.storage.requests, 0 < q.record.count ∧ q.record.count ≤ i32Max
  tiles : s.Tiled
  confirm : ∀ st ∈ s.streams, st.confirmOffset = st.openedAt ∨
    s.Confirms st.streamId st.confirmOffset

namespace Reserved

theorem started_step (hr : s.Reserved) (h : s.step a = some s') :
    s'.streams ≠ [] → s'.storage.wal.start = .returned := by
  have hkeep : s.storage.wal.start = .returned → s'.storage.wal.start = .returned := by
    intro hret
    rcases storage_step h with heq | ⟨b, hstorage, -⟩
    · rw [heq]; exact hret
    · rcases wal_step hstorage with heq | ⟨b, hwal⟩
      · rw [heq]; exact hret
      · exact (Writer.effect_of_step hwal).start_returned hret
  intro hne
  refine hkeep ?_
  cases effect_of_step h with
  | openStream hstart => exact hstart
  | appendReserve _ hst | appendComplete _ hst | closeCall hst =>
    exact hr.started (ne_nil_of_mem (mem_of_getElem? hst))
  | closeFail | closeReturn =>
    refine hr.started fun hnil => hne ?_
    simp [closeFinish, hnil]
  | _ => exact hr.started hne

theorem counts_step (hr : s.Reserved) (hG : s.FitsWal a) (h : s.step a = some s') :
    ∀ q ∈ s'.storage.requests, 0 < q.record.count ∧ q.record.count ≤ i32Max := by
  refine forall_record_step (P := fun r => 0 < r.count ∧ r.count ≤ i32Max) hG.ne h hr.counts ?_
  intro c count payload st ha
  subst ha
  rw [count_record hG.2.1]
  exact ⟨Int.natCast_pos.mpr hG.1, Int.ofNat_le.mpr hG.2.1⟩

/-- What the tiling of a stream looks at. -/
def range (st : StreamFacade) : Nat × Nat × Nat := (st.streamId, st.openedAt, st.nextOffset)

theorem tiles_congr (hr : s.Reserved) (hranges : s'.streams.map range = s.streams.map range)
    (hrecords : s'.storage.requests.map WalWriteRequest.record =
      s.storage.requests.map WalWriteRequest.record) : s'.Tiled := by
  intro st' hst'
  have hmem : range st' ∈ s'.streams.map range := mem_map_of_mem hst'
  rw [hranges] at hmem
  obtain ⟨st, hst, heq⟩ := mem_map.mp hmem
  simp only [range, Prod.mk.injEq] at heq
  obtain ⟨hid, hopened, hnext⟩ := heq
  rw [recordsOf, hrecords, ← hid, ← hopened, ← hnext]
  exact hr.tiles st hst

section

variable (hr : s.Reserved) (hcalls : s.Calls)

include hr hcalls

theorem tiles_reserve {count : Nat} (hst : s.streams[f]? = some st) (hpos : 1 ≤ count)
    (hle : count ≤ i32Max) (hrequests : s'.storage.requests =
      s.storage.requests ++ [⟨st.record count payload, .entered⟩])
    (hstreams : s'.streams = s.streams.set f { st with nextOffset := st.nextOffset + count }) :
    s'.Tiled := by
  intro st' hst'
  obtain ⟨g, hg⟩ := mem_iff_getElem?.mp hst'
  rw [hstreams] at hg
  have hrecords : ∀ streamId, s'.recordsOf streamId = s.recordsOf streamId ++
      [st.record count payload].filter (·.streamId = streamId) := by
    intro streamId
    rw [recordsOf, hrequests, map_append, filter_append]
    rfl
  rw [hrecords]
  rcases of_getElem?_set hg with ⟨hne, hg⟩ | ⟨rfl, rfl⟩
  · -- Ids are distinct, so the record is not one of this stream.
    have hid : (st.record count payload).streamId ≠ st'.streamId := by
      intro heq
      refine hne ((getElem?_inj ?_ hcalls.nodup).mp ?_)
      · rw [ids, length_map]
        exact (List.getElem_of_getElem? hg).1
      · rw [ids, getElem?_map, getElem?_map, hg, hst]
        exact congrArg some heq.symm
    rw [filter_cons_of_neg (by simpa using hid), filter_nil, append_nil]
    exact hr.tiles st' (mem_of_getElem? hg)
  · have hbase : (st.record count payload).baseOffset = st.nextOffset := by
      simp only [StreamFacade.record]
    have hlast : (st.record count payload).lastOffset = st.nextOffset + count :=
      lastOffset_record hpos hle
    have hold := hr.tiles st (mem_of_getElem? hst)
    show Tiles _ _ st.openedAt (s.recordsOf st.streamId ++ _) (st.nextOffset + count)
    rw [filter_cons_of_pos (by simp [StreamFacade.record]), filter_nil, ← hlast]
    exact hold.snoc hbase (by omega)

theorem tiles_step (hG : s.FitsWal a) (h : s.step a = some s') : s'.Tiled := by
  have hrecords := records_step hG.ne h
  cases effect_of_step h with
  | @openStream streamId epoch nextOffset hstart hid hfresh =>
    intro st hst
    rcases mem_append.mp hst with hst | hst
    · exact hr.tiles st hst
    · obtain rfl := mem_singleton.mp hst
      have hnil : s.recordsOf (StreamFacade.new streamId epoch nextOffset).streamId = [] := by
        refine filter_eq_nil_iff.mpr fun r hr' hstream => ?_
        obtain ⟨q, hq, rfl⟩ := mem_map.mp hr'
        obtain ⟨st, hst, heq⟩ := mem_map.mp (hcalls.owner q hq)
        exact hfresh st hst (heq.trans (of_decide_eq_true hstream))
      show Tiles _ _ _ (s.recordsOf _) _
      rw [hnil]
      rfl
  | appendReserve hc hst _ _ _ hstorage =>
    exact hr.tiles_reserve hcalls hst hG.1 hG.2.1 (requests_submit hstorage) rfl
  | @appendComplete _ _ _ _ _ _ result _ _ _ hst =>
    exact hr.tiles_congr (map_set _ hst (by cases result <;> rfl)) rfl
  | closeCall hst => exact hr.tiles_congr (map_set _ hst rfl) rfl
  | closeFail | closeReturn => exact hr.tiles_congr (map_modify _ fun _ => rfl) rfl
  | closeUpload | storage =>
    refine hr.tiles_congr rfl (hrecords.resolve_right ?_)
    rintro ⟨_, _, _, _, _, ha, -⟩
    cases ha
  | _ => exact hr.tiles_congr rfl rfl

/-- The record an append waits for ends where the append has reserved offsets to. -/
theorem waiting_last {c count : Nat} (hc : s.appends[c]? = some ⟨f, .waiting n offset count⟩)
    (hst : s.streams[f]? = some st) (hq : s.storage.requests[n]? = some q) :
    q.record.streamId = st.streamId ∧ q.record.lastOffset = offset + count := by
  obtain ⟨q', hq', hid, rfl, hcount, hlt⟩ := hcalls.waiting _ (mem_of_getElem? hc) _ _ _ rfl
  cases hq.symm.trans hq'
  obtain ⟨hpos, hle⟩ := hr.counts q (mem_of_getElem? hq)
  have hsmall : count < 2 ^ 31 :=
    Nat.lt_of_not_le fun hle => (asI32_neg hle hlt).not_gt (hcount ▸ hpos)
  refine ⟨?_, ?_⟩
  · rw [ids, getElem?_map, hst] at hid
    exact (Option.some.inj hid).symm
  · rw [lastOffset, if_pos hpos, hcount, asI32_of_lt hsmall, Int.toNat_natCast]

theorem confirm_step (hsound : s.storage.Sound) (hG : s.FitsWal a) (h : s.step a = some s') :
    ∀ st ∈ s'.streams, st.confirmOffset = st.openedAt ∨
      s'.Confirms st.streamId st.confirmOffset := by
  -- A confirmed request of the state before is one of the state behind the step.
  have hkeep : ∀ {streamId offset}, s.Confirms streamId offset → s'.Confirms streamId offset := by
    rintro streamId offset ⟨q, hq, hstream, hlast, pending, hphase⟩
    obtain ⟨n, hn⟩ := mem_iff_getElem?.mp hq
    obtain ⟨q', hq', hrecord, hle⟩ := request_persist hsound hG.ne h hn
    exact ⟨q', mem_of_getElem? hq', hrecord ▸ hstream, hrecord ▸ hlast, pending,
      hle.answered pending _ hphase⟩
  intro st' hst'
  cases effect_of_step h with
  | openStream =>
    rcases mem_append.mp hst' with hst | hst
    · exact hr.confirm st' hst
    · obtain rfl := mem_singleton.mp hst
      exact .inl rfl
  | appendReserve hc hst =>
    have hold := hr.confirm _ (mem_of_getElem? hst)
    rcases mem_or_eq_of_mem_set hst' with hst' | rfl
    · exact (hr.confirm st' hst').imp_right hkeep
    · exact hold.imp_right hkeep
  | @appendComplete i f st n record pending result offset count hc hst hn =>
    have hold := hr.confirm st (mem_of_getElem? hst)
    rcases mem_or_eq_of_mem_set hst' with hst' | rfl
    · exact hr.confirm st' hst'
    cases result with
    | error => exact hold
    | ok =>
      obtain ⟨hid, hlast⟩ := hr.waiting_last hcalls hc hst hn
      rcases max_choice st.confirmOffset (offset + count) with hmax | hmax
      · show max _ _ = _ ∨ s.Confirms _ (max _ _)
        rw [hmax]
        exact hold
      · exact .inr ⟨_, mem_of_getElem? hn, hid, hlast.trans hmax.symm, pending, rfl⟩
  | closeCall hst =>
    have hold := hr.confirm _ (mem_of_getElem? hst)
    rcases mem_or_eq_of_mem_set hst' with hst' | rfl
    · exact hr.confirm st' hst'
    · exact hold
  | closeFail | closeReturn =>
    rcases mem_modify hst' with hst | ⟨st, hst, rfl⟩
    · exact hr.confirm st' hst
    · exact hr.confirm st (mem_of_getElem? hst)
  | _ => exact (hr.confirm st' hst').imp_right hkeep

theorem step (hsound : s.storage.Sound) (hG : s.FitsWal a) (h : s.step a = some s') :
    s'.Reserved where
  started := hr.started_step h
  counts := hr.counts_step hG h
  tiles := hr.tiles_step hcalls hG h
  confirm := hr.confirm_step hcalls hsound hG h

end

theorem new (config : S3StorageConfig) (walConfig : WalConfig) :
    (Streams.new config walConfig).Reserved := by
  constructor <;> simp [Streams.new, StorageInner.new, Tiled]

theorem spanFits (hr : s.Reserved) : ∀ q ∈ s.storage.requests, q.record.SpanFits := by
  intro q hq
  obtain ⟨hpos, hle⟩ := hr.counts q hq
  rw [SpanFits, lastOffset, if_pos hpos]
  omega

/-- The records below the confirm offset: those of the requests up to the one that ends there. -/
theorem confirmed_records (hr : s.Reserved) (hordered : s.storage.Ordered)
    (hpaired : s.storage.Paired) (hst : st ∈ s.streams) :
    ∃ rs, Tiles baseOffset lastOffset st.openedAt rs st.confirmOffset ∧
      ∀ r ∈ rs, r.streamId = st.streamId ∧
        ∃ x ∈ s.storage.wal.acks.take s.storage.delivered, x.record = r ∧
          ∃ res, x.result = .ok res := by
  rcases hr.confirm st hst with heq | ⟨q, hq, hstream, hlast, pending, hphase⟩
  · exact ⟨[], heq.symm, nofun⟩
  obtain ⟨l₁, l₂, hsplit⟩ := append_of_mem hq
  have htiles := hr.tiles st hst
  rw [recordsOf, hsplit, map_append, map_cons, filter_append,
    filter_cons_of_pos (by simpa using hstream)] at htiles
  have hpair := htiles.pairwise
  obtain ⟨b, hfront, hbase, hlt, -⟩ := Tiles.append.mp htiles
  refine ⟨_, hlast ▸ hfront.snoc hbase hlt, fun r hr' => ?_⟩
  have hqi : s.storage.requests[l₁.length]? = some q := by simp [hsplit]
  rcases mem_append.mp hr' with hr' | hr'
  · -- An earlier request of the stream.
    have hbefore := (pairwise_append.mp hpair).2.2 r hr' _ mem_cons_self
    have hwidth := hfront.lo_lt_hi hr'
    obtain ⟨hmem, hrs⟩ := mem_filter.mp hr'
    obtain ⟨p, hp, rfl⟩ := mem_map.mp hmem
    obtain ⟨i, hi⟩ := mem_iff_getElem?.mp hp
    have hlen := of_getElem?_eq_some hi
    have hpi : s.storage.requests[i]? = some p := by
      rw [hsplit, getElem?_append_left hlen]
      exact hi
    have hrs := of_decide_eq_true hrs
    exact ⟨hrs, hordered.confirmed_before hpaired ⟨hlen, hpi, hqi, hrs.trans hstream.symm⟩
      (by omega) hphase⟩
  · rw [mem_singleton.mp hr']
    obtain ⟨x, hx, -, hrecord, hok⟩ := hpaired.confirmed_own hqi hphase
    exact ⟨hstream, x, hx, hrecord, hok⟩

end Reserved

/-- **No hole below the confirm offset**, as long as every record fits the WAL: the offsets from
the one the stream was opened at up to the confirm offset are tiled by records that the WAL has
confirmed and that are in the log cache. -/
theorem no_hole_below_confirm_offset {config : S3StorageConfig} {walConfig : WalConfig}
    {as : List Action} (hconfig : 0 < config.maxStreamNumPerStreamSetObject)
    (hG : Guarded step FitsWal (Streams.new config walConfig) as)
    (h : run step (Streams.new config walConfig) as = some s) :
    ∀ st ∈ s.streams, ∃ rs, Tiles StreamRecordBatch.baseOffset
        StreamRecordBatch.lastOffset st.openedAt rs st.confirmOffset ∧
      (∀ o, st.openedAt ≤ o → o < st.confirmOffset →
        ∃ r ∈ rs, r.baseOffset ≤ o ∧ o < r.lastOffset) ∧
      ∀ r ∈ rs, r.streamId = st.streamId ∧
        (∃ x ∈ s.storage.wal.acks, x.record = r ∧ ∃ res, x.result = .ok res) ∧
        ∃ c ∈ s.storage.pipeline.confirmed, ∃ k, c.record = r ∧ c.block = some k ∧
          s.storage.pipeline.HeldIn r k := by
  obtain ⟨hsound, hordered, hcalls, hr, hcached⟩ : s.storage.Sound ∧ s.storage.Ordered ∧ s.Calls ∧
      s.Reserved ∧ s.storage.pipeline.Cached := by
    refine run_invariant_of_guarded
      (I := fun s => s.storage.Sound ∧ s.storage.Ordered ∧ s.Calls ∧ s.Reserved ∧
        s.storage.pipeline.Cached) ?_
      ⟨.new config walConfig, .new config walConfig, .new config walConfig, .new config walConfig,
        .new hconfig⟩ hG h
    rintro s a s' ⟨hsound, hordered, hcalls, hr, hcached⟩ hGa hstep
    have hstorage : s'.storage.Ordered ∧ s'.storage.pipeline.Cached := by
      rcases storage_step hstep with heq | ⟨b, hstorage, hb⟩
      · rw [heq]; exact ⟨hordered, hcached⟩
      · exact ⟨hordered.step (hb.inOrder hGa hr.started) hstorage hsound.queue hsound.paired
          hsound.draining, hsound.cached_step hcached hr.spanFits hstorage⟩
    exact ⟨sound_step hsound hGa.ne hstep, hstorage.1, hcalls.step hsound hGa.ne hstep,
      hr.step hcalls hsound hGa hstep, hstorage.2⟩
  intro st hst
  obtain ⟨rs, htiles, hrs⟩ := hr.confirmed_records hordered hsound.paired hst
  refine ⟨rs, htiles, fun o hle hlt => htiles.exists_mem_window hle hlt, fun r hr' => ?_⟩
  obtain ⟨hstream, x, hx, rfl, hok⟩ := hrs r hr'
  refine ⟨hstream, ⟨x, mem_of_mem_take hx, rfl, hok⟩, ?_⟩
  have huser : x.record.streamId ≠ trimRecordSentinel := by
    rw [hstream]
    exact fun heq => hcalls.user (heq ▸ mem_map_of_mem hst)
  obtain ⟨c, hc, hrecord⟩ := hsound.hooked.exists_confirmed hx hok huser
  obtain ⟨k, hk, hheld⟩ := hcached.held c hc
  exact ⟨c, hc, k, hrecord, hk, hrecord ▸ hheld⟩

/-- The storage is started, a stream is opened at offset 0, and two appends find it operable. -/
def openedSchedule : List Action :=
  [.storage (.wal (.startVerify .held)), .storage (.wal (.startList [])), .openStream 1 0 0,
    .appendCall 0, .appendCall 0, .appendOperable 0, .appendOperable 1]

/-- Request `n` goes into the first bulk, which is confirmed, and call `n` returns. -/
def confirmedSchedule (n : Nat) : List Action :=
  [.storage (.appendCheck n), .storage (.appendPermit n), .storage (.appendSubmit n),
    .storage (.appendPlace n 0)] ++ (StorageInner.confirmBulk 1).map .storage ++
    [.storage (.answer n), .appendComplete n]

theorem no_hole_below_confirm_offset_one :
    ∃ s, run step (Streams.new S3Storage.smallConfig .defaults)
        (openedSchedule ++ .appendReserve 0 1 [7] :: confirmedSchedule 0) = some s ∧
      s.streams.map StreamFacade.confirmOffset = [1] ∧
      ∀ st ∈ s.streams, ∃ rs, Tiles StreamRecordBatch.baseOffset
          StreamRecordBatch.lastOffset st.openedAt rs st.confirmOffset ∧
        (∀ o, st.openedAt ≤ o → o < st.confirmOffset →
          ∃ r ∈ rs, r.baseOffset ≤ o ∧ o < r.lastOffset) ∧
        ∀ r ∈ rs, r.streamId = st.streamId ∧
          (∃ x ∈ s.storage.wal.acks, x.record = r ∧ ∃ res, x.result = .ok res) ∧
          ∃ c ∈ s.storage.pipeline.confirmed, ∃ k, c.record = r ∧ c.block = some k ∧
            s.storage.pipeline.HeldIn r k :=
  exists_and (by decide +kernel) fun _ hs _ =>
    no_hole_below_confirm_offset (by decide) (by decide +kernel) hs

/-- A payload whose record does not fit a WAL object. -/
def hugePayload : Bytes := List.replicate dataFileAlignSize 0

/-- The WAL refuses the record of the first append. -/
def refusedSchedule : List Action :=
  [.appendReserve 0 1 hugePayload, .storage (.appendCheck 0), .storage (.appendPermit 0),
    .storage (.appendSubmit 0)]

abbrev hugeRecord : StreamRecordBatch := (StreamFacade.new 1 0 0).record 1 hugePayload

def refused (s : Streams) : Streams :=
  { s with
    streams := [{ StreamFacade.new 1 0 0 with nextOffset := 1 }]
    appends := [⟨0, .waiting 0 0 1⟩, ⟨0, .operable⟩]
    storage := { s.storage with
      requests := [⟨hugeRecord,
        .failing (.recordTooLarge (framedSize hugeRecord) dataFileAlignSize)⟩] } }

theorem length_huge : hugeRecord.payload.length = dataFileAlignSize := by
  simp only [StreamFacade.record, hugePayload, length_replicate]

theorem inRange_huge : hugeRecord.InRange := by
  refine ⟨by decide, by decide, by decide, by decide, by decide, ?_⟩
  rw [length_huge]
  decide

theorem lt_framedSize_huge : dataFileAlignSize < framedSize hugeRecord := by
  rw [framedSize, length_encoded, length_huge]
  omega

theorem submitCheck_huge {w : Writer} (hstatus : w.checkStatus = .ok ())
    (hcapacity : w.bufferedDataBytes ≤ w.config.maxUnflushedBytes) :
    w.submitCheck hugeRecord =
      .error (.recordTooLarge (framedSize hugeRecord) dataFileAlignSize) := by
  rw [Writer.submitCheck, hstatus]
  show (if _ then _ else _) = _
  rw [if_neg (not_lt.mpr hcapacity), if_pos lt_framedSize_huge]

theorem run_refusedSchedule (hrequests : s.storage.requests = [])
    (hbackoff : s.storage.backoff = [])
    (hstreams : s.streams = [.new 1 0 0]) (happends : s.appends = [⟨0, .operable⟩, ⟨0, .operable⟩])
    (hpermit : s.storage.pipeline.logCache.size < s.storage.pipeline.logCache.capacity)
    (hstatus : s.storage.wal.checkStatus = .ok ())
    (hcapacity : s.storage.wal.bufferedDataBytes ≤ s.storage.wal.config.maxUnflushedBytes) :
    run step s refusedSchedule = some s.refused := by
  have hnext : (StreamFacade.new 1 0 0).nextOffset = 0 := rfl
  simp [refusedSchedule, run, step, appendReserve, happends, hstreams, lockFree,
    hrequests, hnext, StorageInner.step, StorageInner.submit, inRange_huge, storageOwn,
    StorageInner.appendCheck, StorageInner.appendPermit, StorageInner.appendSubmit,
    StorageInner.tryAcquirePermit, StorageInner.setPhase, hbackoff, hpermit,
    submitCheck_huge hstatus hcapacity, refused, setAppend, setStream]

def opened : Streams :=
  (run step (Streams.new S3Storage.smallConfig .defaults) openedSchedule).get
    (by decide +kernel)

theorem run_opened : run step (Streams.new S3Storage.smallConfig .defaults)
    (openedSchedule ++ refusedSchedule) = some opened.refused := by
  refine run_append.mpr
    ⟨opened, (Option.some_get _).symm, run_refusedSchedule ?_ ?_ ?_ ?_ ?_ ?_ ?_⟩
  all_goals decide +kernel

/-- A record that is too large for the WAL leaves a hole: the append behind it is confirmed, and
the confirm offset passes the offset of the refused record. -/
theorem refused_record_leaves_hole :
    ∃ s, run step (Streams.new S3Storage.smallConfig .defaults)
        (openedSchedule ++ refusedSchedule ++ .appendReserve 1 1 [7] :: confirmedSchedule 1) =
          some s ∧
      ∃ st ∈ s.streams, st.openedAt = 0 ∧ 0 < st.confirmOffset ∧
        (∀ x ∈ s.storage.wal.acks, 0 < x.record.baseOffset) ∧
        ∀ c ∈ s.storage.pipeline.confirmed, 0 < c.record.baseOffset := by
  obtain ⟨s, hs, hhole⟩ : ∃ s, run step opened.refused
      (.appendReserve 1 1 [7] :: confirmedSchedule 1) = some s ∧
        ∃ st ∈ s.streams, st.openedAt = 0 ∧ 0 < st.confirmOffset ∧
          (∀ x ∈ s.storage.wal.acks, 0 < x.record.baseOffset) ∧
          ∀ c ∈ s.storage.pipeline.confirmed, 0 < c.record.baseOffset := by
    decide +kernel
  exact ⟨s, run_append.mpr ⟨_, run_opened, hs⟩, hhole⟩

end Streams

end S3Stream
