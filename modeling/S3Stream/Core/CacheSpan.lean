import S3Stream.Core.ConfirmHook

/-! # Which confirmed records the cache takes

A block refuses a record with which its stream would span more than `i32::MAX` offsets. The retry
on a fresh block succeeds unless the record alone spans more, which is the case for one count
only, `i32::MIN`. Such a record is lost, and it leaves an active block behind that refuses every
later record and, having no bytes, is not sealed. -/

namespace S3Stream

open List LogCacheBlock TransitionSystem

/-- The least count of a batch, as an `i32`. -/
def i32Min : Int := -(2 ^ 31)

/-- The count of a batch is an `i32`. -/
def StreamRecordBatch.IsI32 (r : StreamRecordBatch) : Prop := i32Min ≤ r.count ∧ r.count ≤ i32Max

instance (r : StreamRecordBatch) : Decidable r.IsI32 := inferInstanceAs (Decidable (_ ∧ _))

theorem StreamRecordBatch.spanFits_iff {r : StreamRecordBatch} (h : r.IsI32) :
    r.SpanFits ↔ r.count ≠ i32Min := by
  obtain ⟨hge, hle⟩ := h
  unfold i32Min at hge ⊢
  unfold SpanFits lastOffset i32Max at *
  split <;> omega

theorem StreamRecordBatch.lastOffset_le {r : StreamRecordBatch} (h : r.IsI32) :
    r.lastOffset ≤ r.baseOffset + 2 ^ 31 := by
  obtain ⟨hge, hle⟩ := h
  unfold i32Min at hge
  unfold lastOffset
  unfold i32Max at hle
  split <;> omega

namespace LogCacheBlock

variable {b : LogCacheBlock} {r : StreamRecordBatch} {stop : Nat → Option Nat}

/-- A block without bytes has no streams, unless a record has overflown it. -/
structure Sane (b : LogCacheBlock) : Prop where
  maxSize : 0 < b.maxSize
  maxStreamCount : 0 < b.maxStreamCount
  untouched : b.overflow = false → b.size = 0 → b.map = .empty

theorem sane_new {blockId maxSize maxStreamCount : Nat} (hsize : 0 < maxSize)
    (hcount : 0 < maxStreamCount) : (new blockId maxSize maxStreamCount).Sane :=
  ⟨hsize, hcount, fun _ _ => rfl⟩

theorem Sane.put (h : b.Sane) : (b.put r).1.Sane := by
  generalize hp : b.put r = p
  cases put_effect hp with
  | full => exact h
  | overflow => exact ⟨h.maxSize, h.maxStreamCount, nofun⟩
  | added =>
    refine ⟨h.maxSize, h.maxStreamCount, fun _ hzero => ?_⟩
    simp [StreamRecordBatch.occupiedSize, objectOverhead] at hzero

theorem Sane.refused (h : b.Sane) (hput : (b.put r).2 = false) :
    0 < (b.put r).1.size ∨ (b.put r).1.overflow = true := by
  generalize hp : b.put r = p at hput
  cases put_effect hp with
  | full hfull =>
    by_contra hnot
    rw [not_or, Nat.not_lt, Nat.le_zero, Bool.not_eq_true] at hnot
    obtain ⟨hzero, hover⟩ : b.size = 0 ∧ b.overflow = false := hnot
    have hempty := h.untouched hover hzero
    have hsize := h.maxSize
    have hcount := h.maxStreamCount
    simp only [isFull, hzero, hover, hempty, OrdMap.empty, length_nil, Bool.false_or,
      Bool.or_eq_true, decide_eq_true_eq] at hfull
    omega
  | overflow => exact .inr rfl
  | added => cases hput

/-- While the block takes records, each of its streams starts at most `i32::MAX` offsets below the
end `stop` of the stream. -/
def Spans (b : LogCacheBlock) (stop : Nat → Option Nat) : Prop :=
  b.overflow = false → ∀ id c, b.map.get? id = some c →
    ∃ start d, c.startOffset = some start ∧ stop id = some (start + d) ∧ d ≤ i32Max

theorem spans_new {blockId maxSize maxStreamCount : Nat} :
    (new blockId maxSize maxStreamCount).Spans stop := by
  intro _ id c hc
  cases hc

/-- A record that is taken and goes on where its stream has ended spans at most `i32::MAX`
offsets. -/
theorem Spans.put (h : b.Spans stop) (hr : r.IsI32)
    (hbase : ∀ e ∈ stop r.streamId, r.baseOffset = e) (hput : (b.put r).2 = true) :
    r.SpanFits ∧ (b.put r).1.Spans (Function.update stop r.streamId (some r.lastOffset)) := by
  have hlast := StreamRecordBatch.lastOffset_le hr
  obtain ⟨n, hn⟩ := Nat.exists_eq_add_of_le r.baseOffset_le_lastOffset
  generalize hp : b.put r = p at hput
  cases put_effect hp with
  | full => cases hput
  | overflow => cases hput
  | @added c c' hnot hc hadd =>
    have hover : b.overflow = false := by
      simp only [isFull, Bool.or_eq_false_iff] at hnot
      exact hnot.1.1
    -- The stream starts `d` offsets below the record.
    obtain ⟨start, d, hstart, hd, hdle⟩ : ∃ start d, c.startOffset.getD r.baseOffset = start ∧
        r.baseOffset = start + d ∧ d ≤ i32Max := by
      cases hget : b.map.get? r.streamId with
      | none =>
        rw [hget] at hc
        subst hc
        exact ⟨r.baseOffset, 0, rfl, rfl, Nat.zero_le _⟩
      | some c₀ =>
        rw [hget] at hc
        obtain rfl : c = c₀ := hc
        obtain ⟨start, d, hstart, hstop, hd⟩ := h hover r.streamId c hget
        exact ⟨start, d, by rw [hstart]; rfl, hbase _ hstop, hd⟩
    have hsum : r.lastOffset = start + (d + n) := by omega
    simp only [StreamCache.add, hstart, hsum, Option.ite_none_left_eq_some,
      Option.some.injEq] at hadd
    have hlt : d + n < 2 ^ 64 := by unfold i32Max at hdle; omega
    rw [wrappingSub_add _ hlt, not_lt] at hadd
    obtain ⟨hle, rfl⟩ := hadd
    refine ⟨by unfold StreamRecordBatch.SpanFits; omega, fun _ id c hid => ?_⟩
    by_cases hsame : id = r.streamId
    · subst hsame
      rw [OrdMap.get?_insert_self] at hid
      cases hid
      exact ⟨start, d + n, rfl, by rw [Function.update_self, hsum], hle⟩
    · rw [OrdMap.get?_insert_of_ne hsame] at hid
      obtain ⟨start', d', hrest⟩ := h hover id c hid
      exact ⟨start', d', by rw [Function.update_of_ne hsame]; exact hrest⟩

end LogCacheBlock

namespace S3Storage

variable {s s' : S3Storage} {a : Action} {r : StreamRecordBatch} {o : RecordOffset}

def confirmedOf (cs : List ConfirmedRecord) (id : Nat) : List StreamRecordBatch :=
  (cs.map ConfirmedRecord.record).filter (·.streamId = id)

/-- Where the confirmed records of a stream end. -/
def stopOf (cs : List ConfirmedRecord) (id : Nat) : Option Nat :=
  (confirmedOf cs id).getLast?.map StreamRecordBatch.lastOffset

/-- The counts are `i32`s and each record of a stream starts where the one before has ended. -/
structure Contiguous (cs : List ConfirmedRecord) : Prop where
  counts : ∀ c ∈ cs, c.record.IsI32
  chain : ∀ id, (confirmedOf cs id).IsChain fun r r' => r'.baseOffset = r.lastOffset

theorem confirmedOf_concat (cs : List ConfirmedRecord) (c : ConfirmedRecord) (id : Nat) :
    confirmedOf (cs ++ [c]) id =
      confirmedOf cs id ++ if c.record.streamId = id then [c.record] else [] := by
  rw [confirmedOf, map_append, filter_append]
  by_cases hid : c.record.streamId = id <;> simp [confirmedOf, hid]

theorem stopOf_concat (cs : List ConfirmedRecord) (c : ConfirmedRecord) :
    stopOf (cs ++ [c]) = Function.update (stopOf cs) c.record.streamId
      (some c.record.lastOffset) := by
  funext id
  rw [stopOf, confirmedOf_concat]
  by_cases hid : id = c.record.streamId
  · simp [hid]
  · rw [Function.update_of_ne hid, if_neg (Ne.symm hid), append_nil]
    rfl

theorem Contiguous.of_concat (h : Contiguous (cs ++ [c])) : Contiguous cs ∧ c.record.IsI32 ∧
      ∀ e ∈ stopOf cs c.record.streamId, c.record.baseOffset = e := by
  have hchain : ∀ id, (confirmedOf cs id).IsChain fun r r' => r'.baseOffset = r.lastOffset := by
    intro id
    have hid := h.chain id
    rw [confirmedOf_concat, isChain_append] at hid
    exact hid.1
  refine ⟨⟨fun c' hc' => h.counts c' (mem_append_left _ hc'), hchain⟩,
    h.counts c (by simp), fun e he => ?_⟩
  obtain ⟨r', hr', rfl⟩ := Option.map_eq_some_iff.mp he
  have hid := h.chain c.record.streamId
  rw [confirmedOf_concat, if_pos rfl, isChain_append] at hid
  exact hid.2.2 r' hr' c.record rfl

/-- The active block, whatever records were confirmed: it spans its streams, and only records
that fit were taken. -/
structure Intake (s : S3Storage) : Prop where
  maxSize : 0 < s.logCache.cacheBlockMaxSize
  maxStreamCount : 0 < s.logCache.maxCacheBlockStreamCount
  sane : s.logCache.active.Sane
  spans : Contiguous s.confirmed → s.logCache.active.Spans (stopOf s.confirmed)
  taken : Contiguous s.confirmed → ∀ c ∈ s.confirmed, c.block.isSome → c.record.SpanFits

theorem Intake.new {config : S3StorageConfig}
    (hconfig : 0 < config.maxStreamNumPerStreamSetObject) : (S3Storage.new config).Intake where
  maxSize := lt_of_lt_of_le Nat.zero_lt_one (le_max_right _ _)
  maxStreamCount := hconfig
  sane := sane_new
    (lt_of_lt_of_le Nat.zero_lt_one (le_max_right _ _)) hconfig
  spans _ := spans_new
  taken _ := nofun

theorem Intake.congr (h : s.Intake) (hfront : s'.logCache.front = s.logCache.front)
    (hconfirmed : s'.confirmed = s.confirmed) : s'.Intake := by
  simp only [LogCache.front, Prod.mk.injEq] at hfront
  obtain ⟨hactive, -, hsize, hcount⟩ := hfront
  refine ⟨?_, ?_, ?_, ?_, ?_⟩
  · rw [hsize]; exact h.maxSize
  · rw [hcount]; exact h.maxStreamCount
  · rw [hactive]; exact h.sane
  · rw [hactive, hconfirmed]; exact h.spans
  · rw [hconfirmed]; exact h.taken

theorem Intake.uploadDeltaWal (h : s.Intake) : (s.uploadDeltaWal streamId force).Intake := by
  rw [uploadDeltaWal_eq]
  split
  · exact ⟨h.maxSize, h.maxStreamCount, sane_new h.maxSize h.maxStreamCount,
      fun _ => spans_new, h.taken⟩
  · exact h

/-- The record is taken by a block that spans its streams, or the active block has overflown. -/
theorem Intake.putOrSeal (h : s.Intake) :
    (s.putOrSeal r).1.logCache.active.Sane ∧
    (((s.putOrSeal r).2 = true ∧ ∃ b : LogCacheBlock,
        (Contiguous s.confirmed → b.Spans (stopOf s.confirmed)) ∧ (b.put r).2 = true ∧
        (s.putOrSeal r).1.logCache.active = (b.put r).1) ∨
      (s.putOrSeal r).2 = false ∧ (s.putOrSeal r).1.logCache.active.overflow = true) := by
  rcases putOrSeal_cases with ⟨hput, heq⟩ | ⟨hput, heq⟩
  · rw [heq]
    exact ⟨h.sane.put, .inl ⟨rfl, s.logCache.active, h.spans, hput, rfl⟩⟩
  · have hrefused : 0 < (s.putCache r).1.logCache.active.size ∨
        (s.putCache r).1.logCache.active.overflow = true := h.sane.refused hput
    rw [heq, uploadDeltaWal_eq]
    split
    · -- The retry meets an empty block.
      set fresh := LogCacheBlock.new (s.putCache r).1.logCache.nextBlockId
        (s.putCache r).1.logCache.cacheBlockMaxSize
        (s.putCache r).1.logCache.maxCacheBlockStreamCount with hfresh
      have hsane : fresh.Sane := LogCacheBlock.sane_new h.maxSize h.maxStreamCount
      refine ⟨hsane.put, ?_⟩
      cases hretry : (fresh.put r).2 with
      | true => exact .inl ⟨hretry, fresh, fun _ => LogCacheBlock.spans_new, hretry, rfl⟩
      | false =>
        refine .inr ⟨hretry, ?_⟩
        rcases hsane.refused hretry with hpos | hover
        · rw [LogCacheBlock.size_of_put_refused hretry] at hpos
          exact absurd hpos (by simp [hfresh, LogCacheBlock.new])
        · exact hover
    · -- A block without bytes is not sealed: it has overflown and stays.
      next hnot =>
      have hover : (s.putCache r).1.logCache.active.overflow = true := by
        rcases hrefused with hpos | hover
        · exact absurd (by simpa [LogCache.shouldArchive] using hpos) hnot
        · exact hover
      have hfull : (s.putCache r).1.logCache.active.isFull = true := by
        simp [LogCacheBlock.isFull, hover]
      have hsame : (s.putCache r).1.logCache.active.put r =
          ((s.putCache r).1.logCache.active, false) := by
        rw [LogCacheBlock.put, if_pos hfull]
      have hsane : (s.putCache r).1.logCache.active.Sane := h.sane.put
      refine ⟨hsane.put, .inr ⟨congrArg Prod.snd hsame, ?_⟩⟩
      exact (congrArg (fun p => p.1.overflow) hsame).trans hover

theorem limits_putOrSeal :
    (s.putOrSeal r).1.logCache.cacheBlockMaxSize = s.logCache.cacheBlockMaxSize ∧
      (s.putOrSeal r).1.logCache.maxCacheBlockStreamCount =
        s.logCache.maxCacheBlockStreamCount := by
  rcases putOrSeal_cases with ⟨-, heq⟩ | ⟨-, heq⟩
  · rw [heq]; exact ⟨rfl, rfl⟩
  · rw [heq, uploadDeltaWal_eq]
    split <;> exact ⟨rfl, rfl⟩

theorem confirmed_putOrSeal : (s.putOrSeal r).1.confirmed = s.confirmed :=
  putOrSeal_frame _ fun _ _ _ _ _ => rfl

theorem Intake.confirm (h : s.Intake) : (s.handleAppendConfirm r o).Intake := by
  obtain ⟨hsane, hcase⟩ := h.putOrSeal (r := r)
  have hconfirmed := confirmed_handleAppendConfirm (s := s) (r := r) (o := o)
  rw [confirmed_putOrSeal] at hconfirmed
  obtain ⟨hsize, hcount⟩ := limits_putOrSeal (s := s) (r := r)
  refine ⟨hsize.symm ▸ h.maxSize, hcount.symm ▸ h.maxStreamCount, hsane, fun hall => ?_,
    fun hall => ?_⟩
  · rw [hconfirmed] at hall ⊢
    obtain ⟨hold, hi32, hbase⟩ := hall.of_concat
    rw [stopOf_concat]
    rcases hcase with ⟨-, b, hb, hput, hactive⟩ | ⟨-, hover⟩
    · show (s.putOrSeal r).1.logCache.active.Spans _
      rw [hactive]
      exact ((hb hold).put hi32 hbase hput).2
    · intro hnot
      cases hover.symm.trans hnot
  · rw [hconfirmed] at hall ⊢
    obtain ⟨hold, hi32, hbase⟩ := hall.of_concat
    refine forall_mem_append.mpr ⟨h.taken hold, forall_mem_singleton.mpr fun hsome => ?_⟩
    rcases hcase with ⟨-, b, hb, hput, -⟩ | ⟨hadded, -⟩
    · exact ((hb hold).put hi32 hbase hput).1
    · rw [hadded] at hsome
      cases hsome

theorem Intake.step (h : s.Intake) (hstep : s.step a = some s') : s'.Intake := by
  cases effect_of_step hstep with
  | confirm => exact h.confirm
  | uploadDeltaWal | forceSeal => exact h.uploadDeltaWal.congr rfl rfl
  | commitTrim =>
    unfold S3Storage.delayTrim
    split <;> exact h.congr rfl rfl
  | commitFree => exact h.congr (LogCache.front_markFree _ _) rfl
  | _ => exact h.congr rfl rfl

theorem cached_step (h : (∀ c ∈ s.confirmed, c.record.SpanFits) → s.Cached)
    (hstep : s.step a = some s') (hfits : ∀ c ∈ s'.confirmed, c.record.SpanFits) : s'.Cached := by
  by_cases ha : ∃ r o, a = .confirm r o
  · obtain ⟨r, o, rfl⟩ := ha
    obtain ⟨block, hconfirmed⟩ := confirmed_of_confirm hstep
    rw [hconfirmed] at hfits
    refine (h fun c hc => hfits c (mem_append_left _ hc)).step ?_ hstep
    rintro r' o' heq
    obtain ⟨rfl, rfl⟩ := Action.confirm.inj heq
    exact hfits ⟨r, o, block⟩ (by simp)
  · have hne : ∀ r o, a ≠ .confirm r o := fun r o heq => ha ⟨r, o, heq⟩
    rw [confirmed_of_step hstep hne] at hfits
    exact (h hfits).step (fun r o heq => absurd heq (hne r o)) hstep

/-- Every confirmed record is in a block, sealed or active, exactly if none has the count
`i32::MIN`. -/
theorem confirmed_cached_iff {config : S3StorageConfig} {as : List Action}
    (hconfig : 0 < config.maxStreamNumPerStreamSetObject)
    (hrun : run step (S3Storage.new config) as = some s)
    (hcontiguous : Contiguous s.confirmed) :
    (∀ c ∈ s.confirmed, ∃ k, c.block = some k ∧ s.HeldIn c.record k) ↔
      ∀ c ∈ s.confirmed, c.record.count ≠ i32Min := by
  have hintake : s.Intake := run_invariant Intake.step (.new hconfig) hrun
  have hcached : (∀ c ∈ s.confirmed, c.record.SpanFits) → s.Cached :=
    run_invariant
      cached_step
      (fun _ => .new hconfig) hrun
  constructor
  · intro hall c hc
    obtain ⟨k, hk, -⟩ := hall c hc
    exact (StreamRecordBatch.spanFits_iff (hcontiguous.counts c hc)).mp
      (hintake.taken hcontiguous c hc (by rw [hk]; rfl))
  · intro hall
    refine (hcached fun c hc => ?_).held
    exact (StreamRecordBatch.spanFits_iff (hcontiguous.counts c hc)).mpr (hall c hc)

/-- A plain record and a link record of one stream. -/
def linkSchedule : List Action :=
  [.confirm ⟨1, 0, 0, 1, []⟩ ⟨0, 0, 57⟩, .confirm ⟨1, 0, 1, -5, []⟩ ⟨0, 57, 57⟩]

theorem confirmed_cached_link :
    ∃ s, run step (S3Storage.new smallConfig) linkSchedule = some s ∧
      s.confirmed.length = 2 ∧
      ∀ c ∈ s.confirmed, ∃ k, c.block = some k ∧ s.HeldIn c.record k := by
  obtain ⟨s, hs, hrecords⟩ : ∃ s,
      run step (S3Storage.new smallConfig) linkSchedule = some s ∧
        s.confirmed.map ConfirmedRecord.record = [⟨1, 0, 0, 1, []⟩, ⟨1, 0, 1, -5, []⟩] := by
    decide +kernel
  have hall : ∀ c ∈ s.confirmed, c.record.IsI32 ∧ c.record.count ≠ i32Min := by
    intro c hc
    have hmem := mem_map_of_mem (f := ConfirmedRecord.record) hc
    rw [hrecords] at hmem
    simp only [mem_cons, not_mem_nil, or_false] at hmem
    rcases hmem with heq | heq <;> rw [heq] <;> decide
  have hcontiguous : Contiguous s.confirmed := by
    refine ⟨fun c hc => (hall c hc).1, fun id => ?_⟩
    rw [confirmedOf, hrecords]
    by_cases hid : 1 = id <;> simp [hid, StreamRecordBatch.lastOffset]
  refine ⟨s, hs, ?_, (confirmed_cached_iff (by decide) hs hcontiguous).mpr fun c hc =>
    (hall c hc).2⟩
  rw [← length_map, hrecords]
  rfl

/-- A link record with the count `i32::MIN`, then a plain record of another stream. The second
`upload_delta_wal` is the one of `handle_append_confirm` behind its failed retry. -/
def poisonSchedule : List Action :=
  [.confirm ⟨1, 0, 0, i32Min, []⟩ ⟨0, 0, 57⟩, .uploadDeltaWal matchAllStreams false,
    .confirm ⟨2, 0, 0, 1, []⟩ ⟨0, 57, 57⟩, .uploadDeltaWal matchAllStreams false]

/-- Neither record is cached, and the active block, which refuses every record, is not sealed for
an upload of all streams. -/
theorem min_count_poisons_cache :
    ∃ s, run step (S3Storage.new smallConfig) poisonSchedule = some s ∧
      s.confirmed.map ConfirmedRecord.block = [none, none] ∧ s.tasks.length = 0 ∧
      s.logCache.active.isFull = true ∧ s.logCache.shouldArchive matchAllStreams = false := by
  decide +kernel

end S3Storage

end S3Stream
