import S3Stream.Core.StorageRecovery

/-! # A recovery that is cut

A call of `recover` that follows a cut one scans the whole WAL again, from the ends that the commits
of the cut one have left. It takes what is still to be committed and nothing else, as long as no
record of the stream stands in the WAL before the one committed last and starts where that one
ends: such a record was dropped as discontinuous, and the second scan takes it. -/

namespace S3Stream

open List ChainScan StreamRecordBatch

/-! ## One stream of a scan -/

theorem filter_scanOnce (m : OrdMap Nat Nat) (rs : List StreamRecordBatch) (id : Nat) :
    (scanOnce m rs).1.filter (·.streamId = id) =
      match m.get? id with
      | none => []
      | some e => scan StreamRecordBatch.baseOffset StreamRecordBatch.lastOffsetU64 e
          (rs.filter (·.streamId = id)) := by
  induction rs generalizing m with
  | nil =>
    rw [scanOnce]
    cases m.get? id <;> rfl
  | cons r rs ih =>
    by_cases hid : r.streamId = id
    · subst hid
      rw [filter_cons_of_pos (by simp)]
      by_cases hbase : m.get? r.streamId = some r.baseOffset
      · rw [scanOnce_cons_of_pos hbase, filter_cons_of_pos (by simp), ih, hbase,
          OrdMap.get?_insert_self]
        exact (scan_cons_of_eq rfl).symm
      · rw [scanOnce_cons_of_neg hbase, ih]
        cases hget : m.get? r.streamId with
        | none => rfl
        | some =>
          refine (scan_cons_of_ne fun heq => hbase ?_).symm
          rw [hget, heq]
    · rw [filter_cons_of_neg (by simpa using hid)]
      by_cases hbase : m.get? r.streamId = some r.baseOffset
      · rw [scanOnce_cons_of_pos hbase, filter_cons_of_neg (by simpa using hid), ih,
          OrdMap.get?_insert_of_ne (Ne.symm hid)]
      · rw [scanOnce_cons_of_neg hbase, ih]

theorem get?_foldl_insert {streams : List OpeningStream} {m : OrdMap Nat Nat} {id : Nat}
    (h : id ∉ streams.map OpeningStream.streamId) :
    (streams.foldl (fun m o => m.insert o.streamId o.endOffset) m).get? id = m.get? id := by
  induction streams generalizing m with
  | nil => rfl
  | cons o streams ih =>
    rw [map_cons, mem_cons, not_or] at h
    rw [foldl_cons, ih h.2, OrdMap.get?_insert_of_ne h.1]

theorem get?_endOffsets (hnodup : (streams.map OpeningStream.streamId).Nodup) (ho : o ∈ streams) :
    (endOffsets streams).get? o.streamId = some o.endOffset := by
  obtain ⟨front, back, rfl⟩ := append_of_mem ho
  rw [map_append, map_cons, nodup_append, nodup_cons] at hnodup
  rw [endOffsets, foldl_append, foldl_cons, get?_foldl_insert hnodup.2.1.1, OrdMap.get?_insert_self]

theorem get?_endOffsets_of_not_mem {id : Nat} (h : id ∉ streams.map OpeningStream.streamId) :
    (endOffsets streams).get? id = none := by
  rw [endOffsets, get?_foldl_insert h, OrdMap.get?_empty]

/-! ## The blocks -/

namespace Recovery

variable {s s₀ s' : Recovery} {rest rest' : List RecoverResult} {added : List StreamRecordBatch}
  {P : LogCacheBlock → Prop}

theorem process_block (hput : ∀ b, P b → P (b.put x.record).1) (hs : P s.cacheBlock) :
    P (s.process x).cacheBlock := by
  have heffect := processRecord_effect x s.openingStreamEndOffsets s.cacheBlock
  unfold process
  generalize processRecord x s.openingStreamEndOffsets s.cacheBlock = p at heffect
  cases heffect with
  | dropped => exact hs
  | added => exact hput _ hs
  | refused => exact hput _ hs

theorem fillFrom_block {it : List (Except WalError RecoverResult)}
    (hput : ∀ x, .ok x ∈ it → ∀ b, P b → P (b.put x.record).1) (hs : P s.cacheBlock)
    (h : fillFrom it s = .ok s') : P s'.cacheBlock := by
  induction it generalizing s with
  | nil =>
    rw [fillFrom] at h
    split at h <;> cases h <;> exact hs
  | cons y it ih =>
    cases y with
    | error =>
      rw [fillFrom] at h
      split at h
      · cases h
        exact hs
      · cases h
    | ok x =>
      rw [fillFrom] at h
      split at h
      · cases h
        exact hs
      · have hprocess := process_block (hput x mem_cons_self) hs
        dsimp only at h
        split at h
        · cases h
          exact hprocess
        · exact ih (fun y hy => hput y (mem_cons_of_mem _ hy)) hprocess h

/-- What every `put` of a record keeps holds of the block behind the inner loop. -/
theorem fill_block
    (hput : ∀ x, .ok x ∈ s.it ∨ s.next = some x → ∀ b, P b → P (b.put x.record).1)
    (hs : P s.cacheBlock) (h : s.fill = .ok s') : P s'.cacheBlock := by
  unfold fill at h
  split at h
  · split at h
    · cases h
      exact hs
    · exact fillFrom_block (fun x hx => hput x (.inl hx)) hs h
  next x hx =>
    split at h
    · cases h
      exact hs
    · have hprocess : P (({ s with next := none } : Recovery).process x).cacheBlock :=
        process_block (hput x (.inr hx)) hs
      have hit : (({ s with next := none } : Recovery).process x).it = s.it := by
        unfold process
        split <;> rfl
      dsimp only at h
      split at h
      · cases h
        exact hprocess
      · split at h
        · cases h
          exact hprocess
        · rw [hit] at h
          exact fillFrom_block (fun x hx => hput x (.inl hx)) hprocess h

end Recovery

/-- A block that an upload can take: no stream of it is empty. -/
structure LogCacheBlock.Filled (b : LogCacheBlock) : Prop where
  accepting : b.Accepting
  ne : ∀ e ∈ b.map.entries, e.2.records ≠ []
  count : b.map.entries.length ≤ b.maxStreamCount
  maxStreamCount : b.maxStreamCount = defaultMaxBlockStreamCount

theorem LogCacheBlock.filled_new (blockId : Nat) :
    (new blockId (2 ^ 29) defaultMaxBlockStreamCount).Filled :=
  ⟨accepting_new (by norm_num) (by decide), nofun, Nat.zero_le _, rfl⟩

/-- A refused record leaves no empty stream behind: the first record of a stream is not refused for
its offset. -/
theorem LogCacheBlock.Filled.put {b : LogCacheBlock} (h : b.Filled) (hr : r.SpanFits) :
    (b.put r).1.Filled := by
  have haccepting := h.accepting.put hr
  generalize hp : b.put r = p at haccepting
  have hroom : ∀ {c}, b.isFull = false →
      (b.map.insert r.streamId c).entries.length ≤ b.maxStreamCount := by
    intro c hnot
    have hlt : b.map.entries.length < b.maxStreamCount := by
      simp only [isFull, Bool.or_eq_false_iff, decide_eq_false_iff_not, not_le] at hnot
      exact hnot.2
    exact (b.map.length_insert_le r.streamId c).trans hlt
  cases put_effect hp with
  | full => exact h
  | overflow hnot hc hadd =>
    refine ⟨haccepting, fun e he => ?_, hroom hnot, h.maxStreamCount⟩
    rcases OrdMap.eq_or_mem_of_mem_insert he with rfl | he
    · cases hget : b.map.get? r.streamId with
      | none =>
        rw [hget, Option.getD_none] at hc
        have hsome := StreamCache.isSome_add_new hr
        rw [← hc, hadd] at hsome
        cases hsome
      | some =>
        rw [hget, Option.getD_some] at hc
        rw [hc]
        exact h.ne _ (OrdMap.mem_of_get? hget)
    · exact h.ne e he
  | added hnot hc hadd =>
    refine ⟨haccepting, fun e he => ?_, hroom hnot, h.maxStreamCount⟩
    rcases OrdMap.eq_or_mem_of_mem_insert he with rfl | he
    · rw [StreamCache.records_of_add hadd]
      exact append_ne_nil_of_right_ne_nil _ (cons_ne_nil _ _)
    · exact h.ne e he

namespace Recovery

variable {s s₀ s' : Recovery} {rest rest' : List RecoverResult} {added : List StreamRecordBatch}

theorem filled_of_fill (h : s.Between rest) (hlook : s.lookAhead = .ok (some s₀))
    (hfill : (s₀.startBlock (2 ^ 29) 0).fill = .ok s') : s'.cacheBlock.Filled := by
  have hok : ∀ x, .ok x ∈ s.it → x.record.SpanFits := by
    intro x hx
    rw [h.it] at hx
    obtain ⟨y, hy, heq⟩ := mem_map.mp hx
    obtain rfl : y = x := Except.ok.inj heq
    exact (h.plain y (mem_append_right _ hy)).spanFits
  have hlooked : (∀ x, .ok x ∈ s₀.it ∨ s₀.next = some x → x.record.SpanFits) ∧
      s₀.pending = s.pending := by
    unfold lookAhead at hlook
    split at hlook
    · cases hlook
      refine ⟨fun x hx => hx.elim (hok x) fun hnext => ?_, rfl⟩
      rw [h.next] at hnext
      cases hnext
    · split at hlook
      · cases hlook
      · split at hlook
        · cases hlook
        · cases hlook
        next result it hit =>
          cases hlook
          refine ⟨fun x hx => ?_, rfl⟩
          rcases hx with hx | hx
          · exact hok x (hit ▸ mem_cons_of_mem _ hx)
          · cases hx
            exact hok result (hit ▸ mem_cons_self)
  obtain ⟨hspan, hpending⟩ := hlooked
  have hstart : (s₀.startBlock (2 ^ 29) 0).cacheBlock.Filled ∧
      (s₀.startBlock (2 ^ 29) 0).it = s₀.it ∧ (s₀.startBlock (2 ^ 29) 0).next = s₀.next := by
    unfold startBlock
    split
    · exact ⟨LogCacheBlock.filled_new 0, rfl, rfl⟩
    next x hx =>
      refine ⟨(LogCacheBlock.filled_new 0).put ?_, rfl, rfl⟩
      rw [hpending] at hx
      exact (h.plain x (by simp [hx])).spanFits
  refine fill_block (fun x hx b hb => hb.put (hspan x ?_))
    hstart.1 hfill
  rwa [hstart.2.1, hstart.2.2] at hx

/-- The results of the WAL that are still to be processed. -/
def todoLength (r : Recovery) : Nat := r.pending.toList.length + r.it.length

/-- A pass of the loop in front of at least one record: a block without records is passed over, any
other one is planned. -/
theorem exists_nextBlock (h : s.Between rest) (hne : s.pending.toList ++ rest ≠ []) :
    ∃ s' rest' added, HandsOver s s' rest rest' added ∧ s'.sealedBlock.Filled ∧
      ∀ (config : UploadConfig) (w : StorageRecovery),
        w.nextBlock config s = w.handleBlock config s' s'.sealedBlock := by
  obtain ⟨s₀, s', rest', added, hlook, hfill, hover⟩ :=
    exists_handsOver 0 (show 0 < 2 ^ 29 by norm_num) h hne
  have hfilled := filled_of_fill h hlook hfill
  have hsealed : s'.sealedBlock.Filled := by
    unfold sealedBlock
    split
    · exact hfilled
    · exact ⟨⟨hfilled.accepting.maxSize, hfilled.accepting.maxStreamCount,
        hfilled.accepting.untouched⟩, hfilled.ne, hfilled.count, hfilled.maxStreamCount⟩
  refine ⟨s', rest', added, hover, hsealed, fun config w => ?_⟩
  unfold StorageRecovery.nextBlock
  rw [hlook]
  dsimp only
  rw [hfill]
  dsimp only
  rw [decodeLinkRecords_plain none (hover.plain h)]

end Recovery

/-! ## Commits -/

namespace StorageRecovery

/-- A commit: for every stream of the block one range, that of its records. -/
structure Describes (c : CommitStreamSetObjectRequest × OrdMap Nat (List StreamRecordBatch)) :
    Prop where
  ranges : (c.1.ranges.map fun r => (r.1, some r.2.1, some r.2.2)).Perm
    (c.2.entries.map fun e => (e.1, e.2.head?.map StreamRecordBatch.baseOffset,
      e.2.getLast?.map StreamRecordBatch.lastOffsetU64))
  ne : ∀ e ∈ c.2.entries, e.2 ≠ []

theorem Describes.filter_ranges (h : Describes c) (id : Nat) :
    (c.1.ranges.filter (·.1 = id)).map (fun r => (r.1, some r.2.1, some r.2.2)) =
      (c.2.get? id).toList.map fun rs => (id, rs.head?.map baseOffset,
        rs.getLast?.map lastOffsetU64) := by
  have hperm := h.ranges.filter fun x => x.1 = id
  rw [filter_map, filter_map] at hperm
  have hentries : c.2.entries.filter ((fun x : Nat × Option Nat × Option Nat => decide (x.1 = id)) ∘
      fun e => (e.1, e.2.head?.map baseOffset, e.2.getLast?.map lastOffsetU64)) =
      ((c.2.get? id).map fun v => (id, v)).toList := c.2.entries_filter_key id
  rw [hentries] at hperm
  cases hget : c.2.get? id with
  | none =>
    rw [hget] at hperm
    exact perm_nil.mp hperm
  | some =>
    rw [hget] at hperm
    exact perm_singleton.mp hperm

/-- A stream of a commit ends behind its last record, any other one where it did. -/
theorem Describes.endOffset_advance (h : Describes c) (o : OpeningStream) :
    (advance c.1 o).endOffset = stop lastOffsetU64 o.endOffset
      ((c.2.get? o.streamId).getD []) := by
  have hfilter := congrArg head? (h.filter_ranges o.streamId)
  rw [head?_map, head?_filter] at hfilter
  unfold advance stop
  dsimp only
  cases hget : c.2.get? o.streamId with
  | none =>
    rw [hget] at hfilter
    rw [Option.map_eq_none_iff.mp hfilter]
    rfl
  | some rs =>
    rw [hget] at hfilter
    obtain ⟨r, hr, heq⟩ := Option.map_eq_some_iff.mp hfilter
    have hlast : rs.getLast?.map lastOffsetU64 = some r.2.2 := (congrArg (fun x => x.2.2) heq).symm
    rw [hr, Option.getD_some, hlast]
    rfl

variable {config : UploadConfig} {s s' : StorageRecovery}

theorem committedOf_commit (s : StorageRecovery) (id : Nat) (opening : List OpeningStream)
    (phase : RecoverPhase) :
    ({ s with commits := s.commits ++ [c], opening, phase } : StorageRecovery).committedOf id =
      s.committedOf id ++ (c.2.get? id).getD [] := by
  rw [committedOf, committedOf, flatMap_append, flatMap_singleton]

/-! ## What holds between the actions -/

/-- What `recover` starts on: no two opening streams have one id, and every record has a count. -/
structure Initial (d : StorageRecovery) : Prop where
  phase : d.phase = .idle
  commits : d.commits = []
  nodup : (d.opening.map OpeningStream.streamId).Nodup
  counts : ∀ x ∈ d.wal, 1 ≤ x.record.count ∧ x.record.count ≤ i32Max

/-- The metadata plane and the WAL in a recovery that has begun with `d`. -/
structure Safe (d s : StorageRecovery) : Prop where
  ids : (s.opening.map OpeningStream.streamId).Sublist (d.opening.map OpeningStream.streamId)
  ends : ∀ o ∈ s.opening, ∃ o₀ ∈ d.opening, o₀.streamId = o.streamId ∧
    o.endOffset = stop StreamRecordBatch.lastOffsetU64 o₀.endOffset (s.committedOf o.streamId)
  committed : ∀ id, s.committedOf id <+: d.kept id
  closed : ∀ id, id ∉ s.opening.map OpeningStream.streamId → s.committedOf id = d.kept id
  wal : s.wal = d.wal ∨ s.wal = [] ∧ s.opening = []
  commits : ∀ c ∈ s.commits, Describes c

/-- The call in front of the block of `records`, with the loop variables `r` behind it. -/
structure Pending (d s : StorageRecovery) (r : Recovery)
    (records : OrdMap Nat (List StreamRecordBatch)) : Prop where
  streams : s.streams.map OpeningStream.streamId = s.opening.map OpeningStream.streamId
  left : ∃ rest, r.Between rest ∧ ∀ id, s.committedOf id ++ ((records.get? id).getD [] ++
    (scanOnce r.openingStreamEndOffsets (r.todo rest)).1.filter (·.streamId = id)) = d.kept id
  ne : ∀ e ∈ records.entries, e.2 ≠ []
  count : records.entries.length ≤ defaultMaxBlockStreamCount

/-- What the objects that are written so far have given. -/
structure Uploading (config : UploadConfig) (records : OrdMap Nat (List StreamRecordBatch))
    (task : UploadWalTask) (objectId : Nat) (written : List (Option WrittenObject)) : Prop where
  task_eq : task = (UploadWalTask.plan config records).prepare objectId
  lease : objectId + (UploadWalTask.plan config records).objectCount ≤ noopObjectId
  length : written.length = (task.objectWrites objectId).length
  results : ∀ (k : Nat) w o, (task.objectWrites objectId)[k]? = some w →
    written[k]? = some (some o) →
      ObjectWrite.Result config.objectBlockSize config.objectPartSize w o

/-- What holds of the call of `recover` where it stands. -/
inductive Stands (config : UploadConfig) (d s : StorageRecovery) : RecoverPhase → Prop
  | idle : Stands config d s .idle
  | filling {r} (h : Pending d s r .empty) : Stands config d s (.filling r)
  | planned {r records} (h : Pending d s r records) :
      Stands config d s (.planned r records (.plan config records))
  | uploading {r records task objectId written} (h : Pending d s r records)
      (hup : Uploading config records task objectId written) :
      Stands config d s (.uploading r records task written)
  | uploaded {r records task request} (h : Pending d s r records)
      (hrequest : task.commitRequest = some request) (hdescribes : Describes (request, records)) :
      Stands config d s (.uploaded r records task)
  | closing {streams}
      (hstreams : streams.map OpeningStream.streamId = s.opening.map OpeningStream.streamId)
      (hall : ∀ id, s.committedOf id = d.kept id) : Stands config d s (.closing streams)
  | resetting (hopening : s.opening = []) (hall : ∀ id, s.committedOf id = d.kept id) :
      Stands config d s .resetting
  | finished (hopening : s.opening = []) (hwal : s.wal = [])
      (hall : ∀ id, s.committedOf id = d.kept id) : Stands config d s .finished

structure Inv (config : UploadConfig) (d s : StorageRecovery) : Prop where
  safe : Safe d s
  stands : Stands config d s s.phase

theorem Inv.stands_of (h : Inv config d s) (hphase : s.phase = p) : Stands config d s p :=
  hphase ▸ h.stands

/-- No record of an opening stream stands in the WAL before the one that was committed last, and
starts where that one ends. -/
def InOrder (s : StorageRecovery) : Prop :=
  ∀ o ∈ s.opening, ∀ r ∈ (s.committedOf o.streamId).getLast?,
    s.wal.Pairwise fun y x => x.record = r →
      ¬(y.record.streamId = o.streamId ∧ y.record.baseOffset = o.endOffset)

theorem baseOffset_ne_lastOffsetU64 {r : StreamRecordBatch} (h : 1 ≤ r.count ∧ r.count ≤ i32Max) :
    r.baseOffset ≠ r.lastOffsetU64 := by
  obtain ⟨hpos, hle⟩ := h
  unfold i32Max at hle
  rw [lastOffsetU64, lastOffset]
  split <;> omega

/-- What the scan from the ends that `s` has come to keeps of a stream is what is still to be
committed. -/
theorem Safe.resume (hd : d.Initial) (h : Safe d s) (horder : s.InOrder) (id : Nat) :
    s.committedOf id ++ (scanOnce (endOffsets s.opening) (s.wal.map RecoverResult.record)).1.filter
      (·.streamId = id) = d.kept id := by
  have hnodup : (s.opening.map OpeningStream.streamId).Nodup := h.ids.nodup hd.nodup
  rw [filter_scanOnce]
  by_cases hid : id ∈ s.opening.map OpeningStream.streamId
  · obtain ⟨o, ho, rfl⟩ := mem_map.mp hid
    obtain ⟨o₀, ho₀, hid₀, hend⟩ := h.ends o ho
    have hwal : s.wal = d.wal := by
      refine h.wal.resolve_right fun hnone => ?_
      rw [hnone.2] at ho
      cases ho
    have hkept : d.kept o.streamId = scan baseOffset
        lastOffsetU64 o₀.endOffset
          ((d.wal.map RecoverResult.record).filter (·.streamId = o.streamId)) := by
      rw [kept, filter_scanOnce, ← hid₀, get?_endOffsets hd.nodup ho₀]
    rw [get?_endOffsets hnodup ho, hwal]
    dsimp only
    obtain ⟨left, hleft⟩ := h.committed o.streamId
    rw [← hleft]
    refine congrArg (_ ++ ·) ?_
    cases hlast : (s.committedOf o.streamId).getLast? with
    | none =>
      rw [getLast?_eq_none_iff.mp hlast, nil_append] at hleft
      rw [getLast?_eq_none_iff.mp hlast, stop_nil] at hend
      rw [hend, ← hkept, hleft]
    | some k =>
      have hstop : o.endOffset = k.lastOffsetU64 := by
        rw [hend, stop, hlast]
        rfl
      have hpair := horder o ho k hlast
      rw [hstop, hwal] at hpair
      rw [hstop]
      refine ChainScan.resume (fun r hr => ?_) (hkept.symm.trans hleft.symm) hlast ?_
      · obtain ⟨x, hx, rfl⟩ := mem_map.mp (mem_of_mem_filter hr)
        exact baseOffset_ne_lastOffsetU64 (hd.counts x hx)
      · rw [pairwise_filter, pairwise_map]
        refine hpair.imp fun hyx hy _ heq hbase => hyx heq ⟨?_, hbase⟩
        exact of_decide_eq_true hy
  · rw [get?_endOffsets_of_not_mem hid]
    exact (append_nil _).trans (h.closed id hid)

/-! ## The actions -/

theorem Inv.initial (hd : d.Initial) : Inv config d d := by
  have hnone : ∀ id, d.committedOf id = [] := by
    intro id
    rw [committedOf, hd.commits]
    rfl
  refine ⟨⟨.refl _, fun o ho => ⟨o, ho, rfl, ?_⟩, fun id => ?_, fun id hid => ?_, .inl rfl, ?_⟩, ?_⟩
  · rw [hnone, stop_nil]
  · rw [hnone]
    exact nil_prefix
  · rw [hnone, kept, filter_scanOnce, get?_endOffsets_of_not_mem hid]
  · rw [hd.commits]
    exact nofun
  · rw [hd.phase]
    exact .idle

theorem Inv.start (hd : d.Initial) (h : Inv config d s) (horder : s.InOrder) :
    Inv config d { s with
      streams := s.opening, phase := .filling (.start (endOffsets s.opening) s.wal) } := by
  refine ⟨⟨h.safe.ids, h.safe.ends, h.safe.committed, h.safe.closed, h.safe.wal,
    h.safe.commits⟩, .filling ⟨rfl, ⟨s.wal, ⟨rfl, rfl, nofun, nofun, fun x hx => ?_⟩,
      fun id => ?_⟩, nofun, Nat.zero_le _⟩⟩
  · have hx' : x ∈ d.wal := by
      rcases h.safe.wal with hwal | ⟨hwal, -⟩
      · rw [← hwal]
        exact hx
      · rw [hwal] at hx
        cases hx
    obtain ⟨hpos, hle⟩ := hd.counts x hx'
    exact ⟨by omega, hle⟩
  · exact h.safe.resume hd horder id

theorem Safe.move (h : Safe d s) (storage : Storage) (phase : RecoverPhase) :
    Safe d { s with storage, phase } :=
  ⟨h.ids, h.ends, h.committed, h.closed, h.wal, h.commits⟩

theorem Pending.move (h : Pending d s r records) (storage : Storage) (phase : RecoverPhase) :
    Pending d { s with storage, phase } r records :=
  ⟨h.streams, h.left, h.ne, h.count⟩

theorem Safe.wal_of (h : Safe d s) (hopening : s.opening = [] → os = []) :
    s.wal = d.wal ∨ s.wal = [] ∧ os = [] :=
  h.wal.imp_right (And.imp_right hopening)

/-- A pass of the loop: the WAL is at its end, a block has no records, or it is planned. -/
theorem nextBlock_cases (config : UploadConfig) (h : Pending d s r .empty) :
    s.nextBlock config r = { s with phase := .closing s.streams } ∧
        (∀ id, s.committedOf id = d.kept id) ∨
      ∃ r' records, r'.todoLength < r.todoLength ∧ Pending d s r' records ∧
        (s.nextBlock config r = { s with phase := .filling r' } ∧ records = .empty ∨
          s.nextBlock config r =
            { s with phase := .planned r' records (.plan config records) }) := by
  obtain ⟨rest, hbetween, hleft⟩ := h.left
  by_cases hne : r.pending.toList ++ rest = []
  · obtain ⟨hpending, rfl⟩ := append_eq_nil_iff.mp hne
    have hlook : r.lookAhead = .ok none := by
      have hit : r.it = [] := hbetween.it
      have hnone : r.pending = none := by simpa using hpending
      simp [Recovery.lookAhead, hnone, hbetween.next, hit]
    refine .inl ⟨?_, fun id => ?_⟩
    · rw [StorageRecovery.nextBlock, hlook]
    · have hid := hleft id
      rw [Recovery.todo, hne] at hid
      exact (append_nil _).symm.trans hid
  obtain ⟨r', rest', added, hover, hfilled, hnext⟩ := Recovery.exists_nextBlock hbetween hne
  have hlt : r'.todoLength < r.todoLength := by
    have hlt := hover.lt
    rw [length_append, length_append] at hlt
    rw [Recovery.todoLength, Recovery.todoLength, hover.between.it, hbetween.it, length_map,
      length_map]
    exact hlt
  have hrecords : ∀ id, (r'.sealedBlock.records.get? id).getD [] =
      added.filter (·.streamId = id) := fun id =>
    (Recovery.recordsOf_sealedBlock r' id).trans (hover.block id)
  have hleft' : ∀ id, s.committedOf id ++ ((r'.sealedBlock.records.get? id).getD [] ++
      (scanOnce r'.openingStreamEndOffsets (r'.todo rest')).1.filter (·.streamId = id)) =
        d.kept id := by
    intro id
    rw [hrecords, ← filter_append, ← hover.kept]
    exact hleft id
  rw [hnext config s, handleBlock]
  split
  next hzero =>
    refine .inr ⟨r', .empty, hlt, ⟨h.streams, ⟨rest', hover.between, fun id => ?_⟩,
      forall_mem_nil _, Nat.zero_le _⟩, .inl ⟨rfl, rfl⟩⟩
    have hid := hleft' id
    rw [LogCacheBlock.records, (hfilled.accepting.untouched hzero).1] at hid
    exact hid
  next =>
    refine .inr ⟨r', _, hlt, ⟨h.streams, ⟨rest', hover.between, hleft'⟩, fun e he => ?_, ?_⟩,
      .inr rfl⟩
    · obtain ⟨e', he', rfl⟩ := mem_map.mp he
      exact hfilled.ne e' he'
    · rw [← hfilled.maxStreamCount]
      exact (length_map ..).trans_le hfilled.count

theorem Inv.nextBlock (h : Inv config d s) (hr : Pending d s r .empty) :
    Inv config d (s.nextBlock config r) ∧ (s.nextBlock config r).phase ≠ .idle := by
  rcases nextBlock_cases config hr with
    ⟨hclose, hall⟩ | ⟨r', records, -, hr', ⟨hfill, rfl⟩ | hplan⟩
  · rw [hclose]
    exact ⟨⟨h.safe.move _ _, .closing hr.streams hall⟩, nofun⟩
  · rw [hfill]
    exact ⟨⟨h.safe.move _ _, .filling (hr'.move _ _)⟩, nofun⟩
  · rw [hplan]
    exact ⟨⟨h.safe.move _ _, .planned (hr'.move _ _)⟩, nofun⟩

theorem result_of_run (h : w.run blockSize partSize st = some (st', o)) :
    ObjectWrite.Result blockSize partSize w o := by
  simp only [ObjectWrite.run, Option.bind_eq_bind, Option.bind_eq_some_iff, Option.pure_def,
    Option.some.injEq] at h
  obtain ⟨ranges, hranges, writer, hwriter, h⟩ := h
  obtain ⟨-, rfl⟩ := Prod.mk.inj h
  refine ⟨rfl, hranges, writer, ?_, rfl⟩
  cases hw : w.writer blockSize partSize with
  | error =>
    rw [hw] at hwriter
    cases hwriter
  | ok =>
    rw [hw] at hwriter
    cases hwriter
    rfl

theorem Uploading.preparedObjectId (h : Uploading config records task objectId written) :
    task.preparedObjectId = some objectId := by
  rw [h.task_eq]
  rfl

theorem Uploading.write (h : Uploading config records task objectId written)
    (hk : written[k]? = some none)
    (hfinish : JoinAll.finish (ObjectWrite.run task.objectBlockSize task.objectPartSize)
      (task.objectWrites objectId) (st, written) k = some p) :
    Uploading config records task objectId p.2 := by
  obtain ⟨w, hw, hrun⟩ := Option.bind_eq_some_iff.mp hfinish
  obtain ⟨⟨st', o⟩, hwrite, rfl⟩ := Option.map_eq_some_iff.mp hrun
  refine ⟨h.task_eq, h.lease, (length_set ..).trans h.length, fun j w' o' hj ho' => ?_⟩
  by_cases hkj : k = j
  · subst hkj
    rw [getElem?_set_self (List.getElem_of_getElem? hk).1] at ho'
    cases ho'
    obtain rfl : w = w' := Option.some.inj (hw.symm.trans hj)
    have hresult := result_of_run hwrite
    rw [h.task_eq] at hresult
    exact hresult
  · rw [getElem?_set_ne hkj] at ho'
    exact h.results j w' o' hj ho'

theorem Uploading.describes {results : List WrittenObject}
    (h : Uploading config records task objectId written) (hne : ∀ e ∈ records.entries, e.2 ≠ [])
    (hall : written.mapM id = some results) :
    Describes (UploadWalTask.request (task.streamSetObjectId objectId) results, records) := by
  obtain ⟨htask, hlease, hlength, hresults⟩ := h
  subst htask
  have hwritten := JoinAll.eq_map_some_of_mapM_id hall
  refine ⟨UploadWalTask.perm_ranges hlease (forall₂_iff_get.mpr ⟨?_, fun k hk hk' => ?_⟩), hne⟩
  · rw [hwritten, length_map] at hlength
    exact hlength.symm
  · refine hresults k _ _ (getElem?_eq_getElem hk) ?_
    rw [hwritten, getElem?_map, getElem?_eq_getElem hk']
    rfl

theorem Inv.commit (h : Inv config d s) (hr : Pending d s r records)
    (hdescribes : Describes (request, records)) :
    Inv config d { s with
      commits := s.commits ++ [(request, records)]
      opening := s.opening.map (advance request)
      phase := .filling r } := by
  obtain ⟨rest, hbetween, hleft⟩ := hr.left
  have hids : (s.opening.map (advance request)).map OpeningStream.streamId =
      s.opening.map OpeningStream.streamId := map_map
  have hcommitted := committedOf_commit (c := (request, records)) s
  refine ⟨⟨hids ▸ h.safe.ids, fun o ho => ?_, fun id => ?_, fun id hid => ?_, ?_, fun c hc => ?_⟩,
    .filling ⟨hr.streams.trans hids.symm, ⟨rest, hbetween, fun id => ?_⟩, nofun, Nat.zero_le _⟩⟩
  · obtain ⟨o', ho', rfl⟩ := mem_map.mp ho
    obtain ⟨o₀, ho₀, hid₀, hend⟩ := h.safe.ends o' ho'
    refine ⟨o₀, ho₀, hid₀, ?_⟩
    rw [hdescribes.endOffset_advance, hcommitted, stop_append, hend]
    rfl
  · rw [hcommitted, ← hleft id, ← append_assoc]
    exact prefix_append ..
  · -- The records of the block are of opening streams.
    have hclosed := h.safe.closed id (hids ▸ hid)
    have hid' := hleft id
    rw [hclosed] at hid'
    have hnil := append_eq_nil_iff.mp (append_right_eq_self.mp hid')
    rw [hcommitted, hclosed]
    dsimp only
    rw [hnil.1, append_nil]
  · refine h.safe.wal_of fun hnone => ?_
    rw [hnone]
    rfl
  · exact forall_mem_append.mpr ⟨h.safe.commits, forall_mem_singleton.mpr hdescribes⟩ c hc
  · rw [hcommitted, append_assoc]
    exact hleft id

theorem Inv.closeStream {streams : List OpeningStream} (hd : d.Initial) (h : Inv config d s)
    (hstreams : (o :: streams).map OpeningStream.streamId = s.opening.map OpeningStream.streamId)
    (hall : ∀ id, s.committedOf id = d.kept id) :
    Inv config d { s with
      opening := s.opening.filter fun o' => o'.streamId ≠ o.streamId
      phase := .closing streams } := by
  have hnodup : ((o :: streams).map OpeningStream.streamId).Nodup :=
    hstreams ▸ h.safe.ids.nodup hd.nodup
  rw [map_cons, nodup_cons] at hnodup
  have hids : (s.opening.filter fun o' => o'.streamId ≠ o.streamId).map OpeningStream.streamId =
      streams.map OpeningStream.streamId := by
    calc (s.opening.filter fun o' => o'.streamId ≠ o.streamId).map OpeningStream.streamId
        = (s.opening.map OpeningStream.streamId).filter (· ≠ o.streamId) := by
          rw [filter_map]
          rfl
      _ = (streams.map OpeningStream.streamId).filter (· ≠ o.streamId) := by
          rw [← hstreams, map_cons, filter_cons_of_neg (by simp)]
      _ = streams.map OpeningStream.streamId :=
          filter_eq_self.mpr fun id hid => decide_eq_true fun heq => hnodup.1 (heq ▸ hid)
  refine ⟨⟨?_, fun o' ho' => h.safe.ends o' (mem_of_mem_filter ho'), h.safe.committed,
    fun id _ => hall id, ?_, h.safe.commits⟩, .closing hids.symm hall⟩
  · exact (filter_sublist.map _).trans h.safe.ids
  · refine h.safe.wal_of fun hnone => ?_
    rw [hnone]
    rfl

/-- What an action does, and where the call stands before it. -/
inductive Effect (config : UploadConfig) (s : StorageRecovery) : Action → StorageRecovery → Prop
  | start (hphase : s.phase = .idle) :
      Effect config s .start { s with
        streams := s.opening, phase := .filling (.start (endOffsets s.opening) s.wal) }
  | nextBlock {r} (hphase : s.phase = .filling r) :
      Effect config s .nextBlock (s.nextBlock config r)
  | prepare {r records task objectId} (hphase : s.phase = .planned r records task)
      (hlease : objectId + task.objectCount ≤ noopObjectId) :
      Effect config s (.prepare objectId) { s with
        phase := .uploading r records (task.prepare objectId)
          ((task.objectWrites objectId).map fun _ => none) }
  | write {r records task written k objectId p}
      (hphase : s.phase = .uploading r records task written)
      (hk : written[k]? = some none) (hid : task.preparedObjectId = some objectId)
      (hfinish : JoinAll.finish (ObjectWrite.run task.objectBlockSize task.objectPartSize)
        (task.objectWrites objectId) (s.storage, written) k = some p) :
      Effect config s (.write k) { s with
        storage := p.1, phase := .uploading r records task p.2 }
  | finishUpload {r records task written objectId results}
      (hphase : s.phase = .uploading r records task written)
      (hid : task.preparedObjectId = some objectId) (hall : written.mapM id = some results) :
      Effect config s .finishUpload { s with
        phase := .uploaded r records { task with
          commitRequest :=
            some (UploadWalTask.request (task.streamSetObjectId objectId) results) } }
  | commit {r records task request} (hphase : s.phase = .uploaded r records task)
      (hrequest : task.commitRequest = some request) :
      Effect config s .commit { s with
        commits := s.commits ++ [(request, records)]
        opening := s.opening.map (advance request)
        phase := .filling r }
  | closeStream {o streams} (hphase : s.phase = .closing (o :: streams)) :
      Effect config s .closeStream { s with
        opening := s.opening.filter fun o' => o'.streamId ≠ o.streamId
        phase := .closing streams }
  | awaitReset (hphase : s.phase = .closing []) :
      Effect config s .awaitReset { s with phase := .resetting }
  | reset (hphase : s.phase = .resetting) : Effect config s .reset { s with wal := [] }
  | finish (hphase : s.phase = .resetting) (hwal : s.wal = []) :
      Effect config s .finish { s with phase := .finished }
  | cut : Effect config s .cut { s with phase := .idle }

theorem effect_of_step (hs : s.step config a = some s') : Effect config s a s' := by
  cases a with
  | start | nextBlock | closeStream | awaitReset | reset =>
    rw [step] at hs
    split at hs <;> cases hs
    next hphase =>
      constructor
      exact hphase
  | prepare =>
    rw [step] at hs
    split at hs
    next hphase =>
      split at hs <;> cases hs
      next hlease => exact .prepare hphase hlease
    next => cases hs
  | write =>
    rw [step] at hs
    split at hs
    next hphase =>
      split at hs
      next hk =>
        obtain ⟨objectId, hid, hs⟩ := Option.bind_eq_some_iff.mp hs
        obtain ⟨p, hfinish, rfl⟩ := Option.map_eq_some_iff.mp hs
        exact .write hphase hk hid hfinish
      next => cases hs
    next => cases hs
  | finishUpload =>
    rw [step] at hs
    split at hs
    next hphase =>
      obtain ⟨objectId, hid, hs⟩ := Option.bind_eq_some_iff.mp hs
      obtain ⟨results, hall, rfl⟩ := Option.map_eq_some_iff.mp hs
      exact .finishUpload hphase hid hall
    next => cases hs
  | commit =>
    rw [step] at hs
    split at hs
    next hphase =>
      obtain ⟨request, hrequest, rfl⟩ := Option.map_eq_some_iff.mp hs
      exact .commit hphase hrequest
    next => cases hs
  | finish =>
    rw [step] at hs
    split at hs
    next hphase =>
      split at hs <;> cases hs
      next hwal => exact .finish hphase (isEmpty_iff.mp hwal)
    next => cases hs
  | cut =>
    cases hs
    exact .cut

/-- **Every action keeps what holds**, if every call starts in order. -/
theorem Inv.step (hd : d.Initial) (h : Inv config d s) (horder : a = .start → s.InOrder)
    (hs : s.step config a = some s') : Inv config d s' ∧ (a ≠ .cut → s'.phase ≠ .idle) := by
  cases effect_of_step hs with
  | start => exact ⟨h.start hd (horder rfl), fun _ => nofun⟩
  | nextBlock hphase =>
    cases h.stands_of hphase with
    | filling hr =>
      obtain ⟨hinv, hidle⟩ := h.nextBlock hr
      exact ⟨hinv, fun _ => hidle⟩
  | prepare hphase hlease =>
    cases h.stands_of hphase with
    | planned hr =>
      refine ⟨⟨h.safe.move _ _, .uploading (hr.move _ _) ⟨rfl, hlease, length_map .., ?_⟩⟩,
        fun _ => nofun⟩
      intro k w o _ ho
      rw [getElem?_map] at ho
      obtain ⟨w', -, hnone⟩ := Option.map_eq_some_iff.mp ho
      cases hnone
  | write hphase hk hid hfinish =>
    cases h.stands_of hphase with
    | uploading hr hup =>
      cases hup.preparedObjectId.symm.trans hid
      exact ⟨⟨h.safe.move _ _, .uploading (hr.move _ _) (hup.write hk hfinish)⟩, fun _ => nofun⟩
  | finishUpload hphase hid hall =>
    cases h.stands_of hphase with
    | uploading hr hup =>
      cases hup.preparedObjectId.symm.trans hid
      exact ⟨⟨h.safe.move _ _, .uploaded (hr.move _ _) rfl (hup.describes hr.ne hall)⟩,
        fun _ => nofun⟩
  | commit hphase hrequest =>
    cases h.stands_of hphase with
    | uploaded hr hrequest' hdescribes =>
      cases hrequest'.symm.trans hrequest
      exact ⟨h.commit hr hdescribes, fun _ => nofun⟩
  | closeStream hphase =>
    cases h.stands_of hphase with
    | closing hstreams hall => exact ⟨h.closeStream hd hstreams hall, fun _ => nofun⟩
  | awaitReset hphase =>
    cases h.stands_of hphase with
    | closing hstreams hall =>
      exact ⟨⟨h.safe.move _ _, .resetting (map_eq_nil_iff.mp hstreams.symm) hall⟩, fun _ => nofun⟩
  | reset hphase =>
    cases h.stands_of hphase with
    | resetting hopening hall =>
      refine ⟨⟨⟨h.safe.ids, h.safe.ends, h.safe.committed, h.safe.closed,
        .inr ⟨rfl, hopening⟩, h.safe.commits⟩, ?_⟩, fun _ hidle => ?_⟩
      · show Stands config d _ s.phase
        rw [hphase]
        exact .resetting hopening hall
      · cases hphase.symm.trans hidle
  | finish hphase hwal =>
    cases h.stands_of hphase with
    | resetting hopening hall =>
      exact ⟨⟨h.safe.move _ _, .finished hopening hwal hall⟩, fun _ => nofun⟩
  | cut => exact ⟨⟨h.safe.move _ _, .idle⟩, fun hne => absurd rfl hne⟩

end StorageRecovery

end S3Stream
