import S3Stream.Core.UploadTask

/-! # Upload requests are exact

The objects of a plan hold every stream of the block once, their ids are the leased ones in order,
and in whatever order they are closed the request describes them and they read back as the records
of the block. -/

namespace S3Stream

open List JoinAll StreamRecordBatch

/-- The ranges that a commit makes visible: stream, start and end offset. -/
def CommitStreamSetObjectRequest.ranges (r : CommitStreamSetObjectRequest) :
    List (Nat × Nat × Nat) :=
  r.streamRanges.map (fun x => (x.streamId, x.startOffset, x.endOffset)) ++
    r.streamObjects.map fun x => (x.streamId, x.startOffset, x.endOffset)

/-- The objects of a request: id, size and streams. -/
def CommitStreamSetObjectRequest.objects (r : CommitStreamSetObjectRequest) :
    List (Nat × Nat × List Nat) :=
  (if r.objectId = noopObjectId then []
    else [(r.objectId, r.objectSize, r.streamRanges.map ObjectStreamRange.streamId)]) ++
    r.streamObjects.map fun x => (x.objectId, x.objectSize, [x.streamId])

/-! ## Ranges -/

theorem streamRange_eq_some (h : streamRange e = some r) : r.streamId = e.1 ∧
      e.2.head?.map baseOffset = some r.startOffset ∧
      e.2.getLast?.map lastOffsetU64 = some r.endOffset := by
  unfold streamRange at h
  split at h <;> cases h
  next hfirst hlast =>
    rw [hfirst, hlast]
    exact ⟨rfl, rfl, rfl⟩

theorem exists_streamRange (h : e.2 ≠ []) : ∃ r, streamRange e = some r := by
  rw [streamRange, head?_eq_some_head h, getLast?_eq_some_getLast h]
  exact ⟨_, rfl⟩

theorem exists_streamRanges {es : List (Nat × List StreamRecordBatch)} (h : ∀ e ∈ es, e.2 ≠ []) :
    ∃ rs, es.mapM streamRange = some rs := by
  induction es with
  | nil => exact ⟨[], rfl⟩
  | cons e es ih =>
    obtain ⟨he, hes⟩ := forall_mem_cons.mp h
    obtain ⟨r, hr⟩ := exists_streamRange he
    obtain ⟨rs, hrs⟩ := ih hes
    refine ⟨r :: rs, ?_⟩
    rw [mapM_cons, hr, hrs]
    rfl

theorem map_streamRanges {es : List (Nat × List StreamRecordBatch)}
    (h : es.mapM streamRange = some rs) :
    rs.map (fun r => (r.streamId, some r.startOffset, some r.endOffset)) =
      es.map fun e => (e.1, e.2.head?.map baseOffset,
        e.2.getLast?.map lastOffsetU64) := by
  induction es generalizing rs with
  | nil =>
    cases h
    rfl
  | cons e es ih =>
    rw [mapM_cons, Option.bind_eq_bind, Option.bind_eq_some_iff] at h
    obtain ⟨r, hr, h⟩ := h
    rw [Option.bind_eq_bind, Option.bind_eq_some_iff] at h
    obtain ⟨rs', hrs', h⟩ := h
    cases h
    obtain ⟨hid, hstart, hend⟩ := streamRange_eq_some hr
    rw [map_cons, map_cons, ih hrs', hid, hstart, hend]

theorem map_streamId_streamRanges {es : List (Nat × List StreamRecordBatch)}
    (h : es.mapM streamRange = some rs) : rs.map ObjectStreamRange.streamId = es.map Prod.fst := by
  have hmap := congrArg (map Prod.fst) (map_streamRanges h)
  rw [map_map, map_map] at hmap
  exact hmap

/-! ## One object -/

namespace ObjectWriter

theorem exists_writeAll {w : ObjectWriter} (hsorted : writes.Pairwise fun x y => x.1 < y.1)
    (hlast : ∀ p, w.last = some p → ∀ x ∈ writes, p.1 < x.1) :
    ∃ w', w.writeAll writes = .ok w' := by
  induction writes generalizing w with
  | nil => exact ⟨w, rfl⟩
  | cons x writes ih =>
    obtain ⟨hx, hrest⟩ := pairwise_cons.mp hsorted
    have hcheck : (w.check x.1 x.2).2 = .ok () := by
      cases hr : x.2 with
      | nil => rfl
      | cons =>
        rw [check]
        cases hl : w.last with
        | none => rfl
        | some p =>
          have hp := hlast p hl x mem_cons_self
          dsimp only
          rw [if_neg hp.not_gt, if_neg fun hc => hp.ne hc.1]
    obtain ⟨w₁, hw₁⟩ : ∃ w₁, w.write x.1 x.2 = (w₁, .ok ()) :=
      ⟨_, by rw [write, show w.check x.1 x.2 = (_, .ok ()) from Prod.ext rfl hcheck]⟩
    have hlast₁ : ∀ p, w₁.last = some p → ∀ y ∈ writes, p.1 < y.1 := by
      intro p hp y hy
      have hchecked := (write_eq_ok hw₁).1
      cases hr : x.2 with
      | nil =>
        rw [hr] at hchecked
        have hsame : w.last = w₁.last := congrArg (·.1.last) hchecked
        exact hlast p (hsame.trans hp) y (mem_cons_of_mem x hy)
      | cons =>
        rw [hr] at hchecked
        rw [(check_eq_ok hchecked).1] at hp
        cases hp
        exact hx y hy
    obtain ⟨w', hw'⟩ := ih hrest hlast₁
    exact ⟨w', by rw [writeAll, hw₁]; exact hw'⟩

theorem lookup_close (w : ObjectWriter) (s : Storage) (key : Key) :
    (w.close s).1.lookup key =
      if key = w.key then (w.close []).1.lookup w.key else s.lookup key := by
  simp only [close, Storage.lookup_write, if_true]

end ObjectWriter

theorem Holds.of_lookup (h : Holds s m gs) (hlookup : s'.lookup m.key = s.lookup m.key) :
    Holds s' m gs :=
  ⟨h.laid, hlookup.trans h.stored, h.size_eq, h.indexFits⟩

/-- The object `m` reads back as the streams `writes`. -/
def ReadsBack (s : Storage) (m : S3ObjectMetadata)
    (writes : List (Nat × List StreamRecordBatch)) : Prop :=
  ∃ info, ObjectReader.basicObjectInfo s m = .ok info ∧
    (∀ e ∈ info.indexBlock.entries, e.streamId ∈ writes.map Prod.fst) ∧
    ∀ streamId, ∃ batches,
      (info.indexBlock.entries.filter (·.streamId = streamId)).mapM
        (ObjectReader.readRecords s m) = .ok batches ∧
      batches.flatten = (writes.filter (·.1 = streamId)).flatMap (·.2)

namespace ObjectWrite

variable {w : ObjectWrite} {blockSize partSize : Nat} {writer : ObjectWriter}

/-- The blocks and the index of the object fit their length fields. -/
def Fits (writer : ObjectWriter) : Prop :=
  (∀ b ∈ writer.blocks, b.size < 2 ^ 32) ∧ writer.blocks.length * blockIndexSize < 2 ^ 32

theorem exists_writer (w : ObjectWrite) (blockSize partSize : Nat)
    (hsorted : w.writes.Pairwise fun x y => x.1 < y.1) :
    ∃ writer, w.writer blockSize partSize = .ok writer :=
  ObjectWriter.exists_writeAll hsorted nofun

theorem key_writer (h : w.writer blockSize partSize = .ok writer) :
    writer.key = genObjectKey w.objectId :=
  ObjectWriter.key_writeAll h

theorem readsBack (h : w.writer blockSize partSize = .ok writer)
    (hstream : ∀ x ∈ w.writes, x.1 < 256 ^ 8 ∧ ∀ r ∈ x.2, r.InRange)
    (hfits : Fits writer) (hstored : s.lookup writer.key = (writer.close []).1.lookup writer.key)
    (hid : m.objectId = w.objectId) (hsize : m.objectSize = (writer.close []).2) :
    ReadsBack s m w.writes := by
  obtain ⟨groups, hw, -⟩ := (written_open_ w.objectId blockSize partSize).writeAll h
  rw [nil_append, nil_append] at hw
  have hkey : m.key = writer.key := by
    rw [key_writer h, S3ObjectMetadata.key, hid]
  obtain ⟨gs, hholds, hof⟩ :=
    hw.holds (fun g hg => hw.groupSized hstream hfits.1 hg) hfits.2 [] hkey hsize
  replace hholds : Holds s m gs := hholds.of_lookup (by rw [hkey]; exact hstored)
  refine ⟨_, hholds.basicObjectInfo, fun e he => ?_, fun streamId => ?_⟩
  · -- The stream of an entry has a record, and that is one of the calls.
    obtain ⟨seg, hseg, rfl⟩ := mem_map.mp he
    have hmap : gs.map (fun g => g.index.streamId) = groups.map Prod.fst :=
      Segment.map_of hof fun g _ hg i pos => rfl
    obtain ⟨g, hg, hgid⟩ := mem_map.mp (hmap ▸ mem_map_of_mem hseg)
    obtain ⟨r, hr⟩ := exists_mem_of_ne_nil _ (hw.group_ne g hg)
    obtain ⟨x, hx, hid, -⟩ := hw.mem_writes hg hr
    rw [← hgid, ← hid]
    exact mem_map_of_mem hx
  · obtain ⟨batches, hread, hflatten⟩ := hholds.readStream hof streamId
    refine ⟨batches, hread, hflatten.trans ?_⟩
    rw [flatMap_filter_stream, flatMap_filter_stream, hw.records_eq]

/-- What a finished future returns. -/
structure Result (blockSize partSize : Nat) (w : ObjectWrite) (o : WrittenObject) : Prop where
  objectId : o.objectId = w.objectId
  ranges : w.writes.mapM streamRange = some o.ranges
  objectSize : ∃ writer, w.writer blockSize partSize = .ok writer ∧
    o.objectSize = (writer.close []).2

/-- What it leaves in the storage. -/
def Stored (blockSize partSize : Nat) (w : ObjectWrite) (s : Storage) : Prop :=
  ∃ writer, w.writer blockSize partSize = .ok writer ∧
    s.lookup writer.key = (writer.close []).1.lookup writer.key

theorem exists_run (w : ObjectWrite) (blockSize partSize : Nat)
    (hsorted : w.writes.Pairwise fun x y => x.1 < y.1) (hne : ∀ e ∈ w.writes, e.2 ≠ [])
    (s : Storage) : ∃ s' o, run blockSize partSize w s = some (s', o) ∧
      Result blockSize partSize w o ∧ Stored blockSize partSize w s' ∧
      ∀ w' : ObjectWrite, w'.objectId ≠ w.objectId → Stored blockSize partSize w' s →
        Stored blockSize partSize w' s' := by
  obtain ⟨writer, hwriter⟩ := w.exists_writer blockSize partSize hsorted
  obtain ⟨ranges, hranges⟩ := exists_streamRanges hne
  refine ⟨(writer.close s).1, ⟨w.objectId, (writer.close s).2, ranges⟩, ?_,
    ⟨rfl, hranges, writer, hwriter, rfl⟩, ⟨writer, hwriter, ?_⟩, ?_⟩
  · rw [run, hranges, hwriter]
    rfl
  · rw [ObjectWriter.lookup_close, if_pos rfl]
  · rintro w' hid ⟨writer', hwriter', hlookup⟩
    refine ⟨writer', hwriter', ?_⟩
    rw [ObjectWriter.lookup_close, if_neg, hlookup]
    rw [key_writer hwriter, key_writer hwriter']
    exact fun heq => hid (genObjectKey_injective heq)

end ObjectWrite

/-! ## The objects of a plan -/

namespace UploadWalTask

variable {config : UploadConfig} {records : OrdMap Nat (List StreamRecordBatch)}
  {t : UploadWalTask} {objectId : Nat}

theorem perm_plan (config : UploadConfig) (records : OrdMap Nat (List StreamRecordBatch)) :
    ((plan config records).streamSetObjectMap.entries ++
      (plan config records).streamObjectMap.entries).Perm records.entries := by
  rw [plan]
  dsimp only
  split
  · exact .refl _
  · have hnot : (fun e : Nat × List StreamRecordBatch =>
        decide (config.streamSplitSize ≤ streamSize e.2)) =
        fun e => !decide (streamSize e.2 < config.streamSplitSize) := by
      funext e
      rw [← decide_not, decide_eq_decide]
      exact not_lt.symm
    show (filter _ _ ++ filter _ _).Perm _
    rw [hnot]
    exact filter_append_perm _ _

theorem streamSetObjectId_eq_noop (hlease : objectId + t.objectCount ≤ noopObjectId) :
    t.streamSetObjectId objectId = noopObjectId ↔ t.streamSetObjectMap.entries = [] := by
  rw [streamSetObjectId, ← List.isEmpty_iff]
  rw [objectCount] at hlease
  split
  next hempty => exact iff_of_true rfl hempty
  next hne =>
    rw [if_neg hne] at hlease
    exact iff_of_false (by omega) hne

/-- The writes of the stream objects, with ids from `objectId` on. -/
def streamObjectWrites (t : UploadWalTask) (objectId : Nat) : List ObjectWrite :=
  (t.streamObjectMap.entries.zipIdx objectId).map fun e => ⟨e.2, [e.1]⟩

theorem objectWrites_of_empty (hempty : t.streamSetObjectMap.entries = []) :
    t.objectWrites objectId = t.streamObjectWrites objectId := by
  rw [objectWrites, streamSetObjectId, hempty]
  rfl

theorem objectWrites_of_ne (hne : t.streamSetObjectMap.entries ≠ [])
    (hlease : objectId + t.objectCount ≤ noopObjectId) :
    t.objectWrites objectId =
      ⟨objectId, t.streamSetObjectMap.entries⟩ :: t.streamObjectWrites (objectId + 1) := by
  have hnoop := mt (streamSetObjectId_eq_noop hlease).mp hne
  rw [objectWrites, if_neg hnoop, streamSetObjectId]
  have hfalse : t.streamSetObjectMap.entries.isEmpty = false := isEmpty_eq_false_iff.mpr hne
  rw [hfalse]
  rfl

theorem map_objectId_streamObjectWrites (t : UploadWalTask) (objectId : Nat) :
    (t.streamObjectWrites objectId).map ObjectWrite.objectId =
      range' objectId t.streamObjectMap.entries.length := by
  rw [streamObjectWrites, map_map, ← zipIdx_map_snd objectId]
  rfl

theorem flatMap_streamObjectWrites (t : UploadWalTask) (objectId : Nat) :
    (t.streamObjectWrites objectId).flatMap ObjectWrite.writes = t.streamObjectMap.entries := by
  rw [streamObjectWrites, flatMap_map]
  rw [← map_eq_flatMap, zipIdx_map_fst]

theorem map_objectId_objectWrites (hlease : objectId + t.objectCount ≤ noopObjectId) :
    (t.objectWrites objectId).map ObjectWrite.objectId = range' objectId t.objectCount := by
  by_cases hempty : t.streamSetObjectMap.entries = []
  · rw [objectWrites_of_empty hempty, map_objectId_streamObjectWrites, objectCount, hempty]
    rfl
  · have hfalse : t.streamSetObjectMap.entries.isEmpty = false := isEmpty_eq_false_iff.mpr hempty
    rw [objectWrites_of_ne hempty hlease, map_cons, map_objectId_streamObjectWrites,
      objectCount, hfalse]
    rfl

theorem flatMap_objectWrites (hlease : objectId + t.objectCount ≤ noopObjectId) :
    (t.objectWrites objectId).flatMap ObjectWrite.writes =
      t.streamSetObjectMap.entries ++ t.streamObjectMap.entries := by
  by_cases hempty : t.streamSetObjectMap.entries = []
  · rw [objectWrites_of_empty hempty, flatMap_streamObjectWrites, hempty, nil_append]
  · rw [objectWrites_of_ne hempty hlease, flatMap_cons, flatMap_streamObjectWrites]

theorem sorted_objectWrites (hw : w ∈ t.objectWrites objectId) :
    w.writes.Pairwise fun x y => x.1 < y.1 := by
  rw [objectWrites, mem_append] at hw
  rcases hw with hw | hw
  · split at hw
    · cases hw
    · rw [mem_singleton.mp hw]
      exact t.streamSetObjectMap.sorted
  · obtain ⟨e, -, rfl⟩ := mem_map.mp hw
    exact pairwise_singleton ..

/-! ## The request of the written objects -/

theorem streamObjects_of_singles {written : List WrittenObject}
    (h : ∀ o ∈ written, o.ranges.length = 1) :
    (written.flatMap WrittenObject.streamObjects).map
        (fun x => (x.objectId, x.objectSize, [x.streamId])) =
      written.map fun o => (o.objectId, o.objectSize, o.ranges.map ObjectStreamRange.streamId) := by
  induction written with
  | nil => rfl
  | cons o written ih =>
    obtain ⟨ho, hrest⟩ := forall_mem_cons.mp h
    obtain ⟨r, hr⟩ := length_eq_one_iff.mp ho
    rw [flatMap_cons, map_append, ih hrest, map_cons, WrittenObject.streamObjects, hr]
    rfl

theorem ranges_streamObjects (written : List WrittenObject) :
    (written.flatMap WrittenObject.streamObjects).map
        (fun x => (x.streamId, x.startOffset, x.endOffset)) =
      (written.flatMap WrittenObject.ranges).map
        fun x => (x.streamId, x.startOffset, x.endOffset) := by
  induction written with
  | nil => rfl
  | cons o written ih =>
    rw [flatMap_cons, map_append, ih, flatMap_cons, map_append,
      WrittenObject.streamObjects, map_map]
    rfl

/-- What the request says of the written objects. -/
structure Describes (request : CommitStreamSetObjectRequest) (written : List WrittenObject) :
    Prop where
  ranges : request.ranges = (written.flatMap WrittenObject.ranges).map
    fun x => (x.streamId, x.startOffset, x.endOffset)
  objects : request.objects =
    written.map fun o => (o.objectId, o.objectSize, o.ranges.map ObjectStreamRange.streamId)
  noop : request.objectId = noopObjectId → request.streamRanges = []

theorem describes_noop (h : ∀ o ∈ written, o.ranges.length = 1) :
    Describes (request noopObjectId written) written := by
  unfold request
  rw [if_pos rfl]
  refine ⟨?_, ?_, fun _ => rfl⟩
  · rw [CommitStreamSetObjectRequest.ranges, ranges_streamObjects]
    rfl
  · rw [CommitStreamSetObjectRequest.objects, if_pos rfl, streamObjects_of_singles h]
    rfl

theorem describes_cons (hid : sso.objectId ≠ noopObjectId)
    (h : ∀ o ∈ written, o.ranges.length = 1) :
    Describes (request sso.objectId (sso :: written)) (sso :: written) := by
  unfold request
  rw [if_neg hid]
  refine ⟨?_, ?_, fun hnoop => absurd hnoop hid⟩
  · rw [CommitStreamSetObjectRequest.ranges, ranges_streamObjects, flatMap_cons, map_append]
  · rw [CommitStreamSetObjectRequest.objects, if_neg hid, streamObjects_of_singles h]
    rfl

theorem describes_of_results (hlease : objectId + t.objectCount ≤ noopObjectId)
    (h : List.Forall₂ (ObjectWrite.Result t.objectBlockSize t.objectPartSize)
      (t.objectWrites objectId) written) :
    Describes (request (t.streamSetObjectId objectId) written) written := by
  -- The ranges of a stream object are those of its one stream.
  have hsingles : ∀ {first : Nat} {os : List WrittenObject},
      List.Forall₂ (ObjectWrite.Result t.objectBlockSize t.objectPartSize)
        (t.streamObjectWrites first) os → ∀ o ∈ os, o.ranges.length = 1 := by
    intro first os hos o ho
    obtain ⟨w, hw, hresult⟩ := exists_task hos ho
    obtain ⟨e, -, rfl⟩ := mem_map.mp hw
    have hlength := congrArg length (map_streamId_streamRanges hresult.ranges)
    rw [length_map, length_map] at hlength
    exact hlength
  by_cases hempty : t.streamSetObjectMap.entries = []
  · rw [(streamSetObjectId_eq_noop hlease).mpr hempty]
    rw [objectWrites_of_empty hempty] at h
    exact describes_noop (hsingles h)
  · have hnoop := mt (streamSetObjectId_eq_noop hlease).mp hempty
    have hid : t.streamSetObjectId objectId = objectId :=
      if_neg fun hc => hempty (isEmpty_iff.mp hc)
    rw [objectWrites_of_ne hempty hlease, forall₂_cons_left_iff] at h
    obtain ⟨sso, os, hsso, hos, rfl⟩ := h
    rw [hid] at hnoop ⊢
    have hssoId : sso.objectId = objectId := hsso.objectId
    rw [← hssoId] at hnoop ⊢
    exact describes_cons hnoop (hsingles hos)

/-! ## An upload -/

/-- Records of a block as `plan` expects them: for every stream its own batches, at least one, each
starting where the one before it ends. -/
structure Uploadable (records : OrdMap Nat (List StreamRecordBatch)) : Prop where
  streamId : ∀ e ∈ records.entries, e.1 < 2 ^ 64
  ne : ∀ e ∈ records.entries, e.2 ≠ []
  owned : ∀ e ∈ records.entries, ∀ r ∈ e.2, r.streamId = e.1 ∧ r.InRange
  contiguous : ∀ e ∈ records.entries, e.2.IsChain fun r r' => r.lastOffset = r'.baseOffset

/-- The objects of the task fit the length fields of the object format. -/
def ObjectsFit (t : UploadWalTask) (objectId : Nat) : Prop :=
  ∀ w ∈ t.objectWrites objectId, ∀ writer,
    w.writer t.objectBlockSize t.objectPartSize = .ok writer → ObjectWrite.Fits writer

theorem mem_records (hlease : objectId + (plan config records).objectCount ≤ noopObjectId)
    (hw : w ∈ (plan config records).objectWrites objectId) (he : e ∈ w.writes) :
    e ∈ records.entries := by
  rw [← (perm_plan config records).mem_iff, ← flatMap_objectWrites hlease]
  exact mem_flatMap.mpr ⟨w, hw, he⟩

theorem exists_upload (h : Uploadable records)
    (hlease : objectId + (plan config records).objectCount ≤ noopObjectId)
    (horder : order.Perm (range (plan config records).objectCount)) (s : Storage) :
    ∃ s' written, ((plan config records).prepare objectId).upload s order =
        some (s', { (plan config records).prepare objectId with
          commitRequest := some
            (request ((plan config records).streamSetObjectId objectId) written) }) ∧
      List.Forall₂ (ObjectWrite.Result config.objectBlockSize config.objectPartSize)
        ((plan config records).objectWrites objectId) written ∧
      ∀ w ∈ (plan config records).objectWrites objectId,
        ObjectWrite.Stored config.objectBlockSize config.objectPartSize w s' := by
  have hids := map_objectId_objectWrites hlease
  have hlength : ((plan config records).objectWrites objectId).length =
      (plan config records).objectCount := by
    have := congrArg length hids
    rwa [length_map, length_range'] at this
  rw [← hlength] at horder
  -- A finished object stays: the others have other ids.
  obtain ⟨s', written, hjoin, hresults, hstored⟩ := joinAll_eq_some
    (D := fun k s => ∀ w, ((plan config records).objectWrites objectId)[k]? = some w →
      ObjectWrite.Stored config.objectBlockSize config.objectPartSize w s) horder (by
    intro k w hk s
    have hw := mem_of_getElem? hk
    have hne : ∀ e ∈ w.writes, e.2 ≠ [] := fun e he => h.ne e (mem_records hlease hw he)
    obtain ⟨s', o, hrun, hresult, hstored, hkeep⟩ := w.exists_run config.objectBlockSize
      config.objectPartSize (sorted_objectWrites hw) hne s
    refine ⟨s', o, hrun, hresult, fun w' hw' => ?_, fun j hj hstored' w' hw' => ?_⟩
    · rw [hk] at hw'
      cases hw'
      exact hstored
    · refine hkeep w' (fun heq => hj ?_) (hstored' w' hw')
      have hnodup : (((plan config records).objectWrites objectId).map
          ObjectWrite.objectId).Nodup := hids ▸ nodup_range'
      have hj' := of_getElem?_eq_some hw'
      rw [← length_map ObjectWrite.objectId] at hj'
      apply (getElem?_inj hj' hnodup).mp
      rw [getElem?_map, getElem?_map, hw', hk, Option.map_some, Option.map_some, heq])
  refine ⟨s', written, ?_, hresults, fun w hw => ?_⟩
  · have hjoin' : joinAll (ObjectWrite.run ((plan config records).prepare objectId).objectBlockSize
        ((plan config records).prepare objectId).objectPartSize)
        (((plan config records).prepare objectId).objectWrites objectId) order s =
        some (s', written) := hjoin
    rw [upload]
    show Option.bind (some objectId) _ = _
    rw [Option.bind_some, hjoin']
    rfl
  · obtain ⟨k, hk, rfl⟩ := getElem_of_mem hw
    exact hstored k hk _ (getElem?_eq_getElem hk)

theorem ranges_of_results (h : List.Forall₂ (ObjectWrite.Result b p) ws written) :
    (written.flatMap WrittenObject.ranges).map
        (fun r => (r.streamId, some r.startOffset, some r.endOffset)) =
      (ws.flatMap ObjectWrite.writes).map fun e =>
        (e.1, e.2.head?.map baseOffset,
          e.2.getLast?.map lastOffsetU64) := by
  induction h with
  | nil => rfl
  | cons hw _ ih =>
    rw [flatMap_cons, map_append, ih, map_streamRanges hw.ranges, flatMap_cons, map_append]

theorem objectIds_of_results (h : List.Forall₂ (ObjectWrite.Result b p) ws written) :
    written.map WrittenObject.objectId = ws.map ObjectWrite.objectId := by
  induction h with
  | nil => rfl
  | cons hw _ ih => rw [map_cons, map_cons, ih, hw.objectId]

/-- The request has every stream of the block once, with the range of its records. -/
theorem perm_ranges (hlease : objectId + (plan config records).objectCount ≤ noopObjectId)
    (hresults : List.Forall₂ (ObjectWrite.Result config.objectBlockSize config.objectPartSize)
      ((plan config records).objectWrites objectId) written) :
    ((request ((plan config records).streamSetObjectId objectId) written).ranges.map
      fun r => (r.1, some r.2.1, some r.2.2)).Perm
        (records.entries.map fun e => (e.1, e.2.head?.map baseOffset,
          e.2.getLast?.map lastOffsetU64)) := by
  have hranges := ranges_of_results hresults
  rw [flatMap_objectWrites hlease] at hranges
  rw [(describes_of_results hlease hresults).ranges, map_map]
  show (map (fun r : ObjectStreamRange => (r.streamId, some r.startOffset,
    some r.endOffset)) _).Perm _
  rw [hranges]
  exact (perm_plan config records).map _

/-- **Upload requests are exact.** -/
theorem upload_exact (h : Uploadable records)
    (hlease : objectId + (plan config records).objectCount ≤ noopObjectId)
    (hfit : (plan config records).ObjectsFit objectId) {order : List Nat}
    (horder : order.Perm (List.range (plan config records).objectCount)) (s : Storage) :
    ∃ s' t' request, ((plan config records).prepare objectId).upload s order = some (s', t') ∧
      t'.commitRequest = some request ∧
      -- every stream is there once, with the range of its records
      (request.ranges.map fun r => (r.1, some r.2.1, some r.2.2)).Perm
        (records.entries.map fun e => (e.1, e.2.head?.map StreamRecordBatch.baseOffset,
          e.2.getLast?.map StreamRecordBatch.lastOffsetU64)) ∧
      (request.objectId = noopObjectId → request.streamRanges = []) ∧
      -- the ids are leased ones
      (request.objects.map Prod.fst).Nodup ∧
      (∀ o ∈ request.objects,
        objectId ≤ o.1 ∧ o.1 < objectId + (plan config records).objectCount) ∧
      -- the objects read back as the records of their streams
      ∀ o ∈ request.objects, ∀ m : S3ObjectMetadata, m.objectId = o.1 → m.objectSize = o.2.1 →
        ∃ info, ObjectReader.basicObjectInfo s' m = .ok info ∧
          (∀ e ∈ info.indexBlock.entries, e.streamId ∈ o.2.2) ∧
          ∀ streamId ∈ o.2.2, ∃ batches,
            (info.indexBlock.entries.filter (·.streamId = streamId)).mapM
              (ObjectReader.readRecords s' m) = .ok batches ∧
            records.get? streamId = some batches.flatten := by
  obtain ⟨s', written, hupload, hresults, hstored⟩ := exists_upload h hlease horder s
  have hdescribes := describes_of_results hlease hresults
  have hids : (request ((plan config records).streamSetObjectId objectId) written).objects.map
      Prod.fst = range' objectId (plan config records).objectCount := by
    rw [hdescribes.objects, map_map, ← map_objectId_objectWrites hlease]
    exact objectIds_of_results hresults
  refine ⟨s', _, _, hupload, rfl, perm_ranges hlease hresults, hdescribes.noop, ?_,
    fun o ho => ?_, fun o ho m hid hsize => ?_⟩
  · rw [hids]
    exact nodup_range'
  · have hmem := mem_map_of_mem (f := Prod.fst) ho
    rw [hids, mem_range'_1] at hmem
    exact hmem
  · rw [hdescribes.objects] at ho
    obtain ⟨o', ho', rfl⟩ := mem_map.mp ho
    obtain ⟨w, hw, hresult⟩ := exists_task hresults ho'
    obtain ⟨writer, hwriter, hlookup⟩ := hstored w hw
    obtain ⟨writer', hwriter', hsize'⟩ := hresult.objectSize
    obtain rfl : writer' = writer := Except.ok.inj (hwriter'.symm.trans hwriter)
    have hmem : ∀ {e}, e ∈ w.writes → e ∈ records.entries := fun he => mem_records hlease hw he
    obtain ⟨info, hinfo, hentries, hread⟩ := ObjectWrite.readsBack hwriter
      (fun e he => ⟨h.streamId e (hmem he), fun r hr => (h.owned e (hmem he) r hr).2⟩)
      (hfit w hw writer' hwriter) hlookup (hid.trans hresult.objectId) (hsize.trans hsize')
    have hstreams := map_streamId_streamRanges hresult.ranges
    refine ⟨info, hinfo, fun e he => hstreams ▸ hentries e he, fun streamId hstream => ?_⟩
    obtain ⟨batches, hbatches, hflatten⟩ := hread streamId
    refine ⟨batches, hbatches, ?_⟩
    obtain ⟨e, he, rfl⟩ := mem_map.mp (hstreams ▸ hstream)
    -- The streams of an object are distinct.
    have hfilter : w.writes.filter (·.1 = e.1) = [e] := by
      have hget : OrdMap.get? ⟨w.writes, sorted_objectWrites hw⟩ e.1 = some e.2 :=
        OrdMap.get?_of_mem he
      have hkey := OrdMap.entries_filter_key ⟨w.writes, sorted_objectWrites hw⟩ e.1
      rw [hget] at hkey
      exact hkey
    rw [hfilter, flatMap_singleton] at hflatten
    rw [hflatten]
    exact OrdMap.get?_of_mem (hmem he)

/-- Two streams, the second in an object of its own, which is closed first. -/
def twoStreams : OrdMap Nat (List StreamRecordBatch) :=
  ⟨[(1, [⟨1, 0, 0, 2, [7]⟩, ⟨1, 0, 2, 1, []⟩]), (4, [⟨4, 0, 9, 1, [1, 2, 3]⟩])], by decide⟩

instance (writer : ObjectWriter) : Decidable (ObjectWrite.Fits writer) := by
  unfold ObjectWrite.Fits
  infer_instance

theorem upload_exact_two_streams : ∃ s' t' request,
    ((plan ⟨2, 0, 0⟩ twoStreams).prepare 5).upload [] [1, 0] = some (s', t') ∧
      t'.commitRequest = some request ∧ (request.objects.map Prod.fst).Nodup := by
  have hfit : ((plan ⟨2, 0, 0⟩ twoStreams).objectWrites 5).all (fun w =>
      (w.writer 0 0).toOption.all fun writer => decide (ObjectWrite.Fits writer)) = true := by
    decide +kernel
  obtain ⟨s', t', request, hupload, hrequest, -, -, hnodup, -⟩ :=
    @upload_exact ⟨2, 0, 0⟩ twoStreams 5 ⟨by decide, by decide, by decide, by decide⟩ (by decide)
      (fun w hw writer hwriter => by
        have hall := all_eq_true.mp hfit w hw
        rw [show w.writer 0 0 = .ok writer from hwriter] at hall
        exact of_decide_eq_true hall)
      [1, 0] (by decide) []
  exact ⟨s', t', request, hupload, hrequest, hnodup⟩

/-! ## An index block beyond its length field -/

/-- One empty record for each of the streams below `n`. -/
def singleRecordStreams (n : Nat) : OrdMap Nat (List StreamRecordBatch) where
  entries := singleRecordWrites 0 n
  sorted := pairwise_map.mpr pairwise_lt_range'

theorem uploadable_singleRecordStreams (hn : n ≤ 2 ^ 64) : Uploadable (singleRecordStreams n) := by
  have hmem : ∀ e ∈ (singleRecordStreams n).entries, ∃ i < n, e = (i, [⟨i, 0, 0, 1, []⟩]) := by
    intro e he
    obtain ⟨i, hi, rfl⟩ := mem_map.mp he
    exact ⟨i, by simpa using (mem_range'_1.mp hi).2, rfl⟩
  refine ⟨fun e he => ?_, fun e he => ?_, fun e he r hr => ?_, fun e he => ?_⟩
  · obtain ⟨i, hi, rfl⟩ := hmem e he
    exact hi.trans_le hn
  · obtain ⟨i, -, rfl⟩ := hmem e he
    exact cons_ne_nil _ _
  · obtain ⟨i, hi, rfl⟩ := hmem e he
    obtain rfl := mem_singleton.mp hr
    refine ⟨rfl, ?_⟩
    simp only [StreamRecordBatch.InRange, length_nil]
    omega
  · obtain ⟨i, -, rfl⟩ := hmem e he
    exact isChain_singleton _

theorem plan_singleRecordStreams (hn : n ≠ 1) :
    (plan ⟨1, 0, 0⟩ (singleRecordStreams n)).streamSetObjectMap.entries = singleRecordWrites 0 n ∧
      (plan ⟨1, 0, 0⟩ (singleRecordStreams n)).streamObjectMap.entries = [] := by
  have hsize : ∀ e ∈ singleRecordWrites 0 n, streamSize e.2 = 0 := by
    intro e he
    obtain ⟨i, -, rfl⟩ := mem_map.mp he
    rfl
  have hlength : ¬(singleRecordStreams n).entries.length = 1 := by
    show ¬((range' 0 n).map _).length = 1
    rwa [length_map, length_range']
  rw [plan, if_neg hlength]
  refine ⟨filter_eq_self.mpr fun e he => ?_, filter_eq_nil_iff.mpr fun e he => ?_⟩
  · rw [hsize e he]
    rfl
  · rw [hsize e he]
    decide

/-- A block of 119304648 streams with one record each is uploaded and committed as an object that
cannot be read. -/
theorem upload_index_overflow : ∃ s' t' request,
    Uploadable (singleRecordStreams 119304648) ∧
    (plan ⟨1, 0, 0⟩ (singleRecordStreams 119304648)).objectCount = 1 ∧
    ((plan ⟨1, 0, 0⟩ (singleRecordStreams 119304648)).prepare 0).upload [] [0] = some (s', t') ∧
    t'.commitRequest = some request ∧
    ∃ o ∈ request.objects, ∀ m : S3ObjectMetadata, m.objectId = o.1 → m.objectSize = o.2.1 →
      ∃ e, ObjectReader.basicObjectInfo s' m = .error e := by
  have huploadable := uploadable_singleRecordStreams (n := 119304648) (by norm_num)
  obtain ⟨hsso, hso⟩ := plan_singleRecordStreams (n := 119304648) (by norm_num)
  have hne : singleRecordWrites 0 119304648 ≠ [] := by
    apply ne_nil_of_length_pos
    rw [singleRecordWrites, length_map, length_range']
    norm_num
  have hcount : (plan ⟨1, 0, 0⟩ (singleRecordStreams 119304648)).objectCount = 1 := by
    rw [objectCount, hsso, hso, isEmpty_eq_false_iff.mpr hne]
    rfl
  have hlease : 0 + (plan ⟨1, 0, 0⟩ (singleRecordStreams 119304648)).objectCount ≤
      noopObjectId := by
    rw [hcount]
    decide
  have hwrites : (plan ⟨1, 0, 0⟩ (singleRecordStreams 119304648)).objectWrites 0 =
      [⟨0, singleRecordWrites 0 119304648⟩] := by
    rw [objectWrites_of_ne (by rw [hsso]; exact hne) hlease, hsso, streamObjectWrites, hso]
    rfl
  have horder : [0].Perm (range
      (plan ⟨1, 0, 0⟩ (singleRecordStreams 119304648)).objectCount) := by
    rw [hcount]
    exact .refl _
  obtain ⟨s', written, hupload, hresults, hstored⟩ := exists_upload huploadable hlease horder []
  have hdescribes := describes_of_results hlease hresults
  refine ⟨s', _, _, huploadable, hcount, hupload, rfl, ?_⟩
  rw [hwrites] at hresults hstored
  obtain ⟨o, os, hresult, -, rfl⟩ := forall₂_cons_left_iff.mp hresults
  rw [hdescribes.objects]
  refine ⟨_, mem_cons_self, fun m hid hsize => ?_⟩
  obtain ⟨writer, hwriter, hlookup⟩ := hstored _ mem_cons_self
  obtain ⟨writer', hwriter', hsize'⟩ := hresult.objectSize
  obtain rfl : writer' = writer := Except.ok.inj (hwriter'.symm.trans hwriter)
  obtain ⟨writer, hw, huploaded, hblocks⟩ := ObjectWriter.writeAll_single
    (w := ObjectWriter.open_ 0 0 0) (k := 0) 119304648 (fun _ h => by cases h)
  obtain rfl : writer' = writer := Except.ok.inj (hwriter.symm.trans hw)
  have hkey : m.key = writer'.key := by
    rw [ObjectWrite.key_writer hwriter, S3ObjectMetadata.key, hid]
    exact congrArg genObjectKey hresult.objectId
  exact ObjectWriter.single_blocks_unreadable (huploaded rfl) hblocks hlookup hkey
    (hsize.trans hsize')

end UploadWalTask

end S3Stream
