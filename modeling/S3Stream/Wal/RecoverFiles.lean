import S3Stream.Wal.Recover

/-! # Recovery over well-formed objects

What the cursor yields when every object of the run is a file the writer built: the entries of
the files in order, without the trimmed ones and the trim records. -/

namespace S3Stream

open List
open WalEntry (frame size)
open WalFile (entries payload toWalObject)

/-- The objects a bucket holds for a list of files. -/
def storageOf (root : Key) (files : List WalFile) : Storage :=
  files.map fun f => (f.key root, f.payload)

namespace WalEntry

/-- The entry as a recovery reports it; the epoch comes from the epoch map. -/
def toRecoverResult (epochOf : OrdMap Nat Nat) (e : WalEntry) : RecoverResult :=
  ⟨e.record, ((epochOf.floor? e.offset).map Prod.snd).getD 0, e.offset, e.size % 2 ^ 32⟩

/-- An entry is yielded unless it is trimmed or a trim record. -/
def Survives (trimOffset : Int) (e : WalEntry) : Prop :=
  trimOffset < e.offset ∧ ¬ e.IsTrimRecord

instance (t : Int) (e : WalEntry) : Decidable (e.Survives t) := by unfold Survives; infer_instance

/-- The numbers of an entry fit the frame header, and the epoch map covers its offset. -/
structure Decodable (epochOf : OrdMap Nat Nat) (e : WalEntry) : Prop where
  inRange : e.record.InRange
  stop_lt : e.stop < 2 ^ 63
  covered : ∃ k ∈ epochOf, k.1 ≤ e.offset

end WalEntry

namespace RecoverIterator

variable {s : Storage} {window : Nat} {it : RecoverIterator} {e : WalEntry}

/-! ## One frame -/

private theorem bind_ok (a : α) (f : α → Except ε β) : (Except.ok a >>= f) = f a := rfl

theorem takeBody_append (hdata : it.data = body ++ rest) :
    it.takeBody body.length = .ok (body, { it with data := rest }) := by
  rw [takeBody, hdata, if_pos (by simp), take_left, drop_left]

/-- The frame header is at the front of `data`; the body comes from wherever `takeBody` finds
it. -/
theorem decodeFrame_of_takeBody (he : e.Decodable it.startOffsetToEpoch) (hdata : it.data =
      (WalRecordHeader.data e.offset e.record.encoded.length (walCrc32 e.record.encoded)).marshal ++
        front) (htaken : { it with data := front }.takeBody e.record.encoded.length =
      .ok (e.record.encoded, it')) (hmap : it'.startOffsetToEpoch = it.startOffsetToEpoch) :
    it.decodeFrame = .ok (e.toRecoverResult it.startOffsetToEpoch, it') := by
  obtain ⟨hrange, hstop, k, hk, hle⟩ := he
  obtain ⟨d, hfloor⟩ := OrdMap.exists_floor? hk hle
  have hbody : e.record.encoded.length < 256 ^ 4 := by
    have := hrange.2.2.2.2.2; simp only [StreamRecordBatch.length_encoded]; omega
  have hoffset : e.offset + 24 < 256 ^ 8 := by
    simp only [WalEntry.stop, size, framedSize, walRecordHeaderSize] at hstop; omega
  have hlen : 24 ≤ it.data.length := by
    rw [hdata, length_append]
    simp
  obtain ⟨h, hhead, hmagic, hlength, hoff, hcrc⟩ :=
    WalRecordHeader.unmarshal_marshal_data e.offset hbody (walCrc32_lt e.record.encoded)
  have htake : it.data.take 24 = (WalRecordHeader.data e.offset e.record.encoded.length
      (walCrc32 e.record.encoded)).marshal := by
    rw [hdata]
    exact Bytes.take_front _ (by simp)
  have hdrop : it.data.drop 24 = front := by
    rw [hdata]
    exact Bytes.drop_front _ (by simp)
  have hparse := StreamRecordBatch.parse_encoded hrange []
  rw [append_nil] at hparse
  have hoffset' : (h.bodyOffset + 2 ^ 64 - 24) % 2 ^ 64 = e.offset := by omega
  have hepoch : it'.epochAt e.offset = .ok d.2 := by rw [epochAt, hmap, hfloor]
  rw [decodeFrame, walRecordHeaderSize, ensure_of hlen, htake, hhead, hdrop]
  simp only [Except.mapError, bind_ok, ensure_of hmagic, hlength, htaken, ensure_of hcrc, hparse,
    hoffset', hepoch]
  simp [WalEntry.toRecoverResult, hfloor, size, framedSize, walRecordHeaderSize,
    pure, Except.pure]

theorem decodeFrame_frame (he : e.Decodable it.startOffsetToEpoch)
    (hdata : it.data = e.frame ++ rest) :
    it.decodeFrame =
      .ok (e.toRecoverResult it.startOffsetToEpoch, { it with data := rest }) := by
  rw [frame, append_assoc] at hdata
  exact decodeFrame_of_takeBody he hdata (takeBody_append rfl) rfl

/-! ## The prefetch queue -/

variable {root : Key} {near far fs : List WalFile} {es : List WalEntry}

/-- The files behind the object being decoded: `near` is prefetched, `far` is not. -/
structure Queue (root : Key) (it : RecoverIterator) (near far : List WalFile) : Prop where
  readahead : it.readahead = near.map fun f => .ok f.payload
  objects : it.objects = far.map (toWalObject root)
  dataSize : it.readaheadDataSize = (near.map fun f => f.payload.length).sum

/-- Every file can be read from the storage. -/
def Stored (s : Storage) (root : Key) (fs : List WalFile) : Prop :=
  ∀ f ∈ fs, s.lookup (f.key root) = some f.payload

/-- Prefetching moves files from `far` to `near` and stops only with something prefetched. -/
theorem readAheadFrom_queue (hwindow : 0 < window) (hs : Stored s root far)
    (hr : it.readahead = near.map fun f => .ok f.payload)
    (hd : it.readaheadDataSize = (near.map fun f => f.payload.length).sum) :
    ∃ near' far', near ++ far = near' ++ far' ∧ (near' = [] → far' = []) ∧
      Queue root (readAheadFrom s window (far.map (toWalObject root)) it) near' far' ∧
      (readAheadFrom s window (far.map (toWalObject root)) it).data = it.data ∧
      (readAheadFrom s window (far.map (toWalObject root)) it).trimOffset =
        it.trimOffset ∧
      (readAheadFrom s window (far.map (toWalObject root)) it).startOffsetToEpoch =
        it.startOffsetToEpoch := by
  induction far generalizing near it with
  | nil => exact ⟨near, [], rfl, fun _ => rfl, ⟨hr, rfl, hd⟩, rfl, rfl, rfl⟩
  | cons f far ih =>
    rw [map_cons, readAheadFrom]
    split
    next =>
      have hread : s.rangeRead (f.toWalObject root).key 0 (some (f.toWalObject root).size) =
          .ok f.payload := Storage.rangeRead_whole (hs f mem_cons_self) le_rfl
      have hstep := @ih
        { it with
          readahead := it.readahead ++
            [s.rangeRead (f.toWalObject root).key 0 (some (f.toWalObject root).size)]
          readaheadDataSize := it.readaheadDataSize + (f.toWalObject root).size }
        (near ++ [f]) (fun g hg => hs g (mem_cons_of_mem f hg)) (by simp [hr, hread])
        (by simp [hd, toWalObject])
      simpa using hstep
    next hge =>
      refine ⟨near, f :: far, rfl, ?_, ⟨hr, rfl, hd⟩, rfl, rfl, rfl⟩
      rintro rfl
      exact absurd (by simpa [hd] using hwindow) hge

theorem loadNextBuffer_queue (hf : f.Valid) (hq : Queue root it (f :: near) far) :
    ∃ it', it.loadNextBuffer = .ok it' ∧ Queue root it' near far ∧ it'.data = f.body ∧
      it'.trimOffset = it.trimOffset ∧ it'.startOffsetToEpoch = it.startOffsetToEpoch := by
  have hhead := WalObjectHeader.unmarshal_marshal hf.header_inRange f.body
  have hsize := hf.header_inRange.size_eq
  refine ⟨{ it with
    readahead := near.map fun f => .ok f.payload
    readaheadDataSize := it.readaheadDataSize - f.payload.length
    data := f.payload.drop f.header.size }, ?_, ⟨rfl, hq.objects, ?_⟩, ?_, rfl, rfl⟩
  · rw [loadNextBuffer, hq.readahead, map_cons]
    simp only [payload, hhead, bind_ok]
    rfl
  · simp [hq.dataSize]
  · rw [hsize, payload]
    exact Bytes.drop_front _ hf.header_inRange.length_marshal

/-! ## The whole stream -/

variable {trimOffset : Int} {epochOf : OrdMap Nat Nat}

/-- The cursor stands before the entries `es` of the current object and the files `fs`. -/
structure Ready (root : Key) (trimOffset : Int) (epochOf : OrdMap Nat Nat) (it : RecoverIterator)
    (es : List WalEntry) (fs : List WalFile) : Prop where
  data : it.data = es.flatMap frame
  trimOffset : it.trimOffset = trimOffset
  epochOf : it.startOffsetToEpoch = epochOf
  queue : ∃ near far, fs = near ++ far ∧ (near = [] → far = []) ∧ Queue root it near far

theorem tryReadAhead_ready (hwindow : 0 < window) (hs : Stored s root far)
    (hq : Queue root it near far) (ht : it.trimOffset = trimOffset)
    (he : it.startOffsetToEpoch = epochOf) (hd : it.data = es.flatMap frame) :
    Ready root trimOffset epochOf (it.tryReadAhead s window) es (near ++ far) := by
  obtain ⟨near', far', hsplit, hne, hq', hdata, htrim, hepoch⟩ :=
    readAheadFrom_queue hwindow hs hq.readahead hq.dataSize
  rw [tryReadAhead, hq.objects]
  exact ⟨hdata.trans hd, htrim.trans ht, hepoch.trans he, near', far', hsplit, hne, hq'⟩

private theorem decode_ready (hd : e.Decodable epochOf)
    (h : Ready root trimOffset epochOf it (e :: es) fs) :
    ∃ it', it.decodeFrame = .ok (e.toRecoverResult epochOf, it') ∧
      Ready root trimOffset epochOf it' es fs := by
  obtain ⟨hdata, htrim, rfl, near, far, hfs, hne, hq⟩ := h
  refine ⟨{ it with data := es.flatMap frame }, decodeFrame_frame hd ?_, ?_⟩
  · simpa using hdata
  · exact ⟨rfl, htrim, rfl, near, far, hfs, hne, hq.readahead, hq.objects, hq.dataSize⟩

theorem next0_entry (hwindow : 0 < window) (hs : Stored s root fs) (hd : e.Decodable epochOf)
    (h : Ready root trimOffset epochOf it (e :: es) fs) :
    ∃ it', it.next0 s window = .ok (e.toRecoverResult epochOf, it') ∧
      Ready root trimOffset epochOf it' es fs := by
  obtain ⟨hdata, htrim, hepoch, near, far, rfl, -, hq⟩ := h
  have hbytes : it.data.isEmpty = false := by
    have hlen : 0 < it.data.length := by
      have := framedSize_pos e.record
      simp only [hdata, flatMap_cons, length_append, WalEntry.length_frame, size]
      omega
    simpa [List.isEmpty_iff] using ne_nil_of_length_pos hlen
  have hready := tryReadAhead_ready hwindow (fun f hf => hs f (mem_append_right near hf)) hq
    htrim hepoch hdata
  rw [next0, hbytes]
  exact decode_ready hd hready

/-- At the end of an object the next file is loaded and its first entry decoded. -/
theorem next0_file (hwindow : 0 < window) (hs : Stored s root (f :: fs)) (hf : f.Valid)
    (hentries : f.entries = e :: es) (hd : e.Decodable epochOf)
    (h : Ready root trimOffset epochOf it [] (f :: fs)) :
    ∃ it', it.next0 s window = .ok (e.toRecoverResult epochOf, it') ∧
      Ready root trimOffset epochOf it' es fs := by
  obtain ⟨hdata, htrim, hepoch, near, far, hsplit, hne, hq⟩ := h
  cases near with
  | nil => simp [hne rfl] at hsplit
  | cons g near =>
    obtain ⟨rfl, rfl⟩ := cons.inj hsplit
    obtain ⟨it', hload, hq', hdata', htrim', hepoch'⟩ := loadNextBuffer_queue hf hq
    have hready := tryReadAhead_ready hwindow
      (fun g hg => hs g (mem_cons_of_mem f (mem_append_right near hg))) hq'
      (htrim'.trans htrim) (hepoch'.trans hepoch)
      (by rw [hdata', WalFile.body, hentries] : it'.data = (e :: es).flatMap frame)
    have hempty : it.data.isEmpty = true := by simp [hdata]
    rw [next0, hempty, if_pos rfl, hload]
    exact decode_ready hd hready

theorem skips_iff (hd : e.Decodable epochOf) (ht : it.trimOffset = trimOffset) :
    it.skips (e.toRecoverResult epochOf) = true ↔ ¬ e.Survives trimOffset := by
  have hoffset : asI64 e.offset = e.offset :=
    asI64_of_lt (by have := hd.stop_lt; simp only [WalEntry.stop] at this; omega)
  rw [skips, decide_eq_true_iff, WalEntry.Survives, not_and_or, not_lt, not_not, ht]
  simp only [WalEntry.toRecoverResult, hoffset, WalEntry.IsTrimRecord]

/-- A decoded entry is yielded if it survives, and the cursor goes on. -/
theorem items_cons (hnext : it.hasNext0 = true)
    (hstep : it.next0 s window = .ok (e.toRecoverResult epochOf, it'))
    (ht : it'.trimOffset = trimOffset) (hd : e.Decodable epochOf) :
    it.items s window (fuel + 1) =
      ([e].filter (·.Survives trimOffset)).map (.ok <| ·.toRecoverResult epochOf) ++
        it'.items s window fuel := by
  have hskip := skips_iff hd ht
  rw [items, hnext, hstep]
  simp only [Bool.not_true, Bool.false_eq_true, if_false]
  by_cases hsurv : e.Survives trimOffset
  · have hno : it'.skips (e.toRecoverResult epochOf) = false := by
      rw [Bool.eq_false_iff]; exact fun hyes => hskip.mp hyes hsurv
    rw [hno, filter_cons_of_pos (by simpa using hsurv)]
    rfl
  · rw [hskip.mpr hsurv, filter_cons_of_neg (by simpa using hsurv)]
    rfl

/-- The stream is the list of surviving entries, in order. -/
theorem items_ready (hwindow : 0 < window) (hs : Stored s root fs) (hvalid : ∀ f ∈ fs, f.Valid)
    (hd : ∀ e ∈ es ++ fs.flatMap entries, e.Decodable epochOf)
    (h : Ready root trimOffset epochOf it es fs)
    (hfuel : (es ++ fs.flatMap entries).length < fuel) :
    it.items s window fuel =
      ((es ++ fs.flatMap entries).filter (·.Survives trimOffset)).map
        (.ok <| ·.toRecoverResult epochOf) := by
  induction fuel generalizing it es fs with
  | zero => omega
  | succ fuel ih =>
    -- One decoded entry, whichever object it came from.
    have hone : ∀ {e it' es' fs'}, it.hasNext0 = true →
        it.next0 s window = .ok (e.toRecoverResult epochOf, it') →
        Ready root trimOffset epochOf it' es' fs' → Stored s root fs' → (∀ f ∈ fs', f.Valid) →
        es ++ fs.flatMap entries = e :: (es' ++ fs'.flatMap entries) →
        it.items s window (fuel + 1) =
          ((es ++ fs.flatMap entries).filter (·.Survives trimOffset)).map
            (.ok <| ·.toRecoverResult epochOf) := by
      intro e it' es' fs' hnext hstep hready hs' hvalid' hlist
      rw [hlist] at hfuel hd ⊢
      rw [items_cons hnext hstep hready.trimOffset (hd e mem_cons_self),
        ih hs' hvalid' (fun e he => hd e (mem_cons_of_mem _ he)) hready (by simpa using hfuel),
        ← map_append, ← filter_append, singleton_append]
    cases es with
    | cons e es =>
      obtain ⟨it', hstep, hready⟩ := next0_entry hwindow hs (hd e (by simp)) h
      refine hone ?_ hstep hready hs hvalid rfl
      have hdata : it.data ≠ [] := by
        rw [h.data]
        exact ne_nil_of_length_pos (Nat.zero_lt_succ _ |>.trans_le
          (WalEntry.length_le_flatMap_frame (e :: es)))
      simp [hasNext0, hdata]
    | nil =>
      cases fs with
      | nil =>
        obtain ⟨hdata, -, -, near, far, hsplit, -, hq⟩ := h
        obtain ⟨rfl, rfl⟩ := append_eq_nil_iff.mp hsplit.symm
        simp [items, hasNext0, hdata, hq.readahead, hq.objects]
      | cons f =>
        have hf := hvalid f mem_cons_self
        obtain ⟨e, es, hentries⟩ := exists_cons_of_ne_nil hf.entries_ne_nil
        obtain ⟨it', hstep, hready⟩ :=
          next0_file hwindow hs hf hentries (hd e (by simp [hentries])) h
        refine hone ?_ hstep hready (fun g hg => hs g (mem_cons_of_mem f hg))
          (fun g hg => hvalid g (mem_cons_of_mem f hg)) (by simp [hentries])
        obtain ⟨-, -, -, near, far, hsplit, hne, hq⟩ := h
        cases near with
        | nil => simp [hne rfl] at hsplit
        | cons => simp [hasNext0, hq.readahead]

end RecoverIterator

/-! ## A recovery over files -/

variable {s : Storage} {window : Nat} {root dir : Key} {files : List WalFile}

namespace WalFile

def Le (a b : WalFile) : Prop :=
  a.epoch < b.epoch ∨ a.epoch = b.epoch ∧ a.startOffset ≤ b.startOffset

instance : DecidableRel Le := fun a b => by unfold Le; infer_instance

instance : Std.Total Le := ⟨fun a b => by unfold Le; omega⟩

instance : IsTrans WalFile Le := ⟨fun a b c => by unfold Le; omega⟩

end WalFile

/-- The trim watermark a recovery uses: that of the last file. -/
def newestTrim (files : List WalFile) : Int :=
  (files.getLast?.map WalFile.trimOffset).getD trimOffsetNone

def continuousFiles (files : List WalFile) : List WalFile :=
  Windows.contiguousRun WalFile.startOffset WalFile.endOffset
    (files.dropWhile fun f => (f.endOffset : Int) ≤ newestTrim files)

def recoveredEntries (files : List WalFile) : List WalEntry :=
  ((continuousFiles files).flatMap entries).filter (·.Survives (newestTrim files))

theorem continuousFiles_sublist (files : List WalFile) :
    (continuousFiles files).Sublist files :=
  (Windows.contiguousRun_isPrefix _).sublist.trans (dropWhile_sublist _)

theorem getTrimOffset_files (hs : RecoverIterator.Stored s root files)
    (hvalid : ∀ f ∈ files, f.Valid) :
    getTrimOffset s (files.map (toWalObject root)) = .ok (newestTrim files) := by
  rw [getTrimOffset, getLast?_map, newestTrim]
  cases hlast : files.getLast? with
  | none => rfl
  | some f =>
    have hmem : f ∈ files := mem_of_getLast? hlast
    have hin := (hvalid f hmem).header_inRange
    have hread : s.rangeRead (f.toWalObject root).key 0
        (some (min maxWalHeaderSize (f.toWalObject root).size)) = .ok f.header.marshal := by
      have hlen : min maxWalHeaderSize (f.toWalObject root).size = 48 := by
        simp [maxWalHeaderSize, walHeaderSizeV1, walHeaderSizeV0, toWalObject,
          payload, hin.length_marshal]
      rw [hlen, Storage.rangeRead, show s.lookup (f.toWalObject root).key = some f.payload from
        hs f hmem]
      simp only [Nat.zero_min, Option.getD_some, Nat.sub_zero, payload]
      rw [Bytes.field_front _ hin.length_marshal]
    have hhead := WalObjectHeader.unmarshal_marshal hin []
    rw [append_nil] at hhead
    simp only [Option.map_some, hread, Except.mapError, bind, Except.bind, hhead, Option.getD_some]
    rfl

theorem getContinuous_files (hvalid : ∀ f ∈ files, f.Valid) :
    getContinuousFromTrimOffset (files.map (toWalObject root)) (newestTrim files) =
      (continuousFiles files).map (toWalObject root) := by
  have hdrop : ∀ {fs : List WalFile} (t : Int), (∀ f ∈ fs, f.Valid) →
      (fs.map (toWalObject root)).dropWhile (fun o => asI64 o.endOffset ≤ t) =
        (fs.dropWhile fun f => (f.endOffset : Int) ≤ t).map (toWalObject root) := by
    intro fs t hfs
    induction fs with
    | nil => rfl
    | cons f fs ih =>
      have hend : asI64 (f.toWalObject root).endOffset = f.endOffset :=
        asI64_of_lt (hfs f mem_cons_self).endOffset_lt
      simp only [map_cons, dropWhile_cons, hend, ih fun g hg => hfs g (mem_cons_of_mem f hg)]
      split <;> rfl
  rw [getContinuousFromTrimOffset, hdrop _ hvalid, Windows.contiguousRun_map]
  rfl

theorem exists_mem_startOffsetToEpoch (hsorted : objects.Pairwise WalObject.Le) (ho : o ∈ objects) :
    ∃ k ∈ startOffsetToEpoch objects, k.1 ≤ o.startOffset := by
  -- The invariant of the fold: the group that is open covers the rest of its epoch.
  suffices hfold : ∀ (acc : OrdMap Nat Nat × Option Nat),
      (∀ x ∈ objects, acc.2 = some x.epoch → ∃ k ∈ acc.1, k.1 ≤ x.startOffset) →
      ∀ n, ((∃ k ∈ acc.1, k.1 ≤ n) ∨ ∃ x ∈ objects, x.startOffset ≤ n) →
      ∃ k ∈ (objects.foldl (fun (acc : OrdMap Nat Nat × Option Nat) object =>
        if acc.2 ≠ some object.epoch then
          (acc.1.insert object.startOffset object.epoch, some object.epoch)
        else acc) acc).1, k.1 ≤ n from
    hfold (OrdMap.empty, none) (by simp) o.startOffset (.inr ⟨o, ho, le_rfl⟩)
  clear ho
  induction objects with
  | nil =>
    intro acc _ n hn
    simpa using hn
  | cons x xs ih =>
    obtain ⟨hx, hxs⟩ := pairwise_cons.mp hsorted
    intro acc hopen n hn
    rw [foldl_cons]
    split
    next =>
      have hkeep : ∀ {m}, (∃ k ∈ acc.1, k.1 ≤ m) →
          ∃ k ∈ acc.1.insert x.startOffset x.epoch, k.1 ≤ m := by
        rintro m ⟨k, hk, hle⟩
        by_cases heq : k.1 = x.startOffset
        · exact ⟨_, OrdMap.mem_insert_self, heq ▸ hle⟩
        · exact ⟨k, OrdMap.mem_insert_of_ne hk heq, hle⟩
      refine ih hxs _ (fun y hy hepoch => ?_) n ?_
      · have hle := hx y hy
        have heq : x.epoch = y.epoch := by simpa using hepoch
        refine ⟨_, OrdMap.mem_insert_self, ?_⟩
        simp only [WalObject.Le] at hle
        omega
      · rcases hn with hn | ⟨y, hy, hle⟩
        · exact .inl (hkeep hn)
        · rcases mem_cons.mp hy with rfl | hy
          · exact .inl ⟨_, OrdMap.mem_insert_self, hle⟩
          · exact .inr ⟨y, hy, hle⟩
    next hold =>
      refine ih hxs acc (fun y hy => hopen y (mem_cons_of_mem x hy)) n ?_
      rcases hn with hn | ⟨y, hy, hle⟩
      · exact .inl hn
      · rcases mem_cons.mp hy with rfl | hy
        · obtain ⟨k, hk, hk'⟩ := hopen y mem_cons_self (not_not.mp hold)
          exact .inl ⟨k, hk, hk'.trans hle⟩
        · exact .inr ⟨y, hy, hle⟩

private theorem length_entries_le (fs : List WalFile) :
    (fs.flatMap entries).length ≤ (fs.map fun f => f.payload.length).sum := by
  induction fs with
  | nil => simp
  | cons f fs ih =>
    have hbody : f.entries.length ≤ f.body.length := WalEntry.length_le_flatMap_frame _
    simp only [flatMap_cons, length_append, map_cons, sum_cons, payload]
    simp only [payload, length_append] at ih
    omega

/-- **Recovery over files**: the stream is the surviving entries of the continuous run. -/
theorem recoverStream_files (hwindow : 0 < window) (hs : RecoverIterator.Stored s root files)
    (hvalid : ∀ f ∈ files, f.Valid) (hsorted : files.Pairwise WalFile.Le) :
    recoverStream s window (files.map (toWalObject root)) =
      (recoveredEntries files).map (.ok <| ·.toRecoverResult
        (startOffsetToEpoch (files.map (toWalObject root)))) := by
  have hsub := continuousFiles_sublist files
  have hready := @RecoverIterator.tryReadAhead_ready s window
    { trimOffset := newestTrim files
      objects := (continuousFiles files).map (toWalObject root)
      readahead := []
      readaheadDataSize := 0
      data := []
      startOffsetToEpoch := startOffsetToEpoch (files.map (toWalObject root)) }
    root [] (continuousFiles files) [] (newestTrim files) _ hwindow
    (fun f hf => hs f (hsub.subset hf)) ⟨rfl, rfl, rfl⟩ rfl rfl rfl
  have hdec : ∀ e ∈ [] ++ (continuousFiles files).flatMap entries,
      e.Decodable (startOffsetToEpoch (files.map (toWalObject root))) := by
    intro e he
    obtain ⟨f, hf, hef⟩ := mem_flatMap.mp he
    have hfv := hvalid f (hsub.subset hf)
    have hb := hfv.bounds hef
    have hobjects : (files.map (toWalObject root)).Pairwise WalObject.Le :=
      pairwise_map.mpr hsorted
    obtain ⟨k, hk, hle⟩ := exists_mem_startOffsetToEpoch hobjects
      (mem_map_of_mem (hsub.subset hf))
    exact ⟨hfv.inRange e hef, hb.2.2.trans_lt hfv.endOffset_lt, k, hk, le_trans hle hb.1⟩
  have hsum : ((continuousFiles files).map fun f => f.payload.length).sum ≤
      (files.map fun f => f.payload.length).sum := (hsub.map _).sum_le_sum fun _ _ => Nat.zero_le _
  have hcount := length_entries_le (continuousFiles files)
  have hitems := @RecoverIterator.items_ready s window _ root _ _ _ _
    (((files.map (toWalObject root)).map WalObject.size).sum + 1) hwindow
    (fun f hf => hs f (hsub.subset hf)) (fun f hf => hvalid f (hsub.subset hf)) hdec hready
    (by
      rw [map_map]
      exact Nat.lt_succ_of_le (hcount.trans hsum))
  rw [recoverStream, RecoverIterator.new, getTrimOffset_files hs hvalid]
  simp only [bind, Except.bind, getContinuous_files hvalid]
  exact hitems

/-! ## Discovering the files of a bucket -/

/-- Drop the first file if a later file of another epoch starts inside it. -/
def keptFiles : List WalFile → List WalFile
  | [] => []
  | f :: fs =>
    if ∃ g ∈ fs, f.epoch ≠ g.epoch ∧ g.startOffset < f.endOffset then fs else f :: fs

/-- The files a start or a recovery discovers, in listing order. -/
def discoverFiles (files : List WalFile) : List WalFile :=
  keptFiles (files.insertionSort WalFile.Le)

/-- No two files of the bucket share an epoch and a start offset. -/
def DistinctFiles (files : List WalFile) : Prop :=
  files.Pairwise fun f g => ¬ (f.epoch = g.epoch ∧ f.startOffset = g.startOffset)

theorem keptFiles_suffix (fs : List WalFile) : keptFiles fs <:+ fs := by
  cases fs with
  | nil => exact suffix_refl []
  | cons f fs =>
    rw [keptFiles]
    split
    · exact suffix_cons f fs
    · exact suffix_refl _

theorem skipOverlapObjects_files (hd : DistinctFiles fs) :
    skipOverlapObjects (fs.map (toWalObject root)) =
      (keptFiles fs).map (toWalObject root) := by
  cases fs with
  | nil => rfl
  | cons f fs =>
    have hnotmem : f.toWalObject root ∉ fs.map (toWalObject root) := by
      intro hmem
      obtain ⟨g, hg, heq⟩ := mem_map.mp hmem
      have hepoch := congrArg WalObject.epoch heq
      have hstart := congrArg WalObject.startOffset heq
      exact (pairwise_cons.mp hd).1 g hg ⟨hepoch.symm, hstart.symm⟩
    have hiff : (f.toWalObject root).Overlapped (fs.map (toWalObject root)) ↔
        ∃ g ∈ fs, f.epoch ≠ g.epoch ∧ g.startOffset < f.endOffset := by
      simp [WalObject.Overlapped, toWalObject]
    obtain ⟨hyes, hno⟩ := skipOverlapObjects_cons hnotmem
    rw [map_cons, keptFiles]
    split
    next h => exact hyes (hiff.mpr h)
    next h => exact hno fun hover => h (hiff.mp hover)

theorem DistinctFiles.perm (h : DistinctFiles fs) (hp : gs.Perm fs) : DistinctFiles gs :=
  (hp.pairwise_iff fun hxy hyx => hxy ⟨hyx.1.symm, hyx.2.symm⟩).mpr h

theorem list_storageOf (root : Key) (files : List WalFile) :
    (storageOf root files).list root = files.map (WalFile.info root) := by
  have hall : (storageOf root files).filter (root.isPrefixOf ·.1) = storageOf root files := by
    refine filter_eq_self.mpr fun o ho => ?_
    obtain ⟨f, -, rfl⟩ := mem_map.mp ho
    exact isPrefixOf_iff_prefix.mpr ⟨_, rfl⟩
  rw [Storage.list, hall, storageOf, map_map]
  rfl

theorem parseWalObjects_list (hvalid : ∀ f ∈ files, f.Valid) :
    parseWalObjects ((storageOf (dir ++ ['/']) files).list (dir ++ ['/'])) =
      (files.insertionSort WalFile.Le).map (toWalObject (dir ++ ['/'])) := by
  have hparse : (files.map (WalFile.info (dir ++ ['/']))).filterMap parseWalObject =
      files.map (toWalObject (dir ++ ['/'])) := by
    rw [filterMap_map]
    induction files with
    | nil => rfl
    | cons f fs ih =>
      rw [filterMap_cons, Function.comp_apply,
        (hvalid f mem_cons_self).parseWalObject_info dir, map_cons,
        ih fun g hg => hvalid g (mem_cons_of_mem f hg)]
  rw [parseWalObjects, list_storageOf, hparse]
  exact (map_insertionSort WalFile.Le WalObject.Le _ files fun _ _ _ _ => Iff.rfl).symm

theorem stored_of_keys (hk : files.Pairwise fun f g => f.key root ≠ g.key root) :
    RecoverIterator.Stored (storageOf root files) root files := by
  induction files with
  | nil => intro f hf; cases hf
  | cons g fs ih =>
    obtain ⟨hg, hfs⟩ := pairwise_cons.mp hk
    intro f hf
    rw [storageOf, map_cons, lookup_cons]
    rcases mem_cons.mp hf with rfl | hmem
    · simp
    · have hbeq : (f.key root == g.key root) = false := by simpa using (hg f hmem).symm
      rw [hbeq]
      exact ih hfs f hmem

theorem stored_storageOf (hd : DistinctFiles files) (hvalid : ∀ f ∈ files, f.Valid) :
    RecoverIterator.Stored (storageOf (dir ++ ['/']) files) (dir ++ ['/']) files := by
  refine stored_of_keys (hd.imp_of_mem fun hf hg hne hkey => hne ?_)
  obtain ⟨hepoch, hstart, -⟩ := (hvalid _ hf).key_inj (hvalid _ hg) hkey
  exact ⟨hepoch, hstart⟩

theorem discoverWalObjects_files (hd : DistinctFiles files) (hvalid : ∀ f ∈ files, f.Valid) :
    discoverWalObjects (storageOf (dir ++ ['/']) files) (dir ++ ['/']) =
      (discoverFiles files).map (toWalObject (dir ++ ['/'])) := by
  rw [discoverWalObjects, parseWalObjects_list hvalid, skipOverlapObjects_files, discoverFiles]
  exact hd.perm (perm_insertionSort _ files)

theorem discoverFiles_subset (files : List WalFile) : discoverFiles files ⊆ files := fun _ hf =>
  (mem_insertionSort _).mp ((keptFiles_suffix _).subset hf)

theorem discoverFiles_sorted (files : List WalFile) :
    (discoverFiles files).Pairwise WalFile.Le :=
  (pairwise_insertionSort _ files).sublist (keptFiles_suffix _).sublist

/-- **Recovery of a bucket**: LIST, overlap removal and the cursor together. -/
theorem recoverStream_bucket (hwindow : 0 < window) (hd : DistinctFiles files)
    (hvalid : ∀ f ∈ files, f.Valid) :
    recoverStream (storageOf (dir ++ ['/']) files) window
        (discoverWalObjects (storageOf (dir ++ ['/']) files) (dir ++ ['/'])) =
      (recoveredEntries (discoverFiles files)).map (.ok <| ·.toRecoverResult
        (startOffsetToEpoch ((discoverFiles files).map (toWalObject (dir ++ ['/']))))) := by
  have hsub := discoverFiles_subset files
  rw [discoverWalObjects_files hd hvalid]
  refine recoverStream_files hwindow ?_ (fun f hf => hvalid f (hsub hf))
    (discoverFiles_sorted files)
  exact fun f hf => stored_storageOf hd hvalid f (hsub hf)

/-! ## What a recovery never yields -/

namespace RecoverIterator

variable {it it' : RecoverIterator}

theorem trimOffset_tryReadAhead (it : RecoverIterator) :
    (tryReadAhead s window it).trimOffset = it.trimOffset := by
  have hfrom : ∀ (os : List WalObject) (it : RecoverIterator),
      (readAheadFrom s window os it).trimOffset = it.trimOffset := by
    intro os
    induction os with
    | nil => exact fun _ => rfl
    | cons o os ih =>
      intro it
      rw [readAheadFrom]
      split
      · rw [ih]
      · rfl
  exact hfrom it.objects it

theorem trimOffset_loadNextBuffer (h : it.loadNextBuffer = .ok it') :
    it'.trimOffset = it.trimOffset := by
  unfold loadNextBuffer at h
  split at h
  · cases h
  · cases h
  · obtain ⟨header, -, h⟩ := bind_eq_ok h
    cases h
    rfl

theorem trimOffset_takeBody {length : Nat} (h : it.takeBody length = .ok (body, it')) :
    it'.trimOffset = it.trimOffset := by
  unfold takeBody at h
  split at h
  · cases h
    rfl
  · split at h
    · cases h
    · obtain ⟨it₁, hload, h⟩ := bind_eq_ok h
      dsimp only at h
      split at h
      · cases h
      · cases h
        have hkeep := trimOffset_loadNextBuffer hload
        exact hkeep

theorem trimOffset_decodeFrame (h : it.decodeFrame = .ok (r, it')) :
    it'.trimOffset = it.trimOffset := by
  obtain ⟨-, -, h⟩ := bind_eq_ok h
  obtain ⟨header, -, h⟩ := bind_eq_ok h
  obtain ⟨-, -, h⟩ := bind_eq_ok h
  obtain ⟨taken, htake, h⟩ := bind_eq_ok h
  obtain ⟨-, -, h⟩ := bind_eq_ok h
  obtain ⟨parsed, -, h⟩ := bind_eq_ok h
  obtain ⟨epoch, -, h⟩ := bind_eq_ok h
  cases h
  have hkeep := trimOffset_takeBody htake
  exact hkeep

theorem trimOffset_next0 (h : it.next0 s window = .ok (r, it')) :
    it'.trimOffset = it.trimOffset := by
  unfold next0 at h
  split at h
  · obtain ⟨it₁, hload, h⟩ := bind_eq_ok h
    rw [trimOffset_decodeFrame h, trimOffset_tryReadAhead]
    exact trimOffset_loadNextBuffer hload
  · rw [trimOffset_decodeFrame h, trimOffset_tryReadAhead]

theorem lt_of_mem_items (h : .ok r ∈ it.items s window fuel) :
    it.trimOffset < r.recordOffset.offset := by
  induction fuel generalizing it with
  | zero => cases h
  | succ fuel ih =>
    rw [items] at h
    split at h
    · cases h
    · split at h
      next => simp at h
      next hnext =>
        have htrim := trimOffset_next0 hnext
        split at h
        next => exact htrim ▸ ih h
        next hskip =>
          rcases mem_cons.mp h with heq | h
          · obtain rfl := Except.ok.inj heq
            have hnot := (not_or.mp (of_decide_eq_false (Bool.not_eq_true _ ▸ hskip))).1
            have hle := asI64_le r.recordOffset.offset
            omega
          · exact htrim ▸ ih h

end RecoverIterator

/-- **Whatever the storage holds**, a recovery yields only records above the watermark that it
reads. -/
theorem lt_of_mem_recoverStream (h : .ok r ∈ recoverStream s window objects) :
    ∃ trimOffset, getTrimOffset s objects = .ok trimOffset ∧
      trimOffset < r.recordOffset.offset := by
  unfold recoverStream at h
  split at h
  next => simp at h
  next hnew =>
    obtain ⟨trimOffset, htrim, hit⟩ := bind_eq_ok hnew
    refine ⟨trimOffset, htrim, ?_⟩
    have hlt := RecoverIterator.lt_of_mem_items h
    cases hit
    rwa [RecoverIterator.trimOffset_tryReadAhead] at hlt

/-- The watermark that a recovery reads is that of the file under the last object's key. -/
theorem getTrimOffset_storageOf (hd : DistinctFiles files) (hvalid : ∀ f ∈ files, f.Valid)
    {f : WalFile} (hf : f.Valid) (hlast : objects.getLast? = some (f.toWalObject (dir ++ ['/'])))
    (h : getTrimOffset (storageOf (dir ++ ['/']) files) objects = .ok trimOffset) :
    ∃ g ∈ files, g.key (dir ++ ['/']) = f.key (dir ++ ['/']) ∧ g.trimOffset = trimOffset := by
  have hstored : ∃ g ∈ files, g.key (dir ++ ['/']) = f.key (dir ++ ['/']) := by
    by_contra hnone
    have hlookup : (storageOf (dir ++ ['/']) files).lookup (f.key (dir ++ ['/'])) = none := by
      refine lookup_eq_none_iff.mpr fun o ho => ?_
      obtain ⟨g, hg, rfl⟩ := mem_map.mp ho
      exact bne_iff_ne.mpr fun heq => hnone ⟨g, hg, heq.symm⟩
    rw [getTrimOffset, hlast] at h
    obtain ⟨buffer, hread, -⟩ := bind_eq_ok h
    simp only [Storage.rangeRead, toWalObject, hlookup] at hread
    cases hread
  obtain ⟨g, hg, hkey⟩ := hstored
  refine ⟨g, hg, hkey, ?_⟩
  have hone := @getTrimOffset_files (storageOf (dir ++ ['/']) files) (dir ++ ['/']) [g]
    (fun x hx => stored_storageOf hd hvalid x (mem_singleton.mp hx ▸ hg))
    fun x hx => hvalid x (mem_singleton.mp hx ▸ hg)
  -- Both objects are longer than a header, so the size makes no difference.
  have hsize : ∀ {x : WalFile}, x.Valid →
      min maxWalHeaderSize (x.toWalObject (dir ++ ['/'])).size = 48 := by
    intro x hx
    simp [maxWalHeaderSize, walHeaderSizeV1, walHeaderSizeV0, toWalObject,
      payload, hx.header_inRange.length_marshal]
  simp only [getTrimOffset, map_cons, map_nil, getLast?_singleton, hsize (hvalid g hg)] at hone
  simp only [getTrimOffset, hlast, hsize hf] at h
  have hkeys : (g.toWalObject (dir ++ ['/'])).key = (f.toWalObject (dir ++ ['/'])).key := hkey
  rw [hkeys] at hone
  exact Except.ok.inj (hone.symm.trans h)

end S3Stream
