import S3Stream.Wal.RecoverFiles

/-! # Recovery and the readahead window

The cursor over objects whose records may continue in the next object. `next0` refills the
prefetch queue before it decodes a record, and a record that continues takes one more object from
the queue. If that object holds nothing but the end of the record, the queue may be left empty in
front of an empty buffer, and the next call finds no prefetched object. -/

namespace S3Stream

open List

/-! ## Records cut at the end of an object -/

/-- What begins in one object: whole records, and possibly one of whose frame the first bytes are
here and the rest in the next object. -/
structure Chunk where
  entries : List WalEntry
  cut : Option (WalEntry × Nat)
  deriving DecidableEq

/-- The part of a cut record in the object in which it begins. -/
def cutFront : Option (WalEntry × Nat) → Bytes
  | some (e, n) => e.frame.take n
  | none => []

/-- The part of a cut record in the next object. -/
def cutRest : Option (WalEntry × Nat) → Bytes
  | some (e, n) => e.frame.drop n
  | none => []

def cutEntry (cut : Option (WalEntry × Nat)) : List WalEntry := (cut.map Prod.fst).toList

/-- The records that begin in an object. -/
def Chunk.records (c : Chunk) : List WalEntry := c.entries ++ cutEntry c.cut

theorem Chunk.eq_of_records_eq_nil {c : Chunk} (h : c.records = []) : c = ⟨[], none⟩ := by
  obtain ⟨entries, cut⟩ := c
  obtain ⟨rfl, hcut⟩ := append_eq_nil_iff.mp h
  cases cut with
  | none => rfl
  | some => exact absurd hcut (by simp [cutEntry])

/-- The bytes of the records that begin in an object. -/
def Chunk.bytes (c : Chunk) : Bytes := c.entries.flatMap WalEntry.frame ++ cutFront c.cut

/-- The record data of the objects, behind an object whose last record is cut as `cut`. -/
def bodies : Option (WalEntry × Nat) → List Chunk → List Bytes
  | _, [] => []
  | cut, c :: cs => (cutRest cut ++ c.bytes) :: bodies c.cut cs

/-- A record is cut behind its frame header and ends in the next object. -/
def Chunked (cut : Option (WalEntry × Nat)) : List Chunk → Prop
  | [] => cut = none
  | c :: cs => (∀ x ∈ cut, walRecordHeaderSize ≤ x.2 ∧ x.2 < x.1.frame.length) ∧ Chunked c.cut cs

theorem flatten_bodies (cut : Option (WalEntry × Nat)) (h : Chunked cut cs) :
    (bodies cut cs).flatten = cutRest cut ++ (cs.flatMap Chunk.records).flatMap WalEntry.frame := by
  induction cs generalizing cut with
  | nil =>
    obtain rfl : cut = none := h
    rfl
  | cons c cs ih =>
    have hcut : cutFront c.cut ++ cutRest c.cut = (cutEntry c.cut).flatMap WalEntry.frame := by
      cases c.cut with
      | none => rfl
      | some => simp [cutFront, cutRest, cutEntry, take_append_drop]
    rw [bodies, flatten_cons, ih c.cut h.2]
    simp only [flatMap_cons, flatMap_append, Chunk.records, Chunk.bytes, append_assoc, ← hcut]

/-- Decode the record data of the whole run from one buffer. -/
def decodeSequentially (trimOffset : Int) (epochOf : OrdMap Nat Nat) (data : Bytes) :
    List (Except WalError RecoverResult) :=
  RecoverIterator.items [] 1 (data.length + 1)
    { trimOffset, objects := [], readahead := [], readaheadDataSize := 0, data,
      startOffsetToEpoch := epochOf }

variable {s : Storage} {window : Nat} {trimOffset : Int} {epochOf : OrdMap Nat Nat}

theorem decodeSequentially_frames {es : List WalEntry} (hd : ∀ e ∈ es, e.Decodable epochOf) :
    decodeSequentially trimOffset epochOf (es.flatMap WalEntry.frame) =
      (es.filter (·.Survives trimOffset)).map (.ok <| ·.toRecoverResult epochOf) := by
  have hready : RecoverIterator.Ready [] trimOffset epochOf
      { trimOffset, objects := [], readahead := [], readaheadDataSize := 0,
        data := es.flatMap WalEntry.frame, startOffsetToEpoch := epochOf } es [] :=
    ⟨rfl, rfl, rfl, [], [], rfl, fun _ => rfl, rfl, rfl, rfl⟩
  have hlen : (es ++ [].flatMap WalFile.entries).length < (es.flatMap WalEntry.frame).length + 1 :=
    Nat.lt_succ_of_le (by simpa using WalEntry.length_le_flatMap_frame es)
  rw [decodeSequentially, RecoverIterator.items_ready Nat.one_pos (forall_mem_nil _)
    (forall_mem_nil _) (by simpa using hd) hready hlen, flatMap_nil, append_nil]

/-! ## Objects as the cursor reads them -/

/-- The object is read, its header is one of the two versions, and behind it is the record data. -/
structure Readable (s : Storage) (o : WalObject) (body : Bytes) : Prop where
  ne_nil : body ≠ []
  read : ∃ payload header, s.rangeRead o.key 0 (some o.size) = .ok payload ∧
    payload.length = o.size ∧ WalObjectHeader.unmarshal payload = .ok header ∧
    payload.drop header.size = body

instance (s : Storage) (o : WalObject) (body : Bytes) : Decidable (Readable s o body) :=
  decidable_of_iff (body ≠ [] ∧ (s.rangeRead o.key 0 (some o.size)).toOption.any fun payload =>
      payload.length = o.size ∧
        (WalObjectHeader.unmarshal payload).toOption.any fun header =>
          payload.drop header.size = body) <| by
    constructor
    · rintro ⟨hne, h⟩
      cases hread : s.rangeRead o.key 0 (some o.size) with
      | error => simp [hread, Except.toOption] at h
      | ok payload =>
        cases hhead : WalObjectHeader.unmarshal payload with
        | error => simp [hread, hhead, Except.toOption] at h
        | ok header =>
          simp only [hread, hhead, Except.toOption, Option.any_some, decide_eq_true_eq] at h
          exact ⟨hne, payload, header, hread, h.1, hhead, h.2⟩
    · rintro ⟨hne, payload, header, hread, hlen, hhead, hbody⟩
      simp [hne, hread, hlen, hhead, hbody, Except.toOption]

theorem Readable.length_le (h : Readable s o body) : body.length ≤ o.size := by
  obtain ⟨payload, header, -, hlen, -, rfl⟩ := h.read
  rw [length_drop]
  omega

theorem Readable.size_pos (h : Readable s o body) : 0 < o.size :=
  lt_of_lt_of_le (length_pos_iff.mpr h.ne_nil) h.length_le

namespace RecoverIterator

variable {it it' : RecoverIterator} {e : WalEntry} {es : List WalEntry}
  {cut : Option (WalEntry × Nat)} {c : Chunk} {cs : List Chunk} {near far : List WalObject}

/-- The prefetch queue: `near` is read, `far` is not. -/
structure Prefetched (s : Storage) (it : RecoverIterator) (near far : List WalObject) : Prop where
  readahead : it.readahead = near.map fun o => s.rangeRead o.key 0 (some o.size)
  objects : it.objects = far
  dataSize : it.readaheadDataSize = (near.map WalObject.size).sum

/-- What is prefetched would not fill the window without its last object. -/
def Tight (window : Nat) (near : List WalObject) : Prop :=
  (near.dropLast.map WalObject.size).sum < window

theorem Tight.tail (h : Tight window (o :: near)) : Tight window near := by
  cases near with
  | nil => exact Nat.lt_of_le_of_lt (Nat.zero_le _) h
  | cons =>
    simp only [Tight, dropLast_cons_cons, map_cons, sum_cons] at h ⊢
    omega

theorem Tight.eq_nil (h : Tight 1 (o :: near)) (hpos : 0 < o.size) : near = [] := by
  cases near with
  | nil => rfl
  | cons =>
    simp only [Tight, dropLast_cons_cons, map_cons, sum_cons] at h
    omega

/-- A refill moves objects to the queue until the window is full, and leaves the rest of the
cursor as it is. -/
theorem readAheadFrom_prefetched (far : List WalObject) (hwindow : 0 < window)
    (htight : Tight window near)
    (hr : it.readahead = near.map fun o => s.rangeRead o.key 0 (some o.size))
    (hd : it.readaheadDataSize = (near.map WalObject.size).sum) :
    ∃ near' far', near ++ far = near' ++ far' ∧ (near' = [] → far' = []) ∧ Tight window near' ∧
      ∃ it', readAheadFrom s window far it = it' ∧ Prefetched s it' near' far' ∧
        it'.data = it.data ∧ it'.trimOffset = it.trimOffset ∧
        it'.startOffsetToEpoch = it.startOffsetToEpoch := by
  induction far generalizing near it with
  | nil =>
    exact ⟨near, [], rfl, fun _ => rfl, htight, _, rfl, ⟨hr, rfl, hd⟩, rfl, rfl, rfl⟩
  | cons o far ih =>
    rw [readAheadFrom]
    split
    next hlt =>
      have htight' : Tight window (near ++ [o]) := by simpa [Tight, hd] using hlt
      have hstep := @ih
        { it with
          readahead := it.readahead ++ [s.rangeRead o.key 0 (some o.size)]
          readaheadDataSize := it.readaheadDataSize + o.size }
        (near ++ [o]) htight' (by simp [hr]) (by simp [hd])
      simpa using hstep
    next hge =>
      refine ⟨near, o :: far, rfl, ?_, htight, _, rfl, ⟨hr, rfl, hd⟩, rfl, rfl, rfl⟩
      rintro rfl
      exact absurd (by simpa [hd] using hwindow) hge

theorem loadNextBuffer_prefetched (ho : Readable s o body) (hq : Prefetched s it (o :: near) far) :
    ∃ it', it.loadNextBuffer = .ok it' ∧ Prefetched s it' near far ∧ it'.data = body ∧
      it'.trimOffset = it.trimOffset ∧ it'.startOffsetToEpoch = it.startOffsetToEpoch := by
  obtain ⟨payload, header, hread, hlen, hhead, hbody⟩ := ho.read
  refine ⟨{ it with
    readahead := near.map fun o => s.rangeRead o.key 0 (some o.size)
    readaheadDataSize := it.readaheadDataSize - payload.length
    data := payload.drop header.size }, ?_, ⟨rfl, hq.objects, ?_⟩, hbody, rfl, rfl⟩
  · rw [loadNextBuffer, hq.readahead, map_cons, hread]
    dsimp only
    rw [hhead]
    rfl
  · simp [hq.dataSize, hlen]

/-- A body of which only the front is in the buffer ends in the next object. -/
theorem takeBody_of_load {tail : Bytes} (hdata : it.data = front) (htail : tail ≠ [])
    (hqueue : it.readahead ≠ []) (hload : { it with data := [] }.loadNextBuffer = .ok it')
    (hdata' : it'.data = tail ++ rest) :
    it.takeBody (front ++ tail).length = .ok (front ++ tail, { it' with data := rest }) := by
  have hneed : (front ++ tail).length - front.length = tail.length := by simp
  rw [takeBody, hdata, if_neg (by simp; omega), if_neg (by simp [hqueue]), hload]
  dsimp only [bind, Except.bind, pure, Except.pure]
  rw [hneed, hdata', if_neg (by simp), take_left, drop_left]

/-! ## One record -/

/-- The cursor stands before the records of `c`, what is left of the current object; `cs` are the
objects behind it. -/
structure At (s : Storage) (trimOffset : Int) (epochOf : OrdMap Nat Nat) (it : RecoverIterator)
    (c : Chunk) (cs : List Chunk) (near far : List WalObject) : Prop where
  data : it.data = c.bytes
  trimOffset : it.trimOffset = trimOffset
  epochOf : it.startOffsetToEpoch = epochOf
  queue : Prefetched s it near far
  readable : List.Forall₂ (Readable s) (near ++ far) (bodies c.cut cs)
  chunked : Chunked c.cut cs

theorem At.refill (hwindow : 0 < window) (htight : Tight window near)
    (h : At s trimOffset epochOf it c cs near far) :
    ∃ near' far', (near' = [] → far' = []) ∧ Tight window near' ∧
      At s trimOffset epochOf (it.tryReadAhead s window) c cs near' far' := by
  obtain ⟨near', far', hsplit, hne, htight', it', hit, hq, hdata, htrim, hepoch⟩ :=
    readAheadFrom_prefetched far hwindow htight h.queue.readahead h.queue.dataSize
  rw [tryReadAhead, h.queue.objects, hit]
  exact ⟨near', far', hne, htight', hdata.trans h.data, htrim.trans h.trimOffset,
    hepoch.trans h.epochOf, hq, hsplit ▸ h.readable, h.chunked⟩

theorem At.load (h : At s trimOffset epochOf it ⟨[], none⟩ (c :: cs) (o :: near) far) :
    ∃ it', it.loadNextBuffer = .ok it' ∧ At s trimOffset epochOf it' c cs near far ∧
      c.bytes ≠ [] := by
  obtain ⟨ho, hrest⟩ := forall₂_cons.mp h.readable
  obtain ⟨it', hload, hq, hdata, htrim, hepoch⟩ := loadNextBuffer_prefetched ho h.queue
  exact ⟨it', hload, ⟨hdata, htrim.trans h.trimOffset, hepoch.trans h.epochOf, hq, hrest,
    h.chunked.2⟩, ho.ne_nil⟩

theorem At.decode_entry (hd : e.Decodable epochOf)
    (h : At s trimOffset epochOf it ⟨e :: es, cut⟩ cs near far) :
    ∃ it', it.decodeFrame = .ok (e.toRecoverResult epochOf, it') ∧
      At s trimOffset epochOf it' ⟨es, cut⟩ cs near far := by
  obtain ⟨hdata, htrim, rfl, hq, hread, hchunked⟩ := h
  refine ⟨{ it with data := Chunk.bytes ⟨es, cut⟩ },
    decodeFrame_frame hd ?_, rfl, htrim, rfl, ⟨hq.readahead, hq.objects, hq.dataSize⟩, hread,
    hchunked⟩
  rw [hdata, Chunk.bytes, Chunk.bytes, flatMap_cons, append_assoc]

theorem At.decode_cut (hd : e.Decodable epochOf)
    (h : At s trimOffset epochOf it ⟨[], some (e, n)⟩ (c :: cs) (o :: near) far) :
    ∃ it', it.decodeFrame = .ok (e.toRecoverResult epochOf, it') ∧
      At s trimOffset epochOf it' c cs near far := by
  obtain ⟨hdata, htrim, rfl, hq, hread, hcut, hchunked⟩ := h
  obtain ⟨hheader, hlt⟩ : walRecordHeaderSize ≤ n ∧ n < e.frame.length := hcut (e, n) rfl
  obtain ⟨ho, hrest⟩ := forall₂_cons.mp hread
  set header := (WalRecordHeader.data e.offset e.record.encoded.length
    (walCrc32 e.record.encoded)).marshal with hmarshal
  have hlen : header.length = walRecordHeaderSize := by rw [hmarshal]; simp [walRecordHeaderSize]
  have hframe : e.frame = header ++ e.record.encoded := rfl
  set front := e.record.encoded.take (n - walRecordHeaderSize)
  set tail := e.record.encoded.drop (n - walRecordHeaderSize)
  have happend : front ++ tail = e.record.encoded := take_append_drop _ _
  have hdata₁ : it.data = header ++ front := by
    rw [hdata, Chunk.bytes, flatMap_nil, nil_append, cutFront, hframe, take_append,
      take_of_length_le (by omega), hlen]
  have hdata₂ : e.frame.drop n = tail := by
    rw [hframe, drop_append, drop_of_length_le (by omega), nil_append, hlen]
  have htail : tail ≠ [] := by
    rw [← hdata₂, ← length_pos_iff, length_drop]
    omega
  have hq₁ : Prefetched s { it with data := [] } (o :: near) far :=
    ⟨hq.readahead, hq.objects, hq.dataSize⟩
  obtain ⟨it', hload, hq', hdata', htrim', hepoch'⟩ := loadNextBuffer_prefetched ho hq₁
  rw [cutRest, hdata₂] at hdata'
  have hqueue : { it with data := front }.readahead ≠ [] := by simp [hq.readahead]
  have htaken := takeBody_of_load rfl htail hqueue hload hdata'
  rw [happend] at htaken
  exact ⟨_, decodeFrame_of_takeBody hd hdata₁ htaken hepoch', rfl, htrim'.trans htrim, hepoch',
    ⟨hq'.readahead, hq'.objects, hq'.dataSize⟩, hrest, hchunked⟩

/-- The objects in front of `cs'` all begin a record. -/
def Passes (cs cs' : List Chunk) : Prop :=
  ∃ pre, cs = pre ++ cs' ∧ ∀ c ∈ pre, c.records ≠ []

theorem At.bytes_eq_nil (h : At s trimOffset epochOf it c cs near far) (hbytes : c.bytes = []) :
    c = ⟨[], none⟩ := by
  obtain ⟨entries, cut⟩ := c
  obtain ⟨hentries, hcut⟩ := append_eq_nil_iff.mp hbytes
  have hnil : entries = [] := by
    have hle := WalEntry.length_le_flatMap_frame entries
    rw [hentries] at hle
    exact eq_nil_of_length_eq_zero (Nat.le_zero.mp hle)
  obtain rfl | ⟨x, rfl⟩ := Option.eq_none_or_eq_some cut
  · rw [hnil]
  · -- A cut record has its header here.
    cases cs with
    | nil => exact absurd h.chunked (by simp [Chunked])
    | cons =>
      have hx := h.chunked.1 x rfl
      have hlen := congrArg length hcut
      simp only [cutFront, length_take, length_nil, walRecordHeaderSize] at hlen hx
      omega

theorem At.eq_nil_iff (h : At s trimOffset epochOf it c cs near far) :
    near ++ far = [] ↔ cs = [] := by
  have hlen := h.readable.length_eq
  cases cs with
  | nil => simpa [bodies] using hlen
  | cons => simp [← length_eq_zero_iff, -length_append, hlen, bodies]

/-- The first half of `next0`: the buffer holds a record, and the queue is empty only if no object
is left. -/
theorem At.prepare (hwindow : 0 < window) (htight : Tight window near)
    (h : At s trimOffset epochOf it c cs near far) (hfed : c.bytes = [] → near = [] → far = [])
    (hrecords : (c :: cs).flatMap Chunk.records ≠ []) :
    ∃ it₀ c' cs' near' far', (if it.data.isEmpty then it.loadNextBuffer else .ok it) = .ok it₀ ∧
      At s trimOffset epochOf (it₀.tryReadAhead s window) c' cs' near' far' ∧
      (near' = [] → far' = []) ∧ Tight window near' ∧ c'.bytes ≠ [] ∧
      (c' :: cs').flatMap Chunk.records = (c :: cs).flatMap Chunk.records ∧ Passes cs cs' := by
  by_cases hbytes : c.bytes = []
  · obtain rfl := h.bytes_eq_nil hbytes
    cases cs with
    | nil => exact absurd rfl hrecords
    | cons c cs =>
      cases near with
      | nil =>
        have hne : [] ++ far ≠ [] := fun hnil => by simpa using h.eq_nil_iff.mp hnil
        exact absurd (hfed rfl rfl) hne
      | cons =>
        obtain ⟨it₀, hload, hat, hne⟩ := h.load
        obtain ⟨near', far', hfull, htight', hat'⟩ := hat.refill hwindow htight.tail
        refine ⟨it₀, c, cs, near', far', ?_, hat', hfull, htight', hne, rfl, [c], rfl, ?_⟩
        · rw [h.data]
          exact hload
        · simp only [mem_singleton, forall_eq]
          intro hnil
          rw [Chunk.eq_of_records_eq_nil hnil] at hne
          exact hne rfl
  · obtain ⟨near', far', hfull, htight', hat'⟩ := h.refill hwindow htight
    refine ⟨it, c, cs, near', far', ?_, hat', hfull, htight', hbytes, rfl, [], rfl, by simp⟩
    rw [h.data, if_neg (by simpa using hbytes)]

theorem next0_of_load (hload : (if it.data.isEmpty then it.loadNextBuffer else .ok it) = .ok it₀) :
    it.next0 s window = (it₀.tryReadAhead s window).decodeFrame := by
  rw [next0]
  split at hload
  next hempty => rw [if_pos hempty, hload]; rfl
  next hempty => rw [if_neg hempty, ← Except.ok.inj hload]; rfl

/-- One record is decoded. Either it ends in the buffer and the queue is still full, or it takes
the whole of the next object `c'` into the buffer. -/
theorem At.next0 (hwindow : 0 < window) (htight : Tight window near)
    (h : At s trimOffset epochOf it c cs near far) (hfed : c.bytes = [] → near = [] → far = [])
    (hrecords : (c :: cs).flatMap Chunk.records = e :: rest) (hd : e.Decodable epochOf) :
    ∃ it' c' cs' near' far', it.next0 s window = .ok (e.toRecoverResult epochOf, it') ∧
      At s trimOffset epochOf it' c' cs' near' far' ∧ Tight window near' ∧
      (c' :: cs').flatMap Chunk.records = rest ∧
      ((near' = [] → far' = []) ∧ Passes cs cs' ∨
        (∃ o, 0 < o.size ∧ Tight window (o :: near')) ∧ Passes cs (c' :: cs')) := by
  obtain ⟨it₀, c', cs', near', far', hload, hat, hfull, htight', hne, hsame, hpass⟩ :=
    h.prepare hwindow htight hfed (by simp [hrecords])
  rw [hrecords] at hsame
  rw [next0_of_load hload]
  obtain ⟨entries, cut⟩ := c'
  cases entries with
  | cons e' es =>
    obtain ⟨rfl, hrest⟩ := cons.inj hsame
    obtain ⟨it', hdecode, hat'⟩ := hat.decode_entry hd
    exact ⟨it', ⟨es, cut⟩, cs', near', far', hdecode, hat', htight', hrest, .inl ⟨hfull, hpass⟩⟩
  | nil =>
    obtain rfl | ⟨⟨e', n⟩, rfl⟩ := Option.eq_none_or_eq_some cut
    · exact absurd rfl hne
    · obtain ⟨rfl, hrest⟩ := cons.inj hsame
      cases cs' with
      | nil => exact absurd hat.chunked (by simp [Chunked])
      | cons c'' cs'' =>
        cases near' with
        | nil =>
          have hnil := hat.eq_nil_iff.mp (by simp [hfull rfl])
          exact absurd hnil (by simp)
        | cons o near' =>
          obtain ⟨it', hdecode, hat'⟩ := hat.decode_cut hd
          have ho := (forall₂_cons.mp hat.readable).1.size_pos
          exact ⟨it', c'', cs'', near', far', hdecode, hat', htight'.tail, hrest,
            .inr ⟨⟨o, ho, htight'⟩, hpass⟩⟩

/-! ## The whole stream -/

/-- Every object but the last begins a record. -/
def Smooth (cs : List Chunk) : Prop := ∀ c ∈ cs.dropLast, c.records ≠ []

theorem smooth_cons : Smooth (c :: cs) ↔ (cs ≠ [] → c.records ≠ []) ∧ Smooth cs := by
  cases cs <;> simp [Smooth]

theorem Passes.smooth_iff (h : Passes cs cs') : Smooth cs ↔ Smooth cs' := by
  obtain ⟨pre, rfl, hpre⟩ := h
  induction pre with
  | nil => rfl
  | cons c pre ih =>
    have hrest := ih fun c' hc' => hpre c' (mem_cons_of_mem c hc')
    rw [cons_append, smooth_cons, hrest]
    exact and_iff_right fun _ => hpre c mem_cons_self

theorem At.hasNext0 (h : At s trimOffset epochOf it c cs near far)
    (hrecords : (c :: cs).flatMap Chunk.records ≠ []) : it.hasNext0 = true := by
  by_cases hbytes : c.bytes = []
  · obtain rfl := h.bytes_eq_nil hbytes
    have hcs : cs ≠ [] := by rintro rfl; exact hrecords rfl
    have hne := mt h.eq_nil_iff.mp hcs
    rw [RecoverIterator.hasNext0, h.queue.readahead, h.queue.objects]
    cases near with
    | nil => simp at hne; simp [hne]
    | cons => simp
  · simp [RecoverIterator.hasNext0, h.data, hbytes]

theorem At.eq_nil_of_records (h : At s trimOffset epochOf it c cs near far)
    (hrecords : (c :: cs).flatMap Chunk.records = []) : c = ⟨[], none⟩ ∧ cs = [] := by
  obtain ⟨hc, hcs⟩ := append_eq_nil_iff.mp hrecords
  obtain rfl := Chunk.eq_of_records_eq_nil hc
  refine ⟨rfl, ?_⟩
  cases cs with
  | nil => rfl
  | cons =>
    obtain rfl := Chunk.eq_of_records_eq_nil (append_eq_nil_iff.mp hcs).1
    obtain ⟨o, os, ho, -⟩ := forall₂_cons_right_iff.mp h.readable
    exact absurd rfl ho.ne_nil

theorem At.hasNext0_eq_false (h : At s trimOffset epochOf it c cs near far)
    (hrecords : (c :: cs).flatMap Chunk.records = []) : it.hasNext0 = false := by
  obtain ⟨rfl, rfl⟩ := h.eq_nil_of_records hrecords
  have hdata : it.data = [] := h.data
  obtain ⟨rfl, rfl⟩ := append_eq_nil_iff.mp (h.eq_nil_iff.mpr rfl)
  simp [RecoverIterator.hasNext0, hdata, h.queue.readahead, h.queue.objects]

/-- If every object but the last begins a record, all records are decoded. -/
theorem At.items (hwindow : 0 < window) (htight : Tight window near)
    (h : At s trimOffset epochOf it c cs near far) (hfed : c.bytes = [] → near = [] → far = [])
    (hsmooth : Smooth cs) (hd : ∀ e ∈ (c :: cs).flatMap Chunk.records, e.Decodable epochOf)
    (hfuel : ((c :: cs).flatMap Chunk.records).length < fuel) :
    it.items s window fuel =
      (((c :: cs).flatMap Chunk.records).filter (·.Survives trimOffset)).map
        (.ok <| ·.toRecoverResult epochOf) := by
  induction fuel generalizing it c cs near far with
  | zero => omega
  | succ fuel ih =>
    cases hrecords : (c :: cs).flatMap Chunk.records with
    | nil =>
      simp [items, h.hasNext0_eq_false hrecords]
    | cons e =>
      rw [hrecords] at hd hfuel
      obtain ⟨it', c', cs', near', far', hnext, hat, htight', rfl, hcase⟩ :=
        h.next0 hwindow htight hfed hrecords (hd e mem_cons_self)
      have hnext0 := h.hasNext0 (by simp [hrecords])
      obtain ⟨hfed', hsmooth'⟩ : (c'.bytes = [] → near' = [] → far' = []) ∧ Smooth cs' := by
        rcases hcase with ⟨hfull, hpass⟩ | ⟨-, hpass⟩
        · exact ⟨fun _ => hfull, hpass.smooth_iff.mp hsmooth⟩
        · obtain ⟨hhead, hrest⟩ := smooth_cons.mp (hpass.smooth_iff.mp hsmooth)
          refine ⟨fun hbytes _ => ?_, hrest⟩
          by_contra hfar
          have hcs' : cs' ≠ [] := fun hnil => by
            simp [append_eq_nil_iff.mp (hat.eq_nil_iff.mpr hnil)] at hfar
          exact hhead hcs' (by rw [hat.bytes_eq_nil hbytes]; rfl)
      rw [items_cons hnext0 hnext hat.trimOffset (hd e mem_cons_self),
        ih htight' hat hfed' hsmooth' (fun e he => hd e (mem_cons_of_mem _ he))
          (by simpa using hfuel), ← map_append, ← filter_append, singleton_append]

/-- In front of an empty buffer and an empty queue the cursor stops, whatever objects are left. -/
theorem At.items_stuck (h : At s trimOffset epochOf it ⟨[], none⟩ cs [] far) (hcs : cs ≠ []) :
    it.items s window (fuel + 1) = [.error (.recovery "no prefetched buffer")] := by
  have hfar : far ≠ [] := mt h.eq_nil_iff.mp hcs
  have hdata : it.data = [] := h.data
  have hreadahead : it.readahead = [] := h.queue.readahead
  have hnext : it.next0 s window = .error (.recovery "no prefetched buffer") := by
    rw [RecoverIterator.next0, hdata, isEmpty_nil, if_pos rfl, loadNextBuffer, hreadahead]
    rfl
  rw [RecoverIterator.items, hnext]
  simp [RecoverIterator.hasNext0, h.queue.objects, hfar]

/-- With a window of one byte, an object that only ends a record leaves the queue empty, and the
next record is not decoded. -/
theorem At.error_mem_items (htight : Tight 1 near) (h : At s trimOffset epochOf it c cs near far)
    (hfed : c.bytes = [] → near = [] → far = []) (hsmooth : ¬ Smooth cs)
    (hd : ∀ e ∈ (c :: cs).flatMap Chunk.records, e.Decodable epochOf)
    (hfuel : ((c :: cs).flatMap Chunk.records).length < fuel) :
    .error (.recovery "no prefetched buffer") ∈ it.items s 1 fuel := by
  induction fuel generalizing it c cs near far with
  | zero => omega
  | succ fuel ih =>
    cases hrecords : (c :: cs).flatMap Chunk.records with
    | nil => exact absurd (by simp [(h.eq_nil_of_records hrecords).2, Smooth]) hsmooth
    | cons e =>
      rw [hrecords] at hd hfuel
      obtain ⟨it', c', cs', near', far', hnext, hat, htight', rfl, hcase⟩ :=
        h.next0 Nat.one_pos htight hfed hrecords (hd e mem_cons_self)
      have hgo : (c'.bytes = [] → near' = [] → far' = []) → ¬ Smooth cs' →
          .error (.recovery "no prefetched buffer") ∈ it'.items s 1 fuel := fun hfed' hsmooth' =>
        ih htight' hat hfed' hsmooth' (fun e he => hd e (mem_cons_of_mem _ he))
          (by simpa using hfuel)
      rw [items_cons (h.hasNext0 (by simp [hrecords])) hnext hat.trimOffset
        (hd e mem_cons_self)]
      refine mem_append_right _ ?_
      rcases hcase with ⟨hfull, hpass⟩ | ⟨⟨o, ho, hone⟩, hpass⟩
      · exact hgo (fun _ => hfull) (mt hpass.smooth_iff.mpr hsmooth)
      · rw [hpass.smooth_iff, smooth_cons] at hsmooth
        by_cases hstuck : cs' ≠ [] ∧ c'.records = []
        · -- The window had room for `c'` only.
          obtain ⟨hcs', hc'⟩ := hstuck
          obtain rfl := Chunk.eq_of_records_eq_nil hc'
          obtain rfl := hone.eq_nil ho
          obtain ⟨fuel, rfl⟩ := Nat.exists_eq_add_one_of_ne_zero
            (Nat.pos_iff_ne_zero.mp (Nat.zero_lt_of_lt (Nat.succ_lt_succ_iff.mp hfuel)))
          rw [hat.items_stuck hcs']
          exact mem_singleton_self _
        · refine hgo (fun hbytes _ => ?_) fun hsmooth' => hsmooth ⟨?_, hsmooth'⟩
          · by_contra hfar
            refine hstuck ⟨fun hnil => ?_, by rw [hat.bytes_eq_nil hbytes]; rfl⟩
            simp [append_eq_nil_iff.mp (hat.eq_nil_iff.mpr hnil)] at hfar
          · exact fun hcs' hc' => hstuck ⟨hcs', hc'⟩

end RecoverIterator

open RecoverIterator

/-! ## A recovery and its window -/

variable {objects : List WalObject} {cs : List Chunk}

/-- The fuel of a recovery bounds the records it decodes. -/
theorem length_records_le (hread : List.Forall₂ (Readable s) os (bodies cut cs))
    (hchunked : Chunked cut cs) :
    (cs.flatMap Chunk.records).length ≤ (os.map WalObject.size).sum := by
  have hle : (bodies cut cs).flatten.length ≤ (os.map WalObject.size).sum := by
    generalize bodies cut cs = bs at hread
    induction hread with
    | nil => exact le_refl _
    | cons ho =>
      have := ho.length_le
      simp only [flatten_cons, length_append, map_cons, sum_cons]
      omega
  have hframes := WalEntry.length_le_flatMap_frame (cs.flatMap Chunk.records)
  rw [flatten_bodies cut hchunked, length_append] at hle
  omega

theorem sum_size_continuous_le (objects : List WalObject) (trimOffset : Int) :
    ((getContinuousFromTrimOffset objects trimOffset).map WalObject.size).sum ≤
      (objects.map WalObject.size).sum :=
  (((Windows.contiguousRun_isPrefix _).sublist.trans (dropWhile_sublist _)).map _).sum_le_sum
    fun _ _ => Nat.zero_le _

theorem recoverStream_eq_items (hwindow : 0 < window)
    (htrim : getTrimOffset s objects = .ok trimOffset)
    (hread : List.Forall₂ (Readable s) (getContinuousFromTrimOffset objects trimOffset)
      (bodies none cs)) (hchunked : Chunked none cs) :
    ∃ it near far, recoverStream s window objects =
        it.items s window ((objects.map WalObject.size).sum + 1) ∧
      At s trimOffset (startOffsetToEpoch objects) it ⟨[], none⟩ cs near far ∧
      (near = [] → far = []) ∧ Tight window near := by
  have hat : At s trimOffset (startOffsetToEpoch objects)
      { trimOffset, objects := getContinuousFromTrimOffset objects trimOffset, readahead := [],
        readaheadDataSize := 0, data := [], startOffsetToEpoch := startOffsetToEpoch objects }
      ⟨[], none⟩ cs [] (getContinuousFromTrimOffset objects trimOffset) :=
    ⟨rfl, rfl, rfl, ⟨rfl, rfl, rfl⟩, hread, hchunked⟩
  obtain ⟨near, far, hfull, htight, hat'⟩ := hat.refill hwindow (show Tight window [] from hwindow)
  refine ⟨_, near, far, ?_, hat', hfull, htight⟩
  rw [recoverStream, new, htrim]
  rfl

/-- The stream is the same for every readahead window, and the one of a single buffer with all
record data, exactly if every object of the run but the last begins a record. -/
theorem recoverStream_window_iff (htrim : getTrimOffset s objects = .ok trimOffset)
    (hread : List.Forall₂ (Readable s) (getContinuousFromTrimOffset objects trimOffset)
      (bodies none cs)) (hchunked : Chunked none cs)
    (hd : ∀ e ∈ cs.flatMap Chunk.records, e.Decodable (startOffsetToEpoch objects)) :
    (∀ window, 0 < window → recoverStream s window objects =
        decodeSequentially trimOffset (startOffsetToEpoch objects) (bodies none cs).flatten) ↔
      ∀ c ∈ cs.dropLast, c.records ≠ [] := by
  have hfuel : (cs.flatMap Chunk.records).length < (objects.map WalObject.size).sum + 1 :=
    Nat.lt_succ_of_le ((length_records_le hread hchunked).trans (sum_size_continuous_le _ _))
  have hseq : decodeSequentially trimOffset (startOffsetToEpoch objects) (bodies none cs).flatten =
      ((cs.flatMap Chunk.records).filter (·.Survives trimOffset)).map
        (.ok <| ·.toRecoverResult (startOffsetToEpoch objects)) := by
    rw [flatten_bodies none hchunked]
    exact decodeSequentially_frames hd
  constructor
  · intro hall
    by_contra hsmooth
    obtain ⟨it, near, far, hstream, hat, hfull, htight⟩ :=
      recoverStream_eq_items Nat.one_pos htrim hread hchunked
    have hmem := hat.error_mem_items htight (fun _ => hfull) hsmooth hd hfuel
    rw [← hstream, hall 1 Nat.one_pos, hseq] at hmem
    simp at hmem
  · intro hsmooth window hwindow
    obtain ⟨it, near, far, hstream, hat, hfull, htight⟩ :=
      recoverStream_eq_items hwindow htrim hread hchunked
    rw [hstream, hseq]
    exact hat.items hwindow htight (fun _ => hfull) hsmooth hd hfuel

/-! Two records of stream 1 in v0 objects; the first one is cut behind the first 30 bytes. -/

def firstEntry : WalEntry := ⟨0, 1, 1, 0, 1, []⟩

def secondEntry : WalEntry := ⟨firstEntry.stop, 1, 1, 1, 1, []⟩

/-- Consecutive v0 objects with this record data, from WAL offset `start` on. -/
def objectsV0 : Nat → List Bytes → List WalObject
  | _, [] => []
  | start, body :: rest =>
    ⟨"n/1/wal/".toList ++ decimal start, 1, start, start + body.length, 40 + body.length⟩ ::
      objectsV0 (start + body.length) rest

def storageV0 : Nat → List Bytes → Storage
  | _, [] => []
  | start, body :: rest =>
    ("n/1/wal/".toList ++ decimal start,
      (WalObjectHeader.marshal ⟨walHeaderMagicV0, start, body.length, 0, 7, 1, trimOffsetNone⟩ ++
        body)) :: storageV0 (start + body.length) rest

/-- The second object holds only the end of the first record. -/
def lonelyTail : List Chunk :=
  [⟨[], some (firstEntry, 30)⟩, ⟨[], none⟩, ⟨[secondEntry], none⟩]

/-- The second record follows the end of the first one. -/
def sharedTail : List Chunk := [⟨[], some (firstEntry, 30)⟩, ⟨[secondEntry], none⟩]

/-- With a window of one byte the record behind a lonely tail is not recovered, with a window of
200 bytes it is. -/
theorem lonely_tail_stops_recovery :
    recoverStream (storageV0 0 (bodies none lonelyTail)) 1 (objectsV0 0 (bodies none lonelyTail)) =
      [.ok ⟨firstEntry.record, 1, 0, 57⟩, .error (.recovery "no prefetched buffer")] ∧
    recoverStream (storageV0 0 (bodies none lonelyTail)) 200
        (objectsV0 0 (bodies none lonelyTail)) =
      [.ok ⟨firstEntry.record, 1, 0, 57⟩, .ok ⟨secondEntry.record, 1, 57, 57⟩] := by
  decide +kernel

theorem recoverStream_shared_tail :
    getTrimOffset (storageV0 0 (bodies none sharedTail)) (objectsV0 0 (bodies none sharedTail)) =
      .ok trimOffsetNone ∧
    ∀ window, 0 < window → recoverStream (storageV0 0 (bodies none sharedTail)) window
        (objectsV0 0 (bodies none sharedTail)) =
      decodeSequentially trimOffsetNone (startOffsetToEpoch (objectsV0 0 (bodies none sharedTail)))
        (bodies none sharedTail).flatten := by
  refine ⟨by decide +kernel,
    (recoverStream_window_iff (by decide +kernel) ?_ ?_ ?_).mpr (by decide)⟩
  · decide +kernel
  · refine ⟨nofun, fun x hx => ?_, rfl⟩
    cases hx
    decide +kernel
  · have hcovered : (0, 1) ∈
        (startOffsetToEpoch (objectsV0 0 (bodies none sharedTail))).entries := by decide +kernel
    have hrecords : sharedTail.flatMap Chunk.records = [firstEntry, secondEntry] := rfl
    rw [hrecords, forall_mem_cons, forall_mem_singleton]
    exact ⟨⟨by decide, by decide, _, hcovered, Nat.zero_le _⟩,
      ⟨by decide, by decide, _, hcovered, Nat.zero_le _⟩⟩

end S3Stream
