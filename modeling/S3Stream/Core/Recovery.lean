import S3Stream.Core.Append

/-! # Filtering recovered records

The loop over the records a WAL recovery yields (`s3stream-core/src/storage/recovery.rs`): of each
opening stream the continuous tail above its committed end offset is kept and handed over in
blocks. A record that a block refuses is carried into the next block. -/

namespace S3Stream

open List

namespace LogCacheBlock

def setLastRecordOffset (b : LogCacheBlock) (offset : RecordOffset) : LogCacheBlock :=
  { b with lastRecordOffset := some offset }

/-- Put a decoded record in the place of the first one with this base offset. -/
def replaceRecord (b : LogCacheBlock) (streamId baseOffset : Nat) (decoded : StreamRecordBatch) :
    LogCacheBlock :=
  match b.map.get? streamId with
  | none => b
  | some cache =>
    { b with
      map := b.map.insert streamId
        { cache with
          records := cache.records.set (cache.records.findIdx (·.baseOffset = baseOffset))
            decoded } }

def recordsOf (b : LogCacheBlock) (streamId : Nat) : List StreamRecordBatch :=
  (b.records.get? streamId).getD []

end LogCacheBlock

abbrev LinkRecordDecoder := StreamRecordBatch → Except StreamError StreamRecordBatch

/-- Replace the link records of a block by what they link to. -/
def decodeLinkRecords (block : LogCacheBlock) (decoder : Option LinkRecordDecoder) :
    Except StreamError LogCacheBlock :=
  (block.records.entries.flatMap Prod.snd).foldlM (fun block record =>
    if 0 ≤ record.count then .ok block
    else match decoder with
      | none => .error (.unexpected
          "recovered a link record but no link record decoder is configured")
      | some decode => do
        let decoded ← decode record
        return block.replaceRecord record.streamId record.baseOffset decoded) block

/-- Add a record to the block or drop it; a record that the block refuses is returned. -/
def processRecord (result : RecoverResult) (endOffsets : OrdMap Nat Nat) (block : LogCacheBlock) :
    OrdMap Nat Nat × LogCacheBlock × Option RecoverResult :=
  match endOffsets.get? result.record.streamId with
  | none => (endOffsets, block, none)
  | some expected =>
    if result.record.baseOffset < expected then (endOffsets, block, none)
    else if expected < result.record.baseOffset then (endOffsets, block, none)
    else
      match block.put result.record with
      | (block, false) => (endOffsets, block, some result)
      | (block, true) =>
        (endOffsets.insert result.record.streamId result.record.lastOffsetU64, block, none)

/-- The loop variables of `recover`. -/
structure Recovery where
  it : List (Except WalError RecoverResult)
  pending : Option RecoverResult
  next : Option RecoverResult
  eof : Bool
  openingStreamEndOffsets : OrdMap Nat Nat
  cacheBlock : LogCacheBlock
  blockLastOffset : Option RecordOffset

namespace Recovery

/-- The body of the inner loop behind the read of a result. -/
def process (s : Recovery) (result : RecoverResult) : Recovery :=
  match processRecord result s.openingStreamEndOffsets s.cacheBlock with
  | (endOffsets, block, none) =>
    { s with
      openingStreamEndOffsets := endOffsets
      cacheBlock := block
      blockLastOffset := some result.recordOffset }
  | (endOffsets, block, some notAdded) =>
    { s with
      openingStreamEndOffsets := endOffsets
      cacheBlock := block
      pending := some notAdded }

/-- The inner loop without a lookahead: fill the block from the stream. -/
def fillFrom : List (Except WalError RecoverResult) → Recovery → Except StreamError Recovery
  | it, s =>
    if s.cacheBlock.isFull then .ok { s with it }
    else match it with
      | [] => .ok { s with it := [], eof := true }
      | .error e :: _ => .error (.wal e)
      | .ok result :: it =>
        let s := s.process result
        if s.pending.isSome then .ok { s with it } else fillFrom it s

/-- The inner loop; only its first pass can find a lookahead record. -/
def fill (s : Recovery) : Except StreamError Recovery :=
  match s.next with
  | none => if s.eof then .ok s else fillFrom s.it s
  | some result =>
    if s.cacheBlock.isFull then .ok s
    else
      let s := { s with next := none }.process result
      if s.pending.isSome then .ok s
      else if s.eof then .ok s
      else fillFrom s.it s

/-- Look one record ahead if there is none in hand; `none` at the end of the stream. -/
def lookAhead (s : Recovery) : Except StreamError (Option Recovery) :=
  if s.pending.isSome || s.next.isSome then .ok (some s)
  else if s.eof then .ok none
  else match s.it with
    | [] => .ok none
    | .error e :: _ => .error (.wal e)
    | .ok result :: it => .ok (some { s with it, next := some result })

/-- Start a block, with the carried record in it. -/
def startBlock (s : Recovery) (maxCacheSize blockId : Nat) : Recovery :=
  let block := LogCacheBlock.new blockId maxCacheSize defaultMaxBlockStreamCount
  match s.pending with
  | none => { s with cacheBlock := block, blockLastOffset := none }
  | some carried =>
    { s with
      pending := none
      openingStreamEndOffsets :=
        s.openingStreamEndOffsets.insert carried.record.streamId carried.record.lastOffsetU64
      blockLastOffset := some carried.recordOffset
      cacheBlock := (block.put carried.record).1 }

/-- The block as it is handed over. -/
def sealedBlock (s : Recovery) : LogCacheBlock :=
  match s.blockLastOffset with
  | none => s.cacheBlock
  | some offset => s.cacheBlock.setLastRecordOffset offset

/-- The outer loop; `none` if it does not end within `fuel` blocks. `blockHandler` works on the
state of the caller. -/
def loop {β : Type} (maxCacheSize : Nat) (decoder : Option LinkRecordDecoder)
    (blockHandler : β → LogCacheBlock → Except StreamError β) :
    Nat → Recovery → Nat → β → Option (Except StreamError (OrdMap Nat Nat × β))
  | 0, _, _, _ => none
  | fuel + 1, s, blockId, b =>
    match s.lookAhead with
    | .error e => some (.error e)
    | .ok none => some (.ok (s.openingStreamEndOffsets, b))
    | .ok (some s) =>
      let handOver : Except StreamError (Recovery × β) := do
        let s ← (s.startBlock maxCacheSize blockId).fill
        let block ← decodeLinkRecords s.sealedBlock decoder
        let b ← blockHandler b block
        return (s, b)
      match handOver with
      | .error e => some (.error e)
      | .ok (s, b) => loop maxCacheSize decoder blockHandler fuel s (blockId + 1) b

end Recovery

def recover {β : Type} (fuel : Nat) (it : List (Except WalError RecoverResult))
    (openingStreamEndOffsets : OrdMap Nat Nat) (maxCacheSize : Nat)
    (decoder : Option LinkRecordDecoder)
    (blockHandler : β → LogCacheBlock → Except StreamError β) (blockId : Nat) (b : β) :
    Option (Except StreamError (OrdMap Nat Nat × β)) :=
  Recovery.loop maxCacheSize decoder blockHandler fuel
    { it, pending := none, next := none, eof := false, openingStreamEndOffsets,
      cacheBlock := .new blockId maxCacheSize defaultMaxBlockStreamCount, blockLastOffset := none }
    blockId b

/-! ## The filter in one pass -/

/-- Scan the records once: a record of an opening stream is kept if it starts at the offset the
stream is expected to go on with. -/
def scanOnce : OrdMap Nat Nat → List StreamRecordBatch → List StreamRecordBatch × OrdMap Nat Nat
  | expected, [] => ([], expected)
  | expected, r :: rs =>
    if expected.get? r.streamId = some r.baseOffset then
      let rest := scanOnce (expected.insert r.streamId r.lastOffsetU64) rs
      (r :: rest.1, rest.2)
    else scanOnce expected rs

theorem scanOnce_cons_of_pos (h : expected.get? r.streamId = some r.baseOffset)
    (rs : List StreamRecordBatch) :
    scanOnce expected (r :: rs) =
      (r :: (scanOnce (expected.insert r.streamId r.lastOffsetU64) rs).1,
        (scanOnce (expected.insert r.streamId r.lastOffsetU64) rs).2) := by
  rw [scanOnce, if_pos h]

theorem scanOnce_cons_of_neg (h : expected.get? r.streamId ≠ some r.baseOffset)
    (rs : List StreamRecordBatch) : scanOnce expected (r :: rs) = scanOnce expected rs := by
  rw [scanOnce, if_neg h]

theorem scanOnce_sublist (expected : OrdMap Nat Nat) (rs : List StreamRecordBatch) :
    (scanOnce expected rs).1.Sublist rs := by
  induction rs generalizing expected with
  | nil => exact .slnil
  | cons r rs ih =>
    rw [scanOnce]
    split
    · exact (ih _).cons_cons r
    · exact (ih _).cons r

/-! ## One block -/

/-- The count of a batch that is not a link record. -/
def StreamRecordBatch.IsPlain (r : StreamRecordBatch) : Prop := 0 ≤ r.count ∧ r.count ≤ i32Max

theorem StreamRecordBatch.IsPlain.spanFits {r : StreamRecordBatch} (h : r.IsPlain) :
    r.SpanFits := by
  obtain ⟨hpos, hle⟩ := h
  unfold SpanFits lastOffset
  split <;> omega

namespace LogCacheBlock

variable {b : LogCacheBlock} {r : StreamRecordBatch}

@[simp] theorem recordsOf_new (blockId maxSize maxStreamCount streamId : Nat) :
    (new blockId maxSize maxStreamCount).recordsOf streamId = [] := rfl

theorem recordsOf_insert (k : Nat) (overflow : Bool) (size id : Nat) :
    ({ b with map := b.map.insert k c, overflow, size } : LogCacheBlock).recordsOf id =
      if id = k then c.records else b.recordsOf id := by
  split
  next h => simp [recordsOf, records, h]
  next h => simp [recordsOf, records, OrdMap.get?_insert_of_ne h]

theorem getD_records (b : LogCacheBlock) (id : Nat) :
    ((b.map.get? id).getD StreamCache.new).records = b.recordsOf id := by
  rw [recordsOf, records, OrdMap.get?_mapValues]
  cases b.map.get? id <;> rfl

/-- An accepted record is behind the records of its stream, a refused one nowhere. -/
theorem recordsOf_put (id : Nat) :
    (b.put r).1.recordsOf id =
      b.recordsOf id ++ if (b.put r).2 then [r].filter (·.streamId = id) else [] := by
  generalize hp : b.put r = p
  cases put_effect hp with
  | full => simp
  | overflow _ hc =>
    rw [recordsOf_insert]
    split
    next h => simp [hc, h, getD_records]
    next => simp
  | added _ hc hadd =>
    rw [recordsOf_insert]
    split
    next h => simp [StreamCache.records_of_add hadd, hc, h, getD_records]
    next h => simp [Ne.symm h]

end LogCacheBlock

theorem decodeLinkRecords_plain (decoder : Option LinkRecordDecoder)
    (h : ∀ id, ∀ r ∈ b.recordsOf id, 0 ≤ r.count) : decodeLinkRecords b decoder = .ok b := by
  have hall : ∀ r ∈ b.records.entries.flatMap Prod.snd, 0 ≤ r.count := by
    intro r hr
    obtain ⟨⟨id, rs⟩, hmem, hrs⟩ := mem_flatMap.mp hr
    refine h id r ?_
    rwa [LogCacheBlock.recordsOf, OrdMap.get?_of_mem hmem]
  unfold decodeLinkRecords
  generalize b.records.entries.flatMap Prod.snd = rs at hall
  induction rs with
  | nil => rfl
  | cons r rs ih =>
    obtain ⟨hr, hrs⟩ := forall_mem_cons.mp hall
    rw [foldlM_cons, if_pos hr]
    exact ih hrs

/-- What becomes of a record: it is not the next one of an opening stream, it is added, or the
block refuses it. -/
inductive ProcessEffect (x : RecoverResult) (m : OrdMap Nat Nat) (b : LogCacheBlock) :
    OrdMap Nat Nat × LogCacheBlock × Option RecoverResult → Prop
  | dropped (hne : m.get? x.record.streamId ≠ some x.record.baseOffset) :
      ProcessEffect x m b (m, b, none)
  | added (heq : m.get? x.record.streamId = some x.record.baseOffset)
      (hput : (b.put x.record).2 = true) :
      ProcessEffect x m b
        (m.insert x.record.streamId x.record.lastOffsetU64, (b.put x.record).1, none)
  | refused (heq : m.get? x.record.streamId = some x.record.baseOffset)
      (hput : (b.put x.record).2 = false) :
      ProcessEffect x m b (m, (b.put x.record).1, some x)

theorem processRecord_effect (x : RecoverResult) (m : OrdMap Nat Nat) (b : LogCacheBlock) :
    ProcessEffect x m b (processRecord x m b) := by
  unfold processRecord
  split
  next hnone => exact .dropped (by simp [hnone])
  next hsome =>
    split_ifs with hbelow habove
    · exact .dropped (by simp [hsome]; omega)
    · exact .dropped (by simp [hsome]; omega)
    · have heq : m.get? x.record.streamId = some x.record.baseOffset := by
        rw [hsome, le_antisymm (not_lt.mp hbelow) (not_lt.mp habove)]
      split
      next hput =>
        have h := ProcessEffect.refused heq (by rw [hput])
        rwa [hput] at h
      next hput =>
        have h := ProcessEffect.added heq (by rw [hput])
        rwa [hput] at h

namespace Recovery

variable {s s' : Recovery} {x : RecoverResult} {rest rest' : List RecoverResult}
  {added : List StreamRecordBatch}

/-- The records that are carried or still to be read. -/
def todo (s : Recovery) (rest : List RecoverResult) : List StreamRecordBatch :=
  (s.pending.toList ++ rest).map RecoverResult.record

/-- The block has got the records `added`, the first ones that the scan keeps, and the scan of what
is left goes on from here. -/
structure Advances (s s' : Recovery) (todo todo' added : List StreamRecordBatch) : Prop where
  block : ∀ id, s'.cacheBlock.recordsOf id =
    s.cacheBlock.recordsOf id ++ added.filter (·.streamId = id)
  kept : (scanOnce s.openingStreamEndOffsets todo).1 =
    added ++ (scanOnce s'.openingStreamEndOffsets todo').1
  endOffsets : (scanOnce s.openingStreamEndOffsets todo).2 =
    (scanOnce s'.openingStreamEndOffsets todo').2

/-- A carried record is the next one of its stream. -/
def CarriesNext (s : Recovery) : Prop :=
  ∀ x ∈ s.pending, s.openingStreamEndOffsets.get? x.record.streamId = some x.record.baseOffset

theorem Advances.trans
    (h : Advances s₁ s₂ t₁ t₂ a) (h' : Advances s₂ s₃ t₂ t₃ b) :
    Advances s₁ s₃ t₁ t₃ (a ++ b) where
  block id := by rw [h'.block, h.block, filter_append, append_assoc]
  kept := by rw [h.kept, h'.kept, append_assoc]
  endOffsets := h.endOffsets.trans h'.endOffsets

theorem process_advances (hpending : s.pending = none) (rest : List RecoverResult) :
    ∃ added, Advances s (s.process x) ((x :: rest).map RecoverResult.record)
        ((s.process x).todo rest) added ∧
      (s.process x).CarriesNext ∧ (s.process x).it = s.it ∧ (s.process x).next = s.next ∧
      (s.process x).eof = s.eof ∧
      ((s.process x).pending = none ∨
        (s.process x).pending = some x ∧ (s.cacheBlock.put x.record).2 = false) := by
  have heffect := processRecord_effect x s.openingStreamEndOffsets s.cacheBlock
  unfold process CarriesNext todo
  generalize processRecord x s.openingStreamEndOffsets s.cacheBlock = p at heffect
  cases heffect with
  | dropped hne =>
    refine ⟨[], ⟨fun id => by simp, ?_, ?_⟩, by simp [hpending], rfl, rfl, rfl, .inl hpending⟩
    · simp [hpending, scanOnce_cons_of_neg hne]
    · simp [hpending, scanOnce_cons_of_neg hne]
  | added heq hput =>
    refine ⟨[x.record], ⟨fun id => ?_, ?_, ?_⟩, by simp [hpending], rfl, rfl, rfl, .inl hpending⟩
    · rw [LogCacheBlock.recordsOf_put, hput, if_pos rfl]
    · simp [hpending, scanOnce_cons_of_pos heq]
    · simp [hpending, scanOnce_cons_of_pos heq]
  | refused heq hput =>
    refine ⟨[], ⟨fun id => ?_, ?_, ?_⟩, by simpa using heq, rfl, rfl, rfl, .inr ⟨rfl, hput⟩⟩
    · rw [LogCacheBlock.recordsOf_put, hput]
      simp
    · simp
    · simp

/-- What the inner loop does with the records `rest`. -/
structure Fills (s s' : Recovery) (rest rest' : List RecoverResult)
    (added : List StreamRecordBatch) : Prop where
  advances : Advances s s' (rest.map RecoverResult.record) (s'.todo rest') added
  it : s'.it = rest'.map .ok
  next : s'.next = none
  eof : s'.eof = true → rest' = []
  carries : s'.CarriesNext
  sublist : (s'.pending.toList ++ rest').Sublist rest

theorem Fills.stop (hpending : s'.pending = none) (hnext : s'.next = none)
    (hit : s'.it = rest.map .ok) (heof : s'.eof = true → rest = [])
    (hblock : s'.cacheBlock = s.cacheBlock)
    (hend : s'.openingStreamEndOffsets = s.openingStreamEndOffsets) : Fills s s' rest rest [] where
  advances := by
    refine ⟨fun id => ?_, ?_, ?_⟩ <;> simp [todo, hpending, hblock, hend]
  it := hit
  next := hnext
  eof := heof
  carries := by simp [CarriesNext, hpending]
  sublist := by simp [hpending]

theorem fillFrom_fills (hpending : s.pending = none) (hnext : s.next = none)
    (heof : s.eof = false) (rest : List RecoverResult) :
    ∃ s' rest' added, fillFrom (rest.map .ok) s = .ok s' ∧ Fills s s' rest rest' added := by
  induction rest generalizing s with
  | nil =>
    rw [map_nil, fillFrom]
    split
    · exact ⟨_, [], [], rfl, .stop hpending hnext rfl (fun _ => rfl) rfl rfl⟩
    · exact ⟨_, [], [], rfl, .stop hpending hnext rfl (fun _ => rfl) rfl rfl⟩
  | cons x rest ih =>
    rw [map_cons, fillFrom]
    split
    · exact ⟨_, x :: rest, [], rfl, .stop hpending hnext rfl (by simp [heof]) rfl rfl⟩
    · dsimp only
      obtain ⟨added, hadv, hcarries, -, hnext', heof', hcase⟩ :=
        process_advances (x := x) hpending rest
      rcases hcase with hnone | ⟨hsome, -⟩
      · obtain ⟨s', rest', added', hfill, hfills⟩ :=
          ih hnone (hnext'.trans hnext) (heof'.trans heof)
        refine ⟨s', rest', added ++ added', by simpa [hnone] using hfill, ?_⟩
        refine { hfills with advances := hadv.trans ?_, sublist := hfills.sublist.cons x }
        simpa [todo, hnone] using hfills.advances
      · refine ⟨{ s.process x with it := rest.map .ok }, rest, added, by simp [hsome],
          ⟨hadv.block, hadv.kept, hadv.endOffsets⟩, rfl, hnext'.trans hnext,
          by simp [heof', heof], hcarries, ?_⟩
        simp [hsome]

theorem fill_fills (hpending : s.pending = none) (hnext : s.next = none)
    (hit : s.it = rest.map .ok) (heof : s.eof = true → rest = []) :
    ∃ s' rest' added, s.fill = .ok s' ∧ Fills s s' rest rest' added := by
  rw [fill, hnext]
  dsimp only
  split
  · exact ⟨s, rest, [], rfl, .stop hpending hnext hit heof rfl rfl⟩
  next hnot =>
    rw [hit]
    exact fillFrom_fills hpending hnext (by simpa using hnot) rest

/-! ## The whole loop -/

/-- The loop variables between two blocks, with the results `rest` still to be read. -/
structure Between (s : Recovery) (rest : List RecoverResult) : Prop where
  it : s.it = rest.map .ok
  next : s.next = none
  eof : s.eof = true → rest = []
  carries : s.CarriesNext
  plain : ∀ x ∈ s.pending.toList ++ rest, x.record.IsPlain

/-- What one pass of the outer loop does: it hands over the next records that the scan keeps. -/
structure HandsOver (s s' : Recovery) (rest rest' : List RecoverResult)
    (added : List StreamRecordBatch) : Prop where
  between : s'.Between rest'
  block : ∀ id, s'.cacheBlock.recordsOf id = added.filter (·.streamId = id)
  kept : (scanOnce s.openingStreamEndOffsets (s.todo rest)).1 =
    added ++ (scanOnce s'.openingStreamEndOffsets (s'.todo rest')).1
  endOffsets : (scanOnce s.openingStreamEndOffsets (s.todo rest)).2 =
    (scanOnce s'.openingStreamEndOffsets (s'.todo rest')).2
  lt : (s'.pending.toList ++ rest').length < (s.pending.toList ++ rest).length

theorem put_new (hmax : 0 < maxCacheSize) (hx : x.record.IsPlain) :
    ((LogCacheBlock.new blockId maxCacheSize defaultMaxBlockStreamCount).put x.record).2 = true :=
  (LogCacheBlock.accepting_new hmax (by decide)).put_of_empty hx.spanFits rfl

theorem isFull_new (hmax : 0 < maxCacheSize) :
    (LogCacheBlock.new blockId maxCacheSize defaultMaxBlockStreamCount).isFull = false := by
  simp [LogCacheBlock.new, LogCacheBlock.isFull, OrdMap.empty, defaultMaxBlockStreamCount, hmax.ne']

/-- The first record of a block is in it; the inner loop does the rest. -/
theorem handsOver_of_fill {s₁ : Recovery} {first : List StreamRecordBatch}
    {carried : List RecoverResult} (hplain : ∀ y ∈ rest, y.record.IsPlain)
    (hpending : s₁.pending = none) (hnext : s₁.next = none) (hit : s₁.it = rest.map .ok)
    (heof : s₁.eof = true → rest = [])
    (hblock : ∀ id, s₁.cacheBlock.recordsOf id = first.filter (·.streamId = id))
    (hkept : (scanOnce s.openingStreamEndOffsets (s.todo carried)).1 =
      first ++ (scanOnce s₁.openingStreamEndOffsets (rest.map RecoverResult.record)).1)
    (hend : (scanOnce s.openingStreamEndOffsets (s.todo carried)).2 =
      (scanOnce s₁.openingStreamEndOffsets (rest.map RecoverResult.record)).2)
    (hlt : rest.length < (s.pending.toList ++ carried).length) :
    ∃ s' rest' added, s₁.fill = .ok s' ∧ HandsOver s s' carried rest' added := by
  obtain ⟨s', rest', added, hfill, hfills⟩ := fill_fills hpending hnext hit heof
  have hadv := hfills.advances
  refine ⟨s', rest', first ++ added, hfill, ?_, fun id => ?_, ?_, ?_, ?_⟩
  · exact ⟨hfills.it, hfills.next, hfills.eof, hfills.carries,
      fun y hy => hplain y (hfills.sublist.subset hy)⟩
  · rw [hadv.block, hblock, filter_append]
  · rw [hkept, hadv.kept, append_assoc]
  · rw [hend, hadv.endOffsets]
  · exact hfills.sublist.length_le.trans_lt hlt

theorem handsOver_of_pending (blockId : Nat) (hmax : 0 < maxCacheSize) (h : s.Between rest)
    (hpending : s.pending = some x) :
    ∃ s' rest' added, s.lookAhead = .ok (some s) ∧
      (s.startBlock maxCacheSize blockId).fill = .ok s' ∧ HandsOver s s' rest rest' added := by
  have hx : x.record.IsPlain := h.plain x (by simp [hpending])
  have heq := h.carries x hpending
  have hrest : ∀ y ∈ rest, y.record.IsPlain := fun y hy => h.plain y (mem_append_right _ hy)
  have htodo : s.todo rest = x.record :: rest.map RecoverResult.record := by simp [todo, hpending]
  have hfill := @handsOver_of_fill s rest (s.startBlock maxCacheSize blockId) [x.record] rest hrest
    (by rw [startBlock, hpending]) (by rw [startBlock, hpending]; exact h.next)
    (by rw [startBlock, hpending]; exact h.it) (by rw [startBlock, hpending]; exact h.eof)
    (fun id => ?_) ?_ ?_ (by simp [hpending])
  · obtain ⟨s', rest', added, hfill, hover⟩ := hfill
    exact ⟨s', rest', added, by simp [lookAhead, hpending], hfill, hover⟩
  · rw [startBlock, hpending]
    dsimp only
    rw [LogCacheBlock.recordsOf_put, put_new hmax hx, if_pos rfl, LogCacheBlock.recordsOf_new,
      nil_append]
  · rw [htodo, scanOnce_cons_of_pos heq, startBlock, hpending]
    rfl
  · rw [htodo, scanOnce_cons_of_pos heq, startBlock, hpending]

theorem handsOver_of_next (blockId : Nat) (hmax : 0 < maxCacheSize) (h : s.Between (x :: rest))
    (hpending : s.pending = none) :
    ∃ s₀ s' rest' added, s.lookAhead = .ok (some s₀) ∧
      (s₀.startBlock maxCacheSize blockId).fill = .ok s' ∧
      HandsOver s s' (x :: rest) rest' added := by
  have hx : x.record.IsPlain := h.plain x (by simp)
  have hrest : ∀ y ∈ rest, y.record.IsPlain := fun y hy => h.plain y (by simp [hy])
  have heof : s.eof = false := by
    rw [Bool.eq_false_iff]
    exact fun htrue => cons_ne_nil x rest (h.eof htrue)
  -- The block is empty, so the lookahead record is not refused.
  set s₀ : Recovery := { s with it := rest.map .ok, next := some x } with hs₀
  set s₁ : Recovery := { s₀.startBlock maxCacheSize blockId with next := none } with hs₁
  have hstart : s₀.startBlock maxCacheSize blockId =
      { s₀ with
        cacheBlock := .new blockId maxCacheSize defaultMaxBlockStreamCount
        blockLastOffset := none } := by
    rw [startBlock, hs₀]
    rw [hpending]
  have hpending₁ : s₁.pending = none := by rw [hs₁, hstart]; exact hpending
  obtain ⟨first, hadv, -, hit, hnext, heof', hcase⟩ := process_advances hpending₁ rest
  have hput : (s₁.cacheBlock.put x.record).2 = true := by
    rw [hs₁, hstart]
    exact put_new hmax hx
  have hnone : (s₁.process x).pending = none := by
    rcases hcase with hnone | ⟨-, hrefused⟩
    · exact hnone
    · rw [hput] at hrefused
      cases hrefused
  have htodo : (s₁.process x).todo rest = rest.map RecoverResult.record := by simp [todo, hnone]
  rw [htodo] at hadv
  have hend : s.openingStreamEndOffsets = s₁.openingStreamEndOffsets := by rw [hs₁, hstart]
  have htodo' : s.todo (x :: rest) = (x :: rest).map RecoverResult.record := by
    simp [todo, hpending]
  have heof₁ : (s₁.process x).eof = false := by
    rw [heof', hs₁, hstart]
    exact heof
  have hover := @handsOver_of_fill s rest (s₁.process x) first (x :: rest) hrest hnone hnext
    (by rw [hit, hs₁, hstart]) (by simp [heof₁])
    (fun id => by rw [hadv.block, hs₁, hstart]; simp)
    (by rw [htodo', hend]; exact hadv.kept) (by rw [htodo', hend]; exact hadv.endOffsets)
    (by simp [hpending])
  obtain ⟨s', rest', added, hfill, hover⟩ := hover
  refine ⟨s₀, s', rest', added, ?_, ?_, hover⟩
  · simp [lookAhead, hpending, h.next, heof, h.it, hs₀]
  · have hlook : (s₀.startBlock maxCacheSize blockId).next = some x := by rw [hstart]
    have hnot : (s₀.startBlock maxCacheSize blockId).cacheBlock.isFull = false := by
      rw [hstart]
      exact isFull_new hmax
    rw [fill, hlook]
    dsimp only
    rw [hnot, if_neg Bool.false_ne_true, ← hs₁, hnone]
    rw [fill, hnext] at hfill
    simpa using hfill

def collect (blocks : List LogCacheBlock) (block : LogCacheBlock) :
    Except StreamError (List LogCacheBlock) :=
  .ok (blocks ++ [block])

theorem recordsOf_sealedBlock (s : Recovery) (id : Nat) :
    s.sealedBlock.recordsOf id = s.cacheBlock.recordsOf id := by
  unfold sealedBlock
  split <;> rfl

theorem HandsOver.plain (hover : HandsOver s s' rest rest' added) (h : s.Between rest) (id : Nat) :
    ∀ r ∈ s'.sealedBlock.recordsOf id, 0 ≤ r.count := by
  intro r hr
  rw [recordsOf_sealedBlock, hover.block] at hr
  have hkept : r ∈ (scanOnce s.openingStreamEndOffsets (s.todo rest)).1 := by
    rw [hover.kept]
    exact mem_append_left _ (mem_of_mem_filter hr)
  obtain ⟨x, hx, rfl⟩ := mem_map.mp ((scanOnce_sublist _ _).subset hkept)
  exact (h.plain x hx).1

theorem exists_handsOver (blockId : Nat) (hmax : 0 < maxCacheSize) (h : s.Between rest)
    (hne : s.pending.toList ++ rest ≠ []) :
    ∃ s₀ s' rest' added, s.lookAhead = .ok (some s₀) ∧
      (s₀.startBlock maxCacheSize blockId).fill = .ok s' ∧ HandsOver s s' rest rest' added := by
  cases hpending : s.pending with
  | some =>
    obtain ⟨s', rest', added, hstep⟩ := handsOver_of_pending blockId hmax h hpending
    exact ⟨s, s', rest', added, hstep⟩
  | none =>
    cases rest with
    | nil => exact absurd (by simp [hpending]) hne
    | cons => exact handsOver_of_next blockId hmax h hpending

theorem loop_exact (hmax : 0 < maxCacheSize) (h : s.Between rest)
    (hfuel : (s.pending.toList ++ rest).length < fuel) (blockId : Nat)
    (blocks : List LogCacheBlock) :
    ∃ new, loop maxCacheSize decoder collect fuel s blockId blocks =
        some (.ok ((scanOnce s.openingStreamEndOffsets (s.todo rest)).2, blocks ++ new)) ∧
      ∀ id, new.flatMap (·.recordsOf id) =
        (scanOnce s.openingStreamEndOffsets (s.todo rest)).1.filter (·.streamId = id) := by
  induction fuel generalizing s rest blockId blocks with
  | zero => omega
  | succ fuel ih =>
    by_cases hne : s.pending.toList ++ rest = []
    · obtain ⟨hpending, rfl⟩ := append_eq_nil_iff.mp hne
      have hlook : s.lookAhead = .ok none := by
        have hit : s.it = [] := h.it
        have hnone : s.pending = none := by simpa using hpending
        simp [lookAhead, hnone, h.next, hit]
      have htodo : s.todo [] = [] := by simp [todo, hpending]
      refine ⟨[], ?_, fun id => by simp [htodo, scanOnce]⟩
      rw [loop, hlook, htodo]
      simp [scanOnce]
    · obtain ⟨s₀, s', rest', added, hlook, hfill, hover⟩ := exists_handsOver blockId hmax h hne
      obtain ⟨new, hloop, hnew⟩ := ih hover.between (by have := hover.lt; omega) (blockId + 1)
        (blocks ++ [s'.sealedBlock])
      refine ⟨s'.sealedBlock :: new, ?_, fun id => ?_⟩
      · rw [loop, hlook]
        dsimp only
        rw [hfill]
        dsimp only [bind, Except.bind]
        rw [decodeLinkRecords_plain decoder (hover.plain h)]
        dsimp only [collect, pure, Except.pure]
        rw [hloop, ← hover.endOffsets, append_assoc, singleton_append]
      · rw [flatMap_cons, hnew, recordsOf_sealedBlock, hover.block, hover.kept, filter_append]

end Recovery

/-- Every result is kept or dropped as by one scan, whatever the block size, and the loop ends. -/
theorem recover_scans_once {maxCacheSize : Nat} (hmax : 0 < maxCacheSize)
    {results : List RecoverResult} (hplain : ∀ x ∈ results, x.record.IsPlain) {fuel : Nat}
    (hfuel : results.length < fuel) (endOffsets : OrdMap Nat Nat)
    (decoder : Option LinkRecordDecoder) (blockId : Nat) :
    ∃ blocks, recover fuel (results.map .ok) endOffsets maxCacheSize decoder Recovery.collect
        blockId [] =
          some (.ok ((scanOnce endOffsets (results.map RecoverResult.record)).2, blocks)) ∧
      ∀ id, blocks.flatMap (·.recordsOf id) =
        (scanOnce endOffsets (results.map RecoverResult.record)).1.filter (·.streamId = id) := by
  have hbetween : Recovery.Between
      { it := results.map .ok, pending := none, next := none, eof := false,
        openingStreamEndOffsets := endOffsets,
        cacheBlock := .new blockId maxCacheSize defaultMaxBlockStreamCount,
        blockLastOffset := none } results :=
    ⟨rfl, rfl, fun h => absurd h Bool.false_ne_true, fun _ h => absurd h (by simp), hplain⟩
  exact Recovery.loop_exact hmax hbetween hfuel blockId []

/-- Records of stream 1 with one out of order, and one of stream 9. -/
def gappedResults : List RecoverResult :=
  [⟨⟨1, 0, 2, 1, []⟩, 1, 0, 40⟩, ⟨⟨1, 0, 3, 1, []⟩, 1, 40, 40⟩, ⟨⟨9, 0, 0, 1, []⟩, 1, 80, 40⟩,
    ⟨⟨1, 0, 5, 1, []⟩, 1, 120, 40⟩, ⟨⟨1, 0, 4, 1, []⟩, 1, 160, 40⟩]

/-- Stream 1 is committed up to offset 3 and stream 9 is closed; every block takes one record. -/
theorem recover_gappedResults :
    ∃ m blocks, recover 6 (gappedResults.map .ok) (OrdMap.empty.insert 1 3) 1 none
        Recovery.collect 0 [] = some (.ok (m, blocks)) ∧
      m.get? 1 = some 5 ∧
      blocks.flatMap (·.recordsOf 1) = [⟨1, 0, 3, 1, []⟩, ⟨1, 0, 4, 1, []⟩] := by
  have hplain : ∀ x ∈ gappedResults, x.record.IsPlain := by
    simp [gappedResults, StreamRecordBatch.IsPlain, i32Max]
  obtain ⟨blocks, hrun, hkept⟩ :=
    recover_scans_once Nat.one_pos hplain (show gappedResults.length < 6 by decide)
      (OrdMap.empty.insert 1 3) none 0
  refine ⟨_, blocks, hrun, by decide +kernel, ?_⟩
  rw [hkept 1]
  decide +kernel

end S3Stream
