import S3Stream.Core.Append
import S3Stream.Lib.BinarySearch
import S3Stream.Lib.GapReads

/-! # Reads from the log cache and the block cache

`LogCache::get` (`s3stream-core/src/cache/log_cache.rs`) and `S3Storage::read0`
(`s3stream-core/src/storage/s3_storage.rs`). A stream cache remembers under which index a read will
go on (`offset_index_map`); these notes are kept beside the cache here, by block id and stream. -/

namespace S3Stream

open List Windows Function LogCacheBlock

/-- `offset_index_map`: the index of the next record and how many reads have noted it. -/
abbrev OffsetIndexMap := Nat → Option (Nat × Nat)

/-- The notes of all blocks, by block id and stream id. -/
abbrev OffsetIndexes := Nat → Nat → OffsetIndexMap

namespace StreamCache

/-- The binary search of `search_start_index`; `fuel` bounds its rounds. -/
def searchLoop (records : List StreamRecordBatch) (startOffset : Nat) :
    Nat → Nat → Nat → Option Nat
  | 0, _, _ => none
  | fuel + 1, lo, hi =>
    if lo < hi then
      let mid := (lo + hi) / 2
      match records[mid]? with
      | none => none
      | some record =>
        if startOffset < record.baseOffset then searchLoop records startOffset fuel lo mid
        else if record.lastOffset ≤ startOffset then
          searchLoop records startOffset fuel (mid + 1) hi
        else some mid
    else none

def searchStartIndex (c : StreamCache) (notes : OffsetIndexMap) (startOffset : Nat) :
    Option Nat × OffsetIndexMap :=
  match notes startOffset with
  | some (index, count) =>
    (some index, Function.update notes startOffset
      (if count ≤ 1 then none else some (index, count - 1)))
  | none => (searchLoop c.records startOffset c.records.length 0 c.records.length, notes)

/-- A read that ends with the record before `endIndex` notes where the next one starts. -/
def note (notes : OffsetIndexMap) (endIndex : Nat) : Option StreamRecordBatch → OffsetIndexMap
  | none => notes
  | some last => Function.update notes last.lastOffset
      (some (endIndex, (((notes last.lastOffset).map Prod.snd).getD 0 + 1) % 2 ^ 32))

def get (c : StreamCache) (notes : OffsetIndexMap) (startOffset endOffset maxBytes : Nat) :
    List StreamRecordBatch × OffsetIndexMap :=
  match c.startOffset, c.endOffset with
  | some cacheStart, some cacheEnd =>
    if startOffset < cacheStart ∨ cacheEnd ≤ startOffset then ([], notes)
    else
      match c.searchStartIndex notes startOffset with
      | (none, notes) => ([], notes)
      | (some startIndex, notes) =>
        let records := budgetRun StreamRecordBatch.lastOffset StreamRecordBatch.size endOffset
          maxBytes (c.records.drop startIndex)
        (records, note notes (startIndex + records.length) records.getLast?)
  | _, _ => ([], notes)

def range (c : StreamCache) : Option (Nat × Nat) :=
  match c.startOffset, c.endOffset with
  | some s, some e => some (s, e)
  | _, _ => none

end StreamCache

namespace LogCacheBlock

def get (b : LogCacheBlock) (notes : OffsetIndexes)
    (streamId startOffset endOffset maxBytes : Nat) :
    List StreamRecordBatch × OffsetIndexes :=
  match b.map.get? streamId with
  | some cache =>
    let (records, streamNotes) :=
      cache.get (notes b.blockId streamId) startOffset endOffset maxBytes
    (records, Function.update notes b.blockId
      (Function.update (notes b.blockId) streamId streamNotes))
  | none => ([], notes)

def streamRange (b : LogCacheBlock) (streamId : Nat) : Option (Nat × Nat) :=
  (b.map.get? streamId).bind StreamCache.range

end LogCacheBlock

namespace LogCache

def blocks (c : LogCache) : List LogCacheBlock := c.archived ++ [c.active]

/-- The first loop of `get0`: the records, whether they fulfil the read, and the notes. -/
def getBlocks (streamId endOffset : Nat) :
    List LogCacheBlock → OffsetIndexes → Nat → Nat →
      (List StreamRecordBatch × Bool) × OffsetIndexes
  | [], notes, _, _ => (([], false), notes)
  | b :: bs, notes, nextStartOffset, nextMaxBytes =>
    let (records, notes) := b.get notes streamId nextStartOffset endOffset nextMaxBytes
    match records.getLast? with
    | none => getBlocks streamId endOffset bs notes nextStartOffset nextMaxBytes
    | some last =>
      let recordsSize := total StreamRecordBatch.size records
      let nextMaxBytes := nextMaxBytes - min nextMaxBytes recordsSize
      if endOffset ≤ last.lastOffset ∨ nextMaxBytes = 0 then ((records, true), notes)
      else
        let ((rst, fulfill), notes) :=
          getBlocks streamId endOffset bs notes last.lastOffset nextMaxBytes
        ((records ++ rst, fulfill), notes)

/-- The second loop of `get0`, over the blocks from the last one on: where the longest continuous
tail of the stream starts. -/
def tailStart (streamId : Nat) : Option Nat → List LogCacheBlock → Option Nat
  | tail, [] => tail
  | tail, b :: bs =>
    match b.streamRange streamId, tail with
    | none, tail => tailStart streamId tail bs
    | some (rangeStart, _), none => tailStart streamId (some rangeStart) bs
    | some (rangeStart, rangeEnd), some current =>
      if current = rangeEnd then tailStart streamId (some rangeStart) bs else some current

/-- `get0` with the number of its rounds. -/
def get0 (blocks : List LogCacheBlock) (streamId endOffset maxBytes : Nat) :
    Nat → OffsetIndexes → Nat → List StreamRecordBatch × OffsetIndexes
  | 0, notes, _ => ([], notes)
  | rounds + 1, notes, startOffset =>
    let ((rst, fulfill), notes) :=
      getBlocks streamId endOffset blocks notes startOffset maxBytes
    if fulfill then (rst, notes)
    else
      match tailStart streamId none blocks.reverse with
      | none => ([], notes)
      | some tail =>
        if endOffset ≤ tail then ([], notes)
        else if tail ≤ startOffset then ([], notes)
        else get0 blocks streamId endOffset maxBytes rounds notes tail

/-- A second round starts at the tail, so it does not call a third one. -/
def get (c : LogCache) (notes : OffsetIndexes) (streamId startOffset endOffset maxBytes : Nat) :
    List StreamRecordBatch × OffsetIndexes :=
  get0 c.blocks streamId endOffset maxBytes 2 notes startOffset

end LogCache

/-! ## The read path -/

inductive CacheAccessType where
  | deltaWalCacheHit
  | blockCacheHit
  | blockCacheMiss
  deriving DecidableEq, Repr

structure ReadDataBlock where
  records : List StreamRecordBatch
  cacheAccess : CacheAccessType
  deriving DecidableEq, Repr

inductive FetchError where
  | fastReadFailFast
  | stream (error : StreamError)
  deriving DecidableEq, Repr

/-- The read of `S3BlockCache`: stream, start offset, end offset and byte limit. -/
abbrev BlockCacheRead := Nat → Nat → Nat → Nat → Except StreamError ReadDataBlock

def continuousCheckFrom : Option Nat → List StreamRecordBatch → Except StreamError Unit
  | _, [] => .ok ()
  | none, r :: rs => continuousCheckFrom (some r.lastOffset) rs
  | some e, r :: rs =>
    if r.baseOffset = e then continuousCheckFrom (some r.lastOffset) rs
    else .error (.unexpected
      s!"continuous check failed, expected offset: {e}, actual: {r.baseOffset}")

def continuousCheck (records : List StreamRecordBatch) : Except StreamError Unit :=
  continuousCheckFrom none records

/-- `read0` behind the look into the log cache. -/
def stitch (blockCache : BlockCacheRead) (fastRead : Bool)
    (streamId startOffset endOffset maxBytes : Nat) (cached : List StreamRecordBatch) :
    Except FetchError ReadDataBlock :=
  if cached.head?.any (·.baseOffset ≤ startOffset) then .ok ⟨cached, .deltaWalCacheHit⟩
  else if fastRead then .error .fastReadFailFast
  else
    let cacheEndOffset := (cached.head?.map StreamRecordBatch.baseOffset).getD endOffset
    match blockCache streamId startOffset cacheEndOffset maxBytes with
    | .error e => .error (.stream e)
    | .ok block =>
      let remaining := maxBytes - total StreamRecordBatch.size block.records
      let records := block.records ++ pushRun StreamRecordBatch.size remaining cached
      match continuousCheck records with
      | .error e => .error (.stream e)
      | .ok () => .ok ⟨records, block.cacheAccess⟩

/-- A read; `firstCache` is the log cache, or the snapshot cache for a snapshot read. -/
def read0 (blockCache : BlockCacheRead) (firstCache : LogCache) (notes : OffsetIndexes)
    (fastRead : Bool) (streamId startOffset endOffset maxBytes : Nat) :
    Except FetchError ReadDataBlock × OffsetIndexes :=
  let (cached, notes) := firstCache.get notes streamId startOffset endOffset maxBytes
  (stitch blockCache fastRead streamId startOffset endOffset maxBytes cached, notes)

/-! ## A stream cache answers reads -/

/-- The records tile `[a, b)`. -/
abbrev RecordsTile (a : Nat) (rs : List StreamRecordBatch) (b : Nat) : Prop :=
  Tiles StreamRecordBatch.baseOffset StreamRecordBatch.lastOffset a rs b

/-- The answer of the records to a read of `[startOffset, endOffset)` with a byte limit. -/
abbrev serve (endOffset maxBytes : Nat) (rs : List StreamRecordBatch) (startOffset : Nat) :
    List StreamRecordBatch :=
  answer StreamRecordBatch.baseOffset StreamRecordBatch.lastOffset StreamRecordBatch.size endOffset
    maxBytes rs startOffset

/-- The read is over: it reaches `endOffset` or has `maxBytes` bytes. -/
abbrev ReadDone (endOffset maxBytes : Nat) (rs : List StreamRecordBatch) : Prop :=
  Done StreamRecordBatch.lastOffset StreamRecordBatch.size endOffset maxBytes rs

/-- The records behind the last gap. -/
abbrev tailRecords (rs : List StreamRecordBatch) : List StreamRecordBatch :=
  tailRun StreamRecordBatch.baseOffset StreamRecordBatch.lastOffset rs

/-- Every note is the index behind a record that ends at the noted offset. -/
def NotesAgree (rs : List StreamRecordBatch) (notes : OffsetIndexMap) : Prop :=
  ∀ offset index count, notes offset = some (index, count) →
    ∃ ys r zs, rs = ys ++ r :: zs ∧ index = ys.length + 1 ∧ r.lastOffset = offset

theorem NotesAgree.append (h : NotesAgree rs notes) (more : List StreamRecordBatch) :
    NotesAgree (rs ++ more) notes := by
  intro offset index count hnote
  obtain ⟨ys, r, zs, rfl, hindex, hlast⟩ := h offset index count hnote
  exact ⟨ys, r, zs ++ more, by rw [append_assoc, cons_append], hindex, hlast⟩

theorem notesAgree_empty (rs : List StreamRecordBatch) : NotesAgree rs fun _ => none := nofun

namespace StreamCache

variable {c : StreamCache} {notes : OffsetIndexMap} {a b : Nat}

/-- The bounds of a stream cache are those of its records. -/
inductive Spanned : StreamCache → Prop
  | empty : Spanned .new
  | run {rs : List StreamRecordBatch} {a b : Nat} (htile : RecordsTile a rs b) (hne : rs ≠ []) :
      Spanned ⟨rs, some a, some b⟩

/-- Where an offset lies, seen from a record. -/
def compareTo (x : Nat) (r : StreamRecordBatch) : Ordering :=
  if x < r.baseOffset then .gt else if r.lastOffset ≤ x then .lt else .eq

theorem compareTo_eq_eq : compareTo x r = .eq ↔ r.baseOffset ≤ x ∧ x < r.lastOffset := by
  unfold compareTo
  split_ifs <;> simp only [false_iff, true_iff] <;> omega

theorem searchLoop_eq_search (rs : List StreamRecordBatch) (x fuel lo hi : Nat) :
    searchLoop rs x fuel lo hi =
      (BinarySearch.search (fun lo hi => (lo + hi) / 2) (compareTo x) rs fuel lo hi).toOption := by
  induction fuel generalizing lo hi with
  | zero => rfl
  | succ fuel ih =>
    rw [searchLoop, BinarySearch.search]
    dsimp only
    cases rs[(lo + hi) / 2]? with
    | none => split_ifs <;> rfl
    | some =>
      simp only [compareTo, ih]
      split_ifs <;> rfl

theorem rises_compareTo (h : RecordsTile a rs b) (x : Nat) :
    BinarySearch.Rises (compareTo x) rs := by
  refine h.pairwise.imp_of_mem fun {r r'} hr hr' hle => ?_
  have hpos := h.lo_lt_hi hr
  unfold compareTo
  constructor <;> intro hcmp <;> split_ifs at hcmp ⊢ <;> first | rfl | omega

theorem searchLoop_eq (h : RecordsTile a (ys ++ r :: zs) t) (hlo : r.baseOffset ≤ x)
    (hhi : x < r.lastOffset) :
    searchLoop (ys ++ r :: zs) x (ys ++ r :: zs).length 0 (ys ++ r :: zs).length =
      some ys.length := by
  have hmid : BinarySearch.Inside fun lo hi => (lo + hi) / 2 := by
    intro lo hi hlt
    dsimp only
    omega
  have hcover := compareTo_eq_eq.mpr ⟨hlo, hhi⟩
  have hanswers := BinarySearch.search_all hmid (rises_compareTo h x)
  rw [searchLoop_eq_search]
  generalize BinarySearch.search (fun lo hi => (lo + hi) / 2) (compareTo x) (ys ++ r :: zs) _ 0 _ =
    found at hanswers
  cases hanswers with
  | absent hnone => exact absurd hcover (hnone r (mem_append_right _ mem_cons_self))
  | @found i y hget hy =>
    -- No two records cover one offset.
    obtain ⟨hylo, hyhi⟩ := compareTo_eq_eq.mp hy
    have hget' : (ys ++ r :: zs)[ys.length]? = some r := by
      rw [getElem?_append_right le_rfl, Nat.sub_self]
      rfl
    obtain ⟨hi, hyi⟩ := List.getElem?_eq_some_iff.mp hget
    obtain ⟨hr, hri⟩ := List.getElem?_eq_some_iff.mp hget'
    have hpair := pairwise_iff_getElem.mp h.pairwise
    rcases lt_trichotomy i ys.length with hlt | rfl | hlt
    · have hle := hpair _ _ hi hr hlt
      rw [hyi, hri] at hle
      omega
    · rfl
    · have hle := hpair _ _ hr hi hlt
      rw [hyi, hri] at hle
      omega

/-- The search finds the covering record by a note or by binary search, and keeps the notes. -/
theorem searchStartIndex_eq (h : RecordsTile a rs b) (hnotes : NotesAgree rs notes) (hle : a ≤ x)
    (hlt : x < b) :
    ∃ ys r zs, rs = ys ++ r :: zs ∧ (∀ y ∈ ys, y.lastOffset ≤ x) ∧ r.baseOffset ≤ x ∧
      x < r.lastOffset ∧ (searchStartIndex ⟨rs, s, e⟩ notes x).1 = some ys.length ∧
      NotesAgree rs (searchStartIndex ⟨rs, s, e⟩ notes x).2 := by
  unfold searchStartIndex
  split
  next index count hnote =>
    -- The record behind the note starts at the offset.
    obtain ⟨us, q, vs, rfl, rfl, hlast⟩ := hnotes x index count hnote
    obtain ⟨d, hfront, hq, hpos, hback⟩ := Tiles.append.mp h
    have hfront' : RecordsTile a (us ++ [q]) x := Tiles.append.mpr ⟨d, hfront, hq, hpos, hlast⟩
    rw [hlast] at hback
    cases vs with
    | nil => exact absurd hback hlt.ne
    | cons r zs =>
      refine ⟨us ++ [q], r, zs, by rw [append_assoc]; rfl,
        fun y hy => (hfront'.bounds hy).2, hback.1.le, hback.1 ▸ hback.2.1,
        by rw [length_append]; rfl, fun offset i n hn => ?_⟩
      by_cases hox : offset = x
      · subst hox
        simp only [update_self] at hn
        split at hn
        · cases hn
        · cases hn
          exact hnotes offset _ count hnote
      · simp only [update_of_ne hox] at hn
        exact hnotes offset i n hn
  next =>
    obtain ⟨ys, r, zs, rfl, hys, hlo, hhi⟩ := h.exists_split hle hlt
    exact ⟨ys, r, zs, rfl, hys, hlo, hhi, searchLoop_eq h hlo hhi, hnotes⟩

theorem notesAgree_note (h : NotesAgree rs notes) (hrs : rs = ys ++ zs) (htaken : taken <+: zs) :
    NotesAgree rs (note notes (ys.length + taken.length) taken.getLast?) := by
  cases hlast : taken.getLast? with
  | none => exact h
  | some r =>
    intro offset index count hn
    by_cases hor : offset = r.lastOffset
    · subst hor
      simp only [StreamCache.note, update_self, Option.some.injEq, Prod.mk.injEq] at hn
      obtain ⟨us, rfl⟩ := getLast?_eq_some_iff.mp hlast
      obtain ⟨vs, rfl⟩ := htaken
      refine ⟨ys ++ us, r, vs, by rw [hrs]; simp, ?_, rfl⟩
      rw [← hn.1, length_append, length_append, length_singleton, add_assoc]
    · simp only [StreamCache.note, update_of_ne hor] at hn
      exact h offset index count hn

/-- A stream cache answers a read from its records and keeps its notes right. -/
theorem Spanned.get (h : c.Spanned) (hnotes : NotesAgree c.records notes)
    (startOffset endOffset maxBytes : Nat) :
    (c.get notes startOffset endOffset maxBytes).1 =
        serve endOffset maxBytes c.records startOffset ∧
      NotesAgree c.records (c.get notes startOffset endOffset maxBytes).2 := by
  cases h with
  | empty => exact ⟨rfl, hnotes⟩
  | @run rs a b htile =>
    simp only [StreamCache.get]
    split
    next hout => exact ⟨(answer_eq_nil htile hout).symm, hnotes⟩
    next hin =>
      rw [not_or, not_lt, not_le] at hin
      obtain ⟨ys, r, zs, rfl, hys, hlo, hhi, hfound, hkeep⟩ :=
        searchStartIndex_eq htile hnotes hin.1 hin.2
      generalize searchStartIndex _ notes startOffset = found at hfound hkeep
      obtain ⟨index, notes'⟩ := found
      obtain rfl : index = some ys.length := hfound
      have hdrop : (ys ++ r :: zs).drop ys.length = r :: zs := by
        rw [drop_left]
      refine ⟨?_, ?_⟩
      · rw [serve, answer_split hys hlo hhi]
        show budgetRun _ _ _ _ ((ys ++ r :: zs).drop ys.length) = _
        rw [hdrop]
      · show NotesAgree _ (note notes' (ys.length + (budgetRun _ _ _ _
          ((ys ++ r :: zs).drop ys.length)).length) _)
        rw [hdrop]
        exact notesAgree_note hkeep rfl (budgetRun_isPrefix ..)

end StreamCache

/-! ## The blocks answer reads -/

namespace LogCacheBlock

def streamRecords (b : LogCacheBlock) (streamId : Nat) : List StreamRecordBatch :=
  ((b.map.get? streamId).map StreamCache.records).getD []

/-- The stream caches of a block span their records. -/
def Spanned (b : LogCacheBlock) : Prop :=
  ∀ streamId c, b.map.get? streamId = some c → c.Spanned

variable {b : LogCacheBlock} {streamId x y : Nat}

theorem streamRecords_of_get? (h : b.map.get? streamId = some c) :
    b.streamRecords streamId = c.records := by
  rw [streamRecords, h]
  rfl

theorem streamRecords_of_none (h : b.map.get? streamId = none) : b.streamRecords streamId = [] := by
  rw [streamRecords, h]
  rfl

theorem Spanned.hasRange (h : b.Spanned) (streamId : Nat) :
    HasRange StreamRecordBatch.baseOffset StreamRecordBatch.lastOffset (b.streamRecords streamId)
      (b.streamRange streamId) := by
  cases hget : b.map.get? streamId with
  | none =>
    rw [streamRange, hget, streamRecords_of_none hget]
    exact .empty
  | some c =>
    rw [streamRecords_of_get? hget, streamRange, hget]
    cases h streamId c hget with
    | empty => exact .empty
    | run htile hne => exact .run htile hne

theorem Spanned.exists_tiles (h : b.Spanned) (streamId : Nat) :
    ∃ x y, RecordsTile x (b.streamRecords streamId) y := by
  have hrange := h.hasRange streamId
  generalize b.streamRecords streamId = rs, b.streamRange streamId = range at hrange
  cases hrange with
  | empty => exact ⟨0, 0, rfl⟩
  | run htile _ => exact ⟨_, _, htile⟩

end LogCacheBlock

/-- A read of the records of a stream block by block. -/
def LogCache.readBlocks (streamId endOffset : Nat) (bs : List LogCacheBlock)
    (startOffset maxBytes : Nat) : List StreamRecordBatch × Bool :=
  readParts StreamRecordBatch.baseOffset StreamRecordBatch.lastOffset StreamRecordBatch.size
    endOffset (bs.map (·.streamRecords streamId)) startOffset maxBytes

/-- The notes of every block agree with its records. -/
def BlockNotesAgree (blocks : List LogCacheBlock) (notes : OffsetIndexes) : Prop :=
  ∀ b ∈ blocks, ∀ streamId, NotesAgree (b.streamRecords streamId) (notes b.blockId streamId)

namespace LogCache

variable {b : LogCacheBlock} {blocks bs : List LogCacheBlock} {notes : OffsetIndexes}
  {streamId endOffset maxBytes x y : Nat}

theorem get_block (hb : b ∈ blocks) (hids : (blocks.map LogCacheBlock.blockId).Nodup)
    (hspan : b.Spanned) (hnotes : BlockNotesAgree blocks notes)
    (streamId startOffset endOffset maxBytes : Nat) :
    (b.get notes streamId startOffset endOffset maxBytes).1 =
        serve endOffset maxBytes (b.streamRecords streamId) startOffset ∧
      BlockNotesAgree blocks (b.get notes streamId startOffset endOffset maxBytes).2 := by
  unfold LogCacheBlock.get
  split
  next c hget =>
    have hagree := hnotes b hb streamId
    rw [LogCacheBlock.streamRecords_of_get? hget] at hagree ⊢
    obtain ⟨hrecords, hkeep⟩ := (hspan streamId c hget).get hagree startOffset endOffset maxBytes
    refine ⟨hrecords, fun d hd id => ?_⟩
    by_cases hid : d.blockId = b.blockId
    · obtain rfl : d = b := inj_on_of_nodup_map hids hd hb hid
      by_cases hstream : id = streamId
      · subst hstream
        simp only [update_self]
        rw [LogCacheBlock.streamRecords_of_get? hget]
        exact hkeep
      · simp only [update_self, update_of_ne hstream]
        exact hnotes d hd id
    · simp only [update_of_ne hid]
      exact hnotes d hd id
  next hget =>
    rw [LogCacheBlock.streamRecords_of_none hget]
    exact ⟨rfl, hnotes⟩

/-- What every look into a block keeps true of the notes, a read keeps. -/
theorem notes_getBlocks {P : OffsetIndexes → Prop} (hP : ∀ b ∈ bs, ∀ notes startOffset maxBytes,
      P notes → P (b.get notes streamId startOffset endOffset maxBytes).2)
    (hnotes : P notes) (startOffset maxBytes : Nat) :
    P (getBlocks streamId endOffset bs notes startOffset maxBytes).2 := by
  induction bs generalizing notes startOffset maxBytes with
  | nil => exact hnotes
  | cons b bs ih =>
    have hb := hP b mem_cons_self notes startOffset maxBytes hnotes
    have hbs := fun d hd => hP d (mem_cons_of_mem b hd)
    rw [getBlocks]
    dsimp only
    split
    · exact ih hbs hb ..
    · split
      · exact hb
      · exact ih hbs hb ..

theorem notes_get {P : OffsetIndexes → Prop} {c : LogCache}
    (hP : ∀ b ∈ c.blocks, ∀ notes startOffset maxBytes,
      P notes → P (b.get notes streamId startOffset endOffset maxBytes).2) (hnotes : P notes)
    (startOffset maxBytes : Nat) : P (c.get notes streamId startOffset endOffset maxBytes).2 := by
  rw [LogCache.get]
  generalize 2 = rounds
  induction rounds generalizing notes startOffset with
  | zero => exact hnotes
  | succ rounds ih =>
    have hfirst := notes_getBlocks hP hnotes startOffset maxBytes
    rw [get0]
    dsimp only
    split
    · exact hfirst
    · split
      · exact hfirst
      · split
        · exact hfirst
        · split
          · exact hfirst
          · exact ih hfirst _

theorem getBlocks_eq (streamId : Nat) (hids : (blocks.map blockId).Nodup)
    (hspan : ∀ b ∈ blocks, b.Spanned) (hbs : bs ⊆ blocks) (hnotes : BlockNotesAgree blocks notes)
    (endOffset startOffset maxBytes : Nat) :
    (getBlocks streamId endOffset bs notes startOffset maxBytes).1 =
      readBlocks streamId endOffset bs startOffset maxBytes := by
  induction bs generalizing notes startOffset maxBytes with
  | nil => rfl
  | cons b bs ih =>
    obtain ⟨hb, hbs⟩ := cons_subset.mp hbs
    obtain ⟨hrecords, hkeep⟩ := get_block hb hids (hspan b hb) hnotes streamId startOffset
      endOffset maxBytes
    rw [getBlocks, readBlocks, map_cons, readParts]
    generalize b.get notes streamId startOffset endOffset maxBytes = got at hrecords hkeep
    obtain ⟨records, notes'⟩ := got
    replace hrecords : records =
      serve endOffset maxBytes (b.streamRecords streamId) startOffset := hrecords
    replace hkeep : BlockNotesAgree blocks notes' := hkeep
    have hrecords' : answer StreamRecordBatch.baseOffset StreamRecordBatch.lastOffset
        StreamRecordBatch.size endOffset maxBytes (b.streamRecords streamId) startOffset =
          records :=
      hrecords.symm
    rw [hrecords']
    dsimp only
    cases records.getLast? with
    | none => exact ih hbs hkeep ..
    | some last =>
      dsimp only
      split
      · rfl
      · have hrest := ih hbs hkeep last.lastOffset
          (maxBytes - min maxBytes (total StreamRecordBatch.size records))
        rw [readBlocks] at hrest
        rw [← hrest]

theorem tailStart_eq_tailStartOf (tail : Option Nat) (bs : List LogCacheBlock) :
    tailStart streamId tail bs = tailStartOf tail (bs.filterMap (·.streamRange streamId)) := by
  induction bs generalizing tail with
  | nil => rfl
  | cons b bs ih =>
    cases hrange : b.streamRange streamId with
    | none =>
      rw [filterMap_cons, hrange, ← ih]
      simp only [tailStart, hrange]
    | some =>
      rw [filterMap_cons, hrange]
      cases tail with
      | none => simp only [tailStart, hrange, tailStartOf, ih]
      | some => simp only [tailStart, hrange, tailStartOf, ih]

/-- The second loop finds where the records behind the last gap start. -/
theorem tailStart_eq (hspan : ∀ b ∈ bs, b.Spanned) :
    tailStart streamId none bs.reverse =
      (tailRecords (bs.flatMap (·.streamRecords streamId))).head?.map
        StreamRecordBatch.baseOffset := by
  have htail := tailStartOf_eq (fun b hb => (hspan b hb).hasRange streamId)
    (show RecordsTile 0 [] 0 from rfl)
  rw [append_nil] at htail
  rw [tailStart_eq_tailStartOf]
  exact htail

theorem notesAgree_getBlocks (streamId endOffset : Nat) (hids : (blocks.map blockId).Nodup)
    (hspan : ∀ b ∈ blocks, b.Spanned) (hnotes : BlockNotesAgree blocks notes)
    (startOffset maxBytes : Nat) :
    BlockNotesAgree blocks (getBlocks streamId endOffset blocks notes startOffset maxBytes).2 :=
  notes_getBlocks (P := BlockNotesAgree blocks) (fun b hb _ s m h =>
    (get_block hb hids (hspan b hb) h streamId s endOffset m).2) hnotes startOffset maxBytes

theorem get0_tail (rounds : Nat) (notes : OffsetIndexes) {tail : Nat}
    (htail : tailStart streamId none blocks.reverse = some tail) :
    get0 blocks streamId endOffset maxBytes (rounds + 1) notes tail =
      get0 blocks streamId endOffset maxBytes 1 notes tail := by
  simp only [get0, htail, le_refl, if_true]

/-- `get0` calls itself at most once. -/
theorem get0_rounds (rounds : Nat) (notes : OffsetIndexes) (startOffset : Nat) :
    get0 blocks streamId endOffset maxBytes (rounds + 2) notes startOffset =
      get0 blocks streamId endOffset maxBytes 2 notes startOffset := by
  rw [get0, get0]
  dsimp only
  cases htail : tailStart streamId none blocks.reverse with
  | none => rfl
  | some => simp only [get0_tail rounds _ htail]

/-- A read answers from its start if it can, else from the tail if that starts inside the range. -/
theorem get_eq_readBlocks {c : LogCache} (hids : (c.blocks.map LogCacheBlock.blockId).Nodup)
    (hspan : ∀ b ∈ c.blocks, b.Spanned) (hnotes : BlockNotesAgree c.blocks notes)
    (streamId startOffset endOffset maxBytes : Nat) :
    (c.get notes streamId startOffset endOffset maxBytes).1 =
      if (readBlocks streamId endOffset c.blocks startOffset maxBytes).2 then
        (readBlocks streamId endOffset c.blocks startOffset maxBytes).1
      else
        match (tailRecords (c.blocks.flatMap (·.streamRecords streamId))).head?.map
          StreamRecordBatch.baseOffset with
        | none => []
        | some tail =>
          if endOffset ≤ tail ∨ tail ≤ startOffset then []
          else if (readBlocks streamId endOffset c.blocks tail maxBytes).2 then
            (readBlocks streamId endOffset c.blocks tail maxBytes).1
          else [] := by
  have hfirst := getBlocks_eq streamId hids hspan (List.Subset.refl _) hnotes
    endOffset startOffset maxBytes
  have hkeep := notesAgree_getBlocks streamId endOffset hids hspan hnotes startOffset maxBytes
  rw [LogCache.get, get0, ← hfirst, ← tailStart_eq hspan]
  dsimp only
  split
  · rfl
  cases htail : tailStart streamId none c.blocks.reverse with
  | none => rfl
  | some tail =>
    dsimp only
    by_cases hend : endOffset ≤ tail
    · rw [if_pos hend, if_pos (.inl hend)]
    by_cases hstart : tail ≤ startOffset
    · rw [if_neg hend, if_pos hstart, if_pos (.inr hstart)]
    -- The second round starts at the tail.
    have hsecond := getBlocks_eq streamId hids hspan (List.Subset.refl _) hkeep
      endOffset tail maxBytes
    rw [if_neg hend, if_neg hstart, if_neg (not_or.mpr ⟨hend, hstart⟩), get0, ← hsecond, htail]
    simp only [le_refl, if_true, if_neg hend]
    split <;> rfl

theorem tiles_map_streamRecords (hspan : ∀ b ∈ bs, b.Spanned) :
    ∀ rs ∈ bs.map (·.streamRecords streamId), ∃ s t, RecordsTile s rs t := by
  rintro _ hrs
  obtain ⟨b, hb, rfl⟩ := mem_map.mp hrs
  exact (hspan b hb).exists_tiles streamId

/-- A read up to the end of the cached run: it is answered from its start, or from the start of the
run if that lies inside the range, or not at all. -/
theorem get_eq {c : LogCache} (hids : (c.blocks.map blockId).Nodup)
    (hspan : ∀ b ∈ c.blocks, b.Spanned) (hnotes : BlockNotesAgree c.blocks notes)
    (htile : RecordsTile x (c.blocks.flatMap (·.streamRecords streamId)) y) (hmax : 0 < maxBytes)
    (hlt : startOffset < endOffset) (hend : endOffset ≤ y) :
    (c.get notes streamId startOffset endOffset maxBytes).1 =
      if endOffset ≤ x then [] else serve endOffset maxBytes
        (c.blocks.flatMap (·.streamRecords streamId)) (max startOffset x) := by
  rw [get_eq_readBlocks hids hspan hnotes, tailRecords, tailRun_of_tiles htile]
  -- Without gaps a read of the blocks is one of all their records.
  have hread : ∀ a, (readBlocks streamId endOffset c.blocks a maxBytes).1 =
        serve endOffset maxBytes (c.blocks.flatMap (·.streamRecords streamId)) a ∧
      ((readBlocks streamId endOffset c.blocks a maxBytes).2 = true ↔ x ≤ a ∧ a < y) := by
    intro a
    obtain ⟨hrecords, hover⟩ := readParts_eq StreamRecordBatch.size
      (tiles_map_streamRecords hspan) (by rw [← flatMap_def]; exact htile.pairwise)
      endOffset a maxBytes
    rw [← flatMap_def, budgetRun_runFrom htile] at hrecords hover
    refine ⟨hrecords, hover.trans ⟨fun h => ?_, fun h => ⟨fun hnil => ?_, ?_⟩⟩⟩
    · by_contra hout
      rw [answer_eq_nil htile (by omega)] at h
      exact not_done_nil hmax h.2
    · have hdone : ReadDone endOffset maxBytes (serve endOffset maxBytes
          (c.blocks.flatMap (·.streamRecords streamId)) a) := done_answer htile h.1 h.2 hend
      rw [serve] at hdone
      rw [← budgetRun_runFrom htile, hnil] at hdone
      exact not_done_nil hmax hdone
    · exact done_answer htile h.1 h.2 hend
  by_cases hx : x ≤ startOffset
  · rw [if_pos ((hread startOffset).2.mpr ⟨hx, hlt.trans_le hend⟩), if_neg (by omega),
      max_eq_left hx]
    exact (hread startOffset).1
  · have hopen : ¬(readBlocks streamId endOffset c.blocks startOffset maxBytes).2 = true :=
      fun h => hx ((hread startOffset).2.mp h).1
    rw [if_neg hopen, max_eq_right (by omega)]
    cases hrs : c.blocks.flatMap (·.streamRecords streamId) with
    | nil =>
      rw [hrs] at htile
      obtain rfl : x = y := htile
      exact (if_pos hend).symm
    | cons r =>
      have hbase : r.baseOffset = x := (hrs ▸ htile).1
      rw [← hrs]
      have hhead : (c.blocks.flatMap (·.streamRecords streamId)).head?.map
          StreamRecordBatch.baseOffset = some x := by
        rw [hrs, head?_cons, Option.map_some, hbase]
      rw [hhead]
      dsimp only
      by_cases hxe : endOffset ≤ x
      · rw [if_pos (.inl hxe), if_pos hxe]
      · have hxy : x < y := (not_le.mp hxe).trans_le hend
        rw [if_neg (not_or.mpr ⟨hxe, hx⟩), if_pos ((hread x).2.mpr ⟨le_rfl, hxy⟩), if_neg hxe]
        exact (hread x).1

end LogCache

end S3Stream
