import S3Stream.Object.Metadata

/-! # The index block

`s3stream-object/src/index.rs`: one 36-byte entry for each data block group of an object, and the
lookup of the entries that cover an offset range of a stream. -/

namespace S3Stream

open List Bytes

def blockIndexSize : Nat := 36

/-- One index entry. `blockId` is the reader's ordinal and is not encoded. -/
structure DataBlockIndex where
  blockId : Int
  streamId : Nat
  startOffset : Nat
  endOffsetDelta : Nat
  recordCount : Nat
  startPosition : Nat
  size : Nat
  deriving DecidableEq, Repr

namespace DataBlockIndex

def endOffset (e : DataBlockIndex) : Nat := e.startOffset + e.endOffsetDelta

def endPosition (e : DataBlockIndex) : Nat := e.startPosition + e.size

/-- The fields other than the position fit the integer types of the source. -/
def Fits (e : DataBlockIndex) : Prop :=
  e.streamId < 256 ^ 8 ∧ e.startOffset < 256 ^ 8 ∧ e.endOffsetDelta < 256 ^ 4 ∧
    e.recordCount < 256 ^ 4 ∧ e.size < 256 ^ 4

instance (e : DataBlockIndex) : Decidable e.Fits := by
  unfold Fits; infer_instance

def encode (e : DataBlockIndex) : Bytes :=
  Bytes.ofNat 8 e.streamId ++ (Bytes.ofNat 8 e.startOffset ++ (Bytes.ofNat 4 e.endOffsetDelta ++
    (Bytes.ofNat 4 e.recordCount ++ (Bytes.ofNat 8 e.startPosition ++ Bytes.ofNat 4 e.size))))

def decode (blockId : Int) (buf : Bytes) : Except ObjectError DataBlockIndex :=
  if buf.length < blockIndexSize then
    .error (.invalidFormat s!"index entry needs {blockIndexSize} bytes, have {buf.length}")
  else .ok
    { blockId
      streamId := Bytes.toNat (buf.field 0 8)
      startOffset := Bytes.toNat (buf.field 8 8)
      endOffsetDelta := Bytes.toNat (buf.field 16 4)
      recordCount := Bytes.toNat (buf.field 20 4)
      startPosition := Bytes.toNat (buf.field 24 8)
      size := Bytes.toNat (buf.field 32 4) }

@[simp] theorem length_encode (e : DataBlockIndex) : e.encode.length = blockIndexSize := by
  simp [encode, blockIndexSize]

private theorem fields_encode (e : DataBlockIndex) (rest : Bytes) :
    field 0 8 (e.encode ++ rest) = ofNat 8 e.streamId ∧
      field 8 8 (e.encode ++ rest) = ofNat 8 e.startOffset ∧
      field 16 4 (e.encode ++ rest) = ofNat 4 e.endOffsetDelta ∧
      field 20 4 (e.encode ++ rest) = ofNat 4 e.recordCount ∧
      field 24 8 (e.encode ++ rest) = ofNat 8 e.startPosition ∧
      field 32 4 (e.encode ++ rest) = ofNat 4 e.size := by
  simp only [encode, append_assoc]
  refine ⟨?_, ?_, ?_, ?_, ?_, ?_⟩ <;> simp [field_skip, field_front]

/-- An encoded entry at the front of a buffer decodes to itself under the reader's ordinal. -/
theorem decode_encode {e : DataBlockIndex} (h : e.Fits) (hpos : e.startPosition < 256 ^ 8)
    (blockId : Int) (rest : Bytes) :
    decode blockId (e.encode ++ rest) = .ok { e with blockId } := by
  obtain ⟨hstream, hstart, hdelta, hcount, hsize⟩ := h
  obtain ⟨fstream, fstart, fdelta, fcount, fpos, fsize⟩ := fields_encode e rest
  have hlen : ¬ (e.encode ++ rest).length < blockIndexSize := by simp
  simp only [decode, hlen, if_false, fstream, fstart, fdelta, fcount, fpos, fsize,
    toNat_ofNat_of_lt hstream, toNat_ofNat_of_lt hstart,
    toNat_ofNat_of_lt hdelta, toNat_ofNat_of_lt hcount,
    toNat_ofNat_of_lt hpos, toNat_ofNat_of_lt hsize]

def withBlockId (e : DataBlockIndex) (blockId : Int) : DataBlockIndex := { e with blockId }

theorem blockId_withBlockId (e : DataBlockIndex) (blockId : Int) :
    (e.withBlockId blockId).blockId = blockId := rfl

theorem fits_withBlockId {e : DataBlockIndex} (blockId : Int)
    (h : e.Fits ∧ e.startPosition < 256 ^ 8) :
    (e.withBlockId blockId).Fits ∧ (e.withBlockId blockId).startPosition < 256 ^ 8 := h

theorem encode_withBlockId (e : DataBlockIndex) (blockId : Int) :
    (e.withBlockId blockId).encode = e.encode := rfl

end DataBlockIndex

structure IndexBlock where
  entries : List DataBlockIndex
  deriving DecidableEq, Repr

namespace IndexBlock

def parse (data : Bytes) : Except ObjectError IndexBlock :=
  if data.length % blockIndexSize ≠ 0 then
    .error (.invalidFormat
      s!"index block length {data.length} not a multiple of {blockIndexSize}")
  else do
    let entries ← (List.range (data.length / blockIndexSize)).mapM fun i =>
      DataBlockIndex.decode (asI32 i) (data.drop (i * blockIndexSize))
    return ⟨entries⟩

def encode (b : IndexBlock) : Bytes := b.entries.flatMap DataBlockIndex.encode

/-- The entries carry the ordinals a reader gives them. -/
def Numbered (entries : List DataBlockIndex) : Prop :=
  ∀ i e, entries[i]? = some e → e.blockId = asI32 i

@[simp] theorem length_encode (b : IndexBlock) :
    b.encode.length = b.entries.length * blockIndexSize :=
  length_flatMap fun e _ => e.length_encode

/-- A loop that succeeds at every element collects the results. -/
theorem mapM_eq_ok {f : α → Except ε β} {g : α → β} {xs : List α} (h : ∀ x ∈ xs, f x = .ok (g x)) :
    xs.mapM f = .ok (xs.map g) := by
  induction xs with
  | nil => rfl
  | cons x xs ih =>
    rw [mapM_cons, h x mem_cons_self, ih fun y hy => h y (mem_cons_of_mem x hy)]
    rfl

theorem mapM_map_eq_ok {f : β → Except ε γ} {k : α → β} {g : α → γ} {xs : List α}
    (h : ∀ x ∈ xs, f (k x) = .ok (g x)) : (xs.map k).mapM f = .ok (xs.map g) := by
  rw [mapM_map]
  exact mapM_eq_ok h

/-- **Round trip** of the index block. -/
theorem parse_encode (h : ∀ e ∈ b.entries, e.Fits ∧ e.startPosition < 256 ^ 8)
    (hnum : Numbered b.entries) : parse b.encode = .ok b := by
  have hcount : b.encode.length / blockIndexSize = b.entries.length := by
    rw [length_encode, Nat.mul_div_cancel _ (by decide)]
  have hdecode : ∀ i ∈ range b.entries.length,
      DataBlockIndex.decode (asI32 i) (b.encode.drop (i * blockIndexSize)) =
        .ok (b.entries.getD i ⟨0, 0, 0, 0, 0, 0, 0⟩) := by
    intro i hi
    have hi := mem_range.mp hi
    have hid := hnum i _ (getElem?_eq_getElem hi)
    obtain ⟨hfits, hpos⟩ := h _ (getElem_mem hi)
    rw [encode, drop_flatMap (fun e _ => e.length_encode), drop_eq_getElem_cons hi,
      flatMap_cons, DataBlockIndex.decode_encode hfits hpos, ← hid,
      getD_eq_getElem?_getD, getElem?_eq_getElem hi, Option.getD_some]
  have hcollect : (range b.entries.length).map
      (b.entries.getD · ⟨0, 0, 0, 0, 0, 0, 0⟩) = b.entries := by
    apply ext_getElem
    · simp
    · intro i hi₁ hi₂
      simp [hi₂]
  rw [parse, if_neg (by simp), hcount, mapM_eq_ok hdecode, hcollect]
  rfl

/-- The entries as the parser numbers them. -/
def numbered (entries : List DataBlockIndex) : List DataBlockIndex :=
  entries.mapIdx fun i e => e.withBlockId (asI32 i)

theorem encode_numbered (entries : List DataBlockIndex) :
    (⟨numbered entries⟩ : IndexBlock).encode = (⟨entries⟩ : IndexBlock).encode := by
  have hmap : (numbered entries).map DataBlockIndex.encode = entries.map DataBlockIndex.encode := by
    apply ext_getElem?
    intro i
    rw [numbered, getElem?_map, getElem?_mapIdx, getElem?_map, Option.map_map]
    exact congrArg (Option.map · _) (funext fun e => e.encode_withBlockId _)
  rw [encode, encode, flatMap_def, flatMap_def, hmap]

/-- The numbers are not part of the encoding; the parser gives the entries new ones. -/
theorem parse_encode_numbered {entries : List DataBlockIndex}
    (h : ∀ e ∈ entries, e.Fits ∧ e.startPosition < 256 ^ 8) :
    parse (⟨entries⟩ : IndexBlock).encode = .ok ⟨numbered entries⟩ := by
  rw [← encode_numbered]
  refine parse_encode (fun e he => ?_) fun i e he => ?_
  · obtain ⟨i, hi, rfl⟩ := mem_mapIdx.mp he
    exact DataBlockIndex.fits_withBlockId _ (h _ (getElem_mem hi))
  · rw [numbered, getElem?_mapIdx] at he
    obtain ⟨e', -, he'⟩ := Option.map_eq_some_iff.mp he
    rw [← he', DataBlockIndex.blockId_withBlockId]

/-! ## Lookup -/

/-- Binary search for the entry that contains `(streamId, offset)`; `hi` is exclusive here. An
error carries the insertion point. Every round halves the window, which `fuel` bounds. -/
def searchLoop (entries : List DataBlockIndex) (streamId offset : Nat) :
    Nat → Nat → Nat → Except Nat Nat
  | 0, lo, _ => .error lo
  | fuel + 1, lo, hi =>
    if lo < hi then
      let mid := (lo + (hi - 1)) / 2
      match entries[mid]? with
      | none => .error lo
      | some e =>
        if e.streamId < streamId ∨ (e.streamId = streamId ∧ e.endOffset ≤ offset) then
          searchLoop entries streamId offset fuel (mid + 1) hi
        else if streamId < e.streamId ∨ (e.streamId = streamId ∧ offset < e.startOffset) then
          searchLoop entries streamId offset fuel lo mid
        else .ok mid
    else .error lo

def search (b : IndexBlock) (streamId offset : Nat) : Except Nat Nat :=
  searchLoop b.entries streamId offset b.entries.length 0 b.entries.length

/-- What a lookup returns; an unfulfilled one goes on in the next object. -/
structure FindIndexResult where
  fulfilled : Bool
  nextStartOffset : Nat
  nextMaxBytes : Nat
  blocks : List DataBlockIndex
  deriving DecidableEq, Repr

/-- The payload bytes of a block, by its size and record count. -/
def recordPayloadSize (e : DataBlockIndex) : Nat := e.size - e.recordCount * 33 - 10

/-- The scan from the first matching entry. A partial first block is not charged. -/
def findLoop (streamId endOffset : Nat) :
    List DataBlockIndex → Bool → FindIndexResult → FindIndexResult
  | [], _, r => r
  | e :: es, matched, r =>
    if e.streamId = streamId then
      if r.nextStartOffset < e.startOffset then r
      else if e.endOffset ≤ r.nextStartOffset then findLoop streamId endOffset es matched r
      else
        let matched := decide (r.nextStartOffset = e.startOffset)
        let nextMaxBytes :=
          if matched then r.nextMaxBytes - min r.nextMaxBytes (recordPayloadSize e)
          else r.nextMaxBytes
        let r := { r with nextStartOffset := e.endOffset, nextMaxBytes, blocks := r.blocks ++ [e] }
        if (endOffset ≠ noopOffset ∧ endOffset ≤ r.nextStartOffset) ∨ nextMaxBytes = 0 then
          { r with fulfilled := true }
        else findLoop streamId endOffset es matched r
    else if matched then r
    else findLoop streamId endOffset es matched r

def find (b : IndexBlock) (streamId startOffset endOffset maxBytes : Nat) : FindIndexResult :=
  match b.search streamId startOffset with
  | .error _ => ⟨false, startOffset, maxBytes, []⟩
  | .ok startIndex =>
    findLoop streamId endOffset (b.entries.drop startIndex) false
      ⟨false, startOffset, maxBytes, []⟩

end IndexBlock

end S3Stream
