import S3Stream.Lib.Windows
import S3Stream.Object.Index
import S3Stream.Object.DataBlock

/-! # The object reader

`ObjectReader` of `s3stream-object/src/reader.rs`: footer and index of a committed object, and the
bytes and records of one index entry. A well-formed object is a list of `Segment`s, laid out one
behind the other under an index and a footer (`Holds`); on such an object the reader returns the
index and the records of every segment. -/

namespace S3Stream

open List Bytes DataBlockIndex

def footerSize : Nat := 48

def footerMagic : Nat := 0x88E241B785F4CFF7

/-- Position and length of the index block, reserved zeros and the magic. -/
def footer (indexPosition indexSize : Nat) : Bytes :=
  Bytes.ofNat 8 indexPosition ++ (Bytes.ofNat 4 (asU32 indexSize) ++
    (List.replicate (40 - 8 - 4) 0 ++ Bytes.ofNat 8 footerMagic))

def footerGeometry (indexPosition indexSize objectSize : Nat) : String :=
  s!"footer geometry: index at {indexPosition}+{indexSize} + footer != size {objectSize}"

structure BasicObjectInfo where
  dataBlockSize : Nat
  indexBlock : IndexBlock
  deriving DecidableEq

namespace ObjectReader

variable (s : Storage) (m : S3ObjectMetadata)

/-- Fetch and parse the footer and the index block. The sums are those of `u64` in a release build;
with overflow checks a sum that wraps panics. -/
def basicObjectInfo : Except ObjectError BasicObjectInfo :=
  if m.objectSize < footerSize then
    .error (.invalidFormat s!"object size {m.objectSize} smaller than footer")
  else do
    let footer ← s.rangeRead m.key (m.objectSize - footerSize) (some m.objectSize)
    if footer.length ≠ footerSize then
      .error (.invalidFormat s!"footer read returned {footer.length} bytes")
    else
      let magic := Bytes.toNat (footer.field 40 8)
      if magic ≠ footerMagic then
        .error (.invalidFormat s!"footer magic mismatch: {hexLiteral magic}")
      else
        let indexPosition := Bytes.toNat (footer.field 0 8)
        let indexSize := Bytes.toNat (footer.field 8 4)
        if (indexPosition + indexSize + footerSize) % 2 ^ 64 ≠ m.objectSize then
          .error (.invalidFormat (footerGeometry indexPosition indexSize m.objectSize))
        else do
          let indexBytes ← s.rangeRead m.key indexPosition
            (some ((indexPosition + indexSize) % 2 ^ 64))
          let indexBlock ← IndexBlock.parse indexBytes
          return ⟨indexPosition, indexBlock⟩

def find (streamId startOffset endOffset maxBytes : Nat) :
    Except ObjectError IndexBlock.FindIndexResult := do
  let info ← basicObjectInfo s m
  return info.indexBlock.find streamId startOffset endOffset maxBytes

def readBlock (index : DataBlockIndex) : Except ObjectError Bytes :=
  s.rangeRead m.key index.startPosition (some index.endPosition)

def readRecords (index : DataBlockIndex) : Except ObjectError (List StreamRecordBatch) := do
  decodeDataBlock (← readBlock s m index)

end ObjectReader

/-! ## Well-formed objects -/

/-- An index entry with the bytes it covers and the records they decode to. -/
structure Segment where
  index : DataBlockIndex
  body : Bytes
  records : List StreamRecordBatch
  fits : index.Fits
  size_eq : index.size = body.length
  decode_eq : decodeDataBlock body = .ok records

namespace Segment

/-- The segments lie one behind the other from position `pos`, numbered from `i`. -/
def Laid : Nat → Nat → List Segment → Prop
  | _, _, [] => True
  | i, pos, g :: gs => g.index.blockId = asI32 i ∧ g.index.startPosition = pos ∧
      Laid (i + 1) (pos + g.body.length) gs

def dataSection (gs : List Segment) : Bytes := gs.flatMap body

def indexBlock (gs : List Segment) : IndexBlock := ⟨gs.map index⟩

def objectBytes (gs : List Segment) : Bytes :=
  dataSection gs ++ ((indexBlock gs).encode ++
    footer (dataSection gs).length (indexBlock gs).encode.length)

/-- Every body is shorter than `2 ^ 32` bytes. -/
theorem length_dataSection_le (gs : List Segment) :
    (dataSection gs).length ≤ gs.length * 2 ^ 32 := by
  induction gs with
  | nil => simp [dataSection]
  | cons g gs ih =>
    have hsize := g.fits.2.2.2.2
    rw [g.size_eq] at hsize
    simp only [dataSection, flatMap_cons, length_append, length_cons] at ih ⊢
    omega

variable {i pos : Nat} {gs : List Segment} {g : Segment}

theorem Laid.blockId_eq (h : Laid i pos gs) (hk : gs[k]? = some g) :
    g.index.blockId = asI32 (i + k) := by
  induction gs generalizing i pos k with
  | nil => simp at hk
  | cons x gs ih =>
    obtain ⟨hid, -, hrest⟩ := h
    cases k with
    | zero =>
      cases hk
      exact hid
    | succ k =>
      rw [ih hrest (by simpa using hk)]
      congr 1
      omega

theorem Laid.numbered (h : Laid 0 pos gs) : IndexBlock.Numbered (indexBlock gs).entries := by
  intro k e hk
  rw [indexBlock, getElem?_map] at hk
  obtain ⟨g, hg, rfl⟩ := Option.map_eq_some_iff.mp hk
  rw [h.blockId_eq hg, zero_add]

theorem Laid.tiles (h : Laid i pos gs) (hne : ∀ g ∈ gs, g.body ≠ []) :
    Windows.Tiles startPosition endPosition pos (gs.map index)
      (pos + (dataSection gs).length) := by
  induction gs generalizing i pos with
  | nil => simp [Windows.Tiles, dataSection]
  | cons g gs ih =>
    obtain ⟨-, hpos, hrest⟩ := h
    have hbody : 0 < g.body.length := length_pos_iff.mpr (hne g mem_cons_self)
    have hend : g.index.endPosition = pos + g.body.length := by
      rw [endPosition, hpos, g.size_eq]
    refine ⟨hpos, by omega, ?_⟩
    have hih := ih hrest fun x hx => hne x (mem_cons_of_mem g hx)
    rw [hend]
    simpa [dataSection, add_assoc] using hih

theorem Laid.startPosition_le (h : Laid i pos gs) (hg : g ∈ gs) :
    g.index.startPosition ≤ pos + (dataSection gs).length := by
  induction gs generalizing i pos with
  | nil => cases hg
  | cons x gs ih =>
    obtain ⟨-, hpos, hrest⟩ := h
    rw [dataSection, flatMap_cons, length_append]
    rcases mem_cons.mp hg with rfl | hg
    · omega
    · have hle := ih hrest hg
      rw [dataSection] at hle
      omega

theorem Laid.take_drop (h : Laid i pos gs) (hg : g ∈ gs) (before rest : Bytes)
    (hbefore : before.length = pos) :
    ((before ++ (dataSection gs ++ rest)).drop g.index.startPosition).take g.index.size =
      g.body := by
  induction gs generalizing i pos before with
  | nil => cases hg
  | cons x gs ih =>
    obtain ⟨-, hpos, hrest⟩ := h
    rcases mem_cons.mp hg with rfl | hg
    · rw [drop_front _ (by rw [hbefore, hpos]), dataSection, flatMap_cons,
        append_assoc, take_front _ g.size_eq.symm]
    · have := ih hrest hg (before ++ x.body) (by rw [length_append, hbefore])
      simpa [dataSection, append_assoc] using this

end Segment

/-- The object `m` is in the storage and consists of the segments. -/
structure Holds (s : Storage) (m : S3ObjectMetadata) (gs : List Segment) : Prop where
  laid : Segment.Laid 0 0 gs
  stored : s.lookup m.key = some (Segment.objectBytes gs)
  size_eq : m.objectSize = (Segment.objectBytes gs).length
  indexFits : (Segment.indexBlock gs).encode.length < 2 ^ 32

@[simp] theorem length_footer (p n : Nat) : (footer p n).length = footerSize := by
  simp [footer, footerSize]

theorem fields_footer (p n : Nat) :
    field 40 8 (footer p n) = ofNat 8 footerMagic ∧
      field 0 8 (footer p n) = ofNat 8 p ∧
      field 8 4 (footer p n) = ofNat 4 (asU32 n) := by
  have hmagic : field 0 8 (ofNat 8 footerMagic) = ofNat 8 footerMagic := field_all (length_ofNat ..)
  refine ⟨?_, ?_, ?_⟩ <;>
    simp [footer, field_skip, field_front, hmagic, -reduceReplicate]

/-- What the reader finds behind the data section of an object: the footer, whatever the length
of the index. -/
theorem ObjectReader.basicObjectInfo_of_footer
    (hstored : s.lookup m.key = some (data ++ (index ++ footer data.length index.length)))
    (hsize : m.objectSize = data.length + index.length + footerSize) (hlt : m.objectSize < 2 ^ 64) :
    ObjectReader.basicObjectInfo s m =
      if asU32 index.length ≠ index.length then
        .error (.invalidFormat (footerGeometry data.length (asU32 index.length) m.objectSize))
      else do
        let indexBlock ← IndexBlock.parse index
        return ⟨data.length, indexBlock⟩ := by
  obtain ⟨fmagic, fposition, fsize⟩ := fields_footer data.length index.length
  have hfooter : s.rangeRead m.key (m.objectSize - footerSize) (some m.objectSize) =
      .ok (footer data.length index.length) := by
    rw [Storage.rangeRead_of_lookup hstored, Option.getD_some, hsize, Nat.add_sub_cancel,
      Nat.add_sub_cancel_left, ← append_assoc, drop_front _ (length_append ..),
      take_of_length_le (by simp)]
  have hindex : s.rangeRead m.key data.length (some (data.length + index.length)) = .ok index := by
    rw [Storage.rangeRead_of_lookup hstored, Option.getD_some, drop_front _ rfl,
      Nat.add_sub_cancel_left, take_front _ rfl]
  have hmagic : toNat (ofNat 8 footerMagic) = footerMagic := by decide
  have hlen : toNat (ofNat 4 (asU32 index.length)) = asU32 index.length :=
    toNat_ofNat_of_lt (Nat.mod_lt _ (by norm_num))
  rw [ObjectReader.basicObjectInfo, if_neg (by omega), hfooter]
  dsimp only [bind, Except.bind]
  rw [if_neg (by simp)]
  have hcast : asU32 index.length ≤ index.length := Nat.mod_le _ _
  have hsum : (data.length + asU32 index.length + footerSize) % 2 ^ 64 =
      data.length + asU32 index.length + footerSize := Nat.mod_eq_of_lt (by omega)
  rw [fmagic, hmagic, if_neg (by simp), fposition, toNat_ofNat_of_lt (by omega), fsize, hlen, hsum]
  by_cases hfits : asU32 index.length = index.length
  · have hend : (data.length + index.length) % 2 ^ 64 = data.length + index.length :=
      Nat.mod_eq_of_lt (by omega)
    rw [hfits, if_neg (by rw [hsize]; simp), if_neg (by simp), hend, hindex]
  · rw [if_pos (by rw [hsize]; omega), if_pos hfits]

namespace Holds

variable {s : Storage} {m : S3ObjectMetadata} {gs : List Segment} {g : Segment}

theorem length_gs_lt (h : Holds s m gs) : gs.length < 2 ^ 27 := by
  have hfits := h.indexFits
  rw [IndexBlock.length_encode] at hfits
  simp only [Segment.indexBlock, length_map, blockIndexSize] at hfits
  omega

/-- **The reader parses a well-formed object.** -/
theorem basicObjectInfo (h : Holds s m gs) : ObjectReader.basicObjectInfo s m =
    .ok ⟨(Segment.dataSection gs).length, Segment.indexBlock gs⟩ := by
  have hdata : (Segment.dataSection gs).length < 2 ^ 59 := by
    have hlt := h.length_gs_lt
    have hle := Segment.length_dataSection_le gs
    omega
  have hindex := h.indexFits
  have hsize := h.size_eq
  simp only [Segment.objectBytes, length_append, length_footer, ← add_assoc] at hsize
  have hrange : ∀ e ∈ (Segment.indexBlock gs).entries, e.Fits ∧ e.startPosition < 256 ^ 8 := by
    intro e he
    obtain ⟨g, hg, rfl⟩ := mem_map.mp he
    have hpos := h.laid.startPosition_le hg
    exact ⟨g.fits, by omega⟩
  have hlt : m.objectSize < 2 ^ 64 := by
    rw [hsize, footerSize]
    omega
  rw [ObjectReader.basicObjectInfo_of_footer h.stored hsize hlt,
    if_neg (not_not.mpr (asU32_of_lt h.indexFits)), IndexBlock.parse_encode hrange h.laid.numbered]
  rfl

theorem readBlock (h : Holds s m gs) (hg : g ∈ gs) :
    ObjectReader.readBlock s m g.index = .ok g.body := by
  have hread := h.laid.take_drop hg [] ((Segment.indexBlock gs).encode ++
    footer (Segment.dataSection gs).length (Segment.indexBlock gs).encode.length) rfl
  rw [ObjectReader.readBlock, Storage.rangeRead_of_lookup h.stored, Option.getD_some,
    endPosition, Nat.add_sub_cancel_left]
  exact congrArg _ hread

theorem readRecords (h : Holds s m gs) (hg : g ∈ gs) :
    ObjectReader.readRecords s m g.index = .ok g.records := by
  rw [ObjectReader.readRecords, h.readBlock hg]
  exact g.decode_eq

end Holds

end S3Stream
