import S3Stream.Wal.Keys
import S3Stream.Lib.Windows

/-! # WAL objects as the writer builds them

The object that one bulk becomes: a v1 header and one frame per record, at consecutive WAL
offsets (the payload loop of `upload_bulk`, `s3stream-wal/src/object/writer.rs`). -/

namespace S3Stream

/-- A record and the WAL offset its frame starts at. -/
structure WalEntry where
  offset : Nat
  record : StreamRecordBatch
  deriving DecidableEq, Repr

/-- Framed size of a record: the encoded batch and its frame header. -/
def framedSize (r : StreamRecordBatch) : Nat := r.encoded.length + walRecordHeaderSize

theorem framedSize_pos (r : StreamRecordBatch) : 0 < framedSize r := by
  simp [framedSize, walRecordHeaderSize]

namespace WalEntry

def size (e : WalEntry) : Nat := framedSize e.record

/-- The offset behind the entry's frame. -/
def stop (e : WalEntry) : Nat := e.offset + e.size

def frame (e : WalEntry) : Bytes :=
  (WalRecordHeader.data e.offset e.record.encoded.length (walCrc32 e.record.encoded)).marshal ++
    e.record.encoded

@[simp] theorem length_frame (e : WalEntry) : e.frame.length = e.size := by
  simp [frame, size, framedSize, walRecordHeaderSize]; omega

theorem length_le_flatMap_frame (es : List WalEntry) :
    es.length ≤ (es.flatMap frame).length := by
  induction es with
  | nil => exact le_refl _
  | cons e es ih =>
    have hpos := framedSize_pos e.record
    rw [List.flatMap_cons, List.length_append, e.length_frame, size, List.length_cons]
    omega

/-- The entry is the record a trim appends. -/
def IsTrimRecord (e : WalEntry) : Prop :=
  e.record.streamId = trimRecordSentinel ∧ e.record.epoch = trimRecordSentinel

instance (e : WalEntry) : Decidable e.IsTrimRecord := by unfold IsTrimRecord; infer_instance

end WalEntry

/-- Records laid out one behind the other from a base offset. -/
def layoutEntries : Nat → List StreamRecordBatch → List WalEntry
  | _, [] => []
  | offset, r :: rs => ⟨offset, r⟩ :: layoutEntries (offset + framedSize r) rs

theorem layoutEntries_tiles (base : Nat) (rs : List StreamRecordBatch) :
    Windows.Tiles WalEntry.offset WalEntry.stop base (layoutEntries base rs)
      (base + (rs.map framedSize).sum) := by
  induction rs generalizing base with
  | nil => simp [layoutEntries, Windows.Tiles]
  | cons r rs ih =>
    have hpos := framedSize_pos r
    refine ⟨rfl, ?_, ?_⟩
    · simp only [WalEntry.stop, WalEntry.size]; omega
    · simpa [WalEntry.stop, WalEntry.size, add_assoc] using ih (base + framedSize r)

/-- A WAL object: its window of the WAL, the trim watermark of its header and its entries. -/
structure WalFile where
  nodeId : Nat
  epoch : Nat
  startOffset : Nat
  endOffset : Nat
  trimOffset : Int
  entries : List WalEntry
  deriving DecidableEq, Repr

namespace WalFile

def header (f : WalFile) : WalObjectHeader :=
  WalObjectHeader.v1 f.startOffset (f.entries.map WalEntry.size).sum f.nodeId f.epoch f.trimOffset

def body (f : WalFile) : Bytes := f.entries.flatMap WalEntry.frame

def payload (f : WalFile) : Bytes := f.header.marshal ++ f.body

def key (root : Key) (f : WalFile) : Key := genObjectPathV1 root f.epoch f.startOffset f.endOffset

def info (root : Key) (f : WalFile) : ObjectInfo := ⟨f.key root, f.payload.length⟩

/-- What the writer remembers of the object, and what a listing parses to. -/
def toWalObject (root : Key) (f : WalFile) : WalObject :=
  ⟨f.key root, f.epoch, f.startOffset, f.endOffset, f.payload.length⟩

/-- The file is well formed: at least one entry, entries laid out inside the window, and every
number fits the integer type that carries it. -/
structure Valid (f : WalFile) : Prop where
  entries_ne_nil : f.entries ≠ []
  tiles : ∃ stop, Windows.Tiles WalEntry.offset WalEntry.stop f.startOffset f.entries stop ∧
    stop ≤ f.endOffset
  endOffset_lt : f.endOffset < 2 ^ 63
  inRange : ∀ e ∈ f.entries, e.record.InRange
  nodeId_lt : f.nodeId < 2 ^ 32
  epoch_lt : f.epoch < 2 ^ 64
  trimOffset_ge : -(2 ^ 63) ≤ f.trimOffset
  trimOffset_lt : f.trimOffset < 2 ^ 63

namespace Valid

variable {f : WalFile}

theorem bounds (h : f.Valid) (he : e ∈ f.entries) :
    f.startOffset ≤ e.offset ∧ e.offset < e.stop ∧ e.stop ≤ f.endOffset := by
  obtain ⟨stop, ht, hle⟩ := h.tiles
  obtain ⟨hlo, hhi⟩ := ht.bounds he
  exact ⟨hlo, ht.lo_lt_hi he, hhi.trans hle⟩

theorem start_lt_end (h : f.Valid) : f.startOffset < f.endOffset := by
  obtain ⟨e, he⟩ := List.exists_mem_of_ne_nil _ h.entries_ne_nil
  have := h.bounds he
  omega

private theorem sum_sizes (h : Windows.Tiles WalEntry.offset WalEntry.stop a es b) :
    a + (es.map WalEntry.size).sum = b := by
  induction es generalizing a with
  | nil => simpa [Windows.Tiles] using h
  | cons e es ih =>
    obtain ⟨rfl, -, hrest⟩ := h
    have := ih hrest
    simp only [WalEntry.stop] at this
    simp only [List.map_cons, List.sum_cons]
    omega

theorem header_inRange (h : f.Valid) : f.header.InRange where
  magic := rfl
  startOffset := by
    have := h.start_lt_end; have := h.endOffset_lt
    simp only [header, WalObjectHeader.v1]; omega
  bodyLength := by
    obtain ⟨stop, ht, hle⟩ := h.tiles
    have := sum_sizes ht; have := h.endOffset_lt
    simp only [header, WalObjectHeader.v1]; omega
  stickyRecordLength := Nat.pow_pos (by decide)
  nodeId := by have := h.nodeId_lt; simp only [header, WalObjectHeader.v1]; omega
  epoch := by have := h.epoch_lt; simp only [header, WalObjectHeader.v1]; omega
  trimOffset_ge := h.trimOffset_ge
  trimOffset_lt := h.trimOffset_lt

theorem drop_payload (h : f.Valid) (hsplit : f.entries = front ++ e :: back) :
    f.payload.drop (e.offset - f.startOffset + walHeaderSizeV1) =
      (e :: back).flatMap WalEntry.frame := by
  obtain ⟨stop, ht, -⟩ := h.tiles
  rw [hsplit] at ht
  obtain ⟨m, hfront, rfl, -⟩ := Windows.Tiles.append.mp ht
  have hlen : (front.flatMap WalEntry.frame).length = (front.map WalEntry.size).sum := by
    rw [List.length_flatMap]
    simp only [WalEntry.length_frame]
  have hpos : (f.header.marshal ++ front.flatMap WalEntry.frame).length =
      e.offset - f.startOffset + walHeaderSizeV1 := by
    have := sum_sizes hfront
    have hhead : f.header.marshal.length = walHeaderSizeV1 := h.header_inRange.length_marshal
    rw [List.length_append, hhead, hlen]
    omega
  rw [payload, body, hsplit, List.flatMap_append, ← List.append_assoc, Bytes.drop_front _ hpos]

theorem parseWalObject_info (h : f.Valid) (dir : Key) :
    parseWalObject (f.info (dir ++ ['/'])) = some (f.toWalObject (dir ++ ['/'])) :=
  parseWalObject_gen dir h.epoch_lt (by have := h.start_lt_end; have := h.endOffset_lt; omega)
    (by have := h.endOffset_lt; omega) _

theorem key_inj {g : WalFile} (hf : f.Valid) (hg : g.Valid)
    (h : f.key (dir ++ ['/']) = g.key (dir ++ ['/'])) :
    f.epoch = g.epoch ∧ f.startOffset = g.startOffset ∧ f.endOffset = g.endOffset := by
  have hparse : ∀ {x : WalFile}, x.Valid → parseWalObject ⟨x.key (dir ++ ['/']), 0⟩ =
      some ⟨x.key (dir ++ ['/']), x.epoch, x.startOffset, x.endOffset, 0⟩ := by
    intro x hx
    have := hx.start_lt_end
    have := hx.endOffset_lt
    exact parseWalObject_gen dir hx.epoch_lt (by omega) (by omega) 0
  have heq := (hparse hf).symm.trans (h ▸ hparse hg)
  injection heq with heq
  injection heq with _ hepoch hstart hend
  exact ⟨hepoch, hstart, hend⟩

end Valid

end WalFile

theorem entries_sorted {fs : List WalFile} (hvalid : ∀ f ∈ fs, f.Valid)
    (hord : fs.Pairwise fun f g => f.endOffset ≤ g.startOffset) :
    (fs.flatMap WalFile.entries).Pairwise fun d e => d.offset < e.offset := by
  refine List.pairwise_flatMap.mpr ⟨fun f hf => ?_, hord.imp_of_mem ?_⟩
  · obtain ⟨stop, ht, -⟩ := (hvalid f hf).tiles
    refine ht.pairwise.imp_of_mem fun hd _ hle => ?_
    exact ((hvalid f hf).bounds hd).2.1.trans_le hle
  · intro f g hf hg hle d hd e he
    have hd' := (hvalid f hf).bounds hd
    have he' := (hvalid g hg).bounds he
    omega

end S3Stream
