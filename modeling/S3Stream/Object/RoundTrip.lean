import S3Stream.Object.Writer

/-! # Round trip of an object

Every sequence of accepted `write` calls leaves blocks whose records are the records of the calls,
in order (`Written`). `close` turns them into a well-formed object, so the reader finds the index
sorted and tiling the data section, and reads back for every stream exactly the records written
for it. -/

namespace S3Stream

open List ObjectReader
open DataBlock (encoded indexes new size)

/-- The records of one call or one block, each with its stream. -/
def tagged (x : Nat × List StreamRecordBatch) : List (Nat × StreamRecordBatch) :=
  x.2.map (x.1, ·)

/-- Stream ids do not go back, and ranges of one stream do not overlap. -/
def Precedes (p q : Nat × StreamRecordBatch) : Prop :=
  p.1 < q.1 ∨ (p.1 = q.1 ∧ p.2.lastOffset ≤ q.2.baseOffset)

theorem Precedes.trans (h : Precedes p q) (h' : Precedes q r) : Precedes p r := by
  have hq := q.2.baseOffset_le_lastOffset
  unfold Precedes at *
  omega

instance : Trans Precedes Precedes Precedes := ⟨Precedes.trans⟩

theorem flatMap_filter_stream (xs : List (Nat × List StreamRecordBatch)) (streamId : Nat) :
    (xs.filter (·.1 = streamId)).flatMap (·.2) =
      ((xs.flatMap tagged).filter (·.1 = streamId)).map (·.2) := by
  induction xs with
  | nil => rfl
  | cons x xs ih =>
    rw [flatMap_cons, filter_append, map_append, ← ih, tagged, filter_map, map_map]
    by_cases hx : x.1 = streamId
    · rw [filter_cons_of_pos (by simpa using hx), flatMap_cons]
      congr 1
      simp [Function.comp_def, hx]
    · rw [filter_cons_of_neg (by simpa using hx)]
      simp [Function.comp_def, hx]

/-! ## The blocks of a sequence of calls -/

/-- What accepted calls leave: blocks of non-empty groups that hold the records of the calls in
order, and the cursor behind the last record. -/
structure Written (w : ObjectWriter) (writes groups : List (Nat × List StreamRecordBatch)) :
    Prop where
  uploaded : w.Uploaded
  blocks_eq : w.blocks = groups.map fun g => new g.1 g.2
  group_ne : ∀ g ∈ groups, g.2 ≠ []
  records_eq : groups.flatMap tagged = writes.flatMap tagged
  last_eq : w.last = (writes.flatMap tagged).getLast?.map fun p => (p.1, p.2.lastOffsetU64)

/-- The check compares the first record of a call with the last one of the calls before it. -/
theorem ObjectWriter.check_eq_ok {w : ObjectWriter} {last : Option (Nat × Nat)}
    (h : w.check streamId (first :: rest) = ({ w with last }, .ok ())) :
    last = some (streamId, ((first :: rest).getLast (cons_ne_nil _ _)).lastOffsetU64) ∧
      ∀ p, w.last = some p → p.1 < streamId ∨ (p.1 = streamId ∧ p.2 ≤ first.baseOffset) := by
  unfold check at h
  dsimp only at h
  split at h
  · rename_i hlast
    exact ⟨(congrArg (·.1.last) h).symm, fun p hp => by rw [hlast] at hp; cases hp⟩
  · rename_i lastStreamId lastEndOffset hlast
    split at h
    · cases congrArg Prod.snd h
    split at h
    · cases congrArg Prod.snd h
    refine ⟨(congrArg (·.1.last) h).symm, fun p hp => ?_⟩
    rw [hlast] at hp
    cases hp
    dsimp only
    omega

theorem Written.write (h : Written w writes groups)
    (hwrite : w.write streamId records = (w', .ok ())) :
    ∃ more, Written w' (writes ++ [(streamId, records)]) (groups ++ more) ∧
      ∀ g ∈ more, ∀ r ∈ g.2, r ∈ records := by
  obtain ⟨hcheck, -, huploaded, hblocks⟩ := ObjectWriter.write_eq_ok hwrite
  have hflatten := ObjectWriter.flatten_groupByBlock w.blockSizeThreshold records w.groupAcc []
  have hne : ∀ g ∈ (ObjectWriter.groupByBlock w.blockSizeThreshold records w.groupAcc []).1,
      g ≠ [] := fun g hg => ObjectWriter.ne_nil_of_mem_groupByBlock hg
  set cut := (ObjectWriter.groupByBlock w.blockSizeThreshold records w.groupAcc []).1
  rw [nil_append] at hflatten
  have htagged : (cut.map (streamId, ·)).flatMap tagged = tagged (streamId, records) := by
    rw [flatMap_map, flatMap_def, tagged, ← hflatten, map_flatten]
    rfl
  have hsub : ∀ g ∈ cut.map (streamId, ·), ∀ r ∈ g.2, r ∈ records := by
    intro g hg r hr
    obtain ⟨x, hx, rfl⟩ := mem_map.mp hg
    exact hflatten ▸ mem_flatten.mpr ⟨x, hx, hr⟩
  refine ⟨cut.map (streamId, ·), ⟨huploaded h.uploaded, ?_, ?_, ?_, ?_⟩, hsub⟩
  · rw [hblocks, h.blocks_eq, map_append, map_map]
    rfl
  · intro g hg
    rcases mem_append.mp hg with hg | hg
    · exact h.group_ne g hg
    · obtain ⟨x, hx, rfl⟩ := mem_map.mp hg
      exact hne x hx
  · rw [flatMap_append, flatMap_append, h.records_eq, htagged, flatMap_singleton]
  · rw [flatMap_append, flatMap_singleton]
    cases records with
    | nil =>
      have hlast : w.last = w'.last := congrArg (·.1.last) hcheck
      rw [← hlast, h.last_eq]
      simp [tagged]
    | cons first rest =>
      have hlast : (tagged (streamId, first :: rest)).getLast? =
          some (streamId, (first :: rest).getLast (cons_ne_nil _ _)) := by
        rw [tagged, getLast?_map, getLast?_eq_some_getLast (cons_ne_nil _ _)]
        rfl
      rw [(ObjectWriter.check_eq_ok hcheck).1, getLast?_append, hlast]
      rfl

theorem Written.writeAll (h : Written w done groups) (hwrites : w.writeAll writes = .ok w') :
    ∃ more, Written w' (done ++ writes) (groups ++ more) ∧
      ∀ g ∈ more, ∃ x ∈ writes, ∀ r ∈ g.2, r ∈ x.2 := by
  induction writes generalizing w done groups with
  | nil =>
    cases hwrites
    exact ⟨[], by simpa using h, fun g hg => absurd hg not_mem_nil⟩
  | cons x writes ih =>
    rw [ObjectWriter.writeAll] at hwrites
    split at hwrites
    · cases hwrites
    · rename_i w₁ hw₁
      obtain ⟨more₁, h₁, hmore₁⟩ := h.write hw₁
      obtain ⟨more₂, h₂, hmore₂⟩ := ih h₁ hwrites
      refine ⟨more₁ ++ more₂, by simpa using h₂, fun g hg => ?_⟩
      rcases mem_append.mp hg with hg | hg
      · exact ⟨x, mem_cons_self, hmore₁ g hg⟩
      · obtain ⟨y, hy, hgy⟩ := hmore₂ g hg
        exact ⟨y, mem_cons_of_mem x hy, hgy⟩

/-- The records of a call follow one another, and their offsets do not wrap. -/
def Unwrapped (records : List StreamRecordBatch) : Prop :=
  (records.Pairwise fun r r' => r.lastOffset ≤ r'.baseOffset) ∧
    ∀ r ∈ records, r.lastOffset < 2 ^ 64

theorem Written.ordered (h : Written w done groups) (hwrites : w.writeAll writes = .ok w')
    (hdone : (done.flatMap tagged).Pairwise Precedes)
    (hcalls : ∀ x ∈ done ++ writes, Unwrapped x.2) :
    ((done ++ writes).flatMap tagged).Pairwise Precedes := by
  induction writes generalizing w done groups with
  | nil => rwa [append_nil]
  | cons x writes ih =>
    rw [ObjectWriter.writeAll] at hwrites
    split at hwrites
    · cases hwrites
    rename_i w₁ hw₁
    obtain ⟨more, h₁, -⟩ := h.write hw₁
    have hassoc : done ++ x :: writes = (done ++ [x]) ++ writes := by simp
    rw [hassoc] at hcalls ⊢
    refine ih h₁ hwrites ?_ hcalls
    have hx := (hcalls x (by simp)).1
    have hpairs : (tagged x).Pairwise Precedes :=
      pairwise_map.mpr (hx.imp fun hle => .inr ⟨rfl, hle⟩)
    rw [flatMap_append, flatMap_singleton]
    -- The order is transitive, so it is enough to compare neighbours, and the check has.
    rw [← isChain_iff_pairwise] at hpairs hdone ⊢
    refine hdone.append hpairs fun p hp q hq => ?_
    obtain ⟨y, hy, hpy⟩ := mem_flatMap.mp (mem_of_getLast? hp)
    obtain ⟨r, hr, rfl⟩ := mem_map.mp hpy
    have hlt : r.lastOffset < 2 ^ 64 := (hcalls y (by simp [hy])).2 r hr
    have hlast : w.last = some (y.1, r.lastOffset) := by
      rw [h.last_eq, hp, Option.map_some, StreamRecordBatch.lastOffsetU64, Nat.mod_eq_of_lt hlt]
    obtain ⟨streamId, records⟩ := x
    cases records with
    | nil => cases hq
    | cons =>
      cases hq
      exact (ObjectWriter.check_eq_ok (ObjectWriter.write_eq_ok hw₁).1).2 _ hlast

theorem written_open_ (objectId b p : Nat) : Written (ObjectWriter.open_ objectId b p) [] [] where
  uploaded := rfl
  blocks_eq := rfl
  group_ne := nofun
  records_eq := rfl
  last_eq := rfl

/-! ## The closed object -/

/-- A group whose block and offset span fit the 32-bit fields of the format. -/
structure GroupFits (g : Nat × List StreamRecordBatch) : Prop where
  ne : g.2 ≠ []
  streamId_lt : g.1 < 256 ^ 8
  inRange : ∀ r ∈ g.2, r.InRange
  size_lt : (new g.1 g.2).size < 2 ^ 32
  span_le : (new g.1 g.2).startOffset ≤ (new g.1 g.2).endOffset
  span_lt : (new g.1 g.2).endOffset - (new g.1 g.2).startOffset < 2 ^ 32

/-- What of this is needed to read the records back. -/
structure GroupSized (g : Nat × List StreamRecordBatch) : Prop where
  ne : g.2 ≠ []
  streamId_lt : g.1 < 256 ^ 8
  inRange : ∀ r ∈ g.2, r.InRange
  size_lt : (new g.1 g.2).size < 2 ^ 32

theorem GroupFits.sized (h : GroupFits g) : GroupSized g :=
  ⟨h.ne, h.streamId_lt, h.inRange, h.size_lt⟩

/-- What the reader learns about a segment. -/
def Segment.view (g : Segment) : Nat × Nat × Nat × List StreamRecordBatch :=
  (g.index.streamId, g.index.startOffset, g.index.endOffset, g.records)

/-- The same of a block of the writer. -/
def groupView (g : Nat × List StreamRecordBatch) : Nat × Nat × Nat × List StreamRecordBatch :=
  (g.1, (new g.1 g.2).startOffset, (new g.1 g.2).endOffset, g.2)

theorem sum_map_size (bs : List DataBlock) :
    (bs.map size).sum = (bs.flatMap encoded).length := by
  induction bs with
  | nil => rfl
  | cons b bs ih => simp [ih, size]

/-- The ordinals are not encoded. -/
theorem encode_indexes (f f' : Nat → Int) (i pos : Nat) (bs : List DataBlock) :
    (⟨indexes f i pos bs⟩ : IndexBlock).encode =
      (⟨indexes f' i pos bs⟩ : IndexBlock).encode := by
  induction bs generalizing i pos with
  | nil => rfl
  | cons b bs ih =>
    simp only [IndexBlock.encode, indexes, flatMap_cons] at ih ⊢
    rw [ih]
    rfl

theorem GroupSized.startOffset_lt (h : GroupSized g) :
    (new g.1 g.2).startOffset < 256 ^ 8 := by
  obtain ⟨r, rs, hr⟩ := exists_cons_of_ne_nil h.ne
  have hbase := (h.inRange r (by rw [hr]; exact mem_cons_self)).2.2.1
  simpa [new, hr] using hbase

def Segment.ofGroup {g : Nat × List StreamRecordBatch} (h : GroupSized g) (i pos : Nat) :
    Segment where
  index :=
    { blockId := asI32 i
      streamId := g.1
      startOffset := (new g.1 g.2).startOffset
      endOffsetDelta :=
        asU32 ((new g.1 g.2).endOffset + 2 ^ 64 - (new g.1 g.2).startOffset)
      recordCount := asU32 g.2.length
      startPosition := pos
      size := asU32 (new g.1 g.2).size }
  body := encodeDataBlock g.2
  records := g.2
  fits := ⟨h.streamId_lt, h.startOffset_lt, Nat.mod_lt _ (by norm_num),
    Nat.mod_lt _ (by norm_num), Nat.mod_lt _ (by norm_num)⟩
  size_eq := asU32_of_lt h.size_lt
  decode_eq := decodeDataBlock_encodeDataBlock h.inRange
    (Nat.lt_of_le_of_lt (by simp [new, size]) h.size_lt)

/-- A delta that fits its field gives the end offset back. -/
theorem DataBlock.startOffset_add_delta {b : DataBlock} (hle : b.startOffset ≤ b.endOffset)
    (hlt : b.endOffset - b.startOffset < 2 ^ 32) :
    b.startOffset + asU32 (b.endOffset + 2 ^ 64 - b.startOffset) = b.endOffset := by
  unfold asU32
  omega

theorem Segment.view_ofGroup (h : GroupFits g) (i pos : Nat) :
    (Segment.ofGroup h.sized i pos).view = groupView g := by
  simp only [Segment.view, groupView, Segment.ofGroup, DataBlockIndex.endOffset,
    DataBlock.startOffset_add_delta h.span_le h.span_lt]

/-- The segment is that of the group, at some place. -/
def Segment.Of (seg : Segment) (g : Nat × List StreamRecordBatch) : Prop :=
  ∃ (h : GroupSized g) (i pos : Nat), seg = Segment.ofGroup h i pos

theorem Segment.map_of (h : List.Forall₂ Segment.Of gs groups)
    (hf : ∀ g ∈ groups, ∀ (hg : GroupSized g) i pos, f (Segment.ofGroup hg i pos) = f' g) :
    gs.map f = groups.map f' := by
  induction h with
  | nil => rfl
  | cons hseg hrest ih =>
    obtain ⟨-, i, pos, rfl⟩ := hseg
    rw [map_cons, map_cons, hf _ mem_cons_self, ih fun g hmem => hf g (mem_cons_of_mem _ hmem)]

theorem exists_segments (i pos : Nat) (hsized : ∀ g ∈ groups, GroupSized g) :
    ∃ gs : List Segment, Segment.Laid i pos gs ∧ List.Forall₂ Segment.Of gs groups ∧
      gs.map Segment.index = indexes asI32 i pos
        (groups.map fun g => new g.1 g.2) := by
  induction groups generalizing i pos with
  | nil => exact ⟨[], trivial, .nil, rfl⟩
  | cons g groups ih =>
    have hg := hsized g mem_cons_self
    obtain ⟨gs, hlaid, hof, hindex⟩ := ih (i + 1) (pos + (new g.1 g.2).size)
      (fun x hx => hsized x (mem_cons_of_mem g hx))
    have hcons : Segment.Laid i pos (Segment.ofGroup hg i pos :: gs) := by
      simpa only [Segment.Laid, Segment.ofGroup, true_and, size, new] using hlaid
    refine ⟨Segment.ofGroup hg i pos :: gs, hcons, .cons ⟨hg, i, pos, rfl⟩ hof, ?_⟩
    rw [map_cons, map_cons, hindex]
    rfl

theorem ObjectWriter.close_eq {w : ObjectWriter} (h : w.Uploaded) (s : Storage) :
    w.close s =
      (s.write w.key (w.blocks.flatMap encoded ++
        ((⟨indexes asI32 0 0 w.blocks⟩ : IndexBlock).encode ++
          footer (w.blocks.flatMap encoded).length
            (⟨indexes asI32 0 0 w.blocks⟩ : IndexBlock).encode.length)),
        (w.blocks.flatMap encoded).length +
          (⟨indexes asI32 0 0 w.blocks⟩ : IndexBlock).encode.length + footerSize) := by
  have hparts : w.parts.flatten = w.completedBlocks.flatMap encoded := h
  rw [close, encode_indexes (fun _ => -1) asI32, sum_map_size]
  simp [blocks, hparts]

theorem DataBlock.endOffset_new (streamId : Nat) (hne : records ≠ [])
    (hlt : ∀ r ∈ records, r.lastOffset < 2 ^ 64) :
    (new streamId records).endOffset = (records.getLast hne).lastOffset := by
  rw [new, getLast?_eq_some_getLast hne, Option.map_some, Option.getD_some,
    StreamRecordBatch.lastOffsetU64, Nat.mod_eq_of_lt (hlt _ (getLast_mem hne))]

theorem DataBlock.startOffset_le_endOffset {streamId : Nat} (hne : records ≠ [])
    (h : Unwrapped records) :
    (new streamId records).startOffset ≤ (new streamId records).endOffset := by
  rw [DataBlock.endOffset_new streamId hne h.2]
  obtain ⟨r, rs, rfl⟩ := exists_cons_of_ne_nil hne
  have hr := r.baseOffset_le_lastOffset
  rcases eq_nil_or_concat' rs with rfl | ⟨mid, z, rfl⟩
  · simpa [new] using hr
  · have hz := z.baseOffset_le_lastOffset
    have hrz := (pairwise_cons.mp h.1).1 z (by simp)
    have hlast : (r :: (mid ++ [z])).getLast hne = z := by simp
    rw [hlast]
    exact hr.trans (hrz.trans hz)

section

variable (h : Written w writes groups)

include h

/-- The records of a block are records of the calls, under their stream. -/
theorem Written.mem_writes (hg : g ∈ groups) (hr : r ∈ g.2) :
    ∃ x ∈ writes, x.1 = g.1 ∧ r ∈ x.2 := by
  have htag : (g.1, r) ∈ groups.flatMap tagged :=
    mem_flatMap.mpr ⟨g, hg, mem_map.mpr ⟨r, hr, rfl⟩⟩
  rw [h.records_eq] at htag
  obtain ⟨x, hx, hxr⟩ := mem_flatMap.mp htag
  obtain ⟨r', hr', heq⟩ := mem_map.mp hxr
  obtain ⟨hid, rfl⟩ := Prod.mk.inj heq
  exact ⟨x, hx, hid, hr'⟩

theorem Written.group_unwrapped (hordered : (writes.flatMap tagged).Pairwise Precedes)
    (hcalls : ∀ x ∈ writes, Unwrapped x.2) (hg : g ∈ groups) : Unwrapped g.2 := by
  constructor
  · have hpairs := pairwise_flatMap.mp (h.records_eq ▸ hordered)
    refine (pairwise_map.mp (hpairs.1 g hg)).imp fun hp => ?_
    rcases hp with hlt | ⟨-, hle⟩
    · exact absurd hlt (lt_irrefl _)
    · exact hle
  · intro r hr
    obtain ⟨x, hx, -, hrx⟩ := h.mem_writes hg hr
    exact (hcalls x hx).2 r hrx

/-- The groups of a writer can be read back when its blocks fit their size field. -/
theorem Written.groupSized (hstream : ∀ x ∈ writes, x.1 < 256 ^ 8 ∧ ∀ r ∈ x.2, r.InRange)
    (hfit : ∀ b ∈ w.blocks, b.size < 2 ^ 32) (hg : g ∈ groups) : GroupSized g := by
  have hmem : ∀ r ∈ g.2, g.1 < 256 ^ 8 ∧ r.InRange := by
    intro r hr
    obtain ⟨x, hx, hid, hrx⟩ := h.mem_writes hg hr
    exact ⟨hid ▸ (hstream x hx).1, (hstream x hx).2 r hrx⟩
  obtain ⟨r₀, hr₀⟩ := exists_mem_of_ne_nil _ (h.group_ne g hg)
  have hblock : new g.1 g.2 ∈ w.blocks := by
    rw [h.blocks_eq]
    exact mem_map.mpr ⟨g, hg, rfl⟩
  exact ⟨h.group_ne g hg, (hmem r₀ hr₀).1, fun r hr => (hmem r hr).2, hfit _ hblock⟩

theorem Written.groupFits (hstream : ∀ x ∈ writes, x.1 < 256 ^ 8 ∧ ∀ r ∈ x.2, r.InRange)
    (hfit : ∀ b ∈ w.blocks, b.size < 2 ^ 32 ∧ b.endOffset - b.startOffset < 2 ^ 32)
    (hg : g ∈ groups) (hunwrapped : Unwrapped g.2) : GroupFits g := by
  have hsized := h.groupSized hstream (fun b hb => (hfit b hb).1) hg
  have hblock : new g.1 g.2 ∈ w.blocks := by
    rw [h.blocks_eq]
    exact mem_map.mpr ⟨g, hg, rfl⟩
  exact ⟨hsized.ne, hsized.streamId_lt, hsized.inRange, hsized.size_lt,
    DataBlock.startOffset_le_endOffset hsized.ne hunwrapped, (hfit _ hblock).2⟩

theorem Written.holds (hgroups : ∀ g ∈ groups, GroupSized g)
    (hindex : w.blocks.length * blockIndexSize < 2 ^ 32) (s : Storage) (hkey : m.key = w.key)
    (hsize : m.objectSize = (w.close s).2) :
    ∃ gs, Holds (w.close s).1 m gs ∧ List.Forall₂ Segment.Of gs groups := by
  obtain ⟨gs, hlaid, hof, hentries⟩ := exists_segments 0 0 hgroups
  have hbody : gs.map Segment.body = groups.map fun g => encodeDataBlock g.2 :=
    Segment.map_of hof fun g _ hg i pos => rfl
  have hdata : Segment.dataSection gs = w.blocks.flatMap encoded := by
    rw [Segment.dataSection, flatMap_def, hbody, h.blocks_eq, flatMap_map, flatMap_def]
    rfl
  have hblock : Segment.indexBlock gs = ⟨indexes asI32 0 0 w.blocks⟩ := by
    rw [Segment.indexBlock, hentries, h.blocks_eq]
  have hbytes := ObjectWriter.close_eq h.uploaded s
  rw [← hdata, ← hblock] at hbytes
  have hentriesLength : gs.length = w.blocks.length := by
    rw [h.blocks_eq, length_map, hof.length_eq]
  refine ⟨gs, ⟨hlaid, ?_, ?_, ?_⟩, hof⟩
  · rw [hbytes, hkey, Storage.lookup_write, if_pos rfl]
    rfl
  · rw [hsize, hbytes, Segment.objectBytes]
    simp only [length_append, length_footer, add_assoc]
  · rw [IndexBlock.length_encode, Segment.indexBlock, length_map, hentriesLength]
    exact hindex

end

theorem Holds.readStream (h : Holds s m gs) (hof : List.Forall₂ Segment.Of gs groups)
    (streamId : Nat) : ∃ batches,
      ((Segment.indexBlock gs).entries.filter (·.streamId = streamId)).mapM
        (ObjectReader.readRecords s m) = .ok batches ∧
      batches.flatten = (groups.filter (·.1 = streamId)).flatMap (·.2) := by
  refine ⟨(gs.filter (·.index.streamId = streamId)).map Segment.records, ?_, ?_⟩
  · rw [Segment.indexBlock, filter_map]
    exact IndexBlock.mapM_map_eq_ok fun g hg => h.readRecords (mem_of_mem_filter hg)
  · have hmap : gs.map (fun g => (g.index.streamId, g.records)) = groups.map fun g => g :=
      Segment.map_of hof fun g _ hg i pos => rfl
    have hpairs : gs.map (fun g => (g.index.streamId, g.records)) = groups :=
      hmap.trans (map_id' groups)
    rw [flatMap_def, ← hpairs, filter_map, map_map]
    rfl

theorem Written.pairwise_groupView (h : Written w writes groups)
    (hordered : (writes.flatMap tagged).Pairwise Precedes)
    (hgroups : ∀ g ∈ groups, Unwrapped g.2) :
    (groups.map groupView).Pairwise fun v v' => v.1 < v'.1 ∨
      (v.1 = v'.1 ∧ v.2.1 ≤ v'.2.1 ∧ v.2.2.1 ≤ v'.2.1) := by
  have hpairs := (pairwise_flatMap.mp (h.records_eq ▸ hordered)).2
  refine pairwise_map.mpr ((List.Pairwise.and_mem.mp hpairs).imp fun {g g'} hg => ?_)
  obtain ⟨hg, hg', hprec⟩ := hg
  have hne := h.group_ne g hg
  have hspan := @DataBlock.startOffset_le_endOffset g.2 g.1 hne (hgroups g hg)
  obtain ⟨r, rs, hr⟩ := exists_cons_of_ne_nil (h.group_ne g' hg')
  have hlast := hprec (g.1, g.2.getLast hne) (mem_map_of_mem (getLast_mem _)) (g'.1, r)
    (mem_map_of_mem (by rw [hr]; exact mem_cons_self))
  have hend := DataBlock.endOffset_new g.1 hne (hgroups g hg).2
  have hstart : (new g'.1 g'.2).startOffset = r.baseOffset := by
    simp [new, hr]
  simp only [Precedes, groupView] at hlast ⊢
  omega

theorem ObjectWriter.key_writeAll {w : ObjectWriter} (h : w.writeAll writes = .ok w') :
    w'.key = w.key := by
  induction writes generalizing w with
  | nil =>
    cases h
    rfl
  | cons x writes ih =>
    rw [writeAll] at h
    split at h
    · cases h
    · rename_i w₁ hw₁
      exact (ih h).trans (write_eq_ok hw₁).2.1

/-! ## The round trip -/

/-- **Object round trip.** -/
theorem ObjectWriter.round_trip {objectId blockSizeThreshold partSizeThreshold : Nat}
    {writes : List (Nat × List StreamRecordBatch)} {w : ObjectWriter} (s : Storage)
    {m : S3ObjectMetadata}
    (hwrites : (open_ objectId blockSizeThreshold partSizeThreshold).writeAll writes = .ok w)
    (hstream : ∀ x ∈ writes, x.1 < 2 ^ 64 ∧ ∀ r ∈ x.2, r.streamId = x.1 ∧ r.InRange)
    (hordered : ∀ x ∈ writes, (x.2.Pairwise fun r r' => r.lastOffset ≤ r'.baseOffset) ∧
      ∀ r ∈ x.2, r.lastOffset < 2 ^ 64)
    (hfit : ∀ b ∈ w.blocks, b.size < 2 ^ 32 ∧ b.endOffset - b.startOffset < 2 ^ 32)
    (hindex : w.blocks.length * blockIndexSize < 2 ^ 32)
    (hid : m.objectId = objectId) (hsize : m.objectSize = (w.close s).2) :
    ∃ data info, (w.close s).1.lookup (genObjectKey objectId) = some data ∧
      data.length = (w.close s).2 ∧
      ObjectReader.basicObjectInfo (w.close s).1 m = .ok info ∧
      (info.indexBlock.entries.Pairwise fun e e' => e.streamId < e'.streamId ∨
        (e.streamId = e'.streamId ∧ e.startOffset ≤ e'.startOffset ∧
          e.endOffset ≤ e'.startOffset)) ∧
      Windows.Tiles DataBlockIndex.startPosition DataBlockIndex.endPosition 0
        info.indexBlock.entries info.dataBlockSize ∧
      ∀ streamId, ∃ batches,
        (info.indexBlock.entries.filter (·.streamId = streamId)).mapM
          (ObjectReader.readRecords (w.close s).1 m) = .ok batches ∧
        batches.flatten = (writes.filter (·.1 = streamId)).flatMap (·.2) := by
  have hopen := written_open_ objectId blockSizeThreshold partSizeThreshold
  obtain ⟨groups, hw, -⟩ := hopen.writeAll hwrites
  have horder := hopen.ordered hwrites .nil hordered
  rw [nil_append] at horder
  rw [nil_append, nil_append] at hw
  have hunwrapped : ∀ g ∈ groups, Unwrapped g.2 := fun g hg => hw.group_unwrapped horder hordered hg
  have hgroups : ∀ g ∈ groups, GroupFits g := fun g hg => hw.groupFits
    (fun x hx => ⟨(hstream x hx).1, fun r hr => ((hstream x hx).2 r hr).2⟩) hfit hg
    (hunwrapped g hg)
  have hkey : m.key = w.key := by
    rw [key_writeAll hwrites, S3ObjectMetadata.key, hid]
    rfl
  obtain ⟨gs, hholds, hof⟩ := hw.holds (fun g hg => (hgroups g hg).sized) hindex s hkey hsize
  have hview : gs.map Segment.view = groups.map groupView :=
    Segment.map_of hof fun g hg _ i pos => Segment.view_ofGroup (hgroups g hg) i pos
  have hbody : gs.map Segment.body = groups.map fun g => encodeDataBlock g.2 :=
    Segment.map_of hof fun g _ hg i pos => rfl
  have hne : ∀ g ∈ gs, g.body ≠ [] := by
    intro g hg
    obtain ⟨x, -, hx⟩ := mem_map.mp (hbody ▸ mem_map_of_mem hg)
    rw [← hx]
    apply ne_nil_of_length_pos
    rw [length_encodeDataBlock, blockHeaderSize]
    omega
  refine ⟨Segment.objectBytes gs, ⟨(Segment.dataSection gs).length, Segment.indexBlock gs⟩, ?_, ?_,
    hholds.basicObjectInfo, ?_, ?_, fun streamId => ?_⟩
  · rw [← hid]
    exact hholds.stored
  · rw [← hholds.size_eq, hsize]
  · have hpairs := hw.pairwise_groupView horder hunwrapped
    rw [← hview] at hpairs
    exact pairwise_map.mpr (pairwise_map.mp hpairs)
  · simpa [Segment.indexBlock] using hholds.laid.tiles hne
  · obtain ⟨batches, hread, hflatten⟩ := hholds.readStream hof streamId
    refine ⟨batches, hread, hflatten.trans ?_⟩
    rw [flatMap_filter_stream, flatMap_filter_stream, hw.records_eq]

/-- Two streams, the first one in two calls, with a block for each record. -/
theorem ObjectWriter.round_trip_two_streams :
    let writes : List (Nat × List StreamRecordBatch) :=
      [(1, [⟨1, 0, 0, 2, [7]⟩, ⟨1, 0, 2, 1, []⟩]), (1, [⟨1, 0, 5, 1, [8, 9]⟩]),
        (4, [⟨4, 0, 0, 1, []⟩])]
    let w := ((open_ 7 0 0).writeAll writes).toOption.getD (open_ 7 0 0)
    ∃ info, basicObjectInfo (w.close []).1
        ⟨7, .stream, [], (w.close []).2, ⟨0⟩, 0, 0⟩ = .ok info ∧
      ∃ batches, (info.indexBlock.entries.filter (·.streamId = 1)).mapM
          (ObjectReader.readRecords (w.close []).1 ⟨7, .stream, [], (w.close []).2, ⟨0⟩, 0, 0⟩) =
            .ok batches ∧
        batches.flatten = [⟨1, 0, 0, 2, [7]⟩, ⟨1, 0, 2, 1, []⟩, ⟨1, 0, 5, 1, [8, 9]⟩] := by
  intro writes w
  obtain ⟨-, info, -, -, hinfo, -, -, hread⟩ := @round_trip 7 0 0 writes w []
    ⟨7, .stream, [], (w.close []).2, ⟨0⟩, 0, 0⟩ rfl (by decide) (by decide) (by decide +kernel)
    (by decide +kernel) rfl rfl
  exact ⟨info, hinfo, hread 1⟩

/-! ## An index block beyond its length field -/

/-- `n` calls with one empty record each, of the streams from `k` on. -/
def singleRecordWrites (k n : Nat) : List (Nat × List StreamRecordBatch) :=
  (List.range' k n).map fun i => (i, [⟨i, 0, 0, 1, []⟩])

theorem ObjectWriter.write_single {w : ObjectWriter} (hlast : ∀ p, w.last = some p → p.1 < k) :
    ∃ w', w.write k [⟨k, 0, 0, 1, []⟩] = (w', .ok ()) := by
  have hcheck : w.check k [⟨k, 0, 0, 1, []⟩] = ({ w with last := some (k, 1) }, .ok ()) := by
    cases h : w.last with
    | none => simp [check, h, StreamRecordBatch.lastOffsetU64, StreamRecordBatch.lastOffset]
    | some p =>
      have hp := hlast p h
      simp [check, h, hp.not_gt, hp.ne, StreamRecordBatch.lastOffsetU64,
        StreamRecordBatch.lastOffset]
  exact ⟨_, by rw [write, hcheck]⟩

theorem ObjectWriter.writeAll_single {w : ObjectWriter} (n : Nat)
    (hlast : ∀ p, w.last = some p → p.1 < k) : ∃ w',
      w.writeAll (singleRecordWrites k n) = .ok w' ∧ (w.Uploaded → w'.Uploaded) ∧
      w'.blocks = w.blocks ++
        (range' k n).map fun i => new i [⟨i, 0, 0, 1, []⟩] := by
  induction n generalizing w k with
  | zero => exact ⟨w, rfl, id, by simp⟩
  | succ n ih =>
    obtain ⟨w₁, hw₁⟩ := write_single hlast
    obtain ⟨hcheck, -, huploaded, hblocks⟩ := write_eq_ok hw₁
    have hgroup : (groupByBlock w.blockSizeThreshold [⟨k, 0, 0, 1, []⟩] w.groupAcc []).1 =
        [[⟨k, 0, 0, 1, []⟩]] := by
      simp only [groupByBlock]
      split <;> rfl
    have hlast₁ : ∀ p, w₁.last = some p → p.1 < k + 1 := by
      intro p hp
      rw [(check_eq_ok hcheck).1] at hp
      cases hp
      exact Nat.lt_succ_self k
    obtain ⟨w₂, hw₂, huploaded₂, hblocks₂⟩ := ih hlast₁
    refine ⟨w₂, ?_, fun h => huploaded₂ (huploaded h), ?_⟩
    · rw [singleRecordWrites, range'_succ, map_cons, writeAll, hw₁]
      exact hw₂
    · rw [hblocks₂, hblocks, hgroup, range'_succ]
      simp

theorem DataBlock.size_single (i : Nat) : (new i [⟨i, 0, 0, 1, []⟩]).size = 43 := by
  simp [size, new, blockHeaderSize]

/-- An object of 119304648 such blocks cannot be read. -/
theorem ObjectWriter.single_blocks_unreadable {w : ObjectWriter} (huploaded : w.Uploaded)
    (hblocks : w.blocks =
      (range' 0 119304648).map fun i => new i [⟨i, 0, 0, 1, []⟩])
    (hstored : s.lookup w.key = (w.close []).1.lookup w.key) (hkey : m.key = w.key)
    (hsize : m.objectSize = (w.close []).2) : ∃ e, basicObjectInfo s m = .error e := by
  have hclose := close_eq huploaded []
  have hcount : w.blocks.length = 119304648 := by rw [hblocks]; simp
  have hdata : (w.blocks.flatMap encoded).length = 119304648 * 43 := by
    have hmem : ∀ b ∈ w.blocks, b.encoded.length = 43 := by
      intro b hb
      rw [hblocks] at hb
      obtain ⟨i, -, rfl⟩ := mem_map.mp hb
      exact DataBlock.size_single i
    rw [Bytes.length_flatMap hmem, hcount]
  have hindex : (⟨indexes asI32 0 0 w.blocks⟩ : IndexBlock).encode.length =
      119304648 * 36 := by
    rw [IndexBlock.length_encode, DataBlock.length_indexes, hcount, blockIndexSize]
  rw [hclose] at hsize hstored
  rw [Storage.lookup_write, if_pos rfl, ← hkey] at hstored
  have hlt : m.objectSize < 2 ^ 64 := by
    rw [hsize]
    rw [hdata, hindex, footerSize]
    norm_num
  rw [basicObjectInfo_of_footer hstored hsize hlt, if_pos (by rw [hindex]; decide)]
  exact ⟨_, rfl⟩

/-- From 119304648 blocks on the length of the index block does not fit its 32-bit field, and the
reader rejects the object. -/
theorem ObjectWriter.index_block_overflow : ∃ w : ObjectWriter,
    (open_ 0 0 0).writeAll (singleRecordWrites 0 119304648) = .ok w ∧
    (∀ x ∈ singleRecordWrites 0 119304648, x.1 < 2 ^ 64 ∧
      ∀ r ∈ x.2, r.streamId = x.1 ∧ r.InRange) ∧
    (∀ x ∈ singleRecordWrites 0 119304648,
      (x.2.Pairwise fun r r' => r.lastOffset ≤ r'.baseOffset) ∧ ∀ r ∈ x.2, r.lastOffset < 2 ^ 64) ∧
    (∀ b ∈ w.blocks, b.size < 2 ^ 32 ∧ b.endOffset - b.startOffset < 2 ^ 32) ∧
    ∀ m : S3ObjectMetadata, m.objectId = 0 → m.objectSize = (w.close []).2 →
      ∃ e, ObjectReader.basicObjectInfo (w.close []).1 m = .error e := by
  obtain ⟨w, hw, huploaded, hblocks⟩ := writeAll_single (w := open_ 0 0 0) (k := 0) 119304648
    nofun
  have hblocks : w.blocks =
      (range' 0 119304648).map fun i => new i [⟨i, 0, 0, 1, []⟩] := hblocks
  have huploaded : w.Uploaded := huploaded rfl
  have hmem : ∀ x ∈ singleRecordWrites 0 119304648,
      ∃ i < 119304648, x = (i, [⟨i, 0, 0, 1, []⟩]) := by
    intro x hx
    obtain ⟨i, hi, rfl⟩ := mem_map.mp hx
    exact ⟨i, by simpa using (mem_range'_1.mp hi).2, rfl⟩
  have hsize : ∀ b ∈ w.blocks, b.size = 43 ∧ b.endOffset - b.startOffset = 1 := by
    intro b hb
    rw [hblocks] at hb
    obtain ⟨i, -, rfl⟩ := mem_map.mp hb
    exact ⟨DataBlock.size_single i, rfl⟩
  refine ⟨w, hw, ?_, ?_, ?_, ?_⟩
  · intro x hx
    obtain ⟨i, hi, rfl⟩ := hmem x hx
    refine ⟨by dsimp only; omega, fun r hr => ?_⟩
    obtain rfl := mem_singleton.mp hr
    refine ⟨rfl, ?_⟩
    simp only [StreamRecordBatch.InRange, length_nil]
    omega
  · intro x hx
    obtain ⟨i, -, rfl⟩ := hmem x hx
    exact ⟨pairwise_singleton _ _,
      forall_mem_singleton.mpr (by simp [StreamRecordBatch.lastOffset])⟩
  · intro b hb
    obtain ⟨h₁, h₂⟩ := hsize b hb
    omega
  · intro m hid hobject
    have hkey : m.key = w.key := by
      rw [key_writeAll hw, S3ObjectMetadata.key, hid]
      rfl
    exact single_blocks_unreadable huploaded hblocks rfl hkey hobject

end S3Stream
