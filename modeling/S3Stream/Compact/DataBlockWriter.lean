import S3Stream.Compact.LimitGroups
import S3Stream.Compact.ReadBlocks
import S3Stream.Object.Regroup

/-! # The writer of compacted objects

`DataBlockWriter` of `s3stream-core/src/compact/executor.rs`: the bytes of blocks are copied one
behind the other, in parts of any size, and the index gets one entry for each group of blocks. The
entries tile the data, and the bytes of an entry decode to the records of its blocks. -/

namespace S3Stream

open List CompactedObjectBuilder DataBlockIndex

structure DataBlockWriter where
  objectId : Nat
  partSizeThreshold : Nat
  /-- What the multipart upload holds. -/
  parts : List Bytes
  waiting : Bytes
  completedBlocks : List StreamDataBlock
  nextDataBlockPosition : Nat

def dataBlockGroupSizeThreshold : Nat := 1024 * 1024

/-- The entries of groups that lie one behind the other; an empty group has none. -/
def buildDataBlockIndicesFromGroup : Nat → List (List StreamDataBlock) → List DataBlockIndex
  | _, [] => []
  | position, group :: groups =>
    match group.head?, group.getLast? with
    | some first, some last =>
      { blockId := -1
        streamId := first.streamId
        startOffset := first.startOffset
        endOffsetDelta := asU32 (last.endOffset - first.startOffset)
        recordCount := asU32 (group.map (·.index.recordCount)).sum
        startPosition := position
        size := asU32 (sumBlockSize group) } ::
          buildDataBlockIndicesFromGroup (position + sumBlockSize group) groups
    | _, _ => buildDataBlockIndicesFromGroup position groups

namespace DataBlockWriter

def new (objectId partSizeThreshold : Nat) : DataBlockWriter :=
  ⟨objectId, partSizeThreshold, [], [], [], 0⟩

def write (w : DataBlockWriter) (fetched : FetchedBlock) : DataBlockWriter :=
  let waiting := w.waiting ++ fetched.data
  let full := w.partSizeThreshold ≤ waiting.length
  { w with
    parts := if full then w.parts ++ [waiting] else w.parts
    waiting := if full then [] else waiting
    completedBlocks := w.completedBlocks ++ [fetched.block]
    nextDataBlockPosition := w.nextDataBlockPosition + fetched.block.blockSize }

def indices (w : DataBlockWriter) : List DataBlockIndex :=
  buildDataBlockIndicesFromGroup 0
    (groupStreamDataBlocks GroupByLimitPredicate.test (.new dataBlockGroupSizeThreshold)
      w.completedBlocks)

def close (w : DataBlockWriter) (s : Storage) : Storage × Nat :=
  let indexBlock := (⟨w.indices⟩ : IndexBlock).encode
  let tail := w.waiting ++ (indexBlock ++ footer w.nextDataBlockPosition indexBlock.length)
  (s.write (genObjectKey w.objectId) (w.parts ++ [tail]).flatten,
    w.nextDataBlockPosition + indexBlock.length + footerSize)

end DataBlockWriter

/-! ## Blocks with their records -/

/-- A block of a source object, under the id of the object. -/
abbrev SourceBlock := Nat × Segment

namespace SourceBlock

def block (p : SourceBlock) : StreamDataBlock := ⟨p.1, p.2.index⟩

def fetched (p : SourceBlock) : FetchedBlock := ⟨block p, p.2.body⟩

def bytes (ps : List SourceBlock) : Bytes := ps.flatMap (·.2.body)

def records (ps : List SourceBlock) : List StreamRecordBatch := ps.flatMap (·.2.records)

variable {ps : List SourceBlock}

theorem bytes_append (ps ps' : List SourceBlock) : bytes (ps ++ ps') = bytes ps ++ bytes ps' :=
  flatMap_append

theorem sumBlockSize_block (ps : List SourceBlock) :
    sumBlockSize (ps.map block) = (bytes ps).length := by
  induction ps with
  | nil => rfl
  | cons p ps ih =>
    rw [map_cons, sumBlockSize, map_cons, sum_cons, bytes, flatMap_cons,
      length_append, ← p.2.size_eq]
    exact congrArg _ ih

theorem decode_bytes (ps : List SourceBlock) : decodeDataBlock (bytes ps) = .ok (records ps) := by
  have h := Segment.decode_flatMap_body (ps.map Prod.snd)
  rwa [flatMap_map, flatMap_map] at h

end SourceBlock

open SourceBlock

/-- What accepted blocks leave in the writer. -/
structure DataBlockWriter.Wrote (w : DataBlockWriter) (ps : List SourceBlock) : Prop where
  data : w.parts.flatten ++ w.waiting = bytes ps
  blocks : w.completedBlocks = ps.map block
  position : w.nextDataBlockPosition = (bytes ps).length

namespace DataBlockWriter

variable {w : DataBlockWriter} {ps : List SourceBlock}

theorem Wrote.write (h : w.Wrote ps) (p : SourceBlock) :
    (w.write (fetched p)).Wrote (ps ++ [p]) := by
  have hbytes : bytes (ps ++ [p]) = bytes ps ++ p.2.body := by
    rw [bytes_append]
    exact congrArg _ (flatMap_singleton ..)
  refine ⟨?_, ?_, ?_⟩
  · rw [hbytes, ← h.data, DataBlockWriter.write]
    split <;> simp [fetched]
  · rw [DataBlockWriter.write, h.blocks, map_append]
    rfl
  · rw [hbytes, length_append, ← h.position, ← p.2.size_eq]
    rfl

theorem Wrote.foldl {more : List SourceBlock} (h : w.Wrote ps) :
    ((more.map fetched).foldl DataBlockWriter.write w).Wrote (ps ++ more) := by
  induction more generalizing w ps with
  | nil => rwa [append_nil]
  | cons p more ih =>
    have hmore := ih (h.write p)
    rwa [append_assoc] at hmore

theorem objectId_foldl (w : DataBlockWriter) (fs : List FetchedBlock) :
    (fs.foldl DataBlockWriter.write w).objectId = w.objectId := by
  induction fs generalizing w with
  | nil => rfl
  | cons f fs ih => exact ih _

/-- The object is the data, the index and the footer, whatever the parts. -/
theorem Wrote.close (h : w.Wrote ps) (s : Storage) :
    (w.close s).1 = s.write (genObjectKey w.objectId) (bytes ps ++
      ((⟨w.indices⟩ : IndexBlock).encode ++
        footer (bytes ps).length (⟨w.indices⟩ : IndexBlock).encode.length)) := by
  rw [DataBlockWriter.close, flatten_append, flatten_singleton, ← append_assoc, h.data, h.position]

end DataBlockWriter

/-! ## The entries -/

/-- What the entry of a group says, in an object that begins with `data`. -/
structure Describes (data : Bytes) (e : DataBlockIndex) (g : List SourceBlock) : Prop where
  fits : e.Fits
  stream : ∀ p ∈ g, p.2.index.streamId = e.streamId
  start : e.startOffset = groupStartOffset (g.map block)
  stop : e.endOffset = groupEndOffset (g.map block)
  count : e.recordCount = groupRecordCount (g.map block)
  decodes : decodeDataBlock ((data.drop e.startPosition).take e.size) = .ok (records g)

theorem groupStartOffset_le (h : g.IsChain fun x y => x.endOffset = y.startOffset) :
    groupStartOffset g ≤ groupEndOffset g := by
  induction g using reverseRecOn with
  | nil => exact le_rfl
  | append_singleton g b ih =>
    obtain ⟨hg, -, hlast⟩ := isChain_append.mp h
    have hb : b.startOffset ≤ b.endOffset := Nat.le_add_right _ _
    rw [groupEndOffset_concat]
    cases hgl : g.getLast? with
    | none =>
      rw [getLast?_eq_none_iff.mp hgl]
      exact hb
    | some last =>
      have hne : g ≠ [] := by
        rintro rfl
        cases hgl
      have hstart := ih hg
      rw [groupStartOffset_concat hne]
      rw [groupEndOffset, hgl] at hstart
      have hnext : last.endOffset = b.startOffset := hlast last hgl b rfl
      exact hstart.trans (hnext.trans_le hb)

theorem LimitGroup.fits (h : LimitGroup dataBlockGroupSizeThreshold (g.map block)) (hne : g ≠ []) :
    groupEndOffset (g.map block) - groupStartOffset (g.map block) < 2 ^ 32 ∧
      groupRecordCount (g.map block) < 2 ^ 32 ∧ sumBlockSize (g.map block) < 2 ^ 32 := by
  have hi32 : i32Max = 2147483647 := rfl
  have hthreshold : dataBlockGroupSizeThreshold = 1048576 := rfl
  rcases lt_or_ge g.length 2 with hlt | hge
  · obtain ⟨p, rfl⟩ : ∃ p, g = [p] := by
      have hpos := length_pos_iff.mpr hne
      exact length_eq_one_iff.mp (by omega)
    obtain ⟨-, -, hdelta, hcount, hsize⟩ := p.2.fits
    have hspan : p.2.index.startOffset + p.2.index.endOffsetDelta - p.2.index.startOffset =
        p.2.index.endOffsetDelta := Nat.add_sub_cancel_left ..
    refine ⟨hspan.trans_lt hdelta, ?_, ?_⟩
    · exact (add_zero _).trans_lt hcount
    · exact (add_zero _).trans_lt hsize
  · obtain ⟨hrecords, hspan, hsize⟩ := h.limits (by rwa [length_map])
    omega

/-- **The entries of groups** tile the bytes of the groups, and each describes its group. -/
theorem buildDataBlockIndices_spec (before rest : Bytes)
    (hgroups : ∀ g ∈ groups, g ≠ [] ∧ LimitGroup dataBlockGroupSizeThreshold (g.map block)) :
    Windows.Joined startPosition endPosition before.length
      (buildDataBlockIndicesFromGroup before.length (groups.map (map block)))
      (before.length + (bytes groups.flatten).length) ∧
    List.Forall₂ (Describes (before ++ (bytes groups.flatten ++ rest)))
      (buildDataBlockIndicesFromGroup before.length (groups.map (map block))) groups := by
  induction groups generalizing before with
  | nil => exact ⟨rfl, .nil⟩
  | cons g groups ih =>
    obtain ⟨⟨hne, hlimit⟩, hgroups⟩ := forall_mem_cons.mp hgroups
    obtain ⟨hspan, hcount, hsize⟩ := hlimit.fits hne
    have hstart := groupStartOffset_le hlimit.run.contiguous
    obtain ⟨hjoined, hdescribes⟩ := ih (before ++ bytes g) hgroups
    rw [length_append] at hjoined hdescribes
    have hne' : g.map block ≠ [] := by simpa using hne
    obtain ⟨first, hfirst⟩ := Option.isSome_iff_exists.mp (isSome_head?.mpr hne')
    obtain ⟨last, hlast⟩ := Option.isSome_iff_exists.mp (getLast?_isSome.mpr hne')
    have hfirstStart : first.startOffset = groupStartOffset (g.map block) := by
      rw [groupStartOffset, hfirst]
      rfl
    have hlastEnd : last.endOffset = groupEndOffset (g.map block) := by
      rw [groupEndOffset, hlast]
      rfl
    have hbuild : buildDataBlockIndicesFromGroup before.length
        ((g :: groups).map (map block)) =
          ⟨-1, first.streamId, first.startOffset, last.endOffset - first.startOffset,
            groupRecordCount (g.map block), before.length, (bytes g).length⟩ ::
          buildDataBlockIndicesFromGroup (before.length + (bytes g).length)
            (groups.map (map block)) := by
      rw [map_cons, buildDataBlockIndicesFromGroup, hfirst, hlast]
      dsimp only
      rw [hfirstStart, hlastEnd, asU32_of_lt hspan, asU32_of_lt hsize, sumBlockSize_block]
      rw [show ((g.map block).map (·.index.recordCount)).sum = groupRecordCount (g.map block) from
        rfl, asU32_of_lt hcount]
    rw [hbuild, flatten_cons, bytes_append, length_append]
    refine ⟨⟨rfl, ?_⟩, .cons ⟨?_, fun p hp => ?_, hfirstStart, ?_, rfl, ?_⟩ ?_⟩
    · rw [← add_assoc]
      exact hjoined
    · obtain ⟨p, -, rfl⟩ := mem_map.mp (mem_of_mem_head? hfirst)
      rw [hfirstStart, hlastEnd, ← sumBlockSize_block]
      exact ⟨p.2.fits.1, hfirstStart ▸ p.2.fits.2.1, hspan, hcount, hsize⟩
    · exact hlimit.run.single (block p) (mem_map_of_mem hp) first (mem_of_mem_head? hfirst)
    · show first.startOffset + (last.endOffset - first.startOffset) = _
      rw [hfirstStart, hlastEnd]
      exact Nat.add_sub_cancel' hstart
    · dsimp only
      rw [Bytes.drop_front _ rfl, append_assoc, Bytes.take_front _ rfl]
      exact decode_bytes g
    · rw [append_assoc] at hdescribes ⊢
      exact hdescribes

/-! ## The written object -/

/-- The groups of the blocks, as groups of the sources. -/
def sourceGroups (threshold : Nat) (ps : List SourceBlock) : List (List SourceBlock) :=
  Greedy.groups (fun g p => beginsRun threshold (g.map block) (block p)) ps

theorem map_sourceGroups (threshold : Nat) (hstream : ∀ p ∈ ps, p.2.index.streamId < 2 ^ 63) :
    (sourceGroups threshold ps).map (map block) =
      groupStreamDataBlocks GroupByLimitPredicate.test (.new threshold) (ps.map block) := by
  have hblocks : ∀ b ∈ ps.map block, b.streamId < 2 ^ 63 := by
    intro b hb
    obtain ⟨p, hp, rfl⟩ := mem_map.mp hb
    exact hstream p hp
  rw [groupStreamDataBlocks_eq threshold hblocks, Greedy.groups_map, sourceGroups]

theorem limitGroup_of_mem_sourceGroups (hg : g ∈ sourceGroups threshold ps) :
    g ≠ [] ∧ LimitGroup threshold (g.map block) := by
  have hmem : g.map block ∈ Greedy.groups (beginsRun threshold) (ps.map block) := by
    rw [Greedy.groups_map]
    exact mem_map_of_mem hg
  obtain ⟨hne, hlimit⟩ := limitGroup_of_mem hmem
  exact ⟨fun h => hne (by rw [h]; rfl), hlimit⟩

theorem DataBlockWriter.Wrote.entries {w : DataBlockWriter} (h : w.Wrote ps)
    (hstream : ∀ p ∈ ps, p.2.index.streamId < 2 ^ 63) :
    Windows.Joined startPosition endPosition 0 w.indices
      (bytes ps).length ∧
    ∀ rest, List.Forall₂ (Describes (bytes ps ++ rest)) w.indices
      (sourceGroups dataBlockGroupSizeThreshold ps) := by
  have hindices : w.indices = buildDataBlockIndicesFromGroup 0
      ((sourceGroups dataBlockGroupSizeThreshold ps).map (map block)) := by
    rw [indices, h.blocks, map_sourceGroups _ hstream]
  have hflatten : (sourceGroups dataBlockGroupSizeThreshold ps).flatten = ps :=
    Greedy.flatten_groups ..
  have hspec := fun rest => buildDataBlockIndices_spec [] rest
    fun g (hg : g ∈ sourceGroups dataBlockGroupSizeThreshold ps) =>
      limitGroup_of_mem_sourceGroups hg
  simp only [hflatten, length_nil, zero_add, ← hindices] at hspec
  exact ⟨(hspec []).1, fun rest => (hspec rest).2⟩

theorem LimitGroup.counts (h : LimitGroup threshold g) (hne : g ≠ [])
    (hblocks : ∀ b ∈ g, b.index.recordCount ≤ i32Max ∧ b.index.endOffsetDelta ≤ i32Max) :
    groupRecordCount g ≤ i32Max ∧ groupEndOffset g - groupStartOffset g ≤ i32Max := by
  rcases lt_or_ge g.length 2 with hlt | hge
  · obtain ⟨b, rfl⟩ : ∃ b, g = [b] := by
      have hpos := length_pos_iff.mpr hne
      exact length_eq_one_iff.mp (by omega)
    obtain ⟨hcount, hspan⟩ := hblocks b mem_cons_self
    have hdelta : b.index.startOffset + b.index.endOffsetDelta - b.index.startOffset =
        b.index.endOffsetDelta := Nat.add_sub_cancel_left ..
    exact ⟨(add_zero _).trans_le hcount, hdelta.trans_le hspan⟩
  · obtain ⟨hrecords, hspan, -⟩ := h.limits hge
    exact ⟨hrecords, hspan⟩

/-- **Re-grouped index entries describe the copied bytes.** Whatever the blocks, their order and
the part size: the groups are the blocks in order, each a run of one stream within the limits, and
the object that is written has one entry for each group. The entries tile the data, and each
decodes to the records of its group. -/
theorem DataBlockWriter.entries_describe_groups (ps : List SourceBlock)
    (hstream : ∀ p ∈ ps, p.2.index.streamId < 2 ^ 63) (objectId partSizeThreshold : Nat)
    (s : Storage) :
    (∀ threshold,
      let groups :=
        groupStreamDataBlocks GroupByLimitPredicate.test (.new threshold) (ps.map block)
      groups.flatten = ps.map block ∧ (∀ g ∈ groups, g ≠ [] ∧ LimitGroup threshold g) ∧
      ((∀ p ∈ ps, p.2.index.recordCount ≤ i32Max ∧ p.2.index.endOffsetDelta ≤ i32Max) →
        ∀ g ∈ groups, groupRecordCount g ≤ i32Max ∧
          groupEndOffset g - groupStartOffset g ≤ i32Max)) ∧
    let w := (ps.map fetched).foldl write (new objectId partSizeThreshold)
    let index := (⟨w.indices⟩ : IndexBlock).encode
    let object := bytes ps ++ (index ++ footer (bytes ps).length index.length)
    (w.close s).1 = s.write (genObjectKey objectId) object ∧
    Windows.Joined startPosition endPosition 0 w.indices
      (bytes ps).length ∧
    (∃ groups : List (List SourceBlock), groups.flatten = ps ∧
      groups.map (map block) = groupStreamDataBlocks GroupByLimitPredicate.test
        (.new dataBlockGroupSizeThreshold) (ps.map block) ∧
      List.Forall₂ (Describes object) w.indices groups) ∧
    ((bytes ps).length < 2 ^ 64 →
      IndexBlock.parse index = .ok ⟨IndexBlock.numbered w.indices⟩) := by
  refine ⟨fun threshold => ?_, ?_⟩
  · dsimp only
    rw [← map_sourceGroups threshold hstream]
    refine ⟨?_, fun g hg => ?_, fun hcounts g hg => ?_⟩
    · rw [← map_flatten, sourceGroups, Greedy.flatten_groups]
    · obtain ⟨g', hg', rfl⟩ := mem_map.mp hg
      obtain ⟨hne, hlimit⟩ := limitGroup_of_mem_sourceGroups hg'
      exact ⟨fun h => hne (map_eq_nil_iff.mp h), hlimit⟩
    · obtain ⟨g', hg', rfl⟩ := mem_map.mp hg
      obtain ⟨hne, hlimit⟩ := limitGroup_of_mem_sourceGroups hg'
      refine hlimit.counts (fun h => hne (map_eq_nil_iff.mp h)) fun b hb => ?_
      obtain ⟨p, hp, rfl⟩ := mem_map.mp hb
      refine hcounts p ?_
      rw [← Greedy.flatten_groups
        (fun g p => beginsRun threshold (g.map block) (block p)) ps]
      exact mem_flatten_of_mem hg' hp
  · have hnew : (new objectId partSizeThreshold).Wrote [] := ⟨rfl, rfl, rfl⟩
    have hwrote : ((ps.map fetched).foldl write (new objectId partSizeThreshold)).Wrote ps :=
      hnew.foldl
    have hid := objectId_foldl (new objectId partSizeThreshold) (ps.map fetched)
    obtain ⟨hjoined, hdescribes⟩ := hwrote.entries hstream
    refine ⟨?_, hjoined, ⟨_, Greedy.flatten_groups .., map_sourceGroups _ hstream, hdescribes _⟩,
      fun hlt => ?_⟩
    · rw [hwrote.close, hid]
      rfl
    · have hfits := ((forall₂_and_left ..).mp ((hdescribes []).imp fun e g h =>
        (⟨h.fits, h⟩ : e.Fits ∧ _))).1
      refine IndexBlock.parse_encode_numbered fun e he => ?_
      obtain ⟨-, hbounds⟩ := hjoined.bounds fun e _ => Nat.le_add_right e.startPosition e.size
      have hend := (hbounds e he).2
      have hstart : e.startPosition ≤ e.endPosition := Nat.le_add_right ..
      exact ⟨hfits e he, by omega⟩

/-- Two blocks that follow one another, and one of another stream. -/
theorem DataBlockWriter.entries_describe_groups_three : ∃ ps : List SourceBlock,
    ps.map (fun p => (p.2.index.streamId, p.2.index.startOffset)) = [(3, 0), (3, 1), (4, 0)] ∧
    let w := (ps.map fetched).foldl write (new 9 50)
    w.indices.map (fun e => (e.streamId, e.startOffset, e.endOffset, e.startPosition, e.size)) =
      [(3, 0, 2, 0, 86), (4, 0, 1, 86, 43)] ∧
    ∃ groups : List (List SourceBlock), groups.flatten = ps ∧ ∃ object,
      (w.close []).1 = Storage.write [] (genObjectKey 9) object ∧
      List.Forall₂ (Describes object) w.indices groups := by
  let ps : List SourceBlock :=
    [(1, ⟨⟨0, 3, 0, 1, 1, 0, 43⟩, encodeDataBlock [⟨3, 0, 0, 1, []⟩], [⟨3, 0, 0, 1, []⟩], by decide,
      by decide, by decide +kernel⟩),
    (2, ⟨⟨0, 3, 1, 1, 1, 0, 43⟩, encodeDataBlock [⟨3, 0, 1, 1, []⟩], [⟨3, 0, 1, 1, []⟩], by decide,
      by decide, by decide +kernel⟩),
    (2, ⟨⟨1, 4, 0, 1, 1, 43, 43⟩, encodeDataBlock [⟨4, 0, 0, 1, []⟩], [⟨4, 0, 0, 1, []⟩], by decide,
      by decide, by decide +kernel⟩)]
  obtain ⟨-, hclose, -, ⟨groups, hflatten, -, hdescribes⟩, -⟩ :=
    entries_describe_groups ps (by decide) 9 50 []
  exact ⟨ps, by decide, by decide +kernel, groups, hflatten, _, hclose, hdescribes⟩

end S3Stream
