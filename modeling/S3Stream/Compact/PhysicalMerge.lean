import S3Stream.Object.Regroup

/-! # Physical merge of stream objects

`compact_by_physical_merge` of `s3stream-core/src/compact/stream_compactor.rs`: the live data of
each object of a group is copied behind the data of the objects before it, and the index entries
are regrouped. `Regrouped` says what the regrouping has done so far: closed runs, each with its
entry, and one open run. -/

namespace S3Stream

open List Windows
open DataBlockIndex (size)

/-- What becomes of a source object. -/
inductive CompactOperations where
  | delete
  | keepData
  | deepDelete
  deriving DecidableEq, Repr

/-- The commit of one stream object compaction. -/
structure CompactStreamObjectRequest where
  objectId : Nat
  objectSize : Nat
  streamId : Nat
  streamEpoch : Nat
  startOffset : Nat
  endOffset : Nat
  sourceObjectIds : List Nat
  operations : List CompactOperations
  attributes : Nat
  deriving DecidableEq

/-- The state of a stream as the compactor sees it. -/
structure StreamView where
  streamId : Nat
  streamEpoch : Nat
  startOffset : Nat
  confirmOffset : Nat
  deriving DecidableEq

def defaultDataBlockGroupSizeThreshold : Nat := 1024 * 1024

def startOffsetOf (m : S3ObjectMetadata) : Nat :=
  (m.offsetRanges.head?.map StreamOffsetRange.startOffset).getD 0

def endOffsetOf (m : S3ObjectMetadata) : Nat :=
  (m.offsetRanges.getLast?.map StreamOffsetRange.endOffset).getD 0

/-- The regrouping of index entries; `indexes` are the entries encoded so far. -/
structure IndexGroups where
  nextBlockPosition : Nat
  groupStartOffset : Nat
  groupStartPosition : Nat
  groupSize : Nat
  groupRecordCount : Nat
  lastIndex : Option DataBlockIndex
  indexes : List DataBlockIndex
  deriving DecidableEq

namespace IndexGroups

def new : IndexGroups := ⟨0, 0, 0, 0, 0, none, []⟩

def flush (streamId : Nat) (t : IndexGroups) : List DataBlockIndex :=
  match t.lastIndex with
  | some last =>
    if t.groupSize ≠ 0 then
      t.indexes ++
        [{ blockId := -1
           streamId
           startOffset := t.groupStartOffset
           endOffsetDelta := asU32 (last.endOffset - t.groupStartOffset)
           recordCount := asU32 t.groupRecordCount
           startPosition := t.groupStartPosition
           size := asU32 t.groupSize }]
    else t.indexes
  | none => t.indexes

def cut (streamId : Nat) (t : IndexGroups) (b : DataBlockIndex) : IndexGroups :=
  { t with
    indexes := t.flush streamId
    groupStartOffset := b.startOffset
    groupStartPosition := t.nextBlockPosition
    groupSize := 0
    groupRecordCount := 0 }

def push (t : IndexGroups) (b : DataBlockIndex) : IndexGroups :=
  { t with
    groupSize := t.groupSize + b.size
    groupRecordCount := t.groupRecordCount + b.recordCount
    nextBlockPosition := t.nextBlockPosition + b.size
    lastIndex := some b }

def addBlock (threshold streamId : Nat) (t : IndexGroups) (b : DataBlockIndex) : IndexGroups :=
  if t.groupSize = 0 ∨ threshold < t.groupSize + b.size ∨
      i32Max < t.groupRecordCount + b.recordCount ∨ i32Max < b.endOffset - t.groupStartOffset then
    (t.cut streamId b).push b
  else t.push b

end IndexGroups

/-- The merge between two objects; `parts` is what the upload holds. -/
structure MergeState where
  groups : IndexGroups
  objectSize : Nat
  compactedStartOffset : Nat
  compactedObjectIds : List Nat
  parts : List Bytes

/-- The entries of one object: expired ones move the start of the valid data and of the merged
range, the others are regrouped. -/
def mergeEntries (threshold : Nat) (stream : StreamView) :
    List DataBlockIndex → IndexGroups → Nat → Nat → IndexGroups × Nat × Nat
  | [], groups, validDataStart, compactedStartOffset =>
    (groups, validDataStart, compactedStartOffset)
  | b :: bs, groups, validDataStart, compactedStartOffset =>
    if b.endOffset ≤ stream.startOffset then
      mergeEntries threshold stream bs groups b.endPosition b.endOffset
    else
      mergeEntries threshold stream bs (groups.addBlock threshold stream.streamId b)
        validDataStart compactedStartOffset

def mergeObject (threshold : Nat) (s : Storage) (stream : StreamView) (st : MergeState)
    (object : S3ObjectMetadata) : Except ObjectError MergeState :=
  match ObjectReader.basicObjectInfo s object with
  | .error e => .error e
  | .ok info =>
    let (groups, validDataStart, compactedStartOffset) :=
      mergeEntries threshold stream info.indexBlock.entries st.groups 0 st.compactedStartOffset
    let st : MergeState :=
      { st with
        groups
        objectSize := st.objectSize + (info.dataBlockSize - validDataStart)
        compactedStartOffset
        compactedObjectIds := st.compactedObjectIds ++ [object.objectId] }
    if validDataStart < info.dataBlockSize then
      match s.rangeRead object.key validDataStart (some info.dataBlockSize) with
      | .error e => .error e
      | .ok data => .ok { st with parts := st.parts ++ [data] }
    else .ok st

def mergeObjects (threshold : Nat) (s : Storage) (stream : StreamView) :
    MergeState → List S3ObjectMetadata → Except ObjectError MergeState
  | st, [] => .ok st
  | st, object :: objects =>
    match mergeObject threshold s stream st object with
    | .error e => .error e
    | .ok st => mergeObjects threshold s stream st objects

/-- Merge the non-empty group `first :: rest` into the object `objectId`. -/
def compactByPhysicalMerge (threshold : Nat) (s : Storage) (stream : StreamView)
    (first : S3ObjectMetadata) (rest : List S3ObjectMetadata) (objectId : Nat) :
    Except ObjectError (Storage × CompactStreamObjectRequest) :=
  match mergeObjects threshold s stream ⟨.new, 0, startOffsetOf first, [], []⟩ (first :: rest) with
  | .error e => .error e
  | .ok st =>
    let index : IndexBlock := ⟨st.groups.flush stream.streamId⟩
    let tail := index.encode ++ footer st.groups.nextBlockPosition index.encode.length
    .ok
      (s.write (genObjectKey objectId) (st.parts ++ [tail]).flatten,
        { objectId
          objectSize := st.objectSize + tail.length
          streamId := stream.streamId
          streamEpoch := stream.streamEpoch
          startOffset := st.compactedStartOffset
          endOffset := endOffsetOf ((first :: rest).getLast (cons_ne_nil _ _))
          sourceObjectIds := st.compactedObjectIds
          operations := List.replicate st.compactedObjectIds.length .delete
          attributes := (ObjectAttributes.new 0 false false).value })

/-! ## Regrouping -/

section Regrouping

open Segment

variable {threshold a b : Nat} {live : List Segment} {g : Segment}

/-- The regrouping after the blocks `live`: the closed runs and the open one. -/
structure Regrouped (streamId : Nat) (live : List Segment) (t : IndexGroups)
    (closed : List (List Segment)) (cur : List Segment) : Prop where
  flatten_eq : closed.flatten ++ cur = live
  indexes_eq : t.indexes =
    mergedEntries (fun _ => -1) (fun _ => streamId) 0 0 (closed.map entries)
  size_eq : t.groupSize = ((entries cur).map size).sum
  count_eq : t.groupRecordCount = ((entries cur).map DataBlockIndex.recordCount).sum
  next_eq : t.nextBlockPosition = ((entries live).map size).sum
  last_eq : t.lastIndex = (entries live).getLast?
  position_eq : cur ≠ [] →
    t.groupStartPosition = ((entries closed.flatten).map size).sum
  start_eq : cur ≠ [] →
    t.groupStartOffset = ((entries cur).head?.map DataBlockIndex.startOffset).getD 0
  closed_mergeable : ∀ run ∈ closed, ∃ a b, Mergeable streamId run a b
  cur_mergeable : cur ≠ [] → ∃ a b, Mergeable streamId cur a b

theorem regrouped_new (streamId : Nat) : Regrouped streamId [] .new [] [] where
  flatten_eq := rfl
  indexes_eq := rfl
  size_eq := rfl
  count_eq := rfl
  next_eq := rfl
  last_eq := rfl
  position_eq := absurd rfl
  start_eq := absurd rfl
  closed_mergeable := nofun
  cur_mergeable := absurd rfl

/-- The runs once the open one is closed as well. -/
def runsOf (closed : List (List Segment)) (cur : List Segment) : List (List Segment) :=
  if cur = [] then closed else closed ++ [cur]

theorem flatten_runsOf (closed : List (List Segment)) (cur : List Segment) :
    (runsOf closed cur).flatten = closed.flatten ++ cur := by
  unfold runsOf
  split <;> simp_all

section

variable (h : Regrouped streamId live t closed cur)

include h

theorem Regrouped.runs_mergeable :
    ∀ run ∈ runsOf closed cur, ∃ a b, Mergeable streamId run a b := by
  intro run hrun
  unfold runsOf at hrun
  split at hrun
  next => exact h.closed_mergeable run hrun
  next hne =>
    exact forall_mem_append.mpr
      ⟨h.closed_mergeable, forall_mem_singleton.mpr (h.cur_mergeable hne)⟩ run hrun

theorem Regrouped.groupSize_eq_zero (hne : ∀ g ∈ live, g.body ≠ []) :
    t.groupSize = 0 ↔ cur = [] := by
  rw [h.size_eq]
  constructor
  · intro hzero
    cases cur with
    | nil => rfl
    | cons g =>
      have hbody := hne g (by rw [← h.flatten_eq]; simp)
      have hlen := length_pos_iff.mpr hbody
      rw [sum_size, flatMap_cons, length_append] at hzero
      omega
  · rintro rfl
    rfl

theorem Regrouped.flush_eq (hne : ∀ g ∈ live, g.body ≠ []) : t.flush streamId =
      mergedEntries (fun _ => -1) (fun _ => streamId) 0 0 ((runsOf closed cur).map entries) := by
  have hzero := h.groupSize_eq_zero hne
  have hlast := h.last_eq
  unfold runsOf
  by_cases hcur : cur = []
  · rw [if_pos hcur, IndexGroups.flush]
    split
    · rw [if_neg (not_not.mpr (hzero.mpr hcur)), h.indexes_eq]
    · exact h.indexes_eq
  · have hentries : entries cur ≠ [] := by simpa [entries] using hcur
    have hlive : (entries live).getLast? = (entries cur).getLast? := by
      rw [← h.flatten_eq, entries, map_append]
      exact getLast?_append_of_ne_nil _ hentries
    rw [hlive, getLast?_eq_some_getLast hentries] at hlast
    rw [if_neg hcur, IndexGroups.flush, hlast]
    dsimp only
    rw [if_pos (mt hzero.mp hcur), map_append, map_singleton, mergedEntries_append,
      flatten_map_entries, zero_add, ← h.position_eq hcur, h.indexes_eq, h.start_eq hcur,
      h.size_eq, h.count_eq, mergedEntry, getLast?_eq_some_getLast hentries]
    rfl

/-- **One block.** It joins the open run or begins the next one. -/
theorem Regrouped.addBlock (hne : ∀ x ∈ live ++ [g], x.body ≠ [])
    (htiles : OffsetTiles a (live ++ [g]) b) (hspan : g.index.endOffsetDelta ≤ i32Max)
    (hstream : streamId < 256 ^ 8) (hthreshold : threshold < 2 ^ 32) :
    ∃ closed' cur', cur' ≠ [] ∧
      Regrouped streamId (live ++ [g]) (t.addBlock threshold streamId g.index) closed' cur' := by
  have hne' : ∀ x ∈ live, x.body ≠ [] := fun x hx => hne x (mem_append_left _ hx)
  have hi32 : i32Max = 2147483647 := rfl
  have hlast : (entries (live ++ [g])).getLast? = some g.index := by simp [entries]
  have hnext : ((entries (live ++ [g])).map size).sum =
      ((entries live).map size).sum + g.index.size := by simp [entries]
  obtain ⟨c, hlive, hg⟩ := OffsetTiles.append.mp htiles
  unfold IndexGroups.addBlock
  split
  · -- The open run is closed, and `g` is a run of its own.
    refine ⟨runsOf closed cur, [g], by simp, ?_⟩
    exact {
      flatten_eq := by rw [flatten_runsOf, h.flatten_eq]
      indexes_eq := h.flush_eq hne'
      size_eq := by simp [IndexGroups.push, IndexGroups.cut, entries]
      count_eq := by simp [IndexGroups.push, IndexGroups.cut, entries]
      next_eq := by rw [hnext, ← h.next_eq]; rfl
      last_eq := hlast.symm
      position_eq := fun _ => by
        rw [flatten_runsOf, h.flatten_eq, ← h.next_eq]
        rfl
      start_eq := fun _ => rfl
      closed_mergeable := h.runs_mergeable
      cur_mergeable := fun _ => ⟨c, b, {
        ne := by simp
        tiles := hg
        streamId_lt := hstream
        size_lt := by simpa [entries] using g.fits.2.2.2.2
        count_lt := by simpa [entries] using g.fits.2.2.2.1
        span_lt := by
          obtain ⟨rfl, -, rfl⟩ := hg
          simp only [DataBlockIndex.endOffset]
          omega }⟩ }
  · rename_i hjoin
    simp only [not_or, not_lt] at hjoin
    obtain ⟨hopen, hsize, hcount, hdelta⟩ := hjoin
    have hcur : cur ≠ [] := mt (h.groupSize_eq_zero hne').mpr hopen
    have htilesCur : OffsetTiles t.groupStartOffset (cur ++ [g]) b := by
      rw [← h.flatten_eq, append_assoc] at htiles
      obtain ⟨c', -, hrun⟩ := OffsetTiles.append.mp htiles
      obtain ⟨x, xs, hx⟩ := exists_cons_of_ne_nil hcur
      have hstart := h.start_eq hcur
      have hhead := hrun.start_eq (by simp)
      rw [hx] at hstart hhead
      rw [hstart]
      exact hhead ▸ hrun
    refine ⟨closed, cur ++ [g], by simp, ?_⟩
    exact {
      flatten_eq := by rw [← append_assoc, h.flatten_eq]
      indexes_eq := h.indexes_eq
      size_eq := by simp [IndexGroups.push, entries, h.size_eq]
      count_eq := by simp [IndexGroups.push, entries, h.count_eq]
      next_eq := by rw [hnext, ← h.next_eq]; rfl
      last_eq := hlast.symm
      position_eq := fun _ => h.position_eq hcur
      start_eq := fun _ => (htilesCur.start_eq (by simp)).symm
      closed_mergeable := h.closed_mergeable
      cur_mergeable := fun _ => ⟨t.groupStartOffset, b, {
        ne := by simp
        tiles := htilesCur
        streamId_lt := hstream
        size_lt := by
          have := h.size_eq
          simp only [entries, map_append, map_cons, map_nil, sum_append,
            sum_cons, sum_nil] at this ⊢
          omega
        count_lt := by
          have := h.count_eq
          simp only [entries, map_append, map_cons, map_nil, sum_append,
            sum_cons, sum_nil] at this ⊢
          omega
        span_lt := by
          have hend : g.index.endOffset = b := hg.2.2
          omega }⟩ }

end

/-- **All live blocks.** -/
theorem Regrouped.foldl (threshold : Nat) (h : Regrouped streamId live t closed cur)
    (hne : ∀ x ∈ live ++ more, x.body ≠ []) (htiles : OffsetTiles a (live ++ more) b)
    (hspan : ∀ x ∈ more, x.index.endOffsetDelta ≤ i32Max) (hstream : streamId < 256 ^ 8)
    (hthreshold : threshold < 2 ^ 32) :
    ∃ closed' cur', Regrouped streamId (live ++ more)
      ((entries more).foldl (IndexGroups.addBlock threshold streamId) t) closed' cur' := by
  induction more generalizing live t closed cur b with
  | nil => exact ⟨closed, cur, by simpa [entries] using h⟩
  | cons g more ih =>
    have hassoc : live ++ g :: more = (live ++ [g]) ++ more := by simp
    rw [hassoc] at hne htiles ⊢
    obtain ⟨c, hfirst, -⟩ := OffsetTiles.append.mp htiles
    obtain ⟨hg, hmore⟩ := forall_mem_cons.mp hspan
    obtain ⟨closed₁, cur₁, -, h₁⟩ :=
      h.addBlock (forall_mem_append.mp hne).1 hfirst hg hstream hthreshold
    exact ih h₁ hne htiles hmore

end Regrouping

/-! ## The objects of a group -/

section Objects

open Segment

variable {threshold : Nat} {s : Storage} {stream : StreamView} {a b : Nat}

/-- The segments that end at or below an offset come before the others. -/
theorem exists_expired_append_live (start : Nat) (h : OffsetTiles a gs b) :
    ∃ expired live, gs = expired ++ live ∧ (∀ g ∈ expired, g.index.endOffset ≤ start) ∧
      ∀ g ∈ live, start < g.index.endOffset := by
  induction gs generalizing a with
  | nil => exact ⟨[], [], rfl, nofun, nofun⟩
  | cons g gs ih =>
    by_cases hg : g.index.endOffset ≤ start
    · obtain ⟨expired, live, rfl, hexpired, hlive⟩ := ih h.2.2
      exact ⟨g :: expired, live, rfl, forall_mem_cons.mpr ⟨hg, hexpired⟩, hlive⟩
    · exact ⟨[], g :: gs, rfl, nofun, forall_mem_cons.mpr ⟨not_le.mp hg, fun x hx =>
        (not_le.mp hg).trans (OffsetTiles.lt_endOffset h.2.2 hx)⟩⟩

theorem mergeEntries_live (h : ∀ g ∈ live, stream.startOffset < g.index.endOffset)
    (t : IndexGroups) (v c : Nat) : mergeEntries threshold stream (entries live) t v c =
      ((entries live).foldl (IndexGroups.addBlock threshold stream.streamId) t, v, c) := by
  induction live generalizing t with
  | nil => rfl
  | cons g live ih =>
    obtain ⟨hg, hlive⟩ := forall_mem_cons.mp h
    rw [entries, map_cons, mergeEntries, if_neg (not_le.mpr hg)]
    exact ih hlive _

/-- Behind the expired blocks of an object: the position and the offset the live ones begin at. -/
theorem mergeEntries_expired (threshold : Nat) (hlaid : Laid i pos (expired ++ live))
    (htiles : OffsetTiles a (expired ++ live) b)
    (hexpired : ∀ g ∈ expired, g.index.endOffset ≤ stream.startOffset) (t : IndexGroups)
    (v c : Nat) : ∃ a', OffsetTiles a' live b ∧ (expired = [] → a' = a) ∧
      mergeEntries threshold stream (entries (expired ++ live)) t v c =
        mergeEntries threshold stream (entries live) t
          (if expired = [] then v else pos + (dataSection expired).length)
          (if expired = [] then c else a') := by
  induction expired generalizing i pos a v c with
  | nil => exact ⟨a, htiles, fun _ => rfl, rfl⟩
  | cons g expired ih =>
    obtain ⟨-, hpos, hlaid⟩ := hlaid
    obtain ⟨-, -, htiles⟩ := htiles
    obtain ⟨hg, hexpired⟩ := forall_mem_cons.mp hexpired
    obtain ⟨a', htiles', hnil, heq⟩ :=
      ih hlaid htiles hexpired g.index.endPosition g.index.endOffset
    refine ⟨a', htiles', nofun, ?_⟩
    have hend : g.index.endPosition = pos + g.body.length := by
      rw [DataBlockIndex.endPosition, hpos, g.size_eq]
    rw [cons_append, entries, map_cons, mergeEntries, if_pos hg, if_neg (cons_ne_nil _ _),
      if_neg (cons_ne_nil _ _)]
    refine heq.trans ?_
    cases expired with
    | nil =>
      rw [if_pos rfl, if_pos rfl, hend, hnil rfl]
      simp [dataSection]
    | cons =>
      simp [dataSection, add_assoc]

/-- The live blocks are regrouped and copied behind those of `st`. -/
structure Copied (threshold : Nat) (stream : StreamView) (st : MergeState) (live : List Segment)
    (st' : MergeState) : Prop where
  groups : st'.groups =
    (entries live).foldl (IndexGroups.addBlock threshold stream.streamId) st.groups
  size : st'.objectSize = st.objectSize + (dataSection live).length
  parts : st'.parts.flatten = st.parts.flatten ++ dataSection live

theorem Copied.trans (h : Copied threshold stream st live st₁)
    (h' : Copied threshold stream st₁ live' st₂) :
    Copied threshold stream st (live ++ live') st₂ where
  groups := by rw [h'.groups, h.groups, entries, entries, entries, map_append, foldl_append]
  size := by simp [h'.size, h.size, dataSection, add_assoc]
  parts := by simp [h'.parts, h.parts, dataSection]

/-- **One object.** Its live data is appended and its live entries are regrouped. -/
theorem mergeObject_eq_ok (threshold : Nat) (st : MergeState)
    (hholds : Holds s m (expired ++ live)) (htiles : OffsetTiles a (expired ++ live) b)
    (hexpired : ∀ g ∈ expired, g.index.endOffset ≤ stream.startOffset)
    (hlive : ∀ g ∈ live, stream.startOffset < g.index.endOffset) :
    ∃ a' st', OffsetTiles a' live b ∧ (expired = [] → a' = a) ∧
      mergeObject threshold s stream st m = .ok st' ∧
      st'.compactedStartOffset = (if expired = [] then st.compactedStartOffset else a') ∧
      Copied threshold stream st live st' := by
  obtain ⟨a', htiles', hnil, hmerge⟩ := mergeEntries_expired threshold hholds.laid htiles hexpired
    st.groups 0 st.compactedStartOffset
  have hvalid : (if expired = [] then 0 else 0 + (dataSection expired).length) =
      (dataSection expired).length := by
    split <;> simp_all [dataSection]
  have hdata : dataSection (expired ++ live) = dataSection expired ++ dataSection live :=
    flatMap_append
  rw [mergeEntries_live hlive, hvalid] at hmerge
  rw [mergeObject, hholds.basicObjectInfo]
  dsimp only
  rw [indexBlock, ← entries, hmerge]
  dsimp only
  rw [hdata, length_append, Nat.add_sub_cancel_left]
  by_cases hempty : dataSection live = []
  · rw [if_neg (by rw [hempty]; simp)]
    exact ⟨a', _, htiles', hnil, rfl, rfl, rfl, rfl, by rw [hempty, append_nil]⟩
  · have hread : s.rangeRead m.key (dataSection expired).length
        (some ((dataSection expired).length + (dataSection live).length)) =
          .ok (dataSection live) := by
      rw [Storage.rangeRead_of_lookup hholds.stored, Option.getD_some, Nat.add_sub_cancel_left,
        objectBytes, hdata, append_assoc, Bytes.drop_front _ rfl, Bytes.take_front _ rfl]
    have hpos := length_pos_iff.mpr hempty
    rw [if_pos (by omega), hread]
    exact ⟨a', _, htiles', hnil, rfl, rfl, rfl, rfl, by simp⟩

/-- Source objects that follow each other without a gap, each with an index that covers the range
its metadata gives. -/
def ContiguousObjects : Nat → List (S3ObjectMetadata × List Segment) → Nat → Prop
  | a, [], b => a = b
  | a, (m, gs) :: rest, b => startOffsetOf m = a ∧ OffsetTiles a gs (endOffsetOf m) ∧
      ContiguousObjects (endOffsetOf m) rest b

variable {sources : List (S3ObjectMetadata × List Segment)}

theorem ContiguousObjects.tiles (h : ContiguousObjects a sources b) :
    OffsetTiles a (sources.flatMap (·.2)) b := by
  induction sources generalizing a with
  | nil => exact h
  | cons p sources ih =>
    obtain ⟨-, hfirst, hrest⟩ := h
    exact OffsetTiles.append.mpr ⟨_, hfirst, ih hrest⟩

theorem ContiguousObjects.endOffsetOf_getLast (h : ContiguousObjects a sources b)
    (hm : (sources.map (·.1)).getLast? = some m) : endOffsetOf m = b := by
  induction sources generalizing a with
  | nil => cases hm
  | cons p sources ih =>
    obtain ⟨-, -, hrest⟩ := h
    cases sources with
    | nil =>
      cases hm
      exact hrest
    | cons => exact ih hrest (by simpa using hm)

theorem mergeObjects_live (threshold : Nat) (st : MergeState)
    (hholds : ∀ p ∈ sources, Holds s p.1 p.2) (h : ContiguousObjects a sources b)
    (hstart : stream.startOffset < a) :
    ∃ st', mergeObjects threshold s stream st (sources.map (·.1)) = .ok st' ∧
      st'.compactedStartOffset = st.compactedStartOffset ∧
      Copied threshold stream st (sources.flatMap (·.2)) st' := by
  induction sources generalizing a st with
  | nil => exact ⟨st, rfl, rfl, rfl, rfl, (append_nil _).symm⟩
  | cons p sources ih =>
    obtain ⟨-, hfirst, hrest⟩ := h
    obtain ⟨hobject, hholds⟩ := forall_mem_cons.mp hholds
    obtain ⟨_, st₁, -, -, hok, hcompacted, hcopied⟩ := mergeObject_eq_ok threshold st hobject hfirst
      (forall_mem_nil _) fun g hg => hstart.trans (hfirst.lt_endOffset hg)
    obtain ⟨st₂, hok₂, hcompacted₂, hcopied₂⟩ := ih st₁ hholds hrest (hstart.trans_le hfirst.le)
    refine ⟨st₂, ?_, hcompacted₂.trans hcompacted, hcopied.trans hcopied₂⟩
    rw [map_cons, mergeObjects, hok]
    exact hok₂

/-- The blocks that end above the start offset. -/
def liveBlocks (stream : StreamView) (sources : List (S3ObjectMetadata × List Segment)) :
    List Segment :=
  (sources.flatMap (·.2)).filter fun g => stream.startOffset < g.index.endOffset

def mergedIndex (threshold : Nat) (stream : StreamView)
    (sources : List (S3ObjectMetadata × List Segment)) : IndexBlock :=
  ⟨((entries (liveBlocks stream sources)).foldl (IndexGroups.addBlock threshold stream.streamId)
    .new).flush stream.streamId⟩

theorem nextBlockPosition_foldl (threshold streamId : Nat) (es : List DataBlockIndex)
    (t : IndexGroups) : (es.foldl (IndexGroups.addBlock threshold streamId) t).nextBlockPosition =
      t.nextBlockPosition + (es.map size).sum := by
  induction es generalizing t with
  | nil => rfl
  | cons e es ih =>
    have hadd : (t.addBlock threshold streamId e).nextBlockPosition =
        t.nextBlockPosition + e.size := by
      unfold IndexGroups.addBlock
      split <;> rfl
    rw [foldl_cons, ih, hadd, map_cons, sum_cons, add_assoc]

/-! ## The number of merged entries -/

namespace IndexGroups

variable {t : IndexGroups} {e : DataBlockIndex} {es : List DataBlockIndex}

theorem length_flush_le (streamId : Nat) (t : IndexGroups) :
    t.indexes.length ≤ (t.flush streamId).length ∧
      (t.flush streamId).length ≤ t.indexes.length + if t.groupSize = 0 then 0 else 1 := by
  unfold flush
  split
  · split <;> simp_all
  · simp

/-- Neighbouring entries are together above the threshold: each of them but the last is closed by
a block that does not fit. -/
structure Filled (threshold a : Nat) (t : IndexGroups) : Prop where
  filled : t.indexes.length * (threshold + 1) + t.groupSize ≤ 2 * t.nextBlockPosition
  start : t.groupSize ≠ 0 → a ≤ t.groupStartOffset

theorem Filled.addBlock (streamId : Nat) (h : t.Filled threshold a) (hstart : a ≤ e.startOffset)
    (hend : e.endOffset ≤ a + i32Max) (hcount : t.groupRecordCount + e.recordCount ≤ i32Max) :
    (t.addBlock threshold streamId e).Filled threshold a := by
  obtain ⟨hfilled, hopen⟩ := h
  unfold IndexGroups.addBlock
  split
  · rename_i hcut
    refine ⟨?_, fun _ => hstart⟩
    show (t.flush streamId).length * (threshold + 1) + (0 + e.size) ≤
      2 * (t.nextBlockPosition + e.size)
    obtain ⟨-, hflush⟩ := length_flush_le streamId t
    have hmul := Nat.mul_le_mul_right (threshold + 1) hflush
    rw [Nat.add_mul] at hmul
    split at hmul
    · omega
    · rename_i hsize
      have hlarge : threshold < t.groupSize + e.size := by
        have hbegin := hopen hsize
        omega
      omega
  · refine ⟨?_, fun _ => hopen (by omega)⟩
    show t.indexes.length * (threshold + 1) + (t.groupSize + e.size) ≤
      2 * (t.nextBlockPosition + e.size)
    omega

theorem groupRecordCount_addBlock_le (threshold streamId : Nat) (t : IndexGroups)
    (e : DataBlockIndex) : (t.addBlock threshold streamId e).groupRecordCount ≤
      t.groupRecordCount + e.recordCount := by
  unfold IndexGroups.addBlock
  split
  · show 0 + e.recordCount ≤ _
    omega
  · exact le_rfl

theorem Filled.foldl (streamId : Nat) (h : t.Filled threshold a)
    (hrange : ∀ e ∈ es, a ≤ e.startOffset ∧ e.endOffset ≤ a + i32Max)
    (hcount : t.groupRecordCount + (es.map DataBlockIndex.recordCount).sum ≤ i32Max) :
    (es.foldl (IndexGroups.addBlock threshold streamId) t).Filled threshold a := by
  induction es generalizing t with
  | nil => exact h
  | cons e es ih =>
    rw [map_cons, sum_cons] at hcount
    have hle := groupRecordCount_addBlock_le threshold streamId t e
    obtain ⟨hstart, hend⟩ := hrange e mem_cons_self
    exact ih (h.addBlock streamId hstart hend (by omega))
      (fun x hx => hrange x (mem_cons_of_mem e hx)) (by omega)

theorem length_flush_foldl_le (threshold streamId : Nat) (es : List DataBlockIndex)
    (t : IndexGroups) :
    ((es.foldl (IndexGroups.addBlock threshold streamId) t).flush streamId).length ≤
      (t.flush streamId).length + es.length := by
  induction es generalizing t with
  | nil => exact le_rfl
  | cons e es ih =>
    have hadd : ((t.addBlock threshold streamId e).flush streamId).length ≤
        (t.flush streamId).length + 1 := by
      refine (length_flush_le streamId _).2.trans ?_
      have hindexes : (t.addBlock threshold streamId e).indexes.length ≤
          (t.flush streamId).length := by
        unfold IndexGroups.addBlock
        split
        · exact le_rfl
        · exact (length_flush_le streamId t).1
      split <;> omega
    refine (ih _).trans ?_
    rw [length_cons]
    omega

end IndexGroups

/-- **What the merge writes and reports.** -/
theorem compactByPhysicalMerge_eq_ok {index : IndexBlock} (threshold objectId : Nat)
    (hholds : ∀ p ∈ (first, gs) :: rest, Holds s p.1 p.2)
    (hcontiguous : ContiguousObjects a ((first, gs) :: rest) b)
    (hstart : stream.startOffset < endOffsetOf first)
    (hblocks : blocks = liveBlocks stream ((first, gs) :: rest))
    (hindex : index = mergedIndex threshold stream ((first, gs) :: rest)) :
    ∃ a' req, OffsetTiles a' blocks b ∧
      compactByPhysicalMerge threshold s stream first (rest.map (·.1)) objectId =
        .ok (s.write (genObjectKey objectId) (dataSection blocks ++
          (index.encode ++ footer (dataSection blocks).length index.encode.length)), req) ∧
      req.objectSize = (dataSection blocks).length + index.encode.length + footerSize ∧
      req.startOffset = a' ∧ req.endOffset = b := by
  have hobjects := hcontiguous
  obtain ⟨hfirstStart, hfirst, hrest⟩ := hcontiguous
  obtain ⟨hobject, hothers⟩ := forall_mem_cons.mp hholds
  obtain ⟨expired, live, rfl, hexpired, hlive⟩ := exists_expired_append_live
    stream.startOffset hfirst
  obtain ⟨a', st₁, htiles, hnil, hok, hcompacted, hcopied⟩ := mergeObject_eq_ok threshold
    ⟨.new, 0, startOffsetOf first, [], []⟩ hobject hfirst hexpired hlive
  obtain ⟨st₂, hok₂, hcompacted₂, hcopied₂⟩ := mergeObjects_live threshold st₁ hothers hrest hstart
  have hlive : blocks = live ++ rest.flatMap (·.2) := by
    rw [hblocks, liveBlocks, flatMap_cons, filter_append, filter_append,
      filter_eq_nil_iff.mpr fun g hg => by simpa using hexpired g hg,
      filter_eq_self.mpr fun g hg => by simpa using hlive g hg,
      filter_eq_self.mpr fun g hg => by simpa using hstart.trans (hrest.tiles.lt_endOffset hg),
      nil_append]
  have hall := hcopied.trans hcopied₂
  rw [← hlive] at hall
  have hflush : (⟨st₂.groups.flush stream.streamId⟩ : IndexBlock) = index := by
    rw [hindex, mergedIndex, ← hblocks, hall.groups]
  have hposition : st₂.groups.nextBlockPosition = (dataSection blocks).length := by
    rw [hall.groups, nextBlockPosition_foldl, sum_size]
    exact zero_add _
  have hmerge : mergeObjects threshold s stream ⟨.new, 0, startOffsetOf first, [], []⟩
      (first :: rest.map (·.1)) = .ok st₂ := by
    rw [mergeObjects, hok]
    exact hok₂
  rw [compactByPhysicalMerge, hmerge]
  dsimp only
  rw [hflush, hposition]
  refine ⟨a', _, ?_, congrArg Except.ok (Prod.ext ?_ rfl), ?_, ?_, ?_⟩
  · rw [hlive]
    exact OffsetTiles.append.mpr ⟨_, htiles, hrest.tiles⟩
  · rw [flatten_append, hall.parts]
    simp
  · rw [hall.size, length_append, length_footer]
    simp only [zero_add, add_assoc]
  · rw [hcompacted₂, hcompacted]
    split
    next h => rw [hnil h, hfirstStart]
    next => rfl
  · apply hobjects.endOffsetOf_getLast
    rw [map_cons, getLast?_eq_some_getLast (cons_ne_nil _ _)]

/-- The records of the block cover its range, which is short enough, and its entry counts them. -/
def Whole (g : Segment) : Prop :=
  g.index.endOffsetDelta ≤ i32Max ∧ g.index.recordCount = g.records.length ∧
    Tiles StreamRecordBatch.baseOffset StreamRecordBatch.lastOffset g.index.startOffset
      g.records g.index.endOffset

/-- No bytes decode to no record, which covers no range. -/
theorem Whole.body_ne {g : Segment} (h : Whole g)
    (hlt : g.index.startOffset < g.index.endOffset) : g.body ≠ [] := by
  intro hbody
  have hdecode := g.decode_eq
  rw [hbody] at hdecode
  have hrecords : [] = g.records := Except.ok.inj hdecode
  obtain ⟨-, -, htiles⟩ := h
  rw [← hrecords] at htiles
  exact hlt.ne htiles

theorem exists_holds_merged {index : IndexBlock} (hlive : ∀ g ∈ live, Whole g)
    (htiles : OffsetTiles a live b)
    (hstream : stream.streamId < 256 ^ 8) (hthreshold : threshold < 2 ^ 32)
    (hindex : index = ⟨((entries live).foldl (IndexGroups.addBlock threshold stream.streamId)
      .new).flush stream.streamId⟩)
    (hstored : s.lookup m.key = some (dataSection live ++ (index.encode ++
      footer (dataSection live).length index.encode.length)))
    (hsize : m.objectSize = (dataSection live).length + index.encode.length + footerSize)
    (hfits : index.entries.length * blockIndexSize < 2 ^ 32) :
    ∃ gs, Holds s m gs ∧ OffsetTiles a gs b ∧ (∀ g ∈ gs, g.body ≠ []) ∧
      (∀ g ∈ gs, g.index.streamId = stream.streamId) ∧
      dataSection gs = dataSection live ∧ gs.flatMap records = live.flatMap records := by
  have hne : ∀ g ∈ live, g.body ≠ [] := fun g hg =>
    (hlive g hg).body_ne (Tiles.lo_lt_hi htiles (mem_map_of_mem hg))
  obtain ⟨closed, cur, hregrouped⟩ := (regrouped_new stream.streamId).foldl threshold hne htiles
    (fun g hg => (hlive g hg).1) hstream hthreshold
  rw [nil_append] at hregrouped
  have hruns := hregrouped.runs_mergeable
  have hflush := hregrouped.flush_eq hne
  have hflatten : (runsOf closed cur).flatten = live := by
    rw [flatten_runsOf, hregrouped.flatten_eq]
  obtain ⟨gs, hlaid, hentries, hbody, hrecords, hgsTiles⟩ :=
    exists_merged (fun _ => stream.streamId) 0 0 hruns
  have hdata : dataSection gs = dataSection live := by
    rw [dataSection, flatMap_def, hbody, flatten_map_flatMap, hflatten, dataSection]
  have hencode : (indexBlock gs).encode = index.encode := by
    rw [hindex, hflush, encode_mergedEntries _ asI32, ← hentries]
    rfl
  have hlength : (indexBlock gs).encode.length < 2 ^ 32 := by
    rw [hencode, IndexBlock.length_encode]
    exact hfits
  refine ⟨gs, ⟨hlaid, ?_, ?_, hlength⟩, hgsTiles a b (hflatten ▸ htiles), ?_, ?_, hdata, ?_⟩
  · rw [hstored, objectBytes, hdata, hencode]
  · rw [hsize, objectBytes, hdata, hencode]
    simp only [length_append, length_footer, add_assoc]
  · intro g hg
    obtain ⟨run, hrun, hg'⟩ := mem_map.mp (hbody ▸ mem_map_of_mem hg)
    obtain ⟨_, _, hmergeable⟩ := hruns run hrun
    obtain ⟨x, xs, rfl⟩ := exists_cons_of_ne_nil hmergeable.ne
    have hx := hne x (by rw [← hflatten]; exact mem_flatten_of_mem hrun mem_cons_self)
    rw [← hg', flatMap_cons]
    simp [hx]
  · intro g hg
    have hmem : g.index ∈ entries gs := mem_map_of_mem hg
    rw [hentries] at hmem
    exact streamId_of_mem_mergedEntries hmem
  · rw [flatMap_def, hrecords, flatten_map_flatMap, hflatten]

end Objects

end S3Stream
