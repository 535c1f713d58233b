import S3Stream.Compact.PhysicalMerge
import S3Stream.Lib.Greedy

/-! # The groups of a stream object compaction

`group0` of `s3stream-core/src/compact/stream_compactor.rs`: the objects of a stream are grouped
while they follow one another and the limits on size, count, parts and offset span hold. The running
totals of the loop are those of the open group, so that the loop is a greedy grouping. -/

namespace S3Stream

open List

inductive CompactionLevel where
  | cleanup
  | minor
  | major
  | cleanupV1
  | minorV1
  | majorV1
  deriving DecidableEq, Repr

def maxPartCount : Nat := 10000

def maxPartSize : Nat := 5 * 1024 * 1024 * 1024

def maxObjectGroupCount : Nat := 5000

def objectPartCount (o : S3ObjectMetadata) : Nat := (o.objectSize + (maxPartSize - 1)) / maxPartSize

def objectFilter (level : CompactionLevel) (minMajorV1Size : Nat) (o : S3ObjectMetadata) : Bool :=
  if level ≠ .majorV1 ∧ o.attributes.isComposite then false
  else if level = .majorV1 ∧ !o.attributes.isComposite ∧ o.objectSize < minMajorV1Size then false
  else true

structure Group0State where
  groups : List (List S3ObjectMetadata)
  group : List S3ObjectMetadata
  groupSize : Nat
  groupStartOffset : Nat
  groupNextOffset : Option Nat
  partCount : Nat

namespace Group0State

def new : Group0State := ⟨[], [], 0, 0, none, 0⟩

/-- The first object of all sets the offsets. -/
def begin (s : Group0State) (o : S3ObjectMetadata) : Group0State :=
  if s.groupNextOffset = none then
    { s with groupStartOffset := startOffsetOf o, groupNextOffset := some (startOffsetOf o) }
  else s

/-- Whether the object does not fit the group; `none` is a subtraction that goes below zero. -/
def refuses (maxStreamObjectSize : Nat) (s : Group0State) (o : S3ObjectMetadata) : Option Bool :=
  if s.groupNextOffset ≠ some (startOffsetOf o) ∨
      (maxStreamObjectSize < s.groupSize + o.objectSize ∧ s.group ≠ []) ∨
      maxObjectGroupCount ≤ s.group.length ∨ maxPartCount < s.partCount + objectPartCount o then
    some true
  else if endOffsetOf o < s.groupStartOffset then none
  else some (decide (i32Max < endOffsetOf o - s.groupStartOffset))

def closeGroup (s : Group0State) (o : S3ObjectMetadata) : Group0State :=
  { s with
    groups := if s.group = [] then s.groups else s.groups ++ [s.group]
    group := []
    groupSize := 0
    groupStartOffset := startOffsetOf o
    partCount := 0 }

def addObject (s : Group0State) (o : S3ObjectMetadata) : Group0State :=
  { s with
    group := s.group ++ [o]
    groupSize := s.groupSize + o.objectSize
    groupNextOffset := some (endOffsetOf o)
    partCount := s.partCount + objectPartCount o }

end Group0State

def isGrouped (level : CompactionLevel) (minMajorV1Size : Nat) (o : S3ObjectMetadata) : Bool :=
  objectFilter level minMajorV1Size o && decide (objectPartCount o < maxPartCount)

def group0Object (maxStreamObjectSize : Nat) (level : CompactionLevel) (minMajorV1Size : Nat)
    (s : Group0State) (o : S3ObjectMetadata) : Option Group0State :=
  if isGrouped level minMajorV1Size o then
    ((s.begin o).refuses maxStreamObjectSize o).map fun refused =>
      (if refused then (s.begin o).closeGroup o else s.begin o).addObject o
  else some s

def group0 (objects : List S3ObjectMetadata) (maxStreamObjectSize : Nat) (level : CompactionLevel)
    (minMajorV1Size : Nat) : Option (List (List S3ObjectMetadata)) :=
  (objects.foldlM (group0Object maxStreamObjectSize level minMajorV1Size) .new).map fun s =>
    if s.group = [] then s.groups else s.groups ++ [s.group]

/-! ## The totals of a group -/

def objectsSize (g : List S3ObjectMetadata) : Nat := (g.map S3ObjectMetadata.objectSize).sum

def objectsPartCount (g : List S3ObjectMetadata) : Nat := (g.map objectPartCount).sum

def objectsStart (g : List S3ObjectMetadata) : Nat := (g.head?.map startOffsetOf).getD 0

def objectsEnd (g : List S3ObjectMetadata) : Nat := (g.getLast?.map endOffsetOf).getD 0

section
variable {o : S3ObjectMetadata}

theorem objectsSize_concat : objectsSize (g ++ [o]) = objectsSize g + o.objectSize := by
  simp [objectsSize]

theorem objectsPartCount_concat : objectsPartCount (g ++ [o]) =
    objectsPartCount g + objectPartCount o := by
  rw [objectsPartCount, map_append, sum_append, map_singleton, sum_singleton, objectsPartCount]

theorem objectsSize_singleton : objectsSize [o] = 0 + o.objectSize := objectsSize_concat (g := [])

theorem objectsPartCount_singleton : objectsPartCount [o] = 0 + objectPartCount o :=
  objectsPartCount_concat (g := [])

theorem objectsStart_concat (hne : g ≠ []) : objectsStart (g ++ [o]) = objectsStart g := by
  obtain ⟨x, xs, rfl⟩ := exists_cons_of_ne_nil hne
  rfl

theorem objectsEnd_concat : objectsEnd (g ++ [o]) = endOffsetOf o := by
  simp [objectsEnd]

theorem exists_objectsStart (hne : g ≠ []) : ∃ x ∈ g, startOffsetOf x = objectsStart g := by
  obtain ⟨x, xs, rfl⟩ := exists_cons_of_ne_nil hne
  exact ⟨x, mem_cons_self, rfl⟩

end

/-- Whether an object begins a group behind the group `g`. -/
def beginsGroup (maxStreamObjectSize : Nat) (g : List S3ObjectMetadata) (o : S3ObjectMetadata) :
    Bool :=
  decide (objectsEnd g ≠ startOffsetOf o ∨ maxStreamObjectSize < objectsSize g + o.objectSize ∨
    maxObjectGroupCount ≤ g.length ∨ maxPartCount < objectsPartCount g + objectPartCount o ∨
    i32Max < endOffsetOf o - objectsStart g)

/-- The variables are the totals of the open group. -/
structure Group0State.Tracks (s : Group0State) (t : Greedy.Groups S3ObjectMetadata) : Prop where
  groups : s.groups = t.1
  group : s.group = t.2
  size : s.groupSize = objectsSize t.2
  parts : s.partCount = objectsPartCount t.2
  start : t.2 ≠ [] → s.groupStartOffset = objectsStart t.2
  next : s.groupNextOffset = if t.2 = [] then none else some (objectsEnd t.2)

namespace Group0State

variable {s : Group0State} {t : Greedy.Groups S3ObjectMetadata} {o : S3ObjectMetadata}

theorem tracks_new : new.Tracks ([], []) := ⟨rfl, rfl, rfl, rfl, fun h => absurd rfl h, rfl⟩

theorem tracks_first (hgroup : s.group = []) (hgroups : s.groups = t.1) (hsize : s.groupSize = 0)
    (hparts : s.partCount = 0) (hstart : s.groupStartOffset = startOffsetOf o) (refused : Bool) :
    ((if refused then s.closeGroup o else s).addObject o).Tracks (t.1, [o]) := by
  cases refused with
  | true =>
    rw [if_pos rfl, closeGroup, if_pos hgroup]
    exact ⟨hgroups, rfl, objectsSize_singleton.symm, objectsPartCount_singleton.symm,
      fun _ => rfl, rfl⟩
  | false =>
    rw [if_neg (by decide)]
    refine ⟨hgroups, ?_, ?_, ?_, fun _ => hstart, rfl⟩
    · rw [Group0State.addObject, hgroup]
      rfl
    · rw [Group0State.addObject, hsize]
      exact objectsSize_singleton.symm
    · rw [Group0State.addObject, hparts]
      exact objectsPartCount_singleton.symm

/-- The subtraction of the span does not go below zero where the objects are in order. -/
theorem Tracks.exists_refuses (h : s.Tracks t) (maxStreamObjectSize : Nat)
    (horder : startOffsetOf o ≤ endOffsetOf o)
    (hle : ∀ x ∈ t.2, startOffsetOf x ≤ startOffsetOf o) :
    ∃ refused, (s.begin o).refuses maxStreamObjectSize o = some refused := by
  have hbelow : ¬ endOffsetOf o < (s.begin o).groupStartOffset := by
    rw [begin, h.next]
    by_cases hnil : t.2 = []
    · rw [if_pos hnil, if_pos rfl]
      exact not_lt.mpr horder
    · obtain ⟨x, hx, hxstart⟩ := exists_objectsStart hnil
      rw [if_neg hnil, if_neg nofun, h.start hnil, ← hxstart]
      exact not_lt.mpr ((hle x hx).trans horder)
  unfold refuses
  split
  · exact ⟨true, rfl⟩
  · exact ⟨_, rfl⟩

theorem Tracks.refuses_eq (h : s.Tracks t) (hne : t.2 ≠ [])
    (hrefused : s.refuses maxStreamObjectSize o = some refused) :
    refused = beginsGroup maxStreamObjectSize t.2 o := by
  have hnext : s.groupNextOffset = some (objectsEnd t.2) := h.next.trans (if_neg hne)
  rw [refuses, hnext, h.size, h.group, h.parts, h.start hne] at hrefused
  rw [beginsGroup]
  split at hrefused
  · rename_i hcut
    cases hrefused
    refine (decide_eq_true ?_).symm
    rcases hcut with hgap | ⟨hlarge, -⟩ | hcount | hmany
    · exact .inl fun heq => hgap (congrArg some heq)
    · exact .inr (.inl hlarge)
    · exact .inr (.inr (.inl hcount))
    · exact .inr (.inr (.inr (.inl hmany)))
  · rename_i hfits
    rw [Option.ite_none_left_eq_some] at hrefused
    obtain ⟨-, hrefused⟩ := hrefused
    cases hrefused
    refine decide_eq_decide.mpr ⟨fun hspan => .inr (.inr (.inr (.inr hspan))), ?_⟩
    rintro (hgap | hlarge | hcount | hmany | hspan)
    · exact absurd (.inl fun heq => hgap (Option.some.inj heq)) hfits
    · exact absurd (.inr (.inl ⟨hlarge, hne⟩)) hfits
    · exact absurd (.inr (.inr (.inl hcount))) hfits
    · exact absurd (.inr (.inr (.inr hmany))) hfits
    · exact hspan

/-- **One object.** -/
theorem Tracks.addObject (h : s.Tracks t)
    (hrefused : (s.begin o).refuses maxStreamObjectSize o = some refused) :
    ((if refused then (s.begin o).closeGroup o else s.begin o).addObject o).Tracks
      (Greedy.push (beginsGroup maxStreamObjectSize) t o) := by
  by_cases hnil : t.2 = []
  · -- The first object of all.
    obtain ⟨hgroups, hgroup, hsize, hparts, -, hnext⟩ := h
    rw [if_pos hnil] at hnext
    rw [hnil] at hgroup hsize hparts
    have hbegin : s.begin o = { s with
        groupStartOffset := startOffsetOf o, groupNextOffset := some (startOffsetOf o) } :=
      if_pos hnext
    have hpush : Greedy.push (beginsGroup maxStreamObjectSize) t o = (t.1, [o]) := by
      rw [Greedy.push, hnil]
      rfl
    rw [hbegin, hpush]
    exact tracks_first (s := { s with
      groupStartOffset := startOffsetOf o, groupNextOffset := some (startOffsetOf o) })
      hgroup hgroups hsize hparts rfl refused
  · have hbegin : s.begin o = s := if_neg (by rw [h.next, if_neg hnil]; nofun)
    rw [hbegin] at hrefused ⊢
    obtain rfl := h.refuses_eq hnil hrefused
    obtain ⟨hgroups, hgroup, hsize, hparts, hstart, -⟩ := h
    rw [Greedy.push, isEmpty_eq_false_iff.mpr hnil]
    cases hbegins : beginsGroup maxStreamObjectSize t.2 o with
    | true =>
      rw [if_pos rfl, if_pos (by rfl), closeGroup, if_neg (hgroup ▸ hnil)]
      refine ⟨?_, rfl, objectsSize_singleton.symm, objectsPartCount_singleton.symm,
        fun _ => rfl, rfl⟩
      show s.groups ++ [s.group] = _
      rw [hgroups, hgroup]
    | false =>
      rw [if_neg (by decide), if_neg (by decide)]
      refine ⟨hgroups, ?_, ?_, ?_, fun _ => ?_, ?_⟩
      · show s.group ++ [o] = _
        rw [hgroup]
      · show s.groupSize + o.objectSize = _
        rw [hsize, objectsSize_concat]
      · show s.partCount + objectPartCount o = _
        rw [hparts, objectsPartCount_concat]
      · show s.groupStartOffset = _
        rw [hstart hnil, objectsStart_concat hnil]
      · show some (endOffsetOf o) = _
        rw [if_neg (append_ne_nil_of_right_ne_nil _ (cons_ne_nil _ _)), objectsEnd_concat]

end Group0State

/-! ## The groups -/

structure StreamGroup (maxStreamObjectSize : Nat) (g : List S3ObjectMetadata) : Prop where
  contiguous : g.IsChain fun x y => endOffsetOf x = startOffsetOf y
  count : g.length ≤ maxObjectGroupCount
  parts : objectsPartCount g ≤ maxPartCount
  size : 2 ≤ g.length → objectsSize g ≤ maxStreamObjectSize
  span : 2 ≤ g.length → objectsEnd g ≤ objectsStart g + i32Max

variable {maxStreamObjectSize : Nat} {objects : List S3ObjectMetadata}

theorem streamGroup_singleton {o : S3ObjectMetadata} (hparts : objectPartCount o < maxPartCount) :
    StreamGroup maxStreamObjectSize [o] where
  contiguous := isChain_singleton _
  count := (by decide : 1 ≤ maxObjectGroupCount)
  parts := by
    rw [objectsPartCount_singleton, zero_add]
    exact hparts.le
  size := fun h => absurd h (by decide : ¬2 ≤ 1)
  span := fun h => absurd h (by decide : ¬2 ≤ 1)

theorem StreamGroup.concat (hne : g ≠ []) (h : StreamGroup maxStreamObjectSize g)
    (hjoins : beginsGroup maxStreamObjectSize g o = false) :
    StreamGroup maxStreamObjectSize (g ++ [o]) := by
  have hfits := of_decide_eq_false hjoins
  rw [not_or, not_or, not_or, not_or, not_not] at hfits
  obtain ⟨hnext, hsize, hcount, hparts, hspan⟩ := hfits
  refine ⟨?_, ?_, ?_, fun _ => ?_, fun _ => ?_⟩
  · refine isChain_append.mpr ⟨h.contiguous, isChain_singleton _, fun x hx y hy => ?_⟩
    obtain rfl : y = o := (Option.some.inj hy).symm
    rw [← hnext, objectsEnd, Option.mem_def.mp hx]
    rfl
  · rw [length_append, length_singleton]
    exact Nat.lt_of_not_le hcount
  · rw [objectsPartCount_concat]
    exact Nat.le_of_not_lt hparts
  · rw [objectsSize_concat]
    exact Nat.le_of_not_lt hsize
  · rw [objectsEnd_concat, objectsStart_concat hne]
    exact Nat.sub_le_iff_le_add.mp (Nat.le_of_not_lt hspan) |>.trans_eq (Nat.add_comm _ _)

/-- The loop is the greedy grouping of the objects it looks at. -/
theorem foldlM_group0Object (h : s.Tracks t) (hfold : objects.foldlM
      (group0Object maxStreamObjectSize level minMajorV1Size) s = some s') :
    s'.Tracks ((objects.filter (isGrouped level minMajorV1Size)).foldl
      (Greedy.push (beginsGroup maxStreamObjectSize)) t) := by
  induction objects generalizing s t with
  | nil =>
    cases hfold
    exact h
  | cons o objects ih =>
    rw [foldlM_cons, group0Object] at hfold
    rw [filter_cons]
    split at hfold
    · rename_i hgrouped
      obtain ⟨s₁, hs₁, hfold⟩ := Option.bind_eq_some_iff.mp hfold
      obtain ⟨refused, hrefused, rfl⟩ := Option.map_eq_some_iff.mp hs₁
      rw [if_pos hgrouped]
      exact ih (h.addObject hrefused) hfold
    · rename_i hgrouped
      rw [if_neg hgrouped]
      exact ih h hfold

theorem exists_foldlM_group0Object (maxStreamObjectSize : Nat) (level : CompactionLevel)
    (minMajorV1Size : Nat) (h : s.Tracks t)
    (hsorted : objects.Pairwise fun x y => startOffsetOf x ≤ startOffsetOf y)
    (horder : ∀ o ∈ objects, startOffsetOf o ≤ endOffsetOf o)
    (hle : ∀ x ∈ t.2, ∀ o ∈ objects, startOffsetOf x ≤ startOffsetOf o) :
    ∃ s', objects.foldlM (group0Object maxStreamObjectSize level minMajorV1Size) s = some s' := by
  induction objects generalizing s t with
  | nil => exact ⟨s, rfl⟩
  | cons o objects ih =>
    obtain ⟨hfirst, hrest⟩ := pairwise_cons.mp hsorted
    obtain ⟨ho, horder⟩ := forall_mem_cons.mp horder
    rw [foldlM_cons, group0Object]
    split
    · obtain ⟨refused, hrefused⟩ := h.exists_refuses maxStreamObjectSize ho fun x hx =>
        hle x hx o mem_cons_self
      rw [hrefused]
      refine ih (h.addObject hrefused) hrest horder fun x hx o' ho' => ?_
      rcases Greedy.mem_push hx with hx | rfl
      · exact hle x hx o' (mem_cons_of_mem o ho')
      · exact hfirst o' ho'
    · exact ih h hrest horder fun x hx o' ho' => hle x hx o' (mem_cons_of_mem o ho')

theorem eq_of_group0_eq_some
    (h : group0 objects maxStreamObjectSize level minMajorV1Size = some groups) :
    groups = Greedy.groups (beginsGroup maxStreamObjectSize)
      (objects.filter (isGrouped level minMajorV1Size)) := by
  obtain ⟨s, hfold, rfl⟩ := Option.map_eq_some_iff.mp h
  have htracks := foldlM_group0Object Group0State.tracks_new hfold
  rw [htracks.groups, htracks.group, Greedy.groups, Greedy.finish]
  simp only [List.isEmpty_iff]

theorem streamGroup_of_mem_group0
    (h : group0 objects maxStreamObjectSize level minMajorV1Size = some groups) (hg : g ∈ groups) :
    g ≠ [] ∧ StreamGroup maxStreamObjectSize g := by
  rw [eq_of_group0_eq_some h] at hg
  refine Greedy.forall_groups (fun o ho => ?_) (fun g' o _ hne h => h.concat hne) g hg
  exact streamGroup_singleton
    (of_decide_eq_true (Bool.and_eq_true_iff.mp (mem_filter.mp ho).2).2)

/-- **The groups of a stream's objects.** -/
theorem group0_groups {objects : List S3ObjectMetadata} (maxStreamObjectSize : Nat)
    (level : CompactionLevel) (minMajorV1Size : Nat)
    (hsorted : objects.Pairwise fun x y => startOffsetOf x ≤ startOffsetOf y)
    (horder : ∀ o ∈ objects, startOffsetOf o ≤ endOffsetOf o) :
    ∃ groups, group0 objects maxStreamObjectSize level minMajorV1Size = some groups ∧
      groups.flatten = objects.filter (fun o =>
        objectFilter level minMajorV1Size o && decide (objectPartCount o < maxPartCount)) ∧
      ∀ g ∈ groups, g ≠ [] ∧ (g.IsChain fun x y => endOffsetOf x = startOffsetOf y) ∧
        g.length ≤ 5000 ∧ (g.map objectPartCount).sum ≤ 10000 ∧
        (2 ≤ g.length → (g.map S3ObjectMetadata.objectSize).sum ≤ maxStreamObjectSize ∧
          ∀ first, g.head? = some first → ∀ last, g.getLast? = some last →
            endOffsetOf last ≤ startOffsetOf first + i32Max) := by
  obtain ⟨s, hfold⟩ := exists_foldlM_group0Object maxStreamObjectSize level minMajorV1Size
    Group0State.tracks_new hsorted horder nofun
  have hgroups := congrArg (Option.map fun s : Group0State =>
    if s.group = [] then s.groups else s.groups ++ [s.group]) hfold
  refine ⟨_, hgroups, ?_, fun g hg => ?_⟩
  · rw [eq_of_group0_eq_some hgroups]
    exact Greedy.flatten_groups ..
  obtain ⟨hne, h⟩ := streamGroup_of_mem_group0 hgroups hg
  refine ⟨hne, h.contiguous, h.count, h.parts, fun htwo => ⟨h.size htwo, ?_⟩⟩
  intro first hfirst last hlast
  have hspan := h.span htwo
  rwa [objectsEnd, objectsStart, hfirst, hlast] at hspan

/-- Four objects of one stream: a gap before the last one, and a composite one that is left out. -/
def fourObjects : List S3ObjectMetadata :=
  [⟨0, .stream, [⟨0, 0, 10⟩], 60, ⟨0⟩, 0, 0⟩, ⟨1, .stream, [⟨0, 10, 20⟩], 40, ⟨0⟩, 0, 0⟩,
    ⟨2, .stream, [⟨0, 20, 30⟩], 40, ⟨1⟩, 0, 0⟩, ⟨3, .stream, [⟨0, 30, 40⟩], 40, ⟨0⟩, 0, 0⟩]

/-- The first two objects fill a group to the last byte. -/
theorem group0_groups_four : ∃ groups, group0 fourObjects 100 .minor 0 = some groups ∧
    groups.map List.length = [2, 1] ∧
    groups.flatten = fourObjects.filter (fun o =>
      objectFilter .minor 0 o && decide (objectPartCount o < maxPartCount)) := by
  have hsorted : fourObjects.Pairwise fun x y => startOffsetOf x ≤ startOffsetOf y := by decide
  obtain ⟨groups, hgroups, hflatten, -⟩ := group0_groups 100 .minor 0 hsorted (by decide)
  have hlengths : (group0 fourObjects 100 .minor 0).any
      (fun groups => decide (groups.map length = [2, 1])) = true := by decide +kernel
  rw [hgroups] at hlengths
  exact ⟨groups, hgroups, of_decide_eq_true hlengths, hflatten⟩

/-! ## The merge of a group -/

section Merge

open Segment Windows

variable {s : Storage} {stream : StreamView} {a b : Nat}
  {sources : List (S3ObjectMetadata × List Segment)}

theorem objectSize_le (o : S3ObjectMetadata) : o.objectSize ≤ objectPartCount o * maxPartSize := by
  unfold objectPartCount maxPartSize
  omega

theorem length_dataSection_le_parts (h : ∀ p ∈ sources, Holds s p.1 p.2) :
    (dataSection (sources.flatMap (·.2))).length ≤
      objectsPartCount (sources.map (·.1)) * maxPartSize := by
  induction sources with
  | nil => exact Nat.zero_le _
  | cons p sources ih =>
    obtain ⟨hp, hrest⟩ := forall_mem_cons.mp h
    have hsize := hp.size_eq
    have hparts := objectSize_le p.1
    have hle := ih hrest
    rw [objectBytes, length_append] at hsize
    rw [dataSection, flatMap_cons, flatMap_append, length_append, objectsPartCount, map_cons,
      map_cons, sum_cons, Nat.add_mul]
    rw [dataSection] at hsize
    rw [dataSection, objectsPartCount] at hle
    omega

theorem sum_recordCount (h : ∀ g ∈ gs, Whole g) :
    ((entries gs).map DataBlockIndex.recordCount).sum = (gs.flatMap records).length := by
  rw [length_flatMap, entries, map_map]
  exact congrArg sum (map_congr_left fun g hg => (h g hg).2.1)

/-- The objects of a group have at most `10000` parts of 5 GiB, two neighbouring entries of the
merged index cover more than 1 MiB, and neither spans nor record counts close an entry. -/
theorem length_mergedIndex_le (hgroup : StreamGroup maxStreamObjectSize (sources.map (·.1)))
    (htwo : 2 ≤ sources.length) (hholds : ∀ p ∈ sources, Holds s p.1 p.2)
    (hcontiguous : ContiguousObjects a sources b)
    (hblocks : ∀ g ∈ sources.flatMap (·.2), Whole g) (stream : StreamView) :
    (mergedIndex defaultDataBlockGroupSizeThreshold stream sources).entries.length ≤ 102400001 := by
  have hspan : b ≤ a + i32Max := by
    have hspan := hgroup.span (by rwa [length_map])
    obtain ⟨p, rest, rfl⟩ := exists_cons_of_length_pos (Nat.zero_lt_of_lt htwo)
    have hlast : ((p :: rest).map (·.1)).getLast? = some _ :=
      getLast?_eq_some_getLast (by simp)
    rw [objectsEnd, hlast, Option.map_some, Option.getD_some,
      hcontiguous.endOffsetOf_getLast hlast] at hspan
    exact hspan.trans_eq (congrArg (· + i32Max) hcontiguous.1)
  have hsub : entries (liveBlocks stream sources) <+ entries (sources.flatMap (·.2)) :=
    filter_sublist.map _
  have hrange : ∀ e ∈ entries (liveBlocks stream sources),
      a ≤ e.startOffset ∧ e.endOffset ≤ a + i32Max := by
    intro e he
    have hbounds := Tiles.bounds hcontiguous.tiles (hsub.subset he)
    exact ⟨hbounds.1, hbounds.2.trans hspan⟩
  have hcount := (hsub.map DataBlockIndex.recordCount).sum_le_sum fun _ _ => Nat.zero_le _
  rw [sum_recordCount hblocks] at hcount
  have hrecords := (hcontiguous.tiles.records_tiles fun g hg => (hblocks g hg).2.2).length_le
  have hsize := (hsub.map DataBlockIndex.size).sum_le_sum fun _ _ => Nat.zero_le _
  rw [sum_size (sources.flatMap (·.2))] at hsize
  have hdata := length_dataSection_le_parts hholds
  have hparts := hgroup.parts
  obtain ⟨t, ht⟩ : ∃ t, t = (entries (liveBlocks stream sources)).foldl
      (IndexGroups.addBlock defaultDataBlockGroupSizeThreshold stream.streamId) .new := ⟨_, rfl⟩
  have hfilled : t.Filled defaultDataBlockGroupSizeThreshold a := by
    rw [ht]
    exact .foldl _ ⟨Nat.le_refl 0, absurd rfl⟩ hrange (by show 0 + _ ≤ _; omega)
  have hnext : t.nextBlockPosition = 0 + _ := ht ▸ nextBlockPosition_foldl ..
  rw [mergedIndex, ← ht]
  refine (IndexGroups.length_flush_le stream.streamId t).2.trans ?_
  have hentries := hfilled.filled
  rw [defaultDataBlockGroupSizeThreshold] at hentries
  rw [maxPartCount] at hparts
  rw [maxPartSize, dataSection] at hdata
  split <;> omega

/-- **The index of a merged group fits its length field.** -/
theorem mergedIndex_fits (hgroup : StreamGroup maxStreamObjectSize (sources.map (·.1)))
    (hholds : ∀ p ∈ sources, Holds s p.1 p.2) (hcontiguous : ContiguousObjects a sources b)
    (hblocks : ∀ g ∈ sources.flatMap (·.2), Whole g) (stream : StreamView) :
    (mergedIndex defaultDataBlockGroupSizeThreshold stream sources).entries.length *
      blockIndexSize < 2 ^ 32 := by
  by_cases htwo : 2 ≤ sources.length
  · have hle := length_mergedIndex_le hgroup htwo hholds hcontiguous hblocks stream
    rw [blockIndexSize]
    omega
  · -- An object alone has as many entries at least as its merge.
    have hall : (sources.flatMap (·.2)).length * blockIndexSize < 2 ^ 32 := by
      cases sources with
      | nil => exact Nat.two_pow_pos 32
      | cons p rest =>
        obtain rfl : rest = [] := length_eq_zero_iff.mp (by rw [length_cons] at htwo; omega)
        have hfits := (hholds p mem_cons_self).indexFits
        rwa [IndexBlock.length_encode, indexBlock, length_map, ← flatMap_singleton (·.2) p] at hfits
    have hle := IndexGroups.length_flush_foldl_le defaultDataBlockGroupSizeThreshold
      stream.streamId (entries (liveBlocks stream sources)) .new
    have hlive := (filter_sublist (p := fun g : Segment =>
      decide (stream.startOffset < g.index.endOffset)) (l := sources.flatMap (·.2))).length_le
    refine Nat.lt_of_le_of_lt (Nat.mul_le_mul_right _ (hle.trans ?_)) hall
    rw [entries, length_map]
    exact (Nat.zero_add _).trans_le hlive

/-- **A physical merge preserves the live data.** -/
theorem physical_merge_preserves_live_data {objects : List S3ObjectMetadata}
    {maxStreamObjectSize minMajorV1Size objectId : Nat} {level : CompactionLevel}
    {groups : List (List S3ObjectMetadata)} {first : S3ObjectMetadata} {gs : List Segment}
    {rest : List (S3ObjectMetadata × List Segment)}
    (hgroups : group0 objects maxStreamObjectSize level minMajorV1Size = some groups)
    (hgroup : first :: rest.map (·.1) ∈ groups)
    (hholds : ∀ p ∈ (first, gs) :: rest, Holds s p.1 p.2)
    (hcontiguous : ContiguousObjects a ((first, gs) :: rest) b)
    (hblocks : ∀ p ∈ (first, gs) :: rest, ∀ g ∈ p.2, g.index.endOffsetDelta ≤ i32Max ∧
      g.index.recordCount = g.records.length ∧
      Tiles StreamRecordBatch.baseOffset StreamRecordBatch.lastOffset g.index.startOffset
        g.records g.index.endOffset)
    (hstart : stream.startOffset < endOffsetOf first) (hstream : stream.streamId < 2 ^ 64) :
    ∃ s' req, compactByPhysicalMerge defaultDataBlockGroupSizeThreshold s stream first
        (rest.map (·.1)) objectId = .ok (s', req) ∧
      (s'.lookup (genObjectKey objectId)).map List.length = some req.objectSize ∧
      ∀ m : S3ObjectMetadata, m.objectId = objectId → m.objectSize = req.objectSize →
        ∃ info, ObjectReader.basicObjectInfo s' m = .ok info ∧
          (∀ e ∈ info.indexBlock.entries, e.streamId = stream.streamId) ∧
          Tiles DataBlockIndex.startOffset DataBlockIndex.endOffset req.startOffset
            info.indexBlock.entries req.endOffset ∧
          Tiles DataBlockIndex.startPosition DataBlockIndex.endPosition 0
            info.indexBlock.entries info.dataBlockSize ∧
          ∃ batches, info.indexBlock.entries.mapM (ObjectReader.readRecords s' m) = .ok batches ∧
            batches.flatten = (liveBlocks stream ((first, gs) :: rest)).flatMap Segment.records ∧
            Tiles StreamRecordBatch.baseOffset StreamRecordBatch.lastOffset req.startOffset
              batches.flatten req.endOffset := by
  obtain ⟨a', req, htiles, hmerge, hreqSize, hreqStart, hreqEnd⟩ := compactByPhysicalMerge_eq_ok
    defaultDataBlockGroupSizeThreshold objectId hholds hcontiguous hstart rfl rfl
  have hwhole : ∀ g ∈ ((first, gs) :: rest).flatMap (·.2), Whole g := by
    intro g hg
    obtain ⟨p, hp, hgp⟩ := mem_flatMap.mp hg
    exact hblocks p hp g hgp
  have hfits := mergedIndex_fits (streamGroup_of_mem_group0 hgroups hgroup).2 hholds hcontiguous
    hwhole stream
  refine ⟨_, req, hmerge, ?_, fun m hid hsize => ?_⟩
  · rw [Storage.lookup_write, if_pos rfl, Option.map_some, hreqSize]
    simp only [length_append, length_footer, add_assoc]
  have hlive : ∀ g ∈ liveBlocks stream ((first, gs) :: rest), Whole g := fun g hg =>
    hwhole g (mem_of_mem_filter hg)
  obtain ⟨out, hout, houtTiles, houtNe, houtStream, -, hrecords⟩ := exists_holds_merged hlive htiles
    hstream (by decide) rfl ((Storage.lookup_write ..).trans (if_pos (congrArg genObjectKey hid)))
    (hsize.trans hreqSize) hfits
  have hflatten : (out.map Segment.records).flatten =
      (liveBlocks stream ((first, gs) :: rest)).flatMap Segment.records := by
    rw [← flatMap_def, hrecords]
  have hread := hout.basicObjectInfo
  refine ⟨_, hread, ?_, ?_, ?_, out.map Segment.records, ?_, hflatten, ?_⟩
  · intro e he
    obtain ⟨g, hg, rfl⟩ := mem_map.mp he
    exact houtStream g hg
  · rw [hreqStart, hreqEnd]
    exact houtTiles
  · simpa [Segment.indexBlock] using hout.laid.tiles houtNe
  · exact IndexBlock.mapM_map_eq_ok fun g hg => hout.readRecords hg
  · rw [hflatten, hreqStart, hreqEnd]
    exact htiles.records_tiles fun g hg => (hlive g hg).2.2

/-- A block with one record. -/
def oneRecord (i : Fin 2) : Segment where
  index := ⟨0, 0, i, 1, 1, 0, 43⟩
  body := encodeDataBlock [⟨0, 0, i, 1, []⟩]
  records := [⟨0, 0, i, 1, []⟩]
  fits := by revert i; decide
  size_eq := by revert i; decide
  decode_eq := by revert i; decide +kernel

def oneRecordObject (i : Fin 2) : S3ObjectMetadata × List Segment :=
  (⟨i, .stream, [⟨0, i, i + 1⟩], 127, ⟨0⟩, 0, 0⟩, [oneRecord i])

/-- Two objects of one record each are one group, and the merged object holds both records. -/
theorem physical_merge_two_objects : ∃ (s : Storage) (s' : Storage)
    (req : CompactStreamObjectRequest),
    compactByPhysicalMerge defaultDataBlockGroupSizeThreshold s ⟨0, 0, 0, 0⟩ (oneRecordObject 0).1
      [(oneRecordObject 1).1] 7 = .ok (s', req) ∧
    ∀ m : S3ObjectMetadata, m.objectId = 7 → m.objectSize = req.objectSize → ∃ info batches,
      ObjectReader.basicObjectInfo s' m = .ok info ∧
      info.indexBlock.entries.mapM (ObjectReader.readRecords s' m) = .ok batches ∧
      batches.flatten = [⟨0, 0, 0, 1, []⟩, ⟨0, 0, 1, 1, []⟩] := by
  let s : Storage := [oneRecordObject 0, oneRecordObject 1].map fun p => (p.1.key, objectBytes p.2)
  have hholds : ∀ p ∈ [oneRecordObject 0, oneRecordObject 1], Holds s p.1 p.2 := by
    refine forall_mem_cons.mpr ⟨⟨⟨rfl, rfl, trivial⟩, ?_, ?_, ?_⟩,
      forall_mem_singleton.mpr ⟨⟨rfl, rfl, trivial⟩, ?_, ?_, ?_⟩⟩ <;> decide +kernel
  obtain ⟨s', req, hmerge, -, hread⟩ := @physical_merge_preserves_live_data s ⟨0, 0, 0, 0⟩ 0 2
    [(oneRecordObject 0).1, (oneRecordObject 1).1] 1000 0 7 .minor _ _ [oneRecord 0]
    [oneRecordObject 1] rfl mem_cons_self hholds
    (by simp only [ContiguousObjects, OffsetTiles]; decide) (by decide) (by decide)
    (by decide)
  refine ⟨s, s', req, hmerge, fun m hid hsize => ?_⟩
  obtain ⟨info, hinfo, -, -, -, batches, hbatches, hflatten, -⟩ := hread m hid hsize
  exact ⟨info, batches, hinfo, hbatches, hflatten⟩

end Merge

end S3Stream
