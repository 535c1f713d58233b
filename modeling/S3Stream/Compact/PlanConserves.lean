import S3Stream.Compact.PlanGroups

/-! # A compaction plan neither loses nor duplicates a block

The two loops of the analyzer, by the rule for loops: excluding objects only takes their blocks out
of the sorted list, and spreading the output objects over plans moves blocks from the builders to
what is collected and from there to the plans, for each kind of object in order. -/

namespace S3Stream

open List CompactedObjectBuilder CompactionAnalyzer

namespace CompactionAnalyzer

variable {a : CompactionAnalyzer} {sorted : List StreamDataBlock}

/-! ## Excluding objects -/

theorem mem_addObjectsToRemove {id : Nat} (h : id ∈ addObjectsToRemove type builders stats) :
    ∃ x ∈ builders.flatMap blocks, x.objectId = id := by
  cases type with
  | split =>
    simp only [addObjectsToRemove] at h
    split at h
    · cases h
    · rename_i b hb
      obtain ⟨x, hx, rfl⟩ := mem_map.mp h
      have hmem := mem_of_mem_head? hb
      rw [mem_insertionSort] at hmem
      exact ⟨x, mem_flatMap.mpr ⟨b, mem_of_mem_filter hmem, hx⟩, rfl⟩
  | compact =>
    simp only [addObjectsToRemove] at h
    split at h
    · cases h
    · obtain ⟨x, hx, rfl⟩ := mem_map.mp (mem_dedup.mp h)
      obtain ⟨b, hb, hxb⟩ := mem_flatMap.mp (mem_of_mem_filter hx)
      exact ⟨x, mem_flatMap.mpr ⟨b, mem_of_mem_filter hb, hxb⟩, rfl⟩

theorem mem_objectsToRemove {id : Nat} (h : id ∈ a.objectsToRemove s) :
    ∃ x ∈ s.builders.flatMap blocks, x.objectId = id := by
  unfold objectsToRemove at h
  split at h
  · cases h
  · split at h
    · exact mem_addObjectsToRemove h
    · exact mem_addObjectsToRemove h

/-- The objects that share a stream once `removed` are taken out. -/
def mapWithout (removed : List Nat) (m : BlockMap) : BlockMap :=
  filterBlocksToCompact (m.filter fun e => !removed.contains e.1)

/-- A round ends the loop without output objects, or it has cut the blocks that are left: then the
loop goes on, or ends with these output objects, which are within the limits. -/
theorem groupingStep_cases (a : CompactionAnalyzer) (s : Grouping) :
    (∃ excluded, a.groupingStep s = .inr (none, excluded)) ∨
    ∃ builders, a.compactObjects (s.sortedBlocks.filter fun x =>
        !(a.objectsToRemove s).contains x.objectId) = some builders ∧
      (s.stats.isSome → a.objectsToRemove s ≠ []) ∧
      mapWithout (a.objectsToRemove s) s.streamDataBlockMap ≠ [] ∧
      (a.groupingStep s = .inl ⟨mapWithout (a.objectsToRemove s) s.streamDataBlockMap,
          s.excludedObjectIds ++ a.objectsToRemove s,
          s.sortedBlocks.filter fun x => !(a.objectsToRemove s).contains x.objectId, builders,
          some (.of builders)⟩ ∨
        ((CompactionStats.of builders).streamNumInStreamSet ≤ a.maxStreamNumInStreamSet ∧
          (CompactionStats.of builders).streamObjectNum ≤ a.maxStreamObjectNum) ∧
        a.groupingStep s = .inr (some builders, s.excludedObjectIds ++ a.objectsToRemove s)) := by
  unfold groupingStep mapWithout
  dsimp only
  split
  · exact .inl ⟨_, rfl⟩
  · rename_i hgoes
    split
    · exact .inl ⟨_, rfl⟩
    · rename_i hmap
      split
      · exact .inl ⟨_, rfl⟩
      · rename_i builders hbuilders
        refine .inr ⟨builders, hbuilders, fun hstats hnil => hgoes ⟨hstats, hnil⟩, hmap, ?_⟩
        split
        · exact .inl rfl
        · rename_i hlimits
          rw [not_or, not_lt, not_lt] at hlimits
          exact .inr ⟨hlimits, rfl⟩

/-- What holds between two rounds over the blocks `sorted`. -/
structure Reduced (sorted : List StreamDataBlock) (s : Grouping) : Prop where
  blocks : s.sortedBlocks = sorted.filter fun x => !s.excludedObjectIds.contains x.objectId
  builders : s.stats.isSome →
    s.builders.flatMap CompactedObjectBuilder.blocks = s.sortedBlocks

def Grouping.rest (s : Grouping) : Nat :=
  s.sortedBlocks.length + if s.stats.isSome then 0 else 1

theorem filter_excluded (excluded removed : List Nat) :
    (sorted.filter fun x => !excluded.contains x.objectId).filter
        (fun x => !removed.contains x.objectId) =
      sorted.filter fun x => !(excluded ++ removed).contains x.objectId := by
  rw [filter_filter]
  congr 1
  funext x
  rw [contains_append, Bool.not_or, Bool.and_comm]

theorem Reduced.filter_removed (h : Reduced sorted s) :
    s.sortedBlocks.filter (fun x => !removed.contains x.objectId) =
      sorted.filter fun x => !(s.excludedObjectIds ++ removed).contains x.objectId := by
  rw [h.blocks, filter_excluded]

section
variable (hsize : ∀ x ∈ sorted, 0 < x.blockSize) (hsorted : sorted.Pairwise Sorted)
include hsize hsorted

theorem grouped_filter (excluded : List Nat)
    (h : a.compactObjects (sorted.filter fun x => !excluded.contains x.objectId) = some builders) :
    Grouped (sorted.filter fun x => !excluded.contains x.objectId) builders :=
  grouped_compactObjects (fun x hx => hsize x (mem_of_mem_filter hx))
    ((hsorted.filter _).imp Sorted.streamId_le) h

theorem Reduced.groupingStep (h : Reduced sorted s) (hstep : a.groupingStep s = .inl s') :
    Reduced sorted s' ∧ s'.rest < s.rest := by
  obtain ⟨excluded, hleft⟩ | ⟨builders, hbuilders, hremoved, -, hgoes | ⟨-, hleft⟩⟩ :=
    groupingStep_cases a s
  · cases hleft.symm.trans hstep
  · cases hgoes.symm.trans hstep
    rw [h.filter_removed] at hbuilders
    have hgrouped := grouped_filter hsize hsorted _ hbuilders
    refine ⟨⟨h.filter_removed, fun _ => hgrouped.all.trans h.filter_removed.symm⟩, ?_⟩
    show (s.sortedBlocks.filter _).length + 0 < s.rest
    rw [Grouping.rest, add_zero]
    cases hstats : s.stats.isSome with
    | false =>
      have hle := length_filter_le
        (fun x => !(a.objectsToRemove s).contains x.objectId) s.sortedBlocks
      simp only [Bool.false_eq_true, if_false]
      omega
    | true =>
      -- Some object goes, and it has a block.
      obtain ⟨id, hid⟩ := exists_mem_of_ne_nil _ (hremoved hstats)
      obtain ⟨x, hx, rfl⟩ := mem_objectsToRemove hid
      rw [h.builders hstats] at hx
      apply length_filter_lt_length_iff_exists.mpr
      exact ⟨x, hx, by simpa using hid⟩
  · cases hleft.symm.trans hstep

theorem Reduced.groupingStep_done (h : Reduced sorted s) (hstep : a.groupingStep s = .inr r) :
    ∀ builders, r.1 = some builders →
      Grouped (sorted.filter fun x => !r.2.contains x.objectId) builders := by
  intro built hr
  obtain ⟨excluded, hleft⟩ | ⟨builders, hbuilders, -, -, hgoes | ⟨-, hleft⟩⟩ :=
    groupingStep_cases a s
  · cases hleft.symm.trans hstep
    cases hr
  · cases hgoes.symm.trans hstep
  · cases hleft.symm.trans hstep
    cases hr
    rw [h.filter_removed] at hbuilders
    exact grouped_filter hsize hsorted _ hbuilders

end

/-- **The loop over the limits ends**, with output objects of the blocks that were not excluded. -/
theorem exists_groupObjectWithLimits (a : CompactionAnalyzer)
    (hsize : ∀ x ∈ m.blocks, 0 < x.blockSize) :
    ∃ r, a.groupObjectWithLimits m [] = some r ∧ ∀ builders, r.1 = some builders →
      Grouped ((sortStreamRangePositions m).filter fun x => !r.2.contains x.objectId)
        builders := by
  have hsorted := pairwise_sortStreamRangePositions m
  have hsize' : ∀ x ∈ sortStreamRangePositions m, 0 < x.blockSize := fun x hx =>
    hsize x ((perm_sortStreamRangePositions m).mem_iff.mp hx)
  refine Loop.loop_spec (I := Reduced (sortStreamRangePositions m)) Grouping.rest
    (fun s s' hs hstep => hs.groupingStep hsize' hsorted hstep)
    (fun s r hs hstep => hs.groupingStep_done hsize' hsorted hstep) ⟨?_, nofun⟩ ?_
  · exact (filter_eq_self.mpr fun x _ => rfl).symm
  · show (sortStreamRangePositions m).length + 1 < _
    omega

/-! ## Spreading the output objects over plans -/

def Planning.pending (s : Planning) : List CompactedObject :=
  s.compactedObjects ++ (s.streamSetBuilder.map build).toList

def objectsOf (plans : List CompactionPlan) : List CompactedObject :=
  plans.flatMap CompactionPlan.compactedObjects

theorem objectsOf_pushPlan (s : Planning) :
    objectsOf (pushPlan s).plans = objectsOf s.plans ++ s.pending := by
  rw [objectsOf, pushPlan, flatMap_append, flatMap_singleton]
  rfl

/-- Stream objects are collected one by one, and the rest in one builder. -/
structure Collects (s : Planning) : Prop where
  objects : ∀ o ∈ s.compactedObjects, o.compactionType = .split ∧ SingleRun o.blocks
  builder : ∀ b, s.streamSetBuilder = some b → b.compactionType = .compact

theorem Collects.addOrMerge (h : Collects s) (hb : b.compactionType = .split → SingleRun b.blocks) :
    Collects (addOrMerge b s) ∧ ∀ type, blocksOf type (addOrMerge b s).pending =
      blocksOf type s.pending ++ blocksOf type [b.build] := by
  unfold CompactionAnalyzer.addOrMerge
  cases htype : b.compactionType with
  | split =>
    rw [if_pos rfl]
    refine ⟨⟨forall_mem_append.mpr ⟨h.objects, forall_mem_singleton.mpr ⟨htype, hb htype⟩⟩,
      h.builder⟩, fun type => ?_⟩
    · -- The builder of the stream set object has no stream objects.
      rw [Planning.pending, Planning.pending, blocksOf_append, blocksOf_append, blocksOf_append,
        build, htype]
      cases hssb : s.streamSetBuilder with
      | none => simp [blocksOf]
      | some ssb =>
        rw [Option.map_some, Option.toList_some, build, h.builder ssb hssb]
        cases type with
        | split => rw [blocksOf_split_compact, append_nil, append_nil]
        | compact => rw [blocksOf_compact_split, append_nil, append_nil]
  | compact =>
    rw [if_neg (by decide)]
    have hmerged : ((s.streamSetBuilder.getD new).merge b).compactionType = .compact ∧
        ((s.streamSetBuilder.getD new).merge b).blocks =
          (s.streamSetBuilder.getD new).blocks ++ b.blocks := by
      rw [CompactedObjectBuilder.merge, if_neg (by rw [htype]; decide)]
      refine ⟨?_, rfl⟩
      show (s.streamSetBuilder.getD new).compactionType = .compact
      cases hssb : s.streamSetBuilder with
      | none => rfl
      | some ssb => exact h.builder ssb hssb
    refine ⟨⟨h.objects, fun c hc => ?_⟩, fun type => ?_⟩
    · rw [← Option.some.inj hc]
      exact hmerged.1
    · have hold : blocksOf type (s.streamSetBuilder.map build).toList =
          blocksOf type [⟨.compact, (s.streamSetBuilder.getD new).blocks⟩] := by
        cases hssb : s.streamSetBuilder with
        | none => cases type <;> rfl
        | some ssb =>
          rw [Option.map_some, Option.toList_some, build, h.builder ssb hssb, Option.getD_some]
      rw [Planning.pending, Planning.pending, blocksOf_append, blocksOf_append, hold,
        Option.map_some, Option.toList_some, build, build, hmerged.1, hmerged.2, htype,
        append_assoc]
      congr 1
      cases type with
      | split => rfl
      | compact => rw [blocksOf_self, blocksOf_self, blocksOf_self]

/-! ### Where a builder is cut -/

theorem cutAt_cases (htmp : tmpSize ≤ a.compactionCacheSize) :
    a.cutAt j tmpSize bs = 0 ∨ ∃ k < bs.length, a.cutAt j tmpSize bs = j + k ∧
      tmpSize + sumBlockSize (bs.take k) ≤ a.compactionCacheSize := by
  induction bs generalizing j tmpSize with
  | nil => exact .inl rfl
  | cons b bs ih =>
    rw [cutAt]
    split
    · exact .inr ⟨0, by simp, rfl, htmp⟩
    · rename_i hfits
      refine (ih (not_lt.mp hfits)).imp_right ?_
      rintro ⟨k, hk, hcut, hsum⟩
      refine ⟨k + 1, Nat.succ_lt_succ hk, by omega, ?_⟩
      rw [take_succ_cons, sumBlockSize, map_cons, sum_cons, ← add_assoc]
      exact hsum

theorem cutAt_spec (htmp : tmpSize ≤ a.compactionCacheSize) (hcut : a.cutAt 0 tmpSize bs ≠ 0) :
    a.cutAt 0 tmpSize bs < bs.length ∧
      tmpSize + sumBlockSize (bs.take (a.cutAt 0 tmpSize bs)) ≤ a.compactionCacheSize := by
  obtain hzero | ⟨k, hk, heq, hsum⟩ := cutAt_cases htmp
  · exact absurd hzero hcut
  · rw [heq, zero_add]
    exact ⟨hk, hsum⟩

/-- A builder is cut before the first block that does not fit. -/
theorem cutAt_over (htmp : tmpSize ≤ a.compactionCacheSize)
    (hover : a.compactionCacheSize < tmpSize + sumBlockSize bs) :
    ∃ k x rest, a.cutAt j tmpSize bs = j + k ∧ bs.drop k = x :: rest ∧
      a.compactionCacheSize < tmpSize + sumBlockSize (bs.take k) + x.blockSize := by
  induction bs generalizing j tmpSize with
  | nil => exact absurd hover (not_lt.mpr htmp)
  | cons b bs ih =>
    rw [sumBlockSize, map_cons, sum_cons, ← add_assoc] at hover
    rw [cutAt]
    split
    · rename_i hfull
      exact ⟨0, b, bs, rfl, rfl, hfull⟩
    · rename_i hfits
      obtain ⟨k, x, rest, hcut, hdrop, hlt⟩ := @ih _ (j + 1) (not_lt.mp hfits) hover
      refine ⟨k + 1, x, rest, by omega, hdrop, ?_⟩
      rw [take_succ_cons, sumBlockSize, map_cons, sum_cons, ← add_assoc]
      exact hlt

/-- With an empty cache the first block fits. -/
theorem cutAt_ne_zero (hsize : ∀ x ∈ bs, x.blockSize ≤ a.compactionCacheSize)
    (hover : a.compactionCacheSize < sumBlockSize bs) : a.cutAt 0 0 bs ≠ 0 := by
  cases bs with
  | nil => exact absurd hover (Nat.not_lt_zero _)
  | cons b =>
    have hb := hsize b mem_cons_self
    simp only [cutAt, zero_add]
    rw [if_neg (not_lt.mpr hb)]
    obtain ⟨k, -, -, hcut, -⟩ := @cutAt_over _ _ _ 1 hb hover
    omega

theorem SingleRun.take_drop (h : SingleRun bs) (n : Nat) :
    SingleRun (bs.take n) ∧ SingleRun (bs.drop n) := by
  have hchain := h.contiguous
  rw [← take_append_drop n bs, isChain_append] at hchain
  refine ⟨⟨fun x hx y hy => ?_, hchain.1⟩, ⟨fun x hx y hy => ?_, hchain.2.1⟩⟩
  · exact h.single x (mem_of_mem_take hx) y (mem_of_mem_take hy)
  · exact h.single x (mem_of_mem_drop hx) y (mem_of_mem_drop hy)

theorem blocksOf_take_drop (type kind : CompactionType) (bs : List StreamDataBlock) (n : Nat) :
    blocksOf type [⟨kind, bs.take n⟩] ++ blocksOf type [⟨kind, bs.drop n⟩] =
      blocksOf type [⟨kind, bs⟩] := by
  by_cases h : kind = type
  · subst h
    rw [blocksOf_self, blocksOf_self, blocksOf_self, take_append_drop]
  · have hnone : ∀ bs : List StreamDataBlock, blocksOf type [⟨kind, bs⟩] = [] := fun bs => by
      rw [blocksOf, filter_cons_of_neg (by simpa using h)]
      rfl
    rw [hnone, hnone, hnone]
    rfl

/-- A builder that waits for its plan. -/
structure Waits (a : CompactionAnalyzer) (b : CompactedObjectBuilder) : Prop where
  positioned : b.Positioned
  run : b.compactionType = .split → SingleRun b.blocks
  size : ∀ x ∈ b.blocks, x.blockSize ≤ a.compactionCacheSize

theorem Waits.split (h : Waits a b) (hn : n ≤ b.blocks.length) (hne : b.blocks ≠ []) :
    Waits a (b.split 0 n).1 ∧ Waits a (b.split 0 n).2 ∧
      (b.split 0 n).1.blocks = b.blocks.drop n ∧
      ∀ type, blocksOf type [(b.split 0 n).2.build] ++ blocksOf type [(b.split 0 n).1.build] =
        blocksOf type [b.build] := by
  obtain ⟨hpos, hleft, hcut, hleftType, hcutType⟩ := h.positioned.split 0 hn hne
  rw [take_zero, nil_append] at hleft
  rw [drop_zero, Nat.sub_zero] at hcut
  refine ⟨⟨hpos.1, fun hsplit => ?_, fun x hx => ?_⟩, ⟨hpos.2, fun hsplit => ?_, fun x hx => ?_⟩,
    hleft, fun type => ?_⟩
  · show SingleRun (b.split (0 : Nat) n).1.blocks
    rw [hleft]
    exact (SingleRun.take_drop (h.run (hleftType.symm.trans hsplit)) n).2
  · replace hx : x ∈ (b.split (0 : Nat) n).1.blocks := hx
    rw [hleft] at hx
    exact h.size x (mem_of_mem_drop hx)
  · show SingleRun (b.split (0 : Nat) n).2.blocks
    rw [hcut]
    exact (SingleRun.take_drop (h.run (hcutType.symm.trans hsplit)) n).1
  · replace hx : x ∈ (b.split (0 : Nat) n).2.blocks := hx
    rw [hcut] at hx
    exact h.size x (mem_of_mem_take hx)
  · show blocksOf type [⟨(b.split (0 : Nat) n).2.compactionType, (b.split (0 : Nat) n).2.blocks⟩] ++
      blocksOf type [⟨(b.split (0 : Nat) n).1.compactionType, (b.split (0 : Nat) n).1.blocks⟩] = _
    rw [hcutType, hleftType, hcut, hleft]
    exact blocksOf_take_drop ..

/-! ### The loop -/

/-- What holds between two rounds over the output objects `builders`: for each kind of object the
blocks in the plans, in what is collected and in what waits are those of `builders`, in order. -/
structure Planned (a : CompactionAnalyzer) (builders : List CompactedObjectBuilder)
    (s : Planning) : Prop where
  kept : ∀ type, blocksOf type (objectsOf s.plans) ++
    (blocksOf type s.pending ++ blocksOf type (s.builders.map build)) =
      blocksOf type (builders.map build)
  runs : ∀ o ∈ objectsOf s.plans, o.compactionType = .split → SingleRun o.blocks
  collects : Collects s
  waits : ∀ b ∈ s.builders, Waits a b
  fits : s.totalSize ≤ a.compactionCacheSize

variable {builders : List CompactedObjectBuilder} {s s' : Planning}

theorem Planned.pushPlan (h : Planned a builders s) : Planned a builders (pushPlan s) where
  kept := by
    intro type
    rw [objectsOf_pushPlan, blocksOf_append, ← h.kept type, append_assoc]
    rfl
  runs := by
    intro o ho hsplit
    rw [objectsOf_pushPlan] at ho
    rcases mem_append.mp ho with ho | ho
    · exact h.runs o ho hsplit
    · rcases mem_append.mp ho with ho | ho
      · exact (h.collects.objects o ho).2
      · obtain ⟨b, hb, rfl⟩ := Option.map_eq_some_iff.mp (Option.mem_toList.mp ho)
        cases (h.collects.builder b hb).symm.trans hsplit
  collects := ⟨nofun, nofun⟩
  waits := h.waits
  fits := Nat.zero_le _

theorem plans_addOrMerge (b : CompactedObjectBuilder) : (addOrMerge b s).plans = s.plans := by
  unfold addOrMerge
  split <;> rfl

theorem Planned.addOrMerge (h : Planned a builders s) (hb : Waits a b)
    (hwaits : ∀ c ∈ waiting, Waits a c)
    (hkept : ∀ type, blocksOf type [b.build] ++ blocksOf type (waiting.map build) =
      blocksOf type (s.builders.map build)) (hsize : size ≤ a.compactionCacheSize) :
    Planned a builders { addOrMerge b s with totalSize := size, builders := waiting } := by
  obtain ⟨hcollects, hpending⟩ := h.collects.addOrMerge hb.run
  refine ⟨fun type => ?_, ?_, ⟨hcollects.objects, hcollects.builder⟩, hwaits, hsize⟩
  · show blocksOf type (objectsOf (CompactionAnalyzer.addOrMerge b s).plans) ++
      (blocksOf type (CompactionAnalyzer.addOrMerge b s).pending ++
        blocksOf type (waiting.map build)) = _
    rw [plans_addOrMerge, hpending, append_assoc, hkept, h.kept]
  · show ∀ o ∈ objectsOf (CompactionAnalyzer.addOrMerge b s).plans, _
    rw [plans_addOrMerge]
    exact h.runs

def Planning.rest (s : Planning) : Nat :=
  2 * (s.builders.length + (s.builders.flatMap CompactedObjectBuilder.blocks).length) +
    if s.totalSize = 0 then 0 else 1

/-- The first builder that waits is cut: its front goes into this plan, the rest waits on. -/
theorem Planned.cut (h : Planned a builders s) (hbuilders : s.builders = b :: rest)
    (hcut : a.cutAt 0 s.totalSize b.blocks ≠ 0)
    (hs' : s' = { CompactionAnalyzer.pushPlan (CompactionAnalyzer.addOrMerge
      (b.split 0 (a.cutAt 0 s.totalSize b.blocks)).2 s) with
      builders := (b.split 0 (a.cutAt 0 s.totalSize b.blocks)).1 :: rest }) :
    Planned a builders s' ∧ s'.rest < s.rest := by
  have hb : Waits a b := h.waits b (hbuilders ▸ mem_cons_self)
  have hrest : ∀ c ∈ rest, Waits a c := fun c hc =>
    h.waits c (hbuilders ▸ mem_cons_of_mem b hc)
  have hlt := (cutAt_spec h.fits hcut).1
  have hne : b.blocks ≠ [] := ne_nil_of_length_pos (by omega)
  obtain ⟨hleft, hfront, hblocks, hkept⟩ := hb.split hlt.le hne
  have hparts : ∀ type, blocksOf type [(b.split 0 (a.cutAt 0 s.totalSize b.blocks)).2.build] ++
      blocksOf type (((b.split 0 (a.cutAt 0 s.totalSize b.blocks)).1 :: rest).map build) =
        blocksOf type (s.builders.map build) := by
    intro type
    rw [hbuilders, map_cons, map_cons, blocksOf_cons type b.build, ← hkept, append_assoc]
    exact congrArg _ (blocksOf_cons ..)
  have hplanned := (h.addOrMerge hfront (forall_mem_cons.mpr ⟨hleft, hrest⟩) hparts
    h.fits).pushPlan
  subst hs'
  refine ⟨⟨hplanned.kept, hplanned.runs, hplanned.collects, hplanned.waits, hplanned.fits⟩, ?_⟩
  show 2 * (rest.length + 1 + (((b.split 0 (a.cutAt 0 s.totalSize b.blocks)).1 ::
    rest).flatMap blocks).length) + 0 < s.rest
  rw [Planning.rest, hbuilders, flatMap_cons, flatMap_cons, length_append,
    length_append, hblocks, length_drop, length_cons]
  omega

/-- A round of the loop: the next builder is cut and its front closes the plan, the plan is closed
without it, or it is collected. -/
theorem planningStep_cases (hstep : a.planningStep s = .inl s') : ∃ b rest, s.builders = b :: rest ∧
    ((a.compactionCacheSize < s.totalSize + b.totalBlockSize ∧
      a.cutAt 0 s.totalSize b.blocks ≠ 0 ∧
      s' = { pushPlan (addOrMerge
        (b.split 0 (a.cutAt 0 s.totalSize b.blocks)).2 s) with
        builders := (b.split 0 (a.cutAt 0 s.totalSize b.blocks)).1 :: rest }) ∨
    (a.compactionCacheSize < s.totalSize + b.totalBlockSize ∧
      a.cutAt 0 s.totalSize b.blocks = 0 ∧ s' = pushPlan s) ∨
    (s.totalSize + b.totalBlockSize ≤ a.compactionCacheSize ∧
      s' = { addOrMerge b s with
        totalSize := s.totalSize + b.totalBlockSize
        builders := rest })) := by
  unfold planningStep at hstep
  cases hbuilders : s.builders with
  | nil =>
    rw [hbuilders] at hstep
    cases hstep
  | cons b rest =>
    rw [hbuilders] at hstep
    dsimp only at hstep
    refine ⟨b, rest, rfl, ?_⟩
    split at hstep
    · rename_i hover
      split at hstep
      · rename_i hcut
        exact .inl ⟨hover, hcut, (Sum.inl.inj hstep).symm⟩
      · rename_i hcut
        exact .inr (.inl ⟨hover, not_not.mp hcut, (Sum.inl.inj hstep).symm⟩)
    · rename_i hfits
      exact .inr (.inr ⟨not_lt.mp hfits, (Sum.inl.inj hstep).symm⟩)

/-- The plan is closed without the next builder only when something is in it. -/
theorem totalSize_ne_zero {b : CompactedObjectBuilder}
    (hsize : ∀ x ∈ b.blocks, x.blockSize ≤ a.compactionCacheSize)
    (hover : a.compactionCacheSize < s.totalSize + b.totalBlockSize)
    (hcut : a.cutAt 0 s.totalSize b.blocks = 0) : s.totalSize ≠ 0 := by
  intro hzero
  rw [hzero] at hcut hover
  rw [zero_add] at hover
  exact cutAt_ne_zero hsize hover hcut

theorem Planned.planningStep (h : Planned a builders s) (hstep : a.planningStep s = .inl s') :
    Planned a builders s' ∧ s'.rest < s.rest := by
  obtain ⟨b, rest, hbuilders, ⟨-, hcut, hs'⟩ | ⟨hover, hcut, rfl⟩ | ⟨hfits, rfl⟩⟩ :=
    planningStep_cases hstep
  · exact h.cut hbuilders hcut hs'
  · have hb : Waits a b := h.waits b (hbuilders ▸ mem_cons_self)
    refine ⟨h.pushPlan, ?_⟩
    show 2 * _ + 0 < s.rest
    rw [Planning.rest, if_neg (totalSize_ne_zero hb.size hover hcut)]
    exact Nat.lt_succ_self _
  · have hb : Waits a b := h.waits b (hbuilders ▸ mem_cons_self)
    have hrest : ∀ c ∈ rest, Waits a c := fun c hc =>
      h.waits c (hbuilders ▸ mem_cons_of_mem b hc)
    have hcons : ∀ type, blocksOf type [b.build] ++ blocksOf type (rest.map build) =
        blocksOf type (s.builders.map build) := by
      intro type
      rw [hbuilders, map_cons]
      exact (blocksOf_cons ..).symm
    refine ⟨h.addOrMerge hb hrest hcons hfits, ?_⟩
    show 2 * (rest.length + (rest.flatMap blocks).length) +
      (if s.totalSize + b.totalBlockSize = 0 then 0 else 1) < s.rest
    rw [Planning.rest, hbuilders, flatMap_cons, length_append, length_cons]
    split <;> split <;> omega

/-- The loop ends when no builder waits, and what is collected is the last plan. -/
theorem planningStep_done (hstep : a.planningStep s = .inr plans) :
    s.builders = [] ∧ ((s.pending ≠ [] ∧ plans = (pushPlan s).plans) ∨
      (s.pending = [] ∧ plans = s.plans)) := by
  unfold planningStep at hstep
  cases hbuilders : s.builders with
  | cons =>
    rw [hbuilders] at hstep
    dsimp only at hstep
    split at hstep
    · split at hstep <;> cases hstep
    · cases hstep
  | nil =>
    rw [hbuilders] at hstep
    replace hstep := Sum.inr.inj hstep
    refine ⟨rfl, ?_⟩
    split at hstep
    · rename_i hsome
      refine .inl ⟨fun hpending => ?_, hstep.symm⟩
      obtain ⟨hobjects, hssb⟩ := append_eq_nil_iff.mp hpending
      rcases hsome with hsome | hsome
      · exact hsome hobjects
      · obtain ⟨b, hb⟩ := Option.isSome_iff_exists.mp hsome
        rw [hb] at hssb
        cases hssb
    · rename_i hempty
      obtain ⟨hobjects, hssb⟩ := not_or.mp hempty
      refine .inr ⟨?_, hstep.symm⟩
      rw [Planning.pending, not_not.mp hobjects, Option.not_isSome_iff_eq_none.mp hssb]
      rfl

structure Covers (builders : List CompactedObjectBuilder) (plans : List CompactionPlan) :
    Prop where
  kept : ∀ type, blocksOf type (objectsOf plans) = blocksOf type (builders.map build)
  runs : ∀ o ∈ objectsOf plans, o.compactionType = .split → SingleRun o.blocks

theorem Planned.planningStep_done (h : Planned a builders s)
    (hstep : a.planningStep s = .inr plans) : Covers builders plans := by
  obtain ⟨hbuilders, ⟨-, rfl⟩ | ⟨hpending, rfl⟩⟩ := CompactionAnalyzer.planningStep_done hstep
  all_goals
    have hnone : ∀ type, blocksOf type (s.builders.map build) = [] := by
      intro type
      rw [hbuilders]
      rfl
  · have hpushed := h.pushPlan
    refine ⟨fun type => ?_, hpushed.runs⟩
    have hkept := hpushed.kept type
    rwa [show (CompactionAnalyzer.pushPlan s).pending = [] from rfl,
      show (CompactionAnalyzer.pushPlan s).builders = s.builders from rfl, hnone,
      show blocksOf type [] = [] from rfl, append_nil, append_nil] at hkept
  · refine ⟨fun type => ?_, h.runs⟩
    have hkept := h.kept type
    rwa [hpending, hnone, show blocksOf type [] = [] from rfl, append_nil, append_nil] at hkept

theorem planned_start (hwaits : ∀ b ∈ builders, Waits a b) :
    Planned a builders ⟨[], [], none, 0, 0, builders⟩ :=
  ⟨fun _ => rfl, nofun, ⟨nofun, nofun⟩, hwaits, Nat.zero_le _⟩

/-- **The loop over the plans ends**, with the blocks of the output objects in the plans. -/
theorem exists_generatePlanWithCacheLimit (hwaits : ∀ b ∈ builders, Waits a b) :
    ∃ plans, a.generatePlanWithCacheLimit builders = some plans ∧ Covers builders plans := by
  refine Loop.loop_spec Planning.rest
    (fun s s' hs hstep => hs.planningStep hstep) (fun s r hs hstep => hs.planningStep_done hstep)
    (planned_start hwaits) (Nat.lt_succ_self _)

end CompactionAnalyzer

/-! ## The objects that are compacted -/

/-- The object shares a stream with another one. -/
def BlockMap.Shares (m : BlockMap) (id : Nat) : Prop :=
  ∃ e ∈ m, e.1 = id ∧ ∃ e' ∈ m, e'.1 ≠ id ∧ ∃ x ∈ e.2, ∃ y ∈ e'.2, x.streamId = y.streamId

instance (m : BlockMap) (id : Nat) : Decidable (m.Shares id) := by
  unfold BlockMap.Shares
  infer_instance

/-- Every block has the id of its object. -/
def BlockMap.Tagged (m : BlockMap) : Prop := ∀ e ∈ m, ∀ x ∈ e.2, x.objectId = e.1

instance (m : BlockMap) : Decidable m.Tagged := by
  unfold BlockMap.Tagged
  infer_instance

theorem exists_ne_of_one_lt_length {ids : List Nat} (hnodup : ids.Nodup) {id : Nat}
    (hid : id ∈ ids) : 1 < ids.length ↔ ∃ other ∈ ids, other ≠ id := by
  have hlength := length_erase_of_mem hid
  constructor
  · intro hlt
    obtain ⟨other, hother⟩ := exists_mem_of_length_pos (by omega : 0 < (ids.erase id).length)
    obtain ⟨hne, hmem⟩ := hnodup.mem_erase_iff.mp hother
    exact ⟨other, hmem, hne⟩
  · rintro ⟨other, hmem, hne⟩
    have hpos := length_pos_of_mem (hnodup.mem_erase_iff.mpr ⟨hne, hmem⟩)
    omega

theorem mem_streamToObjectIds {id : Nat} :
    id ∈ streamToObjectIds m streamId ↔
      ∃ x ∈ m.blocks, x.streamId = streamId ∧ x.objectId = id := by
  rw [streamToObjectIds, mem_dedup, mem_map]
  constructor
  · rintro ⟨x, hx, hid⟩
    obtain ⟨hmem, hstream⟩ := mem_filter.mp hx
    exact ⟨x, hmem, of_decide_eq_true hstream, hid⟩
  · rintro ⟨x, hmem, hstream, hid⟩
    exact ⟨x, mem_filter.mpr ⟨hmem, decide_eq_true hstream⟩, hid⟩

theorem mem_objectsToCompact (htagged : m.Tagged) {id : Nat} :
    id ∈ objectsToCompact m ↔ m.Shares id := by
  have hblock : ∀ x ∈ m.blocks, ∃ e ∈ m, x ∈ e.2 ∧ e.1 = x.objectId := by
    intro x hx
    obtain ⟨e, he, hxe⟩ := mem_flatMap.mp hx
    exact ⟨e, he, hxe, (htagged e he x hxe).symm⟩
  rw [objectsToCompact, mem_flatMap]
  constructor
  · rintro ⟨ids, hids, hid⟩
    obtain ⟨b, -, rfl⟩ := mem_map.mp hids
    split at hid
    · rename_i hlt
      obtain ⟨other, hother, hne⟩ := (exists_ne_of_one_lt_length (nodup_dedup _) hid).mp hlt
      obtain ⟨x, hx, hxstream, rfl⟩ := mem_streamToObjectIds.mp hid
      obtain ⟨y, hy, hystream, rfl⟩ := mem_streamToObjectIds.mp hother
      obtain ⟨e, he, hxe, heid⟩ := hblock x hx
      obtain ⟨e', he', hye, heid'⟩ := hblock y hy
      exact ⟨e, he, heid, e', he', heid' ▸ hne, x, hxe, y, hye, hxstream.trans hystream.symm⟩
    · cases hid
  · rintro ⟨e, he, rfl, e', he', hne, x, hx, y, hy, hstream⟩
    have hxmem : x ∈ m.blocks := mem_flatMap.mpr ⟨e, he, hx⟩
    have hymem : y ∈ m.blocks := mem_flatMap.mpr ⟨e', he', hy⟩
    have hid : e.1 ∈ streamToObjectIds m x.streamId :=
      mem_streamToObjectIds.mpr ⟨x, hxmem, rfl, htagged e he x hx⟩
    have hother : e'.1 ∈ streamToObjectIds m x.streamId :=
      mem_streamToObjectIds.mpr ⟨y, hymem, hstream.symm, htagged e' he' y hy⟩
    have hlt : 1 < (streamToObjectIds m x.streamId).length :=
      (exists_ne_of_one_lt_length (nodup_dedup _) hid).mpr ⟨_, hother, hne⟩
    exact ⟨_, mem_map_of_mem hxmem, by rwa [if_pos hlt]⟩

theorem filterBlocksToCompact_eq (htagged : m.Tagged) :
    filterBlocksToCompact m = m.filter fun e => m.Shares e.1 := by
  refine filter_congr fun e _ => ?_
  rw [Bool.eq_iff_iff, contains_iff_mem, decide_eq_true_iff]
  exact mem_objectsToCompact htagged

theorem filter_blocks {m : BlockMap} (htagged : m.Tagged) (p : Nat → Bool) :
    m.blocks.filter (fun x => p x.objectId) = BlockMap.blocks (m.filter fun e => p e.1) := by
  unfold BlockMap.blocks
  induction m with
  | nil => rfl
  | cons e m ih =>
    obtain ⟨he, hrest⟩ := forall_mem_cons.mp htagged
    rw [flatMap_cons, filter_append, ih hrest]
    cases hp : p e.1 with
    | true =>
      rw [filter_cons, if_pos hp, flatMap_cons]
      congr 1
      exact filter_eq_self.mpr fun x hx => by rw [he x hx, hp]
    | false =>
      have hnone : e.2.filter (fun x => p x.objectId) = [] :=
        filter_eq_nil_iff.mpr fun x hx => by rw [he x hx, hp]; nofun
      rw [filter_cons, hp, hnone]
      rfl

theorem forall_mem_filterBlocksToCompact {P : StreamDataBlock → Prop}
    (h : ∀ e ∈ m, ∀ x ∈ e.2, P x) : ∀ x ∈ BlockMap.blocks (filterBlocksToCompact m), P x := by
  intro x hx
  obtain ⟨e, he, hxe⟩ := mem_flatMap.mp hx
  exact h e (mem_of_mem_filter he) x hxe

namespace CompactionAnalyzer

/-- **The plans have the blocks of the objects that share a stream and were not excluded.** -/
theorem analyze_conserves (a : CompactionAnalyzer) {m : BlockMap} (htagged : m.Tagged)
    (hsize : ∀ e ∈ m, ∀ x ∈ e.2, 1 ≤ x.blockSize ∧ x.blockSize ≤ a.compactionCacheSize) :
    ∃ plans excluded, a.analyze m [] = some (plans, excluded) ∧ (plans ≠ [] →
      ((objectsOf plans).flatMap CompactedObject.blocks).Perm
        ((m.filter fun e => m.Shares e.1 ∧ e.1 ∉ excluded).flatMap Prod.snd) ∧
      -- a stream object has one stream, without a gap
      (∀ o ∈ objectsOf plans, o.compactionType = .split →
        (∀ x ∈ o.blocks, ∀ y ∈ o.blocks, x.streamId = y.streamId) ∧
        o.blocks.IsChain fun x y => x.endOffset = y.startOffset) ∧
      -- what goes into stream set objects is sorted, with one run of each stream
      ((blocksOf .compact (objectsOf plans)).Pairwise fun x y => x.streamId < y.streamId ∨
        (x.streamId = y.streamId ∧ x.startOffset ≤ y.startOffset)) ∧
      ∀ streamId, ((blocksOf .compact (objectsOf plans)).filter
        (·.streamId = streamId)).IsChain fun x y => x.endOffset = y.startOffset) := by
  have hblocks := forall_mem_filterBlocksToCompact hsize
  obtain ⟨⟨result, excluded⟩, hgroup, hgrouped⟩ :=
    exists_groupObjectWithLimits a fun x hx => (hblocks x hx).1
  cases result with
  | none =>
    refine ⟨[], excluded, ?_, fun hne => absurd rfl hne⟩
    rw [analyze_eq, hgroup]
    rfl
  | some builders =>
    have hbuilders := hgrouped builders rfl
    have hwaits : ∀ b ∈ builders, Waits a b := by
      refine fun b hb => ⟨hbuilders.positioned b hb, hbuilders.splits b hb, fun x hx => ?_⟩
      have hmem : x ∈ builders.flatMap blocks := mem_flatMap.mpr ⟨b, hb, hx⟩
      rw [hbuilders.all] at hmem
      exact (hblocks x ((perm_sortStreamRangePositions _).mem_iff.mp
        (mem_of_mem_filter hmem))).2
    obtain ⟨plans, hplans, hcovers⟩ := exists_generatePlanWithCacheLimit hwaits
    have hcompact : (blocksOf .compact (objectsOf plans)).Pairwise Sorted := by
      rw [hcovers.kept]
      refine List.Pairwise.sublist (blocksOf_sublist ..) ?_
      rw [flatMap_map]
      show (builders.flatMap blocks).Pairwise Sorted
      rw [hbuilders.all]
      exact (pairwise_sortStreamRangePositions _).filter _
    refine ⟨plans, excluded, ?_, fun _ => ⟨?_, fun o ho hsplit => ?_, hcompact,
      fun streamId => isChain_filter_stream hcompact ?_ streamId⟩⟩
    · rw [analyze_eq, hgroup, Option.bind_some]
      dsimp only
      rw [hplans]
      rfl
    · -- From the plans to the builders, to the sorted blocks, to the map.
      have hbuilt : ((builders.map build).flatMap CompactedObject.blocks) =
          builders.flatMap blocks := flatMap_map ..
      have hshares : BlockMap.Tagged (filterBlocksToCompact m) := fun e he =>
        htagged e (mem_of_mem_filter he)
      have hfilter : (BlockMap.blocks (filterBlocksToCompact m)).filter
            (fun x => !excluded.contains x.objectId) =
          (m.filter fun e => m.Shares e.1 ∧ e.1 ∉ excluded).flatMap Prod.snd := by
        rw [filter_blocks hshares fun id => !excluded.contains id, filterBlocksToCompact_eq htagged,
          filter_filter, BlockMap.blocks]
        congr 1
        refine filter_congr fun e _ => ?_
        simp [and_comm]
      calc (objectsOf plans).flatMap CompactedObject.blocks
          |>.Perm (blocksOf .split (objectsOf plans) ++ blocksOf .compact (objectsOf plans)) :=
            (perm_blocksOf _).symm
        _ |>.Perm (builders.flatMap blocks) := by
            rw [hcovers.kept, hcovers.kept, ← hbuilt]
            exact perm_blocksOf _
        _ |>.Perm ((m.filter fun e => m.Shares e.1 ∧ e.1 ∉ excluded).flatMap Prod.snd) := by
            rw [hbuilders.all, ← hfilter]
            exact (perm_sortStreamRangePositions _).filter _
    · have hrun := hcovers.runs o ho hsplit
      exact ⟨hrun.single, hrun.contiguous⟩
    · rw [hcovers.kept]
      exact hbuilders.follows

/-- Two objects that share a stream, which has a gap in the second one. -/
def twoObjects : BlockMap :=
  [(0, [⟨0, ⟨-1, 0, 0, 20, 1, 0, 20⟩⟩, ⟨0, ⟨-1, 1, 30, 30, 1, 20, 30⟩⟩]),
    (1, [⟨1, ⟨-1, 0, 20, 5, 1, 0, 5⟩⟩, ⟨1, ⟨-1, 0, 40, 10, 1, 5, 10⟩⟩])]

/-- The cache takes the run before the gap, and not what is behind it. -/
theorem analyze_conserves_two_objects : ∃ plans excluded,
    (⟨40, 100, 10, 10⟩ : CompactionAnalyzer).analyze twoObjects [] = some (plans, excluded) ∧
      plans.length = 2 ∧ ((objectsOf plans).flatMap CompactedObject.blocks).Perm
        ((twoObjects.filter fun e => twoObjects.Shares e.1 ∧ e.1 ∉ excluded).flatMap Prod.snd) := by
  obtain ⟨plans, excluded, hanalyze, h⟩ :=
    analyze_conserves ⟨40, 100, 10, 10⟩ (m := twoObjects) (by decide) (by decide)
  have htwo : ((⟨40, 100, 10, 10⟩ : CompactionAnalyzer).analyze twoObjects []).any
      (fun r => decide (r.1.length = 2)) = true := by decide +kernel
  rw [hanalyze] at htwo
  have hlength : plans.length = 2 := of_decide_eq_true htwo
  have hne : plans ≠ [] := by
    rintro rfl
    cases hlength
  exact ⟨plans, excluded, hanalyze, hlength, (h hne).1⟩

end CompactionAnalyzer

end S3Stream
