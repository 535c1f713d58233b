import S3Stream.Compact.PlanConserves

/-! # What the plans of a compaction are bounded by

A plan reads no more than the cache holds, and no plan is empty. The limits on streams and on stream
objects hold of the output objects before they are spread over plans; each plan but the last cuts at
most one stream object in two. -/

namespace S3Stream

open List CompactedObjectBuilder

/-! ## The read map -/

theorem groupBlocks_concat (key : StreamDataBlock → Nat) (blocks : List StreamDataBlock)
    (b : StreamDataBlock) : groupBlocks key (blocks ++ [b]) =
      (groupBlocks key blocks).insert (key b)
        (((groupBlocks key blocks).get? (key b)).getD [] ++ [b]) := by
  rw [groupBlocks, foldl_append]
  rfl

theorem getD_groupBlocks (key : StreamDataBlock → Nat) (blocks : List StreamDataBlock) (k : Nat) :
    ((groupBlocks key blocks).get? k).getD [] = blocks.filter (key · = k) := by
  induction blocks using reverseRecOn with
  | nil => rfl
  | append_singleton blocks b ih =>
    rw [groupBlocks_concat, filter_append]
    by_cases hk : key b = k
    · rw [← hk, OrdMap.get?_insert_self, Option.getD_some, hk, ih,
        filter_cons_of_pos (by simpa using hk)]
      rfl
    · rw [OrdMap.get?_insert_of_ne (Ne.symm hk), ih, filter_cons_of_neg (by simpa using hk)]
      exact (append_nil _).symm

def CompactionPlan.blocks (p : CompactionPlan) : List StreamDataBlock :=
  p.compactedObjects.flatMap CompactedObject.blocks

/-- The map lists the blocks of the output objects, those of an object in the order in which they
lie in it. -/
structure CompactionPlan.ReadsBlocks (p : CompactionPlan) : Prop where
  all : (p.streamDataBlocksMap.entries.flatMap Prod.snd).Perm p.blocks
  object : ∀ e ∈ p.streamDataBlocksMap, e.2.Perm (p.blocks.filter (·.objectId = e.1)) ∧
    e.2.Pairwise fun x y => x.blockStartPosition ≤ y.blockStartPosition

namespace CompactionAnalyzer

variable {a : CompactionAnalyzer}

theorem readsBlocks_generatePlan (order : Nat) (objects : List CompactedObject)
    (streamSetBuilder : Option CompactedObjectBuilder) :
    (generatePlan order objects streamSetBuilder).ReadsBlocks := by
  constructor
  · refine List.Perm.trans ?_ (perm_groupBlocks StreamDataBlock.objectId _)
    show (flatMap Prod.snd (map _ _)).Perm _
    rw [flatMap_map]
    exact List.Perm.flatMap_left _ fun e _ => perm_insertionSort _ _
  · intro e he
    obtain ⟨d, hd, rfl⟩ := mem_map.mp he
    have hget := OrdMap.get?_of_mem hd
    have hfilter := getD_groupBlocks StreamDataBlock.objectId
      (generatePlan order objects streamSetBuilder).blocks d.1
    refine ⟨?_, pairwise_insertionSort _ _⟩
    rw [← hfilter]
    refine (perm_insertionSort _ _).trans (List.Perm.of_eq ?_)
    exact (congrArg (Option.getD · []) hget).symm

/-! ## Builders of blocks of any size -/

theorem sumBlockSize_append (bs bs' : List StreamDataBlock) :
    sumBlockSize (bs ++ bs') = sumBlockSize bs + sumBlockSize bs' := by
  rw [sumBlockSize, map_append, sum_append]
  rfl

theorem sumBlockSize_perm (h : bs.Perm bs') : sumBlockSize bs = sumBlockSize bs' := (h.map _).sum_eq

/-- A builder that has been finished over the blocks `sorted`. -/
structure Shaped (sorted : List StreamDataBlock) (b : CompactedObjectBuilder) : Prop where
  positioned : b.Positioned
  ne : b.blocks ≠ []
  run : b.compactionType = .split → SingleRun b.blocks
  mem : ∀ x ∈ b.blocks, x ∈ sorted

/-- What holds between two rounds of `compact_objects`. -/
structure Shaping (sorted : List StreamDataBlock) (s : Cutting) : Prop where
  done : ∀ b ∈ s.1, Shaped sorted b
  current : s.2.Positioned ∧ s.2.compactionType = .compact
  follows : s.2.blocks.IsChain Follows
  mem : ∀ x ∈ s.2.blocks, x ∈ sorted

variable {sorted : List StreamDataBlock} {s s' : Cutting} {x : StreamDataBlock}

theorem Shaping.splitObject (h : Shaping sorted s) (hne : s.2.blocks ≠ []) :
    ∀ b ∈ splitObject s.2 s.1, Shaped sorted b := by
  obtain ⟨before, run, hlast⟩ := exists_lastStream hne
  obtain ⟨hpos, hleft, hcut, htype⟩ := h.current.1.splitCurrentStream hlast
  have hfollows := h.follows
  rw [hlast.eq] at hfollows
  intro b hb
  rcases mem_splitObject hb with hb | ⟨rfl, hsize⟩ | rfl
  · exact h.done b hb
  · refine ⟨hpos.1, fun hnil => ?_, fun hsplit => ?_, fun x hx => h.mem x ?_⟩
    · rw [totalBlockSize, hnil] at hsize
      exact hsize rfl
    · rw [htype, h.current.2] at hsplit
      cases hsplit
    · rw [hleft] at hx
      exact hlast.eq ▸ mem_append_left _ hx
  · refine ⟨hpos.2, ?_, fun _ => ?_, fun x hx => h.mem x ?_⟩
    · exact hcut ▸ hlast.ne
    · show SingleRun s.2.splitCurrentStream.2.blocks
      rw [hcut]
      exact .of_follows (isChain_append.mp hfollows).2.1 hlast.single
    · replace hx : x ∈ s.2.splitCurrentStream.2.blocks := hx
      rw [hcut] at hx
      exact hlast.eq ▸ mem_append_right _ hx

theorem Shaping.compactBlock (h : Shaping sorted s) (hx : x ∈ sorted)
    (hstep : a.compactBlock s x = some s') : Shaping sorted s' ∧ s'.2.blocks ≠ [] := by
  obtain ⟨hne, rfl⟩ | ⟨rfl, hfollows⟩ := compactBlock_cases hstep
  · refine ⟨⟨h.splitObject hne, ⟨positioned_new.addBlock x, rfl⟩, isChain_singleton _, ?_⟩,
      cons_ne_nil _ _⟩
    intro y hy
    rwa [mem_singleton.mp hy]
  · refine ⟨⟨h.done, ⟨h.current.1.addBlock x, h.current.2⟩, ?_,
        forall_mem_append.mpr ⟨h.mem, forall_mem_singleton.mpr hx⟩⟩, ?_⟩
    · refine isChain_append.mpr ⟨h.follows, isChain_singleton _, fun y hy z hz => ?_⟩
      obtain rfl : z = x := (Option.some.inj hz).symm
      exact hfollows y hy
    · exact append_ne_nil_of_right_ne_nil _ (cons_ne_nil _ _)

theorem Shaping.foldlM (h : Shaping sorted s) (hrest : ∀ x ∈ rest, x ∈ sorted)
    (hne : s.2.blocks ++ rest ≠ []) (hfold : rest.foldlM a.compactBlock s = some s') :
    Shaping sorted s' ∧ s'.2.blocks ≠ [] := by
  induction rest generalizing s with
  | nil =>
    cases hfold
    rw [append_nil] at hne
    exact ⟨h, hne⟩
  | cons x rest ih =>
    obtain ⟨hx, hrest⟩ := forall_mem_cons.mp hrest
    rw [foldlM_cons, Option.bind_eq_bind, Option.bind_eq_some_iff] at hfold
    obtain ⟨s₁, hstep, hfold⟩ := hfold
    obtain ⟨h₁, hne₁⟩ := h.compactBlock hx hstep
    exact ih h₁ hrest (append_ne_nil_of_left_ne_nil hne₁ _) hfold

theorem shaped_compactObjects (hne : sorted ≠ []) (h : a.compactObjects sorted = some builders) :
    ∀ b ∈ builders, Shaped sorted b := by
  rw [compactObjects, Option.bind_eq_bind, Option.bind_eq_some_iff] at h
  obtain ⟨s, hfold, hbuilders⟩ := h
  have hnew : Shaping sorted ([], new) := ⟨by simp, ⟨positioned_new, rfl⟩, .nil, forall_mem_nil _⟩
  obtain ⟨hshaping, hcurrent⟩ := hnew.foldlM (fun x hx => hx) hne hfold
  replace hbuilders := Option.some.inj hbuilders
  subst hbuilders
  split
  · exact hshaping.splitObject hcurrent
  · refine forall_mem_append.mpr ⟨hshaping.done,
      forall_mem_singleton.mpr ⟨hshaping.current.1, hcurrent, fun hsplit => ?_, hshaping.mem⟩⟩
    rw [hshaping.current.2] at hsplit
    cases hsplit

/-! ## What the loop over the limits leaves with -/

/-- What holds between two rounds, whatever the sizes: the blocks of an object that may still be
compacted are there. -/
structure Viable (m : BlockMap) (s : Grouping) : Prop where
  mem : ∀ x ∈ s.sortedBlocks, x ∈ m.blocks
  kept : ∀ e ∈ s.streamDataBlockMap, ∀ x ∈ s.streamDataBlockMap.blocks, x.objectId = e.1 →
    x ∈ s.sortedBlocks

variable {m : BlockMap} {g : Grouping}

theorem exists_mem_of_mem_filterBlocksToCompact (he : e ∈ filterBlocksToCompact m) :
    e ∈ m ∧ ∃ x ∈ m.blocks, x.objectId = e.1 := by
  obtain ⟨hmem, hid⟩ := mem_filter.mp he
  refine ⟨hmem, ?_⟩
  obtain ⟨ids, hids, hid⟩ := mem_flatMap.mp (contains_iff_mem.mp hid)
  obtain ⟨b, -, rfl⟩ := mem_map.mp hids
  split at hid
  · obtain ⟨x, hx, -, hxid⟩ := mem_streamToObjectIds.mp hid
    exact ⟨x, hx, hxid⟩
  · cases hid

theorem mem_blocks_of_filter (hx : x ∈ BlockMap.blocks (m.filter p)) : x ∈ m.blocks := by
  obtain ⟨e, he, hxe⟩ := mem_flatMap.mp hx
  exact mem_flatMap.mpr ⟨e, mem_of_mem_filter he, hxe⟩

theorem Viable.mapWithout (h : Viable m g) (removed : List Nat) :
    (∀ e ∈ mapWithout removed g.streamDataBlockMap,
      ∀ x ∈ BlockMap.blocks (mapWithout removed g.streamDataBlockMap), x.objectId = e.1 →
        x ∈ g.sortedBlocks.filter fun x => !removed.contains x.objectId) ∧
    (mapWithout removed g.streamDataBlockMap ≠ [] →
      g.sortedBlocks.filter (fun x => !removed.contains x.objectId) ≠ []) := by
  have hkept : ∀ e ∈ CompactionAnalyzer.mapWithout removed g.streamDataBlockMap,
      ∀ x ∈ g.streamDataBlockMap.blocks, x.objectId = e.1 →
        x ∈ g.sortedBlocks.filter fun x => !removed.contains x.objectId := by
    intro e he x hx hid
    obtain ⟨he, hremoved⟩ := mem_filter.mp (mem_of_mem_filter he)
    exact mem_filter.mpr ⟨h.kept e he x hx hid, hid ▸ hremoved⟩
  refine ⟨fun e he x hx => hkept e he x (mem_blocks_of_filter (mem_blocks_of_filter hx)), ?_⟩
  intro hne
  obtain ⟨e, he⟩ := exists_mem_of_ne_nil _ hne
  obtain ⟨-, x, hx, hid⟩ := exists_mem_of_mem_filterBlocksToCompact he
  exact ne_nil_of_mem (hkept e he x (mem_blocks_of_filter hx) hid)

/-- **The output objects within the limits**, of blocks that are not none. -/
theorem of_groupObjectWithLimits
    (h : a.groupObjectWithLimits m excludedObjectIds = some (some builders, excluded)) :
    (∀ b ∈ builders, Shaped m.blocks b) ∧
      (CompactionStats.of builders).streamNumInStreamSet ≤ a.maxStreamNumInStreamSet ∧
      (CompactionStats.of builders).streamObjectNum ≤ a.maxStreamObjectNum := by
  refine Loop.of_loop (I := Viable m) (Q := fun r => ∀ builders, r.1 = some builders →
    (∀ b ∈ builders, Shaped m.blocks b) ∧
      (CompactionStats.of builders).streamNumInStreamSet ≤ a.maxStreamNumInStreamSet ∧
      (CompactionStats.of builders).streamObjectNum ≤ a.maxStreamObjectNum)
    (fun g g' hg hstep => ?_) (fun g r hg hstep built hr => ?_) ?_ h builders rfl
  · obtain ⟨ids, hleft⟩ | ⟨_, -, -, -, hgoes | ⟨-, hleft⟩⟩ := groupingStep_cases a g
    · cases hleft.symm.trans hstep
    · cases hgoes.symm.trans hstep
      exact ⟨fun x hx => hg.mem x (mem_of_mem_filter hx), (hg.mapWithout _).1⟩
    · cases hleft.symm.trans hstep
  · obtain ⟨ids, hleft⟩ | ⟨_, hbuilders, -, hmap, hgoes | ⟨hlimits, hleft⟩⟩ :=
      groupingStep_cases a g
    · cases hleft.symm.trans hstep
      cases hr
    · cases hgoes.symm.trans hstep
    · cases hleft.symm.trans hstep
      cases hr
      refine ⟨fun b hb => ?_, hlimits⟩
      have hb := shaped_compactObjects ((hg.mapWithout _).2 hmap) hbuilders b hb
      exact ⟨hb.positioned, hb.ne, hb.run, fun x hx => hg.mem x (mem_of_mem_filter (hb.mem x hx))⟩
  · have hperm := perm_sortStreamRangePositions m
    exact ⟨fun x hx => hperm.mem_iff.mp hx, fun e _ x hx _ => hperm.mem_iff.mpr hx⟩

theorem groupObjectWithLimits_excluded (excludedObjectIds : List Nat) :
    a.groupObjectWithLimits m excludedObjectIds =
      (a.groupObjectWithLimits m []).map fun r => (r.1, excludedObjectIds ++ r.2) := by
  have hstep : ∀ g : Grouping, a.groupingStep
      { g with excludedObjectIds := excludedObjectIds ++ g.excludedObjectIds } =
        (a.groupingStep g).map
          (fun g => { g with excludedObjectIds := excludedObjectIds ++ g.excludedObjectIds })
          (fun r => (r.1, excludedObjectIds ++ r.2)) := by
    intro g
    have hremoved : a.objectsToRemove
        { g with excludedObjectIds := excludedObjectIds ++ g.excludedObjectIds } =
          a.objectsToRemove g := rfl
    unfold groupingStep
    dsimp only
    rw [hremoved]
    split
    · rfl
    · rw [append_assoc]
      split
      · rfl
      · split
        · rfl
        · split <;> rfl
  have hloop := Loop.loop_map hstep ((sortStreamRangePositions m).length + 2)
    ⟨m, [], sortStreamRangePositions m, [], none⟩
  dsimp only at hloop
  rw [append_nil] at hloop
  exact hloop

/-! ## Spreading the output objects -/

/-- What a plan is bounded by. -/
structure Bounded (a : CompactionAnalyzer) (p : CompactionPlan) : Prop where
  fits : sumBlockSize p.blocks ≤ a.compactionCacheSize
  ne : p.blocks ≠ []
  reads : p.ReadsBlocks

def Planning.pendingBlocks (s : Planning) : List StreamDataBlock :=
  s.pending.flatMap CompactedObject.blocks

variable {builders : List CompactedObjectBuilder} {p p' : Planning}

theorem Collects.perm_pendingBlocks (h : Collects p)
    (hb : b.compactionType = .split → SingleRun b.blocks) :
    (CompactionAnalyzer.addOrMerge b p).pendingBlocks.Perm (p.pendingBlocks ++ b.blocks) := by
  obtain ⟨-, hpending⟩ := h.addOrMerge hb
  have hbuild := perm_blocksOf [b.build]
  rw [flatMap_singleton] at hbuild
  refine (perm_blocksOf _).symm.trans (List.Perm.trans ?_
    ((perm_blocksOf p.pending).append hbuild))
  rw [hpending, hpending, append_assoc, append_assoc]
  refine List.Perm.append_left _ ?_
  rw [← append_assoc, ← append_assoc]
  exact perm_append_comm.append_right _

/-- What holds between two rounds of what has been planned and collected. -/
structure Loaded (a : CompactionAnalyzer) (p : Planning) : Prop where
  size : sumBlockSize p.pendingBlocks = p.totalSize
  ne : p.pending ≠ [] → p.pendingBlocks ≠ []
  plans : ∀ q ∈ p.plans, Bounded a q
  waits : ∀ b ∈ p.builders, b.blocks ≠ []

theorem Loaded.bounded_pushPlan (h : ∀ q ∈ p.plans, Bounded a q)
    (hfits : sumBlockSize p.pendingBlocks ≤ a.compactionCacheSize) (hne : p.pendingBlocks ≠ []) :
    ∀ q ∈ (pushPlan p).plans, Bounded a q :=
  forall_mem_append.mpr ⟨h, forall_mem_singleton.mpr ⟨hfits, hne, readsBlocks_generatePlan ..⟩⟩

theorem Loaded.planningStep (h : Loaded a p) (hplanned : Planned a builders p)
    (hstep : a.planningStep p = .inl p') : Loaded a p' := by
  have hfits := hplanned.fits
  obtain ⟨b, rest, hbuilders, hcases⟩ := planningStep_cases hstep
  have hb : Waits a b := hplanned.waits b (hbuilders ▸ mem_cons_self)
  have hbne : b.blocks ≠ [] := h.waits b (hbuilders ▸ mem_cons_self)
  have hrest : ∀ c ∈ rest, c.blocks ≠ [] := fun c hc =>
    h.waits c (hbuilders ▸ mem_cons_of_mem b hc)
  obtain ⟨-, hcut, rfl⟩ | ⟨hover, hcut, rfl⟩ | ⟨-, rfl⟩ := hcases
  · obtain ⟨hlt, hsum⟩ := cutAt_spec hfits hcut
    obtain ⟨-, hfront, hleft, -⟩ := hb.split hlt.le hbne
    obtain ⟨-, -, hblocks, -⟩ := hb.positioned.split 0 hlt.le hbne
    rw [drop_zero, Nat.sub_zero] at hblocks
    have hperm := hplanned.collects.perm_pendingBlocks hfront.run
    have hsize := sumBlockSize_perm hperm
    refine ⟨rfl, nofun, ?_, forall_mem_cons.mpr ⟨?_, hrest⟩⟩
    · refine Loaded.bounded_pushPlan ?_ ?_ ?_
      · rw [plans_addOrMerge]
        exact h.plans
      · rw [hsize, sumBlockSize_append, h.size]
        exact hblocks ▸ hsum
      · intro hnil
        rw [hnil] at hperm
        obtain ⟨-, hnone⟩ := append_eq_nil_iff.mp hperm.symm.eq_nil
        have hlength := congrArg length (hblocks.symm.trans hnone)
        rw [length_take, length_nil] at hlength
        omega
    · rw [hleft]
      exact ne_nil_of_length_pos (by rw [length_drop]; omega)
  · refine ⟨rfl, nofun, Loaded.bounded_pushPlan h.plans (h.size ▸ hfits) ?_, h.waits⟩
    intro hnil
    have hsize := h.size
    rw [hnil] at hsize
    exact totalSize_ne_zero hb.size hover hcut hsize.symm
  · have hperm := hplanned.collects.perm_pendingBlocks hb.run
    refine ⟨?_, fun _ hnil => ?_, ?_, hrest⟩
    · show sumBlockSize (addOrMerge b p).pendingBlocks = _
      rw [sumBlockSize_perm hperm, sumBlockSize_append, h.size]
      rfl
    · replace hnil : (addOrMerge b p).pendingBlocks = [] := hnil
      rw [hnil] at hperm
      exact hbne (append_eq_nil_iff.mp hperm.symm.eq_nil).2
    · show ∀ q ∈ (addOrMerge b p).plans, _
      rw [plans_addOrMerge]
      exact h.plans

theorem Loaded.planningStep_done (h : Loaded a p) (hplanned : Planned a builders p)
    {plans : List CompactionPlan} (hstep : a.planningStep p = .inr plans) :
    ∀ q ∈ plans, Bounded a q := by
  obtain ⟨-, ⟨hpending, rfl⟩ | ⟨-, rfl⟩⟩ := CompactionAnalyzer.planningStep_done hstep
  · exact Loaded.bounded_pushPlan h.plans (h.size ▸ hplanned.fits) (h.ne hpending)
  · exact h.plans

theorem exists_bounded (hwaits : ∀ b ∈ builders, Waits a b) (hne : ∀ b ∈ builders, b.blocks ≠ []) :
    ∃ plans, a.generatePlanWithCacheLimit builders = some plans ∧ ∀ q ∈ plans, Bounded a q := by
  refine Loop.loop_spec (I := fun p => Planned a builders p ∧ Loaded a p) Planning.rest
    (fun p p' hp hstep => ?_) (fun p r hp hstep => hp.2.planningStep_done hp.1 hstep)
    ⟨planned_start hwaits, rfl, nofun, nofun, hne⟩ (Nat.lt_succ_self _)
  obtain ⟨hplanned, hlt⟩ := hp.1.planningStep hstep
  exact ⟨⟨hplanned, hp.2.planningStep hp.1 hstep⟩, hlt⟩

/-- **Every plan fits the cache.** -/
theorem analyze_fits_cache (a : CompactionAnalyzer) {m : BlockMap}
    (hsize : ∀ e ∈ m, ∀ x ∈ e.2, 1 ≤ x.blockSize ∧ x.blockSize ≤ a.compactionCacheSize)
    (excludedObjectIds : List Nat) :
    ∃ plans excluded, a.analyze m excludedObjectIds = some (plans, excluded) ∧ ∀ p ∈ plans,
      sumBlockSize (p.streamDataBlocksMap.entries.flatMap Prod.snd) ≤ a.compactionCacheSize ∧
      p.compactedObjects.flatMap CompactedObject.blocks ≠ [] ∧
      -- the blocks to read are those of the output objects
      (p.streamDataBlocksMap.entries.flatMap Prod.snd).Perm
        (p.compactedObjects.flatMap CompactedObject.blocks) ∧
      -- under each object its own, in the order of their positions
      ∀ e ∈ p.streamDataBlocksMap,
        e.2.Perm ((p.compactedObjects.flatMap CompactedObject.blocks).filter
          (·.objectId = e.1)) ∧
        e.2.Pairwise fun x y => x.blockStartPosition ≤ y.blockStartPosition := by
  have hblocks := forall_mem_filterBlocksToCompact hsize
  obtain ⟨⟨result, excluded⟩, hgroup, -⟩ :=
    exists_groupObjectWithLimits a fun x hx => (hblocks x hx).1
  replace hgroup := (groupObjectWithLimits_excluded excludedObjectIds).trans
    (congrArg (Option.map _) hgroup)
  cases result with
  | none =>
    refine ⟨[], excludedObjectIds ++ excluded, ?_, nofun⟩
    rw [analyze_eq, hgroup]
    rfl
  | some builders =>
    obtain ⟨hshaped, -⟩ := of_groupObjectWithLimits hgroup
    obtain ⟨plans, hplans, hbounded⟩ := exists_bounded
      (fun b hb => ⟨(hshaped b hb).positioned, (hshaped b hb).run,
        fun x hx => (hblocks x ((hshaped b hb).mem x hx)).2⟩) fun b hb => (hshaped b hb).ne
    refine ⟨plans, excludedObjectIds ++ excluded, ?_, fun p hp => ?_⟩
    · rw [analyze_eq, hgroup]
      show (a.generatePlanWithCacheLimit builders).map _ = _
      rw [hplans]
      rfl
    · have h := hbounded p hp
      exact ⟨sumBlockSize_perm h.reads.all ▸ h.fits, h.ne, h.reads.all, h.reads.object⟩

/-- Two plans, of which the first is full to the last byte but five. -/
theorem analyze_fits_cache_two_objects : ∃ plans excluded,
    (⟨40, 100, 10, 10⟩ : CompactionAnalyzer).analyze twoObjects [7] = some (plans, excluded) ∧
      plans.length = 2 ∧ ∀ p ∈ plans,
        sumBlockSize (p.streamDataBlocksMap.entries.flatMap Prod.snd) ≤ 40 := by
  obtain ⟨plans, excluded, hanalyze, h⟩ :=
    analyze_fits_cache ⟨40, 100, 10, 10⟩ (m := twoObjects) (by decide) [7]
  have htwo : ((⟨40, 100, 10, 10⟩ : CompactionAnalyzer).analyze twoObjects [7]).any
      (fun r => decide (r.1.length = 2)) = true := by decide +kernel
  rw [hanalyze] at htwo
  exact ⟨plans, excluded, hanalyze, of_decide_eq_true htwo, fun p hp => (h p hp).1⟩

/-! ## The limits -/

/-- The output objects that become stream objects. -/
def splitNum (objects : List CompactedObject) : Nat :=
  (objects.filter (·.compactionType = .split)).length

theorem splitNum_append (objects objects' : List CompactedObject) :
    splitNum (objects ++ objects') = splitNum objects + splitNum objects' := by
  rw [splitNum, filter_append, length_append]
  rfl

theorem splitNum_cons (o : CompactedObject) (objects : List CompactedObject) :
    splitNum (o :: objects) = splitNum [o] + splitNum objects := splitNum_append [o] objects

theorem splitNum_congr (h : o.compactionType = o'.compactionType) :
    splitNum [o] = splitNum [o'] := by
  simp only [splitNum, filter_cons, filter_nil, h]
  split <;> rfl

theorem splitNum_build (b : CompactedObjectBuilder) :
    splitNum [b.build] = if b.compactionType = .split then 1 else 0 := by
  simp only [splitNum, filter_cons, filter_nil, build, decide_eq_true_eq]
  split <;> rfl

theorem splitNum_compact (h : o.compactionType = .compact) : splitNum [o] = 0 := by
  rw [splitNum, filter_cons_of_neg (by simp [h])]
  rfl

theorem Collects.splitNum_addOrMerge (h : Collects p) (b : CompactedObjectBuilder) :
    splitNum (CompactionAnalyzer.addOrMerge b p).pending =
      splitNum p.pending + splitNum [b.build] := by
  have hbuilder : splitNum (p.streamSetBuilder.map build).toList = 0 := by
    cases hssb : p.streamSetBuilder with
    | none => rfl
    | some ssb => exact splitNum_compact (h.builder ssb hssb)
  unfold CompactionAnalyzer.addOrMerge
  split
  · rw [Planning.pending, Planning.pending, splitNum_append, splitNum_append, splitNum_append,
      hbuilder]
    rfl
  · rename_i htype
    replace htype : b.compactionType = .compact := by
      cases hkind : b.compactionType with
      | split => exact absurd hkind htype
      | compact => rfl
    have hmerged : ((p.streamSetBuilder.getD new).merge b).compactionType = .compact := by
      rw [CompactedObjectBuilder.merge, if_neg (by rw [htype]; decide)]
      cases hssb : p.streamSetBuilder with
      | none => rfl
      | some ssb => exact h.builder ssb hssb
    rw [Planning.pending, Planning.pending, splitNum_append, splitNum_append, hbuilder,
      splitNum_compact htype]
    exact congrArg (_ + ·) (splitNum_compact hmerged)

theorem splitNum_pushPlan : splitNum (objectsOf (pushPlan p).plans) =
    splitNum (objectsOf p.plans) + splitNum p.pending := by
  rw [objectsOf_pushPlan, splitNum_append]

/-! ### Cache boundaries -/

/-- Take blocks one after the other into a cache that has `load` bytes taken, and empty it before a
block that does not fit: the load at the end, and how often the cache was emptied. -/
def fillCache (cache : Nat) : Nat → List StreamDataBlock → Nat × Nat
  | load, [] => (load, 0)
  | load, x :: xs =>
    if cache < load + x.blockSize then
      ((fillCache cache x.blockSize xs).1, (fillCache cache x.blockSize xs).2 + 1)
    else fillCache cache (load + x.blockSize) xs

/-- How often the cache is emptied inside a stream object: between two of its blocks. -/
def cacheCuts (cache : Nat) : Nat → List CompactedObjectBuilder → Nat
  | _, [] => 0
  | load, b :: bs =>
    let inside := fillCache cache (fillCache cache load (b.blocks.take 1)).1 (b.blocks.drop 1)
    (if b.compactionType = .split then inside.2 else 0) + cacheCuts cache inside.1 bs

/-- The runs of the input that become stream objects, counted with the cache boundaries inside them,
are within the limit. -/
def CutsFit (a : CompactionAnalyzer) (m : BlockMap) : Prop :=
  ∀ builders ∈ (a.groupObjectWithLimits (filterBlocksToCompact m) []).bind Prod.fst,
    (CompactionStats.of builders).streamObjectNum + cacheCuts a.compactionCacheSize 0 builders ≤
      a.maxStreamObjectNum

instance (a : CompactionAnalyzer) (m : BlockMap) : Decidable (a.CutsFit m) :=
  inferInstanceAs (Decidable (∀ builders ∈ Option.bind _ Prod.fst, _ ≤ _))

variable {cache load : Nat} {xs ys : List StreamDataBlock} {b : CompactedObjectBuilder}
  {rest : List CompactedObjectBuilder}

theorem fillCache_append : fillCache cache load (xs ++ ys) =
    ((fillCache cache (fillCache cache load xs).1 ys).1,
      (fillCache cache load xs).2 + (fillCache cache (fillCache cache load xs).1 ys).2) := by
  induction xs generalizing load with
  | nil => rw [nil_append, fillCache, zero_add]
  | cons x xs ih =>
    rw [cons_append, fillCache, fillCache]
    split
    · rw [ih, Nat.add_right_comm]
    · exact ih

theorem fillCache_of_fits (h : load + sumBlockSize xs ≤ cache) :
    fillCache cache load xs = (load + sumBlockSize xs, 0) := by
  induction xs generalizing load with
  | nil => rfl
  | cons x xs ih =>
    rw [sumBlockSize, map_cons, sum_cons, ← add_assoc] at h ⊢
    rw [fillCache, if_neg (not_lt.mpr ((Nat.le_add_right ..).trans h))]
    exact ih h

/-- A builder that fits is taken whole. -/
theorem cacheCuts_of_fits (h : load + b.totalBlockSize ≤ cache) :
    cacheCuts cache load (b :: rest) = cacheCuts cache (load + b.totalBlockSize) rest := by
  have hsum : sumBlockSize (b.blocks.take 1) + sumBlockSize (b.blocks.drop 1) =
      b.totalBlockSize := by
    rw [← sumBlockSize_append, take_append_drop]
    rfl
  have hfirst : fillCache cache load (b.blocks.take 1) = _ := fillCache_of_fits (by omega)
  have hinside : fillCache cache (load + sumBlockSize (b.blocks.take 1)) (b.blocks.drop 1) = _ :=
    fillCache_of_fits (by omega)
  rw [cacheCuts, hfirst, hinside, add_assoc load, hsum]
  dsimp only
  rw [ite_self, zero_add]

/-- A boundary before a builder is none inside. -/
theorem cacheCuts_of_full (hblocks : b.blocks = x :: xs) (hx : x.blockSize ≤ cache)
    (hfull : cache < load + x.blockSize) :
    cacheCuts cache load (b :: rest) = cacheCuts cache 0 (b :: rest) := by
  have hload : (fillCache cache load [x]).1 = (fillCache cache 0 [x]).1 := by
    rw [fillCache, if_pos hfull, fillCache, fillCache, if_neg (by omega), fillCache]
    exact (zero_add _).symm
  rw [cacheCuts, cacheCuts, hblocks, take_succ_cons, take_zero, hload]

/-- A cut stream object counts once for the boundary, and the rest of it starts with an empty
cache. -/
theorem cacheCuts_of_cut {left : CompactedObjectBuilder} (hk : k ≠ 0)
    (hfits : load + sumBlockSize (b.blocks.take k) ≤ cache) (hdrop : b.blocks.drop k = x :: xs)
    (hx : x.blockSize ≤ cache) (hfull : cache < load + sumBlockSize (b.blocks.take k) + x.blockSize)
    (hleft : left.blocks = b.blocks.drop k) (htype : left.compactionType = b.compactionType) :
    cacheCuts cache load (b :: rest) =
      splitNum [b.build] + cacheCuts cache 0 (left :: rest) := by
  have htake : b.blocks.take 1 = (b.blocks.take k).take 1 := by
    rw [take_take, Nat.min_eq_left (Nat.one_le_iff_ne_zero.mpr hk)]
  have hsum : sumBlockSize (b.blocks.take 1) + sumBlockSize ((b.blocks.take k).drop 1) =
      sumBlockSize (b.blocks.take k) := by
    rw [htake, ← sumBlockSize_append, take_append_drop]
  have hlt : k < b.blocks.length := by
    have hlength := congrArg length hdrop
    rw [length_drop, length_cons] at hlength
    omega
  have hrest : b.blocks.drop 1 = (b.blocks.take k).drop 1 ++ x :: xs :=
    calc b.blocks.drop 1
      _ = (b.blocks.take k ++ b.blocks.drop k).drop 1 := by rw [take_append_drop]
      _ = (b.blocks.take k).drop 1 ++ b.blocks.drop k :=
        drop_append_of_le_length (by rw [length_take]; omega)
      _ = _ := by rw [hdrop]
  -- Up to the cut everything fits, and the block behind it opens a cache of its own.
  have hfirst : fillCache cache load (b.blocks.take 1) = _ := fillCache_of_fits (by omega)
  have hfront : fillCache cache (load + sumBlockSize (b.blocks.take 1))
      ((b.blocks.take k).drop 1) = _ := fillCache_of_fits (by omega)
  have hopen : fillCache cache 0 [x] = _ := fillCache_of_fits (by simpa [sumBlockSize] using hx)
  rw [cacheCuts, cacheCuts, hfirst, hrest, fillCache_append, hfront, add_assoc load, hsum,
    fillCache, if_pos hfull, hleft, hdrop, take_succ_cons, take_zero, hopen, htype, splitNum_build]
  simp only [sumBlockSize, map_cons, map_nil, sum_cons, sum_nil, zero_add, add_zero, drop_succ_cons,
    drop_zero]
  split <;> omega

/-- The stream objects that are planned and collected, those that wait and the cuts before them. -/
def Planning.splits (a : CompactionAnalyzer) (p : Planning) : Nat :=
  splitNum (objectsOf p.plans) + (splitNum p.pending + (splitNum (p.builders.map build) +
    cacheCuts a.compactionCacheSize p.totalSize p.builders))

theorem splits_planningStep (hplanned : Planned a builders p)
    (hstep : a.planningStep p = .inl p') : p'.splits a = p.splits a := by
  obtain ⟨b, rest, hbuilders, hcases⟩ := planningStep_cases hstep
  have hb : Waits a b := hplanned.waits b (hbuilders ▸ mem_cons_self)
  have hadded := hplanned.collects.splitNum_addOrMerge
  rw [Planning.splits, Planning.splits, hbuilders, map_cons, splitNum_cons _ (rest.map build)]
  obtain ⟨hover, hcut, rfl⟩ | ⟨hover, hcut, rfl⟩ | ⟨hfits, rfl⟩ := hcases
  · -- Both parts of a stream object that is cut are stream objects.
    obtain ⟨hlt, hsum⟩ := cutAt_spec hplanned.fits hcut
    obtain ⟨k, x, xs, hk, hdrop, hfull⟩ := @cutAt_over _ _ _ 0 hplanned.fits hover
    rw [zero_add] at hk
    have hne : b.blocks ≠ [] := ne_nil_of_length_pos (by omega)
    obtain ⟨-, hleft, -, htype, htype'⟩ := hb.positioned.split 0 hlt.le hne
    rw [take_zero, nil_append] at hleft
    have hsame : splitNum [(b.split 0 (a.cutAt 0 p.totalSize b.blocks)).1.build] =
        splitNum [b.build] := splitNum_congr htype
    have hsame' : splitNum [(b.split 0 (a.cutAt 0 p.totalSize b.blocks)).2.build] =
        splitNum [b.build] := splitNum_congr htype'
    have hx : x ∈ b.blocks := mem_of_mem_drop (hdrop ▸ mem_cons_self)
    rw [hk] at hcut hsum hleft htype hsame hsame' ⊢
    rw [cacheCuts_of_cut hcut hsum hdrop (hb.size x hx) hfull hleft htype]
    show splitNum (objectsOf (pushPlan _).plans) + (0 + (splitNum (map build (_ :: rest)) +
      cacheCuts _ 0 ((b.split (0 : Nat) k).1 :: rest))) = _
    rw [splitNum_pushPlan, hadded, plans_addOrMerge, map_cons, splitNum_cons _ (rest.map build)]
    omega
  · obtain ⟨k, x, xs, hk, hdrop, hfull⟩ := @cutAt_over _ _ _ 0 hplanned.fits hover
    obtain rfl : k = 0 := by omega
    rw [drop_zero] at hdrop
    replace hfull : a.compactionCacheSize < p.totalSize + x.blockSize := hfull
    rw [cacheCuts_of_full hdrop (hb.size x (hdrop ▸ mem_cons_self)) hfull]
    show splitNum (objectsOf (pushPlan p).plans) + (0 + (splitNum (p.builders.map build) +
      cacheCuts _ 0 p.builders)) = _
    rw [splitNum_pushPlan, hbuilders, map_cons, splitNum_cons _ (rest.map build)]
    omega
  · rw [cacheCuts_of_fits hfits]
    show splitNum (objectsOf (addOrMerge b p).plans) + (splitNum (addOrMerge b p).pending +
      (splitNum (rest.map build) + cacheCuts _ (p.totalSize + b.totalBlockSize) rest)) = _
    rw [plans_addOrMerge, hadded]
    omega

theorem splits_planningStep_done (hstep : a.planningStep p = .inr plans) :
    splitNum (objectsOf plans) = p.splits a := by
  obtain ⟨hbuilders, hcases⟩ := CompactionAnalyzer.planningStep_done hstep
  have hsplits : p.splits a = splitNum (objectsOf p.plans) + splitNum p.pending := by
    rw [Planning.splits, hbuilders]
    rfl
  obtain ⟨-, rfl⟩ | ⟨hpending, rfl⟩ := hcases
  · rw [splitNum_pushPlan, hsplits]
  · rw [hsplits, hpending]
    rfl

/-- Plans are returned only when each block fits the cache: before one that does not, the loop
closes plans for ever. -/
theorem blockSize_le_of_loop (hpos : ∀ b ∈ p.builders, b.Positioned)
    (hfits : p.totalSize ≤ a.compactionCacheSize)
    (h : Loop.loop a.planningStep fuel p = some plans) :
    ∀ b ∈ p.builders, ∀ x ∈ b.blocks, x.blockSize ≤ a.compactionCacheSize := by
  induction fuel generalizing p with
  | zero => cases h
  | succ fuel ih =>
    rw [Loop.loop] at h
    cases hstep : a.planningStep p with
    | inr r =>
      rw [(CompactionAnalyzer.planningStep_done hstep).1]
      simp
    | inl p' =>
      rw [hstep] at h
      obtain ⟨b, rest, hbuilders, hcases⟩ := planningStep_cases hstep
      rw [hbuilders] at hpos ⊢
      obtain ⟨hb, hrest⟩ := forall_mem_cons.mp hpos
      have hmem : ∀ bs : List StreamDataBlock, ∀ x ∈ bs, x.blockSize ≤ sumBlockSize bs :=
        fun bs x hx => single_le_sum (fun _ _ => Nat.zero_le _) _ (mem_map_of_mem hx)
      obtain ⟨-, hcut, rfl⟩ | ⟨-, -, rfl⟩ | ⟨htakes, rfl⟩ := hcases
      · obtain ⟨hlt, hsum⟩ := cutAt_spec hfits hcut
        have hne : b.blocks ≠ [] := ne_nil_of_length_pos (by omega)
        obtain ⟨hpos', hleft, -⟩ := hb.split 0 hlt.le hne
        obtain ⟨hwait, hrest'⟩ := forall_mem_cons.mp
          (ih (forall_mem_cons.mpr ⟨hpos'.1, hrest⟩) (Nat.zero_le _) h)
        refine forall_mem_cons.mpr ⟨fun x hx => ?_, hrest'⟩
        rw [← take_append_drop (a.cutAt 0 p.totalSize b.blocks) b.blocks] at hx
        rcases mem_append.mp hx with hx | hx
        · have := hmem _ x hx
          omega
        · apply hwait x
          exact hleft ▸ hx
      · have hall := ih (hbuilders ▸ hpos) (Nat.zero_le _) h
        rwa [show (pushPlan p).builders = p.builders from rfl, hbuilders] at hall
      · refine forall_mem_cons.mpr ⟨fun x hx => ?_, ih hrest htakes h⟩
        have := hmem _ x hx
        rw [totalBlockSize] at htakes
        omega

theorem length_dedup_append_le (ids ids' : List Nat) :
    (ids ++ ids').dedup.length ≤ ids.dedup.length + ids'.dedup.length := by
  rw [← card_toFinset, ← card_toFinset, ← card_toFinset, toFinset_append]
  exact Finset.card_union_le _ _

/-- The streams of the stream set objects are counted for each builder on its own. -/
theorem streamNum_le (builders : List CompactedObjectBuilder) :
    ((blocksOf .compact (builders.map build)).map StreamDataBlock.streamId).dedup.length ≤
      (CompactionStats.of builders).streamNumInStreamSet := by
  show _ ≤ ((builders.filter (·.compactionType = .compact)).map totalStreamNum).sum
  induction builders with
  | nil => exact le_rfl
  | cons b builders ih =>
    rw [map_cons, blocksOf_cons, map_append]
    refine (length_dedup_append_le _ _).trans ?_
    rw [filter_cons]
    split
    · rename_i htype
      have hself : blocksOf .compact [b.build] = b.blocks := by
        rw [build, of_decide_eq_true htype, blocksOf_self]
      rw [hself, map_cons, sum_cons]
      exact Nat.add_le_add_left ih _
    · rename_i htype
      have hnone : blocksOf .compact [b.build] = [] := by
        rw [blocksOf, filter_cons_of_neg (by exact htype)]
        rfl
      rw [hnone]
      simpa using ih

theorem splitNum_eq (hne : ∀ b ∈ builders, b.blocks ≠ []) :
    splitNum (builders.map build) = (CompactionStats.of builders).streamObjectNum := by
  show (filter _ (builders.map build)).length = (builders.filter _).length
  rw [filter_map, length_map]
  congr 1
  refine filter_congr fun b hb => ?_
  rw [Function.comp_apply, decide_eq_decide]
  exact (and_iff_left (hne b hb)).symm

/-- One run of a stream in two objects, which makes one stream object. -/
def oneRun : BlockMap :=
  [(0, [⟨0, ⟨-1, 0, 0, 10, 1, 0, 30⟩⟩]), (1, [⟨1, ⟨-1, 0, 10, 10, 1, 0, 30⟩⟩])]

end CompactionAnalyzer

end S3Stream
