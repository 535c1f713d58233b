import S3Stream.Compact.Plan

/-! # The output objects of a compaction

`compact_objects` cuts the sorted blocks where a run ends: the builders in their order have the
blocks in theirs, a stream object has one contiguous run of one stream, and what stays in stream set
objects has at most one run of each stream. -/

namespace S3Stream

open List CompactedObjectBuilder StreamDataBlock

/-! ## The position of the last stream -/

def lastStreamPosition (bs : List StreamDataBlock) : Int × Int :=
  currStreamPosition none 0 (-1) (-1) bs

theorem currStreamPosition_concat (currStreamId : Option Nat) (i : Nat) (head tail : Int)
    (bs : List StreamDataBlock) (b : StreamDataBlock) :
    currStreamPosition currStreamId i head tail (bs ++ [b]) =
      (if ((bs.getLast?.map streamId).or currStreamId) ≠ some b.streamId then
          ((i + bs.length : Nat) : Int)
        else (currStreamPosition currStreamId i head tail bs).1,
        ((i + bs.length + 1 : Nat) : Int)) := by
  induction bs generalizing currStreamId i head tail with
  | nil => simp [currStreamPosition]
  | cons c bs ih =>
    rw [cons_append, currStreamPosition, ih, currStreamPosition]
    have hlast : ((c :: bs).getLast?.map streamId).or currStreamId =
        (bs.getLast?.map streamId).or (some c.streamId) := by
      rw [getLast?_cons]
      cases bs.getLast? <;> rfl
    rw [hlast, length_cons]
    have hlength : i + 1 + bs.length = i + (bs.length + 1) := by omega
    rw [hlength]

theorem lastStreamPosition_concat (bs : List StreamDataBlock) (b : StreamDataBlock) :
    lastStreamPosition (bs ++ [b]) =
      (if bs.getLast?.map streamId ≠ some b.streamId then (bs.length : Int)
        else (lastStreamPosition bs).1, (bs.length + 1 : Int)) := by
  rw [lastStreamPosition, currStreamPosition_concat, Option.or_none]
  simp [lastStreamPosition]

/-- The last run of blocks of one stream, and what is before it. -/
structure LastStream (bs before run : List StreamDataBlock) : Prop where
  eq : bs = before ++ run
  ne : run ≠ []
  single : ∀ x ∈ run, ∀ y ∈ run, x.streamId = y.streamId
  other : ∀ x, before.getLast? = some x → ∀ y ∈ run, x.streamId ≠ y.streamId
  position : lastStreamPosition bs = ((before.length : Int), (bs.length : Int))

theorem exists_lastStream (hne : bs ≠ []) : ∃ before run, LastStream bs before run := by
  induction bs using reverseRecOn with
  | nil => exact absurd rfl hne
  | append_singleton bs b ih =>
    -- The block opens a run of its own, or lengthens the last one.
    by_cases hsame : bs.getLast?.map streamId = some b.streamId
    · have hbs : bs ≠ [] := by
        rintro rfl
        cases hsame
      obtain ⟨before, run, h⟩ := ih hbs
      have hlast : ∀ x ∈ run, x.streamId = b.streamId := by
        intro x hx
        rw [h.eq, getLast?_append_of_ne_nil _ h.ne, getLast?_eq_some_getLast h.ne] at hsame
        rw [h.single x hx _ (getLast_mem h.ne)]
        exact Option.some.inj hsame
      refine ⟨before, run ++ [b], ?_, by simp, ?_, ?_, ?_⟩
      · rw [h.eq, append_assoc]
      · intro x hx y hy
        have hall := forall_mem_append.mpr ⟨hlast, forall_mem_singleton.mpr rfl⟩
        rw [hall x hx, hall y hy]
      · refine fun x hx => forall_mem_append.mpr ⟨h.other x hx, forall_mem_singleton.mpr ?_⟩
        rw [← hlast _ (getLast_mem h.ne)]
        exact h.other x hx _ (getLast_mem h.ne)
      · rw [lastStreamPosition_concat, if_neg (not_not.mpr hsame), h.position]
        simp
    · refine ⟨bs, [b], rfl, by simp, ?_, ?_, ?_⟩
      · intro x hx y hy
        rw [mem_singleton.mp hx, mem_singleton.mp hy]
      · intro x hx y hy heq
        rw [mem_singleton.mp hy] at heq
        apply hsame
        rw [hx, Option.map_some, heq]
      · rw [lastStreamPosition_concat, if_pos hsame]
        simp

namespace CompactedObjectBuilder

variable {b : CompactedObjectBuilder}

def Positioned (b : CompactedObjectBuilder) : Prop :=
  (b.currStreamIndexHead, b.currStreamIndexTail) = lastStreamPosition b.blocks

theorem positioned_new : new.Positioned := rfl

theorem Positioned.addBlock (h : b.Positioned) (block : StreamDataBlock) :
    (b.addBlock block).Positioned := by
  have hhead := congrArg Prod.fst h
  dsimp only at hhead
  unfold Positioned CompactedObjectBuilder.addBlock
  rw [lastStreamPosition_concat, hhead, lastStreamId]
  simp only [ne_comm]

theorem foldl_addBlock (h : b.Positioned) (bs : List StreamDataBlock) :
    (bs.foldl addBlock b).Positioned ∧
      (bs.foldl addBlock b).blocks = b.blocks ++ bs := by
  induction bs generalizing b with
  | nil => exact ⟨h, (append_nil _).symm⟩
  | cons x bs ih =>
    obtain ⟨hpositioned, hblocks⟩ := ih (h.addBlock x)
    refine ⟨hpositioned, ?_⟩
    rw [foldl_cons, hblocks]
    show b.blocks ++ [x] ++ bs = _
    rw [append_assoc]
    rfl

theorem Positioned.split (h : b.Positioned) (start : Nat) (hstop : stop ≤ b.blocks.length)
    (hne : b.blocks ≠ []) :
    ((b.split start stop).1.Positioned ∧ (b.split start stop).2.Positioned) ∧
    (b.split start stop).1.blocks = b.blocks.take start ++ b.blocks.drop stop ∧
    (b.split start stop).2.blocks = (b.blocks.drop start).take (stop - start) ∧
    (b.split start stop).1.compactionType = b.compactionType ∧
    (b.split start stop).2.compactionType = b.compactionType := by
  obtain ⟨before, run, hlast⟩ := exists_lastStream hne
  have htail : b.currStreamIndexTail = b.blocks.length := by
    have := congrArg Prod.snd h
    rw [hlast.position] at this
    exact this
  have hguard : ¬((start : Int) < 0 ∨ b.currStreamIndexTail < stop) := by
    omega
  rw [CompactedObjectBuilder.split, if_neg hguard]
  obtain ⟨hpositioned, hblocks⟩ := foldl_addBlock positioned_new
    ((b.blocks.drop (start : Int).toNat).take ((stop : Int).toNat - (start : Int).toNat))
  exact ⟨⟨rfl, hpositioned⟩, rfl, hblocks, rfl, rfl⟩

theorem Positioned.splitCurrentStream (h : b.Positioned) (hlast : LastStream b.blocks before run) :
    (b.splitCurrentStream.1.Positioned ∧ b.splitCurrentStream.2.Positioned) ∧
    b.splitCurrentStream.1.blocks = before ∧ b.splitCurrentStream.2.blocks = run ∧
    b.splitCurrentStream.1.compactionType = b.compactionType := by
  have hposition := h.trans hlast.position
  have hhead : b.currStreamIndexHead = before.length := congrArg Prod.fst hposition
  have htail : b.currStreamIndexTail = b.blocks.length := congrArg Prod.snd hposition
  have hne : b.blocks ≠ [] := by
    rw [hlast.eq]
    exact append_ne_nil_of_right_ne_nil _ hlast.ne
  obtain ⟨hpositioned, hleft, hcut, htype, -⟩ := h.split before.length le_rfl hne
  rw [CompactedObjectBuilder.splitCurrentStream, hhead, htail]
  refine ⟨hpositioned, hleft.trans ?_, hcut.trans ?_, htype⟩
  · rw [drop_length, append_nil, hlast.eq, take_left]
  · rw [take_of_length_le (by rw [length_drop]), hlast.eq, drop_left]

theorem blocks_ne_of_lt_currStreamBlockSize (h : n < b.currStreamBlockSize) : b.blocks ≠ [] := by
  intro hnil
  rw [currStreamBlockSize, hnil] at h
  simp [sumBlockSize] at h

theorem sumBlockSize_ne_zero (h : ∀ x ∈ bs, 0 < x.blockSize) : sumBlockSize bs ≠ 0 ↔ bs ≠ [] := by
  cases bs with
  | nil => simp [sumBlockSize]
  | cons x =>
    have hx := h x mem_cons_self
    rw [sumBlockSize, map_cons, sum_cons]
    exact iff_of_true (by omega) (cons_ne_nil _ _)

end CompactedObjectBuilder

/-! ## Cutting the sorted blocks -/

def blocksOf (type : CompactionType) (os : List CompactedObject) : List StreamDataBlock :=
  (os.filter (·.compactionType = type)).flatMap CompactedObject.blocks

theorem blocksOf_append (type : CompactionType) (os os' : List CompactedObject) :
    blocksOf type (os ++ os') = blocksOf type os ++ blocksOf type os' := by
  rw [blocksOf, filter_append, flatMap_append]
  rfl

theorem blocksOf_cons (type : CompactionType) (o : CompactedObject) (os : List CompactedObject) :
    blocksOf type (o :: os) = blocksOf type [o] ++ blocksOf type os :=
  blocksOf_append type [o] os

theorem perm_blocksOf (os : List CompactedObject) :
    (blocksOf .split os ++ blocksOf .compact os).Perm (os.flatMap CompactedObject.blocks) := by
  have hkinds : (fun o : CompactedObject => decide (o.compactionType = .compact)) =
      fun o => !decide (o.compactionType = .split) := by
    funext o
    cases o.compactionType <;> rfl
  rw [blocksOf, blocksOf, hkinds, ← flatMap_append]
  exact (filter_append_perm _ os).flatMap_right _

theorem blocksOf_self (type : CompactionType) (bs : List StreamDataBlock) :
    blocksOf type [⟨type, bs⟩] = bs := by
  rw [blocksOf, filter_cons_of_pos (by simp)]
  exact flatMap_singleton ..

theorem blocksOf_split_compact (bs : List StreamDataBlock) :
    blocksOf .split [⟨.compact, bs⟩] = [] := rfl

theorem blocksOf_compact_split (bs : List StreamDataBlock) :
    blocksOf .compact [⟨.split, bs⟩] = [] := rfl

theorem blocksOf_sublist (type : CompactionType) (os : List CompactedObject) :
    (blocksOf type os).Sublist (os.flatMap CompactedObject.blocks) :=
  filter_sublist.flatMap _

structure SingleRun (bs : List StreamDataBlock) : Prop where
  single : ∀ x ∈ bs, ∀ y ∈ bs, x.streamId = y.streamId
  contiguous : bs.IsChain fun x y => x.endOffset = y.startOffset

def Follows (x y : StreamDataBlock) : Prop :=
  x.streamId = y.streamId → x.endOffset = y.startOffset

theorem SingleRun.of_follows (h : bs.IsChain Follows)
    (hsingle : ∀ x ∈ bs, ∀ y ∈ bs, x.streamId = y.streamId) : SingleRun bs := by
  refine ⟨hsingle, ?_⟩
  induction bs with
  | nil => exact .nil
  | cons x bs ih =>
    rw [isChain_cons] at h ⊢
    refine ⟨fun y hy => ?_, ih h.2 fun u hu v hv =>
      hsingle u (mem_cons_of_mem x hu) v (mem_cons_of_mem x hv)⟩
    exact h.1 y hy (hsingle x mem_cons_self y
      (mem_cons_of_mem x (mem_of_mem_head? hy)))

namespace CompactionAnalyzer

variable {a : CompactionAnalyzer} {done sorted : List StreamDataBlock} {s s' : Cutting}
  {x : StreamDataBlock}

/-- What holds of finished builders over the blocks `done`. -/
structure Grouped (done : List StreamDataBlock) (builders : List CompactedObjectBuilder) :
    Prop where
  all : builders.flatMap CompactedObjectBuilder.blocks = done
  positioned : ∀ b ∈ builders, b.Positioned
  splits : ∀ b ∈ builders, b.compactionType = .split → SingleRun b.blocks
  follows : (blocksOf .compact (builders.map build)).IsChain Follows

/-- What holds between two rounds of `compact_objects`, behind the blocks `done`. -/
structure Cut (done : List StreamDataBlock) (s : Cutting) : Prop where
  all : s.1.flatMap CompactedObjectBuilder.blocks ++ s.2.blocks = done
  current : s.2.Positioned ∧ s.2.compactionType = .compact
  positioned : ∀ b ∈ s.1, b.Positioned
  splits : ∀ b ∈ s.1, b.compactionType = .split → SingleRun b.blocks
  follows : (blocksOf .compact (s.1.map build) ++ s.2.blocks).IsChain Follows
  below : ∀ y ∈ blocksOf .compact (s.1.map build), ∀ z ∈ s.2.blocks, y.streamId < z.streamId
  fresh : s.2.blocks = [] → s = ([], new)

theorem cut_new : Cut [] ([], new) where
  all := rfl
  current := ⟨rfl, rfl⟩
  positioned := nofun
  splits := nofun
  follows := .nil
  below := nofun
  fresh := fun _ => rfl

theorem grouped_nil : Grouped [] [] where
  all := rfl
  positioned := nofun
  splits := nofun
  follows := .nil

/-- Of the builder that is cut, its last stream and what is left of it are behind the others. -/
theorem mem_splitObject (hb : b ∈ splitObject s.2 s.1) :
    b ∈ s.1 ∨
    (b = s.2.splitCurrentStream.1 ∧ s.2.splitCurrentStream.1.totalBlockSize ≠ 0) ∨
    b = { s.2.splitCurrentStream.2 with compactionType := .split } := by
  unfold splitObject at hb
  rcases mem_append.mp hb with hb | hb
  · split at hb
    · rename_i hsize
      exact (mem_append.mp hb).imp_right fun hb => .inl ⟨mem_singleton.mp hb, hsize⟩
    · exact .inl hb
  · exact .inr (.inr (mem_singleton.mp hb))

/-- Behind a cut the finished builders have all blocks, and those that stay in stream set objects
are of earlier streams than the last block. -/
theorem Cut.splitObject (h : Cut done s) (hne : s.2.blocks ≠ [])
    (hsize : ∀ y ∈ done, 0 < y.blockSize)
    (hsorted : done.Pairwise fun y z => y.streamId ≤ z.streamId) :
    Grouped done (splitObject s.2 s.1) ∧
      ∃ last ∈ done, ∀ y ∈ blocksOf .compact ((splitObject s.2 s.1).map build),
        y.streamId < last.streamId := by
  obtain ⟨before, run, hlast⟩ := exists_lastStream hne
  obtain ⟨hpos, hleft, hcut, htype⟩ := h.current.1.splitCurrentStream hlast
  have hmem : ∀ y ∈ s.2.blocks, y ∈ done := fun y hy => h.all ▸ mem_append_right _ hy
  have hbefore : ∀ y ∈ before, y ∈ s.2.blocks := fun y hy => hlast.eq ▸ mem_append_left _ hy
  have hrun : ∀ y ∈ run, y ∈ s.2.blocks := fun y hy => hlast.eq ▸ mem_append_right _ hy
  have hzero : s.2.splitCurrentStream.1.totalBlockSize ≠ 0 ↔ before ≠ [] := by
    rw [totalBlockSize, hleft]
    exact sumBlockSize_ne_zero fun y hy => hsize y (hmem y (hbefore y hy))
  -- The rest of the builder goes before the cut; an empty one is left out.
  have hall : (CompactionAnalyzer.splitObject s.2 s.1).flatMap blocks =
      s.1.flatMap blocks ++ (before ++ run) := by
    unfold CompactionAnalyzer.splitObject
    dsimp only
    split
    · simp [hleft, hcut]
    · rename_i hempty
      have hnil : before = [] := not_not.mp (mt hzero.mpr hempty)
      simp [hcut, hnil]
  have hcompact : blocksOf .compact ((CompactionAnalyzer.splitObject s.2 s.1).map build) =
      blocksOf .compact (s.1.map build) ++ before := by
    have hother : blocksOf .compact [build { s.2.splitCurrentStream.2 with
        compactionType := .split }] = [] := blocksOf_compact_split _
    unfold CompactionAnalyzer.splitObject
    dsimp only
    split
    · have hself : blocksOf .compact [build s.2.splitCurrentStream.1] = before := by
        rw [build, htype, h.current.2, blocksOf_self, hleft]
      rw [map_append, map_append, blocksOf_append, blocksOf_append]
      rw [map_singleton, map_singleton, hother, hself, append_nil]
    · rename_i hempty
      have hnil : before = [] := not_not.mp (mt hzero.mpr hempty)
      rw [map_append, blocksOf_append, map_singleton, hother, hnil]
  have hfollows := h.follows
  rw [hlast.eq, ← append_assoc] at hfollows
  refine ⟨⟨?_, fun b hb => ?_, fun b hb hsplit => ?_, ?_⟩, ?_⟩
  · rw [hall, ← hlast.eq, h.all]
  · rcases mem_splitObject hb with hb | ⟨rfl, -⟩ | rfl
    · exact h.positioned b hb
    · exact hpos.1
    · exact hpos.2
  · rcases mem_splitObject hb with hb | ⟨rfl, -⟩ | rfl
    · exact h.splits b hb hsplit
    · rw [htype, h.current.2] at hsplit
      cases hsplit
    · show SingleRun s.2.splitCurrentStream.2.blocks
      rw [hcut]
      exact .of_follows (isChain_append.mp hfollows).2.1 hlast.single
  · rw [hcompact]
    exact (isChain_append.mp hfollows).1
  · obtain ⟨last, hlastmem⟩ := exists_mem_of_ne_nil _ hlast.ne
    refine ⟨last, hmem last (hrun last hlastmem), fun y hy => ?_⟩
    rw [hcompact] at hy
    rcases mem_append.mp hy with hy | hy
    · exact h.below y hy last (hrun last hlastmem)
    · -- The blocks before the last run are of other streams, and the streams do not go back.
      have hbne : before ≠ [] := ne_nil_of_mem hy
      have hblocks : (before ++ run).Pairwise fun y z => y.streamId ≤ z.streamId := by
        rw [← h.all, hlast.eq] at hsorted
        exact (pairwise_append.mp hsorted).2.1
      have hend := getLast?_eq_some_getLast hbne
      have hle : (before.getLast hbne).streamId ≤ last.streamId :=
        (pairwise_append.mp hblocks).2.2 _ (getLast_mem hbne) last hlastmem
      have hlt := lt_of_le_of_ne hle (hlast.other _ hend last hlastmem)
      have hyle : y.streamId ≤ (before.getLast hbne).streamId := by
        have hpair := (pairwise_append.mp hblocks).1
        rw [← dropLast_append_getLast hbne] at hy hpair
        rcases mem_append.mp hy with hy | hy
        · exact (pairwise_append.mp hpair).2.2 y hy _ mem_cons_self
        · rw [mem_singleton.mp hy]
      exact hyle.trans_lt hlt

theorem Grouped.cut {builders : List CompactedObjectBuilder} (h : Grouped done builders)
    (hbelow : ∀ y ∈ blocksOf .compact (builders.map build), y.streamId < x.streamId) :
    Cut (done ++ [x]) (builders, new.addBlock x) where
  all := by
    rw [h.all]
    rfl
  current := ⟨positioned_new.addBlock x, rfl⟩
  positioned := h.positioned
  splits := h.splits
  follows := by
    refine isChain_append.mpr ⟨h.follows, isChain_singleton _, fun y hy z hz => ?_⟩
    obtain rfl : z = x := (Option.some.inj hz).symm
    exact fun heq => absurd heq (hbelow y (mem_of_getLast? hy)).ne
  below := by
    intro y hy z hz
    rw [mem_singleton.mp hz]
    exact hbelow y hy
  fresh := nofun

theorem Cut.addBlock (h : Cut done s) {last : StreamDataBlock}
    (hlast : s.2.blocks.getLast? = some last) (hle : ∀ y ∈ done, y.streamId ≤ x.streamId)
    (hfollows : Follows last x) : Cut (done ++ [x]) (s.1, s.2.addBlock x) where
  all := by
    rw [← h.all, append_assoc]
    rfl
  current := ⟨h.current.1.addBlock x, h.current.2⟩
  positioned := h.positioned
  splits := h.splits
  follows := by
    show (_ ++ (s.2.blocks ++ [x])).IsChain Follows
    rw [← append_assoc]
    refine isChain_append.mpr ⟨h.follows, isChain_singleton _, fun y hy z hz => ?_⟩
    obtain rfl : z = x := (Option.some.inj hz).symm
    have hend : y = last := by
      have hmem : (blocksOf .compact (s.1.map build) ++ s.2.blocks).getLast? = some y := hy
      rw [getLast?_append, hlast] at hmem
      exact (Option.some.inj hmem).symm
    rwa [hend]
  below := by
    have hmem := mem_of_getLast? hlast
    exact fun y hy => forall_mem_append.mpr ⟨h.below y hy,
      forall_mem_singleton.mpr ((h.below y hy last hmem).trans_le
        (hle last (h.all ▸ mem_append_right _ hmem)))⟩
  fresh := fun hnil => absurd hnil (append_ne_nil_of_right_ne_nil _ (cons_ne_nil _ _))

/-- One round of `compact_objects`: the current builder is cut and the block starts a new one, or
the block goes into the current builder, behind a block that it follows. -/
theorem compactBlock_cases (hstep : a.compactBlock s x = some s') :
    (s.2.blocks ≠ [] ∧ s' = (splitObject s.2 s.1, new.addBlock x)) ∨
    (s' = (s.1, s.2.addBlock x) ∧
      ∀ last, s.2.blocks.getLast? = some last → Follows last x) := by
  cases hlast : s.2.blocks.getLast? with
  | none =>
    simp only [CompactionAnalyzer.compactBlock, lastStreamId, lastOffset, hlast,
      Option.map_none] at hstep
    cases hstep
    exact .inr ⟨rfl, nofun⟩
  | some last =>
    have hne : s.2.blocks ≠ [] := by
      intro hnil
      rw [hnil] at hlast
      cases hlast
    simp only [CompactionAnalyzer.compactBlock, lastStreamId, lastOffset, hlast,
      Option.map_some] at hstep
    have hfollows : Follows last x → ∀ y, some last = some y → Follows y x := by
      rintro h y ⟨⟩
      exact h
    split at hstep
    · split at hstep
      · cases hstep
        exact .inl ⟨hne, rfl⟩
      · split at hstep
        · rename_i hstart
          cases hstep
          exact .inr ⟨rfl, hfollows fun _ => hstart.symm⟩
        · cases hstep
    · rename_i hother
      cases hstep
      rw [splitAndAddBlock]
      split
      · exact .inl ⟨hne, rfl⟩
      · exact .inr ⟨rfl, hfollows fun heq => absurd heq hother⟩

theorem Cut.compactBlock (h : Cut done s) (hsize : ∀ y ∈ done, 0 < y.blockSize)
    (hsorted : (done ++ [x]).Pairwise fun y z => y.streamId ≤ z.streamId)
    (hstep : a.compactBlock s x = some s') : Cut (done ++ [x]) s' := by
  obtain ⟨hdone, -, hx⟩ := pairwise_append.mp hsorted
  have hle : ∀ y ∈ done, y.streamId ≤ x.streamId := fun y hy => hx y hy x mem_cons_self
  obtain ⟨hne, rfl⟩ | ⟨rfl, hfollows⟩ := compactBlock_cases hstep
  · obtain ⟨hgrouped, last, hlast, hbelow⟩ := h.splitObject hne hsize hdone
    exact hgrouped.cut fun y hy => (hbelow y hy).trans_le (hle last hlast)
  · cases hlast : s.2.blocks.getLast? with
    | none =>
      obtain rfl := h.fresh (getLast?_eq_none_iff.mp hlast)
      have hdone : done = [] := h.all.symm
      rw [hdone]
      exact grouped_nil.cut nofun
    | some last => exact h.addBlock hlast hle (hfollows last hlast)

theorem Cut.foldlM (h : Cut done s) (hsize : ∀ y ∈ done ++ rest, 0 < y.blockSize)
    (hsorted : (done ++ rest).Pairwise fun y z => y.streamId ≤ z.streamId)
    (hfold : rest.foldlM a.compactBlock s = some s') : Cut (done ++ rest) s' := by
  induction rest generalizing done s with
  | nil =>
    cases hfold
    rwa [append_nil]
  | cons x rest ih =>
    rw [foldlM_cons, Option.bind_eq_bind, Option.bind_eq_some_iff] at hfold
    obtain ⟨s₁, hstep, hfold⟩ := hfold
    have hsplit : done ++ x :: rest = done ++ [x] ++ rest := by
      rw [append_assoc]
      rfl
    rw [hsplit] at hsize hsorted ⊢
    refine ih (h.compactBlock (fun y hy => hsize y ?_) ?_ hstep) hsize hsorted hfold
    · exact mem_append_left _ (mem_append_left _ hy)
    · exact (pairwise_append.mp hsorted).1

/-- **The output objects of sorted blocks.** -/
theorem grouped_compactObjects (hsize : ∀ y ∈ sorted, 0 < y.blockSize)
    (hsorted : sorted.Pairwise fun y z => y.streamId ≤ z.streamId)
    (h : a.compactObjects sorted = some builders) : Grouped sorted builders := by
  rw [compactObjects, Option.bind_eq_bind, Option.bind_eq_some_iff] at h
  obtain ⟨s, hfold, hbuilders⟩ := h
  have hcut : Cut sorted s := cut_new.foldlM hsize hsorted hfold
  replace hbuilders := Option.some.inj hbuilders
  subst hbuilders
  split
  · rename_i hlt
    exact (hcut.splitObject (blocks_ne_of_lt_currStreamBlockSize hlt) hsize hsorted).1
  · have hself : blocksOf .compact [build s.2] = s.2.blocks := by
      rw [build, hcut.current.2, blocksOf_self]
    refine ⟨?_, forall_mem_append.mpr ⟨hcut.positioned, forall_mem_singleton.mpr hcut.current.1⟩,
      forall_mem_append.mpr ⟨hcut.splits, forall_mem_singleton.mpr fun hsplit => ?_⟩, ?_⟩
    · rw [flatMap_append, flatMap_singleton, hcut.all]
    · rw [hcut.current.2] at hsplit
      cases hsplit
    · rw [map_append, map_singleton, blocksOf_append, hself]
      exact hcut.follows

end CompactionAnalyzer

/-! ## Sorted blocks -/

theorem perm_groupBlocks (key : StreamDataBlock → Nat) (blocks : List StreamDataBlock) :
    ((groupBlocks key blocks).entries.flatMap Prod.snd).Perm blocks := by
  -- By counting: a block that is put raises the count of its own group by one.
  have hgeneral : ∀ m : OrdMap Nat (List StreamDataBlock), ((blocks.foldl (fun m b =>
      m.insert (key b) ((m.get? (key b)).getD [] ++ [b])) m).entries.flatMap Prod.snd).Perm
        (m.entries.flatMap Prod.snd ++ blocks) := by
    induction blocks with
    | nil => exact fun m => by rw [append_nil]; exact .refl _
    | cons b blocks ih =>
      intro m
      refine (ih _).trans ?_
      have hinsert : ((m.insert (key b) ((m.get? (key b)).getD [] ++ [b])).entries.flatMap
          Prod.snd).Perm (m.entries.flatMap Prod.snd ++ [b]) := by
        rw [perm_iff_count]
        intro x
        have hsum := m.sum_insert (key b) ((m.get? (key b)).getD [] ++ [b]) fun e => e.2.count x
        rw [count_flatMap, count_append, count_flatMap]
        simp only [Function.comp_def] at hsum ⊢
        rw [count_append] at hsum
        cases hget : m.get? (key b) with
        | none =>
          rw [hget] at hsum
          simpa using hsum
        | some =>
          rw [hget] at hsum
          simp only [Option.map_some, Option.getD_some] at hsum ⊢
          omega
      refine (hinsert.append_right blocks).trans ?_
      rw [append_assoc]
      exact .refl _
  exact hgeneral OrdMap.empty

theorem key_of_mem_groupBlocks {blocks : List StreamDataBlock} (he : e ∈ groupBlocks key blocks)
    (hb : b ∈ e.2) : key b = e.1 := by
  have hgeneral : ∀ m : OrdMap Nat (List StreamDataBlock),
      (∀ e ∈ m, ∀ b ∈ e.2, key b = e.1) → ∀ e ∈ blocks.foldl (fun m b =>
        m.insert (key b) ((m.get? (key b)).getD [] ++ [b])) m, ∀ b ∈ e.2, key b = e.1 := by
    clear he
    induction blocks with
    | nil => exact fun m hm => hm
    | cons b blocks ih =>
      intro m hm
      refine ih _ fun e he x hx => ?_
      rcases OrdMap.eq_or_mem_of_mem_insert he with rfl | he
      · rcases mem_append.mp hx with hx | hx
        · cases hget : m.get? (key b) with
          | none =>
            rw [hget] at hx
            cases hx
          | some =>
            rw [hget] at hx
            exact hm _ (OrdMap.mem_of_get? hget) x hx
        · rw [mem_singleton.mp hx]
      · exact hm e he x hx
  exact hgeneral OrdMap.empty (fun e he => absurd he (OrdMap.not_mem_empty e)) e he b hb

theorem perm_sortStreamRangePositions (m : BlockMap) :
    (sortStreamRangePositions m).Perm m.blocks := by
  refine List.Perm.trans ?_ (perm_groupBlocks streamId m.blocks)
  exact List.Perm.flatMap_left _ fun e _ => perm_insertionSort _ _

/-- By stream, then by start offset. -/
def Sorted (x y : StreamDataBlock) : Prop :=
  x.streamId < y.streamId ∨ (x.streamId = y.streamId ∧ x.startOffset ≤ y.startOffset)

theorem Sorted.streamId_le (h : Sorted x y) : x.streamId ≤ y.streamId := by
  rcases h with h | h
  · exact h.le
  · exact h.1.le

theorem pairwise_sortStreamRangePositions (m : BlockMap) :
    (sortStreamRangePositions m).Pairwise Sorted := by
  have hkey : ∀ e ∈ groupBlocks streamId m.blocks, ∀ x ∈ e.2.insertionSort
      fun x y => x.startOffset ≤ y.startOffset, x.streamId = e.1 := fun e he x hx =>
    key_of_mem_groupBlocks he (mem_insertionSort _ |>.mp hx)
  refine pairwise_flatMap.mpr ⟨fun e he => ?_, ?_⟩
  · refine (List.Pairwise.and_mem.mp (pairwise_insertionSort _ _)).imp fun hxy => ?_
    exact .inr ⟨(hkey e he _ hxy.1).trans (hkey e he _ hxy.2.1).symm, hxy.2.2⟩
  · have hentries := (groupBlocks streamId m.blocks).sorted
    refine (List.Pairwise.and_mem.mp hentries).imp fun he x hx y hy => ?_
    left
    rw [hkey _ he.1 x hx, hkey _ he.2.1 y hy]
    exact he.2.2

/-- Blocks that are sorted and without gaps in a stream have one run of each stream. -/
theorem isChain_filter_stream {bs : List StreamDataBlock} (hsorted : bs.Pairwise Sorted)
    (hfollows : bs.IsChain Follows) (streamId : Nat) :
    (bs.filter (·.streamId = streamId)).IsChain fun x y => x.endOffset = y.startOffset := by
  induction bs with
  | nil => exact .nil
  | cons x bs ih =>
    obtain ⟨hx, hrest⟩ := pairwise_cons.mp hsorted
    obtain ⟨hhead, htail⟩ := isChain_cons.mp hfollows
    have hchain := ih hrest htail
    by_cases hid : x.streamId = streamId
    · rw [filter_cons_of_pos (by simpa using hid)]
      refine isChain_cons.mpr ⟨fun y hy => ?_, hchain⟩
      -- The next block of the stream is the next block: later ones are of no earlier stream.
      cases bs with
      | nil => cases hy
      | cons z =>
        have hymem := mem_of_mem_head? hy
        have hyid : y.streamId = streamId := by simpa using (mem_filter.mp hymem).2
        have hz : z.streamId = streamId := by
          have hxz := (hx z mem_cons_self).streamId_le
          rcases mem_cons.mp (mem_filter.mp hymem).1 with rfl | hy'
          · exact hyid
          · have hzy := ((pairwise_cons.mp hrest).1 y hy').streamId_le
            omega
        rw [filter_cons_of_pos (by simpa using hz)] at hy
        obtain rfl : z = y := Option.some.inj hy
        exact hhead z rfl (hid.trans hz.symm)
    · rw [filter_cons_of_neg (by simpa using hid)]
      exact hchain

end S3Stream
