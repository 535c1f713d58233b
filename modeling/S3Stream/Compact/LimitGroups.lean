import S3Stream.Compact.PlanGroups
import S3Stream.Lib.Greedy

/-! # Grouping the blocks of an object

`group_stream_data_blocks` and `GroupByLimitPredicate` of `s3stream-core/src/compact/plan.rs`:
blocks go into one group while they are of one stream, follow one another and one index entry can
describe them. The predicate keeps the totals of the open group, so that the two are a greedy
grouping. -/

namespace S3Stream

open CompactedObjectBuilder List

structure GroupByLimitPredicate where
  blockSizeThreshold : Nat
  /-- `-1` before the first block. -/
  streamId : Int
  startOffset : Nat
  nextStartOffset : Nat
  blockSize : Nat
  recordCnt : Nat

namespace GroupByLimitPredicate

def new (blockSizeThreshold : Nat) : GroupByLimitPredicate := ⟨blockSizeThreshold, -1, 0, 0, 0, 0⟩

/-- Whether a new group begins. The subtraction is only reached behind the test of the offset. -/
def cuts (p : GroupByLimitPredicate) (b : StreamDataBlock) : Bool :=
  decide (p.streamId = -1 ∨ asI64 b.streamId ≠ p.streamId ∨ b.startOffset ≠ p.nextStartOffset ∨
    p.blockSizeThreshold ≤ p.blockSize + b.blockSize ∨
    i32Max < p.recordCnt + b.index.recordCount ∨ i32Max < b.endOffset - p.startOffset)

def restart (p : GroupByLimitPredicate) (b : StreamDataBlock) : GroupByLimitPredicate :=
  { p with
    streamId := asI64 b.streamId
    startOffset := b.startOffset
    blockSize := 0
    recordCnt := 0 }

def add (p : GroupByLimitPredicate) (b : StreamDataBlock) : GroupByLimitPredicate :=
  { p with
    nextStartOffset := b.endOffset
    blockSize := p.blockSize + b.blockSize
    recordCnt := p.recordCnt + b.index.recordCount }

def test (p : GroupByLimitPredicate) (b : StreamDataBlock) : Bool × GroupByLimitPredicate :=
  if p.cuts b then (decide (p.streamId = -1), (p.restart b).add b) else (true, p.add b)

end GroupByLimitPredicate

section
variable {σ : Type} (predicate : σ → StreamDataBlock → Bool × σ)

/-- One round; a block that the predicate refuses with no group open is dropped. -/
def groupBlock (s : Greedy.Groups StreamDataBlock × σ) (b : StreamDataBlock) :
    Greedy.Groups StreamDataBlock × σ :=
  let r := predicate s.2 b
  if r.1 then ((s.1.1, s.1.2 ++ [b]), r.2)
  else if s.1.2 ≠ [] then ((s.1.1 ++ [s.1.2], [b]), r.2)
  else (s.1, r.2)

def groupStreamDataBlocks (init : σ) (blocks : List StreamDataBlock) :
    List (List StreamDataBlock) :=
  Greedy.finish (blocks.foldl (groupBlock predicate) (([], []), init)).1

end

/-! ## The totals of a group -/

def groupRecordCount (g : List StreamDataBlock) : Nat := (g.map (·.index.recordCount)).sum

def groupStreamId (g : List StreamDataBlock) : Nat :=
  (g.head?.map StreamDataBlock.streamId).getD 0

def groupStartOffset (g : List StreamDataBlock) : Nat :=
  (g.head?.map StreamDataBlock.startOffset).getD 0

def groupEndOffset (g : List StreamDataBlock) : Nat :=
  (g.getLast?.map StreamDataBlock.endOffset).getD 0

section
variable {g : List StreamDataBlock} {b : StreamDataBlock}

theorem sumBlockSize_concat : sumBlockSize (g ++ [b]) = sumBlockSize g + b.blockSize := by
  simp [sumBlockSize]

theorem groupRecordCount_concat :
    groupRecordCount (g ++ [b]) = groupRecordCount g + b.index.recordCount := by
  simp [groupRecordCount]

theorem groupEndOffset_concat : groupEndOffset (g ++ [b]) = b.endOffset := by
  simp [groupEndOffset]

theorem groupStreamId_concat (hne : g ≠ []) : groupStreamId (g ++ [b]) = groupStreamId g := by
  obtain ⟨x, xs, rfl⟩ := exists_cons_of_ne_nil hne
  rfl

theorem groupStartOffset_concat (hne : g ≠ []) :
    groupStartOffset (g ++ [b]) = groupStartOffset g := by
  obtain ⟨x, xs, rfl⟩ := exists_cons_of_ne_nil hne
  rfl

end

/-- Whether a block begins a group behind the group `g`. -/
def beginsRun (threshold : Nat) (g : List StreamDataBlock) (b : StreamDataBlock) : Bool :=
  decide (b.streamId ≠ groupStreamId g ∨ b.startOffset ≠ groupEndOffset g ∨
    threshold ≤ sumBlockSize g + b.blockSize ∨
    i32Max < groupRecordCount g + b.index.recordCount ∨
    i32Max < b.endOffset - groupStartOffset g)

namespace GroupByLimitPredicate

/-- The predicate keeps the totals of the open group. -/
structure Tracks (threshold : Nat) (p : GroupByLimitPredicate) (g : List StreamDataBlock) :
    Prop where
  threshold : p.blockSizeThreshold = threshold
  streamId : p.streamId = if g = [] then -1 else asI64 (groupStreamId g)
  size : p.blockSize = sumBlockSize g
  records : p.recordCnt = groupRecordCount g
  start : g ≠ [] → p.startOffset = groupStartOffset g
  next : g ≠ [] → p.nextStartOffset = groupEndOffset g

variable {threshold : Nat} {p : GroupByLimitPredicate} {g : List StreamDataBlock}
  {b : StreamDataBlock}

theorem tracks_new (threshold : Nat) : (new threshold).Tracks threshold [] :=
  ⟨rfl, rfl, rfl, rfl, fun h => absurd rfl h, fun h => absurd rfl h⟩

theorem Tracks.restart (h : p.Tracks threshold g) (b : StreamDataBlock) :
    ((p.restart b).add b).Tracks threshold [b] := by
  have hid : groupStreamId [b] = b.streamId := rfl
  have hsize : 0 + b.blockSize = sumBlockSize [b] := (sumBlockSize_concat (g := [])).symm
  have hrecords : 0 + b.index.recordCount = groupRecordCount [b] :=
    (groupRecordCount_concat (g := [])).symm
  have hthreshold := h.threshold
  obtain ⟨limit, streamId, start, next, size, count⟩ := p
  refine ⟨hthreshold, ?_, hsize, hrecords, fun _ => rfl, fun _ => rfl⟩
  simp only [GroupByLimitPredicate.add, GroupByLimitPredicate.restart,
    if_neg (cons_ne_nil b []), hid]

theorem Tracks.add (h : p.Tracks threshold g) (hne : g ≠ []) (b : StreamDataBlock) :
    (p.add b).Tracks threshold (g ++ [b]) where
  threshold := h.threshold
  streamId := by
    rw [if_neg (append_ne_nil_of_right_ne_nil _ (cons_ne_nil _ _)), groupStreamId_concat hne]
    exact h.streamId.trans (if_neg hne)
  size := by
    rw [sumBlockSize_concat, ← h.size]
    rfl
  records := by
    rw [groupRecordCount_concat, ← h.records]
    rfl
  start := fun _ => (h.start hne).trans (groupStartOffset_concat hne).symm
  next := fun _ => groupEndOffset_concat.symm

theorem asI64_inj (hm : m < 2 ^ 63) (hn : n < 2 ^ 63) : asI64 m = asI64 n ↔ m = n := by
  rw [asI64_of_lt hm, asI64_of_lt hn]
  exact Int.ofNat_inj

/-- Behind a group the predicate cuts where a block begins a new one. -/
theorem Tracks.cuts_eq (h : p.Tracks threshold g) (hne : g ≠ []) (hb : b.streamId < 2 ^ 63)
    (hg : groupStreamId g < 2 ^ 63) : p.cuts b = beginsRun threshold g b := by
  have hid := h.streamId
  rw [if_neg hne] at hid
  have hsentinel : ¬p.streamId = -1 := by
    rw [hid, asI64_of_lt hg]
    omega
  rw [cuts, beginsRun, h.threshold, h.size, h.records, h.start hne, h.next hne, hid,
    decide_eq_decide, ← hid, or_iff_right hsentinel, hid, Ne, asI64_inj hb hg]

end GroupByLimitPredicate

open GroupByLimitPredicate in
theorem groupBlock_tracks {p : GroupByLimitPredicate} (h : p.Tracks threshold t.2)
    (hb : b.streamId < 2 ^ 63) (hg : groupStreamId t.2 < 2 ^ 63) :
    (groupBlock test (t, p) b).1 = Greedy.push (beginsRun threshold) t b ∧
      (groupBlock test (t, p) b).2.Tracks threshold (Greedy.push (beginsRun threshold) t b).2 := by
  by_cases hne : t.2 = []
  · -- The first block: the predicate starts and lets it pass.
    have hid := h.streamId
    rw [if_pos hne] at hid
    have hcuts : p.cuts b = true := decide_eq_true (.inl hid)
    have htest : p.test b = (true, (p.restart b).add b) := by
      rw [test, if_pos hcuts, hid]
      rfl
    have hpush : Greedy.push (beginsRun threshold) t b = (t.1, [b]) := by
      rw [Greedy.push, hne]
      rfl
    rw [groupBlock, htest, hpush]
    refine ⟨?_, h.restart b⟩
    rw [if_pos rfl, hne]
    rfl
  · have hcuts := h.cuts_eq hne hb hg
    have hsentinel : decide (p.streamId = -1) = false := by
      rw [h.streamId, if_neg hne, asI64_of_lt hg]
      exact decide_eq_false (by omega)
    rw [groupBlock, Greedy.push, isEmpty_eq_false_iff.mpr hne, test, hcuts, hsentinel]
    cases beginsRun threshold t.2 b with
    | true =>
      dsimp only
      rw [if_pos rfl, if_neg Bool.false_ne_true, if_pos hne]
      exact ⟨rfl, h.restart b⟩
    | false => exact ⟨rfl, h.add hne b⟩

theorem groupStreamId_lt (hn : 0 < n) (h : ∀ b ∈ g, b.streamId < n) : groupStreamId g < n := by
  cases g with
  | nil => exact hn
  | cons b g => exact h b mem_cons_self

/-- **The grouping is the greedy one.** -/
theorem groupStreamDataBlocks_eq (threshold : Nat) {blocks : List StreamDataBlock}
    (hblocks : ∀ b ∈ blocks, b.streamId < 2 ^ 63) :
    groupStreamDataBlocks GroupByLimitPredicate.test (.new threshold) blocks =
      Greedy.groups (beginsRun threshold) blocks := by
  have hfold : ∀ (bs : List StreamDataBlock) (t : Greedy.Groups StreamDataBlock)
      (p : GroupByLimitPredicate), (∀ b ∈ bs, b.streamId < 2 ^ 63) →
      (∀ b ∈ t.2, b.streamId < 2 ^ 63) → p.Tracks threshold t.2 →
      (bs.foldl (groupBlock GroupByLimitPredicate.test) (t, p)).1 =
        bs.foldl (Greedy.push (beginsRun threshold)) t := by
    intro bs
    induction bs with
    | nil => exact fun t p _ _ _ => rfl
    | cons b bs ih =>
      intro t p hbs ht hp
      obtain ⟨hb, hbs⟩ := forall_mem_cons.mp hbs
      obtain ⟨hgroups, htracks⟩ := groupBlock_tracks hp hb (groupStreamId_lt (by decide) ht)
      have hopen : ∀ x ∈ (Greedy.push (beginsRun threshold) t b).2, x.streamId < 2 ^ 63 := by
        intro x hx
        rcases Greedy.mem_push hx with hx | rfl
        · exact ht x hx
        · exact hb
      rw [foldl_cons, foldl_cons, ← ih _ _ hbs hopen htracks, ← hgroups]
  rw [groupStreamDataBlocks, hfold blocks ([], []) _ hblocks (fun b hb => nomatch hb)
    (GroupByLimitPredicate.tracks_new threshold)]
  rfl

/-! ## The groups -/

/-- What every group is: a run of one stream, and within the limits unless it is one block. -/
structure LimitGroup (threshold : Nat) (g : List StreamDataBlock) : Prop where
  run : SingleRun g
  limits : 2 ≤ g.length → groupRecordCount g ≤ i32Max ∧
    groupEndOffset g - groupStartOffset g ≤ i32Max ∧ sumBlockSize g < threshold

theorem limitGroup_singleton (threshold : Nat) (b : StreamDataBlock) :
    LimitGroup threshold [b] where
  run := by
    refine ⟨fun x hx y hy => ?_, isChain_singleton _⟩
    rw [mem_singleton.mp hx, mem_singleton.mp hy]
  limits := fun h => absurd h (by decide : ¬2 ≤ 1)

theorem LimitGroup.concat (hne : g ≠ []) (h : LimitGroup threshold g)
    (hjoins : beginsRun threshold g b = false) : LimitGroup threshold (g ++ [b]) := by
  have hfits := of_decide_eq_false hjoins
  rw [not_or, not_or, not_or, not_or, not_not, not_not, not_le, not_lt, not_lt] at hfits
  obtain ⟨hid, hnext, hsize, hrecords, hspan⟩ := hfits
  have hstream : ∀ x ∈ g, x.streamId = b.streamId := by
    intro x hx
    obtain ⟨y, ys, rfl⟩ := exists_cons_of_ne_nil hne
    rw [hid]
    exact h.run.single x hx y mem_cons_self
  refine ⟨⟨fun x hx y hy => ?_, ?_⟩, fun _ => ⟨?_, ?_, ?_⟩⟩
  · have hall := forall_mem_append.mpr ⟨hstream, forall_mem_singleton.mpr rfl⟩
    rw [hall x hx, hall y hy]
  · refine isChain_append.mpr ⟨h.run.contiguous, isChain_singleton _, fun x hx y hy => ?_⟩
    obtain rfl : y = b := (Option.some.inj hy).symm
    rw [hnext, groupEndOffset, Option.mem_def.mp hx]
    rfl
  · rw [groupRecordCount_concat]
    exact hrecords
  · rw [groupEndOffset_concat, groupStartOffset_concat hne]
    exact hspan
  · rw [sumBlockSize_concat]
    exact hsize

theorem limitGroup_of_mem {blocks : List StreamDataBlock}
    (hg : g ∈ Greedy.groups (beginsRun threshold) blocks) : g ≠ [] ∧ LimitGroup threshold g :=
  Greedy.forall_groups (fun b _ => limitGroup_singleton threshold b)
    (fun _ _ _ hne h => h.concat hne) g hg

end S3Stream
