import S3Stream.Core.ReadStitch

/-! # What the log cache answers

`StreamCache::get` and `LogCache::get` (`s3stream-core/src/cache/log_cache.rs`) for blocks whose
records are contiguous per stream, with gaps between the blocks: the hints of earlier reads do not
change an answer, an answer is a run from the start of the range or from the start of the records
behind the last gap, and merging free blocks does not change it. -/

namespace S3Stream

open List TransitionSystem Windows StreamRecordBatch
open StreamRecordBatch (baseOffset lastOffset size)

/-! ## Contiguous blocks -/

/-- The records go on from each other without a gap, and the bounds are theirs. A record without
offsets is allowed. -/
def StreamCache.Contiguous (c : StreamCache) : Prop :=
  match c.startOffset, c.endOffset with
  | none, none => c.records = []
  | some a, some b => c.records ≠ [] ∧
      Joined baseOffset lastOffset a c.records b
  | _, _ => False

instance (c : StreamCache) : Decidable c.Contiguous := by
  unfold StreamCache.Contiguous
  split <;> infer_instance

namespace LogCacheBlock

def Contiguous (b : LogCacheBlock) : Prop := ∀ e ∈ b.map.entries, e.2.Contiguous

instance (b : LogCacheBlock) : Decidable b.Contiguous :=
  inferInstanceAs (Decidable (∀ e ∈ b.map.entries, e.2.Contiguous))

def Counted (b : LogCacheBlock) : Prop := ∀ e ∈ b.map.entries, ∀ r ∈ e.2.records, 1 ≤ r.count

instance (b : LogCacheBlock) : Decidable b.Counted :=
  inferInstanceAs (Decidable (∀ e ∈ b.map.entries, ∀ r ∈ e.2.records, 1 ≤ r.count))

end LogCacheBlock

theorem StreamRecordBatch.baseOffset_lt_lastOffset {r : StreamRecordBatch} (h : 1 ≤ r.count) :
    r.baseOffset < r.lastOffset := by
  unfold lastOffset
  split <;> omega

theorem StreamCache.Contiguous.spanned {c : StreamCache} (h : c.Contiguous)
    (hcount : ∀ r ∈ c.records, 1 ≤ r.count) : c.Spanned := by
  obtain ⟨records, first, stop⟩ := c
  cases first <;> cases stop
  · obtain rfl : records = [] := h
    exact .empty
  · exact h.elim
  · exact h.elim
  · exact .run (h.2.tiles fun r hr => baseOffset_lt_lastOffset (hcount r hr)) h.1

theorem LogCacheBlock.Contiguous.spanned {b : LogCacheBlock} (h : b.Contiguous)
    (hcount : b.Counted) : b.Spanned := fun streamId c hget =>
  have hmem := OrdMap.mem_of_get? hget
  (h (streamId, c) hmem).spanned (hcount (streamId, c) hmem)

/-! ## Hints -/

/-- A stream cache with the hints of the reads so far. -/
structure HintedCache where
  cache : StreamCache
  notes : OffsetIndexMap

namespace HintedCache

def new : HintedCache := ⟨.new, fun _ => none⟩

inductive Action where
  | add (record : StreamRecordBatch)
  | get (startOffset endOffset maxBytes : Nat)
  deriving DecidableEq, Repr

def step (s : HintedCache) : Action → Option HintedCache
  | .add record => some { s with cache := (s.cache.add record).getD s.cache }
  | .get startOffset endOffset maxBytes =>
    some { s with notes := (s.cache.get s.notes startOffset endOffset maxBytes).2 }

/-- Records are added where the stream ends, and have at least one offset. -/
def Allowed (s : HintedCache) : Action → Prop
  | .add record => 1 ≤ record.count ∧ ∀ e ∈ s.cache.endOffset, record.baseOffset = e
  | .get .. => True

instance (s : HintedCache) : ∀ a, Decidable (s.Allowed a)
  | .add record => inferInstanceAs (Decidable (1 ≤ record.count ∧
      ∀ e ∈ s.cache.endOffset, record.baseOffset = e))
  | .get .. => isTrue trivial

variable {s s' : HintedCache} {a : Action} {as : List Action}

/-- The cache spans its records, and every hint is right. -/
structure Inv (s : HintedCache) : Prop where
  spanned : s.cache.Spanned
  agree : NotesAgree s.cache.records s.notes

theorem Inv.step (h : s.Inv) (ha : s.Allowed a) (hs : s.step a = some s') : s'.Inv := by
  cases a with
  | add record =>
    cases hs
    cases hadd : s.cache.add record with
    | none => exact h
    | some c =>
      refine ⟨h.spanned.add hadd (baseOffset_lt_lastOffset ha.1) ha.2, ?_⟩
      show NotesAgree c.records s.notes
      rw [StreamCache.records_of_add hadd]
      exact h.agree.append [record]
  | get startOffset endOffset maxBytes =>
    cases hs
    exact ⟨h.spanned, (h.spanned.get h.agree startOffset endOffset maxBytes).2⟩

/-- **Hints do not change an answer**: after any additions and reads, a read gives the records that
it gives without hints, by the binary search alone. -/
theorem get_eq_get_without_hints (hG : Guarded step Allowed new as)
    (hrun : run step new as = some s)
    (startOffset endOffset maxBytes : Nat) :
    (s.cache.get s.notes startOffset endOffset maxBytes).1 =
      (s.cache.get (fun _ => none) startOffset endOffset maxBytes).1 := by
  have hinv : s.Inv := run_invariant_of_guarded Inv.step
    ⟨.empty, notesAgree_empty _⟩ hG hrun
  rw [(hinv.spanned.get hinv.agree startOffset endOffset maxBytes).1,
    (hinv.spanned.get (notesAgree_empty _) startOffset endOffset maxBytes).1]

/-- A read to the end of the cache leaves a hint behind its last record. -/
def hintSchedule : List Action :=
  [.add ⟨1, 0, 0, 5, [1]⟩, .get 2 9 100, .get 0 5 100, .add ⟨1, 0, 5, 3, [2, 3]⟩]

theorem get_eq_get_without_hints_behind_end :
    ∃ s, run step new hintSchedule = some s ∧ s.notes 5 = some (1, 2) ∧
      (s.cache.get s.notes 5 8 100).1 = (s.cache.get (fun _ => none) 5 8 100).1 :=
  exists_and (by decide +kernel) fun _ hs _ =>
    get_eq_get_without_hints (by decide +kernel) hs 5 8 100

end HintedCache

/-! ## The contract of a read -/

variable {rs tail got : List StreamRecordBatch} {startOffset endOffset maxBytes : Nat}

def StartsAround (rs : List StreamRecordBatch) (offset : Nat) : Prop :=
  ∃ r, rs.head? = some r ∧ r.baseOffset ≤ offset ∧ offset < r.lastOffset

/-- Some contiguous cached records answer the read from its start. -/
def Servable (rs : List StreamRecordBatch) (startOffset endOffset maxBytes : Nat) : Prop :=
  ∃ run x y, run <:+: rs ∧ RecordsTile x run y ∧ StartsAround run startOffset ∧
    ReadDone endOffset maxBytes run

/-- The longest contiguous records at the end of the cached ones. -/
structure LongestTail (rs tail : List StreamRecordBatch) : Prop where
  isSuffix : tail <:+ rs
  contiguous : ∃ x y, RecordsTile x tail y
  longest : ∀ ys x y, ys <:+ rs → RecordsTile x ys y → ys <:+ tail

/-- The tail starts inside the range, at `t`, and answers the rest of the read. -/
def TailServable (tail : List StreamRecordBatch) (startOffset endOffset maxBytes t : Nat) : Prop :=
  tail.head?.map baseOffset = some t ∧ startOffset < t ∧ t < endOffset ∧
    ReadDone endOffset maxBytes tail

/-- What a read gets from the cached records of its stream: contiguous records that end the read,
from the start of the range if that is possible, else from the start of the tail if that is, else
nothing. -/
structure GetContract (rs tail : List StreamRecordBatch) (startOffset endOffset maxBytes : Nat)
    (got : List StreamRecordBatch) : Prop where
  cached : got <:+: rs
  contiguous : ∃ x y, RecordsTile x got y
  ends : got ≠ [] → ReadDone endOffset maxBytes got
  hit : Servable rs startOffset endOffset maxBytes → StartsAround got startOffset
  intersect : ∀ t, ¬Servable rs startOffset endOffset maxBytes →
    TailServable tail startOffset endOffset maxBytes t →
      got.head?.map baseOffset = some t
  miss : ¬Servable rs startOffset endOffset maxBytes →
    (∀ t, ¬TailServable tail startOffset endOffset maxBytes t) → got = []

theorem longestTail_tailRecords (hpos : ∀ r ∈ rs, r.baseOffset < r.lastOffset) :
    LongestTail rs (tailRecords rs) :=
  ⟨tailRun_isSuffix rs, tiles_tailRun hpos, fun _ _ _ => isSuffix_tailRun⟩

/-- The records that a read from `a` takes. -/
abbrev takenFrom (endOffset maxBytes : Nat) (rs : List StreamRecordBatch) (a : Nat) :
    List StreamRecordBatch :=
  budgetRun lastOffset size endOffset maxBytes
    (runFrom baseOffset lastOffset rs a)

theorem done_of_isPrefix {run : List StreamRecordBatch} (hmore : RecordsTile x more y)
    (hrun : run <+: more) (hdone : ReadDone endOffset maxBytes run) :
    ReadDone endOffset maxBytes more := by
  obtain ⟨rest, rfl⟩ := hrun
  rcases hdone with ⟨r, hr, hle⟩ | hle
  · refine .inl ⟨_, getLast?_eq_getLast_of_ne_nil fun hnil => ?_, ?_⟩
    · rw [(append_eq_nil_iff.mp hnil).1] at hr
      cases hr
    · have hmem := mem_append_left rest (mem_of_getLast? hr)
      have hlast := getLast?_eq_getLast_of_ne_nil (ne_nil_of_mem hmem)
      rw [hmore.hi_getLast hlast]
      exact hle.trans (hmore.bounds hmem).2
  · refine .inr (hle.trans ?_)
    rw [total_append]
    exact Nat.le_add_right _ _

theorem done_takenFrom {run : List StreamRecordBatch}
    (htile : RecordsTile x (runFrom baseOffset lastOffset rs a) y)
    (hrun : run <+: runFrom baseOffset lastOffset rs a)
    (hdone : ReadDone endOffset maxBytes run) :
    ReadDone endOffset maxBytes (takenFrom endOffset maxBytes rs a) := by
  by_contra hnot
  have hall := (budgetRun_append_of_not_done [] hnot).1
  rw [takenFrom, hall] at hnot
  exact hnot (done_of_isPrefix htile hrun hdone)

theorem getContract_nil (h : ¬Servable rs startOffset endOffset maxBytes)
    (htail : ∀ t, ¬TailServable tail startOffset endOffset maxBytes t) :
    GetContract rs tail startOffset endOffset maxBytes [] :=
  ⟨List.nil_infix, ⟨0, 0, rfl⟩, fun hne => absurd rfl hne, fun hs => absurd hs h,
    fun t _ ht => absurd ht (htail t), fun _ _ => rfl⟩

/-- What a read from some offset takes is contiguous and starts with the run from there. -/
theorem takenFrom_spec (endOffset maxBytes : Nat)
    (hpos : ∀ r ∈ rs, r.baseOffset < r.lastOffset) (a : Nat) :
    takenFrom endOffset maxBytes rs a <:+: rs ∧
    (∃ x y, RecordsTile x (takenFrom endOffset maxBytes rs a) y) ∧
    (takenFrom endOffset maxBytes rs a).head? =
      (runFrom baseOffset lastOffset rs a).head? := by
  obtain ⟨hmid, ⟨s, t, htile⟩, -⟩ := runFrom_spec a hpos
  have hfront := budgetRun_isPrefix lastOffset size endOffset
    maxBytes (runFrom baseOffset lastOffset rs a)
  refine ⟨hfront.isInfix.trans hmid, htile.of_infix hfront.isInfix, ?_⟩
  rw [takenFrom]
  cases runFrom baseOffset lastOffset rs a with
  | nil => rfl
  | cons => exact head?_budgetRun

/-- A read can be answered from its start exactly if the run from there ends it. -/
theorem servable_iff (hord : rs.Pairwise fun r q => r.lastOffset ≤ q.baseOffset)
    (hpos : ∀ r ∈ rs, r.baseOffset < r.lastOffset) :
    Servable rs startOffset endOffset maxBytes ↔
      runFrom baseOffset lastOffset rs startOffset ≠ [] ∧
        ReadDone endOffset maxBytes (takenFrom endOffset maxBytes rs startOffset) := by
  obtain ⟨hmid, ⟨s, t, htile⟩, hcovers⟩ := runFrom_spec startOffset hpos
  constructor
  · rintro ⟨run, x, y, hrun, hrunTile, ⟨r, hr, hlo, hhi⟩, hdone⟩
    have hfront := isPrefix_runFrom hord hrun hrunTile hr hlo hhi
    refine ⟨fun hnil => ?_, done_takenFrom htile hfront hdone⟩
    rw [hnil, prefix_nil] at hfront
    rw [hfront] at hr
    cases hr
  · rintro ⟨hne, hdone⟩
    obtain ⟨hgot, ⟨x, y, hgotTile⟩, hhead⟩ := takenFrom_spec endOffset maxBytes hpos startOffset
    obtain ⟨r, run, hrun⟩ := exists_cons_of_ne_nil hne
    have hr : (runFrom baseOffset lastOffset rs
        startOffset).head? = some r := by rw [hrun]; rfl
    exact ⟨_, x, y, hgot, hgotTile, ⟨r, hhead.trans hr, hcovers r hr⟩, hdone⟩

theorem runFrom_tail (hord : rs.Pairwise fun r q => r.lastOffset ≤ q.baseOffset)
    (htail : LongestTail rs tail) (ht : tail.head?.map baseOffset = some t) :
    runFrom baseOffset lastOffset rs t = tail := by
  obtain ⟨x, y, htile⟩ := htail.contiguous
  obtain ⟨front, rfl⟩ := htail.isSuffix
  cases tail with
  | nil => cases ht
  | cons r =>
    cases ht
    have hfront : ∀ q ∈ front, q.lastOffset ≤ r.baseOffset := fun q hq =>
      (pairwise_append.mp hord).2.2 q hq r mem_cons_self
    have hrun := runFrom_cons [] htile le_rfl htile.2.1
    rw [append_nil, contiguousAfter, append_nil] at hrun
    rw [runFrom_append_of_le _ _ hfront, hrun]

namespace LogCache

variable {c : LogCache} {notes : OffsetIndexes} {streamId n : Nat}
  {b left right active : LogCacheBlock}
  {us vs : List LogCacheBlock}

abbrev streamRecords (c : LogCache) (streamId : Nat) : List StreamRecordBatch :=
  c.blocks.flatMap (·.streamRecords streamId)

/-- The ranges of the stream in the blocks increase; there may be gaps. -/
def Increasing (c : LogCache) (streamId : Nat) : Prop :=
  (c.blocks.filterMap (·.streamRange streamId)).Pairwise fun p q => p.2 ≤ q.1

instance (c : LogCache) (streamId : Nat) : Decidable (c.Increasing streamId) :=
  inferInstanceAs (Decidable (List.Pairwise _ _))

theorem pairwise_of_ranges {bs : List LogCacheBlock} (hspan : ∀ b ∈ bs, b.Spanned)
    (h : (bs.filterMap (·.streamRange streamId)).Pairwise fun p q => p.2 ≤ q.1) :
    (bs.flatMap (·.streamRecords streamId)).Pairwise fun r q => r.lastOffset ≤ q.baseOffset := by
  induction bs with
  | nil => exact .nil
  | cons b bs ih =>
    have hbs : ∀ d ∈ bs, d.Spanned := fun d hd => hspan d (mem_cons_of_mem b hd)
    have hrange := (hspan b mem_cons_self).hasRange streamId
    rw [filterMap_cons] at h
    rw [flatMap_cons]
    generalize b.streamRecords streamId = rs, b.streamRange streamId = range at hrange h
    cases hrange with
    | empty => exact ih hbs h
    | @run _ s t htile _ =>
      obtain ⟨hle, h⟩ := pairwise_cons.mp h
      refine pairwise_append.mpr ⟨htile.pairwise, ih hbs h, fun r hr q hq => ?_⟩
      obtain ⟨d, hd, hq⟩ := mem_flatMap.mp hq
      have hrange' := (hbs d hd).hasRange streamId
      generalize hqs : d.streamRecords streamId = qs, hran : d.streamRange streamId = range'
        at hrange'
      cases hrange' with
      | empty =>
        rw [hqs] at hq
        cases hq
      | @run _ s' t' htile' =>
        rw [hqs] at hq
        have hst := hle (s', t') (mem_filterMap.mpr ⟨d, hd, hran⟩)
        exact ((htile.bounds hr).2.trans hst).trans (htile'.bounds hq).1

/-- **The contract of `get`**, for blocks that are contiguous and increase: the three cases, and one
call of itself at most. -/
theorem get_contract (hids : (c.blocks.map LogCacheBlock.blockId).Nodup)
    (hcont : ∀ b ∈ c.blocks, b.Contiguous) (hcount : ∀ b ∈ c.blocks, b.Counted)
    (hinc : c.Increasing streamId) (hnotes : BlockNotesAgree c.blocks notes)
    (startOffset endOffset maxBytes : Nat) :
    (∃ tail, LongestTail (c.streamRecords streamId) tail ∧
      GetContract (c.streamRecords streamId) tail startOffset endOffset maxBytes
        (c.get notes streamId startOffset endOffset maxBytes).1) ∧
    ∀ rounds, get0 c.blocks streamId endOffset maxBytes (rounds + 2) notes startOffset =
      c.get notes streamId startOffset endOffset maxBytes := by
  refine ⟨?_, fun rounds => get0_rounds rounds notes startOffset⟩
  have hspan : ∀ b ∈ c.blocks, b.Spanned := fun b hb => (hcont b hb).spanned (hcount b hb)
  have hord := pairwise_of_ranges hspan hinc
  have hpos : ∀ r ∈ c.streamRecords streamId, r.baseOffset < r.lastOffset := by
    intro r hr
    obtain ⟨b, hb, hr⟩ := mem_flatMap.mp hr
    obtain ⟨s, t, htile⟩ := (hspan b hb).exists_tiles streamId
    exact htile.lo_lt_hi hr
  have htail := longestTail_tailRecords hpos
  refine ⟨_, htail, ?_⟩
  have hread : ∀ a, (readBlocks streamId endOffset c.blocks a maxBytes).1 =
        takenFrom endOffset maxBytes (c.streamRecords streamId) a ∧
      ((readBlocks streamId endOffset c.blocks a maxBytes).2 = true ↔
        runFrom baseOffset lastOffset
          (c.streamRecords streamId) a ≠ [] ∧
        ReadDone endOffset maxBytes
          (takenFrom endOffset maxBytes (c.streamRecords streamId) a)) := by
    intro a
    have hparts := readParts_eq StreamRecordBatch.size (tiles_map_streamRecords hspan)
      (by rw [← flatMap_def]; exact hord) endOffset a maxBytes
    exact hparts
  have hiff := (hread startOffset).2.trans (servable_iff hord hpos).symm
  rw [get_eq_readBlocks hids hspan hnotes]
  split
  next hover =>
    -- The read is answered from its start.
    have hserv := hiff.mp hover
    obtain ⟨hcached, hcontiguous, hhead⟩ := takenFrom_spec endOffset maxBytes hpos startOffset
    obtain ⟨hne, hdone⟩ := (hread startOffset).2.mp hover
    rw [(hread startOffset).1]
    refine ⟨hcached, hcontiguous, fun _ => hdone, fun _ => ?_, fun _ h => absurd hserv h,
      fun h => absurd hserv h⟩
    obtain ⟨r, run, hrun⟩ := exists_cons_of_ne_nil hne
    have hr := congrArg head? hrun
    exact ⟨r, hhead.trans hr, (runFrom_spec _ hpos).2.2 r hr⟩
  next hopen =>
    have hnot : ¬Servable (c.streamRecords streamId) startOffset endOffset maxBytes :=
      fun h => hopen (hiff.mpr h)
    split
    next hnone =>
      refine getContract_nil hnot fun t ht => ?_
      cases hnone.symm.trans ht.1
    next t hsome =>
      have hrun := runFrom_tail hord htail hsome
      have hsame : ∀ t', TailServable (tailRecords (c.streamRecords streamId)) startOffset
          endOffset maxBytes t' → t' = t := fun t' ht' => Option.some.inj (ht'.1.symm.trans hsome)
      split
      next =>
        refine getContract_nil hnot fun t' ht' => ?_
        obtain rfl := hsame t' ht'
        have hstart := ht'.2.1
        have hend := ht'.2.2.1
        omega
      next =>
        split
        next hover =>
          -- The tail starts inside the range and ends the read.
          obtain ⟨hne, hdone⟩ := (hread t).2.mp hover
          obtain ⟨hcached, hcontiguous, hhead⟩ := takenFrom_spec endOffset maxBytes hpos t
          rw [hrun] at hhead
          rw [(hread t).1]
          refine ⟨hcached, hcontiguous, fun _ => hdone, fun h => absurd h hnot, fun t' _ ht' => ?_,
            fun _ h => absurd ⟨hsome, by omega, by omega, ?_⟩ (h t)⟩
          · rw [hhead, hsame t' ht']
            exact hsome
          · obtain ⟨x, y, htile⟩ := htail.contiguous
            have hfront := budgetRun_isPrefix StreamRecordBatch.lastOffset StreamRecordBatch.size
              endOffset maxBytes (tailRecords (c.streamRecords streamId))
            rw [takenFrom, hrun] at hdone
            exact done_of_isPrefix htile hfront hdone
        next hopen' =>
          refine getContract_nil hnot fun t' ht' => ?_
          obtain rfl := hsame t' ht'
          obtain ⟨x, y, htile⟩ := htail.contiguous
          refine hopen' ((hread t').2.mpr ⟨fun hnil => ?_, ?_⟩)
          · rw [hrun] at hnil
            rw [hnil] at hsome
            cases hsome
          · exact done_takenFrom (hrun.symm ▸ htile) (hrun.symm ▸ prefix_rfl) ht'.2.2.2

/-- Two blocks with a gap between them. -/
def gapCache : LogCache :=
  (((LogCache.new 1000 1000 10).put ⟨1, 0, 0, 10, [1]⟩).1.archiveCurrentBlock.1.put
    ⟨1, 0, 100, 100, [2]⟩).1

theorem get_contract_gap :
    (gapCache.get (fun _ _ _ => none) 1 90 110 1000).1 = [⟨1, 0, 100, 100, [2]⟩] ∧
    ∃ tail, LongestTail (gapCache.streamRecords 1) tail ∧
      GetContract (gapCache.streamRecords 1) tail 90 110 1000
        (gapCache.get (fun _ _ _ => none) 1 90 110 1000).1 :=
  ⟨by decide +kernel, (get_contract (by decide +kernel) (by decide +kernel) (by decide +kernel)
    (by decide +kernel) (fun _ _ _ => notesAgree_empty _) 90 110 1000).1⟩

/-! ## Merging is invisible -/

/-- The loop of `try_merge` over all blocks, the active one included. -/
def mergeBlocks (c : LogCache) (before nextBlockId : Nat) (left : LogCacheBlock) :
    List LogCacheBlock → List LogCacheBlock × Nat
  | [] => ([left], nextBlockId)
  | right :: rest =>
    if before + rest.length + 2 ≤ mergeBlockThreshold || !left.free || !right.free then
      (left :: right :: rest, nextBlockId)
    else if c.cacheBlockMaxSize ≤ left.size + right.size || isDiscontinuous left right then
      let (blocks, nextBlockId) := c.mergeBlocks (before + 1) nextBlockId right rest
      (left :: blocks, nextBlockId)
    else c.mergeBlocks before (nextBlockId + 1) (merged nextBlockId left right) rest

/-- The active block is not free, so the loop stops before it. -/
theorem mergeBlocks_eq (hactive : active.free = false) (before nextBlockId : Nat)
    (left : LogCacheBlock) (rest : List LogCacheBlock) :
    c.mergeBlocks before nextBlockId left (rest ++ [active]) =
      ((c.mergeFrom before nextBlockId left rest).1 ++ [active],
        (c.mergeFrom before nextBlockId left rest).2) := by
  induction rest generalizing before nextBlockId left with
  | nil =>
    rw [nil_append, mergeBlocks, hactive, Bool.not_false, Bool.or_true]
    rfl
  | cons right rest ih =>
    rw [cons_append, mergeBlocks, mergeFrom, length_append, length_singleton,
      show before + (rest.length + 1) + 2 = before + rest.length + 3 by omega]
    split
    · rfl
    · split
      · rw [ih (before + 1) nextBlockId right]
        rfl
      · exact ih before (nextBlockId + 1) (merged nextBlockId left right)

theorem flatMap_merge : (us ++ merged n left right :: vs).flatMap (·.streamRecords streamId) =
    (us ++ left :: right :: vs).flatMap (·.streamRecords streamId) := by
  simp only [flatMap_append, flatMap_cons, streamRecords_merged, append_assoc]

theorem readBlocks_merge (hleft : left.Spanned) (hright : right.Spanned)
    (hcont : isDiscontinuous left right = false) (startOffset endOffset maxBytes : Nat) :
    readBlocks streamId endOffset (us ++ merged n left right :: vs) startOffset maxBytes =
      readBlocks streamId endOffset (us ++ left :: right :: vs) startOffset maxBytes := by
  obtain ⟨s, t, htile⟩ := (spanned_merged (n := n) hleft hright hcont).exists_tiles streamId
  rw [streamRecords_merged] at htile
  simp only [readBlocks, map_append, map_cons, streamRecords_merged]
  exact readParts_append_congr (fun a m => (readParts_join htile endOffset a m).symm) _ _ _

/-- What the rounds of `try_merge` keep, from the blocks `first` on. -/
structure Merging (active : LogCacheBlock) (notes : OffsetIndexes) (first : List LogCacheBlock)
    (p : List LogCacheBlock × Nat) : Prop where
  numbered : Numbered (p.1 ++ [active]) p.2
  blank : ∀ k, p.2 ≤ k → ∀ streamId, notes k streamId = fun _ => none
  spanned : ∀ b ∈ p.1 ++ [active], b.Spanned
  agree : BlockNotesAgree (p.1 ++ [active]) notes
  unfree : p.1.filter (fun b => !b.free) = first.filter fun b => !b.free
  records : ∀ streamId, (p.1 ++ [active]).flatMap (·.streamRecords streamId) =
    (first ++ [active]).flatMap (·.streamRecords streamId)
  read : ∀ streamId startOffset endOffset maxBytes,
    readBlocks streamId endOffset (p.1 ++ [active]) startOffset maxBytes =
      readBlocks streamId endOffset (first ++ [active]) startOffset maxBytes

theorem Merging.merge (h : Merging active notes first (us ++ left :: right :: vs, n))
    (hleft : left.free = true) (hright : right.free = true)
    (hcont : isDiscontinuous left right = false) :
    Merging active notes first (us ++ merged n left right :: vs, n + 1) := by
  obtain ⟨hnumbered, hblank, hspan, hagree, hunfree, hrecords, hread⟩ := h
  simp only [append_assoc, cons_append] at hnumbered hspan hagree hrecords hread
  have hspanL := hspan left (by simp)
  have hspanR := hspan right (by simp)
  refine ⟨?_, fun k hk => hblank k (Nat.le_of_succ_le hk), fun b hb => ?_, fun b hb streamId => ?_,
    ?_, fun streamId => ?_, fun streamId startOffset endOffset maxBytes => ?_⟩
  · rw [append_assoc, cons_append]
    exact hnumbered.merge
  · rw [append_assoc, cons_append] at hb
    rcases mem_of_mem_merge hb with rfl | hb
    · exact spanned_merged hspanL hspanR hcont
    · exact hspan b hb
  · rw [append_assoc, cons_append] at hb
    rcases mem_of_mem_merge hb with rfl | hb
    · show NotesAgree _ (notes n streamId)
      rw [hblank n le_rfl]
      exact notesAgree_empty _
    · exact hagree b hb streamId
  · rw [← hunfree, filter_append, filter_append, filter_cons_of_neg (by simp [merged]),
      filter_cons_of_neg (by simp [hleft]), filter_cons_of_neg (by simp [hright])]
  · rw [append_assoc, cons_append, flatMap_merge]
    exact hrecords streamId
  · rw [append_assoc, cons_append, readBlocks_merge hspanL hspanR hcont]
    exact hread streamId startOffset endOffset maxBytes

theorem merging_tryMerge (hnumbered : Numbered c.blocks c.nextBlockId)
    (hspan : ∀ b ∈ c.blocks, b.Spanned) (hnotes : BlockNotesAgree c.blocks notes)
    (hblank : ∀ k, c.nextBlockId ≤ k → ∀ streamId, notes k streamId = fun _ => none) :
    Merging c.active notes c.archived (c.tryMerge.archived, c.tryMerge.nextBlockId) := by
  refine c.tryMerge_induction (P := fun bs n => Merging c.active notes c.archived (bs, n))
    ⟨hnumbered, hblank, hspan, hnotes, rfl, fun _ => rfl, fun _ _ _ _ => rfl⟩ ?_
  intro us vs left right n hleft hright hcont hbs
  exact hbs.merge hleft hright hcont

theorem active_tryMerge (c : LogCache) : c.tryMerge.active = c.active := by
  unfold tryMerge
  split <;> rfl

/-- **Merging is invisible**: the loop over all blocks stops before the active one, keeps the blocks
that are not free, and every read gets the same records before and after. -/
theorem get_tryMerge (hnumbered : Numbered c.blocks c.nextBlockId) (hactive : c.active.free = false)
    (hcont : ∀ b ∈ c.blocks, b.Contiguous) (hcount : ∀ b ∈ c.blocks, b.Counted)
    (hnotes : BlockNotesAgree c.blocks notes)
    (hblank : ∀ k, c.nextBlockId ≤ k → ∀ streamId, notes k streamId = fun _ => none) :
    (∀ left rest, c.archived = left :: rest →
      c.mergeBlocks 0 c.nextBlockId left (rest ++ [c.active]) =
        (c.tryMerge.archived ++ [c.active], c.tryMerge.nextBlockId)) ∧
    c.tryMerge.active = c.active ∧
    c.tryMerge.blocks.filter (fun b => !b.free) = c.blocks.filter (fun b => !b.free) ∧
    ∀ streamId startOffset endOffset maxBytes,
      (c.tryMerge.get notes streamId startOffset endOffset maxBytes).1 =
        (c.get notes streamId startOffset endOffset maxBytes).1 := by
  have hspan : ∀ b ∈ c.blocks, b.Spanned := fun b hb => (hcont b hb).spanned (hcount b hb)
  have h := merging_tryMerge hnumbered hspan hnotes hblank
  have hblocks : c.tryMerge.blocks = c.tryMerge.archived ++ [c.active] := by
    rw [blocks, active_tryMerge]
  refine ⟨fun left rest harch => ?_, active_tryMerge c, ?_, ?_⟩
  · rw [mergeBlocks_eq hactive, tryMerge]
    simp only [harch]
  · rw [hblocks, blocks, filter_append, filter_append, h.unfree]
  · intro streamId startOffset endOffset maxBytes
    rw [get_eq_readBlocks (by rw [hblocks]; exact h.numbered.ids) (by rw [hblocks]; exact h.spanned)
      (by rw [hblocks]; exact h.agree), get_eq_readBlocks hnumbered.ids hspan hnotes, hblocks,
      h.records]
    simp only [h.read]
    rfl

/-- Ten blocks; the first two hold a record each and are free. -/
def freeBlocksCache (second : StreamRecordBatch) : LogCache :=
  let c := ((LogCache.new 1000 1000 10).put ⟨1, 0, 0, 5, [1]⟩).1.archiveCurrentBlock.1
  let c := (c.put second).1.archiveCurrentBlock.1
  let c := Nat.iterate (fun c => c.archiveCurrentBlock.1) 7 c
  (c.setFree 0).setFree 1

theorem get_tryMerge_two_blocks :
    (freeBlocksCache ⟨1, 0, 5, 1, [2]⟩).tryMerge.archived.length = 8 ∧
    ((freeBlocksCache ⟨1, 0, 5, 1, [2]⟩).tryMerge.get (fun _ _ _ => none) 1 0 100 2).1 =
      ((freeBlocksCache ⟨1, 0, 5, 1, [2]⟩).get (fun _ _ _ => none) 1 0 100 2).1 :=
  ⟨by decide +kernel, (get_tryMerge
    ⟨by decide +kernel, by decide +kernel⟩ (by decide +kernel) (by decide +kernel)
    (by decide +kernel) (fun _ _ _ => notesAgree_empty _) (fun _ _ _ => rfl)).2.2.2 1 0 100 2⟩

/-- A record without offsets in a block of its own is found only behind the merge. -/
theorem get_tryMerge_of_empty_record :
    (∀ b ∈ (freeBlocksCache ⟨1, 0, 5, 0, [2]⟩).blocks, b.Contiguous) ∧
    ((freeBlocksCache ⟨1, 0, 5, 0, [2]⟩).get (fun _ _ _ => none) 1 0 100 2).1 = [] ∧
    ((freeBlocksCache ⟨1, 0, 5, 0, [2]⟩).tryMerge.get (fun _ _ _ => none) 1 0 100 2).1 =
      [⟨1, 0, 0, 5, [1]⟩, ⟨1, 0, 5, 0, [2]⟩] :=
  ⟨by decide +kernel, by decide +kernel, by decide +kernel⟩

end LogCache

end S3Stream
