import Mathlib.Data.List.TakeWhile
import S3Stream.Lib.BinarySearch
import S3Stream.Lib.Windows
import S3Stream.Object.Index

/-! # What an index lookup answers

`IndexBlock::find` of `s3stream-object/src/index.rs` against a description of its answer: the blocks
of the stream from the one that contains the start offset, as long as they follow one another, cut
behind the first block at which the end is reached or the byte budget is used up. -/

namespace S3Stream

open List Windows

/-! ## The answer -/

namespace IndexBlock

/-- The index of an object: sorted by stream and start offset, no two blocks overlap, and none is
empty. -/
structure Ordered (entries : List DataBlockIndex) : Prop where
  sorted : entries.Pairwise fun x y =>
    x.streamId < y.streamId ∨ (x.streamId = y.streamId ∧ x.startOffset ≤ y.startOffset)
  apart : entries.Pairwise fun x y =>
    x.streamId = y.streamId → x.endOffset ≤ y.startOffset ∨ y.endOffset ≤ x.startOffset
  nonempty : ∀ e ∈ entries, e.startOffset < e.endOffset

def contains (streamId offset : Nat) (e : DataBlockIndex) : Bool :=
  decide (e.streamId = streamId ∧ e.startOffset ≤ offset ∧ offset < e.endOffset)

/-- The blocks from the one that contains the offset, as long as they follow one another. -/
def runFrom (entries : List DataBlockIndex) (streamId startOffset : Nat) : List DataBlockIndex :=
  contiguousRun DataBlockIndex.startOffset DataBlockIndex.endOffset
    ((entries.filter (·.streamId = streamId)).dropWhile (!contains streamId startOffset ·))

/-- The bytes that blocks are charged with: a partial first block is free. -/
def charged (startOffset : Nat) : List DataBlockIndex → Nat
  | [] => 0
  | e :: es =>
    (if e.startOffset = startOffset then recordPayloadSize e else 0) +
      (es.map recordPayloadSize).sum

def reachedOffset (startOffset : Nat) (blocks : List DataBlockIndex) : Nat :=
  (blocks.getLast?.map DataBlockIndex.endOffset).getD startOffset

/-- Whether blocks are all that is asked for. -/
def enough (startOffset endOffset maxBytes : Nat) (blocks : List DataBlockIndex) : Bool :=
  decide ((endOffset ≠ noopOffset ∧ endOffset ≤ reachedOffset startOffset blocks) ∨
    maxBytes ≤ charged startOffset blocks)

def answer (startOffset maxBytes : Nat) (fulfilled : Bool) (blocks : List DataBlockIndex) :
    FindIndexResult :=
  ⟨fulfilled, reachedOffset startOffset blocks, maxBytes - charged startOffset blocks, blocks⟩

/-- The shortest part of a run that is enough, or all of it. -/
def cutRun (startOffset endOffset maxBytes : Nat) (run : List DataBlockIndex) : FindIndexResult :=
  match run.inits.tail.find? (enough startOffset endOffset maxBytes) with
  | some blocks => answer startOffset maxBytes true blocks
  | none => answer startOffset maxBytes false run

/-- The answer of a lookup, by its purpose. -/
def referenceFind (b : IndexBlock) (streamId startOffset endOffset maxBytes : Nat) :
    FindIndexResult :=
  cutRun startOffset endOffset maxBytes (runFrom b.entries streamId startOffset)

/-! ## The search -/

/-- Where the offset lies, seen from a block. -/
def compareTo (streamId offset : Nat) (e : DataBlockIndex) : Ordering :=
  if e.streamId < streamId ∨ (e.streamId = streamId ∧ e.endOffset ≤ offset) then .lt
  else if streamId < e.streamId ∨ (e.streamId = streamId ∧ offset < e.startOffset) then .gt
  else .eq

theorem compareTo_eq_eq :
    compareTo streamId offset e = .eq ↔ contains streamId offset e = true := by
  unfold compareTo contains
  rw [decide_eq_true_iff]
  split
  · simp only [reduceCtorEq, false_iff]
    omega
  · split
    · simp only [reduceCtorEq, false_iff]
      omega
    · simp only [true_iff]
      omega

/-- One block lies before another. -/
def Before (x y : DataBlockIndex) : Prop :=
  x.streamId < y.streamId ∨ (x.streamId = y.streamId ∧ x.endOffset ≤ y.startOffset)

theorem Ordered.before {entries : List DataBlockIndex} (h : Ordered entries) :
    entries.Pairwise Before := by
  refine (h.sorted.and h.apart).imp_of_mem fun {x y} hx hy hxy => ?_
  have hpos := h.nonempty y hy
  rcases hxy.1 with hlt | ⟨heq, hle⟩
  · exact .inl hlt
  · rcases hxy.2 heq with hle' | hle'
    · exact .inr ⟨heq, hle'⟩
    · omega

theorem Ordered.rises {entries : List DataBlockIndex} (h : Ordered entries)
    (streamId offset : Nat) : BinarySearch.Rises (compareTo streamId offset) entries := by
  refine h.before.imp_of_mem fun {x y} hx hy hxy => ?_
  have hypos := h.nonempty y hy
  unfold Before at hxy
  unfold compareTo
  constructor <;> intro hcmp <;> split_ifs at hcmp ⊢ <;> first | rfl | omega

theorem searchLoop_eq (entries : List DataBlockIndex) (streamId offset fuel lo hi : Nat) :
    searchLoop entries streamId offset fuel lo hi =
      BinarySearch.search (fun lo hi => (lo + (hi - 1)) / 2) (compareTo streamId offset) entries
        fuel lo hi := by
  induction fuel generalizing lo hi with
  | zero => rfl
  | succ fuel ih =>
    rw [searchLoop, BinarySearch.search]
    dsimp only
    cases entries[(lo + (hi - 1)) / 2]? with
    | none => rfl
    | some =>
      simp only [compareTo, ih]
      split_ifs <;> rfl

/-- The search finds the block that contains the offset, if there is one. -/
theorem Ordered.search_cases {b : IndexBlock} (h : Ordered b.entries) (streamId offset : Nat) :
    (∃ i before e after, b.search streamId offset = .ok i ∧ b.entries = before ++ e :: after ∧
      i = before.length ∧ contains streamId offset e = true) ∨
    (∃ i, b.search streamId offset = .error i ∧
      ∀ e ∈ b.entries, contains streamId offset e = false) := by
  have hmid : BinarySearch.Inside fun lo hi => (lo + (hi - 1)) / 2 := by
    intro lo hi hlt
    dsimp only
    omega
  have hanswers := BinarySearch.search_all hmid (h.rises streamId offset)
  rw [← searchLoop_eq] at hanswers
  change BinarySearch.Answers _ _ (b.search streamId offset) at hanswers
  cases hsearch : b.search streamId offset with
  | ok i =>
    rw [hsearch] at hanswers
    obtain ⟨hget, heq⟩ := hanswers
    obtain ⟨hi, rfl⟩ := List.getElem?_eq_some_iff.mp hget
    refine .inl ⟨i, b.entries.take i, b.entries[i], b.entries.drop (i + 1), rfl, ?_, ?_,
      compareTo_eq_eq.mp heq⟩
    · rw [← drop_eq_getElem_cons hi, take_append_drop]
    · rw [length_take, min_eq_left hi.le]
  | error i =>
    rw [hsearch] at hanswers
    obtain - | ⟨hnone⟩ := hanswers
    refine .inr ⟨i, rfl, fun e he => ?_⟩
    exact Bool.eq_false_iff.mpr fun hc => hnone e he (compareTo_eq_eq.mpr hc)

/-! ## The scan -/

section Scan
variable {streamId startOffset endOffset maxBytes : Nat} {done es : List DataBlockIndex}
  {e : DataBlockIndex} {matched : Bool}

theorem reachedOffset_concat (startOffset : Nat) (done : List DataBlockIndex) (e : DataBlockIndex) :
    reachedOffset startOffset (done ++ [e]) = e.endOffset := by
  simp [reachedOffset]

theorem charged_concat (h : done = [] ∨ reachedOffset startOffset done = e.startOffset) :
    charged startOffset (done ++ [e]) = charged startOffset done +
      if reachedOffset startOffset done = e.startOffset then recordPayloadSize e else 0 := by
  cases done with
  | nil =>
    have hstart : reachedOffset startOffset [] = startOffset := rfl
    rw [hstart, nil_append, charged, charged, map_nil, sum_nil, add_zero, zero_add]
    simp only [eq_comm]
  | cons =>
    rw [if_pos (h.resolve_left (cons_ne_nil _ _)), cons_append, charged, charged,
      map_append, sum_append, map_singleton, sum_singleton, add_assoc]

theorem findLoop_take (hstream : e.streamId = streamId)
    (hle : e.startOffset ≤ reachedOffset startOffset done)
    (hlt : reachedOffset startOffset done < e.endOffset)
    (hnext : done = [] ∨ reachedOffset startOffset done = e.startOffset) :
    findLoop streamId endOffset (e :: es) matched (answer startOffset maxBytes false done) =
      if enough startOffset endOffset maxBytes (done ++ [e]) then
        answer startOffset maxBytes true (done ++ [e])
      else findLoop streamId endOffset es (decide (reachedOffset startOffset done = e.startOffset))
        (answer startOffset maxBytes false (done ++ [e])) := by
  have hbudget : (if decide (reachedOffset startOffset done = e.startOffset) = true then
      maxBytes - charged startOffset done -
        min (maxBytes - charged startOffset done) (recordPayloadSize e)
      else maxBytes - charged startOffset done) = maxBytes - charged startOffset (done ++ [e]) := by
    rw [charged_concat hnext]
    simp only [decide_eq_true_iff]
    split <;> omega
  have hanswer : ∀ fulfilled,
      (⟨fulfilled, e.endOffset, maxBytes - charged startOffset (done ++ [e]), done ++ [e]⟩ :
        FindIndexResult) = answer startOffset maxBytes fulfilled (done ++ [e]) := by
    intro fulfilled
    rw [answer, reachedOffset_concat]
  rw [show answer startOffset maxBytes false done = ⟨false, reachedOffset startOffset done,
    maxBytes - charged startOffset done, done⟩ from rfl, findLoop, if_pos hstream,
    if_neg (not_lt.mpr hle), if_neg (not_le.mpr hlt)]
  dsimp only
  rw [hbudget, ← hanswer, ← hanswer]
  refine if_congr ?_ rfl rfl
  rw [enough, decide_eq_true_iff, reachedOffset_concat, Nat.sub_eq_zero_iff_le]

theorem tail_inits_cons (x : α) (xs : List α) :
    (x :: xs).inits.tail = [x] :: xs.inits.tail.map (x :: ·) := by
  cases xs <;> simp

/-- The cut of a run of which the first blocks, taken already, are not enough. -/
def cutAfter (startOffset endOffset maxBytes : Nat) (done more : List DataBlockIndex) :
    FindIndexResult :=
  match (more.inits.tail.map (done ++ ·)).find? (enough startOffset endOffset maxBytes) with
  | some blocks => answer startOffset maxBytes true blocks
  | none => answer startOffset maxBytes false (done ++ more)

theorem cutAfter_nil : cutAfter startOffset endOffset maxBytes done [] =
    answer startOffset maxBytes false done := by
  rw [cutAfter, append_nil]
  rfl

theorem cutAfter_cons (more : List DataBlockIndex) :
    cutAfter startOffset endOffset maxBytes done (e :: more) =
      if enough startOffset endOffset maxBytes (done ++ [e]) then
        answer startOffset maxBytes true (done ++ [e])
      else cutAfter startOffset endOffset maxBytes (done ++ [e]) more := by
  have hmap : more.inits.tail.map ((done ++ ·) ∘ (e :: ·)) =
      more.inits.tail.map (done ++ [e] ++ ·) := by
    refine map_congr_left fun xs _ => ?_
    rw [append_assoc]
    rfl
  rw [cutAfter, tail_inits_cons, map_cons, find?_cons, map_map, hmap, cutAfter]
  cases enough startOffset endOffset maxBytes (done ++ [e]) with
  | true => rfl
  | false =>
    rw [append_assoc]
    rfl

/-- **The scan** behind blocks that were taken: it goes through the blocks that follow them. -/
theorem findLoop_eq (hne : done ≠ []) (hbefore : es.Pairwise Before)
    (hpos : ∀ x ∈ es, x.startOffset < x.endOffset)
    (hbehind : ∀ x ∈ es, streamId < x.streamId ∨
      (x.streamId = streamId ∧ reachedOffset startOffset done ≤ x.startOffset)) :
    findLoop streamId endOffset es matched (answer startOffset maxBytes false done) =
      cutAfter startOffset endOffset maxBytes done
        (contiguousAfter DataBlockIndex.startOffset DataBlockIndex.endOffset
          (reachedOffset startOffset done) (es.filter (·.streamId = streamId))) := by
  induction es generalizing done matched with
  | nil => exact cutAfter_nil.symm
  | cons e es ih =>
    obtain ⟨hfirst, hbefore⟩ := pairwise_cons.mp hbefore
    obtain ⟨he, hpos⟩ := forall_mem_cons.mp hpos
    obtain ⟨hebehind, hesbehind⟩ := forall_mem_cons.mp hbehind
    by_cases hstream : e.streamId = streamId
    · have hle := (hebehind.resolve_left (by omega)).2
      rw [filter_cons_of_pos (by simpa using hstream), contiguousAfter]
      rcases lt_or_eq_of_le hle with hgap | hnext
      · -- A gap ends the scan.
        have hgap' : (answer startOffset maxBytes false done).nextStartOffset <
            e.startOffset := hgap
        rw [findLoop, if_pos hstream, if_pos hgap', if_pos hgap.ne', cutAfter_nil]
      · rw [if_neg (not_not.mpr hnext.symm), cutAfter_cons,
          findLoop_take hstream hnext.ge (hnext.trans_lt he) (.inr hnext)]
        refine if_congr Iff.rfl rfl ?_
        have hrest := @ih (done ++ [e]) (decide (reachedOffset startOffset done = e.startOffset))
          (append_ne_nil_of_right_ne_nil _ (cons_ne_nil _ _)) hbefore hpos fun x hx => ?_
        · rw [reachedOffset_concat] at hrest
          exact hrest
        · rw [reachedOffset_concat]
          have hx' := hfirst x hx
          unfold Before at hx'
          omega
    · -- The streams behind this one are greater than the one that is looked for.
      have hlt : streamId < e.streamId := hebehind.resolve_right fun h => hstream h.1
      rw [findLoop, if_neg hstream, filter_cons_of_neg (by simpa using hstream)]
      cases matched with
      | true =>
        have hnone : es.filter (·.streamId = streamId) = [] := by
          refine filter_eq_nil_iff.mpr fun x hx => ?_
          have hx' := hfirst x hx
          unfold Before at hx'
          simp only [decide_eq_true_iff]
          omega
        rw [hnone]
        exact cutAfter_nil.symm
      | false => exact ih hne hbefore hpos hesbehind

theorem cutAfter_nil_left (run : List DataBlockIndex) :
    cutAfter startOffset endOffset maxBytes [] run = cutRun startOffset endOffset maxBytes run := by
  rw [cutRun, cutAfter]
  simp only [nil_append, map_id']

theorem findLoop_first (he : contains streamId startOffset e = true)
    (hbefore : (e :: es).Pairwise Before) (hpos : ∀ x ∈ es, x.startOffset < x.endOffset) :
    findLoop streamId endOffset (e :: es) matched (answer startOffset maxBytes false []) =
      cutRun startOffset endOffset maxBytes (e ::
        contiguousAfter DataBlockIndex.startOffset DataBlockIndex.endOffset e.endOffset
          (es.filter (·.streamId = streamId))) := by
  obtain ⟨hstream, hle, hlt⟩ := of_decide_eq_true he
  obtain ⟨hbehind, hes⟩ := pairwise_cons.mp hbefore
  have hstart : reachedOffset startOffset [] = startOffset := rfl
  have hreached := reachedOffset_concat startOffset [] e
  rw [findLoop_take hstream (hle.trans_eq hstart.symm) (hstart.trans_lt hlt) (.inl rfl),
    ← cutAfter_nil_left, cutAfter_cons]
  refine if_congr Iff.rfl rfl ?_
  rw [nil_append] at hreached ⊢
  rw [findLoop_eq (cons_ne_nil _ _) hes hpos, hreached]
  intro x hx
  have hxe := hbehind x hx
  unfold Before at hxe
  omega

end Scan

theorem runFrom_eq {after : List DataBlockIndex}
    (hbefore : ∀ x ∈ before, contains streamId startOffset x = false)
    (he : contains streamId startOffset e = true) :
    runFrom (before ++ e :: after) streamId startOffset =
      e :: contiguousAfter DataBlockIndex.startOffset DataBlockIndex.endOffset e.endOffset
        (after.filter (·.streamId = streamId)) := by
  have hstream := (of_decide_eq_true he).1
  rw [runFrom, filter_append, dropWhile_append_of_pos, filter_cons_of_pos
    (by simpa using hstream), dropWhile_cons_of_neg (by simpa using he), contiguousRun]
  intro x hx
  rw [hbefore x (mem_of_mem_filter hx)]
  rfl

/-- **Index lookup.** In an ordered index every lookup gives the answer that its purpose
describes. -/
theorem find_eq_referenceFind {b : IndexBlock} (h : Ordered b.entries)
    (streamId startOffset endOffset maxBytes : Nat) :
    b.find streamId startOffset endOffset maxBytes =
      b.referenceFind streamId startOffset endOffset maxBytes := by
  rcases h.search_cases streamId startOffset with
    ⟨i, before, e, after, hsearch, hentries, rfl, he⟩ | ⟨i, hsearch, hnone⟩
  · have hall := h.before
    have hpos := h.nonempty
    rw [hentries] at hall hpos
    obtain ⟨-, hrest, hfront⟩ := pairwise_append.mp hall
    have hbefore : ∀ x ∈ before, contains streamId startOffset x = false := by
      refine fun x hx => decide_eq_false fun hx' => ?_
      have hxe := hfront x hx e mem_cons_self
      have he' := of_decide_eq_true he
      unfold Before at hxe
      omega
    have hempty : (⟨false, startOffset, maxBytes, []⟩ : FindIndexResult) =
        answer startOffset maxBytes false [] := rfl
    rw [find, hsearch, referenceFind, hentries, runFrom_eq hbefore he]
    dsimp only
    rw [drop_left, hempty]
    exact findLoop_first he hrest fun x hx =>
      hpos x (mem_append_right _ (mem_cons_of_mem _ hx))
  · have hrun : runFrom b.entries streamId startOffset = [] := by
      have hdrop : (b.entries.filter (·.streamId = streamId)).dropWhile
          (!contains streamId startOffset ·) = [] := by
        refine dropWhile_eq_nil_iff.mpr fun x hx => ?_
        rw [hnone x (mem_of_mem_filter hx)]
        rfl
      rw [runFrom, hdrop]
      rfl
    rw [find, hsearch, referenceFind, hrun]
    rfl

/-- A partial first block is free; the run ends at a gap, before the end is reached. -/
theorem find_eq_referenceFind_gap : ∃ b : IndexBlock, Ordered b.entries ∧
    b.entries.map (fun e => (e.streamId, e.startOffset, e.endOffset)) =
      [(1, 0, 10), (2, 5, 10), (2, 10, 15), (2, 20, 25)] ∧
    (b.find 2 7 30 1000).blocks.map DataBlockIndex.blockId = [1, 2] ∧
    b.find 2 7 30 1000 = b.referenceFind 2 7 30 1000 ∧
    (b.find 2 7 30 1000).fulfilled = false ∧ (b.find 2 7 30 1000).nextMaxBytes = 983 := by
  have h : Ordered [⟨0, 1, 0, 10, 1, 0, 100⟩, ⟨1, 2, 5, 5, 1, 100, 60⟩, ⟨2, 2, 10, 5, 1, 160, 60⟩,
      ⟨3, 2, 20, 5, 1, 220, 60⟩] := ⟨by decide, by decide, by decide⟩
  exact ⟨⟨_⟩, h, rfl, by decide, find_eq_referenceFind h 2 7 30 1000, by decide, by decide⟩

end IndexBlock

end S3Stream
