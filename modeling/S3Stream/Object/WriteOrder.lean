import S3Stream.Object.RoundTrip

/-! # Order of the written index

`write` compares the first record of a call with the last one of the calls before it and nothing
inside the call, but blocks are cut inside it. Where the records of each call follow one another,
the index is in order whatever the thresholds. -/

namespace S3Stream

open List DataBlock

/-- Records that follow one another, with offsets below `2 ^ 64` and a span that fits the 32-bit
delta of an index entry. -/
def InOrder (records : List StreamRecordBatch) : Prop :=
  (records.Pairwise fun r r' => r.lastOffset ≤ r'.baseOffset) ∧
    (∀ r ∈ records, r.lastOffset < 2 ^ 64) ∧
    ∀ r ∈ records, ∀ r' ∈ records, r'.lastOffset - r.baseOffset < 2 ^ 32

instance (records : List StreamRecordBatch) : Decidable (InOrder records) :=
  inferInstanceAs (Decidable (_ ∧ _ ∧ _))

namespace ObjectWriter

/-- A call, the writer behind it and what it returns. -/
def writeCall (w : ObjectWriter) (x : Nat × List StreamRecordBatch) :
    ObjectWriter × Except ObjectError Unit :=
  w.write x.1 x.2

/-- Calls one after the other, refused ones among them. -/
def writeCalls (w : ObjectWriter) (calls : List (Nat × List StreamRecordBatch)) : ObjectWriter :=
  calls.foldl (fun w x => (w.writeCall x).1) w

/-- The entries `close` writes. -/
def index (w : ObjectWriter) : List DataBlockIndex := indexes (fun _ => -1) 0 0 w.blocks

theorem exists_accepted (w : ObjectWriter) (calls : List (Nat × List StreamRecordBatch)) :
    ∃ accepted, accepted.Sublist calls ∧ w.writeAll accepted = .ok (w.writeCalls calls) := by
  induction calls generalizing w with
  | nil => exact ⟨[], .slnil, rfl⟩
  | cons x calls ih =>
    obtain ⟨accepted, hsub, hall⟩ := ih (w.writeCall x).1
    have hcalls : w.writeCalls (x :: calls) = (w.write x.1 x.2).1.writeCalls calls := rfl
    rw [hcalls]
    cases hx : (w.write x.1 x.2).2 with
    | error =>
      have hall : (w.write x.1 x.2).1.writeAll accepted =
          .ok ((w.write x.1 x.2).1.writeCalls calls) := hall
      rw [write_refused hx] at hall ⊢
      exact ⟨accepted, hsub.cons x, hall⟩
    | ok =>
      refine ⟨x :: accepted, hsub.cons_cons x, ?_⟩
      rw [writeAll, show w.write x.1 x.2 = ((w.write x.1 x.2).1, .ok ()) from Prod.ext rfl hx]
      exact hall

end ObjectWriter

theorem DataBlock.map_indexes (hspan : ∀ b ∈ bs, b.startOffset ≤ b.endOffset ∧
      b.endOffset - b.startOffset < 2 ^ 32) (f : Nat → Int) (i pos : Nat) :
    (indexes f i pos bs).map (fun e => (e.streamId, e.startOffset, e.endOffset)) =
      bs.map fun b => (b.streamId, b.startOffset, b.endOffset) := by
  induction bs generalizing i pos with
  | nil => rfl
  | cons b bs ih =>
    obtain ⟨hle, hlt⟩ := hspan b mem_cons_self
    rw [indexes, map_cons, map_cons, ih fun b' hb' => hspan b' (mem_cons_of_mem b hb'),
      DataBlockIndex.endOffset, startOffset_add_delta hle hlt]

/-- Every record of a block of records in order lies inside the block's range. -/
theorem DataBlock.record_inside {streamId : Nat} (h : Unwrapped records) (hr : r ∈ records) :
    (new streamId records).startOffset ≤ r.baseOffset ∧
      r.lastOffset ≤ (new streamId records).endOffset := by
  rw [endOffset_new streamId (ne_nil_of_mem hr) h.2]
  obtain ⟨before, after, rfl⟩ := append_of_mem hr
  obtain ⟨-, hafter, hcross⟩ := pairwise_append.mp h.1
  constructor
  · cases before with
    | nil => exact le_rfl
    | cons x =>
      exact x.baseOffset_le_lastOffset.trans (hcross x mem_cons_self r mem_cons_self)
  · rcases eq_nil_or_concat' after with rfl | ⟨mid, z, rfl⟩
    · simp
    · have hz := (pairwise_cons.mp hafter).1 z (by simp)
      have hlast : (before ++ r :: (mid ++ [z])).getLast (by simp) = z := by simp
      rw [hlast]
      exact hz.trans z.baseOffset_le_lastOffset

/-- **The written index is in order**, and a refused call changes nothing. -/
theorem ObjectWriter.index_in_order {objectId blockSizeThreshold partSizeThreshold : Nat}
    {calls : List (Nat × List StreamRecordBatch)} {w : ObjectWriter}
    (hcalls : ∀ x ∈ calls, InOrder x.2)
    (hw : (open_ objectId blockSizeThreshold partSizeThreshold).writeCalls calls = w) :
    (w.index.Pairwise fun e e' => e.streamId < e'.streamId ∨
      (e.streamId = e'.streamId ∧ e.startOffset ≤ e'.startOffset ∧
        e.endOffset ≤ e'.startOffset)) ∧
    (∃ groups : List (Nat × List StreamRecordBatch),
      w.blocks = groups.map (fun g => DataBlock.new g.1 g.2) ∧
      w.index.length = groups.length ∧
      ∀ (i : Nat) (e : DataBlockIndex) (g : Nat × List StreamRecordBatch),
        w.index[i]? = some e → groups[i]? = some g → e.streamId = g.1 ∧
        e.startOffset ≤ e.endOffset ∧ e.endOffset = (DataBlock.new g.1 g.2).endOffset ∧
        e.endOffset < 2 ^ 64 ∧
        ∀ r ∈ g.2, e.startOffset ≤ r.baseOffset ∧ r.lastOffset ≤ e.endOffset) ∧
    ∀ x e, (w.writeCall x).2 = .error e → (w.writeCall x).1 = w := by
  obtain ⟨accepted, hsub, hall⟩ := exists_accepted
    (open_ objectId blockSizeThreshold partSizeThreshold) calls
  rw [hw] at hall
  have haccepted : ∀ x ∈ accepted, InOrder x.2 := fun x hx => hcalls x (hsub.subset hx)
  have hcalls : ∀ x ∈ accepted, Unwrapped x.2 := fun x hx =>
    ⟨(haccepted x hx).1, (haccepted x hx).2.1⟩
  have hopen := written_open_ objectId blockSizeThreshold partSizeThreshold
  obtain ⟨groups, hwritten, hfrom⟩ := hopen.writeAll hall
  have horder := hopen.ordered hall .nil hcalls
  rw [nil_append] at horder
  rw [nil_append, nil_append] at hwritten
  have hunwrapped : ∀ g ∈ groups, Unwrapped g.2 := fun g hg =>
    hwritten.group_unwrapped horder hcalls hg
  have hspan : ∀ g ∈ groups, (new g.1 g.2).startOffset ≤
      (new g.1 g.2).endOffset := fun g hg =>
    startOffset_le_endOffset (hwritten.group_ne g hg) (hunwrapped g hg)
  have hbounds : ∀ g ∈ groups, (new g.1 g.2).endOffset < 2 ^ 64 ∧
      (new g.1 g.2).endOffset - (new g.1 g.2).startOffset < 2 ^ 32 := by
    intro g hg
    obtain ⟨x, hx, hin⟩ := hfrom g hg
    have hne := hwritten.group_ne g hg
    have hstart : (new g.1 g.2).startOffset = (g.2.head hne).baseOffset := by
      simp [new, head?_eq_some_head hne]
    rw [hstart, endOffset_new g.1 hne (hunwrapped g hg).2]
    exact ⟨(hunwrapped g hg).2 _ (getLast_mem hne), (haccepted x hx).2.2 _
      (hin _ (head_mem hne)) _ (hin _ (getLast_mem hne))⟩
  have hview : w.index.map (fun e => (e.streamId, e.startOffset, e.endOffset)) =
      groups.map fun g => (g.1, (new g.1 g.2).startOffset,
        (new g.1 g.2).endOffset) := by
    rw [index, hwritten.blocks_eq, map_indexes, map_map]
    · rfl
    · intro b hb
      obtain ⟨g, hg, rfl⟩ := mem_map.mp hb
      exact ⟨hspan g hg, (hbounds g hg).2⟩
  refine ⟨?_, ⟨groups, hwritten.blocks_eq, ?_, fun i e g he hg => ?_⟩, fun x e hx => ?_⟩
  · have hpairs : (groups.map fun g => (g.1, (new g.1 g.2).startOffset,
        (new g.1 g.2).endOffset)).Pairwise fun v v' =>
          v.1 < v'.1 ∨ (v.1 = v'.1 ∧ v.2.1 ≤ v'.2.1 ∧ v.2.2 ≤ v'.2.1) :=
      pairwise_map.mpr (pairwise_map.mp (hwritten.pairwise_groupView horder hunwrapped))
    rw [← hview] at hpairs
    exact pairwise_map.mp hpairs
  · rw [index, length_indexes, hwritten.blocks_eq, length_map]
  · have hi := congrArg (·[i]?) hview
    simp only [getElem?_map, he, hg, Option.map_some, Option.some.injEq, Prod.mk.injEq] at hi
    obtain ⟨hstream, hstart, hend⟩ := hi
    have hmem := mem_of_getElem? hg
    rw [hstart, hend]
    exact ⟨hstream, hspan g hmem, rfl, (hbounds g hmem).1,
      fun r hr => record_inside (hunwrapped g hmem) hr⟩
  · exact write_refused hx

/-- Two calls for one stream, the second one refused, and a call for the next stream. -/
theorem ObjectWriter.index_in_order_three_calls :
    let calls : List (Nat × List StreamRecordBatch) :=
      [(1, [⟨1, 0, 0, 2, [7]⟩, ⟨1, 0, 2, 1, []⟩]), (1, [⟨1, 0, 1, 1, []⟩]), (4, [⟨4, 0, 0, 1, []⟩])]
    let w := (open_ 7 0 0).writeCalls calls
    w.index.length = 3 ∧ (w.writeCall (1, [⟨1, 0, 1, 1, []⟩])).1 = w ∧
      ∃ groups : List (Nat × List StreamRecordBatch),
        w.blocks = groups.map fun g => new g.1 g.2 := by
  intro calls w
  obtain ⟨-, ⟨groups, hblocks, -⟩, hrefused⟩ := @index_in_order 7 0 0 calls w
    (by decide) rfl
  exact ⟨by decide, hrefused _ _ rfl, groups, hblocks⟩

/-- A block for each record, and the records of the one call go back. -/
theorem ObjectWriter.disorder_inside_a_call :
    let w := (open_ 7 0 0).writeCalls [(1, [⟨1, 0, 10, 10, []⟩, ⟨1, 0, 0, 5, []⟩])]
    ((open_ 7 0 0).writeCall (1, [⟨1, 0, 10, 10, []⟩, ⟨1, 0, 0, 5, []⟩])).2 = .ok () ∧
      w.index.map DataBlockIndex.startOffset = [10, 0] ∧
      ¬ w.index.Pairwise fun e e' => e.streamId < e'.streamId ∨
        (e.streamId = e'.streamId ∧ e.startOffset ≤ e'.startOffset ∧
          e.endOffset ≤ e'.startOffset) := by
  decide +kernel

end S3Stream
