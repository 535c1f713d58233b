import S3Stream.Compact.Plan
import S3Stream.Core.UploadTask
import S3Stream.Lib.Intervals

/-! # The sanity check before a compaction is committed

`is_sanity_check_failed` of `s3stream-core/src/compact/mod.rs`: the ranges of the request are merged
for each stream, and every block of a compacted object has to lie in one of them, unless its stream
is gone or has been trimmed above it.

A map from streams is the function that looks a stream up. -/

namespace S3Stream

open List

/-- The fields of `StreamMetadata` that the check reads. -/
structure StreamStart where
  streamId : Nat
  startOffset : Nat
  deriving DecidableEq, Repr

/-- The last entry of a stream stays when the map is collected. -/
def streamStart (streams : List StreamStart) (streamId : Nat) : Option Nat :=
  ((streams.filter (·.streamId = streamId)).getLast?).map StreamStart.startOffset

namespace CommitStreamSetObjectRequest

/-- The ranges of a stream, as they are pushed. -/
def rangesOf (request : CommitStreamSetObjectRequest) (streamId : Nat) : List (Nat × Nat) :=
  (request.streamRanges.filter (·.streamId = streamId)).map (fun r => (r.startOffset, r.endOffset))
    ++ (request.streamObjects.filter (·.streamId = streamId)).map
      fun o => (o.startOffset, o.endOffset)

/-- The pairs are sorted by their first component, then by the second. -/
def merged (request : CommitStreamSetObjectRequest) (streamId : Nat) : List (Nat × Nat) :=
  Intervals.merge ((request.rangesOf streamId).insertionSort fun a b => toLex a ≤ toLex b)

/-- Whether the request has an offset of a stream. -/
def Has (request : CommitStreamSetObjectRequest) (streamId offset : Nat) : Prop :=
  (∃ r ∈ request.streamRanges, r.streamId = streamId ∧ r.startOffset ≤ offset ∧
    offset < r.endOffset) ∨
  ∃ o ∈ request.streamObjects, o.streamId = streamId ∧ o.startOffset ≤ offset ∧
    offset < o.endOffset

theorem contains_rangesOf {request : CommitStreamSetObjectRequest} :
    Intervals.Contains (request.rangesOf streamId) offset ↔ request.Has streamId offset := by
  rw [rangesOf, Intervals.contains_append]
  refine or_congr ?_ ?_ <;>
    simp [Intervals.Contains, and_assoc]

theorem merged_spec (request : CommitStreamSetObjectRequest) (streamId : Nat) :
    Intervals.Apart (request.merged streamId) ∧ ∀ offset,
      Intervals.Contains (request.merged streamId) offset ↔ request.Has streamId offset := by
  have htotal : Std.Total fun a b : Nat × Nat => toLex a ≤ toLex b := ⟨fun a b => le_total _ _⟩
  have htrans : IsTrans (Nat × Nat) fun a b => toLex a ≤ toLex b := ⟨fun _ _ _ => le_trans⟩
  have hsorted : ((request.rangesOf streamId).insertionSort fun a b => toLex a ≤ toLex b).Pairwise
      fun a b => a.1 ≤ b.1 := by
    refine (pairwise_insertionSort _ _).imp fun hle => ?_
    rcases Prod.Lex.le_iff.mp hle with hlt | ⟨heq, -⟩
    · exact hlt.le
    · exact heq.le
  obtain ⟨hapart, hcontains⟩ := Intervals.merge_spec hsorted
  refine ⟨hapart, fun offset => (hcontains offset).trans ?_⟩
  rw [Intervals.Contains.of_perm (perm_insertionSort _ _), contains_rangesOf]

end CommitStreamSetObjectRequest

/-- Whether a block is missing in the request. -/
def isBlockMissing (streams : List StreamStart) (request : CommitStreamSetObjectRequest)
    (block : StreamDataBlock) : Bool :=
  match streamStart streams block.streamId with
  | none => false
  | some start =>
    if block.endOffset ≤ start then false
    else !(request.merged block.streamId).any fun r =>
      r.1 ≤ block.startOffset ∧ block.endOffset ≤ r.2

def isSanityCheckFailed (streams : List StreamStart) (blockMap : BlockMap)
    (request : CommitStreamSetObjectRequest) : Bool :=
  request.compactedObjectIds.any fun objectId =>
    match blockMap.lookup objectId with
    | none => false
    | some blocks => blocks.any (isBlockMissing streams request)

/-- A block of a live stream is there when the request has its offsets. -/
theorem isBlockMissing_eq_false (hblock : block.startOffset < block.endOffset) :
    isBlockMissing streams request block = false ↔
      ∀ start, streamStart streams block.streamId = some start → start < block.endOffset →
        ∀ offset, block.startOffset ≤ offset → offset < block.endOffset →
          request.Has block.streamId offset := by
  obtain ⟨hapart, hcontains⟩ := request.merged_spec block.streamId
  have hcovers := hapart.covers_iff hblock
  simp only [hcontains] at hcovers
  unfold isBlockMissing
  cases hstart : streamStart streams block.streamId with
  | none => simp
  | some start =>
    dsimp only
    split
    · rename_i htrimmed
      refine iff_of_true rfl fun start' heq hlt => ?_
      cases heq
      omega
    · rename_i hlive
      rw [Bool.not_eq_false', any_eq_true]
      simp only [decide_eq_true_eq]
      rw [← hcovers]
      refine ⟨fun h start' _ _ => h, fun h => h start rfl (Nat.lt_of_not_le hlive)⟩

/-- **The check passes exactly when the request has every offset of every live block** of the
compacted objects. -/
theorem isSanityCheckFailed_eq_false (streams : List StreamStart) {blockMap : BlockMap}
    (request : CommitStreamSetObjectRequest)
    (hblocks : ∀ e ∈ blockMap, ∀ b ∈ e.2, b.startOffset < b.endOffset) :
    isSanityCheckFailed streams blockMap request = false ↔
      ∀ objectId ∈ request.compactedObjectIds, ∀ blocks, blockMap.lookup objectId = some blocks →
        ∀ b ∈ blocks, ∀ start, streamStart streams b.streamId = some start →
          start < b.endOffset → ∀ offset, b.startOffset ≤ offset → offset < b.endOffset →
            (∃ r ∈ request.streamRanges, r.streamId = b.streamId ∧ r.startOffset ≤ offset ∧
              offset < r.endOffset) ∨
            ∃ o ∈ request.streamObjects, o.streamId = b.streamId ∧ o.startOffset ≤ offset ∧
              offset < o.endOffset := by
  rw [isSanityCheckFailed, any_eq_false]
  refine forall₂_congr fun objectId _ => ?_
  rw [Bool.not_eq_true]
  cases hlookup : blockMap.lookup objectId with
  | none => simp
  | some blocks =>
    have hmem : (objectId, blocks) ∈ blockMap := by
      obtain ⟨before, behind, heq, -⟩ := lookup_eq_some_iff.mp hlookup
      rw [heq]
      exact mem_append_right _ mem_cons_self
    rw [any_eq_false]
    constructor
    · rintro h _ ⟨⟩ b hb
      exact (isBlockMissing_eq_false (hblocks _ hmem b hb)).mp (Bool.not_eq_true _ ▸ h b hb)
    · intro h b hb
      rw [Bool.not_eq_true]
      exact (isBlockMissing_eq_false (hblocks _ hmem b hb)).mpr (h blocks rfl b hb)

/-- A block of stream 0 that the request has in two parts, and one that it lacks of a stream that is
trimmed above it. -/
def coveredMap : BlockMap :=
  [(3, [⟨3, ⟨-1, 0, 10, 20, 1, 0, 5⟩⟩, ⟨3, ⟨-1, 1, 0, 5, 1, 5, 5⟩⟩])]

def coveringRequest : CommitStreamSetObjectRequest :=
  ⟨9, 10, ⟨0⟩, [⟨0, 0, 20, 40, 5⟩], [⟨10, 5, 0, 5, 20, ⟨0⟩⟩], [3]⟩

/-- The offsets of the block are there, so that the check passes. -/
theorem isSanityCheckFailed_eq_false_two_parts :
    isSanityCheckFailed [⟨0, 12⟩, ⟨1, 5⟩] coveredMap coveringRequest = false ∧
      coveringRequest.Has 0 29 := by
  have hpasses : isSanityCheckFailed [⟨0, 12⟩, ⟨1, 5⟩] coveredMap coveringRequest = false := by
    decide
  refine ⟨hpasses, ?_⟩
  exact (isSanityCheckFailed_eq_false [⟨0, 12⟩, ⟨1, 5⟩] coveringRequest (by decide)).mp hpasses 3
    (by decide) _ rfl _ mem_cons_self 12 rfl (by decide) 29 (by decide) (by decide)

end S3Stream
