import S3Stream.Object.Reader

/-! # Regrouping the blocks of objects

Both compactions copy the bytes of source blocks one behind the other and write one index entry
for each run of blocks. A run of segments that is contiguous and fits the 32-bit fields is again a
segment: its bytes decode to the records of the run. -/

namespace S3Stream

open List Windows
open DataBlockIndex (endOffset size startOffset)

/-- The entry of a run of blocks at position `pos`. -/
def mergedEntry (blockId : Int) (streamId pos : Nat) (run : List DataBlockIndex) :
    DataBlockIndex where
  blockId
  streamId
  startOffset := (run.head?.map startOffset).getD 0
  endOffsetDelta := asU32 ((run.getLast?.map DataBlockIndex.endOffset).getD 0 -
    (run.head?.map startOffset).getD 0)
  recordCount := asU32 (run.map DataBlockIndex.recordCount).sum
  startPosition := pos
  size := asU32 (run.map size).sum

/-- The entries of runs that lie one behind the other. -/
def mergedEntries (blockId : Nat → Int) (streamId : List DataBlockIndex → Nat) :
    Nat → Nat → List (List DataBlockIndex) → List DataBlockIndex
  | _, _, [] => []
  | i, pos, run :: runs =>
    mergedEntry (blockId i) (streamId run) pos run ::
      mergedEntries blockId streamId (i + 1) (pos + (run.map size).sum) runs

/-- The ordinals are not encoded. -/
theorem encode_mergedEntries (blockId blockId' : Nat → Int) (streamId : List DataBlockIndex → Nat)
    (i pos : Nat) (runs : List (List DataBlockIndex)) :
    (⟨mergedEntries blockId streamId i pos runs⟩ : IndexBlock).encode =
      (⟨mergedEntries blockId' streamId i pos runs⟩ : IndexBlock).encode := by
  induction runs generalizing i pos with
  | nil => rfl
  | cons run runs ih =>
    simp only [IndexBlock.encode, mergedEntries, flatMap_cons] at ih ⊢
    rw [ih]
    rfl

theorem mergedEntries_append (blockId : Nat → Int) (streamId : List DataBlockIndex → Nat)
    (i pos : Nat) (runs : List (List DataBlockIndex)) (run : List DataBlockIndex) :
    mergedEntries blockId streamId i pos (runs ++ [run]) =
      mergedEntries blockId streamId i pos runs ++
        [mergedEntry (blockId (i + runs.length)) (streamId run)
          (pos + (runs.flatten.map size).sum) run] := by
  induction runs generalizing i pos with
  | nil => simp [mergedEntries]
  | cons x runs ih =>
    have hi : i + 1 + runs.length = i + (x :: runs).length := by rw [length_cons]; omega
    rw [cons_append, mergedEntries, mergedEntries, ih, cons_append, hi]
    simp [add_assoc]

theorem streamId_of_mem_mergedEntries
    (h : e ∈ mergedEntries blockId (fun _ => streamId) i pos runs) : e.streamId = streamId := by
  induction runs generalizing i pos with
  | nil => cases h
  | cons run runs ih =>
    rcases mem_cons.mp h with rfl | h
    · rfl
    · exact ih h

namespace Segment

variable {g : Segment} {run gs : List Segment} {runs : List (List Segment)} {streamId : Nat}

def entries (gs : List Segment) : List DataBlockIndex := gs.map index

theorem flatten_map_flatMap (f : Segment → List β) (runs : List (List Segment)) :
    (runs.map (·.flatMap f)).flatten = runs.flatten.flatMap f := by
  induction runs with
  | nil => rfl
  | cons run runs ih => rw [map_cons, flatten_cons, ih, flatten_cons, flatMap_append]

theorem flatten_map_entries (runs : List (List Segment)) :
    (runs.map entries).flatten = entries runs.flatten :=
  map_flatten.symm

/-- The offset ranges of the segments tile `[a, b)`. -/
def OffsetTiles (a : Nat) (gs : List Segment) (b : Nat) : Prop :=
  Tiles startOffset endOffset a (entries gs) b

/-- A run of blocks of one stream that one entry can describe. -/
structure Mergeable (streamId : Nat) (run : List Segment) (a b : Nat) : Prop where
  ne : run ≠ []
  tiles : OffsetTiles a run b
  streamId_lt : streamId < 256 ^ 8
  size_lt : ((entries run).map size).sum < 2 ^ 32
  count_lt : ((entries run).map DataBlockIndex.recordCount).sum < 2 ^ 32
  span_lt : b - a < 2 ^ 32

theorem decode_flatMap_body (gs : List Segment) :
    decodeDataBlock (gs.flatMap body) = .ok (gs.flatMap records) := by
  induction gs with
  | nil => rfl
  | cons g gs ih =>
    exact decodeDataBlock_append g.decode_eq ih

theorem sum_size (gs : List Segment) :
    ((entries gs).map size).sum = (gs.flatMap body).length := by
  induction gs with
  | nil => rfl
  | cons g gs ih =>
    rw [flatMap_cons, length_append, ← ih, ← g.size_eq]
    simp [entries]

variable {a b : Nat}

theorem OffsetTiles.append :
    OffsetTiles a (gs ++ hs) b ↔ ∃ c, OffsetTiles a gs c ∧ OffsetTiles c hs b := by
  rw [OffsetTiles, entries, map_append]
  exact Tiles.append

theorem OffsetTiles.lt_endOffset (h : OffsetTiles a gs b) (hg : g ∈ gs) :
    a < g.index.endOffset :=
  (Tiles.bounds h (mem_map_of_mem hg)).1.trans_lt
    (Tiles.lo_lt_hi h (mem_map_of_mem hg))

theorem OffsetTiles.start_eq (h : OffsetTiles a run b) (hne : run ≠ []) :
    ((entries run).head?.map startOffset).getD 0 = a := by
  obtain ⟨g, gs, rfl⟩ := exists_cons_of_ne_nil hne
  exact h.1

theorem OffsetTiles.end_eq (h : OffsetTiles a run b) (hne : run ≠ []) :
    ((entries run).getLast?.map endOffset).getD 0 = b := by
  have hne' : entries run ≠ [] := by simpa [entries] using hne
  have hlast := getLast?_eq_some_getLast hne'
  rw [hlast]
  exact h.hi_getLast hlast

/-- Where the records of each block cover its range, the records of contiguous blocks are
contiguous. -/
theorem OffsetTiles.records_tiles (h : OffsetTiles a gs b)
    (hrecords : ∀ g ∈ gs, Tiles StreamRecordBatch.baseOffset StreamRecordBatch.lastOffset
      g.index.startOffset g.records g.index.endOffset) :
    Tiles StreamRecordBatch.baseOffset StreamRecordBatch.lastOffset a
      (gs.flatMap records) b := by
  induction gs generalizing a with
  | nil => exact h
  | cons g gs ih =>
    obtain ⟨hstart, -, hrest⟩ := h
    rw [flatMap_cons]
    exact Tiles.append.mpr ⟨_, hstart ▸ hrecords g mem_cons_self,
      ih hrest fun x hx => hrecords x (mem_cons_of_mem g hx)⟩

/-- The segment of a run. -/
def merged (h : Mergeable streamId run a b) (i pos : Nat) : Segment where
  index := mergedEntry (asI32 i) streamId pos (entries run)
  body := run.flatMap body
  records := run.flatMap records
  fits := by
    have hcast : ∀ n, asU32 n < 256 ^ 4 := fun n => Nat.mod_lt n (by norm_num)
    refine ⟨h.streamId_lt, ?_, hcast _, hcast _, hcast _⟩
    obtain ⟨g, gs, rfl⟩ := exists_cons_of_ne_nil h.ne
    simpa [mergedEntry, entries] using g.fits.2.1
  size_eq := by
    rw [← sum_size, mergedEntry, asU32_of_lt h.size_lt]
  decode_eq := decode_flatMap_body run

theorem startOffset_merged (h : Mergeable streamId run a b) (i pos : Nat) :
    (merged h i pos).index.startOffset = a :=
  h.tiles.start_eq h.ne

theorem endOffset_merged (h : Mergeable streamId run a b) (i pos : Nat) :
    (merged h i pos).index.endOffset = b := by
  have hdelta : (merged h i pos).index.endOffsetDelta = b - a := by
    simp only [merged, mergedEntry, h.tiles.start_eq h.ne, h.tiles.end_eq h.ne]
    rw [asU32_of_lt h.span_lt]
  rw [endOffset, startOffset_merged h, hdelta]
  exact Nat.add_sub_cancel' h.tiles.le

/-- Runs that one entry each can describe are the segments of an object. -/
theorem exists_merged (streamOf : List DataBlockIndex → Nat) (i pos : Nat)
    (hruns : ∀ run ∈ runs, ∃ a b, Mergeable (streamOf (entries run)) run a b) :
    ∃ gs, Laid i pos gs ∧
      entries gs = mergedEntries asI32 streamOf i pos (runs.map entries) ∧
      gs.map body = runs.map (·.flatMap body) ∧ gs.map records = runs.map (·.flatMap records) ∧
      ∀ a b, OffsetTiles a runs.flatten b → OffsetTiles a gs b := by
  induction runs generalizing i pos with
  | nil => exact ⟨[], trivial, rfl, rfl, rfl, fun a b h => h⟩
  | cons run runs ih =>
    obtain ⟨a₀, b₀, hrun⟩ := hruns run mem_cons_self
    obtain ⟨gs, hlaid, hentries, hbody, hrecords, htiles⟩ := ih (i + 1)
      (pos + ((entries run).map size).sum)
      fun x hx => hruns x (mem_cons_of_mem run hx)
    have hcons : Laid i pos (merged hrun i pos :: gs) := by
      rw [sum_size] at hlaid
      simpa only [Laid, merged, mergedEntry, true_and] using hlaid
    refine ⟨merged hrun i pos :: gs, hcons, ?_, ?_, ?_, fun a b h => ?_⟩
    · rw [map_cons, mergedEntries, ← hentries]
      rfl
    · rw [map_cons, map_cons, hbody]
      rfl
    · rw [map_cons, map_cons, hrecords]
      rfl
    · -- The first run covers the first part of the range, and is not empty.
      obtain ⟨c, hfirst, hrest⟩ := OffsetTiles.append.mp h
      obtain rfl : a₀ = a := (hrun.tiles.start_eq hrun.ne).symm.trans (hfirst.start_eq hrun.ne)
      obtain rfl : b₀ = c := (hrun.tiles.end_eq hrun.ne).symm.trans (hfirst.end_eq hrun.ne)
      have hlt : a₀ < b₀ := by
        obtain ⟨g, gs', rfl⟩ := exists_cons_of_ne_nil hrun.ne
        exact hfirst.1 ▸ hfirst.2.1.trans_le hfirst.2.2.le
      refine ⟨startOffset_merged hrun i pos, ?_, ?_⟩
      · rw [startOffset_merged, endOffset_merged]
        exact hlt
      · rw [endOffset_merged]
        exact htiles b₀ b hrest

end Segment

end S3Stream
