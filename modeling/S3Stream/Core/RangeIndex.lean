import Mathlib.Data.List.DropRight

/-! # Sparse range indexes

`SparseRangeIndex` of `s3stream-core/src/index.rs`: the ranges of one stream in the stream set
objects of a node, sparse behind evictions. Sizes are naturals; an operation returns the change of
its size as the source does. -/

namespace S3Stream

open List

structure RangeIndex where
  startOffset : Nat
  endOffset : Nat
  objectId : Nat
  deriving DecidableEq, Repr

def RangeIndex.objectSize : Nat := 3 * 8 + 16

/-- The order of start offsets. -/
def RangeIndex.StartLe (r r' : RangeIndex) : Prop := r.startOffset ≤ r'.startOffset

structure SparseRangeIndex where
  compactNum : Nat
  ranges : List RangeIndex
  size : Nat
  evictIndex : Nat
  deriving DecidableEq, Repr

open RangeIndex

namespace SparseRangeIndex

def withRanges (compactNum : Nat) (ranges : List RangeIndex) : SparseRangeIndex :=
  ⟨compactNum, ranges, ranges.length * objectSize, 0⟩

def new (compactNum : Nat) : SparseRangeIndex := withRanges compactNum []

def append (s : SparseRangeIndex) (range : RangeIndex) : SparseRangeIndex × Int :=
  if s.ranges.getLast?.any fun last => range.startOffset ≤ last.startOffset then
    ({ s with ranges := [range], size := objectSize, evictIndex := 0 }, objectSize - s.size)
  else ({ s with ranges := s.ranges ++ [range], size := s.size + objectSize }, objectSize)

/-- The loop of `compact`; a new range that is inserted is not inserted again. -/
def compactLoop (ids : List Nat) : Option RangeIndex → List RangeIndex → List RangeIndex
  | new, [] => new.toList
  | new, range :: ranges =>
    if range.objectId ∈ ids then compactLoop ids new ranges
    else if new.any fun new => new.startOffset < range.startOffset then
      new.toList ++ range :: compactLoop ids none ranges
    else range :: compactLoop ids new ranges

def compact (s : SparseRangeIndex) (new : Option RangeIndex) (ids : List Nat) :
    SparseRangeIndex × Int :=
  if ids.isEmpty then
    match new with
    | some range => s.append range
    | none => (s, 0)
  else
    let ranges := compactLoop ids new s.ranges
    ({ s with ranges, size := ranges.length * objectSize, evictIndex := 0 },
      (ranges.length * objectSize : Nat) - s.size)

/-- `ranges.remove(i)`. -/
def remove (s : SparseRangeIndex) (i : Nat) : SparseRangeIndex :=
  { s with ranges := s.ranges.eraseIdx i, size := s.size - objectSize }

/-- The eviction cursor, set back when it has come to the protected end. -/
def cursor (s : SparseRangeIndex) : Nat :=
  if s.ranges.length ∣ s.evictIndex ∨ s.ranges.length - s.compactNum ≤ s.evictIndex then 1
  else s.evictIndex

def evictOnce (s : SparseRangeIndex) : SparseRangeIndex × Nat :=
  if s.ranges.length = 0 then (s, 0)
  else if s.ranges.length = 1 then (s.remove 0, objectSize)
  else if s.ranges.length ≤ 1 + s.compactNum then (s.remove 1, objectSize)
  else ({ s.remove s.cursor with evictIndex := s.cursor + 1 }, objectSize)

def evictTimes : Nat → SparseRangeIndex → SparseRangeIndex
  | 0, s => s
  | k + 1, s => evictTimes k s.evictOnce.1

end SparseRangeIndex

/-- `binary_search_by` on a sorted slice: the position of an equal start, or where it would be. Of
equal ones it may find any; here it is the first. -/
def binarySearchBy (startOffset : Nat) (ranges : List RangeIndex) : Except Nat Nat :=
  let i := (ranges.takeWhile (·.startOffset < startOffset)).length
  if ranges[i]?.any fun r => r.startOffset = startOffset then .ok i else .error i

def binarySearchObjectId (startOffset : Nat) (ranges : List RangeIndex) : Option Nat :=
  if ranges.isEmpty then none
  else
    match binarySearchBy startOffset ranges with
    | .ok i => ranges[min i (ranges.length - 1)]?.map objectId
    | .error 0 => none
    | .error (i + 1) => ranges[min i (ranges.length - 1)]?.map objectId

/-! ## Operations on one list -/

namespace SparseRangeIndex

variable {s : SparseRangeIndex} {new : Option RangeIndex} {ids : List Nat}
  {ranges : List RangeIndex} {r : RangeIndex}

/-- What the cache keeps of a stream. -/
structure Sound (s : SparseRangeIndex) : Prop where
  size : s.size = s.ranges.length * objectSize
  sorted : s.ranges.Pairwise StartLe

theorem Sound.withRanges (compactNum : Nat) (h : ranges.Pairwise StartLe) :
    (withRanges compactNum ranges).Sound := ⟨rfl, h⟩

theorem Sound.append (h : s.Sound) (r : RangeIndex) :
    (s.append r).1.Sound ∧ (s.append r).2 = (s.append r).1.size - s.size := by
  rw [SparseRangeIndex.append]
  split
  next => exact ⟨⟨(Nat.one_mul _).symm, pairwise_singleton _ _⟩, rfl⟩
  next hlast =>
    refine ⟨⟨?_, pairwise_append.mpr ⟨h.sorted, pairwise_singleton _ _, ?_⟩⟩, ?_⟩
    · rw [length_append, length_singleton, Nat.succ_mul, ← h.size]
    · intro x hx y hy
      obtain rfl := mem_singleton.mp hy
      -- Every range starts at or before the last one, which starts before the new one.
      obtain ⟨init, last, hsplit⟩ := (eq_nil_or_concat' s.ranges).resolve_left (ne_nil_of_mem hx)
      have hsorted := h.sorted
      rw [hsplit] at hlast hx hsorted
      rw [getLast?_concat, Option.any_some, decide_eq_true_eq, not_le] at hlast
      rcases mem_append.mp hx with hx | hx
      · exact ((pairwise_append.mp hsorted).2.2 x hx last (mem_singleton.mpr rfl)).trans hlast.le
      · obtain rfl := mem_singleton.mp hx
        exact hlast.le
    · show (objectSize : Int) = (s.size + objectSize : Nat) - s.size
      omega

theorem mem_ranges_append (h : r ∈ (s.append r').1.ranges) : r ∈ s.ranges ∨ r = r' := by
  rw [SparseRangeIndex.append] at h
  split at h
  · exact .inr (mem_singleton.mp h)
  · exact (mem_append.mp h).imp_right mem_singleton.mp

/-- The ranges of compacted objects are gone and the new one is there. -/
theorem perm_compactLoop (ids : List Nat) (new : Option RangeIndex) (ranges : List RangeIndex) :
    compactLoop ids new ranges ~ new.toList ++ ranges.filter (·.objectId ∉ ids) := by
  induction ranges generalizing new with
  | nil => simp [compactLoop]
  | cons range ranges ih =>
    rw [compactLoop]
    split
    next hmem =>
      rw [filter_cons_of_neg (by simpa using hmem)]
      exact ih new
    next hmem =>
      rw [filter_cons_of_pos (by simpa using hmem)]
      split
      · exact (((ih none).cons range).append_left _)
      · exact ((ih new).cons range).trans perm_middle.symm

theorem mem_compactLoop : r ∈ compactLoop ids new ranges ↔
    new = some r ∨ r ∈ ranges ∧ r.objectId ∉ ids := by
  rw [(perm_compactLoop ids new ranges).mem_iff, mem_append, Option.mem_toList,
    mem_filter, decide_eq_true_eq]

theorem sorted_compactLoop (h : ranges.Pairwise StartLe) :
    (compactLoop ids new ranges).Pairwise StartLe := by
  induction ranges generalizing new with
  | nil =>
    cases new
    · exact .nil
    · exact pairwise_singleton _ _
  | cons range ranges ih =>
    obtain ⟨hle, hrest⟩ := pairwise_cons.mp h
    have hkept : ∀ r ∈ compactLoop ids none ranges, range.StartLe r := by
      intro r hr
      rcases mem_compactLoop.mp hr with hr | ⟨hr, -⟩
      · cases hr
      · exact hle r hr
    rw [compactLoop]
    split
    · exact ih hrest
    split
    next hlt =>
      obtain ⟨r, rfl, hlt⟩ := (Option.any_eq_true _ _).mp hlt
      have hlt : r.startOffset ≤ range.startOffset := (of_decide_eq_true hlt).le
      refine .cons (fun x hx => ?_) (.cons hkept (ih hrest))
      rcases mem_cons.mp hx with rfl | hx
      · exact hlt
      · exact hlt.trans (hkept x hx)
    next hge =>
      refine .cons (fun x hx => ?_) (ih hrest)
      rcases mem_compactLoop.mp hx with rfl | ⟨hx, -⟩
      · rw [Option.any_some, decide_eq_true_eq, not_lt] at hge
        exact hge
      · exact hle x hx

theorem Sound.compact (h : s.Sound) (new : Option RangeIndex) (ids : List Nat) :
    (s.compact new ids).1.Sound ∧ (s.compact new ids).2 = (s.compact new ids).1.size - s.size := by
  unfold SparseRangeIndex.compact
  split
  · cases new with
    | none => exact ⟨h, (Int.sub_self _).symm⟩
    | some r => exact h.append r
  · exact ⟨⟨rfl, sorted_compactLoop h.sorted⟩, rfl⟩

theorem compact_of_ne_nil (hids : ids ≠ []) :
    (s.compact new ids).1.ranges = compactLoop ids new s.ranges := by
  unfold SparseRangeIndex.compact
  rw [if_neg (by rwa [List.isEmpty_iff])]

/-! ## Eviction -/

/-- Of several ranges one behind the first is evicted, and not one of the protected ones while there
are others. -/
theorem evictOnce_eq (h : 1 < s.ranges.length) : ∃ i, 0 < i ∧ i < s.ranges.length ∧
    (s.compactNum + 1 < s.ranges.length → i < s.ranges.length - s.compactNum) ∧
    s.evictOnce.1.ranges = s.ranges.eraseIdx i := by
  rw [evictOnce, if_neg (by omega), if_neg (by omega)]
  split
  next => exact ⟨1, Nat.one_pos, h, by omega, rfl⟩
  next =>
    refine ⟨s.cursor, ?_, ?_, fun _ => ?_, rfl⟩ <;> rw [cursor] <;> split
    · exact Nat.one_pos
    next hcursor =>
      rw [not_or] at hcursor
      exact Nat.pos_of_ne_zero fun hzero => hcursor.1 (hzero ▸ Nat.dvd_zero _)
    all_goals omega

theorem length_evictOnce (h : s.ranges ≠ []) :
    s.evictOnce.1.ranges.length + 1 = s.ranges.length ∧ s.evictOnce.2 = objectSize := by
  have hpos := length_pos_iff.mpr h
  rcases lt_or_ge 1 s.ranges.length with hlt | hle
  · obtain ⟨i, -, hi, -, heq⟩ := evictOnce_eq hlt
    rw [heq, length_eraseIdx_of_lt hi]
    refine ⟨by omega, ?_⟩
    rw [evictOnce, if_neg (by omega), if_neg (by omega)]
    split <;> rfl
  · rw [evictOnce, if_neg (by omega), if_pos (by omega)]
    exact ⟨by rw [remove, length_eraseIdx_of_lt (by omega)]; omega, rfl⟩

theorem sublist_evictOnce (s : SparseRangeIndex) : s.evictOnce.1.ranges <+ s.ranges := by
  rw [evictOnce]
  split
  · exact .refl _
  split
  · exact eraseIdx_sublist ..
  split <;> exact eraseIdx_sublist ..

theorem Sound.evictOnce (h : s.Sound) (hne : s.ranges ≠ []) : s.evictOnce.1.Sound ∧
    (-(s.evictOnce.2 : Int)) = s.evictOnce.1.size - s.size := by
  obtain ⟨hlength, hsize⟩ := length_evictOnce hne
  have hremoved : s.evictOnce.1.size = s.size - objectSize := by
    rw [SparseRangeIndex.evictOnce, if_neg (by omega)]
    split
    · rfl
    split <;> rfl
  have htotal : s.size = s.evictOnce.1.ranges.length * objectSize + objectSize := by
    rw [h.size, ← hlength, Nat.succ_mul]
  exact ⟨⟨by omega, h.sorted.sublist (sublist_evictOnce s)⟩, by omega⟩

theorem compactNum_evictOnce (s : SparseRangeIndex) :
    s.evictOnce.1.compactNum = s.compactNum := by
  rw [evictOnce]
  split
  · rfl
  split
  · rfl
  split <;> rfl

/-- The first range stays, and the protected ones behind it. -/
theorem evictOnce_keeps (h : s.evictOnce.1.ranges ≠ []) :
    s.evictOnce.1.ranges.head? = s.ranges.head? ∧
    (s.compactNum < s.evictOnce.1.ranges.length →
      s.evictOnce.1.ranges.rtake s.compactNum = s.ranges.rtake s.compactNum) := by
  have hlt : 1 < s.ranges.length := by
    by_contra hle
    have hne : s.ranges ≠ [] := fun hnil => by
      refine h (sublist_nil.mp ?_)
      rw [← hnil]
      exact sublist_evictOnce s
    have hlength := (length_evictOnce hne).1
    have hpos := length_pos_iff.mpr h
    omega
  obtain ⟨i, hpos, hi, hprotected, heq⟩ := evictOnce_eq hlt
  obtain ⟨first, rest, hsplit⟩ := exists_cons_of_length_pos (Nat.zero_lt_of_lt hlt)
  obtain ⟨j, rfl⟩ := Nat.exists_eq_succ_of_ne_zero hpos.ne'
  refine ⟨by rw [heq, hsplit]; rfl, fun hcompact => ?_⟩
  rw [heq, length_eraseIdx_of_lt hi] at hcompact
  have hlow : j.succ < s.ranges.length - s.compactNum := hprotected (by omega)
  rw [heq, rtake, rtake, length_eraseIdx_of_lt hi, eraseIdx_eq_take_drop_succ, drop_append,
    drop_eq_nil_of_le (by rw [length_take_of_le hi.le]; omega), nil_append, drop_drop,
    length_take_of_le hi.le]
  congr 1
  omega

theorem evictTimes_keeps (h : (s.evictTimes k).ranges ≠ []) :
    (s.evictTimes k).ranges <+ s.ranges ∧ (s.evictTimes k).ranges.head? = s.ranges.head? ∧
    (s.compactNum < (s.evictTimes k).ranges.length →
      (s.evictTimes k).ranges.rtake s.compactNum = s.ranges.rtake s.compactNum) := by
  induction k generalizing s with
  | zero => exact ⟨.refl _, rfl, fun _ => rfl⟩
  | succ k ih =>
    obtain ⟨hsub, hhead, htail⟩ := ih h
    rw [compactNum_evictOnce] at htail
    have hne : s.evictOnce.1.ranges ≠ [] := fun hnil => h (sublist_nil.mp (hnil ▸ hsub))
    obtain ⟨hhead', htail'⟩ := evictOnce_keeps hne
    exact ⟨hsub.trans (sublist_evictOnce s), hhead.trans hhead',
      fun hlt => (htail hlt).trans (htail' (hlt.trans_le hsub.length_le))⟩

end SparseRangeIndex

/-! ## The search -/

section Search

variable {ranges : List RangeIndex} {offset : Nat}

theorem exists_search_split
    (hsorted : ranges.Pairwise fun r r' => r.startOffset < r'.startOffset) (offset : Nat) :
    ∃ ys zs, ranges = ys ++ zs ∧ ranges.takeWhile (·.startOffset < offset) = ys ∧
      (∀ y ∈ ys, y.startOffset < offset) ∧ ∀ z ∈ zs, offset ≤ z.startOffset := by
  induction ranges with
  | nil => exact ⟨[], [], rfl, rfl, nofun, nofun⟩
  | cons r ranges ih =>
    obtain ⟨hr, hrest⟩ := pairwise_cons.mp hsorted
    by_cases hlt : r.startOffset < offset
    · obtain ⟨ys, zs, rfl, htake, hys, hzs⟩ := ih hrest
      refine ⟨r :: ys, zs, rfl, ?_, forall_mem_cons.mpr ⟨hlt, hys⟩, hzs⟩
      rw [takeWhile_cons_of_pos (by simpa using hlt), htake]
    · refine ⟨[], r :: ranges, rfl, takeWhile_cons_of_neg (by simpa using hlt), nofun, ?_⟩
      exact forall_mem_cons.mpr ⟨by omega, fun z hz => by have := hr z hz; omega⟩

/-- The search finds the last range that starts at or before an offset. -/
theorem binarySearchObjectId_eq
    (hsorted : ranges.Pairwise fun r r' => r.startOffset < r'.startOffset)
    (hfirst : ∃ r ∈ ranges, r.startOffset ≤ offset) : ∃ r ∈ ranges,
      binarySearchObjectId offset ranges = some r.objectId ∧ r.startOffset ≤ offset ∧
      ∀ r' ∈ ranges, r'.startOffset ≤ offset → r'.startOffset ≤ r.startOffset := by
  obtain ⟨r₀, hr₀, hle₀⟩ := hfirst
  have hempty : ¬ranges.isEmpty = true := by
    rw [List.isEmpty_iff]
    exact ne_nil_of_mem hr₀
  obtain ⟨ys, zs, rfl, htake, hys, hzs⟩ := exists_search_split hsorted offset
  rw [binarySearchObjectId, if_neg hempty, binarySearchBy, htake,
    getElem?_append_right le_rfl, Nat.sub_self]
  by_cases hequal : zs[0]?.any fun r => r.startOffset = offset
  · -- A range that starts at the offset.
    obtain ⟨z, hz, heq⟩ := (Option.any_eq_true _ _).mp hequal
    have heq : z.startOffset = offset := of_decide_eq_true heq
    have hmem := mem_append_right ys (mem_of_getElem? hz)
    refine ⟨z, hmem, ?_, heq.le, fun r _ hr => hr.trans_eq heq.symm⟩
    have hlength := (List.getElem?_eq_some_iff.mp hz).1
    simp only [hequal, if_true, length_append]
    rw [Nat.min_eq_left (by omega), getElem?_append_right le_rfl, Nat.sub_self, hz]
    rfl
  · -- Otherwise the ranges behind the split start behind the offset.
    have hbehind : ∀ z ∈ zs, offset < z.startOffset := by
      intro z hz
      cases zs with
      | nil => cases hz
      | cons z₀ zs =>
        have hne : z₀.startOffset ≠ offset := by simpa using hequal
        have hge := hzs z₀ mem_cons_self
        rcases mem_cons.mp hz with rfl | hz
        · omega
        · have hlt := (pairwise_cons.mp (pairwise_append.mp hsorted).2.1).1 z hz
          omega
    have hbefore : ∀ r ∈ ys ++ zs, r.startOffset ≤ offset → r ∈ ys := by
      intro r hr hle
      refine (mem_append.mp hr).resolve_right fun hz => ?_
      have hlt := hbehind r hz
      omega
    obtain ⟨init, y, rfl⟩ :=
      (eq_nil_or_concat' ys).resolve_left (ne_nil_of_mem (hbefore r₀ hr₀ hle₀))
    have hy : y ∈ init ++ [y] := mem_concat_self
    refine ⟨y, mem_append_left zs hy, ?_, (hys y hy).le, fun r hr hle => ?_⟩
    · simp only [hequal, Bool.false_eq_true, if_false, length_append, length_singleton]
      rw [Nat.min_eq_left (by omega), append_assoc, getElem?_append_right le_rfl, Nat.sub_self]
      rfl
    · rcases mem_append.mp (hbefore r hr hle) with hr | hr
      · have hinit := (pairwise_append.mp hsorted).1
        exact ((pairwise_append.mp hinit).2.2 r hr y (mem_singleton.mpr rfl)).le
      · obtain rfl := mem_singleton.mp hr
        exact le_rfl

/-- **Eviction keeps a lower bound**, wherever the cursor stands: the first range stays, the last
`compactNum` ones stay while there are others, and a search finds a range that starts at or before
the one it would have found in the whole list. -/
theorem evicted_search_sound {s : SparseRangeIndex} {k : Nat}
    (hsorted : s.ranges.Pairwise fun r r' => r.startOffset < r'.startOffset)
    (hne : (s.evictTimes k).ranges ≠ []) :
    (s.evictTimes k).ranges.head? = s.ranges.head? ∧
    (s.compactNum + 1 < (s.evictTimes k).ranges.length →
      (s.evictTimes k).ranges.rtake s.compactNum = s.ranges.rtake s.compactNum) ∧
    ∀ first offset, s.ranges.head? = some first → first.startOffset ≤ offset →
      ∃ r ∈ (s.evictTimes k).ranges, ∃ r₀ ∈ s.ranges,
        binarySearchObjectId offset (s.evictTimes k).ranges = some r.objectId ∧
        binarySearchObjectId offset s.ranges = some r₀.objectId ∧
        r.startOffset ≤ offset ∧ r.startOffset ≤ r₀.startOffset := by
  obtain ⟨hsub, hhead, htail⟩ := SparseRangeIndex.evictTimes_keeps hne
  refine ⟨hhead, fun hlt => htail (by omega), fun first offset hfirst hle => ?_⟩
  obtain ⟨r, hr, hsearch, hstart, -⟩ := binarySearchObjectId_eq (hsorted.sublist hsub)
    ⟨first, mem_of_head? (hhead.trans hfirst), hle⟩
  obtain ⟨r₀, hr₀, hsearch₀, -, hmax⟩ := binarySearchObjectId_eq hsorted
    ⟨first, mem_of_head? hfirst, hle⟩
  exact ⟨r, hr, r₀, hr₀, hsearch, hsearch₀, hstart, hmax r (hsub.subset hr) hstart⟩

/-- Six ranges, the last two protected; three evictions leave the first one and the last two. -/
def sixRanges : SparseRangeIndex :=
  .withRanges 2 ((List.range 6).map fun i => ⟨i * 10, i * 10 + 10, i⟩)

theorem evicted_search_sound_six :
    ((sixRanges.evictTimes 3).ranges.map objectId = [0, 4, 5] ∧
      binarySearchObjectId 35 sixRanges.ranges = some 3) ∧
    ∃ r ∈ (sixRanges.evictTimes 3).ranges,
      binarySearchObjectId 35 (sixRanges.evictTimes 3).ranges = some r.objectId ∧
      r.startOffset ≤ 35 := by
  refine ⟨by decide, ?_⟩
  obtain ⟨r, hr, -, -, hsearch, -, hstart, -⟩ :=
    (evicted_search_sound (s := sixRanges) (k := 3) (by decide) (by decide)).2.2 ⟨0, 10, 0⟩ 35 rfl
      (by decide)
  exact ⟨r, hr, hsearch, hstart⟩

end Search

end S3Stream
