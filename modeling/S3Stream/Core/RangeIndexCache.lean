import S3Stream.Core.RangeIndex
import S3Stream.Core.UploadTask
import S3Stream.Lib.Loop

/-! # The range index of a node

`LocalStreamRangeIndexCache` of `s3stream-core/src/index.rs`. Every mutation runs under the state
mutex and is one operation here. `total_size` is kept by adding signed changes; an operation is
`none` where that would leave the unsigned range, or where a key that was just collected is gone. -/

namespace S3Stream

open List RangeIndex TransitionSystem OrdMap

structure LocalStreamRangeIndexCache where
  compactNum : Nat
  maxIndexSize : Nat
  streams : OrdMap Nat SparseRangeIndex
  totalSize : Nat

abbrev RangeIndexMap := OrdMap Nat (Option RangeIndex)

namespace LocalStreamRangeIndexCache

def new (compactNum maxIndexSize : Nat) : LocalStreamRangeIndexCache :=
  ⟨compactNum, maxIndexSize, .empty, 0⟩

def clear (c : LocalStreamRangeIndexCache) : LocalStreamRangeIndexCache :=
  { c with streams := .empty, totalSize := 0 }

/-- A changed list is stored, or removed when it is empty. -/
def setSparse (c : LocalStreamRangeIndexCache) (streamId : Nat) (sparse : SparseRangeIndex)
    (delta : Int) : Option LocalStreamRangeIndexCache :=
  if 0 ≤ c.totalSize + delta then
    some { c with
      streams := if sparse.ranges.isEmpty then c.streams.filter (·.1 ≠ streamId)
        else c.streams.insert streamId sparse
      totalSize := (c.totalSize + delta).toNat }
  else none

def streamIds (c : LocalStreamRangeIndexCache) : List Nat := c.streams.entries.map Prod.fst

/-! ## Eviction -/

/-- The loop over the collected stream ids; returns whether something was evicted. -/
def evictRound (hasSufficientIndex : Bool) : List Nat → LocalStreamRangeIndexCache →
    Option (LocalStreamRangeIndexCache × Bool)
  | [], c => some (c, false)
  | streamId :: streamIds, c =>
    (c.streams.get? streamId).bind fun sparse =>
      if sparse.ranges.length ≤ 1 + c.compactNum ∧ hasSufficientIndex = true then
        evictRound hasSufficientIndex streamIds c
      else
        (c.setSparse streamId sparse.evictOnce.1 (-sparse.evictOnce.2)).bind fun c =>
          if c.totalSize ≤ c.maxIndexSize then some (c, true)
          else (evictRound hasSufficientIndex streamIds c).map fun p => (p.1, true)

def evictStep (p : LocalStreamRangeIndexCache × Bool) :
    LocalStreamRangeIndexCache × Bool ⊕ Option LocalStreamRangeIndexCache :=
  if p.1.totalSize ≤ p.1.maxIndexSize then .inr (some p.1)
  else
    match evictRound p.2 p.1.streamIds p.1 with
    | none => .inr none
    | some (c, evicted) => .inl (c, p.2 && evicted)

/-- The loop of `evict_if_necessary`; `fuel` bounds its rounds. -/
def evictLoop (fuel : Nat) (c : LocalStreamRangeIndexCache) : Option LocalStreamRangeIndexCache :=
  (Loop.loop evictStep fuel (c, true)).join

def evictIfNecessary (c : LocalStreamRangeIndexCache) : Option LocalStreamRangeIndexCache :=
  c.evictLoop (c.totalSize + 2)

/-! ## Updates -/

def appendRange (c : LocalStreamRangeIndexCache) (e : Nat × Option RangeIndex) :
    Option LocalStreamRangeIndexCache :=
  match e.2 with
  | none => some c
  | some range =>
    let next := ((c.streams.get? e.1).getD (.new c.compactNum)).append range
    c.setSparse e.1 next.1 next.2

def append (c : LocalStreamRangeIndexCache) (map : RangeIndexMap) :
    Option LocalStreamRangeIndexCache :=
  (map.entries.foldlM appendRange c).bind evictIfNecessary

/-- One round of a loop over the collected streams; `f` is `none` where it goes on without a
change. -/
def updateStream (f : Nat → SparseRangeIndex → Option (SparseRangeIndex × Int))
    (c : LocalStreamRangeIndexCache) (streamId : Nat) : Option LocalStreamRangeIndexCache :=
  (c.streams.get? streamId).bind fun sparse =>
    match f streamId sparse with
    | none => some c
    | some next => c.setSparse streamId next.1 next.2

def compactStream (map : RangeIndexMap) (ids : List Nat) (streamId : Nat)
    (sparse : SparseRangeIndex) : Option (SparseRangeIndex × Int) :=
  some (sparse.compact (map.get? streamId).join ids)

def compact (c : LocalStreamRangeIndexCache) (map : RangeIndexMap) (ids : List Nat) :
    Option LocalStreamRangeIndexCache :=
  c.streamIds.foldlM (updateStream (compactStream map ids)) c

def pruneStream (live : List Nat) (_ : Nat) (sparse : SparseRangeIndex) :
    Option (SparseRangeIndex × Int) :=
  let invalid := (sparse.ranges.map objectId).filter (· ∉ live)
  if invalid.isEmpty then none else some (sparse.compact none invalid)

/-- The mutation of `prune`. -/
def prune (c : LocalStreamRangeIndexCache) (live : List Nat) :
    Option LocalStreamRangeIndexCache :=
  c.streamIds.foldlM (updateStream (pruneStream live)) c

def rangeIndexMapFromRequest (request : CommitStreamSetObjectRequest) : RangeIndexMap :=
  let map := request.streamRanges.foldl (fun map range => map.insert range.streamId
    (if request.objectId ≠ noopObjectId then
      some ⟨range.startOffset, range.endOffset, request.objectId⟩ else none)) .empty
  if request.compactedObjectIds.isEmpty then map
  else request.streamObjects.foldl (fun map o =>
    if map.contains o.streamId then map else map.insert o.streamId none) map

/-- The mutation of `update_index_from_request`. -/
def updateIndexFromRequest (c : LocalStreamRangeIndexCache)
    (request : CommitStreamSetObjectRequest) : Option LocalStreamRangeIndexCache :=
  if request.compactedObjectIds.isEmpty then c.append (rangeIndexMapFromRequest request)
  else c.compact (rangeIndexMapFromRequest request) request.compactedObjectIds

def searchObjectId (c : LocalStreamRangeIndexCache) (streamId startOffset : Nat) : Option Nat :=
  (c.streams.get? streamId).bind fun sparse => binarySearchObjectId startOffset sparse.ranges

/-! ## Bookkeeping -/

variable {c c' : LocalStreamRangeIndexCache} {streamId : Nat} {sparse : SparseRangeIndex}

/-- The number of stored ranges. -/
def rangeCount (c : LocalStreamRangeIndexCache) : Nat :=
  (c.streams.entries.map fun e => e.2.ranges.length).sum

structure Inv (c : LocalStreamRangeIndexCache) : Prop where
  total : c.totalSize = (c.streams.entries.map fun e => e.2.size).sum
  sound : ∀ e ∈ c.streams, e.2.Sound ∧ e.2.ranges ≠ []

theorem Inv.total_eq (h : c.Inv) : c.totalSize = objectSize * c.rangeCount := by
  rw [h.total, rangeCount, mul_comm, ← sum_map_mul_right]
  exact congrArg sum (map_congr_left fun e he => (h.sound e he).1.size)

theorem Inv.new (compactNum maxIndexSize : Nat) : (new compactNum maxIndexSize).Inv :=
  ⟨rfl, nofun⟩

theorem Inv.get? (h : c.Inv) (hget : c.streams.get? streamId = some sparse) :
    sparse.Sound ∧ sparse.ranges ≠ [] := h.sound _ (mem_of_get? hget)

/-- What the index had stored under a stream id before. -/
def storedSize (c : LocalStreamRangeIndexCache) (streamId : Nat) : Nat :=
  ((c.streams.get? streamId).map SparseRangeIndex.size).getD 0

theorem storedSize_eq (h : c.streams.get? streamId = some sparse) :
    c.storedSize streamId = sparse.size := by
  rw [storedSize, h]
  rfl

/-- A list is stored with the change of its size: the totals stay right. -/
theorem Inv.setSparse {delta : Int} (h : c.Inv) (hsound : sparse.Sound)
    (hdelta : delta = sparse.size - c.storedSize streamId) :
    ∃ c', c.setSparse streamId sparse delta = some c' ∧ c'.Inv ∧
      c'.compactNum = c.compactNum ∧ c'.maxIndexSize = c.maxIndexSize ∧
      (c'.totalSize : Int) = c.totalSize + delta ∧
      ∀ id, c'.streams.get? id = if id = streamId then
        if sparse.ranges.isEmpty then none else some sparse else c.streams.get? id := by
  have hsum := c.streams.sum_entries streamId fun e => e.2.size
  rw [← h.total] at hsum
  change c.totalSize = c.storedSize streamId + _ at hsum
  have hnonneg : 0 ≤ c.totalSize + delta := by omega
  refine ⟨_, if_pos hnonneg, ⟨?_, fun e he => ?_⟩, rfl, rfl, Int.toNat_of_nonneg hnonneg,
    fun id => ?_⟩
  · show (c.totalSize + delta).toNat = (map _ (ite _ _ _ : OrdMap Nat _).entries).sum
    split
    next hempty =>
      have hzero : sparse.size = 0 := by
        rw [hsound.size, isEmpty_iff.mp hempty, length_nil, Nat.zero_mul]
      omega
    next =>
      have hinsert := c.streams.sum_insert streamId sparse fun e => e.2.size
      change _ + c.storedSize streamId = _ + sparse.size at hinsert
      rw [← h.total] at hinsert
      omega
  · change e ∈ (ite _ _ _ : OrdMap Nat _) at he
    split at he
    next => exact h.sound e (OrdMap.mem_filter.mp he).1
    next hempty =>
      rcases OrdMap.eq_or_mem_of_mem_insert he with rfl | he
      · exact ⟨hsound, fun hnil => hempty (isEmpty_iff.mpr hnil)⟩
      · exact h.sound e he
  · show (ite _ _ _ : OrdMap Nat _).get? id = _
    split
    next => exact OrdMap.get?_filter_ne ..
    next =>
      split
      next heq => rw [heq, OrdMap.get?_insert_self]
      next hne => exact OrdMap.get?_insert_of_ne hne

/-- A range of the index. -/
def Holds (c : LocalStreamRangeIndexCache) (streamId : Nat) (r : RangeIndex) : Prop :=
  ∃ sparse, c.streams.get? streamId = some sparse ∧ r ∈ sparse.ranges

/-- What an operation leaves behind: an index with the same limits whose ranges are in `P`. -/
structure Leaves (c : LocalStreamRangeIndexCache) (P : Nat → RangeIndex → Prop)
    (c' : LocalStreamRangeIndexCache) : Prop where
  inv : c'.Inv
  compactNum : c'.compactNum = c.compactNum
  maxIndexSize : c'.maxIndexSize = c.maxIndexSize
  holds : ∀ id r, c'.Holds id r → P id r

variable {P Q : Nat → RangeIndex → Prop} {ids : List Nat}

theorem Leaves.refl (h : c.Inv) : c.Leaves c.Holds c := ⟨h, rfl, rfl, fun _ _ => id⟩

theorem Leaves.mono (h : c.Leaves P c') (hPQ : ∀ id r, P id r → Q id r) : c.Leaves Q c' :=
  ⟨h.inv, h.compactNum, h.maxIndexSize, fun id r hr => hPQ id r (h.holds id r hr)⟩

theorem Leaves.trans (h : c.Leaves P c') (h' : c'.Leaves Q c'')
    (hQ : ∀ id r, Q id r → c'.Holds id r ∨ P id r) : c.Leaves P c'' :=
  ⟨h'.inv, h'.compactNum.trans h.compactNum, h'.maxIndexSize.trans h.maxIndexSize,
    fun id r hr => (hQ id r (h'.holds id r hr)).elim (h.holds id r) fun hp => hp⟩

/-- A list of ranges in `P` is stored. -/
theorem Inv.leaves_setSparse {delta : Int} (h : c.Inv) (hsound : sparse.Sound)
    (hdelta : delta = sparse.size - c.storedSize streamId)
    (hP : ∀ r ∈ sparse.ranges, P streamId r)
    (hold : ∀ id r, id ≠ streamId → c.Holds id r → P id r) :
    ∃ c', c.setSparse streamId sparse delta = some c' ∧ c.Leaves P c' ∧
      (c'.totalSize : Int) = c.totalSize + delta ∧
      ∀ id, id ≠ streamId → c'.streams.get? id = c.streams.get? id := by
  obtain ⟨c', hc', hinv, hcompact, hmax, htotal, hget⟩ := h.setSparse hsound hdelta
  refine ⟨c', hc', ⟨hinv, hcompact, hmax, fun id r hr => ?_⟩, htotal,
    fun id hne => by rw [hget, if_neg hne]⟩
  obtain ⟨found, hfound, hr⟩ := hr
  rw [hget] at hfound
  split at hfound
  next heq =>
    split at hfound <;> cases hfound
    rw [heq]
    exact hP r hr
  next hne => exact hold id r hne ⟨found, hfound, hr⟩

/-! ## Eviction ends -/

/-- A round without a sufficient index evicts something. -/
theorem Inv.evictRound (h : c.Inv) (hasSufficientIndex : Bool) (hnodup : ids.Nodup)
    (hids : ∀ id ∈ ids, (c.streams.get? id).isSome) :
    ∃ c' evicted, evictRound hasSufficientIndex ids c = some (c', evicted) ∧
      c.Leaves c.Holds c' ∧ c'.totalSize ≤ c.totalSize ∧
      (evicted = true → c'.totalSize < c.totalSize) ∧
      (evicted = false → hasSufficientIndex = false → ids = []) := by
  induction ids generalizing c with
  | nil => exact ⟨c, false, rfl, .refl h, le_rfl, nofun, fun _ _ => rfl⟩
  | cons id ids ih =>
    obtain ⟨hid, hnodup⟩ := nodup_cons.mp hnodup
    obtain ⟨sparse, hsparse⟩ := Option.isSome_iff_exists.mp (hids id mem_cons_self)
    obtain ⟨hsound, hne⟩ := h.get? hsparse
    rw [LocalStreamRangeIndexCache.evictRound, hsparse, Option.bind_some]
    split
    next hkept =>
      obtain ⟨c', evicted, hround, hleaves, hle, hlt, -⟩ :=
        ih h hnodup fun id' hid' => hids id' (mem_cons_of_mem id hid')
      refine ⟨c', evicted, hround, hleaves, hle, hlt, fun _ hfalse => ?_⟩
      rw [hfalse] at hkept
      cases hkept.2
    next =>
      obtain ⟨hevicted, hdelta⟩ := hsound.evictOnce hne
      have hsize := (SparseRangeIndex.length_evictOnce hne).2
      rw [← storedSize_eq hsparse] at hdelta
      obtain ⟨c₁, hset, hleaves, htotal, hget⟩ := h.leaves_setSparse hevicted hdelta
        (fun r hr => ⟨sparse, hsparse, (SparseRangeIndex.sublist_evictOnce _).subset hr⟩)
        (fun _ _ _ hr => hr)
      have hless : c₁.totalSize < c.totalSize := by
        rw [hsize, objectSize] at htotal
        omega
      rw [hset, Option.bind_some]
      split
      · exact ⟨c₁, true, rfl, hleaves, hless.le, fun _ => hless, nofun⟩
      · have hids' : ∀ id' ∈ ids, (c₁.streams.get? id').isSome := by
          intro id' hid'
          rw [hget id' fun heq => hid (heq ▸ hid')]
          exact hids id' (mem_cons_of_mem id hid')
        obtain ⟨c', evicted, hround, hleaves', hle, -⟩ := ih hleaves.inv hnodup hids'
        rw [hround]
        exact ⟨c', true, rfl, hleaves.trans hleaves' fun _ _ => .inl, hle.trans hless.le,
          fun _ => hle.trans_lt hless, nofun⟩

theorem nodup_streamIds (c : LocalStreamRangeIndexCache) : c.streamIds.Nodup :=
  (pairwise_map.mpr c.streams.sorted).imp fun h => h.ne

theorem isSome_of_mem_streamIds {id : Nat} (h : id ∈ c.streamIds) :
    (c.streams.get? id).isSome := by
  obtain ⟨e, he, rfl⟩ := mem_map.mp h
  rw [get?_of_mem he]
  rfl

/-- **Eviction ends within the limit**, whatever it is. -/
theorem Inv.evictLoop (h : c.Inv) (hfuel : c.totalSize + 1 < fuel) :
    ∃ c', c.evictLoop fuel = some c' ∧ c.Leaves c.Holds c' ∧ c'.totalSize ≤ c'.maxIndexSize := by
  have hround : ∀ p : LocalStreamRangeIndexCache × Bool, p.1.Inv → ∃ c' evicted,
      LocalStreamRangeIndexCache.evictRound p.2 p.1.streamIds p.1 = some (c', evicted) ∧ _ :=
    fun p hp => hp.evictRound p.2 p.1.nodup_streamIds fun _ => isSome_of_mem_streamIds
  -- A round lowers the total, or the flag is taken back.
  have hnext : ∀ p p', c.Leaves c.Holds p.1 → evictStep p = .inl p' →
      c.Leaves c.Holds p'.1 ∧ p'.1.totalSize + p'.2.toNat < p.1.totalSize + p.2.toNat := by
    intro p p' hleaves hstep
    obtain ⟨c', evicted, heq, hleaves', hle, hlt, hnil⟩ := hround p hleaves.inv
    rw [evictStep] at hstep
    split at hstep
    · cases hstep
    next hover =>
      simp only [heq] at hstep
      cases hstep
      refine ⟨hleaves.trans hleaves' fun _ _ => .inl, ?_⟩
      cases evicted with
      | true =>
        rw [Bool.and_true]
        exact Nat.add_lt_add_right (hlt rfl) _
      | false =>
        cases hflag : p.2 with
        | true => exact Nat.lt_succ_of_le hle
        | false =>
          have htotal := hleaves.inv.total
          rw [map_eq_nil_iff.mp (hnil rfl hflag)] at htotal
          exact absurd (htotal.trans_le (Nat.zero_le _)) hover
  have hdone : ∀ p r, c.Leaves c.Holds p.1 → evictStep p = .inr r →
      ∃ c', r = some c' ∧ c.Leaves c.Holds c' ∧ c'.totalSize ≤ c'.maxIndexSize := by
    intro p r hleaves hstep
    obtain ⟨c', evicted, heq, -⟩ := hround p hleaves.inv
    rw [evictStep] at hstep
    split at hstep
    next hle =>
      cases hstep
      exact ⟨p.1, rfl, hleaves, hle⟩
    next =>
      simp only [heq] at hstep
      cases hstep
  obtain ⟨r, hr, c', rfl, hleaves, hle⟩ := Loop.loop_spec _ hnext hdone (s := (c, true)) (.refl h)
    hfuel
  exact ⟨c', by rw [LocalStreamRangeIndexCache.evictLoop, hr]; rfl, hleaves, hle⟩

/-! ## Updates keep the books -/

theorem Inv.appendRange (h : c.Inv) (e : Nat × Option RangeIndex) :
    ∃ c', c.appendRange e = some c' ∧
      c.Leaves (fun id r => c.Holds id r ∨ e = (id, some r)) c' := by
  obtain ⟨streamId, range⟩ := e
  cases range with
  | none => exact ⟨c, rfl, (Leaves.refl h).mono fun _ _ => .inl⟩
  | some range =>
    obtain ⟨hsound, hsize, hmem⟩ : ((c.streams.get? streamId).getD (.new c.compactNum)).Sound ∧
        c.storedSize streamId = ((c.streams.get? streamId).getD (.new c.compactNum)).size ∧
        ∀ r ∈ ((c.streams.get? streamId).getD (.new c.compactNum)).ranges, c.Holds streamId r := by
      rw [storedSize]
      cases hget : c.streams.get? streamId with
      | none => exact ⟨.withRanges c.compactNum .nil, (Nat.zero_mul _).symm, nofun⟩
      | some sparse => exact ⟨(h.get? hget).1, rfl, fun r hr => ⟨sparse, hget, hr⟩⟩
    obtain ⟨hsound', hdelta⟩ := hsound.append range
    rw [← hsize] at hdelta
    obtain ⟨c', hset, hleaves, -⟩ := h.leaves_setSparse
      (P := fun id r => c.Holds id r ∨ (streamId, some range) = (id, some r)) hsound' hdelta
      (fun r hr => (SparseRangeIndex.mem_ranges_append hr).imp (hmem r) fun heq => by rw [heq])
      (fun _ _ _ => .inl)
    exact ⟨c', hset, hleaves⟩

theorem Inv.append (h : c.Inv) (map : RangeIndexMap) :
    ∃ c', c.append map = some c' ∧
      c.Leaves (fun id r => c.Holds id r ∨ (id, some r) ∈ map) c' ∧
      c'.totalSize ≤ c'.maxIndexSize := by
  have hfold : ∀ (es : List (Nat × Option RangeIndex)) (c : LocalStreamRangeIndexCache), c.Inv →
      ∃ c', es.foldlM LocalStreamRangeIndexCache.appendRange c = some c' ∧
        c.Leaves (fun id r => c.Holds id r ∨ (id, some r) ∈ es) c' := by
    intro es
    induction es with
    | nil => exact fun c h => ⟨c, rfl, (Leaves.refl h).mono fun _ _ => .inl⟩
    | cons e es ih =>
      intro c h
      obtain ⟨c₁, hc₁, hleaves₁⟩ := h.appendRange e
      obtain ⟨c₂, hc₂, hleaves₂⟩ := ih c₁ hleaves₁.inv
      have hleaves : c.Leaves (fun id r => c.Holds id r ∨ (id, some r) ∈ e :: es) c₁ :=
        hleaves₁.mono fun _ _ => Or.imp_right fun heq => heq ▸ mem_cons_self
      exact ⟨c₂, by rw [foldlM_cons, hc₁]; exact hc₂, hleaves.trans hleaves₂ fun _ _ =>
        Or.imp_right fun hr => .inr (mem_cons_of_mem e hr)⟩
  obtain ⟨c₁, hc₁, hleaves₁⟩ := hfold map.entries c h
  obtain ⟨c₂, hc₂, hleaves₂, hle⟩ := hleaves₁.inv.evictLoop (Nat.lt_succ_self (c₁.totalSize + 1))
  refine ⟨c₂, ?_, hleaves₁.trans hleaves₂ fun _ _ => .inl, hle⟩
  rw [LocalStreamRangeIndexCache.append, hc₁]
  exact hc₂

section UpdateStream

variable {f : Nat → SparseRangeIndex → Option (SparseRangeIndex × Int)}

/-- What a list changes to. -/
def updated (f : Nat → SparseRangeIndex → Option (SparseRangeIndex × Int))
    (e : Nat × SparseRangeIndex) : SparseRangeIndex :=
  ((f e.1 e.2).map Prod.fst).getD e.2

/-- A loop over streams that are still stored: each list is changed, and the total by the sum of
the changes. -/
theorem Inv.updateStreams {es : List (Nat × SparseRangeIndex)} (h : c.Inv)
    (hf : ∀ id sparse next, sparse.Sound → f id sparse = some next →
      next.1.Sound ∧ next.2 = next.1.size - sparse.size)
    (hnodup : (es.map Prod.fst).Nodup) (hget : ∀ e ∈ es, c.streams.get? e.1 = some e.2) :
    ∃ c', (es.map Prod.fst).foldlM (updateStream f) c = some c' ∧
      c.Leaves (fun id r => (∃ e ∈ es, e.1 = id ∧ r ∈ (updated f e).ranges) ∨
        id ∉ es.map Prod.fst ∧ c.Holds id r) c' ∧
      c'.totalSize + (es.map fun e => e.2.size).sum =
        c.totalSize + (es.map fun e => (updated f e).size).sum := by
  induction es generalizing c with
  | nil => exact ⟨c, rfl, ⟨h, rfl, rfl, fun _ _ hr => .inr ⟨not_mem_nil, hr⟩⟩, rfl⟩
  | cons e es ih =>
    obtain ⟨hid, hnodup⟩ := nodup_cons.mp hnodup
    have hsparse := hget e mem_cons_self
    obtain ⟨c₁, hc₁, hleaves₁, htotal₁, hget₁⟩ : ∃ c', updateStream f c e.1 = some c' ∧
        c.Leaves (fun id r => id = e.1 ∧ r ∈ (updated f e).ranges ∨ id ≠ e.1 ∧ c.Holds id r) c' ∧
        c'.totalSize + e.2.size = c.totalSize + (updated f e).size ∧
        ∀ id, id ≠ e.1 → c'.streams.get? id = c.streams.get? id := by
      rw [updateStream, hsparse, Option.bind_some, updated]
      cases hnext : f e.1 e.2 with
      | none =>
        refine ⟨c, rfl, ⟨h, rfl, rfl, fun id r hr => ?_⟩, rfl, fun _ _ => rfl⟩
        by_cases heq : id = e.1
        · obtain ⟨found, hfound, hr⟩ := hr
          cases hfound.symm.trans (heq ▸ hsparse)
          exact .inl ⟨heq, hr⟩
        · exact .inr ⟨heq, hr⟩
      | some next =>
        obtain ⟨hsound, hdelta⟩ := hf e.1 e.2 next (h.get? hsparse).1 hnext
        have hdelta' := hdelta
        rw [← storedSize_eq hsparse] at hdelta'
        obtain ⟨c', hset, hleaves, htotal, hrest⟩ := h.leaves_setSparse
          (P := fun id r => id = e.1 ∧ r ∈ next.1.ranges ∨ id ≠ e.1 ∧ c.Holds id r) hsound hdelta'
          (fun r hr => .inl ⟨rfl, hr⟩) (fun _ _ hne hr => .inr ⟨hne, hr⟩)
        refine ⟨c', hset, hleaves, ?_, hrest⟩
        show c'.totalSize + e.2.size = c.totalSize + next.1.size
        omega
    obtain ⟨c₂, hc₂, hleaves₂, htotal₂⟩ := ih hleaves₁.inv hnodup fun d hd => by
      rw [hget₁ d.1 fun heq => hid (mem_map.mpr ⟨d, hd, heq⟩)]
      exact hget d (mem_cons_of_mem e hd)
    refine ⟨c₂, by rw [map_cons, foldlM_cons, hc₁]; exact hc₂, ⟨hleaves₂.inv,
      hleaves₂.compactNum.trans hleaves₁.compactNum,
      hleaves₂.maxIndexSize.trans hleaves₁.maxIndexSize, fun id r hr => ?_⟩, ?_⟩
    · rcases hleaves₂.holds id r hr with ⟨d, hd, heq, hr⟩ | ⟨hnot, hr⟩
      · exact .inl ⟨d, mem_cons_of_mem e hd, heq, hr⟩
      · rcases hleaves₁.holds id r hr with ⟨heq, hr⟩ | ⟨hne, hr⟩
        · exact .inl ⟨e, mem_cons_self, heq.symm, hr⟩
        · exact .inr ⟨fun hmem => (mem_cons.mp hmem).elim hne hnot, hr⟩
    · rw [map_cons, sum_cons, map_cons, sum_cons]
      omega

/-- The loop over all streams. -/
theorem Inv.updateAll (h : c.Inv)
    (hf : ∀ id sparse next, sparse.Sound → f id sparse = some next →
      next.1.Sound ∧ next.2 = next.1.size - sparse.size) :
    ∃ c', c.streamIds.foldlM (updateStream f) c = some c' ∧
      c.Leaves (fun id r => ∃ sparse, c.streams.get? id = some sparse ∧
        r ∈ (updated f (id, sparse)).ranges) c' ∧
      c'.totalSize = (c.streams.entries.map fun e => (updated f e).size).sum := by
  obtain ⟨c', hc', hleaves, htotal⟩ := h.updateStreams hf c.nodup_streamIds
    fun e he => get?_of_mem he
  refine ⟨c', hc', hleaves.mono fun id r hr => ?_, ?_⟩
  · rcases hr with ⟨e, he, rfl, hmem⟩ | ⟨hnot, sparse, hget, -⟩
    · exact ⟨e.2, get?_of_mem he, hmem⟩
    · exact absurd (mem_map_of_mem (mem_of_get? hget)) hnot
  · rw [h.total] at htotal
    omega

end UpdateStream

/-- The ranges of objects that are not compacted, and one for every indexed stream that has a new
range. -/
def compactedCount (c : LocalStreamRangeIndexCache) (map : RangeIndexMap) (ids : List Nat) : Nat :=
  (c.streams.entries.map fun e =>
    (e.2.ranges.filter (·.objectId ∉ ids)).length + (map.get? e.1).join.toList.length).sum

theorem Inv.compact (h : c.Inv) (map : RangeIndexMap) (hids : ids ≠ []) :
    ∃ c', c.compact map ids = some c' ∧
      c.Leaves (fun id r => c.Holds id r ∧ r.objectId ∉ ids ∨ (id, some r) ∈ map) c' ∧
      c'.totalSize = objectSize * c.compactedCount map ids := by
  obtain ⟨c', hc', hleaves, htotal⟩ := h.updateAll (f := compactStream map ids) (by
    rintro id sparse next hsound ⟨⟩
    exact hsound.compact _ ids)
  have hranges : ∀ e, (updated (compactStream map ids) e).ranges =
      SparseRangeIndex.compactLoop ids (map.get? e.1).join e.2.ranges :=
    fun e => SparseRangeIndex.compact_of_ne_nil hids
  refine ⟨c', hc', hleaves.mono fun id r hr => ?_, ?_⟩
  · obtain ⟨sparse, hget, hr⟩ := hr
    rw [hranges] at hr
    rcases SparseRangeIndex.mem_compactLoop.mp hr with hnew | ⟨hr, hkept⟩
    · exact .inr (mem_of_get? (Option.join_eq_some_iff.mp hnew))
    · exact .inl ⟨⟨sparse, hget, hr⟩, hkept⟩
  · rw [htotal, compactedCount, mul_comm, ← sum_map_mul_right]
    refine congrArg sum (map_congr_left fun e he => ?_)
    have hsound := ((h.sound e he).1.compact (map.get? e.1).join ids).1
    rw [show (updated (compactStream map ids) e).size = _ from hsound.size]
    show (updated (compactStream map ids) e).ranges.length * _ = _
    rw [hranges, (SparseRangeIndex.perm_compactLoop ..).length_eq, length_append, add_comm]

/-! ## The budget -/

/-- Every indexed stream that a compaction has a new range for still has a range of an object it
compacts. -/
def Replaces (c : LocalStreamRangeIndexCache) (request : CommitStreamSetObjectRequest) : Prop :=
  request.compactedObjectIds ≠ [] → ∀ e ∈ c.streams.entries,
    ((rangeIndexMapFromRequest request).get? e.1).join.isSome →
      ∃ r ∈ e.2.ranges, r.objectId ∈ request.compactedObjectIds

instance (c : LocalStreamRangeIndexCache) (request : CommitStreamSetObjectRequest) :
    Decidable (c.Replaces request) :=
  inferInstanceAs (Decidable (_ → ∀ e ∈ c.streams.entries, _ → _))

/-- A new range takes the place of a compacted one at least. -/
theorem Replaces.compactedCount_le (h : c.Replaces request)
    (hne : request.compactedObjectIds ≠ []) :
    c.compactedCount (rangeIndexMapFromRequest request) request.compactedObjectIds ≤
      c.rangeCount := by
  refine sum_le_sum fun e he => ?_
  cases hnew : ((rangeIndexMapFromRequest request).get? e.1).join with
  | none => exact length_filter_le ..
  | some range =>
    obtain ⟨r, hr, hcompacted⟩ := h hne e he (by rw [hnew]; rfl)
    exact length_filter_lt_length_iff_exists.mpr ⟨r, hr, by simpa using hcompacted⟩

theorem Inv.updateIndexFromRequest (h : c.Inv) (request : CommitStreamSetObjectRequest) :
    ∃ c', c.updateIndexFromRequest request = some c' ∧
      c.Leaves (fun id r => c.Holds id r ∧ r.objectId ∉ request.compactedObjectIds ∨
        (id, some r) ∈ rangeIndexMapFromRequest request) c' ∧
      (c.totalSize ≤ c.maxIndexSize → c.Replaces request → c'.totalSize ≤ c'.maxIndexSize) := by
  rw [LocalStreamRangeIndexCache.updateIndexFromRequest]
  split
  next hnil =>
    have hnil := isEmpty_iff.mp hnil
    obtain ⟨c', hc', hleaves, hle⟩ := h.append (rangeIndexMapFromRequest request)
    refine ⟨c', hc', hleaves.mono fun id r => Or.imp_left fun hr => ⟨hr, ?_⟩, fun _ _ => hle⟩
    rw [hnil]
    exact not_mem_nil
  next hne =>
    have hne : request.compactedObjectIds ≠ [] := fun hnil => hne (isEmpty_iff.mpr hnil)
    obtain ⟨c', hc', hleaves, htotal⟩ := h.compact (rangeIndexMapFromRequest request) hne
    refine ⟨c', hc', hleaves, fun hle hreplaces => ?_⟩
    rw [htotal, hleaves.maxIndexSize]
    refine le_trans ?_ hle
    rw [h.total_eq]
    exact Nat.mul_le_mul_left _ (hreplaces.compactedCount_le hne)

theorem Inv.run_within (h : c.Inv) (hle : c.totalSize ≤ c.maxIndexSize)
    (hG : Guarded LocalStreamRangeIndexCache.updateIndexFromRequest Replaces c requests)
    (n : Nat) : ∃ c', run LocalStreamRangeIndexCache.updateIndexFromRequest c (requests.take n) =
      some c' ∧ c'.totalSize ≤ c.maxIndexSize := by
  induction requests generalizing c n with
  | nil => exact ⟨c, by rw [take_nil]; rfl, hle⟩
  | cons request requests ih =>
    cases n with
    | zero => exact ⟨c, rfl, hle⟩
    | succ n =>
      obtain ⟨hfirst, hrest⟩ := hG
      obtain ⟨m, hm, hleaves, hwithin⟩ := h.updateIndexFromRequest request
      obtain ⟨c', hrun, hle'⟩ := ih hleaves.inv (hwithin hle hfirst) (hrest m hm) n
      exact ⟨c', run_cons.mpr ⟨m, hm, hrun⟩, hle'.trans_eq hleaves.maxIndexSize⟩

/-- **The index stays within its budget** as long as every compaction replaces what it adds: appends
evict, compactions do not. -/
theorem stays_within_budget {compactNum maxIndexSize : Nat}
    {requests : List CommitStreamSetObjectRequest}
    (hG : Guarded updateIndexFromRequest Replaces (new compactNum maxIndexSize) requests)
    (n : Nat) :
    ∃ c, run updateIndexFromRequest (new compactNum maxIndexSize) (requests.take n) = some c ∧
      c.totalSize ≤ maxIndexSize :=
  (Inv.new compactNum maxIndexSize).run_within (Nat.zero_le _) hG n

/-- A commit with one range of stream 1. -/
def rangeCommit (objectId startOffset : Nat) (compacted : List Nat) :
    CommitStreamSetObjectRequest :=
  ⟨objectId, 100, ⟨0⟩, [⟨1, 0, startOffset, startOffset + 10, 50⟩], [], compacted⟩

/-- A full index, and a compaction of the range in it. -/
theorem stays_within_budget_full : ∃ c, run updateIndexFromRequest (new 3 40)
    [rangeCommit 1 0 [], rangeCommit 2 10 [], rangeCommit 3 0 [1]] = some c ∧
      c.totalSize ≤ 40 :=
  @stays_within_budget 3 40 [rangeCommit 1 0 [], rangeCommit 2 10 [], rangeCommit 3 0 [1]]
    (by decide +kernel) 3

/-- The second range is evicted, so its compaction adds one to a full index. -/
theorem over_budget : ∃ c, run updateIndexFromRequest (new 3 40)
    [rangeCommit 1 0 [], rangeCommit 2 10 [], rangeCommit 3 10 [2]] = some c ∧
      c.maxIndexSize = 40 ∧ c.totalSize = 80 := by
  decide +kernel

/-! ## All operations -/

inductive Operation where
  | append (map : RangeIndexMap)
  | compact (map : RangeIndexMap) (ids : List Nat)
  | prune (live : List Nat)
  | clear
  | evict

def operate (c : LocalStreamRangeIndexCache) : Operation → Option LocalStreamRangeIndexCache
  | .append map => c.append map
  | .compact map ids => c.compact map ids
  | .prune live => c.prune live
  | .clear => some c.clear
  | .evict => c.evictIfNecessary

/-- A prune leaves ranges of live objects only. -/
theorem Inv.prune (h : c.Inv) (live : List Nat) : ∃ c', c.prune live = some c' ∧
    c.Leaves (fun _ r => r.objectId ∈ live) c' := by
  obtain ⟨c', hc', hleaves, -⟩ := h.updateAll (f := pruneStream live) (by
    intro id sparse next hsound hnext
    simp only [pruneStream] at hnext
    split at hnext <;> cases hnext
    exact hsound.compact none _)
  refine ⟨c', hc', hleaves.mono fun id r ⟨sparse, _, hr⟩ => ?_⟩
  simp only [updated, pruneStream] at hr
  split at hr
  next hnil => simpa using filter_eq_nil_iff.mp (List.isEmpty_iff.mp hnil) _ (mem_map_of_mem hr)
  next hne =>
    have hr : r ∈ (sparse.compact none _).1.ranges := hr
    rw [SparseRangeIndex.compact_of_ne_nil (mt List.isEmpty_iff.mpr hne)] at hr
    obtain ⟨hr, hnot⟩ := (SparseRangeIndex.mem_compactLoop.mp hr).resolve_left nofun
    by_contra hlive
    exact hnot (mem_filter.mpr ⟨mem_map_of_mem hr, decide_eq_true hlive⟩)

theorem Inv.operate (h : c.Inv) (op : Operation) :
    ∃ P c', c.operate op = some c' ∧ c.Leaves P c' := by
  cases op with
  | append map =>
    obtain ⟨c', hc', hleaves, -⟩ := h.append map
    exact ⟨_, c', hc', hleaves⟩
  | compact map ids =>
    obtain ⟨c', hc', hleaves, -⟩ := h.updateAll (f := compactStream map ids) (by
      rintro id sparse next hsound ⟨⟩
      exact hsound.compact _ ids)
    exact ⟨_, c', hc', hleaves⟩
  | prune live => exact ⟨_, h.prune live⟩
  | clear => exact ⟨fun _ _ => True, c.clear, rfl, ⟨rfl, nofun⟩, rfl, rfl, fun _ _ _ => trivial⟩
  | evict =>
    obtain ⟨c', hc', hleaves, -⟩ := h.evictLoop (Nat.lt_succ_self (c.totalSize + 1))
    exact ⟨_, c', hc', hleaves⟩

theorem Inv.run_operate (h : c.Inv) (ops : List Operation) :
    ∃ c', run LocalStreamRangeIndexCache.operate c ops = some c' ∧ c'.Inv ∧
      c'.maxIndexSize = c.maxIndexSize := by
  induction ops generalizing c with
  | nil => exact ⟨c, rfl, h, rfl⟩
  | cons op ops ih =>
    obtain ⟨_, c₁, hc₁, hleaves⟩ := h.operate op
    obtain ⟨c₂, hc₂, hinv, hmax⟩ := ih hleaves.inv
    exact ⟨c₂, run_cons.mpr ⟨c₁, hc₁, hc₂⟩, hinv, hmax.trans hleaves.maxIndexSize⟩

/-- **The books of the index balance** behind every sequence of operations, none of which fails:
the size counts the ranges, each stream has its ranges in the order of their start offsets, an
eviction ends within the budget and a prune with live objects only. -/
theorem books_balance (compactNum maxIndexSize : Nat) (ops : List Operation) :
    ∃ c, run operate (new compactNum maxIndexSize) ops = some c ∧
      c.totalSize = objectSize * c.rangeCount ∧
      (∀ e ∈ c.streams, e.2.ranges ≠ [] ∧ e.2.ranges.Pairwise StartLe) ∧
      (∃ c', c.evictIfNecessary = some c' ∧ c'.totalSize ≤ maxIndexSize) ∧
      ∀ live, ∃ c', c.prune live = some c' ∧ ∀ id r, c'.Holds id r → r.objectId ∈ live := by
  obtain ⟨c, hc, hinv, hmax⟩ := (Inv.new compactNum maxIndexSize).run_operate ops
  refine ⟨c, hc, hinv.total_eq, fun e he => ⟨(hinv.sound e he).2, (hinv.sound e he).1.sorted⟩,
    ?_, fun live => ?_⟩
  · obtain ⟨c', hc', hleaves, hle⟩ := hinv.evictLoop (Nat.lt_succ_self (c.totalSize + 1))
    exact ⟨c', hc', hle.trans_eq (hleaves.maxIndexSize.trans hmax)⟩
  · obtain ⟨c', hc', hleaves⟩ := hinv.prune live
    exact ⟨c', hc', hleaves.holds⟩

end LocalStreamRangeIndexCache

/-! ## Hooks -/

/-- The object manager that starts a task for the hook of every commit. -/
structure HookedObjectManager where
  index : LocalStreamRangeIndexCache
  committed : List CommitStreamSetObjectRequest
  /-- The tasks that have not run. -/
  hooks : List CommitStreamSetObjectRequest

namespace HookedObjectManager

inductive Action where
  | commitStreamSetObject (request : CommitStreamSetObjectRequest)
  | hook (k : Nat)

/-- The metadata plane leases every object id once, and accepts compactions of committed objects. -/
def commitStreamSetObject (s : HookedObjectManager) (request : CommitStreamSetObjectRequest) :
    Option HookedObjectManager :=
  if (∀ id ∈ request.compactedObjectIds, id ∈ s.committed.map (·.objectId)) ∧
      (request.objectId ≠ noopObjectId → request.objectId ∉ s.committed.map (·.objectId)) then
    some { s with committed := s.committed ++ [request], hooks := s.hooks ++ [request] }
  else none

def step (s : HookedObjectManager) : Action → Option HookedObjectManager
  | .commitStreamSetObject request => s.commitStreamSetObject request
  | .hook k => (s.hooks[k]?).bind fun request =>
      (s.index.updateIndexFromRequest request).map fun index =>
        { s with index, hooks := s.hooks.eraseIdx k }

/-- The hook of a compaction runs behind the hooks of the commits it compacts. -/
def HooksFollow (s : HookedObjectManager) : Action → Prop
  | .hook k => ∀ request ∈ s.hooks[k]?, ∀ p ∈ s.hooks, p.objectId ∉ request.compactedObjectIds
  | .commitStreamSetObject _ => True

instance (s : HookedObjectManager) : ∀ a, Decidable (s.HooksFollow a)
  | .hook k => inferInstanceAs (Decidable (∀ request ∈ s.hooks[k]?, _))
  | .commitStreamSetObject _ => isTrue trivial

variable {s s' : HookedObjectManager} {id : Nat}

/-- An object that no hook to come and no range of the index names. -/
structure Gone (s : HookedObjectManager) (id : Nat) : Prop where
  index : ∀ streamId r, s.index.Holds streamId r → r.objectId ≠ id
  hooks : ∀ p ∈ s.hooks, p.objectId = id → id = noopObjectId

structure Inv (s : HookedObjectManager) : Prop where
  index : s.index.Inv
  named : ∀ q ∈ s.committed, ∀ id ∈ q.compactedObjectIds, id ∈ s.committed.map (·.objectId)
  gone : ∀ q ∈ s.committed, q ∈ s.hooks ∨ ∀ id ∈ q.compactedObjectIds, s.Gone id

/-- The new ranges of a map are of the object of the request. -/
def Own (request : CommitStreamSetObjectRequest) (map : RangeIndexMap) : Prop :=
  ∀ streamId r, (streamId, some r) ∈ map →
    r.objectId = request.objectId ∧ request.objectId ≠ noopObjectId

theorem Own.insert {map : RangeIndexMap} {range : Option RangeIndex} (h : Own request map)
    (hrange : ∀ r, range = some r → r.objectId = request.objectId ∧
      request.objectId ≠ noopObjectId) : Own request (map.insert streamId range) := by
  intro id r hr
  rcases eq_or_mem_of_mem_insert hr with heq | hr
  · exact hrange r (Prod.mk.inj heq).2.symm
  · exact h id r hr

theorem own_rangeIndexMapFromRequest (request : CommitStreamSetObjectRequest) :
    Own request (LocalStreamRangeIndexCache.rangeIndexMapFromRequest request) := by
  have hranges : Own request (request.streamRanges.foldl (fun map range =>
      map.insert range.streamId (if request.objectId ≠ noopObjectId then
        some ⟨range.startOffset, range.endOffset, request.objectId⟩ else none)) .empty) := by
    refine foldlRecOn _ _ (fun _ _ hr => absurd hr (not_mem_empty _)) ?_
    intro map hmap range _
    refine hmap.insert fun r hr => ?_
    split at hr <;> cases hr
    next hne => exact ⟨rfl, hne⟩
  unfold LocalStreamRangeIndexCache.rangeIndexMapFromRequest
  dsimp only
  split
  · exact hranges
  · refine foldlRecOn _ _ hranges fun map hmap o _ => ?_
    split
    · exact hmap
    · exact hmap.insert nofun

theorem Inv.commit (h : s.Inv) (hstep : s.commitStreamSetObject request = some s') : s'.Inv := by
  rw [HookedObjectManager.commitStreamSetObject] at hstep
  split at hstep <;> cases hstep
  next hguard =>
    have hmap : ∀ id ∈ s.committed.map (·.objectId),
        id ∈ (s.committed ++ [request]).map (·.objectId) := fun id hid => by
      rw [map_append]
      exact mem_append_left _ hid
    refine ⟨h.index, fun q hq id hid => hmap id ?_, fun q hq => ?_⟩
    · rcases mem_append.mp hq with hq | hq
      · exact h.named q hq id hid
      · obtain rfl := mem_singleton.mp hq
        exact hguard.1 id hid
    · rcases mem_append.mp hq with hold | hold
      · refine (h.gone q hold).imp (mem_append_left _) fun hgone id hid =>
          ⟨(hgone id hid).index, fun p hp heq => ?_⟩
        -- A new object is not one that was committed, so it is not one that was compacted.
        rcases mem_append.mp hp with hp | hp
        · exact (hgone id hid).hooks p hp heq
        · obtain rfl := mem_singleton.mp hp
          by_contra hne
          subst heq
          exact hguard.2 hne (h.named q hold _ hid)
      · obtain rfl := mem_singleton.mp hold
        exact .inl mem_concat_self

theorem Inv.hook (h : s.Inv) (hG : s.HooksFollow (.hook k)) (hstep : s.step (.hook k) = some s') :
    s'.Inv := by
  obtain ⟨request, hk, hstep⟩ := Option.bind_eq_some_iff.mp hstep
  obtain ⟨index, hindex, rfl⟩ := Option.map_eq_some_iff.mp hstep
  obtain ⟨_, hindex', hleaves, -⟩ := h.index.updateIndexFromRequest request
  cases hindex.symm.trans hindex'
  have hmem : request ∈ s.hooks := mem_of_getElem? hk
  have hsub : ∀ p ∈ s.hooks.eraseIdx k, p ∈ s.hooks := fun p => mem_of_mem_eraseIdx
  have hown := own_rangeIndexMapFromRequest request
  refine ⟨hleaves.inv, h.named, fun q hq => ?_⟩
  by_cases heq : q = request
  · -- The hook of `q` itself: what it compacts is gone and nobody brings it back.
    subst heq
    refine .inr fun id hid => ⟨fun streamId r hr hrid => ?_, fun p hp hpid => ?_⟩
    · rcases hleaves.holds streamId r hr with ⟨-, hnot⟩ | hnew
      · exact hnot (hrid ▸ hid)
      · exact hG q hk q hmem ((hown _ _ hnew).1 ▸ hrid ▸ hid)
    · exact absurd (hpid ▸ hid) (hG q hk p (hsub p hp))
  · rcases h.gone q hq with hhook | hgone
    · left
      obtain ⟨j, hj⟩ := mem_iff_getElem?.mp hhook
      refine (mem_eraseIdx_iff_getElem? ).mpr ⟨j, fun hjk => heq ?_, hj⟩
      subst hjk
      exact Option.some.inj (hj.symm.trans hk)
    · refine .inr fun id hid => ⟨fun streamId r hr hrid => ?_, fun p hp => (hgone id hid).hooks p
        (hsub p hp)⟩
      rcases hleaves.holds streamId r hr with ⟨hr, -⟩ | hnew
      · exact (hgone id hid).index streamId r hr hrid
      · obtain ⟨hobject, hne⟩ := hown _ _ hnew
        exact hne (((hgone id hid).hooks request hmem (hobject.symm.trans hrid)).symm ▸
          hobject.symm.trans hrid)

theorem mem_of_binarySearchObjectId {ranges : List RangeIndex}
    (h : binarySearchObjectId offset ranges = some id) : ∃ r ∈ ranges, r.objectId = id := by
  have hget : ∀ i : Nat, ranges[i]?.map RangeIndex.objectId = some id →
      ∃ r ∈ ranges, r.objectId = id := by
    intro i hi
    obtain ⟨r, hr, heq⟩ := Option.map_eq_some_iff.mp hi
    exact ⟨r, mem_of_getElem? hr, heq⟩
  rw [binarySearchObjectId] at h
  split at h
  · cases h
  split at h
  · exact hget _ h
  · cases h
  · exact hget _ h

/-- **The index names no compacted object** when every compaction's hook runs behind the hooks of
the commits it compacts. -/
theorem compacted_not_found {index : LocalStreamRangeIndexCache} (hindex : index.Inv)
    {as : List Action} (hG : Guarded step HooksFollow ⟨index, [], []⟩ as)
    (hrun : run step ⟨index, [], []⟩ as = some s) (hdone : s.hooks = []) :
    ∀ request ∈ s.committed, ∀ id ∈ request.compactedObjectIds, ∀ streamId offset,
      s.index.searchObjectId streamId offset ≠ some id := by
  have hinv : s.Inv := by
    refine run_invariant_of_guarded (fun {s a s'} h hG hstep => ?_)
      ⟨hindex, fun _ hq => absurd hq not_mem_nil, fun _ hq => absurd hq not_mem_nil⟩ hG hrun
    cases a with
    | commitStreamSetObject => exact h.commit hstep
    | hook => exact h.hook hG hstep
  intro request hrequest id hid streamId offset hsearch
  rcases hinv.gone request hrequest with hhook | hgone
  · rw [hdone] at hhook
    cases hhook
  · obtain ⟨sparse, hsparse, hfound⟩ := Option.bind_eq_some_iff.mp hsearch
    obtain ⟨r, hr, hobject⟩ := mem_of_binarySearchObjectId hfound
    exact (hgone id hid).index streamId r ⟨sparse, hsparse, hr⟩ hobject

/-- An upload and its compaction. -/
def twoCommits : List Action :=
  [.commitStreamSetObject (.mk 1 100 ⟨0⟩ [⟨1, 0, 0, 10, 50⟩] [] []),
    .commitStreamSetObject (.mk 2 100 ⟨0⟩ [⟨1, 0, 0, 10, 50⟩] [] [1])]

theorem compacted_not_found_in_order : ∃ s, run step ⟨.new 3 1000, [], []⟩
    (twoCommits ++ [.hook 0, .hook 0]) = some s ∧
    (s.hooks = [] ∧ s.index.searchObjectId 1 5 = some 2) ∧
    s.index.searchObjectId 1 5 ≠ some 1 := by
  obtain ⟨s, hs, hdone, hsearch, hlast⟩ : ∃ s, run step ⟨.new 3 1000, [], []⟩
      (twoCommits ++ [.hook 0, .hook 0]) = some s ∧ s.hooks = [] ∧
      s.index.searchObjectId 1 5 = some 2 ∧
      ∃ q ∈ s.committed, 1 ∈ q.compactedObjectIds := by
    decide +kernel
  obtain ⟨q, hq, hcompacted⟩ := hlast
  exact ⟨s, hs, ⟨hdone, hsearch⟩, compacted_not_found (.new 3 1000) (by decide +kernel) hs hdone
    q hq 1 hcompacted 1 5⟩

/-- The hook of the compaction runs first, and the hook of the upload brings the object back. -/
theorem compacted_found : ∃ s, run step ⟨.new 3 1000, [], []⟩
    (twoCommits ++ [.hook 1, .hook 0]) = some s ∧ s.hooks = [] ∧
    (∃ q ∈ s.committed, 1 ∈ q.compactedObjectIds) ∧ s.index.searchObjectId 1 5 = some 1 := by
  decide +kernel

end HookedObjectManager

end S3Stream
