import S3Stream.Core.CacheReads

/-! # The blocks of the log cache

What merging two blocks and putting a record do to the records of a stream, to the bounds of a block
and to the ids of the blocks. -/

namespace S3Stream

open List Windows LogCacheBlock OrdMap

namespace LogCache

variable {b : LogCacheBlock} {streamId : Nat}

/-! ## Merging two blocks -/

/-- The block that `try_merge` puts in the place of two free ones. -/
def merged (n : Nat) (left right : LogCacheBlock) : LogCacheBlock :=
  { mergeBlock (mergeBlock (.new n (2 ^ 64 - 1) defaultMaxBlockStreamCount) left) right with
    free := true }

def mergedStream (source : StreamCache) : Option StreamCache → StreamCache
  | none => source
  | some c => { c with records := c.records ++ source.records, endOffset := source.endOffset }

theorem get?_mergeStream (map : OrdMap Nat StreamCache) (id : Nat) (source : StreamCache) :
    (mergeStream map id source).get? streamId =
      if streamId = id then some (mergedStream source (map.get? id)) else map.get? streamId := by
  by_cases hid : streamId = id
  · subst hid
    rw [if_pos rfl, mergeStream]
    split
    next hget => rw [hget, get?_insert_self]; rfl
    next c hget => rw [hget, get?_insert_self]; rfl
  · rw [if_neg hid, mergeStream]
    split <;> rw [get?_insert_of_ne hid]

theorem get?_foldl_mergeStream (map : OrdMap Nat StreamCache) {es : List (Nat × StreamCache)}
    (hes : es.Pairwise fun a b => a.1 < b.1) :
    (es.foldl (fun map e => mergeStream map e.1 e.2) map).get? streamId =
      match es.find? (fun e => e.1 = streamId) with
      | none => map.get? streamId
      | some e => some (mergedStream e.2 (map.get? streamId)) := by
  induction es generalizing map with
  | nil => rfl
  | cons e es ih =>
    obtain ⟨hlt, hes⟩ := pairwise_cons.mp hes
    rw [foldl_cons, ih _ hes, get?_mergeStream]
    by_cases hid : e.1 = streamId
    · -- Later entries have larger keys.
      have hnone : es.find? (fun e => e.1 = streamId) = none := by
        rw [find?_eq_none]
        intro d hd hkey
        have hgt := hlt d hd
        have hsame : d.1 = streamId := by simpa using hkey
        omega
      rw [hnone, find?_cons_of_pos (by simpa using hid), if_pos hid.symm, hid]
    · rw [find?_cons_of_neg (by simpa using hid), if_neg (Ne.symm hid)]

theorem get?_mergeBlock (merged source : LogCacheBlock) :
    (mergeBlock merged source).map.get? streamId =
      match source.map.get? streamId with
      | none => merged.map.get? streamId
      | some c => some (mergedStream c (merged.map.get? streamId)) := by
  have hget : source.map.get? streamId =
      (source.map.entries.find? fun e => e.1 = streamId).map (·.2) := rfl
  rw [mergeBlock, get?_foldl_mergeStream merged.map source.map.sorted, hget]
  cases source.map.entries.find? (fun e => e.1 = streamId) <;> rfl

theorem get?_merged : (merged n left right).map.get? streamId =
    match right.map.get? streamId with
    | none => left.map.get? streamId
    | some c => some (mergedStream c (left.map.get? streamId)) := by
  have hleft : (mergeBlock (.new n (2 ^ 64 - 1) defaultMaxBlockStreamCount) left).map.get?
      streamId = left.map.get? streamId := by
    rw [get?_mergeBlock]
    cases left.map.get? streamId <;> rfl
  show (mergeBlock (mergeBlock _ left) right).map.get? streamId = _
  rw [get?_mergeBlock, hleft]

theorem endOffset_eq_of_continuous (h : isDiscontinuous left right = false)
    (hleft : left.map.get? streamId = some c) (hright : right.map.get? streamId = some c') :
    c.endOffset = c'.startOffset := by
  have hnot := any_eq_false.mp h (streamId, c) (mem_of_get? hleft)
  simpa [hright] using hnot

theorem streamRecords_merged :
    (merged n left right).streamRecords streamId =
      left.streamRecords streamId ++ right.streamRecords streamId := by
  simp only [streamRecords, get?_merged]
  cases left.map.get? streamId <;> cases right.map.get? streamId <;> simp [mergedStream]

theorem spanned_merged (hleft : left.Spanned) (hright : right.Spanned)
    (h : isDiscontinuous left right = false) : (merged n left right).Spanned := by
  intro streamId c hc
  rw [get?_merged] at hc
  cases hr : right.map.get? streamId with
  | none =>
    rw [hr] at hc
    exact hleft streamId c hc
  | some c₂ =>
    rw [hr] at hc
    have hspan₂ := hright streamId c₂ hr
    cases hl : left.map.get? streamId with
    | none =>
      rw [hl] at hc
      cases hc
      exact hspan₂
    | some c₁ =>
      rw [hl] at hc
      cases hc
      have hend := endOffset_eq_of_continuous h hl hr
      have hspan₁ := hleft streamId c₁ hl
      cases hspan₁ with
      | empty =>
        cases hspan₂ with
        | empty => exact .empty
        | run => cases hend
      | run htile₁ hne =>
        cases hspan₂ with
        | empty => cases hend
        | run htile₂ =>
          cases hend
          exact .run (Tiles.append.mpr ⟨_, htile₁, htile₂⟩)
            fun hnil => hne (append_eq_nil_iff.mp hnil).1

/-- A round of `try_merge` that merges. -/
inductive MergeStep : List LogCacheBlock × Nat → List LogCacheBlock × Nat → Prop
  | merge (us : List LogCacheBlock) {vs : List LogCacheBlock} {left right : LogCacheBlock} {n : Nat}
      (hleft : left.free = true) (hright : right.free = true)
      (hcont : isDiscontinuous left right = false) :
      MergeStep (us ++ left :: right :: vs, n) (us ++ merged n left right :: vs, n + 1)

theorem MergeStep.cons (b : LogCacheBlock) (h : MergeStep p q) :
    MergeStep (b :: p.1, p.2) (b :: q.1, q.2) := by
  cases h with
  | merge us hleft hright hcont => exact .merge (b :: us) hleft hright hcont

/-- The loop of `try_merge` is a sequence of merges. -/
theorem mergeFrom_steps (c : LogCache) (before n : Nat) (left : LogCacheBlock)
    (rest : List LogCacheBlock) :
    Relation.ReflTransGen MergeStep (left :: rest, n) (c.mergeFrom before n left rest) := by
  induction rest generalizing before n left with
  | nil => exact .refl
  | cons right rest ih =>
    rw [mergeFrom]
    split
    · exact .refl
    next hfree =>
      simp only [Bool.or_eq_true, Bool.not_eq_true', not_or, Bool.not_eq_false] at hfree
      split
      · exact Relation.ReflTransGen.lift (fun p : List LogCacheBlock × Nat => (left :: p.1, p.2))
          (fun _ _ h => MergeStep.cons left h) _ _ (ih (before + 1) n right)
      next hcont =>
        rw [Bool.or_eq_true, not_or, Bool.not_eq_true, Bool.not_eq_true] at hcont
        exact .head (.merge [] hfree.1.2 hfree.2 hcont.2) (ih before (n + 1) _)

theorem tryMerge_steps (c : LogCache) : Relation.ReflTransGen MergeStep (c.archived, c.nextBlockId)
    (c.tryMerge.archived, c.tryMerge.nextBlockId) := by
  unfold tryMerge
  split
  next h => rw [h]
  next left rest h =>
    rw [h]
    exact mergeFrom_steps c 0 c.nextBlockId left rest

/-- What every merge keeps of the archived blocks and the next block id, `try_merge` keeps. -/
theorem tryMerge_induction {P : List LogCacheBlock → Nat → Prop} (c : LogCache)
    (hP : P c.archived c.nextBlockId)
    (hmerge : ∀ (us vs : List LogCacheBlock) (left right : LogCacheBlock) (n : Nat),
      left.free = true → right.free = true → isDiscontinuous left right = false →
      P (us ++ left :: right :: vs) n → P (us ++ merged n left right :: vs) (n + 1)) :
    P c.tryMerge.archived c.tryMerge.nextBlockId := by
  have hsteps := tryMerge_steps c
  suffices hall : ∀ p, Relation.ReflTransGen MergeStep (c.archived, c.nextBlockId) p →
      P p.1 p.2 from hall _ hsteps
  intro p hsteps
  induction hsteps with
  | refl => exact hP
  | tail _ hstep ih =>
    cases hstep with
    | merge us hleft hright hcont => exact hmerge us _ _ _ _ hleft hright hcont ih

theorem mem_of_mem_merge (hb : b ∈ us ++ merged n left right :: vs) :
    b = merged n left right ∨ b ∈ us ++ left :: right :: vs := by
  rcases mem_append.mp hb with hb | hb
  · exact .inr (mem_append_left _ hb)
  · rcases mem_cons.mp hb with rfl | hb
    · exact .inl rfl
    · exact .inr (mem_append_right _ (mem_cons_of_mem _ (mem_cons_of_mem _ hb)))

/-! ## Block ids -/

/-- The blocks have different ids, and `n` is the next one. -/
structure Numbered (bs : List LogCacheBlock) (n : Nat) : Prop where
  ids : (bs.map LogCacheBlock.blockId).Nodup
  idLt : ∀ b ∈ bs, b.blockId < n

namespace Numbered

theorem drop (h : Numbered (ds ++ bs) n) : Numbered bs n := by
  have hids := h.ids
  rw [map_append] at hids
  exact ⟨(nodup_append.mp hids).2.1, fun b hb => h.idLt b (mem_append_right _ hb)⟩

theorem map (h : Numbered bs n) (hid : ∀ b, (f b).blockId = b.blockId) : Numbered (bs.map f) n := by
  refine ⟨?_, fun b hb => ?_⟩
  · rw [map_map, show blockId ∘ f = blockId from funext hid]
    exact h.ids
  · obtain ⟨d, hd, rfl⟩ := mem_map.mp hb
    rw [hid]
    exact h.idLt d hd

theorem snoc (h : Numbered bs n) (maxSize maxStreamCount : Nat) :
    Numbered (bs ++ [.new n maxSize maxStreamCount]) (n + 1) := by
  refine ⟨?_, fun b hb => ?_⟩
  · rw [map_append, map_singleton]
    refine nodup_append.mpr ⟨h.ids, nodup_singleton _, ?_⟩
    rintro _ hk _ hk' rfl
    obtain ⟨b, hb, hid⟩ := mem_map.mp hk
    have hlt := h.idLt b hb
    rw [hid, mem_singleton.mp hk'] at hlt
    exact absurd hlt (lt_irrefl _)
  · exact forall_mem_append.mpr
      ⟨fun b hb => Nat.lt_succ_of_lt (h.idLt b hb),
        forall_mem_singleton.mpr (Nat.lt_succ_self n)⟩ b hb

theorem replace_last (h : Numbered (bs ++ [b]) n) (hid : d.blockId = b.blockId) :
    Numbered (bs ++ [d]) n := by
  obtain ⟨hids, hlt⟩ := h
  constructor
  · rw [map_append, map_singleton] at hids ⊢
    rwa [hid]
  · rw [forall_mem_append, forall_mem_singleton] at hlt ⊢
    exact ⟨hlt.1, hid ▸ hlt.2⟩

theorem merge (h : Numbered (us ++ left :: right :: vs) n) :
    Numbered (us ++ merged n left right :: vs) (n + 1) := by
  refine ⟨?_, fun b hb => ?_⟩
  · have hsub : (us ++ vs).Sublist (us ++ left :: right :: vs) :=
      (List.Sublist.refl us).append ((sublist_cons_self _ _).trans (sublist_cons_self _ _))
    have hnodup := h.ids.sublist (hsub.map blockId)
    rw [map_append] at hnodup
    rw [map_append, map_cons, nodup_middle]
    refine nodup_cons.mpr ⟨fun hk => ?_, hnodup⟩
    rw [← map_append] at hk
    obtain ⟨b, hb, hid⟩ := mem_map.mp hk
    exact absurd hid (h.idLt b (hsub.subset hb)).ne
  · rcases mem_of_mem_merge hb with rfl | hb
    · exact Nat.lt_succ_self n
    · exact Nat.lt_succ_of_lt (h.idLt b hb)

end Numbered

end LogCache

/-! ## Putting a record -/

namespace StreamCache

variable {c c' : StreamCache} {r : StreamRecordBatch}

theorem Spanned.endOffset_eq (h : c.Spanned) :
    c.endOffset = c.records.getLast?.map StreamRecordBatch.lastOffset := by
  cases h with
  | empty => rfl
  | run htile hne =>
    have hlast := getLast?_eq_getLast_of_ne_nil hne
    rw [hlast, ← htile.hi_getLast hlast]
    rfl

/-- A record that goes on where the stream ends keeps the bounds right. -/
theorem Spanned.add (h : c.Spanned) (hadd : c.add r = some c')
    (hcount : r.baseOffset < r.lastOffset) (hnext : ∀ e ∈ c.endOffset, r.baseOffset = e) :
    c'.Spanned := by
  simp only [StreamCache.add, Option.ite_none_left_eq_some, Option.some.injEq] at hadd
  obtain ⟨-, rfl⟩ := hadd
  cases h with
  | empty => exact .run ⟨rfl, hcount, rfl⟩ (cons_ne_nil _ _)
  | run htile hne =>
    exact .run (htile.snoc (hnext _ rfl) hcount)
      (append_ne_nil_of_right_ne_nil _ (cons_ne_nil _ _))

end StreamCache

namespace LogCacheBlock

variable {b : LogCacheBlock} {r : StreamRecordBatch}

theorem streamRecords_insert (id streamId : Nat) :
    ({ b with map := b.map.insert id c } : LogCacheBlock).streamRecords streamId =
      if streamId = id then c.records else b.streamRecords streamId := by
  by_cases hid : streamId = id
  · subst hid
    rw [if_pos rfl, streamRecords, get?_insert_self]
    rfl
  · rw [if_neg hid, streamRecords, get?_insert_of_ne hid, streamRecords]

theorem records_getD (b : LogCacheBlock) (streamId : Nat) :
    ((b.map.get? streamId).getD StreamCache.new).records = b.streamRecords streamId := by
  rw [streamRecords]
  cases b.map.get? streamId <;> rfl

/-- A record that is taken is the last one of its stream; nothing else changes. -/
theorem streamRecords_put (b : LogCacheBlock) (r : StreamRecordBatch) (streamId : Nat) :
    (b.put r).1.streamRecords streamId = b.streamRecords streamId ++
      if (b.put r).2 = true ∧ r.streamId = streamId then [r] else [] := by
  generalize hp : b.put r = p
  cases put_effect hp with
  | full => simp
  | @overflow c _ hc =>
    show ({ b with map := b.map.insert r.streamId c } : LogCacheBlock).streamRecords streamId = _
    rw [streamRecords_insert, hc, records_getD]
    split
    next hid => simp [hid]
    next => simp
  | @added c c' _ hc hadd =>
    show ({ b with map := b.map.insert r.streamId c' } : LogCacheBlock).streamRecords streamId = _
    rw [streamRecords_insert, StreamCache.records_of_add hadd, hc, records_getD]
    split
    next hid => simp [hid]
    next hid => simp [Ne.symm hid]

theorem Spanned.insert {id : Nat} (h : b.Spanned) (hc : c.Spanned) :
    ({ b with map := b.map.insert id c } : LogCacheBlock).Spanned := by
  intro streamId c' hget
  by_cases hid : streamId = id
  · subst hid
    rw [get?_insert_self] at hget
    cases hget
    exact hc
  · rw [get?_insert_of_ne hid] at hget
    exact h streamId c' hget

theorem Spanned.getD (h : b.Spanned) (streamId : Nat) :
    ((b.map.get? streamId).getD StreamCache.new).Spanned := by
  cases hget : b.map.get? streamId with
  | none => exact .empty
  | some c => exact h streamId c hget

/-- A record that goes on where its stream ends in the block keeps the bounds right. -/
theorem Spanned.put (h : b.Spanned) (hcount : r.baseOffset < r.lastOffset)
    (hnext : ∀ q ∈ (b.streamRecords r.streamId).getLast?, r.baseOffset = q.lastOffset) :
    (b.put r).1.Spanned := by
  generalize hp : b.put r = p
  have hspan := h.getD r.streamId
  rw [← records_getD] at hnext
  cases put_effect hp with
  | full => exact h
  | @overflow c _ hc => exact h.insert (hc ▸ hspan)
  | @added c c' _ hc hadd =>
    rw [← hc] at hspan hnext
    refine h.insert (hspan.add hadd hcount fun e he => ?_)
    rw [hspan.endOffset_eq] at he
    obtain ⟨q, hq, rfl⟩ := Option.map_eq_some_iff.mp he
    exact hnext q hq

end LogCacheBlock

end S3Stream
