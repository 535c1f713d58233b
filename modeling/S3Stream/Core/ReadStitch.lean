import S3Stream.Core.CacheBlocks

/-! # Stitched reads are exact

Whatever is put, archived, marked free, released and merged, the cached records of a stream are the
end of its confirmed records, and everything before them is committed. So a read that the log cache
and a block cache over the committed records answer together is a contiguous run of the confirmed
records. -/

namespace S3Stream

open List TransitionSystem Windows
open StreamRecordBatch (baseOffset lastOffset size)
open LogCache (blocks merged)

/-! ## The history of a cache -/

/-- A log cache with its notes and its history: the records that were confirmed, and how far each
stream is committed. -/
structure CachedLog where
  cache : LogCache
  notes : OffsetIndexes
  confirmed : List StreamRecordBatch
  committed : Nat → Nat

namespace CachedLog

/-- A node that has just started: its cache is empty, and `stored` are the records that were
committed before. -/
def new (capacity cacheBlockMaxSize maxCacheBlockStreamCount : Nat)
    (stored : List StreamRecordBatch) : CachedLog where
  cache := .new capacity cacheBlockMaxSize maxCacheBlockStreamCount
  notes := fun _ _ _ => none
  confirmed := stored
  committed := fun streamId => ((stored.filter (·.streamId = streamId)).getLast?.map
    lastOffset).getD 0

inductive Action where
  | put (record : StreamRecordBatch)
  | archive
  | archiveIfContains (streamId : Nat)
  | commit (streamId endOffset : Nat)
  /-- `mark_free`, with the releases and merges behind it. -/
  | markFree (blockId : Nat)
  | get (streamId startOffset endOffset maxBytes : Nat)

def step (s : CachedLog) : Action → Option CachedLog
  | .put record =>
    let (cache, added) := s.cache.put record
    some { s with cache, confirmed := if added then s.confirmed ++ [record] else s.confirmed }
  | .archive => some { s with cache := s.cache.archiveCurrentBlock.1 }
  | .archiveIfContains streamId =>
    some { s with cache := (s.cache.archiveCurrentBlockIfContains streamId).1 }
  | .commit streamId endOffset =>
    some { s with committed :=
      Function.update s.committed streamId (max (s.committed streamId) endOffset) }
  | .markFree blockId => some { s with cache := s.cache.markFree blockId }
  | .get streamId startOffset endOffset maxBytes =>
    some { s with notes := (s.cache.get s.notes streamId startOffset endOffset maxBytes).2 }

def streamRecords (s : CachedLog) (streamId : Nat) : List StreamRecordBatch :=
  s.confirmed.filter (·.streamId = streamId)

/-- What the callers of the cache see to: the records of a stream are contiguous and count at least
one, only confirmed records are committed, and only committed blocks are marked free. -/
def Allowed (s : CachedLog) : Action → Prop
  | .put record => (1 ≤ record.count ∧ record.count ≤ i32Max) ∧
      (s.streamRecords record.streamId).getLast?.all (record.baseOffset = ·.lastOffset) = true
  | .commit streamId endOffset =>
      (s.streamRecords streamId).getLast?.any (endOffset ≤ ·.lastOffset) = true
  | .markFree blockId => ∀ b ∈ s.cache.archived, b.blockId = blockId →
      ∀ e ∈ b.map.entries, ∀ r ∈ e.2.records, r.lastOffset ≤ s.committed e.1
  | .archive | .archiveIfContains _ | .get .. => True

instance (s : CachedLog) : ∀ a, Decidable (s.Allowed a)
  | .put _ => inferInstanceAs (Decidable ((_ ∧ _) ∧ Option.all _ _ = true))
  | .commit _ _ => inferInstanceAs (Decidable (Option.any _ _ = true))
  | .markFree _ => inferInstanceAs (Decidable (∀ b ∈ s.cache.archived, _))
  | .archive | .archiveIfContains _ | .get .. => isTrue trivial

/-! ## The cached records are the end of the confirmed ones -/

variable {s s' : CachedLog} {r : StreamRecordBatch} {bs ds : List LogCacheBlock}
  {confirmed : List StreamRecordBatch} {committed : Nat}

/-- The records behind a boundary are those in the blocks, and the ones before it are committed. -/
def Ends (confirmed : List StreamRecordBatch) (committed : Nat)
    (cached : List StreamRecordBatch) : Prop :=
  ∃ pre first mid stop, confirmed = pre ++ cached ∧ RecordsTile first pre mid ∧
    RecordsTile mid cached stop ∧ (pre = [] ∨ mid ≤ committed)

theorem ends_nil (h : RecordsTile first confirmed stop) :
    Ends confirmed ((confirmed.getLast?.map lastOffset).getD 0) [] := by
  refine ⟨confirmed, first, stop, stop, (append_nil _).symm, h, rfl, ?_⟩
  cases hlast : confirmed.getLast? with
  | none => exact .inl (getLast?_eq_none_iff.mp hlast)
  | some r => exact .inr (h.hi_getLast hlast).ge

theorem Ends.mono (h : Ends confirmed committed cached) (hle : committed ≤ committed') :
    Ends confirmed committed' cached := by
  obtain ⟨pre, first, mid, stop, heq, hpre, hcached, hmid⟩ := h
  exact ⟨pre, first, mid, stop, heq, hpre, hcached, hmid.imp_right fun hm => hm.trans hle⟩

theorem Ends.drop (h : Ends confirmed committed (front ++ back))
    (hfront : ∀ r ∈ front, r.lastOffset ≤ committed) : Ends confirmed committed back := by
  obtain ⟨pre, first, mid, stop, heq, hpre, hcached, hmid⟩ := h
  obtain ⟨cut, hfront', hback⟩ := Tiles.append.mp hcached
  refine ⟨pre ++ front, first, cut, stop, by rw [heq, append_assoc],
    Tiles.append.mpr ⟨mid, hpre, hfront'⟩, hback, ?_⟩
  cases hlast : front.getLast? with
  | none =>
    obtain rfl := getLast?_eq_none_iff.mp hlast
    obtain rfl : mid = cut := hfront'
    rwa [append_nil]
  | some r =>
    exact .inr (hfront'.hi_getLast hlast ▸ hfront r (mem_of_getLast? hlast))

/-- A record that goes on where its stream has ended is put behind the others. -/
theorem Ends.snoc (h : Ends confirmed committed cached) (hcount : r.baseOffset < r.lastOffset)
    (hnext : ∀ q ∈ confirmed.getLast?, r.baseOffset = q.lastOffset) :
    Ends (confirmed ++ [r]) committed (cached ++ [r]) := by
  obtain ⟨pre, first, mid, stop, rfl, hpre, hcached, hmid⟩ := h
  cases hlast : (pre ++ cached).getLast? with
  | none =>
    obtain ⟨rfl, rfl⟩ := append_eq_nil_iff.mp (getLast?_eq_none_iff.mp hlast)
    exact ⟨[], r.baseOffset, r.baseOffset, r.lastOffset, rfl, rfl, ⟨rfl, hcount, rfl⟩, .inl rfl⟩
  | some q =>
    have hall : RecordsTile first (pre ++ cached) stop := Tiles.append.mpr ⟨mid, hpre, hcached⟩
    have hbase : r.baseOffset = stop := (hnext q hlast).trans (hall.hi_getLast hlast)
    exact ⟨pre, first, mid, r.lastOffset, append_assoc .., hpre, hcached.snoc hbase hcount, hmid⟩

def cachedRecords (bs : List LogCacheBlock) (streamId : Nat) : List StreamRecordBatch :=
  bs.flatMap (·.streamRecords streamId)

/-- The invariant of the cache, with `bs` for its blocks and `n` for the next block id. -/
structure Held (bs : List LogCacheBlock) (n : Nat) (notes : OffsetIndexes)
    (confirmed : Nat → List StreamRecordBatch) (committed : Nat → Nat) : Prop where
  ids : (bs.map LogCacheBlock.blockId).Nodup
  idLt : ∀ b ∈ bs, b.blockId < n
  blank : ∀ k, n ≤ k → ∀ streamId, notes k streamId = fun _ => none
  spanned : ∀ b ∈ bs, b.Spanned
  agree : BlockNotesAgree bs notes
  free : ∀ b ∈ bs, b.free = true → ∀ streamId, ∀ r ∈ b.streamRecords streamId,
    r.lastOffset ≤ committed streamId
  ends : ∀ streamId, Ends (confirmed streamId) (committed streamId) (cachedRecords bs streamId)

variable {n n' : Nat} {notes : OffsetIndexes} {confirmedOf : Nat → List StreamRecordBatch}
  {committedOf : Nat → Nat}

theorem Held.numbered (h : Held bs n notes confirmedOf committedOf) : LogCache.Numbered bs n :=
  ⟨h.ids, h.idLt⟩

theorem Held.drop (h : Held (ds ++ bs) n notes confirmedOf committedOf)
    (hfree : ∀ d ∈ ds, d.free = true) : Held bs n notes confirmedOf committedOf := by
  have hsub : ∀ b ∈ bs, b ∈ ds ++ bs := fun b hb => mem_append_right _ hb
  refine ⟨h.numbered.drop.ids, h.numbered.drop.idLt, h.blank, fun b hb => h.spanned b (hsub b hb),
    fun b hb => h.agree b (hsub b hb), fun b hb => h.free b (hsub b hb), fun streamId => ?_⟩
  have hends := h.ends streamId
  rw [cachedRecords, flatMap_append] at hends
  refine hends.drop fun r hr => ?_
  obtain ⟨d, hd, hr⟩ := mem_flatMap.mp hr
  exact h.free d (mem_append_left _ hd) (hfree d hd) streamId r hr

theorem Held.merge (h : Held (us ++ left :: right :: vs) n notes confirmedOf committedOf)
    (hleft : left.free = true) (hright : right.free = true)
    (hcont : LogCache.isDiscontinuous left right = false) :
    Held (us ++ merged n left right :: vs) (n + 1) notes confirmedOf committedOf := by
  have hmemL : left ∈ us ++ left :: right :: vs := by simp
  have hmemR : right ∈ us ++ left :: right :: vs := by simp
  have hold : ∀ b ∈ us ++ merged n left right :: vs,
      b = merged n left right ∨ b ∈ us ++ left :: right :: vs :=
    fun _ => LogCache.mem_of_mem_merge
  refine ⟨h.numbered.merge.ids, h.numbered.merge.idLt,
    fun k hk => h.blank k (Nat.le_of_succ_le hk), fun b hb => ?_, fun b hb => ?_,
    fun b hb hfree streamId r hr => ?_, fun streamId => ?_⟩
  · rcases hold b hb with rfl | hb
    · exact LogCache.spanned_merged (h.spanned _ hmemL) (h.spanned _ hmemR) hcont
    · exact h.spanned b hb
  · rcases hold b hb with rfl | hb
    · intro streamId
      show NotesAgree _ (notes n streamId)
      rw [h.blank n le_rfl]
      exact notesAgree_empty _
    · exact h.agree b hb
  · rcases hold b hb with rfl | hb
    · rw [LogCache.streamRecords_merged] at hr
      rcases mem_append.mp hr with hr | hr
      · exact h.free left hmemL hleft streamId r hr
      · exact h.free right hmemR hright streamId r hr
    · exact h.free b hb hfree streamId r hr
  · have hends := h.ends streamId
    simp only [cachedRecords, flatMap_append, flatMap_cons,
      LogCache.streamRecords_merged, append_assoc] at hends ⊢
    exact hends

theorem Held.tryMerge {c : LogCache}
    (h : Held (c.archived ++ [b]) c.nextBlockId notes confirmedOf committedOf) :
    Held (c.tryMerge.archived ++ [b]) c.tryMerge.nextBlockId notes confirmedOf committedOf := by
  refine c.tryMerge_induction
    (P := fun bs n => Held (bs ++ [b]) n notes confirmedOf committedOf) h ?_
  intro us vs left right n hleft hright hcont hbs
  rw [append_assoc, cons_append, cons_append] at hbs
  rw [append_assoc, cons_append]
  exact hbs.merge hleft hright hcont

theorem Held.map (h : Held bs n notes confirmedOf committedOf)
    (hid : ∀ b, (f b).blockId = b.blockId) (hmap : ∀ b, (f b).map = b.map)
    (hfree : ∀ b ∈ bs, (f b).free = true → ∀ streamId, ∀ r ∈ b.streamRecords streamId,
      r.lastOffset ≤ committedOf streamId) : Held (bs.map f) n notes confirmedOf committedOf := by
  have hrecords : ∀ b streamId, (f b).streamRecords streamId = b.streamRecords streamId :=
    fun b streamId => by rw [LogCacheBlock.streamRecords, hmap, LogCacheBlock.streamRecords]
  refine ⟨(h.numbered.map hid).ids, (h.numbered.map hid).idLt, h.blank, fun b hb => ?_,
    fun b hb => ?_, fun b hb hf => ?_, fun streamId => ?_⟩
  · obtain ⟨d, hd, rfl⟩ := mem_map.mp hb
    intro streamId c hc
    rw [hmap] at hc
    exact h.spanned d hd streamId c hc
  · obtain ⟨d, hd, rfl⟩ := mem_map.mp hb
    intro streamId
    rw [hrecords, hid]
    exact h.agree d hd streamId
  · obtain ⟨d, hd, rfl⟩ := mem_map.mp hb
    intro streamId r hr
    rw [hrecords] at hr
    exact hfree d hd hf streamId r hr
  · have hends := h.ends streamId
    rw [cachedRecords, flatMap_map]
    simpa only [cachedRecords, hrecords] using hends

theorem Held.snoc (h : Held bs n notes confirmedOf committedOf) (maxSize maxStreamCount : Nat) :
    Held (bs ++ [.new n maxSize maxStreamCount]) (n + 1) notes confirmedOf committedOf := by
  have hnumbered := h.numbered.snoc maxSize maxStreamCount
  refine ⟨hnumbered.ids, hnumbered.idLt, fun k hk => h.blank k (Nat.le_of_succ_le hk),
    forall_mem_append.mpr ⟨h.spanned, forall_mem_singleton.mpr nofun⟩,
    forall_mem_append.mpr ⟨h.agree, forall_mem_singleton.mpr fun streamId => ?_⟩,
    forall_mem_append.mpr ⟨h.free, forall_mem_singleton.mpr nofun⟩, fun streamId => ?_⟩
  · show NotesAgree _ (notes n streamId)
    rw [h.blank n le_rfl]
    exact notesAgree_empty _
  · rw [cachedRecords, flatMap_append]
    show Ends _ _ (cachedRecords bs streamId ++ [])
    rw [append_nil]
    exact h.ends streamId

theorem Held.put (h : Held (bs ++ [b]) n notes confirmedOf committedOf) (hfree : b.free = false)
    (hcount : r.baseOffset < r.lastOffset)
    (hnext : ∀ q ∈ (confirmedOf r.streamId).getLast?, r.baseOffset = q.lastOffset) :
    Held (bs ++ [(b.put r).1]) n notes (fun streamId => confirmedOf streamId ++
      if (b.put r).2 = true ∧ r.streamId = streamId then [r] else []) committedOf := by
  have hb : b ∈ bs ++ [b] := mem_append_right _ (mem_singleton_self b)
  have hold : ∀ d ∈ bs ++ [(b.put r).1], d = (b.put r).1 ∨ d ∈ bs ++ [b] := by
    exact fun d hd => ((mem_append.mp hd).imp (mem_append_left _) mem_singleton.mp).symm
  -- The last record of the stream in the active block is the last confirmed one.
  have hactive : ∀ q ∈ (b.streamRecords r.streamId).getLast?, r.baseOffset = q.lastOffset := by
    intro q hq
    obtain ⟨pre, -, -, -, heq, -⟩ := h.ends r.streamId
    refine hnext q ?_
    rw [heq, cachedRecords, flatMap_append, flatMap_singleton, getLast?_append, getLast?_append, hq]
    rfl
  have hnumbered := h.numbered.replace_last (d := (b.put r).1) LogCacheBlock.put_blockId
  refine ⟨hnumbered.ids, hnumbered.idLt, h.blank, fun d hd => ?_, fun d hd => ?_,
    fun d hd hf => ?_, fun streamId => ?_⟩
  · rcases hold d hd with rfl | hd
    · exact (h.spanned b hb).put hcount hactive
    · exact h.spanned d hd
  · rcases hold d hd with rfl | hd
    · intro streamId
      rw [LogCacheBlock.put_blockId, LogCacheBlock.streamRecords_put]
      exact (h.agree b hb streamId).append _
    · exact h.agree d hd
  · rcases hold d hd with rfl | hd
    · rw [LogCacheBlock.put_free, hfree] at hf
      cases hf
    · exact h.free d hd hf
  · have hends := h.ends streamId
    rw [cachedRecords, flatMap_append, flatMap_singleton] at hends ⊢
    rw [LogCacheBlock.streamRecords_put, ← append_assoc]
    split
    next hadded =>
      obtain ⟨-, rfl⟩ := hadded
      exact hends.snoc hcount hnext
    next =>
      rw [append_nil, append_nil]
      exact hends

theorem Held.congr (h : Held bs n notes confirmedOf committedOf)
    (hconfirmed : ∀ streamId, confirmedOf' streamId = confirmedOf streamId) :
    Held bs n notes confirmedOf' committedOf := by
  rwa [show confirmedOf' = confirmedOf from funext hconfirmed]

theorem Held.commit (h : Held bs n notes confirmedOf committedOf)
    (hle : ∀ streamId, committedOf streamId ≤ committedOf' streamId) :
    Held bs n notes confirmedOf committedOf' :=
  ⟨h.ids, h.idLt, h.blank, h.spanned, h.agree,
    fun b hb hf streamId r hr => (h.free b hb hf streamId r hr).trans (hle streamId),
    fun streamId => (h.ends streamId).mono (hle streamId)⟩

/-- The notes of a read agree with the records and touch no block that is still to come. -/
theorem Held.get {c : LogCache} (h : Held c.blocks c.nextBlockId notes confirmedOf committedOf)
    (streamId startOffset endOffset maxBytes : Nat) :
    Held c.blocks c.nextBlockId (c.get notes streamId startOffset endOffset maxBytes).2 confirmedOf
      committedOf := by
  have hagree := LogCache.notes_get (P := BlockNotesAgree c.blocks) (fun b hb notes s m hb' =>
    (LogCache.get_block hb h.ids (h.spanned b hb) hb' streamId s endOffset m).2) h.agree
    startOffset maxBytes
  refine ⟨h.ids, h.idLt, fun k hk => ?_, h.spanned, hagree, h.free, h.ends⟩
  refine LogCache.notes_get (P := fun notes => ∀ streamId, notes k streamId = fun _ => none)
    (fun b hb notes s m hblank id => ?_) (h.blank k hk) startOffset maxBytes
  have hne : k ≠ b.blockId := (lt_of_lt_of_le (h.idLt b hb) hk).ne'
  unfold LogCacheBlock.get
  split
  · exact (congrFun (Function.update_of_ne hne _ _) id).trans (hblank id)
  · exact hblank id

/-- The whole invariant: the active block is not free. -/
structure Inv (s : CachedLog) : Prop where
  held : Held s.cache.blocks s.cache.nextBlockId s.notes s.streamRecords s.committed
  active : s.cache.active.free = false

/-- The records of each stream are contiguous. -/
def Contiguous (stored : List StreamRecordBatch) : Prop :=
  ∀ streamId, ∃ first stop, RecordsTile first (stored.filter (·.streamId = streamId)) stop

theorem Inv.new (capacity cacheBlockMaxSize maxCacheBlockStreamCount : Nat)
    (hstored : Contiguous stored) :
    (CachedLog.new capacity cacheBlockMaxSize maxCacheBlockStreamCount stored).Inv := by
  have hnil : Held [] 0 (fun _ _ _ => none) (fun streamId => stored.filter (·.streamId = streamId))
      (CachedLog.new capacity cacheBlockMaxSize maxCacheBlockStreamCount stored).committed := by
    refine ⟨.nil, nofun, fun _ _ _ => rfl, nofun, nofun, nofun, fun streamId => ?_⟩
    obtain ⟨first, stop, htile⟩ := hstored streamId
    exact ends_nil htile
  exact ⟨hnil.snoc cacheBlockMaxSize maxCacheBlockStreamCount, rfl⟩

theorem Held.tryRealFree {c : LogCache}
    (h : Held c.blocks c.nextBlockId notes confirmedOf committedOf) :
    Held c.tryRealFree.blocks c.tryRealFree.nextBlockId notes confirmedOf committedOf := by
  have hsplit : c.blocks = c.released ++ c.tryRealFree.blocks := by
    show c.archived ++ [c.active] = _ ++ (c.archived.drop _ ++ [c.active])
    rw [← append_assoc, LogCache.released, take_append_drop]
  rw [hsplit] at h
  exact h.drop fun d hd => (LogCache.free_of_mem_released hd).2

theorem Held.ne_active {c : LogCache} (h : Held c.blocks n notes confirmedOf committedOf)
    (hb : b ∈ c.archived) : b.blockId ≠ c.active.blockId := by
  have hids := h.ids
  rw [blocks, map_append, nodup_append] at hids
  exact hids.2.2 _ (mem_map_of_mem hb) _ (mem_singleton_self _)

theorem Held.setFree {c : LogCache} (h : Held c.blocks n notes confirmedOf committedOf)
    (hcommitted : ∀ b ∈ c.archived, b.blockId = blockId →
      ∀ e ∈ b.map.entries, ∀ r ∈ e.2.records, r.lastOffset ≤ committedOf e.1) :
    Held (c.setFree blockId).blocks n notes confirmedOf committedOf := by
  have hblocks : (c.setFree blockId).blocks = c.blocks.map fun b =>
      if b.blockId = blockId ∧ b.blockId ≠ c.active.blockId then { b with free := true }
      else b := by
    rw [blocks, blocks, map_append, map_singleton, if_neg (by simp)]
    refine congrArg (· ++ [c.active]) (map_congr_left fun b hb => ?_)
    simp only [ne_eq, h.ne_active hb, not_false_eq_true, and_true]
  rw [hblocks]
  refine h.map (fun b => by split <;> rfl) (fun b => by split <;> rfl)
    fun b hb hf streamId r hr => ?_
  split at hf
  next hid =>
    rcases mem_append.mp hb with hb | hb
    · rw [LogCacheBlock.streamRecords] at hr
      cases hget : b.map.get? streamId with
      | none =>
        rw [hget] at hr
        cases hr
      | some =>
        rw [hget] at hr
        exact hcommitted b hb hid.1 _ (OrdMap.mem_of_get? hget) r hr
    · exact absurd (congrArg LogCacheBlock.blockId (mem_singleton.mp hb)) hid.2
  next => exact h.free b hb hf streamId r hr

theorem Held.markFree {c : LogCache}
    (h : Held c.blocks c.nextBlockId notes confirmedOf committedOf)
    (hcommitted : ∀ b ∈ c.archived, b.blockId = blockId →
      ∀ e ∈ b.map.entries, ∀ r ∈ e.2.records, r.lastOffset ≤ committedOf e.1) :
    Held (c.markFree blockId).blocks (c.markFree blockId).nextBlockId notes confirmedOf
      committedOf := by
  have hset := (h.setFree hcommitted).tryRealFree
  have hmerged := hset.tryMerge
  have hactive : (c.markFree blockId).active = c.active :=
    congrArg Prod.fst (LogCache.front_markFree c blockId)
  rw [blocks, hactive]
  exact hmerged

theorem Held.archive {c : LogCache}
    (h : Held c.blocks c.nextBlockId notes confirmedOf committedOf) :
    Held c.archiveCurrentBlock.1.blocks c.archiveCurrentBlock.1.nextBlockId notes confirmedOf
      committedOf := by
  have hblocks : c.archiveCurrentBlock.1.blocks = (c.blocks.map fun b =>
      if b.blockId = c.active.blockId then
        { b with lastRecordOffset := c.lastRecordOffset.or b.lastRecordOffset } else b) ++
      [.new c.nextBlockId c.cacheBlockMaxSize c.maxCacheBlockStreamCount] := by
    rw [blocks, blocks, map_append, map_singleton, if_pos rfl]
    refine congrArg (· ++ [_] ++ [_]) ?_
    exact ((map_congr_left fun b hb => if_neg (h.ne_active hb)).trans (map_id _)).symm
  rw [hblocks]
  refine (h.map (fun b => by split <;> rfl) (fun b => by split <;> rfl)
    fun b hb hf streamId r hr => ?_).snoc c.cacheBlockMaxSize c.maxCacheBlockStreamCount
  refine h.free b hb ?_ streamId r hr
  split at hf <;> exact hf

theorem Inv.step (h : s.Inv) (hG : s.Allowed a) (hstep : s.step a = some s') : s'.Inv := by
  cases a with
  | put r =>
    cases hstep
    obtain ⟨⟨hpos, -⟩, hnext⟩ := hG
    have hcount : r.baseOffset < r.lastOffset := by
      rw [lastOffset, if_pos (by omega)]
      omega
    have hnext' : ∀ q ∈ (s.streamRecords r.streamId).getLast?, r.baseOffset = q.lastOffset := by
      intro q hq
      rw [hq] at hnext
      simpa using hnext
    have hput := h.held.tryRealFree.put h.active hcount hnext'
    refine ⟨hput.congr fun streamId => ?_, (LogCacheBlock.put_free ..).trans h.active⟩
    show filter _ (if (s.cache.active.put r).2 = true then s.confirmed ++ [r] else s.confirmed)
      = s.confirmed.filter _ ++ if (s.cache.active.put r).2 = true ∧ r.streamId = streamId then [r]
        else []
    by_cases hadded : (s.cache.active.put r).2 = true
    · rw [if_pos hadded, filter_append, filter_singleton]
      simp only [hadded, true_and, Bool.cond_decide]
    · rw [if_neg hadded, if_neg fun h => hadded h.1, append_nil]
  | archive =>
    cases hstep
    exact ⟨h.held.archive, rfl⟩
  | archiveIfContains =>
    cases hstep
    unfold LogCache.archiveCurrentBlockIfContains
    split
    · exact ⟨h.held.archive, rfl⟩
    · exact h
  | commit streamId =>
    cases hstep
    refine ⟨h.held.commit fun id => ?_, h.active⟩
    show _ ≤ Function.update s.committed streamId _ id
    by_cases hid : id = streamId
    · subst hid
      rw [Function.update_self]
      exact le_max_left _ _
    · rw [Function.update_of_ne hid]
  | markFree blockId =>
    cases hstep
    refine ⟨h.held.markFree hG, ?_⟩
    have hfront := congrArg Prod.fst (LogCache.front_markFree s.cache blockId)
    exact (congrArg LogCacheBlock.free hfront).trans h.active
  | get =>
    cases hstep
    exact ⟨h.held.get .., h.active⟩

/-! ## Exact reads -/

/-- The answer is a contiguous run of the confirmed records of the stream. -/
abbrev Exact (s : CachedLog) (streamId startOffset endOffset maxBytes : Nat)
    (rs : List StreamRecordBatch) : Prop :=
  Served baseOffset lastOffset size
    (s.streamRecords streamId) startOffset endOffset maxBytes rs

/-- The contract of `S3BlockCache` on the committed data of a stream that starts at
`startOffset`. -/
def BlockCacheExact (s : CachedLog) (blockCache : BlockCacheRead) (streamId startOffset : Nat) :
    Prop :=
  ∀ a b maxBytes, startOffset ≤ a → a < b → b ≤ s.committed streamId → 0 < maxBytes →
    ∃ block, blockCache streamId a b maxBytes = .ok block ∧
      s.Exact streamId a b maxBytes block.records

theorem continuousCheckFrom_of_tile (h : RecordsTile a rs b) :
    continuousCheckFrom (some a) rs = .ok () := by
  induction rs generalizing a with
  | nil => rfl
  | cons r rs ih =>
    obtain ⟨rfl, -, hrest⟩ := h
    rw [continuousCheckFrom, if_pos rfl]
    exact ih hrest

theorem continuousCheck_of_tile (h : RecordsTile a rs b) : continuousCheck rs = .ok () := by
  cases rs with
  | nil => rfl
  | cons => exact continuousCheckFrom_of_tile h.2.2

/-- Where the cached records start at or before the read, they answer it alone. -/
theorem stitch_hit (h : s.Exact streamId a b maxBytes cached) :
    stitch blockCache false streamId a b maxBytes cached = .ok ⟨cached, .deltaWalCacheHit⟩ := by
  obtain ⟨q, hq, hle, -⟩ := h.covers
  rw [stitch, if_pos]
  rw [hq]
  exact decide_eq_true hle

/-- Where they start behind it, the block cache answers up to their start. -/
theorem stitch_miss (htile : RecordsTile first (s.streamRecords streamId) stop)
    (hmiss : ∀ r ∈ cached.head?, a < r.baseOffset)
    (hc : (cached.head?.map baseOffset).getD b = c)
    (hblock : blockCache streamId a c maxBytes = .ok block)
    (h : s.Exact streamId a b maxBytes (block.records ++
      pushRun size (maxBytes - total size block.records)
        cached)) :
    ∃ result, stitch blockCache false streamId a b maxBytes cached = .ok result ∧
      s.Exact streamId a b maxBytes result.records := by
  obtain ⟨x, y, hrun⟩ := htile.of_infix h.isInfix
  refine ⟨⟨_, block.cacheAccess⟩, ?_, h⟩
  have hopen : ¬cached.head?.any (·.baseOffset ≤ a) = true := by
    rw [Option.any_eq_true]
    rintro ⟨r, hr, hle⟩
    exact absurd (of_decide_eq_true hle) (not_le.mpr (hmiss r hr))
  rw [stitch, if_neg hopen, if_neg Bool.false_ne_true]
  simp only [hc, hblock, continuousCheck_of_tile hrun]

theorem Inv.read0 (h : s.Inv) (hblock : s.BlockCacheExact blockCache streamId startOffset)
    (hfirst : (s.streamRecords streamId).head?.any (·.baseOffset ≤ startOffset) = true)
    (hstart : startOffset ≤ a) (hab : a < b)
    (hlast : (s.streamRecords streamId).getLast?.any (b ≤ ·.lastOffset) = true)
    (hmax : 0 < maxBytes) :
    ∃ block, (read0 blockCache s.cache s.notes false streamId a b maxBytes).1 = .ok block ∧
      s.Exact streamId a b maxBytes block.records := by
  obtain ⟨pre, first, mid, stop, heq, hpre, hcached, hmid⟩ := h.held.ends streamId
  have hall : RecordsTile first (s.streamRecords streamId) stop := by
    rw [heq]
    exact Tiles.append.mpr ⟨mid, hpre, hcached⟩
  have hfirst' : first ≤ a := by
    obtain ⟨q, hq, hle⟩ := (Option.any_eq_true _ _).mp hfirst
    rw [← hall.lo_head hq]
    exact (of_decide_eq_true hle).trans hstart
  have hstop : b ≤ stop := by
    obtain ⟨q, hq, hle⟩ := (Option.any_eq_true _ _).mp hlast
    rw [← hall.hi_getLast hq]
    exact of_decide_eq_true hle
  have hget : (s.cache.get s.notes streamId a b maxBytes).1 = if b ≤ mid then [] else
      serve b maxBytes (cachedRecords s.cache.blocks streamId) (max a mid) :=
    LogCache.get_eq h.held.ids h.held.spanned h.held.agree hcached hmax hab hstop
  show ∃ block, stitch blockCache false streamId a b maxBytes
    (s.cache.get s.notes streamId a b maxBytes).1 = .ok block ∧ _
  rw [hget]
  generalize cachedRecords s.cache.blocks streamId = cached at heq hcached
  -- The records before the cached ones are committed.
  have hcommitted : a < mid → mid ≤ s.committed streamId := by
    intro hlt
    refine hmid.resolve_left fun hnil => ?_
    rw [hnil] at hpre
    exact absurd (show first = mid from hpre) (by omega)
  split
  next hbm =>
    obtain ⟨block, hread, hexact⟩ := hblock a b maxBytes hstart hab
      (hbm.trans (hcommitted (hab.trans_le hbm))) hmax
    refine stitch_miss hall nofun rfl hread ?_
    rwa [pushRun, append_nil]
  next hbm =>
    have hmb : mid < b := not_le.mp hbm
    rcases lt_or_ge a mid with hlt | hge
    · -- The block cache answers up to the first cached record.
      obtain ⟨block, hread, hexact⟩ := hblock a mid maxBytes hstart hlt (hcommitted hlt) hmax
      rw [max_eq_right hlt.le, serve, answer_start hcached]
      obtain ⟨r, rs, rfl⟩ : ∃ r rs, cached = r :: rs := exists_cons_of_ne_nil fun hnil => by
        rw [hnil] at hcached
        exact absurd (show mid = stop from hcached) (by omega)
      refine stitch_miss hall (fun q hq => ?_) ?_ hread ?_
      · rw [head?_budgetRun] at hq
        cases hq
        rwa [hcached.1]
      · rw [head?_budgetRun]
        exact hcached.1
      · rw [Exact, heq] at hexact ⊢
        exact hexact.stitch hpre hcached hmb hstop
    · -- The cached records answer alone.
      obtain ⟨ys, r, zs, hsplit, hys, hlo, hhi⟩ := hcached.exists_split hge (hab.trans_le hstop)
      have hexact : s.Exact streamId a b maxBytes (serve b maxBytes cached a) := by
        rw [Exact, heq, serve, hsplit, answer_split hys hlo hhi, ← append_assoc]
        refine served_budgetRun (s := first) (t := stop) ?_ hlo hhi hab hstop
        rwa [append_assoc, ← hsplit, ← heq]
      rw [max_eq_left hge]
      exact ⟨_, stitch_hit hexact, hexact⟩

/-- A block cache that holds the confirmed records. -/
def confirmedBlocks (s : CachedLog) : BlockCacheRead := fun streamId a b maxBytes =>
  .ok ⟨serve b maxBytes (s.streamRecords streamId) a, .blockCacheMiss⟩

theorem blockCacheExact_confirmedBlocks
    (htile : RecordsTile first (s.streamRecords streamId) stop)
    (hfirst : first ≤ startOffset) (hcommitted : s.committed streamId ≤ stop) :
    s.BlockCacheExact s.confirmedBlocks streamId startOffset := by
  intro a b maxBytes hle hab hb hmax
  have hstop : b ≤ stop := hb.trans hcommitted
  obtain ⟨ys, r, zs, hsplit, hys, hlo, hhi⟩ :=
    htile.exists_split (hfirst.trans hle) (hab.trans_le hstop)
  refine ⟨_, rfl, ?_⟩
  rw [Exact, serve, hsplit, answer_split hys hlo hhi]
  rw [hsplit] at htile
  exact served_budgetRun htile hlo hhi hab hstop

/-- A read in any state of the cache is exact. -/
theorem read0_exact {capacity cacheBlockMaxSize maxCacheBlockStreamCount : Nat}
    {stored : List StreamRecordBatch} {as : List Action} {blockCache : BlockCacheRead}
    {streamId startOffset a b maxBytes : Nat} (hstored : Contiguous stored)
    (hG : Guarded step Allowed (new capacity cacheBlockMaxSize maxCacheBlockStreamCount stored) as)
    (hrun : run step (new capacity cacheBlockMaxSize maxCacheBlockStreamCount stored) as = some s)
    (hblock : s.BlockCacheExact blockCache streamId startOffset)
    (hfirst : (s.streamRecords streamId).head?.any (·.baseOffset ≤ startOffset) = true)
    (hstart : startOffset ≤ a) (hab : a < b)
    (hlast : (s.streamRecords streamId).getLast?.any (b ≤ ·.lastOffset) = true)
    (hmax : 0 < maxBytes) :
    ∃ block, (S3Stream.read0 blockCache s.cache s.notes false streamId a b maxBytes).1 = .ok block ∧
      s.Exact streamId a b maxBytes block.records :=
  (run_invariant_of_guarded Inv.step
    (Inv.new _ _ _ hstored) hG hrun).read0 hblock hfirst hstart hab hlast hmax

/-- What was committed before the start. -/
def storedRecords : List StreamRecordBatch := [⟨7, 0, 4, 6, [0]⟩]

/-- The first block is committed, marked free and released; the second one is not. -/
def releasedSchedule : List Action :=
  [.put ⟨7, 0, 10, 2, [1, 2]⟩, .put ⟨7, 0, 12, 1, [3]⟩, .archive, .put ⟨7, 0, 13, 2, [4]⟩, .archive,
    .commit 7 13, .markFree 0, .put ⟨7, 0, 15, 1, [5]⟩, .get 7 13 16 1]

theorem read0_exact_released :
    ∃ s, run step (new 1 1000 10 storedRecords) releasedSchedule = some s ∧
      cachedRecords s.cache.blocks 7 = [⟨7, 0, 13, 2, [4]⟩, ⟨7, 0, 15, 1, [5]⟩] ∧
      ∃ block, (S3Stream.read0 s.confirmedBlocks s.cache s.notes false 7 5 16 4).1 = .ok block ∧
        s.Exact 7 5 16 4 block.records := by
  obtain ⟨s, hs, hcached, hrecords, hcommitted⟩ :
      ∃ s, run step (new 1 1000 10 storedRecords) releasedSchedule = some s ∧
      cachedRecords s.cache.blocks 7 = [⟨7, 0, 13, 2, [4]⟩, ⟨7, 0, 15, 1, [5]⟩] ∧
      s.streamRecords 7 = [⟨7, 0, 4, 6, [0]⟩, ⟨7, 0, 10, 2, [1, 2]⟩, ⟨7, 0, 12, 1, [3]⟩,
        ⟨7, 0, 13, 2, [4]⟩, ⟨7, 0, 15, 1, [5]⟩] ∧ s.committed 7 = 13 := by decide +kernel
  have hstored : Contiguous storedRecords := by
    intro streamId
    rw [storedRecords, filter_singleton]
    cases decide ((7 : Nat) = streamId) with
    | true => exact ⟨4, 10, rfl, by decide, rfl⟩
    | false => exact ⟨0, 0, rfl⟩
  have htile : RecordsTile 4 (s.streamRecords 7) 16 := by
    rw [hrecords]
    exact ⟨rfl, by decide, rfl, by decide, rfl, by decide, rfl, by decide, rfl, by decide, rfl⟩
  refine ⟨s, hs, hcached, read0_exact hstored (by decide +kernel) hs
    (blockCacheExact_confirmedBlocks htile le_rfl (by omega)) ?_ (by decide) (by decide) ?_
    (by decide)⟩
  · rw [hrecords]
    rfl
  · rw [hrecords]
    rfl

end CachedLog

end S3Stream
