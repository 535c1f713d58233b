import S3Stream.Wal.WriterTrim
import S3Stream.Wal.Callers

/-! # The chain of confirm callbacks

The callback loop confirms the records of a bulk in the order of the object, which is by stream
and base offset, at offsets that were assigned when the object was built. In a run without failure
the confirmed ranges tile the WAL from the start of the writer up to `flushed_offset`, every
record that was placed is confirmed once, and records of a stream that were placed in base offset
order are confirmed in the order of their placement. -/

namespace S3Stream

open List TransitionSystem Writer Windows

/-! ## Sorting keeps the order of equal elements -/

section StableSort

variable {α : Type} {r S : α → α → Prop} [DecidableRel r] [Std.Total r] [IsTrans α r]

private theorem pairwise_orderedInsert_stable {l : List α}
    (h : l.Pairwise fun x y => r x y ∧ (r y x → S x y)) (ha : ∀ x ∈ l, S a x) :
    (l.orderedInsert r a).Pairwise fun x y => r x y ∧ (r y x → S x y) := by
  induction l with
  | nil => exact pairwise_singleton _ _
  | cons b l ih =>
    obtain ⟨hb, hl⟩ := pairwise_cons.mp h
    rw [orderedInsert_cons]
    split
    next hab =>
      refine .cons (fun x hx => ⟨?_, fun _ => ha x hx⟩) h
      rcases mem_cons.mp hx with rfl | hx
      · exact hab
      · exact IsTrans.trans _ _ _ hab (hb x hx).1
    next hab =>
      refine .cons (fun x hx => ?_) (ih hl fun x hx => ha x (mem_cons_of_mem b hx))
      rcases (mem_orderedInsert r).mp hx with rfl | hx
      · exact ⟨(Std.Total.total x b).resolve_left hab, fun hle => absurd hle hab⟩
      · exact hb x hx

theorem pairwise_insertionSort_stable {l : List α} (h : l.Pairwise S) :
    (l.insertionSort r).Pairwise fun x y => r x y ∧ (r y x → S x y) := by
  induction l with
  | nil => exact .nil
  | cons a l ih =>
    obtain ⟨ha, hl⟩ := pairwise_cons.mp h
    apply pairwise_orderedInsert_stable (ih hl)
    intro x hx
    exact ha x ((mem_insertionSort r).mp hx)

end StableSort

namespace Pipeline

variable {p p' : Pipeline}

/-- The order of records in an object, on slots. -/
def SlotLe (x y : AckId × StreamRecordBatch) : Prop :=
  x.2.streamId < y.2.streamId ∨ x.2.streamId = y.2.streamId ∧ x.2.baseOffset ≤ y.2.baseOffset

/-- Records of one bulk stand in the order in which they were placed, unless the object's order
puts one of them in front. -/
structure Stable (p : Pipeline) : Prop where
  active : ∀ a, p.active = some a →
    (a.records.Pairwise fun q q' => q.ack.2 < q'.ack.2) ∧
      ∀ q ∈ a.records, q.ack.2 < a.records.length
  unissued : ∀ b ∈ p.sealed, b.put = none → b.records.Pairwise fun q q' => q.ack.2 < q'.ack.2
  kept : ∀ b ∈ p.sealed, (b.records.map PendingRecord.slot).Pairwise fun x y =>
    x.1.2 < y.1.2 ∨ ¬ SlotLe y x

theorem Stable.congr (h : Stable p) (hs : p'.sealed = p.sealed) (ha : p'.active = p.active) :
    Stable p' := by
  obtain ⟨active, unissued, kept⟩ := h
  constructor <;> simp only [hs, ha] <;> assumption

theorem Stable.sealActive (h : Stable p) : Stable p.sealActive := by
  unfold Pipeline.sealActive
  split
  next => exact h
  next a ha =>
    have hsealed : sealed { p with
        active := none
        nextOffset := ceilAlignOffset (p.nextOffset + a.size)
        lastInactiveComplete := some a.seq
        waiting := p.waiting ++ [a] } = p.sealed ++ [a.toUploading] := by simp [sealed]
    have hrecords := (h.active a ha).1
    refine ⟨by simp, ?_, ?_⟩ <;> rw [hsealed]
    · exact forall_mem_append.mpr ⟨h.unissued, forall_mem_singleton.mpr fun _ => hrecords⟩
    · exact forall_mem_append.mpr
        ⟨h.kept, forall_mem_singleton.mpr (pairwise_map.mpr (hrecords.imp fun hlt => .inl hlt))⟩

theorem Stable.newActiveBulk (h : Stable p) : Stable p.newActiveBulk := by
  refine ⟨?_, h.unissued, h.kept⟩
  rintro a ⟨⟩
  exact ⟨.nil, nofun⟩

theorem Stable.push (h : Stable p) (ha : p.active = some a) (r : StreamRecordBatch) :
    Stable { p with active := some (a.push r) } := by
  obtain ⟨hrecords, hlt⟩ := h.active a ha
  refine ⟨?_, h.unissued, h.kept⟩
  rintro d ⟨⟩
  constructor
  · refine pairwise_append.mpr ⟨hrecords, pairwise_singleton _ _, fun q hq q' hq' => ?_⟩
    rw [mem_singleton.mp hq']
    exact hlt q hq
  · intro q hq
    show q.ack.2 < (a.records ++ [_]).length
    rw [length_append, length_singleton]
    rcases mem_append.mp hq with hq | hq
    · exact Nat.lt_succ_of_lt (hlt q hq)
    · obtain rfl := mem_singleton.mp hq
      exact Nat.lt_succ_self _

/-- The object of a bulk keeps records of equal order as they were placed. -/
theorem pairwise_slot_issue (b : UploadingBulk) (c : WalConfig) (t : Int)
    (h : b.records.Pairwise fun q q' => q.ack.2 < q'.ack.2) :
    ((b.issue c t).records.map PendingRecord.slot).Pairwise fun x y =>
      x.1.2 < y.1.2 ∨ ¬ SlotLe y x := by
  simp only [UploadingBulk.issue, map_slot_assignOffsets]
  refine pairwise_map.mpr ((pairwise_insertionSort_stable h).imp ?_)
  rintro q q' ⟨-, hstable⟩
  by_cases hle : RecordLe q' q
  · exact .inl (hstable hle)
  · exact .inr hle

theorem Stable.step (h : Stable p) (hi : Inv p) (hstep : Effect p op p') : Stable p' := by
  have hsealed := fun hop => sealed_congr hi.control hstep hop
  cases hstep with
  | begin | fence | storeTrim | putLand => exact h.congr rfl rfl
  | place =>
    exact place_induction (fun hq => hq.newActiveBulk) (fun hq => hq.sealActive)
      (fun hq ha => hq.push ha _) h
  | sealActive => exact h.sealActive
  | @uploadStart b₀ seq f hb₀ hseq hput =>
    have hmem := @mem_sealed_update p seq (·.issue p.config p.trimOffset) hi.layout b₀ hb₀ hseq
    have hold := h.unissued b₀ (mem_sealed_of_mem_uploading hb₀) hput
    refine ⟨h.active, fun b hb hnone => ?_, fun b hb => ?_⟩ <;>
      rcases hmem.mp hb with rfl | ⟨hb, -⟩
    · cases hnone
    · exact h.unissued b hb hnone
    · exact pairwise_slot_issue b₀ _ _ hold
    · exact h.kept b hb
  | @putReturn seq b₀ ok hfind hb₀ hseq =>
    have hmem := @mem_sealed_update p seq ({ · with done := some ok }) hi.layout b₀ hb₀ hseq
    have hb₀ := mem_sealed_of_mem_uploading hb₀
    refine ⟨h.active, fun b hb hnone => ?_, fun b hb => ?_⟩ <;>
      rcases hmem.mp hb with rfl | ⟨hb, -⟩
    · exact h.unissued b₀ hb₀ hnone
    · exact h.unissued b hb hnone
    · exact h.kept b₀ hb₀
    · exact h.kept b hb
  | _ => exact h.congr (hsealed trivial) rfl

theorem Stable.new (c : WalConfig) : Stable (Pipeline.new c) := ⟨nofun, nofun, nofun⟩

/-- Along all records, placement order fails only where the object's order puts one in front. -/
theorem Stable.pairwise_slots (h : Stable p) (hi : Inv p) :
    p.slots.Pairwise fun x y => AckId.Before x.1 y.1 ∨ ¬ SlotLe y x := by
  have hbulk : ∀ b ∈ p.sealed, ∀ q ∈ b.records, q.ack.1 = b.seq := fun b hb q hq =>
    ((hi.layout.ok b hb).record q hq).ack
  rw [slots, pairwise_map, pairwise_append]
  refine ⟨pairwise_flatMap.mpr ⟨fun b hb => ?_, ?_⟩, ?_, ?_⟩
  · refine (pairwise_map.mp (h.kept b hb)).imp_of_mem fun {q q'} hq hq' hor => ?_
    have hseq : q.ack.1 = q'.ack.1 := (hbulk b hb q hq).trans (hbulk b hb q' hq').symm
    exact hor.imp_left fun hlt => .inr ⟨hseq, hlt⟩
  · refine hi.layout.seqs.imp_of_mem fun {b d} hb hd hlt q hq q' hq' => ?_
    have hlt : q.ack.1 < q'.ack.1 := by
      rw [hbulk b hb q hq, hbulk d hd q' hq']
      exact hlt
    exact .inl (.inl hlt)
  · cases hact : p.active with
    | none => exact .nil
    | some a =>
      obtain ⟨haok, -⟩ := hi.layout.active a hact
      refine (h.active a hact).1.imp_of_mem fun {q q'} hq hq' hlt => ?_
      have hseq : q.ack.1 = q'.ack.1 := (haok.record q hq).ack.trans (haok.record q' hq').ack.symm
      exact .inl (.inr ⟨hseq, hlt⟩)
  · intro q hq q' hq'
    obtain ⟨b, hb, hq⟩ := mem_flatMap.mp hq
    cases hact : p.active with
    | none =>
      rw [hact] at hq'
      cases hq'
    | some a =>
      rw [hact] at hq'
      obtain ⟨haok, -, -, -, hlt, -⟩ := hi.layout.active a hact
      have hlt : q.ack.1 < q'.ack.1 := by
        rw [hbulk b hb q hq, (haok.record q' hq').ack]
        exact hlt b hb
      exact .inl (.inl hlt)

def pending (p : Pipeline) : List (AckId × StreamRecordBatch) :=
  ((p.callback.bulks ++ (p.uploading ++ p.waiting.map Bulk.toUploading)).flatMap
    UploadingBulk.records ++ (p.active.map Bulk.records).getD []).map PendingRecord.slot

theorem slots_eq_append (hi : Inv p) :
    p.slots = p.acks.map (fun x => (x.id, x.record)) ++ p.pending := by
  rw [hi.flush.map_slot_acks]
  simp only [slots, sealed, pending, flatMap_append, map_append, append_assoc]

/-! ## Ranges -/

end Pipeline

/-- The range `[offset, next)` that an Ok acknowledgement confirms. -/
def Ack.rangeStart (x : Ack) : Nat :=
  match x.result with
  | .ok res => res.recordOffset.offset
  | .error _ => 0

def Ack.rangeStop (x : Ack) : Nat :=
  match x.result with
  | .ok res => res.nextOffset.offset
  | .error _ => 0

namespace Pipeline

variable {p p' : Pipeline}

/-- What the append listener is called with: the records confirmed Ok, without the records of
trims. -/
def listenerCalls (p : Pipeline) : List (StreamRecordBatch × AppendResult) :=
  p.acks.filterMap fun x =>
    match x.result with
    | .ok res => if x.record.streamId ≠ trimRecordSentinel then some (x.record, res) else none
    | .error _ => none

/-- With Ok acknowledgements only, the listener sees the chain without the records of trims. -/
theorem listenerCalls_eq (hok : ∀ x ∈ p.acks, ∃ res, x.result = .ok res) :
    p.listenerCalls.map (fun x => (x.1, x.2.recordOffset.offset, x.2.nextOffset.offset)) =
      (p.acks.filter (·.record.streamId ≠ trimRecordSentinel)).map
        fun x => (x.record, x.rangeStart, x.rangeStop) := by
  unfold listenerCalls
  generalize p.acks = acks at hok ⊢
  induction acks with
  | nil => rfl
  | cons x xs ih =>
    obtain ⟨res, hres⟩ := hok x mem_cons_self
    have htail := ih fun y hy => hok y (mem_cons_of_mem x hy)
    by_cases htrim : x.record.streamId = trimRecordSentinel
    · simpa [filterMap_cons, hres, htrim] using htail
    · simpa [filterMap_cons, hres, htrim, Ack.rangeStart, Ack.rangeStop] using htail

/-- The ranges of one bulk follow each other; the last one ends at the aligned end. -/
theorem tiles_bulkAcks (c : WalConfig) (hne : rs ≠ [])
    (hsize : ∀ q ∈ rs, q.size = framedSize q.record)
    (h : Tiles WalEntry.offset WalEntry.stop base (rs.map PendingRecord.entry) stop) :
    Tiles Ack.rangeStart Ack.rangeStop base (bulkAcks c false rs) (ceilAlignOffset stop) := by
  induction rs generalizing base with
  | nil => exact absurd rfl hne
  | cons q rs ih =>
    obtain ⟨hlo, hlt, hrest⟩ := h
    have hstop : q.entry.stop = q.offset + q.size := by
      rw [hsize q mem_cons_self]
      rfl
    cases rs with
    | nil =>
      obtain rfl : q.offset + q.size = stop := hstop ▸ hrest
      refine ⟨hlo, ?_, rfl⟩
      exact lt_of_lt_of_le (hstop ▸ hlt) (le_ceilAlignOffset _)
    | cons q' rs =>
      have hlt : q.offset < q.offset + q.size := hstop ▸ hlt
      refine ⟨hlo, hlt, ?_⟩
      have htail := ih (by simp) (fun x hx => hsize x (mem_cons_of_mem q hx)) hrest
      rw [hstop] at htail
      exact htail

theorem Inv.tiles_flushed (hi : Inv p) (hb : b ∈ p.flushed) :
    Tiles Ack.rangeStart Ack.rangeStop b.baseOffset (bulkAcks p.config false b.records)
      b.endOffsetAligned := by
  obtain ⟨f, hput⟩ := hi.exists_put_of_flushed hb
  have hok := hi.layout.ok b (mem_sealed_of_mem_flushed hb)
  rw [hok.stop]
  exact tiles_bulkAcks p.config hok.ne_nil (fun q hq => (hok.record q hq).size) (hok.tiles hput)

/-- Without failed bulks, the confirmed ranges tile the WAL up to `flushed_offset`. -/
theorem Inv.tiles_acks (hi : Inv p) (hfailed : p.failed = []) :
    Tiles Ack.rangeStart Ack.rangeStop p.startOffset p.acks p.flushedOffset := by
  rw [hi.flush.acks, hfailed, flatMap_nil, append_nil]
  exact hi.flush.tiles.flatMap fun b hb => hi.tiles_flushed hb

/-- Records are confirmed at increasing offsets, with failures behind them. -/
theorem Inv.pairwise_rangeStart (hi : Inv p) : p.acks.Pairwise fun x y =>
    (∃ res, y.result = .ok res) → x.rangeStart < y.rangeStart := by
  have htiles := hi.flush.tiles.flatMap fun b hb => hi.tiles_flushed hb
  obtain ⟨hone, htwo⟩ := pairwise_flatMap.mp
    (htiles.pairwise.imp_of_mem fun hx _ hle => (htiles.lo_lt_hi hx).trans_le hle)
  exact pairwise_acks hi hone htwo

end Pipeline

/-! ## Placements -/

namespace Writer

variable {w w' : Writer} {a : WalAct} {c : WalConfig} {as : List WalAct}

/-- The record that an action places, under the sender it gets. -/
def placedBy (w : Writer) : WalAct → List (AckId × StreamRecordBatch)
  | .place n => (w.admitted[n]?.map fun d => (w.ackFor d.record, d.record)).toList
  | _ => []

/-- The records that a schedule places, in its order. -/
def placements : Writer → List WalAct → List (AckId × StreamRecordBatch)
  | _, [] => []
  | w, a :: as => w.placedBy a ++
    match w.step a with
    | none => []
    | some w' => placements w' as

theorem placements_concat (h : run step w bs = some w') :
    w.placements (bs ++ [a]) = w.placements bs ++ w'.placedBy a := by
  induction bs generalizing w with
  | nil =>
    cases h
    simp only [nil_append, placements]
    split <;> simp
  | cons b bs ih =>
    obtain ⟨m, hb, hbs⟩ := run_cons.mp h
    simp only [cons_append, placements, hb, ih hbs, append_assoc]

theorem slots_placedBy (hi : w.toPipeline.Inv) (hs : w.toPipeline.Senders)
    (h : w.step a = some w') : w'.slots.Perm (w.slots ++ w.placedBy a) ∧
      (w.placedBy a).Pairwise (fun x y => AckId.Before x.1 y.1) ∧
      ∀ x ∈ w.slots, ∀ y ∈ w.placedBy a, AckId.Before x.1 y.1 := by
  by_cases hplace : ∃ n, a = .place n
  · obtain ⟨n, rfl⟩ := hplace
    cases hd : w.admitted[n]? with
    | none => simp [step, place, hd] at h
    | some d =>
      have hplaced : w.placedBy (.place n) = [(w.ackFor d.record, d.record)] := by
        simp [placedBy, hd]
      rw [hplaced, slots_place hd h]
      refine ⟨.refl _, pairwise_singleton _ _, fun x hx y hy => ?_⟩
      rw [mem_singleton.mp hy]
      exact before_ackFor hs hi hd h x hx
  · have hnone : w.placedBy a = [] := by
      cases a with
      | place n => exact absurd ⟨n, rfl⟩ hplace
      | _ => rfl
    rw [hnone, append_nil]
    refine ⟨(slots_step hi h).resolve_left fun hp => ?_, .nil, by simp⟩
    obtain ⟨n, -, ha, -⟩ := hp
    exact hplace ⟨n, ha⟩

/-- The records of the pipeline are those placed, and senders are given out in order. -/
structure Placed (w : Writer) (log : List (AckId × StreamRecordBatch)) : Prop where
  base : Callers.Base w
  stable : w.toPipeline.Stable
  perm : w.slots.Perm log
  sorted : log.Pairwise fun x y => AckId.Before x.1 y.1

theorem Placed.step (h : Placed w log) (hs : w.step a = some w') :
    Placed w' (log ++ w.placedBy a) := by
  obtain ⟨hperm, hsorted, hbefore⟩ := slots_placedBy h.base.inv h.base.senders hs
  refine ⟨h.base.step hs, ?_, hperm.trans (h.perm.append_right _), ?_⟩
  · rcases (effect_of_step hs).pipeline with heq | ⟨op, hop⟩
    · rw [heq]
      exact h.stable
    · exact h.stable.step h.base.inv (Pipeline.effect_of_step hop)
  · refine pairwise_append.mpr ⟨h.sorted, hsorted, fun x hx y hy => ?_⟩
    exact hbefore x (h.perm.symm.subset hx) y hy

theorem placed_run (h : run step (new c) as = some w) :
    Placed w ((new c).placements as) := by
  refine run_induction_of_guarded
    (P := fun pre m => Placed m ((new c).placements pre)) ?_
    ⟨Callers.Base.new c, Pipeline.Stable.new c, .nil, .nil⟩
    (guarded_of_forall fun _ _ => trivial) h
  intro pre a m m' hpre hP _ hs
  rw [placements_concat hpre]
  exact hP.step hs

/-- Records of a stream that were placed in base offset order are in the pipeline as placed. -/
theorem Placed.filter_stream (h : Placed w log)
    (hbase : (log.filter (·.2.streamId = streamId)).Pairwise
      fun x y => x.2.baseOffset ≤ y.2.baseOffset) :
    w.slots.filter (·.2.streamId = streamId) = log.filter (·.2.streamId = streamId) := by
  have hperm := h.perm.filter fun x => x.2.streamId = streamId
  have hsorted := h.sorted.sublist (filter_sublist (p := fun x => x.2.streamId = streamId))
  -- Whatever their places, the earlier sender has the smaller base offset.
  have hordered : ∀ x ∈ log.filter (·.2.streamId = streamId),
      ∀ y ∈ log.filter (·.2.streamId = streamId),
      AckId.Before x.1 y.1 → x.2.baseOffset ≤ y.2.baseOffset := by
    refine List.Pairwise.forall_of_forall_of_flip (fun x _ _ => le_rfl) ?_ ?_
    · exact hbase.imp fun {x y} hle (_ : AckId.Before x.1 y.1) => hle
    · exact hsorted.imp fun {x y} hlt (hgt : AckId.Before y.1 x.1) => absurd hgt hlt.asymm
  have hids : w.slots.Pairwise fun x y => x.1 ≠ y.1 := pairwise_map.mp h.base.senders.nodup
  have hslots := (hids.and (h.stable.pairwise_slots h.base.inv)).sublist
    (filter_sublist (p := fun x => x.2.streamId = streamId))
  refine List.Perm.eq_of_pairwise ?_ ?_ hsorted hperm
  · exact fun x y _ _ hxy hyx => absurd hyx hxy.asymm
  · refine hslots.imp_of_mem fun {x y} hx hy hor => ?_
    obtain ⟨hne, hlt | hnot⟩ := hor
    · exact hlt
    · refine AckId.before_of_not_before hne fun hgt => hnot (.inr ⟨?_, ?_⟩)
      · rw [of_decide_eq_true (mem_filter.mp hx).2, of_decide_eq_true (mem_filter.mp hy).2]
      · exact hordered y (hperm.subset hy) x (hperm.subset hx) hgt

/-! ## Runs without failure -/

/-- Without a failure only a `start` that found a newer epoch fences the writer. -/
structure Unbroken (w : Writer) : Prop where
  inv : w.toPipeline.Inv
  untouched : w.start ≠ .returned → Untouched w
  idle : w.fenced = true → Idle w

theorem Unbroken.new (c : WalConfig) : Unbroken (new c) :=
  ⟨Pipeline.Inv.new c, fun _ => Untouched.new c, nofun⟩

theorem Unbroken.step (h : Unbroken w) (hok : ¬ a.Breaks) (hs : w.step a = some w') :
    Unbroken w' := by
  refine ⟨pipelineInv_step h.inv hs, Untouched.step h.untouched (effect_of_step hs), fun hf => ?_⟩
  by_cases hfenced : w.fenced = true
  · exact (h.idle hfenced).step h.inv hs
  have hsame : w'.fenced = w.fenced → Idle w' := fun heq => absurd (heq ▸ hf) hfenced
  cases effect_of_step hs with
  | startLost => exact absurd (by simp [WalAct.Breaks]) hok
  | startNewer hstart =>
    have hnew := h.untouched (by simp [hstart])
    exact ⟨rfl, hnew.closed, hnew.admitted, hnew.trims, hnew.quiet.sealed, hnew.quiet.active⟩
  | place hd hp =>
    cases Pipeline.effect_of_step hp
    exact hsame (Pipeline.Fills.place w.toPipeline _).fenced
  | putReturn hb hp =>
    cases Pipeline.effect_of_step hp
    simp only [WalAct.Breaks, Bool.not_eq_false] at hok
    exact hsame (by simp [hok])
  | pipe hop hp hland hstart hverify =>
    cases Pipeline.effect_of_step hp with
    | begin | fence | storeTrim | place | putReturn => cases hop
    | sealActive => exact hsame (Pipeline.Fills.sealActive w.toPipeline).fenced
    | verify =>
      rw [hverify _ rfl] at hok
      simp only [WalAct.Breaks, ne_eq, not_not] at hok
      exact hsame (by simp [hok])
    | _ => exact hsame rfl
  | _ => exact hsame rfl

theorem unbroken_run (h : run step (new c) as = some w)
    (hok : ∀ a ∈ as, ¬ a.Breaks) : Unbroken w :=
  run_invariant_of_guarded (I := Unbroken) (G := fun _ a => ¬ a.Breaks)
    (fun hu hG hs => hu.step hG hs) (Unbroken.new c) (guarded_of_forall hok) h

theorem Unbroken.failed_eq_nil (h : Unbroken w) : w.failed = [] := by
  by_contra hne
  have hsealed := (h.idle (h.inv.control.failed_fenced hne)).sealed
  simp only [Pipeline.sealed, append_eq_nil_iff] at hsealed
  exact hne hsealed.2.1

/-- **The confirm callbacks form one chain.** In a run without failure of a writer that began at an
aligned offset: every acknowledgement is Ok, and the listener sees all of them but those of trims;
the confirmed ranges tile the WAL from the beginning of the writer to `flushed_offset`; bulk by bulk
they tile an aligned block; the acknowledged records and those still on the way are the records
placed, each under its own sender; and the records of a stream that were placed in base offset order
are acknowledged in the order of their placement. -/
theorem confirm_chain (h : run Writer.step (Writer.new c) as = some w)
    (hok : ∀ a ∈ as, ¬ a.Breaks) (haligned : dataFileAlignSize ∣ w.startOffset) :
    (∀ x ∈ w.acks, ∃ res, x.result = .ok res) ∧
      w.listenerCalls.map (fun x => (x.1, x.2.recordOffset.offset, x.2.nextOffset.offset)) =
        (w.acks.filter (·.record.streamId ≠ trimRecordSentinel)).map
          (fun x => (x.record, x.rangeStart, x.rangeStop)) ∧
      Tiles Ack.rangeStart Ack.rangeStop w.startOffset w.acks w.flushedOffset ∧
      (w.acks = w.flushed.flatMap (fun b => Pipeline.bulkAcks w.config false b.records) ∧
        ∀ b ∈ w.flushed, dataFileAlignSize ∣ b.baseOffset ∧
          b.endOffsetAligned = b.baseOffset + dataFileAlignSize ∧
          Tiles Ack.rangeStart Ack.rangeStop b.baseOffset
            (Pipeline.bulkAcks w.config false b.records) b.endOffsetAligned) ∧
      ((w.acks.map (fun x => (x.id, x.record)) ++ w.pending).Perm ((Writer.new c).placements as) ∧
        (((Writer.new c).placements as).map Prod.fst).Nodup) ∧
      ∀ streamId, (((Writer.new c).placements as).filter (·.2.streamId = streamId)).Pairwise
          (fun x y => x.2.baseOffset ≤ y.2.baseOffset) →
        (w.acks.map fun x => (x.id, x.record)).filter (·.2.streamId = streamId) <+:
          ((Writer.new c).placements as).filter (·.2.streamId = streamId) := by
  have hplaced := placed_run h
  have hi := hplaced.base.inv
  have hfailed := (unbroken_run h hok).failed_eq_nil
  have hacks : w.acks = w.flushed.flatMap fun b => Pipeline.bulkAcks w.config false b.records := by
    rw [hi.flush.acks, hfailed, flatMap_nil, append_nil]
  have hall : ∀ x ∈ w.acks, ∃ res, x.result = .ok res := by
    intro x hx
    rw [hacks] at hx
    obtain ⟨b, -, hxb⟩ := mem_flatMap.mp hx
    obtain ⟨q, -, -, -, last, hresult⟩ := Pipeline.mem_bulkAcks hxb
    exact ⟨_, hresult⟩
  refine ⟨hall, Pipeline.listenerCalls_eq hall, hi.tiles_acks hfailed, ⟨hacks, fun b hb => ?_⟩,
    ⟨?_, ?_⟩, fun streamId hbase => ?_⟩
  · obtain ⟨hbase, hstop⟩ := hi.aligned_window haligned (Pipeline.mem_sealed_of_mem_flushed hb)
    exact ⟨hbase, hstop, hi.tiles_flushed hb⟩
  · rw [← Pipeline.slots_eq_append hi]
    exact hplaced.perm
  · exact (hplaced.perm.map Prod.fst).nodup_iff.mp hplaced.base.senders.nodup
  · rw [← hplaced.filter_stream hbase, Pipeline.slots_eq_append hi, filter_append]
    exact prefix_append _ _

/-- Two streams in the first bulk, placed against the order of the object, and a trim behind it. -/
def chainSchedule : List WalAct :=
  [.startVerify .held, .startList [], .submit ⟨7, 0, 0, 1, [1]⟩, .place 0,
    .submit ⟨5, 0, 0, 1, [2]⟩, .place 0, .submit ⟨5, 0, 1, 1, [3]⟩, .place 0, .flush, .tryUpload,
    .uploadStart 1, .putLand 1, .putReturn 1 true, .recv, .verify .held, .loadFenced,
    .completeBulk, .completeBulk, .trimStart 0, .trimSubmit 0, .place 0, .flush, .tryUpload,
    .uploadStart 2, .putLand 2, .putReturn 2 true, .recv, .verify .held, .loadFenced, .completeBulk]

theorem confirm_chain_two_bulks :
    ∃ w, run Writer.step (Writer.new .defaults) chainSchedule = some w ∧
      w.acks.map Ack.id = [(1, 1), (1, 2), (1, 0), (2, 0)] ∧
      w.listenerCalls.map (fun x => (x.1.streamId, x.2.nextOffset.offset)) =
        [(5, 58), (5, 116), (7, dataFileAlignSize)] ∧
      Tiles Ack.rangeStart Ack.rangeStop 0 w.acks (2 * dataFileAlignSize) := by
  obtain ⟨w, hw, hids, hcalls, hstart, hflushed⟩ : ∃ w,
      run step (new .defaults) chainSchedule = some w ∧
        w.acks.map Ack.id = [(1, 1), (1, 2), (1, 0), (2, 0)] ∧
        w.listenerCalls.map (fun x => (x.1.streamId, x.2.nextOffset.offset)) =
          [(5, 58), (5, 116), (7, dataFileAlignSize)] ∧
        w.startOffset = 0 ∧ w.flushedOffset = 2 * dataFileAlignSize := by decide +kernel
  have hchain := (confirm_chain hw (by decide) (by simp [hstart])).2.2.1
  rw [hstart, hflushed] at hchain
  exact ⟨w, hw, hids, hcalls, hchain⟩

end Writer

end S3Stream
