import S3Stream.Wal.Confirm

/-! # Senders and the order of acknowledgements

Every record that `submit` places gets a sender of its own, which it keeps while its bulk is
sorted, uploaded and completed. Acknowledgements are sent bulk by bulk, and within a bulk by
stream and base offset; the acknowledged WAL offsets increase. -/

namespace S3Stream

open List

instance : Std.Total RecordLe where
  total a b := by unfold RecordLe; omega

instance : IsTrans PendingRecord RecordLe where
  trans a b c := by unfold RecordLe; omega

/-- The order in which senders are given out. -/
def AckId.Before (i j : AckId) : Prop := i.1 < j.1 ∨ i.1 = j.1 ∧ i.2 < j.2

theorem AckId.Before.le (h : Before i j) : i.1 ≤ j.1 := by
  unfold Before at h
  omega

theorem AckId.Before.ne (h : Before i j) : i ≠ j := by
  rintro rfl
  unfold Before at h
  omega

theorem AckId.Before.asymm (h : Before i j) : ¬ Before j i := by
  unfold Before at *
  omega

theorem AckId.before_of_not_before (hne : i ≠ j) (h : ¬ Before j i) : Before i j := by
  obtain ⟨a, b⟩ := i
  obtain ⟨c, d⟩ := j
  simp only [ne_eq, Prod.mk.injEq, Before] at *
  omega

/-- A record and where its acknowledgement goes. -/
def PendingRecord.slot (r : PendingRecord) : AckId × StreamRecordBatch := (r.ack, r.record)

theorem map_slot_assignOffsets :
    (assignOffsets base rs).map PendingRecord.slot = rs.map PendingRecord.slot := by
  induction rs generalizing base with
  | nil => rfl
  | cons r rs ih =>
    rw [assignOffsets, map_cons, map_cons, ih]
    rfl

theorem UploadingBulk.map_slot_issue (b : UploadingBulk) (c : WalConfig) (t : Int) :
    ((b.issue c t).records.map PendingRecord.slot).Perm (b.records.map PendingRecord.slot) := by
  simp only [UploadingBulk.issue, map_slot_assignOffsets]
  exact (perm_insertionSort RecordLe b.records).map _

theorem UploadingBulk.pairwise_issue (b : UploadingBulk) (c : WalConfig) (t : Int) :
    (b.issue c t).records.Pairwise RecordLe := by
  have hsorted := pairwise_insertionSort RecordLe b.records
  have hmap : ∀ rs : List PendingRecord, rs.Pairwise RecordLe ↔
      (rs.map PendingRecord.record).Pairwise fun a b =>
        a.streamId < b.streamId ∨ a.streamId = b.streamId ∧ a.baseOffset ≤ b.baseOffset :=
    fun rs => by rw [pairwise_map]; rfl
  rw [hmap] at hsorted ⊢
  simpa only [UploadingBulk.issue, map_record_assignOffsets] using hsorted

namespace Pipeline

variable {p p' : Pipeline} {r : StreamRecordBatch} {x y : Ack}

/-! ## Senders -/

/-- The records placed so far, with their senders. -/
def slots (p : Pipeline) : List (AckId × StreamRecordBatch) :=
  (p.sealed.flatMap UploadingBulk.records ++ (p.active.map Bulk.records).getD []).map
    PendingRecord.slot

theorem slots_congr (hs : p'.sealed = p.sealed) (ha : p'.active = p.active) :
    p'.slots = p.slots := by
  rw [slots, slots, hs, ha]

theorem mem_slots_of_mem_sealed (hb : b ∈ p.sealed) (hq : q ∈ b.records) : q.slot ∈ p.slots :=
  mem_map_of_mem (mem_append_left _ (mem_flatMap.mpr ⟨b, hb, hq⟩))

theorem slots_sealActive (p : Pipeline) : p.sealActive.slots = p.slots := by
  unfold sealActive
  split
  · rfl
  next ha => simp [slots, sealed, ha, Bulk.toUploading]

theorem slots_newActiveBulk (h : p.active = none) : p.newActiveBulk.slots = p.slots := by
  simp [slots, newActiveBulk, h, sealed]

theorem active_sealActive (p : Pipeline) : p.sealActive.active = none := by
  unfold sealActive
  split
  next h => exact h
  next => rfl

/-- Room is in the active bulk, or a new one is opened behind the records so far. -/
theorem ensureRoom_cases (p : Pipeline) (size : Nat) :
    (∃ a, p.active = some a) ∧ p.ensureRoom size = p ∨
      ∃ q : Pipeline, q.active = none ∧ q.slots = p.slots ∧
        p.ensureRoom size = q.newActiveBulk := by
  unfold ensureRoom
  cases hact : p.active with
  | none =>
    simp only [Option.isNone_none, if_true]
    refine .inr ?_
    split
    · exact ⟨_, active_sealActive _, (slots_sealActive _).trans (slots_newActiveBulk hact), rfl⟩
    · exact ⟨p, hact, rfl, rfl⟩
  | some a =>
    simp only [Option.isNone_some, Bool.false_eq_true, if_false]
    split
    · exact .inr ⟨_, active_sealActive _, slots_sealActive _, rfl⟩
    · exact .inl ⟨⟨a, rfl⟩, rfl⟩

/-- Making room is sealing the active bulk and opening a new one, as far as needed. -/
theorem ensureRoom_induction {I : Pipeline → Prop} (hnew : ∀ {q}, I q → I q.newActiveBulk)
    (hseal : ∀ {q}, I q → I q.sealActive) (h : I p) (size : Nat) : I (p.ensureRoom size) := by
  unfold ensureRoom
  dsimp only
  split <;> split
  · exact hnew (hseal (hnew h))
  · exact hnew h
  · exact hnew (hseal h)
  · exact h

/-- Placing a record is making room, pushing to the active bulk and possibly sealing it. -/
theorem place_induction {I : Pipeline → Prop} (hnew : ∀ {q}, I q → I q.newActiveBulk)
    (hseal : ∀ {q}, I q → I q.sealActive)
    (hpush : ∀ {q a}, I q → q.active = some a → I { q with active := some (a.push r) }) (h : I p) :
    I (p.place r) := by
  have hroom := ensureRoom_induction (I := I) hnew hseal h (framedSize r)
  unfold place pushRecord
  split
  next => exact hroom
  next ha =>
    dsimp only
    split
    · exact hseal (hpush hroom ha)
    · exact hpush hroom ha

theorem slots_ensureRoom (p : Pipeline) (size : Nat) : (p.ensureRoom size).slots = p.slots := by
  rcases ensureRoom_cases p size with ⟨-, heq⟩ | ⟨q, hq, hslots, heq⟩
  · rw [heq]
  · rw [heq, slots_newActiveBulk hq, hslots]

theorem exists_active_ensureRoom (p : Pipeline) (size : Nat) :
    ∃ a, (p.ensureRoom size).active = some a := by
  rcases ensureRoom_cases p size with ⟨hact, heq⟩ | ⟨q, -, -, heq⟩
  · rw [heq]; exact hact
  · rw [heq]; exact ⟨_, rfl⟩

theorem slots_place (p : Pipeline) (r : StreamRecordBatch) :
    (p.place r).slots = p.slots ++ [(p.ackFor r, r)] := by
  obtain ⟨a, ha⟩ := exists_active_ensureRoom p (framedSize r)
  have hpush : slots { p.ensureRoom (framedSize r) with active := some (a.push r) } =
      p.slots ++ [(p.ackFor r, r)] := by
    rw [← slots_ensureRoom p (framedSize r), ackFor, ha]
    simp [slots, sealed, ha, Bulk.push, PendingRecord.slot]
  unfold place pushRecord
  rw [ha]
  dsimp only
  split
  · rw [slots_sealActive, hpush]
  · exact hpush

theorem slots_update
    (hg : ∀ b, ((g b).records.map PendingRecord.slot).Perm (b.records.map PendingRecord.slot)) :
    (slots { p with uploading := updateBulk p.uploading seq g }).Perm p.slots := by
  have hup : ∀ bs : List UploadingBulk,
      (((updateBulk bs seq g).flatMap UploadingBulk.records).map PendingRecord.slot).Perm
        ((bs.flatMap UploadingBulk.records).map PendingRecord.slot) := by
    intro bs
    induction bs with
    | nil => exact .refl _
    | cons b bs ih =>
      simp only [updateBulk, map_cons, flatMap_cons, map_append] at ih ⊢
      refine List.Perm.append ?_ ih
      split
      · exact hg b
      · exact .refl _
  simp only [slots, sealed, flatMap_append, map_append]
  exact (((hup _).append_right _).append_left _ |>.append_left _ |>.append_left _).append_right _

theorem slots_step (hc : Control p) (hstep : Effect p op p') :
    (∃ r, op = .place r ∧ p'.slots = p.slots ++ [(p.ackFor r, r)]) ∨ p'.slots.Perm p.slots := by
  have hmove : p'.sealed = p.sealed → p'.active = p.active → p'.slots.Perm p.slots :=
    fun hs ha => .of_eq (slots_congr hs ha)
  have hsealed := fun hop => sealed_congr hc hstep hop
  cases hstep with
  | place => exact .inl ⟨_, rfl, slots_place p _⟩
  | sealActive => exact .inr (.of_eq (slots_sealActive p))
  | uploadStart => exact .inr (slots_update fun b => b.map_slot_issue _ _)
  | putReturn => exact .inr (slots_update fun _ => .refl _)
  | begin | fence | storeTrim | putLand => exact .inr (hmove rfl rfl)
  | _ => exact .inr (hmove (hsealed trivial) rfl)

/-- Senders are different, the active bulk numbers its records, and the bulks whose object was
built are in order. -/
structure Senders (p : Pipeline) : Prop where
  nodup : (p.slots.map Prod.fst).Nodup
  numbered : ∀ a, p.active = some a → ∀ q ∈ a.records, q.ack.2 < a.records.length
  sorted : ∀ b ∈ p.sealed, b.put ≠ none → b.records.Pairwise RecordLe

/-- The bulk that takes a record is the active one, or new and empty. -/
theorem Senders.numbered_ensureRoom (h : Senders p) (ha : (p.ensureRoom size).active = some a) :
    ∀ q ∈ a.records, q.ack.2 < a.records.length := by
  rcases ensureRoom_cases p size with ⟨-, heq⟩ | ⟨q, -, -, heq⟩
  · exact h.numbered a (heq ▸ ha)
  · rw [heq] at ha
    cases ha
    nofun

theorem Senders.before_ackFor (h : Senders p) (hi : Inv p)
    (hfit : framedSize r ≤ dataFileAlignSize)
    (hroom : p.nextOffset + 4 * dataFileAlignSize < 2 ^ 63) :
    ∀ x ∈ p.slots, AckId.Before x.1 (p.ackFor r) := by
  obtain ⟨hlayout, a, ha, -⟩ := ensureRoom_spec hi.layout hi.filled hfit hroom
  obtain ⟨haok, -, -, -, hlt, -⟩ := hlayout.active a ha
  have hack : p.ackFor r = (a.seq, a.records.length) := by rw [ackFor, ha]; rfl
  have hnumbered := h.numbered_ensureRoom ha
  rw [hack, ← slots_ensureRoom p (framedSize r)]
  intro x hx
  obtain ⟨q, hq, rfl⟩ := mem_map.mp hx
  rw [ha] at hq
  rcases mem_append.mp hq with hq | hq
  · obtain ⟨b, hb, hq⟩ := mem_flatMap.mp hq
    exact .inl (((hlayout.ok b hb).record q hq).ack.symm ▸ hlt b hb)
  · exact .inr ⟨(haok.record q hq).ack, hnumbered q hq⟩

theorem Senders.ackFor_fresh (h : Senders p) (hi : Inv p)
    (hfit : framedSize r ≤ dataFileAlignSize)
    (hroom : p.nextOffset + 4 * dataFileAlignSize < 2 ^ 63) :
    ∀ x ∈ p.slots, x.1.1 ≤ (p.ackFor r).1 ∧ x.1 ≠ p.ackFor r := by
  intro x hx
  have hbefore := h.before_ackFor hi hfit hroom x hx
  exact ⟨hbefore.le, hbefore.ne⟩

theorem Senders.numbered_step (h : Senders p) (hstep : Effect p op p') :
    ∀ a, p'.active = some a → ∀ q ∈ a.records, q.ack.2 < a.records.length := by
  cases hstep with
  | @place r =>
    obtain ⟨a, ha⟩ := exists_active_ensureRoom p (framedSize r)
    have hnumbered := h.numbered_ensureRoom ha
    intro d hd
    unfold place pushRecord at hd
    rw [ha] at hd
    dsimp only at hd
    split at hd
    · cases (active_sealActive _).symm.trans hd
    · cases hd
      intro q hq
      show q.ack.2 < (a.records ++ [_]).length
      rw [length_append]
      rcases mem_append.mp hq with hq | hq
      · exact Nat.lt_succ_of_lt (hnumbered q hq)
      · obtain rfl := mem_singleton.mp hq
        exact Nat.lt_succ_self _
  | sealActive =>
    intro a ha
    cases (active_sealActive p).symm.trans ha
  | _ => exact h.numbered

theorem Senders.sorted_step (h : Senders p) (hi : Inv p) (hstep : Effect p op p') :
    ∀ b ∈ p'.sealed, b.put ≠ none → b.records.Pairwise RecordLe := by
  have hfills : Fills p p' → ∀ b ∈ p'.sealed, b.put ≠ none → b.records.Pairwise RecordLe := by
    intro hq b hb hput
    obtain ⟨new, hnew⟩ := hq.sealed_eq
    rw [hnew] at hb
    rcases mem_append.mp hb with hb | hb
    · exact h.sorted b hb hput
    · obtain ⟨d, -, rfl⟩ := mem_map.mp hb
      exact absurd rfl hput
  have hsealed := fun hop => sealed_congr hi.control hstep hop
  cases hstep with
  | place => exact hfills (Fills.place p _)
  | sealActive => exact hfills (Fills.sealActive p)
  | begin | fence | storeTrim | putLand => exact h.sorted
  | uploadStart hb₀ hseq =>
    intro b hb hput
    rcases (mem_sealed_update hi.layout hb₀ hseq).mp hb with rfl | ⟨hb, -⟩
    · exact UploadingBulk.pairwise_issue _ _ _
    · exact h.sorted b hb hput
  | @putReturn seq b₀ ok hfind hb₀ hseq =>
    intro b hb hput
    rcases (mem_sealed_update hi.layout hb₀ hseq).mp hb with rfl | ⟨hb, -⟩
    · exact h.sorted b₀ (mem_sealed_of_mem_uploading hb₀) hput
    · exact h.sorted b hb hput
  | _ => rw [hsealed trivial]; exact h.sorted

theorem Senders.step (h : Senders p) (hi : Inv p) (hstep : p.step op = some p') : Senders p' := by
  have heff := effect_of_step hstep
  refine ⟨?_, h.numbered_step heff, h.sorted_step hi heff⟩
  rcases slots_step hi.control heff with ⟨r, rfl, hslots⟩ | hperm
  · cases heff with | place hr hfit hroom => ?_
    rw [hslots, map_append, nodup_append]
    refine ⟨h.nodup, nodup_singleton _, fun id hid id' hid' => ?_⟩
    obtain ⟨x, hx, rfl⟩ := mem_map.mp hid
    rw [mem_singleton.mp hid']
    exact (h.ackFor_fresh hi hfit hroom x hx).2
  · exact (hperm.map Prod.fst).nodup_iff.mpr h.nodup

theorem Senders.new (c : WalConfig) : Senders (Pipeline.new c) := ⟨.nil, nofun, nofun⟩

theorem Senders.record_unique (h : Senders p) {id : AckId} (hr : (id, r) ∈ p.slots)
    (hr' : (id, r') ∈ p.slots) : r = r' := by
  have heq := inj_on_of_nodup_map h.nodup hr hr' rfl
  exact congrArg Prod.snd heq

/-! ## Acknowledgements -/

theorem Inv.mem_slots_of_ack (h : Inv p) (hx : x ∈ p.acks) : (x.id, x.record) ∈ p.slots := by
  have hbulk : ∀ {b fenced}, b ∈ p.sealed → x ∈ bulkAcks p.config fenced b.records →
      (x.id, x.record) ∈ p.slots := by
    intro b fenced hb hxb
    obtain ⟨q, hq, hid, hrecord, -⟩ := mem_bulkAcks hxb
    rw [hid, hrecord]
    exact mem_slots_of_mem_sealed hb hq
  rw [h.flush.acks] at hx
  rcases mem_append.mp hx with hx | hx
  · obtain ⟨b, hb, hxb⟩ := mem_flatMap.mp hx
    exact hbulk (mem_sealed_of_mem_flushed hb) hxb
  · obtain ⟨b, hb, hxb⟩ := mem_flatMap.mp hx
    exact hbulk (by simp [sealed, hb]) hxb

theorem map_slot_bulkAcks {fenced : Bool} :
    (bulkAcks c fenced rs).map (fun x => (x.id, x.record)) = rs.map PendingRecord.slot := by
  induction rs with
  | nil => rfl
  | cons q rs ih =>
    rw [bulkAcks, map_cons, map_cons, ih]
    rfl

/-- The records of the completed bulks are acknowledged, in their order. -/
theorem Flush.map_slot_acks (h : Flush p) : p.acks.map (fun x => (x.id, x.record)) =
    ((p.flushed ++ p.failed).flatMap UploadingBulk.records).map PendingRecord.slot := by
  simp only [h.acks, map_append, map_flatMap, map_slot_bulkAcks, flatMap_append]

theorem nodup_acks (h : Inv p) (hs : Senders p) : (p.acks.map Ack.id).Nodup := by
  have hacks := h.flush.map_slot_acks
  have hsub : (p.acks.map fun x => (x.id, x.record)).Sublist p.slots := by
    rw [hacks]
    simp only [slots, sealed, map_append, flatMap_append, append_assoc]
    exact (List.Sublist.refl _).append (sublist_append_left _ _)
  have hnodup := hs.nodup.sublist (hsub.map Prod.fst)
  rwa [map_map] at hnodup

/-- The order in which acknowledgements are sent: by bulk, then by stream and base offset. -/
def AckLe (x y : Ack) : Prop :=
  x.id.1 < y.id.1 ∨ x.id.1 = y.id.1 ∧ (x.record.streamId < y.record.streamId ∨
    x.record.streamId = y.record.streamId ∧ x.record.baseOffset ≤ y.record.baseOffset)

theorem pairwise_bulkAcks {fenced : Bool} (hS : ∀ a b last last', S a b → R ⟨a.ack, a.record,
        if fenced then .error (.fenced c.nodeId c.epoch) else .ok (ackResult c a last)⟩
      ⟨b.ack, b.record,
        if fenced then .error (.fenced c.nodeId c.epoch) else .ok (ackResult c b last')⟩)
    (h : rs.Pairwise S) : (bulkAcks c fenced rs).Pairwise R := by
  induction rs with
  | nil => exact .nil
  | cons a rs ih =>
    obtain ⟨ha, hrs⟩ := pairwise_cons.mp h
    refine .cons (fun y hy => ?_) (ih hrs)
    obtain ⟨b, hb, hid, hrecord, last, hresult⟩ := mem_bulkAcks hy
    obtain ⟨id, record, result⟩ := y
    cases hid
    cases hrecord
    cases hresult
    exact hS a b _ _ (ha b hb)

theorem exists_mem_bulkAcks (hq : q ∈ rs) :
    ∃ x ∈ bulkAcks c false rs, x.id = q.ack ∧ x.record = q.record ∧
      ∃ res, x.result = .ok res := by
  induction rs with
  | nil => cases hq
  | cons q' rs ih =>
    rcases mem_cons.mp hq with rfl | hq
    · exact ⟨_, mem_cons_self, rfl, rfl, _, rfl⟩
    · obtain ⟨x, hx, hrest⟩ := ih hq
      exact ⟨x, mem_cons_of_mem _ hx, hrest⟩

/-- Failed bulks come last, so an Ok acknowledgement has only Ok ones before it. -/
theorem pairwise_acks (h : Inv p)
    (hone : ∀ b ∈ p.flushed, (bulkAcks p.config false b.records).Pairwise R)
    (htwo : p.flushed.Pairwise fun b d => ∀ x ∈ bulkAcks p.config false b.records,
      ∀ y ∈ bulkAcks p.config false d.records, R x y) :
    p.acks.Pairwise fun x y => (∃ res, y.result = .ok res) → R x y := by
  have hfailed : ∀ y ∈ p.failed.flatMap fun b => bulkAcks p.config true b.records,
      ∀ res, y.result ≠ .ok res := by
    intro y hy res hok
    obtain ⟨b, -, hyb⟩ := mem_flatMap.mp hy
    obtain ⟨q, -, -, -, last, hresult⟩ := mem_bulkAcks hyb
    cases hok.symm.trans hresult
  rw [h.flush.acks, pairwise_append]
  refine ⟨?_, ?_, ?_⟩
  · have hflushed := pairwise_flatMap.mpr ⟨hone, htwo⟩
    exact hflushed.imp fun {x y} hR (_ : ∃ res, y.result = .ok res) => hR
  · exact pairwise_of_forall_mem_list fun x _ y hy ⟨res, hok⟩ => absurd hok (hfailed y hy res)
  · exact fun x _ y hy ⟨res, hok⟩ => absurd hok (hfailed y hy res)

/-- Acknowledgements are sent bulk by bulk, and within a bulk by stream and base offset. -/
theorem pairwise_ackLe (h : Inv p) (hs : Senders p) :
    p.acks.Pairwise fun x y => (∃ res, y.result = .ok res) → AckLe x y := by
  have hseq : ∀ b ∈ p.flushed, ∀ x ∈ bulkAcks p.config false b.records, x.id.1 = b.seq := by
    intro b hb x hx
    obtain ⟨q, hq, hid, -⟩ := mem_bulkAcks hx
    rw [hid]
    exact ((h.layout.ok b (mem_sealed_of_mem_flushed hb)).record q hq).ack
  refine pairwise_acks h (fun b hb => ?_) ?_
  · obtain ⟨f, hput⟩ := h.exists_put_of_flushed hb
    have hmem := mem_sealed_of_mem_flushed hb
    have hsorted := hs.sorted b hmem (by simp [hput])
    have hall : b.records.Pairwise fun q q' => q.ack.1 = q'.ack.1 ∧ RecordLe q q' := by
      refine hsorted.imp_of_mem fun {q q'} hq hq' hle => ⟨?_, hle⟩
      have hok := h.layout.ok b hmem
      exact ((hok.record q hq).ack).trans ((hok.record q' hq').ack).symm
    exact pairwise_bulkAcks (fun _ _ _ _ hqq => .inr hqq) hall
  · refine (pairwise_append.mp h.layout.seqs).1.imp_of_mem ?_
    intro b d hb hd hlt x hx y hy
    exact .inl (by rw [hseq b hb x hx, hseq d hd y hy]; exact hlt)

/-- **Acknowledged in stream order.** Before an Ok acknowledgement of a record, every record of
the same stream with a smaller base offset that was placed in the same or an earlier bulk has
its own. -/
theorem exists_ok_before (h : Inv p) (hs : Senders p) (hacks : p.acks = l₁ ++ y :: l₂)
    (hok : y.result = .ok res) {id : AckId} (hr : (id, r) ∈ p.slots) (hseq : id.1 ≤ y.id.1)
    (hstream : r.streamId = y.record.streamId) (hbase : r.baseOffset < y.record.baseOffset) :
    ∃ x ∈ l₁, x.id = id ∧ x.record = r ∧ ∃ res, x.result = .ok res := by
  have hy : y ∈ p.acks := by rw [hacks]; simp
  obtain ⟨d, hd, hyd⟩ := h.flush.exists_of_ok hy hok
  obtain ⟨q', hq', hid', -⟩ := mem_bulkAcks hyd
  have hdseq : y.id.1 = d.seq :=
    hid' ▸ ((h.layout.ok d (mem_sealed_of_mem_flushed hd)).record q' hq').ack
  -- The record is in a flushed bulk as well.
  obtain ⟨b, hb, hxb⟩ : ∃ b ∈ p.flushed, ∃ q ∈ b.records, q.slot = (id, r) := by
    obtain ⟨q, hq, hslot⟩ := mem_map.mp hr
    have hqid : q.ack = id := congrArg Prod.fst hslot
    rcases mem_append.mp hq with hq | hq
    · obtain ⟨b, hb, hq⟩ := mem_flatMap.mp hq
      have hbseq := ((h.layout.ok b hb).record q hq).ack
      refine ⟨b, h.mem_flushed_of_seq_le hd hb ?_, q, hq, hslot⟩
      rw [← hbseq, hqid, ← hdseq]
      exact hseq
    · cases hact : p.active with
      | none => rw [hact] at hq; cases hq
      | some a =>
        rw [hact] at hq
        obtain ⟨haok, -, -, -, hlt, -⟩ := h.layout.active a hact
        have hd' := hlt d (mem_sealed_of_mem_flushed hd)
        have haseq := (haok.record q hq).ack
        rw [hqid] at haseq
        omega
  obtain ⟨q, hq, hslot⟩ := hxb
  obtain ⟨x, hx, hxid, hxrecord, hxok⟩ := exists_mem_bulkAcks hq
  have hxid : x.id = id := hxid.trans (congrArg Prod.fst hslot)
  have hxrecord : x.record = r := hxrecord.trans (congrArg Prod.snd hslot)
  have hmem := h.flush.mem_acks hb hx
  have hsorted := pairwise_ackLe h hs
  rw [hacks] at hmem hsorted
  refine ⟨x, ?_, hxid, hxrecord, hxok⟩
  rcases mem_append.mp hmem with hmem | hmem
  · exact hmem
  exfalso
  rcases mem_cons.mp hmem with rfl | hmem
  · rw [hxrecord] at hbase
    exact lt_irrefl _ hbase
  · have hle := (pairwise_cons.mp (pairwise_append.mp hsorted).2.1).1 x hmem hxok
    unfold AckLe at hle
    rw [hxid, hxrecord] at hle
    omega

end Pipeline

namespace Writer

variable {w w' : Writer} {a : WalAct}

theorem senders_step (hs : w.toPipeline.Senders) (hi : w.toPipeline.Inv)
    (h : w.step a = some w') : w'.toPipeline.Senders := by
  rcases (effect_of_step h).pipeline with heq | ⟨op, hop⟩
  · rw [heq]
    exact hs
  · exact hs.step hi hop

theorem slots_place (hd : w.admitted[n]? = some d) (h : w.step (.place n) = some w') :
    w'.slots = w.slots ++ [(w.ackFor d.record, d.record)] := by
  simp only [Writer.step, Writer.place, hd] at h
  obtain ⟨p, hp, rfl⟩ := pipe_eq_some h
  cases Pipeline.effect_of_step hp
  exact Pipeline.slots_place _ _

theorem slots_step (hi : w.toPipeline.Inv) (h : w.step a = some w') :
    (∃ n d, a = .place n ∧ w.admitted[n]? = some d ∧
      w'.slots = w.slots ++ [(w.ackFor d.record, d.record)]) ∨ w'.slots.Perm w.slots := by
  have hpipe : ∀ {op p}, w.toPipeline.step op = some p → (∀ r, op ≠ .place r) →
      p.slots.Perm w.slots := by
    intro op p hp hop
    exact (Pipeline.slots_step hi.control (Pipeline.effect_of_step hp)).resolve_left
      fun ⟨r, hr, _⟩ => hop r hr
  cases effect_of_step h with
  | @place n d p hd =>
    exact .inl ⟨n, d, rfl, hd, slots_place hd h⟩
  | @pipe _ op p hop hp =>
    refine .inr (hpipe hp ?_)
    rintro r rfl
    exact hop
  | putReturn hb hp => exact .inr (hpipe hp (by simp))
  | started => exact .inr (.refl _)
  | _ => exact .inr (.refl _)

theorem acks_step (h : w.step a = some w') : w.acks <+: w'.acks := by
  have hpipe : ∀ {op p}, w.toPipeline.step op = some p → w.acks <+: p.acks := by
    intro op p hp
    cases Pipeline.effect_of_step hp with
    | place => rw [(Pipeline.Fills.place w.toPipeline _).acks]
    | sealActive => rw [(Pipeline.Fills.sealActive w.toPipeline).acks]
    | fail | flush => exact prefix_append _ _
    | _ => exact prefix_rfl
  rcases (effect_of_step h).pipeline with heq | ⟨op, hop⟩
  · rw [heq]
  · exact hpipe hop

/-- A record that is placed was admitted, and gets a sender behind all others. -/
theorem before_ackFor (hs : w.toPipeline.Senders) (hi : w.toPipeline.Inv)
    (hd : w.admitted[n]? = some d) (h : w.step (.place n) = some w') :
    ∀ x ∈ w.slots, AckId.Before x.1 (w.ackFor d.record) := by
  have hplace : ∃ p, w.toPipeline.step (.place d.record) = some p := by
    simp only [Writer.step, Writer.place, hd] at h
    obtain ⟨p, hp, -⟩ := pipe_eq_some h
    exact ⟨p, hp⟩
  obtain ⟨p, hp⟩ := hplace
  cases Pipeline.effect_of_step hp with
  | place hr hfit hroom => exact hs.before_ackFor hi hfit hroom

theorem ackFor_fresh (hs : w.toPipeline.Senders) (hi : w.toPipeline.Inv)
    (hd : w.admitted[n]? = some d) (h : w.step (.place n) = some w') :
    ∀ x ∈ w.slots, x.1.1 ≤ (w.ackFor d.record).1 ∧ x.1 ≠ w.ackFor d.record := by
  intro x hx
  have hbefore := before_ackFor hs hi hd h x hx
  exact ⟨hbefore.le, hbefore.ne⟩

/-- The writer has been started and takes no record any more. -/
def Dead (w : Writer) : Prop := w.start = .returned ∧ (w.closed = true ∨ w.fenced = true)

theorem Dead.step (hd : w.Dead) (h : w.step a = some w') : w'.Dead := by
  obtain ⟨hret, hcase⟩ := hd
  refine ⟨(effect_of_step h).start_returned hret, ?_⟩
  rcases hcase with hclosed | hfenced
  · left
    cases effect_of_step h with
    | started hstart => cases hret.symm.trans hstart
    | close => rfl
    | _ => exact hclosed
  · exact .inr (fenced_step hfenced h).1

theorem Dead.submitCheck (hd : w.Dead) (r : StreamRecordBatch) : w.submitCheck r ≠ .ok () := by
  unfold Writer.submitCheck checkStatus
  obtain ⟨-, hclosed | hfenced⟩ := hd
  · simp [hclosed, bind, Except.bind]
  · by_cases hclosed : w.closed = true
    · simp [hclosed, bind, Except.bind]
    · simp [hclosed, hfenced, bind, Except.bind]

/-- A record that fits is refused for good only by a dead writer. -/
theorem dead_of_submitCheck (hret : w.start = .returned) (hfit : framedSize r ≤ dataFileAlignSize)
    (hcheck : w.submitCheck r = .error e) (he : ∀ n m, e ≠ .overCapacity n m) : w.Dead := by
  refine ⟨hret, ?_⟩
  unfold Writer.submitCheck checkStatus at hcheck
  by_cases hclosed : w.closed = true
  · exact .inl hclosed
  by_cases hfenced : w.fenced = true
  · exact .inr hfenced
  simp only [hclosed, hfenced, Bool.false_eq_true, if_false, bind, Except.bind] at hcheck
  split at hcheck
  · cases hcheck
    exact absurd rfl (he _ _)
  · rw [if_neg (not_lt.mpr hfit)] at hcheck
    cases hcheck

end Writer

end S3Stream
