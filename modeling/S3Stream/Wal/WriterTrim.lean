import S3Stream.Lib.Update
import S3Stream.Wal.Confirm

/-! # Trims of one writer

A trim writes its offset into the header of every bulk from the one that holds its record on.
It deletes only objects whose records it covers, and never the newest object of the writer. -/

namespace S3Stream

open List Pipeline OrdMap

namespace Pipeline

variable {p p' : Pipeline} {op : PipeOp} {b : UploadingBulk} {f : WalFile}

/-! ## Bulks along a step -/

/-- What a step can do to the sealed bulks: seal new ones, issue one PUT or return one. -/
inductive BulkStep (p : Pipeline) (op : PipeOp) (p' : Pipeline) : Prop where
  | grow (new : List Bulk) (hs : p'.sealed = p.sealed ++ new.map Bulk.toUploading)
  | issue (b₀ : UploadingBulk) (hop : op = .uploadStart b₀.seq) (hb₀ : b₀ ∈ p.sealed)
      (hput : b₀.put = none) (hdone : b₀.done = none)
      (hs : ∀ b, b ∈ p'.sealed ↔
        b = b₀.issue p.config p.trimOffset ∨ b ∈ p.sealed ∧ b.seq ≠ b₀.seq)
  | returned (b₀ : UploadingBulk) (ok : Bool) (hop : op = .putReturn b₀.seq ok)
      (hfind : p.inFlight? b₀.seq = some b₀) (hb₀ : b₀ ∈ p.sealed) (hdone : b₀.done = none)
      (hs : ∀ b, b ∈ p'.sealed ↔
        b = { b₀ with done := some ok } ∨ b ∈ p.sealed ∧ b.seq ≠ b₀.seq)

theorem Effect.bulkStep (hi : Inv p) (h : Effect p op p') : BulkStep p op p' := by
  have hsame : p'.sealed = p.sealed → BulkStep p op p' := fun hs => .grow [] (by simp [hs])
  have hsealed := fun hop => hsame (sealed_congr hi.control h hop)
  cases h with
  | begin | fence | storeTrim | putLand => exact hsame rfl
  | place =>
    obtain ⟨new, hnew⟩ := (Fills.place p _).sealed_eq
    exact .grow new hnew
  | sealActive =>
    obtain ⟨new, hnew⟩ := (Fills.sealActive p).sealed_eq
    exact .grow new hnew
  | @uploadStart b₀ seq f₀ hb₀ hseq hput =>
    subst hseq
    have hmem := mem_sealed_of_mem_uploading hb₀
    exact .issue b₀ rfl hmem hput ((hi.layout.ok b₀ hmem).unissued hput)
      fun b => mem_sealed_update hi.layout hb₀ rfl
  | @putReturn seq b₀ ok hfind hb₀ hseq hput hdone =>
    subst hseq
    exact .returned b₀ ok rfl hfind (mem_sealed_of_mem_uploading hb₀) hdone
      fun b => mem_sealed_update hi.layout hb₀ rfl
  | _ => exact hsealed trivial

theorem mem_sealed_putReturn (hi : Inv p) (hb : p.inFlight? seq = some b)
    (h : p.step (.putReturn seq ok) = some p') :
    d ∈ p'.sealed ↔ d = { b with done := some ok } ∨ d ∈ p.sealed ∧ d.seq ≠ seq := by
  cases effect_of_step h with
  | @putReturn _ b₀ _ hfind hb₀ hseq =>
    cases hb.symm.trans hfind
    exact mem_sealed_update hi.layout hb₀ hseq

theorem mem_sealed_of_done (hi : Inv p) (h : Effect p op p') (hb : b ∈ p.sealed)
    (hd : b.done ≠ none) : b ∈ p'.sealed := by
  have hother : ∀ {b₀ : UploadingBulk}, b₀ ∈ p.sealed → b₀.done = none → b.seq ≠ b₀.seq := by
    intro b₀ hb₀ hdone heq
    obtain rfl := hi.layout.eq_of_seq_eq hb hb₀ heq
    exact hd hdone
  cases h.bulkStep hi with
  | grow new hs =>
    rw [hs]
    exact mem_append_left _ hb
  | issue b₀ hop hb₀ hput hdone hs => exact (hs b).mpr (.inr ⟨hb, hother hb₀ hdone⟩)
  | returned b₀ ok hop hfind hb₀ hdone hs => exact (hs b).mpr (.inr ⟨hb, hother hb₀ hdone⟩)

/-- An object was issued before, or the step issues it with the current watermark. -/
theorem issued_origin (hi : Inv p) (h : Effect p op p') (hb : b ∈ p'.sealed)
    (hput : b.put = some f) :
    (∃ d ∈ p.sealed, d.seq = b.seq ∧ d.put = some f) ∨
      op = .uploadStart b.seq ∧ f.trimOffset = p.trimOffset := by
  cases h.bulkStep hi with
  | grow new hs =>
    rw [hs] at hb
    rcases mem_append.mp hb with hb | hb
    · exact .inl ⟨b, hb, rfl, hput⟩
    · obtain ⟨d, -, rfl⟩ := mem_map.mp hb
      cases hput
  | issue b₀ hop hb₀ hnone hdone hs =>
    rcases (hs b).mp hb with rfl | ⟨hb, -⟩
    · cases hput
      exact .inr ⟨hop, rfl⟩
    · exact .inl ⟨b, hb, rfl, hput⟩
  | returned b₀ ok hop hfind hb₀ hdone hs =>
    rcases (hs b).mp hb with rfl | ⟨hb, -⟩
    · exact .inl ⟨b₀, hb₀, rfl, hput⟩
    · exact .inl ⟨b, hb, rfl, hput⟩

theorem issued_persists (hi : Inv p) (h : Effect p op p') (hb : b ∈ p.sealed)
    (hput : b.put = some f) : ∃ d ∈ p'.sealed, d.seq = b.seq ∧ d.put = some f := by
  cases h.bulkStep hi with
  | grow new hs => exact ⟨b, hs ▸ mem_append_left _ hb, rfl, hput⟩
  | issue b₀ hop hb₀ hnone hdone hs =>
    refine ⟨b, (hs b).mpr (.inr ⟨hb, fun heq => ?_⟩), rfl, hput⟩
    rw [hi.layout.eq_of_seq_eq hb hb₀ heq, hnone] at hput
    cases hput
  | returned b₀ ok hop hfind hb₀ hdone hs =>
    by_cases heq : b.seq = b₀.seq
    · rw [hi.layout.eq_of_seq_eq hb hb₀ heq] at hput
      exact ⟨_, (hs _).mpr (.inl rfl), heq.symm, hput⟩
    · exact ⟨b, (hs b).mpr (.inr ⟨hb, heq⟩), rfl, hput⟩

theorem done_origin (hi : Inv p) (h : Effect p op p') (hb : b ∈ p'.sealed) (hd : b.done = some ok) :
    b ∈ p.sealed ∨
      ∃ d, p.inFlight? b.seq = some d ∧ op = .putReturn b.seq ok ∧
        b = { d with done := some ok } := by
  cases h.bulkStep hi with
  | grow new hs =>
    rw [hs] at hb
    rcases mem_append.mp hb with hb | hb
    · exact .inl hb
    · obtain ⟨d, -, rfl⟩ := mem_map.mp hb
      cases hd
  | issue b₀ hop hb₀ hnone hdone hs =>
    rcases (hs b).mp hb with rfl | ⟨hb, -⟩
    · cases hdone.symm.trans hd
    · exact .inl hb
  | returned b₀ ok' hop hfind hb₀ hdone hs =>
    rcases (hs b).mp hb with rfl | ⟨hb, -⟩
    · cases hd
      exact .inr ⟨b₀, hfind, hop, rfl⟩
    · exact .inl hb

theorem flushed_subset (h : Effect p op p') : p.flushed ⊆ p'.flushed := by
  cases h with
  | place => exact (Fills.place p _).flushed ▸ List.Subset.refl _
  | sealActive => exact (Fills.sealActive p).flushed ▸ List.Subset.refl _
  | flush => exact subset_append_left _ _
  | _ => exact List.Subset.refl _

theorem trimOffset_le (h : Effect p op p') : p.trimOffset ≤ p'.trimOffset := by
  cases h with
  | storeTrim hlt => exact hlt.le
  | place => exact (Fills.place p _).trimOffset.ge
  | sealActive => exact (Fills.sealActive p).trimOffset.ge
  | _ => exact le_refl _

/-- The bulk that takes a record, and every later one, has issued nothing yet. -/
theorem put_eq_none_of_place (hi : Inv p) (hfit : framedSize record ≤ dataFileAlignSize)
    (hroom : p.nextOffset + 4 * dataFileAlignSize < 2 ^ 63) (hb : b ∈ (p.place record).sealed)
    (hseq : (p.ackFor record).1 ≤ b.seq) : b.put = none := by
  obtain ⟨hq, a, hact, -⟩ := ensureRoom_spec hi.layout hi.filled hfit hroom
  have hack : (p.ackFor record).1 = a.seq := by simp [ackFor, hact, Bulk.nextAck]
  obtain ⟨new, hnew⟩ := (Fills.pushRecord (p.ensureRoom (framedSize record)) record).sealed_eq
  rw [place, hnew] at hb
  rcases mem_append.mp hb with hb | hb
  · have hlt := (hq.active a hact).2.2.2.2.1 b hb
    omega
  · obtain ⟨d, -, rfl⟩ := mem_map.mp hb
    rfl

end Pipeline

/-! ## The last record of a bulk -/

namespace UploadingBulk.Ok

variable {c : WalConfig} {b : UploadingBulk} {f : WalFile}

theorem lastRecordOffset_eq (hb : b.Ok c) (hput : b.put = some f) :
    ∃ e, f.entries.getLast? = some e ∧ b.lastRecordOffset = e.offset := by
  obtain ⟨r, hr⟩ := Option.isSome_iff_exists.mp (getLast?_isSome.mpr hb.ne_nil)
  refine ⟨r.entry, ?_, by simp [lastRecordOffset, hr, PendingRecord.entry]⟩
  rw [hb.entries hput, getLast?_map, hr]
  rfl

theorem le_lastRecordOffset (hb : b.Ok c) (hput : b.put = some f) (hv : f.Valid)
    (he : e ∈ f.entries) : e.offset ≤ b.lastRecordOffset := by
  obtain ⟨l, hl, heq⟩ := hb.lastRecordOffset_eq hput
  obtain ⟨stop, ht, -⟩ := hv.tiles
  obtain ⟨es, hes⟩ := getLast?_eq_some_iff.mp hl
  have hpair := ht.pairwise
  rw [hes] at he hpair
  rw [heq]
  rcases mem_append.mp he with hmem | hmem
  · have hle := (pairwise_append.mp hpair).2.2 e hmem l (mem_singleton.mpr rfl)
    exact (Nat.le_add_right ..).trans hle
  · obtain rfl := mem_singleton.mp hmem
    exact le_rfl

theorem lastRecordOffset_bounds (hb : b.Ok c) (hput : b.put = some f) (hv : f.Valid) :
    b.baseOffset ≤ b.lastRecordOffset ∧ b.lastRecordOffset < b.endOffsetAligned := by
  obtain ⟨l, hl, heq⟩ := hb.lastRecordOffset_eq hput
  obtain ⟨hlo, hlt, hhi⟩ := hv.bounds (mem_of_getLast? hl)
  obtain ⟨hstart, hend, -⟩ := hb.window hput
  omega

end UploadingBulk.Ok

namespace Pipeline.Inv

variable {p : Pipeline} {b d : UploadingBulk} {f g : WalFile}

section

variable (hi : Inv p) (hb : b ∈ p.sealed)

include hi hb

theorem valid (hput : b.put = some f) : f.Valid := by
  refine (hi.layout.ok b hb).valid hput ?_
  exact (Windows.Tiles.bounds hi.layout.tiles hb).2.trans_lt hi.layout.next_lt

theorem endOffset_le_of_seq_lt (hd : d ∈ p.sealed) (hlt : b.seq < d.seq) :
    b.endOffsetAligned ≤ d.baseOffset := by
  have hpair := hi.layout.seqs.and hi.layout.tiles.pairwise
  let R : UploadingBulk → UploadingBulk → Prop := fun x y =>
    (x.seq < y.seq → x.endOffsetAligned ≤ y.baseOffset) ∧
      (y.seq < x.seq → y.endOffsetAligned ≤ x.baseOffset)
  have : Std.Symm R := ⟨fun x y h => ⟨h.2, h.1⟩⟩
  have hall : ∀ ⦃x⦄, x ∈ p.sealed → ∀ ⦃y⦄, y ∈ p.sealed → R x y :=
    List.Pairwise.forall_of_forall
      (fun x _ => ⟨fun h => absurd h (lt_irrefl _), fun h => absurd h (lt_irrefl _)⟩)
      (hpair.imp fun h => ⟨fun _ => h.2, fun h' => absurd h' (lt_asymm h.1)⟩)
  exact (hall hb hd).1 hlt

theorem lastRecordOffset_lt (hd : d ∈ p.sealed) (hput : b.put = some f) (hput' : d.put = some g)
    (hlt : b.seq < d.seq) : b.lastRecordOffset < d.lastRecordOffset := by
  have hwin := hi.endOffset_le_of_seq_lt hb hd hlt
  have hb' := (hi.layout.ok b hb).lastRecordOffset_bounds hput (hi.valid hb hput)
  have hd' := (hi.layout.ok d hd).lastRecordOffset_bounds hput' (hi.valid hd hput')
  omega

theorem eq_of_key_eq (hd : d ∈ p.sealed) (hput : b.put = some f) (hput' : d.put = some g)
    (hkey : f.key (dir ++ ['/']) = g.key (dir ++ ['/'])) : b = d := by
  obtain ⟨-, hstart, -⟩ := (hi.valid hb hput).key_inj (hi.valid hd hput') hkey
  refine Windows.Tiles.eq_of_lo_eq hi.layout.tiles hb hd ?_
  rw [← ((hi.layout.ok b hb).window hput).1, ← ((hi.layout.ok d hd).window hput').1, hstart]

end

theorem find?_put (hi : Inv p) (hq : q ∈ p.puts) :
    ∃ q₁, (p.puts.find? fun x => x.seq = q.seq) = some q₁ ∧ q₁.file = q.file := by
  cases hfind : p.puts.find? fun x => x.seq = q.seq with
  | none => simpa using find?_eq_none.mp hfind q hq
  | some q₁ =>
    have hseq : q₁.seq = q.seq := by simpa using find?_some hfind
    obtain ⟨b, hb, hbs, hput⟩ := hi.puts.bulk q hq
    obtain ⟨d, hd, hds, hput'⟩ := hi.puts.bulk q₁ (mem_of_find?_eq_some hfind)
    obtain rfl := hi.layout.eq_of_seq_eq hb hd (by omega)
    exact ⟨q₁, rfl, Option.some.inj (hput'.symm.trans hput)⟩

/-- The windows of a writer that begins at an aligned offset are aligned blocks. -/
theorem aligned_window (hi : Inv p) (hstart : dataFileAlignSize ∣ p.startOffset)
    (hb : b ∈ p.sealed) : dataFileAlignSize ∣ b.baseOffset ∧
      b.endOffsetAligned = b.baseOffset + dataFileAlignSize := by
  have hok := hi.layout.ok b hb
  have hbase : dataFileAlignSize ∣ b.baseOffset := by
    rcases Windows.Tiles.lo_eq_or_exists_hi hi.layout.tiles hb with heq | ⟨c, hc, heq⟩
    · exact heq ▸ hstart
    · rw [heq, (hi.layout.ok c hc).stop]
      exact dvd_ceilAlignOffset _
  have hpos : 0 < (b.records.map PendingRecord.size).sum := by
    by_contra hzero
    have hlt := Windows.Tiles.lo_lt_hi hi.layout.tiles hb
    obtain ⟨n, hn⟩ := hbase
    rw [hok.stop, Nat.eq_zero_of_not_pos hzero, add_zero, hn] at hlt
    simp only [ceilAlignOffset, dataFileAlignSize] at hlt
    omega
  rw [hok.stop]
  exact ⟨hbase, ceilAlignOffset_add hbase hpos hok.size_le⟩

end Pipeline.Inv

/-! ## Watermarks -/

def TrimPhase.ack? : TrimPhase → Option AckId
  | .placed id | .deleting id | .done id => some id
  | _ => none

namespace Writer

variable {w w' : Writer} {a : WalAct}

/-- Every object from bulk `seq` on carries a watermark of at least `o`. -/
def Covers (w : Writer) (o : Int) (seq : Nat) : Prop :=
  ∀ b ∈ w.sealed, seq ≤ b.seq → ∀ f, b.put = some f → o ≤ f.trimOffset

/-- What is known of a trim in each of its phases. -/
structure TrimOk (w : Writer) (t : TrimTask) : Prop where
  le : t.offset ≤ w.trimOffset
  nonneg : t.phase = .stored ∨ t.phase.ack?.isSome → 0 ≤ t.offset
  covers : ∀ id, t.phase.ack? = some id → w.Covers t.offset id.1
  flushed : ∀ id, t.phase = .deleting id ∨ t.phase = .done id → ∃ b ∈ w.flushed, b.seq = id.1
  returned : (∃ id, t.phase = .done id) ∨ t.phase = .joined → t.offset ≤ w.completedTrim

structure Trims (w : Writer) : Prop where
  ok : ∀ t ∈ w.trims, w.TrimOk t
  top : w.trimOffset = trimOffsetNone ∨ ∃ t ∈ w.trims, t.offset = w.trimOffset
  admitted : ∀ d ∈ w.admitted, ∀ k, d.trim = some k → ∃ t, w.trims[k]? = some t ∧ 0 ≤ t.offset
  completed : w.completedTrim = trimOffsetNone ∨
    ∃ b ∈ w.flushed, w.Covers w.completedTrim b.seq ∧ w.completedTrim ≤ w.trimOffset
  headers : ∀ b ∈ w.sealed, ∀ f, b.put = some f → f.trimOffset ≤ w.trimOffset

theorem mem_setPhase (h : t ∈ setPhase ts k phase) :
    t ∈ ts ∨ ∃ t₀, ts[k]? = some t₀ ∧ t = { t₀ with phase } :=
  Table.mem_modify h

theorem getElem?_setPhase {n : Nat} (k : Nat) (phase : TrimPhase) (h : ts[n]? = some t) :
    ∃ t', (setPhase ts k phase)[n]? = some t' ∧ t'.offset = t.offset := by
  rw [setPhase, getElem?_modify, h]
  split
  · exact ⟨_, rfl, rfl⟩
  · exact ⟨_, rfl, rfl⟩

/-- A watermark stays covered as long as the writer's own watermark does not fall below it. -/
theorem Covers.step (hc : w.Covers o seq) (hle : o ≤ w.trimOffset) (hi : w.toPipeline.Inv)
    (h : Effect w a w') : w'.Covers o seq := by
  rcases h.pipeline with heq | ⟨op, hop⟩
  · intro b hb
    rw [heq] at hb
    exact hc b hb
  · intro b hb hseq f hput
    rcases Pipeline.issued_origin hi (Pipeline.effect_of_step hop) hb hput with
      ⟨d, hd, hds, hdp⟩ | ⟨-, htrim⟩
    · exact hc d hd (hds ▸ hseq) f hdp
    · rw [htrim]
      exact hle

theorem trimOffset_le_step (h : Effect w a w') : w.trimOffset ≤ w'.trimOffset := by
  rcases h.pipeline with heq | ⟨op, hop⟩
  · rw [heq]
  · exact Pipeline.trimOffset_le (Pipeline.effect_of_step hop)

theorem flushed_subset_step (h : Effect w a w') : w.flushed ⊆ w'.flushed := by
  rcases h.pipeline with heq | ⟨op, hop⟩
  · rw [heq]
    exact List.Subset.refl _
  · exact Pipeline.flushed_subset (Pipeline.effect_of_step hop)

theorem TrimOk.step {t : TrimTask} (ht : w.TrimOk t) (hi : w.toPipeline.Inv)
    (h : Effect w a w') (hdone : w.completedTrim ≤ w'.completedTrim) : w'.TrimOk t where
  le := ht.le.trans (trimOffset_le_step h)
  nonneg := ht.nonneg
  covers := fun id hid => (ht.covers id hid).step ht.le hi h
  flushed := fun id hid => by
    obtain ⟨b, hb, hseq⟩ := ht.flushed id hid
    exact ⟨b, flushed_subset_step h hb, hseq⟩
  returned := fun hret => (ht.returned hret).trans hdone

theorem trimOffset_eq_of_pipeOnly (hop : PipeOnly op) (h : w.toPipeline.step op = some p) :
    p.trimOffset = w.trimOffset := by
  cases Pipeline.effect_of_step h with
  | begin | fence | storeTrim | place | putReturn => cases hop
  | sealActive => exact (Pipeline.Fills.sealActive w.toPipeline).trimOffset
  | _ => rfl

/-- A trim whose record has no place yet. -/
theorem TrimOk.unplaced {t : TrimTask} (hle : t.offset ≤ w.trimOffset)
    (hack : t.phase.ack? = none) (hstored : t.phase = .stored → 0 ≤ t.offset)
    (hjoined : t.phase = .joined → t.offset ≤ w.completedTrim) : w.TrimOk t := by
  have hphase : ∀ {phase id}, phase.ack? = some id → t.phase ≠ phase := by
    rintro phase id hid rfl
    cases hack.symm.trans hid
  refine ⟨hle, fun h => h.elim hstored fun h => ?_, fun id hid => ?_, fun id hid => ?_, ?_⟩
  · rw [hack] at h
    cases h
  · cases hack.symm.trans hid
  · exact absurd hid (not_or.mpr ⟨hphase rfl, hphase rfl⟩)
  · exact fun h => h.elim (fun ⟨_, hid⟩ => absurd hid (hphase rfl)) hjoined

namespace Trims

section Step

variable (h : Trims w) (hi : w.toPipeline.Inv) (hs : Effect w a w')

include h hi hs

theorem completed_step (heq : w'.completedTrim = w.completedTrim) :
    w'.completedTrim = trimOffsetNone ∨
      ∃ b ∈ w'.flushed, w'.Covers w'.completedTrim b.seq ∧ w'.completedTrim ≤ w'.trimOffset := by
  rw [heq]
  refine h.completed.imp_right ?_
  rintro ⟨b, hb, hcov, hle⟩
  exact ⟨b, flushed_subset_step hs hb, hcov.step hle hi hs, hle.trans (trimOffset_le_step hs)⟩

theorem headers_step :
    ∀ b ∈ w'.sealed, ∀ f, b.put = some f → f.trimOffset ≤ w'.trimOffset := by
  intro b hb f hput
  refine le_trans ?_ (trimOffset_le_step hs)
  rcases hs.pipeline with heq | ⟨op, hop⟩
  · exact h.headers b (heq ▸ hb) f hput
  · rcases Pipeline.issued_origin hi (Pipeline.effect_of_step hop) hb hput with
      ⟨d, hd, -, hdp⟩ | ⟨-, htrim⟩
    · exact h.headers d hd f hdp
    · exact htrim.le

theorem of_same (htrims : w'.trims = w.trims)
    (htrim : w'.trimOffset = w.trimOffset)
    (hdone : w'.completedTrim = w.completedTrim)
    (hadm : ∀ d ∈ w'.admitted, d ∈ w.admitted ∨ d.trim = none) : Trims w' := by
  refine ⟨fun t ht => (h.ok t (htrims ▸ ht)).step hi hs hdone.ge, ?_, ?_,
    h.completed_step hi hs hdone, h.headers_step hi hs⟩
  · rw [htrim, htrims]
    exact h.top
  · intro d hd k hk
    rw [htrims]
    rcases hadm d hd with hd | hnone
    · exact h.admitted d hd k hk
    · cases hnone.symm.trans hk

theorem of_append (htrims : w'.trims = w.trims ++ [t])
    (hok : w'.TrimOk t)
    (htop : w'.trimOffset = w.trimOffset ∨ w'.trimOffset = t.offset)
    (hdone : w'.completedTrim = w.completedTrim) (hadm : w'.admitted = w.admitted) : Trims w' := by
  refine ⟨fun u hu => ?_, ?_, fun d hd k hk => ?_, h.completed_step hi hs hdone,
    h.headers_step hi hs⟩
  · rw [htrims] at hu
    exact forall_mem_append.mpr ⟨fun u hu => (h.ok u hu).step hi hs hdone.ge,
      forall_mem_singleton.mpr hok⟩ u hu
  · rw [htrims]
    rcases htop with heq | heq
    · rw [heq]
      exact h.top.imp_right fun ⟨u, hu, hoff⟩ => ⟨u, mem_append_left _ hu, hoff⟩
    · exact .inr ⟨t, by simp, heq.symm⟩
  · obtain ⟨u, hu, hnn⟩ := h.admitted d (hadm ▸ hd) k hk
    obtain ⟨hlt, -⟩ := List.getElem?_eq_some_iff.mp hu
    exact ⟨u, by rw [htrims, getElem?_append_left hlt, hu], hnn⟩

theorem of_setPhase (hk : w.trims[k]? = some t₀)
    (htrims : w'.trims = setPhase w.trims k phase)
    (htrim : w'.trimOffset = w.trimOffset) (hdone : w.completedTrim ≤ w'.completedTrim)
    (hok : w'.TrimOk { t₀ with phase })
    (hadm : ∀ d ∈ w'.admitted, d ∈ w.admitted ∨ d.trim = some k ∧ 0 ≤ t₀.offset)
    (hcomp : w'.completedTrim = trimOffsetNone ∨ ∃ b ∈ w'.flushed,
      w'.Covers w'.completedTrim b.seq ∧ w'.completedTrim ≤ w'.trimOffset) : Trims w' := by
  have hkeep : ∀ {n : Nat} {t : TrimTask}, w.trims[n]? = some t →
      ∃ t', w'.trims[n]? = some t' ∧ t'.offset = t.offset := by
    intro n t ht
    rw [htrims]
    exact getElem?_setPhase k phase ht
  refine ⟨fun t ht => ?_, ?_, fun d hd n hn => ?_, hcomp, h.headers_step hi hs⟩
  · rw [htrims] at ht
    rcases mem_setPhase ht with ht | ⟨t₁, ht₁, rfl⟩
    · exact (h.ok t ht).step hi hs hdone
    · cases hk.symm.trans ht₁
      exact hok
  · rw [htrim]
    refine h.top.imp_right ?_
    rintro ⟨t, ht, heq⟩
    obtain ⟨n, hn⟩ := mem_iff_getElem?.mp ht
    obtain ⟨t', ht', hoff⟩ := hkeep hn
    exact ⟨t', mem_of_getElem? ht', hoff.trans heq⟩
  · have hmem : ∃ t, w.trims[n]? = some t ∧ 0 ≤ t.offset := by
      rcases hadm d hd with hd | ⟨hdk, hnn⟩
      · exact h.admitted d hd n hn
      · cases hdk.symm.trans hn
        exact ⟨t₀, hk, hnn⟩
    obtain ⟨t, ht, hnn⟩ := hmem
    obtain ⟨t', ht', hoff⟩ := hkeep ht
    exact ⟨t', ht', hoff ▸ hnn⟩

/-- **Every action keeps the trims in order.** -/
theorem step : Trims w' := by
  have hsame := h.of_same hi hs
  have hold : ∀ {k t₀}, w.trims[k]? = some t₀ → w.completedTrim ≤ w'.completedTrim →
      w'.TrimOk t₀ := fun hk hle => (h.ok _ (mem_of_getElem? hk)).step hi hs hle
  have hcomp := h.completed_step hi hs
  have hstep := hs
  cases hs with
  | skip => exact h
  | startHeld | startLost | startError | startNewer | started | resolve | close =>
    exact hsame rfl rfl rfl fun d hd => .inl hd
  | submit =>
    refine hsame rfl rfl rfl fun d hd => ?_
    rcases mem_append.mp hd with hd | hd
    · exact .inl hd
    · obtain rfl := mem_singleton.mp hd
      exact .inr rfl
  | pipe hop hp =>
    exact hsame rfl (trimOffset_eq_of_pipeOnly hop hp) rfl fun d hd => .inl hd
  | putReturn hb hp =>
    cases Pipeline.effect_of_step hp
    exact hsame rfl rfl rfl fun d hd => .inl hd
  | @place n d p hd hp =>
    have hadm : ∀ e ∈ w.admitted.eraseIdx n, e ∈ w.admitted := fun e he => mem_of_mem_eraseIdx he
    cases Pipeline.effect_of_step hp with
    | place hr hfit hroom =>
      have hfills := Pipeline.Fills.place w.toPipeline d.record
      cases hk : d.trim with
      | none =>
        simp only [hk] at hsame ⊢
        exact hsame trivial hfills.trimOffset trivial fun e he => .inl (hadm e he)
      | some k =>
        obtain ⟨t₀, ht₀, hnn⟩ := h.admitted d (mem_of_getElem? hd) k hk
        have ht := hold ht₀ (le_refl _)
        simp only [hk] at hcomp hstep ⊢
        refine h.of_setPhase hi hstep ht₀ rfl hfills.trimOffset (le_refl _) ?_
          (fun e he => .inl (hadm e he)) (hcomp trivial)
        -- The bulk that takes the trim record has not been issued yet.
        refine ⟨ht.le, fun _ => hnn, fun id hid => ?_, fun id hid => ?_, fun hret => ?_⟩
        · cases hid
          intro b hb hseq f hput
          cases (Pipeline.put_eq_none_of_place hi hfit hroom hb hseq).symm.trans hput
        · rcases hid with hid | hid <;> cases hid
        · rcases hret with ⟨id, hid⟩ | hid <;> cases hid
  | @trimWait a offset hopen hle =>
    exact h.of_append hi hstep rfl (.unplaced hle rfl nofun nofun) (.inl rfl) rfl rfl
  | @trimStore a offset =>
    refine h.of_append hi hstep rfl (.unplaced (le_refl _) rfl (fun _ => ?_) nofun) (.inr rfl)
      rfl rfl
    have hge := hi.layout.trim_ge
    change 0 ≤ offset
    omega
  | @trimSubmit k offset hk =>
    have ht := hold hk (le_refl _)
    have hnn := ht.nonneg (.inl rfl)
    refine h.of_setPhase hi hstep hk rfl rfl (le_refl _)
      (.unplaced ht.le rfl (fun _ => hnn) nofun) (fun d hd => ?_) (hcomp rfl)
    rcases mem_append.mp hd with hd | hd
    · exact .inl hd
    · obtain rfl := mem_singleton.mp hd
      exact .inr ⟨rfl, hnn⟩
  | trimFail hk =>
    exact h.of_setPhase hi hstep hk rfl rfl (le_refl _)
      (.unplaced (hold hk (le_refl _)).le rfl nofun nofun) (fun d hd => .inl hd) (hcomp rfl)
  | @trimProceed k ack res offset id hk hack hid hok =>
    have ht := hold hk (le_refl _)
    refine h.of_setPhase hi hstep hk rfl rfl (le_refl _) ⟨ht.le, fun _ => ht.nonneg (.inr rfl),
      fun id' hid' => ?_, fun id' hid' => ?_, fun hret => ?_⟩ (fun d hd => .inl hd) (hcomp rfl)
    · exact ht.covers id' hid'
    · obtain rfl : id = id' := by
        rcases hid' with hid' | hid' <;> cases hid'
        rfl
      -- The acknowledgement of the trim record comes from a flushed bulk.
      obtain ⟨b, hb, hab⟩ := hi.flush.exists_of_ok hack hok
      obtain ⟨r, hr, hrid, -⟩ := Pipeline.mem_bulkAcks hab
      refine ⟨b, hb, ?_⟩
      have hseq := ((hi.layout.ok b (Pipeline.mem_sealed_of_mem_flushed hb)).record r hr).ack
      rw [← hseq, ← hrid, hid]
    · rcases hret with ⟨id', hid'⟩ | hid' <;> cases hid'
  | @trimFinish k offset id hk =>
    have hle : w.completedTrim ≤ max w.completedTrim offset := le_max_left _ _
    have ht := hold hk hle
    obtain ⟨b, hb, hseq⟩ := ht.flushed id (.inl rfl)
    have hcov := ht.covers id rfl
    refine h.of_setPhase hi hstep hk rfl rfl hle ⟨ht.le, fun _ => ht.nonneg (.inr rfl),
      fun id' hid' => ht.covers id' hid', fun id' hid' => ?_, fun _ => le_max_right _ _⟩
      (fun d hd => .inl hd) ?_
    · refine ht.flushed id' (.inl ?_)
      rcases hid' with hid' | hid' <;> cases hid'
      rfl
    · rcases max_choice w.completedTrim offset with hmax | hmax
      · simp only [hmax]
        exact h.completed
      · simp only [hmax]
        exact .inr ⟨b, hb, hseq ▸ hcov, ht.le⟩
  | trimJoin hk hle =>
    exact h.of_setPhase hi hstep hk rfl rfl (le_refl _)
      (.unplaced (hold hk (le_refl _)).le rfl nofun fun _ => hle) (fun d hd => .inl hd) (hcomp rfl)

end Step

theorem new (c : WalConfig) : Trims (Writer.new c) := ⟨nofun, .inl rfl, nofun, .inl rfl, nofun⟩

end Trims

/-! ## Deleted objects -/

/-- A trim that is carried by every object from a flushed bulk on covers the records of `b`, and
a newer object is kept. -/
def Trimmed (w : Writer) (b : UploadingBulk) : Prop :=
  (∃ o : Int, b.lastRecordOffset ≤ o ∧ o ≤ w.trimOffset ∧ ∃ q ∈ w.flushed, w.Covers o q.seq) ∧
    ∃ e ∈ w.lastRecordOffsetToObject, b.lastRecordOffset < e.1

/-- The object of an uploaded bulk of this writer. -/
def Uploaded (w : Writer) (b : UploadingBulk) (o : WalObject) : Prop :=
  b ∈ w.sealed ∧ b.done = some true ∧ ∃ f, b.put = some f ∧ o = f.toWalObject w.config.root

/-- The object of a file. -/
def OfFile (root : Key) (o : WalObject) : Prop := ∃ f : WalFile, f.Valid ∧ o = f.toWalObject root

/-- An object, one of the objects `P`, that stands before everything this writer puts. -/
def Foreign (P : WalObject → Prop) (w : Writer) (o : WalObject) : Prop :=
  P o ∧ (Idle w ∨ o.epoch < w.config.epoch ∨
    o.epoch = w.config.epoch ∧ o.startOffset < w.startOffset)

/-- A listing of objects `P`, of which `start` keeps the newest one. -/
def WellListed (P : WalObject → Prop) (listed : List ObjectInfo) : Prop :=
  ∀ o ∈ parseWalObjects listed, P o ∧
    ∃ l, (skipOverlapObjects (parseWalObjects listed)).getLast? = some l ∧
      (o.epoch < l.epoch ∨ o.epoch = l.epoch ∧ o.startOffset < l.endOffset)

variable {P : WalObject → Prop}

structure Objects (P : WalObject → Prop) (w : Writer) : Prop where
  entry : ∀ e ∈ w.lastRecordOffsetToObject, ∃ b, w.Uploaded b e.2 ∧ e.1 = b.lastRecordOffset
  kept : ∀ b o, w.Uploaded b o →
    (b.lastRecordOffset, o) ∈ w.lastRecordOffsetToObject ∨ w.Trimmed b
  deletes : ∀ d ∈ w.deletes, (∃ b, w.Uploaded b d ∧ w.Trimmed b) ∨ w.Foreign P d
  previous : ∀ o ∈ w.previousObjects, w.Foreign P o

theorem Trimmed.step (hb : w.Trimmed b) (hi : w.toPipeline.Inv) (h : Effect w a w')
    (hmap : ∀ e ∈ w.lastRecordOffsetToObject, ∃ d ∈ w'.lastRecordOffsetToObject, e.1 ≤ d.1) :
    w'.Trimmed b := by
  obtain ⟨⟨o, hlast, hle, q, hq, hcov⟩, e, he, hlt⟩ := hb
  obtain ⟨d, hd, hed⟩ := hmap e he
  exact ⟨⟨o, hlast, hle.trans (trimOffset_le_step h), q, flushed_subset_step h hq,
    hcov.step hle hi h⟩, d, hd, hlt.trans_le hed⟩

theorem Uploaded.step (hb : w.Uploaded b o) (hi : w.toPipeline.Inv) (h : w.step a = some w') :
    w'.Uploaded b o := by
  obtain ⟨hmem, hdone, f, hput, rfl⟩ := hb
  refine ⟨?_, hdone, f, hput, by rw [config_step h]⟩
  rcases (effect_of_step h).pipeline with heq | ⟨op, hop⟩
  · rw [heq]
    exact hmem
  · exact Pipeline.mem_sealed_of_done hi (Pipeline.effect_of_step hop) hmem (by simp [hdone])

/-- An uploaded bulk was uploaded before, or the operation is the return of its PUT. -/
theorem Uploaded.origin (hb : w'.Uploaded b o) (hi : w.toPipeline.Inv) (hc : w'.config = w.config)
    (hop : w.toPipeline.step op = some w'.toPipeline) : w.Uploaded b o ∨
      ∃ d, w.inFlight? b.seq = some d ∧ op = .putReturn b.seq true ∧
        b = { d with done := some true } := by
  obtain ⟨hmem, hdone, f, hput, rfl⟩ := hb
  rcases Pipeline.done_origin hi (Pipeline.effect_of_step hop) hmem hdone with hold | hret
  · exact .inl ⟨hold, hdone, f, hput, by rw [hc]⟩
  · exact .inr hret

/-- Only `start` places the writer: behind the last object of the listing. -/
theorem startOffset_step (h : Effect w a w') : w'.startOffset = w.startOffset ∨
    ∃ listed, w.start = .verified ∧ a = .startList listed ∧ w'.startOffset = listedEnd listed := by
  cases h with
  | @started listed offset hstart hepoch hoffset => exact .inr ⟨listed, hstart, rfl, hoffset⟩
  | place hd hp =>
    cases Pipeline.effect_of_step hp
    exact .inl (Pipeline.Fills.place w.toPipeline _).startOffset
  | pipe hop hp =>
    cases Pipeline.effect_of_step hp with
    | begin | fence | storeTrim | place | putReturn => cases hop
    | sealActive => exact .inl (Pipeline.Fills.sealActive w.toPipeline).startOffset
    | _ => exact .inl rfl
  | putReturn hb hp =>
    cases Pipeline.effect_of_step hp
    exact .inl rfl
  | _ => exact .inl rfl

theorem Foreign.step (ho : w.Foreign P o) (hi : w.toPipeline.Inv) (h : w.step a = some w')
    (hstart : w'.startOffset = w.startOffset) : w'.Foreign P o := by
  obtain ⟨hfile, hbelow⟩ := ho
  rw [Foreign, config_step h, hstart]
  exact ⟨hfile, hbelow.imp_left fun hidle => hidle.step hi h⟩

/-- The objects a trim deletes: covered by it, and below the newest one, which stays. -/
theorem mem_coveredObjects (h : e ∈ w.coveredObjects offset) :
    e ∈ w.lastRecordOffsetToObject ∧ e.1 ≤ offset.toNat ∧
      ∃ l ∈ w.lastRecordOffsetToObject, e.1 < l.1 ∧ l ∉ w.coveredObjects offset := by
  unfold coveredObjects at h ⊢
  cases hlast : w.lastRecordOffsetToObject.last? with
  | none =>
    simp only [hlast] at h
    exact absurd h (OrdMap.not_mem_empty e)
  | some l =>
    simp only [hlast] at h ⊢
    obtain ⟨hmem, hcond⟩ := OrdMap.mem_filter.mp h
    obtain ⟨hle, hne⟩ := of_decide_eq_true hcond
    refine ⟨hmem, hle, l, OrdMap.mem_of_last? hlast, ?_, fun hl => ?_⟩
    · exact lt_of_le_of_ne (OrdMap.le_of_last? hlast hmem) hne
    · exact (of_decide_eq_true (OrdMap.mem_filter.mp hl).2).2 rfl

theorem exists_kept_ge (offset : Int) (he : e ∈ w.lastRecordOffsetToObject) :
    ∃ l ∈ w.lastRecordOffsetToObject, e.1 ≤ l.1 ∧ l ∉ w.coveredObjects offset := by
  by_cases hcov : e ∈ w.coveredObjects offset
  · obtain ⟨-, -, l, hl, hlt, hnot⟩ := mem_coveredObjects hcov
    exact ⟨l, hl, hlt.le, hnot⟩
  · exact ⟨e, he, le_refl _, hcov⟩

namespace Objects

section Step

variable (h : Objects P w) (hi : w.toPipeline.Inv) (hs : w.step a = some w')

include h hi hs

theorem entry_step (he : e ∈ w.lastRecordOffsetToObject) :
    ∃ b, w'.Uploaded b e.2 ∧ e.1 = b.lastRecordOffset :=
  (h.entry e he).imp fun _ hb => ⟨hb.1.step hi hs, hb.2⟩

theorem deletes_step (htrim : ∀ {b}, w.Trimmed b → w'.Trimmed b)
    (hstart : w'.startOffset = w.startOffset) (hd : d ∈ w.deletes) :
    (∃ b, w'.Uploaded b d ∧ w'.Trimmed b) ∨ w'.Foreign P d :=
  (h.deletes d hd).imp (fun ⟨b, hb, ht⟩ => ⟨b, hb.step hi hs, htrim ht⟩) (·.step hi hs hstart)

theorem of_same (hmap : w'.lastRecordOffsetToObject = w.lastRecordOffsetToObject)
    (hdel : w'.deletes = w.deletes) (hprev : w'.previousObjects = w.previousObjects)
    (hstart : w'.startOffset = w.startOffset)
    (hup : ∀ b o, w'.Uploaded b o → w.Uploaded b o) : Objects P w' := by
  have htrim : ∀ {b}, w.Trimmed b → w'.Trimmed b := fun hb =>
    hb.step hi (effect_of_step hs) fun e he => ⟨e, hmap ▸ he, le_refl _⟩
  refine ⟨fun e he => h.entry_step hi hs (hmap ▸ he), fun b o hb => ?_,
    fun d hd => h.deletes_step hi hs htrim hstart (hdel ▸ hd), fun o ho => ?_⟩
  · rw [hmap]
    exact (h.kept b o (hup b o hb)).imp_right htrim
  · exact (h.previous o (hprev ▸ ho)).step hi hs hstart

theorem putReturn (hb : w.inFlight? seq = some b)
    (hp : w.toPipeline.step (.putReturn seq ok) = some w'.toPipeline)
    (hmap : w'.lastRecordOffsetToObject = w.uploadedObjects b ok) (hdel : w'.deletes = w.deletes)
    (hprev : w'.previousObjects = w.previousObjects) (hstart : w'.startOffset = w.startOffset) :
    Objects P w' := by
  have hbmem : b ∈ w.sealed := mem_sealed_of_mem_uploading (mem_of_find?_eq_some hb)
  have hcond := find?_some hb
  simp only [decide_eq_true_eq, Option.isSome_iff_exists] at hcond
  obtain ⟨rfl, ⟨f, hput⟩, hnone⟩ := hcond
  have hmem := fun {d} => mem_sealed_putReturn hi hb hp (d := d)
  have horigin : ∀ d o, w'.Uploaded d o → w.Uploaded d o ∨
      ok = true ∧ d = { b with done := some true } ∧ o = f.toWalObject w.config.root := by
    rintro d o ⟨hd, hdone, g, hg, rfl⟩
    rw [config_step hs]
    rcases hmem.mp hd with rfl | ⟨hd, -⟩
    · cases hput.symm.trans hg
      cases hdone
      exact .inr ⟨rfl, rfl, rfl⟩
    · exact .inl ⟨hd, hdone, g, hg, rfl⟩
  cases ok with
  | false =>
    refine h.of_same hi hs (by simp [hmap, uploadedObjects]) hdel hprev hstart fun d o hd => ?_
    exact (horigin d o hd).resolve_right fun hret => by cases hret.1
  | true =>
    have hnew : w'.lastRecordOffsetToObject = w.lastRecordOffsetToObject.insert b.lastRecordOffset
        (f.toWalObject w.config.root) := by
      simp only [hmap, uploadedObjects, hput]
    -- No remembered object shares the key: its bulk has another window.
    have hkeep : ∀ e ∈ w.lastRecordOffsetToObject, e ∈ w'.lastRecordOffsetToObject := by
      intro e he
      obtain ⟨d, ⟨hd, hdone, g, hg, -⟩, hkey⟩ := h.entry e he
      rw [hnew]
      refine mem_insert_of_ne he ?_
      rw [hkey]
      rcases lt_trichotomy d.seq b.seq with hlt | heq | hlt
      · exact (hi.lastRecordOffset_lt hd hbmem hg hput hlt).ne
      · have hdb := hi.layout.eq_of_seq_eq hd hbmem heq
        rw [hdb, hnone] at hdone
        cases hdone
      · exact (hi.lastRecordOffset_lt hbmem hd hput hg hlt).ne'
    have htrim : ∀ {d}, w.Trimmed d → w'.Trimmed d := fun hd =>
      hd.step hi (effect_of_step hs) fun e he => ⟨e, hkeep e he, le_refl _⟩
    have hself : w'.Uploaded { b with done := some true } (f.toWalObject w.config.root) :=
      ⟨hmem.mpr (.inl rfl), rfl, f, hput, by rw [config_step hs]⟩
    refine ⟨fun e he => ?_, fun d o hd => ?_,
      fun d hd => h.deletes_step hi hs htrim hstart (hdel ▸ hd), fun o ho => ?_⟩
    · rw [hnew] at he
      rcases eq_or_mem_of_mem_insert he with rfl | he
      · exact ⟨_, hself, rfl⟩
      · exact h.entry_step hi hs he
    · rcases horigin d o hd with hd | ⟨-, rfl, rfl⟩
      · exact (h.kept d o hd).imp (hkeep _) htrim
      · rw [hnew]
        exact .inl mem_insert_self
    · exact (h.previous o (hprev ▸ ho)).step hi hs hstart

theorem trimProceed (ht : Trims w) {k : Nat} {id : AckId} {ack : Ack}
    (hk : w.trims[k]? = some ⟨offset, .placed id⟩) (hack : ack ∈ w.acks)
    (hid : ack.id = id) (hok : ack.result = .ok res)
    (hpipe : w'.toPipeline = w.toPipeline) (hmap : w'.lastRecordOffsetToObject =
      w.lastRecordOffsetToObject.filter fun e => e ∉ (w.coveredObjects offset).entries)
    (hprev : w'.previousObjects = w.previousObjects.drop (w.coveredPrevious offset).length)
    (hdel : w'.deletes =
      w.deletes ++ ((w.coveredObjects offset).values ++ w.coveredPrevious offset)) :
    Objects P w' := by
  have hto := ht.ok _ (mem_of_getElem? hk)
  have hnn : 0 ≤ offset := hto.nonneg (.inr rfl)
  have hkept : ∀ {e}, e ∈ w.lastRecordOffsetToObject → e ∉ w.coveredObjects offset →
      e ∈ w'.lastRecordOffsetToObject := by
    intro e he hnot
    rw [hmap]
    exact OrdMap.mem_filter.mpr ⟨he, decide_eq_true hnot⟩
  have htrim : ∀ {b}, w.Trimmed b → w'.Trimmed b := by
    intro b hb
    refine hb.step hi (effect_of_step hs) fun e he => ?_
    obtain ⟨l, hl, hle, hnot⟩ := exists_kept_ge offset he
    exact ⟨l, hkept hl hnot, hle⟩
  -- The trim record was acknowledged, so its bulk is flushed and every later object carries
  -- the watermark.
  obtain ⟨q, hq, hqa⟩ := hi.flush.exists_of_ok hack hok
  obtain ⟨r, hr, hrid, -⟩ := mem_bulkAcks hqa
  have hqseq : id.1 = q.seq := by
    rw [← ((hi.layout.ok q (mem_sealed_of_mem_flushed hq)).record r hr).ack, ← hrid, hid]
  have hcov : w.Covers offset q.seq := hqseq ▸ hto.covers id rfl
  have hcovered : ∀ {e b}, e ∈ w.coveredObjects offset → e.1 = b.lastRecordOffset →
      w'.Trimmed b := by
    intro e b he hkey
    obtain ⟨-, hle, l, hl, hlt, hnot⟩ := mem_coveredObjects he
    have heff := effect_of_step hs
    refine ⟨⟨offset, by omega, hto.le.trans (trimOffset_le_step heff), q,
      flushed_subset_step heff hq, hcov.step hto.le hi heff⟩, l, hkept hl hnot, hkey ▸ hlt⟩
  have hback : ∀ b o, w'.Uploaded b o → w.Uploaded b o := by
    intro b o hb
    unfold Uploaded at hb ⊢
    rw [hpipe] at hb
    exact hb
  have hstart : w'.startOffset = w.startOffset := by rw [hpipe]
  refine ⟨fun e he => ?_, fun b o hb => ?_, fun d hd => ?_, fun o ho => ?_⟩
  · rw [hmap] at he
    exact h.entry_step hi hs (OrdMap.mem_filter.mp he).1
  · rcases h.kept b o (hback b o hb) with he | hb
    · by_cases hc : (b.lastRecordOffset, o) ∈ w.coveredObjects offset
      · exact .inr (hcovered hc rfl)
      · exact .inl (hkept he hc)
    · exact .inr (htrim hb)
  · rw [hdel] at hd
    rcases mem_append.mp hd with hd | hd
    · exact h.deletes_step hi hs htrim hstart hd
    · rcases mem_append.mp hd with hd | hd
      · obtain ⟨e, he, rfl⟩ := mem_map.mp hd
        obtain ⟨b, hb, hkey⟩ := h.entry_step hi hs (mem_coveredObjects he).1
        exact .inl ⟨b, hb, hcovered he hkey⟩
      · have hmem : d ∈ w.previousObjects := mem_of_mem_take ((List.takeWhile_prefix _).subset hd)
        exact .inr ((h.previous d hmem).step hi hs hstart)
  · rw [hprev] at ho
    exact (h.previous o (mem_of_mem_drop ho)).step hi hs hstart

omit h in
/-- An action whose pipeline operation is not the return of a PUT uploads nothing. -/
theorem uploaded_of_step (hop : w'.sealed = w.sealed ∨
      ∃ op, w.toPipeline.step op = some w'.toPipeline ∧ ∀ seq, op ≠ .putReturn seq true)
    (b : UploadingBulk) (o : WalObject) (hb : w'.Uploaded b o) : w.Uploaded b o := by
  rcases hop with heq | ⟨op, hstep, hne⟩
  · obtain ⟨hmem, hdone, f, hput, rfl⟩ := hb
    exact ⟨heq ▸ hmem, hdone, f, hput, by rw [config_step hs]⟩
  · rcases hb.origin hi (config_step hs) hstep with hb | ⟨d, -, hret, -⟩
    · exact hb
    · exact absurd hret (hne _)

/-- **Every action deletes only trimmed objects and keeps the newest one.** -/
theorem step (ht : Trims w) (hu : w.start ≠ .returned → Untouched w)
    (hlisted : ∀ listed, a = .startList listed → WellListed P listed) : Objects P w' := by
  have hsame := h.of_same hi hs
  have hup := uploaded_of_step hi hs
  have hstart := startOffset_step (effect_of_step hs)
  -- Before the start nothing is uploaded and nothing is deleted.
  have hfresh : w.start = .verified → Untouched w := fun hv => hu (by simp [hv])
  cases effect_of_step hs with
  | skip => exact h
  | startHeld | startLost | startError | resolve | close | submit | trimWait | trimStore
  | trimSubmit | trimFail | trimFinish | trimJoin =>
    exact hsame rfl rfl rfl rfl (hup (.inl rfl))
  | @startNewer listed o hv =>
    have hun := hfresh hv
    have hidle : Idle { w with
        start := .returned
        deletes := w.deletes ++ overlapObjects (parseWalObjects listed)
        fenced := true } := by
      refine ⟨rfl, hun.closed, hun.admitted, hun.trims, ?_, ?_⟩
      · exact (congrArg Pipeline.sealed hun.pipeline).trans rfl
      · exact (congrArg Pipeline.active hun.pipeline).trans rfl
    refine ⟨fun e he => ?_, fun b o hb => ?_, fun d hd => .inr ⟨?_, .inl hidle⟩, fun o ho => ?_⟩
    · exact absurd (hun.objects ▸ he) (not_mem_empty e)
    · have hnil := hidle.sealed ▸ hb.1
      cases hnil
    · simp only [hun.deletes, nil_append] at hd
      exact (hlisted listed rfl d (overlapObjects_subset _ hd)).1
    · simp only [hun.previousObjects] at ho
      cases ho
  | @started listed offset hv hepoch hoffset =>
    have hun := hfresh hv
    have hbelow : ∀ o ∈ parseWalObjects listed,
        P o ∧
          (o.epoch < w.config.epoch ∨ o.epoch = w.config.epoch ∧ o.startOffset < offset) := by
      intro o ho
      obtain ⟨hfile, l, hl, hle⟩ := hlisted listed rfl o ho
      refine ⟨hfile, ?_⟩
      have hle' := hepoch l hl
      rw [hoffset, listedEnd, hl]
      simp only [Option.map_some, Option.getD_some]
      omega
    have hnil : w.sealed = [] := (congrArg Pipeline.sealed hun.pipeline).trans rfl
    refine ⟨fun e he => ?_, fun b o hb => ?_, fun d hd => .inr ?_, fun o ho => ?_⟩
    · exact absurd (hun.objects ▸ he) (not_mem_empty e)
    · have hmem : b ∈ w.sealed := hb.1
      rw [hnil] at hmem
      cases hmem
    · simp only [hun.deletes, nil_append] at hd
      exact (hbelow d (overlapObjects_subset _ hd)).imp_right .inr
    · simp only [hun.previousObjects, nil_append] at ho
      exact (hbelow o ((skipOverlapObjects_sublist _).subset ho)).imp_right .inr
  | place hd hp =>
    refine hsame rfl rfl rfl (hstart.resolve_right ?_) (hup (.inr ⟨_, hp, by simp⟩))
    rintro ⟨listed, -, ha, -⟩
    cases ha
  | pipe hop hp =>
    refine hsame rfl rfl rfl ?_ (hup (.inr ⟨_, hp, fun seq heq => by subst heq; cases hop⟩))
    rcases hstart with heq | ⟨listed, hv, -⟩
    · exact heq
    · rw [(hfresh hv).pipeline] at hp ⊢
      rw [step_new_of_pipeOnly hop hp]
  | putReturn hb hp =>
    refine h.putReturn hi hs hb hp rfl rfl rfl ?_
    cases Pipeline.effect_of_step hp
    rfl
  | trimProceed hk hack hid hok => exact h.trimProceed hi hs ht hk hack hid hok rfl rfl rfl rfl

end Step

theorem new (c : WalConfig) : Objects P (Writer.new c) :=
  ⟨fun e he => absurd he (not_mem_empty e), fun b o hb => (by cases hb.1),
    nofun, nofun⟩

/-- A delete that would remove an object of the writer's own is the delete of a trimmed one: the
other objects it deletes lie below its windows. -/
theorem trimmed_of_delete (h : Objects P w) (hi : w.toPipeline.Inv)
    (hP : ∀ o, P o → parseWalObject ⟨o.key, o.size⟩ = some o)
    (hroot : w.config.root = dir ++ ['/']) (hb : b ∈ w.sealed) (hput : b.put = some f)
    (ho : o ∈ w.deletes) (hkey : o.key = f.key (dir ++ ['/'])) :
    o = f.toWalObject (dir ++ ['/']) ∧ w.Trimmed b := by
  rcases h.deletes o ho with ⟨d, ⟨hd, -, g, hg, rfl⟩, htrim⟩ | ⟨hpo, hplace⟩
  · rw [hroot] at hkey ⊢
    obtain rfl := hi.eq_of_key_eq hd hb hg hput hkey
    cases hput.symm.trans hg
    exact ⟨rfl, htrim⟩
  · have hv := hi.valid hb hput
    have hlt := hv.start_lt_end
    have hend := hv.endOffset_lt
    have hs : f.startOffset < 2 ^ 64 := by omega
    have ht : f.endOffset < 2 ^ 64 := by omega
    have heq := hP o hpo
    rw [hkey, WalFile.key, parseWalObject_gen dir hv.epoch_lt hs ht] at heq
    obtain ⟨hbase, -, hown⟩ := (hi.layout.ok b hb).window hput
    have hlo := (Windows.Tiles.bounds hi.layout.tiles hb).1
    have hepoch := congrArg WalObject.epoch (Option.some.inj heq)
    have hstart := congrArg WalObject.startOffset (Option.some.inj heq)
    simp only at hepoch hstart
    exfalso
    rcases hplace with hidle | hplace | ⟨-, hplace⟩
    · rw [hidle.sealed] at hb
      cases hb
    · omega
    · omega

end Objects

theorem deletes_subset_step (h : w.step a = some w') : w.deletes ⊆ w'.deletes := by
  cases effect_of_step h with
  | startNewer | started | trimProceed => exact subset_append_left _ _
  | _ => exact List.Subset.refl _

theorem landed_origin (h : w.step a = some w') (hq : q ∈ w'.puts) (hland : q.landed = true) :
    q ∈ w.puts ∨ a = .putLand q.seq ∧ ∃ q₀ ∈ w.puts, q₀.seq = q.seq ∧ q₀.file = q.file := by
  have hof : ∀ {op p}, w.toPipeline.step op = some p → q ∈ p.puts →
      q ∈ w.puts ∨ op = .putLand q.seq ∧ ∃ q₀ ∈ w.puts, q₀.seq = q.seq ∧ q₀.file = q.file := by
    intro op p hop hq
    cases Pipeline.effect_of_step hop with
    | place => exact .inl ((Pipeline.Fills.place w.toPipeline _).puts ▸ hq)
    | sealActive => exact .inl ((Pipeline.Fills.sealActive w.toPipeline).puts ▸ hq)
    | uploadStart =>
      rcases mem_append.mp hq with hq | hq
      · exact .inl hq
      · obtain rfl := mem_singleton.mp hq
        cases hland
    | putLand =>
      obtain ⟨q₀, hq₀, rfl⟩ := mem_map.mp hq
      split at hland
      next hs => exact .inr ⟨by simp [hs], q₀, hq₀, by simp [hs], by simp [hs]⟩
      next hs => exact .inl (by simpa [hs] using hq₀)
    | _ => exact .inl hq
  cases effect_of_step h with
  | place hd hp => exact (hof hp hq).imp_right fun hop => by cases hop.1
  | putReturn hb hp => exact (hof hp hq).imp_right fun hop => by cases hop.1
  | pipe hop hp hl => exact (hof hp hq).imp_right fun hop => ⟨hl _ hop.1, hop.2⟩
  | _ => exact .inl hq

end Writer

end S3Stream
