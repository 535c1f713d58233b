import S3Stream.Wal.Pipeline

/-! # Invariants of the upload pipeline

Sealed bulks tile the writer's part of the WAL in sequence order, every issued PUT carries the
valid object of its bulk, and the callback loop flushes a prefix of the bulks. -/

namespace S3Stream

open List

variable {c : WalConfig} {t : Int}

/-! ## One bulk -/

/-- A record as `submit` places it into bulk `seq`. -/
structure PendingRecord.Ok (seq : Nat) (r : PendingRecord) : Prop where
  inRange : r.record.InRange
  size : r.size = framedSize r.record
  ack : r.ack.1 = seq

structure Bulk.Ok (b : Bulk) : Prop where
  record : ∀ r ∈ b.records, r.Ok b.seq
  size : b.size = (b.records.map PendingRecord.size).sum
  size_le : b.size ≤ dataFileAlignSize

structure UploadingBulk.Ok (c : WalConfig) (b : UploadingBulk) : Prop where
  ne_nil : b.records ≠ []
  record : ∀ r ∈ b.records, r.Ok b.seq
  stop : b.endOffsetAligned =
    ceilAlignOffset (b.baseOffset + (b.records.map PendingRecord.size).sum)
  size_le : (b.records.map PendingRecord.size).sum ≤ dataFileAlignSize
  unissued : b.put = none → b.done = none
  issued : ∀ f, b.put = some f → f = c.buildFile f.trimOffset b.baseOffset b.records ∧
    f.entries = layoutEntries b.baseOffset (b.records.map PendingRecord.record) ∧
    -1 ≤ f.trimOffset ∧ f.trimOffset < 2 ^ 63

theorem Bulk.Ok.push {b : Bulk} (hb : b.Ok) {record : StreamRecordBatch} (hr : record.InRange)
    (hroom : framedSize record + b.size ≤ dataFileAlignSize) : (b.push record).Ok where
  record := forall_mem_append.mpr ⟨hb.record, forall_mem_singleton.mpr ⟨hr, rfl, rfl⟩⟩
  size := by simp [Bulk.push, hb.size]
  size_le := by simp only [Bulk.push]; omega

theorem Bulk.Ok.toUploading {b : Bulk} (hb : b.Ok) (hne : b.records ≠ []) :
    b.toUploading.Ok c where
  ne_nil := hne
  record := hb.record
  stop := by simp [Bulk.toUploading, hb.size]
  size_le := hb.size ▸ hb.size_le
  unissued := fun _ => rfl
  issued := nofun

section assignOffsets

variable {base : Nat} {rs : List PendingRecord}

theorem exists_mem_of_mem_assignOffsets (h : r ∈ assignOffsets base rs) :
    ∃ q ∈ rs, r.record = q.record ∧ r.size = q.size ∧ r.ack = q.ack := by
  induction rs generalizing base with
  | nil => cases h
  | cons q rs ih =>
    rcases mem_cons.mp h with rfl | h
    · exact ⟨q, mem_cons_self, rfl, rfl, rfl⟩
    · obtain ⟨q', hq', heq⟩ := ih h
      exact ⟨q', mem_cons_of_mem q hq', heq⟩

@[simp] theorem map_size_assignOffsets :
    (assignOffsets base rs).map PendingRecord.size = rs.map PendingRecord.size := by
  induction rs generalizing base with
  | nil => rfl
  | cons r rs ih => simp [assignOffsets, ih]

@[simp] theorem map_record_assignOffsets :
    (assignOffsets base rs).map PendingRecord.record = rs.map PendingRecord.record := by
  induction rs generalizing base with
  | nil => rfl
  | cons r rs ih => simp [assignOffsets, ih]

theorem map_entry_assignOffsets (h : ∀ r ∈ rs, r.size = framedSize r.record) :
    (assignOffsets base rs).map PendingRecord.entry =
      layoutEntries base (rs.map PendingRecord.record) := by
  induction rs generalizing base with
  | nil => rfl
  | cons r rs ih =>
    have hr := h r mem_cons_self
    simp only [assignOffsets, map_cons, layoutEntries, PendingRecord.entry, ← hr]
    rw [← ih fun q hq => h q (mem_cons_of_mem r hq)]

theorem assignOffsets_ne_nil (h : rs ≠ []) : assignOffsets base rs ≠ [] := by
  cases rs with
  | nil => exact absurd rfl h
  | cons => simp [assignOffsets]

end assignOffsets

namespace UploadingBulk.Ok

variable {b : UploadingBulk} {f : WalFile}

theorem issue (hb : b.Ok c) (hdone : b.done = none) (hlo : -1 ≤ t) (hhi : t < 2 ^ 63) :
    (b.issue c t).Ok c := by
  have hperm := perm_insertionSort RecordLe b.records
  have hsum : ((b.issue c t).records.map PendingRecord.size).sum =
      (b.records.map PendingRecord.size).sum := by
    simpa [UploadingBulk.issue] using (hperm.map _).sum_eq
  constructor
  · refine assignOffsets_ne_nil fun hnil => hb.ne_nil ?_
    simpa [hnil] using hperm
  · intro r hr
    obtain ⟨q, hq, hrec, hsize, hack⟩ := exists_mem_of_mem_assignOffsets hr
    have hq' := hb.record q (hperm.mem_iff.mp hq)
    exact ⟨hrec ▸ hq'.inRange, by rw [hsize, hrec, hq'.size], hack ▸ hq'.ack⟩
  · rw [hsum]
    exact hb.stop
  · rw [hsum]
    exact hb.size_le
  · intro _
    exact hdone
  · intro f hf
    obtain rfl : c.buildFile t b.baseOffset (b.issue c t).records = f := by
      simpa [UploadingBulk.issue] using hf
    refine ⟨rfl, ?_, hlo, hhi⟩
    simp only [WalConfig.buildFile, UploadingBulk.issue, map_record_assignOffsets]
    exact map_entry_assignOffsets fun r hr => (hb.record r (hperm.mem_iff.mp hr)).size

theorem returned (hb : b.Ok c) (hput : b.put.isSome) (ok : Bool) :
    { b with done := some ok }.Ok c :=
  ⟨hb.ne_nil, hb.record, hb.stop, hb.size_le,
    fun hnone => absurd hput (by simp [show b.put = none from hnone]), hb.issued⟩

theorem window (hb : b.Ok c) (hput : b.put = some f) :
    f.startOffset = b.baseOffset ∧ f.endOffset = b.endOffsetAligned ∧ f.epoch = c.epoch := by
  obtain ⟨hbuild, -⟩ := hb.issued f hput
  rw [hbuild, hb.stop]
  exact ⟨rfl, rfl, rfl⟩

theorem entries (hb : b.Ok c) (hput : b.put = some f) :
    f.entries = b.records.map PendingRecord.entry := by
  obtain ⟨hbuild, -⟩ := hb.issued f hput
  rw [hbuild]
  rfl

theorem tiles (hb : b.Ok c) (hput : b.put = some f) :
    Windows.Tiles WalEntry.offset WalEntry.stop b.baseOffset (b.records.map PendingRecord.entry)
      (b.baseOffset + (b.records.map PendingRecord.size).sum) := by
  obtain ⟨-, hlayout, -⟩ := hb.issued f hput
  have hsizes : (b.records.map PendingRecord.record).map framedSize =
      b.records.map PendingRecord.size := by
    rw [map_map]
    exact map_congr_left fun r hr => (hb.record r hr).size.symm
  have htiles := layoutEntries_tiles b.baseOffset (b.records.map PendingRecord.record)
  rwa [hsizes, ← hlayout, hb.entries hput] at htiles

theorem valid (hb : b.Ok c) (hput : b.put = some f) (hlt : b.endOffsetAligned < 2 ^ 63) :
    f.Valid := by
  obtain ⟨hbuild, -, hlo, hhi⟩ := hb.issued f hput
  obtain ⟨hstart, hend, -⟩ := hb.window hput
  have hentries := hb.entries hput
  constructor
  · rw [hentries]
    simpa using hb.ne_nil
  · refine ⟨b.baseOffset + (b.records.map PendingRecord.size).sum, ?_, ?_⟩
    · rw [hstart, hentries]
      exact hb.tiles hput
    · rw [hend, hb.stop]
      exact le_ceilAlignOffset _
  · rw [hend]
    exact hlt
  · intro e he
    rw [hentries] at he
    obtain ⟨r, hr, rfl⟩ := mem_map.mp he
    exact (hb.record r hr).inRange
  · rw [hbuild]
    exact c.nodeId_lt
  · rw [hbuild]
    exact c.epoch_lt
  · omega
  · exact hhi

end UploadingBulk.Ok

/-! ## The layout of the bulks -/

namespace Pipeline

variable {p p' : Pipeline}

def sealed (p : Pipeline) : List UploadingBulk :=
  p.flushed ++ (p.failed ++ (p.callback.bulks ++ (p.uploading ++ p.waiting.map Bulk.toUploading)))

structure Layout (p : Pipeline) : Prop where
  tiles : Windows.Tiles UploadingBulk.baseOffset UploadingBulk.endOffsetAligned p.startOffset
    p.sealed p.nextOffset
  ok : ∀ b ∈ p.sealed, b.Ok p.config
  seqs : p.sealed.Pairwise fun a b => a.seq < b.seq
  seq_pos : ∀ b ∈ p.sealed, 0 < b.seq
  seq_le : ∀ b ∈ p.sealed, b.seq ≤ p.bulkSeq
  active : ∀ a, p.active = some a → a.Ok ∧ a.baseOffset = p.nextOffset ∧ a.seq = p.bulkSeq ∧
    0 < a.seq ∧ (∀ b ∈ p.sealed, b.seq < a.seq) ∧
    p.nextOffset + 2 * dataFileAlignSize < 2 ^ 63
  next_lt : p.nextOffset < 2 ^ 63
  trim_ge : -1 ≤ p.trimOffset
  trim_lt : p.trimOffset < 2 ^ 63

/-- The active bulk, if there is one, has a record. -/
def Filled (p : Pipeline) : Prop := ∀ a, p.active = some a → a.records ≠ []

namespace Layout

theorem congr (h : Layout p) (hs : p'.sealed = p.sealed) (hc : p'.config = p.config)
    (h0 : p'.startOffset = p.startOffset) (ha : p'.active = p.active)
    (hq : p'.bulkSeq = p.bulkSeq) (hn : p'.nextOffset = p.nextOffset)
    (ht : p'.trimOffset = p.trimOffset) : Layout p' := by
  obtain ⟨tiles, ok, seqs, seq_pos, seq_le, active, next_lt, trim_ge, trim_lt⟩ := h
  constructor <;> simp only [hs, hc, h0, ha, hq, hn, ht] <;> assumption

theorem eq_of_seq_eq (h : Layout p) (ha : a ∈ p.sealed) (hb : b ∈ p.sealed) (heq : a.seq = b.seq) :
    a = b := by
  have hnodup : (p.sealed.map UploadingBulk.seq).Nodup :=
    (pairwise_map.mpr h.seqs).imp fun hlt => hlt.ne
  exact inj_on_of_nodup_map hnodup ha hb heq

theorem newActiveBulk (h : Layout p) (hroom : p.nextOffset + 2 * dataFileAlignSize < 2 ^ 63) :
    Layout p.newActiveBulk where
  tiles := h.tiles
  ok := h.ok
  seqs := h.seqs
  seq_pos := h.seq_pos
  seq_le b hb := (h.seq_le b hb).trans (Nat.le_succ _)
  active := by
    rintro a ⟨⟩
    refine ⟨⟨fun r hr => absurd hr not_mem_nil, rfl, Nat.zero_le _⟩, rfl, rfl,
      Nat.succ_pos _, fun b hb => ?_, hroom⟩
    exact Nat.lt_succ_of_le (h.seq_le b hb)
  next_lt := h.next_lt
  trim_ge := h.trim_ge
  trim_lt := h.trim_lt

theorem sealActive (h : Layout p) (hf : p.Filled) : Layout p.sealActive := by
  unfold Pipeline.sealActive
  cases hact : p.active with
  | none => exact h
  | some a =>
    obtain ⟨haok, hbase, hseq, hpos, hlt, hroom⟩ := h.active a hact
    have hne := hf a hact
    have hsealed : sealed { p with
        active := none
        nextOffset := ceilAlignOffset (p.nextOffset + a.size)
        lastInactiveComplete := some a.seq
        waiting := p.waiting ++ [a] } = p.sealed ++ [a.toUploading] := by
      simp [sealed]
    have hstop : a.toUploading.endOffsetAligned = ceilAlignOffset (p.nextOffset + a.size) := by
      rw [← hbase]; rfl
    have hsize : 0 < a.size := by
      obtain ⟨r, rs, hrs⟩ := exists_cons_of_ne_nil hne
      have hr := haok.record r (by simp [hrs])
      have := framedSize_pos r.record
      rw [haok.size, hrs, map_cons, sum_cons, hr.size]
      omega
    have hle := le_ceilAlignOffset (p.nextOffset + a.size)
    have hlt' := ceilAlignOffset_lt (p.nextOffset + a.size)
    have hsize_le := haok.size_le
    change Layout { p with
      active := none
      nextOffset := ceilAlignOffset (p.nextOffset + a.size)
      lastInactiveComplete := some a.seq
      waiting := p.waiting ++ [a] }
    constructor
    · rw [hsealed]
      refine hstop ▸ h.tiles.snoc hbase ?_
      change a.baseOffset < _
      omega
    · rw [hsealed]
      exact forall_mem_append.mpr ⟨h.ok, forall_mem_singleton.mpr (haok.toUploading hne)⟩
    · rw [hsealed]
      refine pairwise_append.mpr ⟨h.seqs, pairwise_singleton .., ?_⟩
      intro b hb d hd
      obtain rfl := mem_singleton.mp hd
      exact hlt b hb
    · rw [hsealed]
      exact forall_mem_append.mpr ⟨h.seq_pos, forall_mem_singleton.mpr hpos⟩
    · rw [hsealed]
      exact forall_mem_append.mpr ⟨h.seq_le, forall_mem_singleton.mpr hseq.le⟩
    · intro d hd
      cases hd
    · change ceilAlignOffset (p.nextOffset + a.size) < 2 ^ 63
      omega
    · exact h.trim_ge
    · exact h.trim_lt

theorem push (h : Layout p) (hact : p.active = some a) (hr : record.InRange)
    (hroom : framedSize record + a.size ≤ dataFileAlignSize) :
    Layout { p with active := some (a.push record) } := by
  obtain ⟨haok, hrest⟩ := h.active a hact
  refine ⟨h.tiles, h.ok, h.seqs, h.seq_pos, h.seq_le, ?_, h.next_lt, h.trim_ge, h.trim_lt⟩
  rintro d ⟨⟩
  exact ⟨haok.push hr hroom, hrest⟩

end Layout

/-- `p'` differs from `p` only in the active bulk and in bulks sealed since. -/
structure Fills (p p' : Pipeline) : Prop where
  config : p'.config = p.config
  startOffset : p'.startOffset = p.startOffset
  uploading : p'.uploading = p.uploading
  callback : p'.callback = p.callback
  flushed : p'.flushed = p.flushed
  failed : p'.failed = p.failed
  flushedOffset : p'.flushedOffset = p.flushedOffset
  trimOffset : p'.trimOffset = p.trimOffset
  fenced : p'.fenced = p.fenced
  puts : p'.puts = p.puts
  acks : p'.acks = p.acks
  log : p'.log = p.log
  bulkSeq : p.bulkSeq ≤ p'.bulkSeq
  waiting : ∃ new, p'.waiting = p.waiting ++ new

namespace Fills

theorem refl (p : Pipeline) : Fills p p :=
  ⟨rfl, rfl, rfl, rfl, rfl, rfl, rfl, rfl, rfl, rfl, rfl, rfl, le_rfl, [], by simp⟩

theorem trans (h₁ : Fills p q) (h₂ : Fills q p') : Fills p p' := by
  obtain ⟨n₁, hn₁⟩ := h₁.waiting
  obtain ⟨n₂, hn₂⟩ := h₂.waiting
  exact ⟨h₂.config.trans h₁.config, h₂.startOffset.trans h₁.startOffset,
    h₂.uploading.trans h₁.uploading, h₂.callback.trans h₁.callback,
    h₂.flushed.trans h₁.flushed, h₂.failed.trans h₁.failed,
    h₂.flushedOffset.trans h₁.flushedOffset, h₂.trimOffset.trans h₁.trimOffset,
    h₂.fenced.trans h₁.fenced, h₂.puts.trans h₁.puts, h₂.acks.trans h₁.acks,
    h₂.log.trans h₁.log, h₁.bulkSeq.trans h₂.bulkSeq, n₁ ++ n₂, by simp [hn₂, hn₁]⟩

theorem newActiveBulk (p : Pipeline) : Fills p p.newActiveBulk :=
  ⟨rfl, rfl, rfl, rfl, rfl, rfl, rfl, rfl, rfl, rfl, rfl, rfl, Nat.le_succ _, [],
    (append_nil _).symm⟩

theorem sealActive (p : Pipeline) : Fills p p.sealActive := by
  unfold Pipeline.sealActive
  cases p.active with
  | none => exact refl p
  | some a => exact ⟨rfl, rfl, rfl, rfl, rfl, rfl, rfl, rfl, rfl, rfl, rfl, rfl, le_rfl, [a], rfl⟩

theorem setActive (p : Pipeline) (a : Bulk) : Fills p { p with active := some a } :=
  ⟨rfl, rfl, rfl, rfl, rfl, rfl, rfl, rfl, rfl, rfl, rfl, rfl, le_rfl, [],
    (append_nil _).symm⟩

theorem ensureRoom (p : Pipeline) (size : Nat) : Fills p (p.ensureRoom size) := by
  unfold Pipeline.ensureRoom
  have hfirst : Fills p (if p.active.isNone then p.newActiveBulk else p) := by
    split
    · exact newActiveBulk p
    · exact refl p
  dsimp only
  generalize (if p.active.isNone then p.newActiveBulk else p) = q at hfirst
  split
  · exact hfirst.trans ((sealActive q).trans (newActiveBulk _))
  · exact hfirst

theorem pushRecord (p : Pipeline) (record : StreamRecordBatch) :
    Fills p (p.pushRecord record) := by
  unfold Pipeline.pushRecord
  cases p.active with
  | none => exact refl p
  | some =>
    dsimp only
    split
    · exact (setActive p _).trans (sealActive _)
    · exact setActive p _

theorem place (p : Pipeline) (record : StreamRecordBatch) : Fills p (p.place record) :=
  (ensureRoom p _).trans (pushRecord _ record)

theorem sealed_eq (h : Fills p p') :
    ∃ new : List Bulk, p'.sealed = p.sealed ++ new.map Bulk.toUploading := by
  obtain ⟨new, hnew⟩ := h.waiting
  exact ⟨new, by simp [sealed, hnew, h.flushed, h.failed, h.callback, h.uploading]⟩

end Fills

theorem ensureRoom_spec (h : Layout p) (hf : p.Filled) (hfit : size ≤ dataFileAlignSize)
    (hroom : p.nextOffset + 4 * dataFileAlignSize < 2 ^ 63) :
    Layout (p.ensureRoom size) ∧
      ∃ a, (p.ensureRoom size).active = some a ∧ size + a.size ≤ dataFileAlignSize := by
  unfold ensureRoom
  cases hact : p.active with
  | none =>
    have hno : ¬ dataFileAlignSize < size + ((p.newActiveBulk.active).map Bulk.size).getD 0 := by
      simpa [newActiveBulk] using hfit
    simp only [Option.isNone_none, if_true, hno, if_false]
    exact ⟨h.newActiveBulk (by omega), _, rfl, by simpa using hfit⟩
  | some a =>
    obtain ⟨haok, -, -⟩ := h.active a hact
    simp only [Option.isNone_some, Bool.false_eq_true, if_false, hact, Option.map_some,
      Option.getD_some]
    split
    next =>
      have hnext : p.sealActive.nextOffset = ceilAlignOffset (p.nextOffset + a.size) := by
        rw [sealActive, hact]
      have := ceilAlignOffset_lt (p.nextOffset + a.size)
      have := haok.size_le
      refine ⟨(h.sealActive hf).newActiveBulk (by omega), _, rfl, by simpa using hfit⟩
    next => exact ⟨h, a, hact, by omega⟩

theorem Layout.place (h : Layout p) (hf : p.Filled) {record : StreamRecordBatch}
    (hr : record.InRange) (hfit : framedSize record ≤ dataFileAlignSize)
    (hroom : p.nextOffset + 4 * dataFileAlignSize < 2 ^ 63) :
    Layout (p.place record) ∧ (p.place record).Filled := by
  obtain ⟨hq, a, hact, hsize⟩ := ensureRoom_spec h hf hfit hroom
  have hpush := hq.push hact hr hsize
  have hfilled :
      Filled { p.ensureRoom (framedSize record) with active := some (a.push record) } := by
    rintro d ⟨⟩
    simp [Bulk.push]
  unfold Pipeline.place pushRecord
  rw [hact]
  dsimp only
  split
  · refine ⟨hpush.sealActive hfilled, fun d hd => ?_⟩
    cases hd
  · exact ⟨hpush, hfilled⟩

/-! ## Changing one uploading bulk -/

section updateBulk

variable {bs : List UploadingBulk} {seq : Nat} {g : UploadingBulk → UploadingBulk}

theorem map_updateBulk (hg : ∀ b, f (g b) = f b) : (updateBulk bs seq g).map f = bs.map f := by
  rw [updateBulk, map_map]
  refine map_congr_left fun b _ => ?_
  simp only [Function.comp_apply]
  split
  · exact hg b
  · rfl

theorem mem_updateBulk :
    b' ∈ updateBulk bs seq g ↔
      (∃ b ∈ bs, b.seq = seq ∧ g b = b') ∨ (b' ∈ bs ∧ b'.seq ≠ seq) := by
  simp only [updateBulk, mem_map]
  constructor
  · rintro ⟨b, hb, rfl⟩
    by_cases hseq : b.seq = seq
    · exact .inl ⟨b, hb, hseq, by simp [hseq]⟩
    · exact .inr ⟨by simpa [hseq] using hb, by simp [hseq]⟩
  · rintro (⟨b, hb, hseq, rfl⟩ | ⟨hb, hseq⟩)
    · exact ⟨b, hb, by simp [hseq]⟩
    · exact ⟨b', hb, by simp [hseq]⟩

theorem map_sealed_update (hg : ∀ b, f (g b) = f b) :
    (sealed { p with uploading := updateBulk p.uploading seq g }).map f = p.sealed.map f := by
  simp [sealed, map_updateBulk hg]

theorem mem_sealed_of_mem_uploading (h : b ∈ p.uploading) : b ∈ p.sealed := by
  simp [sealed, h]

theorem mem_sealed_update (h : Layout p) {b₀ : UploadingBulk} (hb₀ : b₀ ∈ p.uploading)
    (hseq : b₀.seq = seq) {b' : UploadingBulk} :
    b' ∈ sealed { p with uploading := updateBulk p.uploading seq g } ↔
      b' = g b₀ ∨ (b' ∈ p.sealed ∧ b'.seq ≠ seq) := by
  have huniq : ∀ b ∈ p.sealed, b.seq = seq → b = b₀ := fun b hb hbs =>
    h.eq_of_seq_eq hb (mem_sealed_of_mem_uploading hb₀) (hbs.trans hseq.symm)
  -- Only the uploading bulk carries this sequence number.
  have hothers : ∀ b, (b ∈ p.flushed ∨ b ∈ p.failed ∨ b ∈ p.callback.bulks ∨
      b ∈ p.waiting.map Bulk.toUploading) → b.seq ≠ seq := by
    have hs := h.seqs
    simp only [sealed, pairwise_append] at hs
    obtain ⟨-, ⟨-, ⟨-, ⟨-, -, hwaiting⟩, hcallback⟩, hfailed⟩, hflushed⟩ := hs
    rw [← hseq]
    rintro b (hb | hb | hb | hb)
    · exact (hflushed b hb b₀ (by simp [hb₀])).ne
    · exact (hfailed b hb b₀ (by simp [hb₀])).ne
    · exact (hcallback b hb b₀ (by simp [hb₀])).ne
    · exact (hwaiting b₀ hb₀ b hb).ne'
  have hup : b' ∈ updateBulk p.uploading seq g ↔ b' = g b₀ ∨ (b' ∈ p.uploading ∧ b'.seq ≠ seq) := by
    rw [mem_updateBulk]
    refine or_congr_left ⟨?_, fun heq => ⟨b₀, hb₀, hseq, heq.symm⟩⟩
    rintro ⟨b, hb, hbs, rfl⟩
    rw [huniq b (mem_sealed_of_mem_uploading hb) hbs]
  have hsplit : ∀ us : List UploadingBulk, b' ∈ sealed { p with uploading := us } ↔
      b' ∈ us ∨ (b' ∈ p.flushed ∨ b' ∈ p.failed ∨ b' ∈ p.callback.bulks ∨
        b' ∈ p.waiting.map Bulk.toUploading) := by
    intro us
    simp only [sealed, mem_append]
    tauto
  have hold : b' ∈ p.sealed ↔ b' ∈ p.uploading ∨ (b' ∈ p.flushed ∨ b' ∈ p.failed ∨
      b' ∈ p.callback.bulks ∨ b' ∈ p.waiting.map Bulk.toUploading) := hsplit p.uploading
  rw [hsplit, hup]
  constructor
  · rintro ((rfl | hb) | hb)
    · exact .inl rfl
    · exact .inr ⟨hold.mpr (.inl hb.1), hb.2⟩
    · exact .inr ⟨hold.mpr (.inr hb), hothers b' hb⟩
  · rintro (rfl | ⟨hb, hbs⟩)
    · exact .inl (.inl rfl)
    · rcases hold.mp hb with hb | hb
      · exact .inl (.inr ⟨hb, hbs⟩)
      · exact .inr hb

theorem Layout.update (h : Layout p) (hseq' : ∀ b, (g b).seq = b.seq)
    (hbase : ∀ b, (g b).baseOffset = b.baseOffset)
    (hend : ∀ b, (g b).endOffsetAligned = b.endOffsetAligned) (hb₀ : b₀ ∈ p.uploading)
    (hseq : b₀.seq = seq) (hok : (g b₀).Ok p.config) :
    Layout { p with uploading := updateBulk p.uploading seq g } := by
  have hmap : (sealed { p with uploading := updateBulk p.uploading seq g }).map
      UploadingBulk.seq = p.sealed.map UploadingBulk.seq := map_sealed_update hseq'
  -- Facts about sequence numbers only depend on their list.
  have hnum : ∀ P : Nat → Prop, (∀ b ∈ p.sealed, P b.seq) →
      ∀ b ∈ sealed { p with uploading := updateBulk p.uploading seq g }, P b.seq := by
    intro P hP b hb
    have hmem : b.seq ∈ p.sealed.map UploadingBulk.seq := hmap ▸ mem_map_of_mem hb
    obtain ⟨d, hd, hds⟩ := mem_map.mp hmem
    exact hds ▸ hP d hd
  constructor
  · exact h.tiles.of_map_eq (map_sealed_update hbase) (map_sealed_update hend)
  · intro b hb
    rcases (mem_sealed_update h hb₀ hseq).mp hb with rfl | ⟨hb, -⟩
    · exact hok
    · exact h.ok b hb
  · refine pairwise_map.mp ?_
    rw [hmap]
    exact pairwise_map.mpr h.seqs
  · exact hnum (0 < ·) h.seq_pos
  · exact hnum (· ≤ p.bulkSeq) h.seq_le
  · intro a ha
    obtain ⟨hok', hb, hs, hp, hlt, hr⟩ := h.active a ha
    exact ⟨hok', hb, hs, hp, hnum (· < a.seq) hlt, hr⟩
  · exact h.next_lt
  · exact h.trim_ge
  · exact h.trim_lt

end updateBulk

/-! ## What an operation does -/

/-- Everything an operation can do to the pipeline, with the conditions under which it does it. -/
inductive Effect (p : Pipeline) : PipeOp → Pipeline → Prop where
  | begin {offset : Nat} (hseq : p.bulkSeq = 0) (hlt : offset < 2 ^ 63) :
    Effect p (.begin offset)
      { p with startOffset := offset, flushedOffset := offset, nextOffset := offset }
  | fence : Effect p .fence { p with fenced := true }
  | storeTrim {offset : Int} (hlt : p.trimOffset < offset) (hle : offset < 2 ^ 63) :
    Effect p (.storeTrim offset) { p with trimOffset := offset }
  | place (hr : record.InRange) (hfit : framedSize record ≤ dataFileAlignSize)
      (hroom : p.nextOffset + 4 * dataFileAlignSize < 2 ^ 63) :
    Effect p (.place record) (p.place record)
  | sealActive : Effect p .sealActive p.sealActive
  | tryUpload : Effect p .tryUpload p.tryUploadWaiting
  | uploadStart (hb : b ∈ p.uploading) (hseq : b.seq = seq) (hput : b.put = none)
      (hf : (b.issue p.config p.trimOffset).put = some f) :
    Effect p (.uploadStart seq) { p with
      uploading := updateBulk p.uploading seq (·.issue p.config p.trimOffset)
      puts := p.puts ++ [⟨seq, f, false⟩] }
  | putLand (hq : q ∈ p.puts) (hseq : q.seq = seq) (hland : q.landed = false) :
    Effect p (.putLand seq) { p with
      puts := p.puts.map fun q => if q.seq = seq then { q with landed := true } else q }
  | putReturn (hfind : p.inFlight? seq = some b) (hb : b ∈ p.uploading) (hseq : b.seq = seq)
      (hput : b.put.isSome) (hdone : b.done = none)
      (hland : ok = true → ∃ q ∈ p.puts, q.seq = seq ∧ q.landed = true) :
    Effect p (.putReturn seq ok) { p with
      uploading := updateBulk p.uploading seq ({ · with done := some ok })
      callbackQueue := p.callbackQueue + 1
      fenced := p.fenced || !ok
      log := p.log ++ [.put seq ok] }
  | recv (hidle : p.callback = .idle)
      (hcb : cb = .idle ∧ p.uploading.takeWhile (·.done.isSome) = [] ∨
        cb = .popped (p.uploading.takeWhile (·.done.isSome))) :
    Effect p .recv { p with
      callbackQueue := p.callbackQueue - 1
      uploading := p.uploading.dropWhile (·.done.isSome)
      callback := cb }
  | verify (hcb : p.callback = .popped bs) :
    Effect p (.verify outcome) { p with
      callback := .verified bs
      fenced := p.fenced || outcome ≠ .held
      log := p.log ++ [.verify outcome] }
  | loadFenced (hcb : p.callback = .verified bs) :
    Effect p .loadFenced { p with callback := .completing p.fenced bs }
  | finish {fenced : Bool} (hcb : p.callback = .completing fenced []) :
    Effect p .completeBulk { p with callback := .idle }
  | fail (hcb : p.callback = .completing true (b :: bs)) :
    Effect p .completeBulk { p with
      callback := .completing true bs
      failed := p.failed ++ [b]
      acks := p.acks ++ bulkAcks p.config true b.records }
  | flush (hcb : p.callback = .completing false (b :: bs)) :
    Effect p .completeBulk { p with
      callback := .completing false bs
      flushed := p.flushed ++ [b]
      flushedOffset := b.endOffsetAligned
      acks := p.acks ++ bulkAcks p.config false b.records }

theorem effect_of_step (h : p.step op = some p') : Effect p op p' := by
  cases op with
  | begin =>
    simp only [step] at h
    split at h <;> cases h
    next hc => exact .begin hc.1 hc.2
  | fence => cases h; exact .fence
  | storeTrim =>
    simp only [step] at h
    split at h <;> cases h
    next hc => exact .storeTrim hc.1 hc.2
  | place =>
    simp only [step] at h
    split at h <;> cases h
    next hc => exact .place hc.1 hc.2.1 hc.2.2
  | sealActive => cases h; exact .sealActive
  | tryUpload => cases h; exact .tryUpload
  | uploadStart =>
    simp only [step, uploadStart] at h
    split at h <;> cases h
    next hfind =>
      have hb := find?_some hfind
      simp only [decide_eq_true_eq] at hb
      exact .uploadStart (mem_of_find?_eq_some hfind) hb.1 hb.2 rfl
  | putLand =>
    simp only [step, putLand] at h
    split at h <;> cases h
    next hany =>
      obtain ⟨q, hq, hqs⟩ := any_eq_true.mp hany
      simp only [decide_eq_true_eq] at hqs
      exact .putLand hq hqs.1 hqs.2
  | putReturn =>
    simp only [step, putReturn] at h
    split at h <;> cases h
    next hc =>
      obtain ⟨hsome, hland⟩ := hc
      obtain ⟨b, hfind⟩ := Option.isSome_iff_exists.mp hsome
      have hb := find?_some hfind
      simp only [decide_eq_true_eq] at hb
      refine .putReturn hfind (mem_of_find?_eq_some hfind) hb.1 hb.2.1 hb.2.2 fun hok => ?_
      obtain ⟨q, hq, hqs⟩ := any_eq_true.mp (hland hok)
      exact ⟨q, hq, of_decide_eq_true hqs⟩
  | recv =>
    simp only [step, recv] at h
    split at h <;> cases h
    next hc =>
      refine .recv hc.1 ?_
      split
      next hempty => exact .inl ⟨rfl, isEmpty_iff.mp hempty⟩
      next => exact .inr rfl
  | verify =>
    simp only [step, verify] at h
    split at h <;> cases h
    next hcb => exact .verify hcb
  | loadFenced =>
    simp only [step, loadFenced] at h
    split at h <;> cases h
    next hcb => exact .loadFenced hcb
  | completeBulk =>
    simp only [step, completeBulk] at h
    split at h <;> cases h
    next hcb => exact .finish hcb
    next hcb => exact .fail hcb
    next hcb => exact .flush hcb

/-! ## Every operation keeps the layout -/

/-- A bulk fails only in a fenced writer, and a loop that read the flag as clear has failed
none. -/
structure Control (p : Pipeline) : Prop where
  failed_fenced : p.failed ≠ [] → p.fenced = true
  completing_true : ∀ bs, p.callback = .completing true bs → p.fenced = true
  completing_false : ∀ bs, p.callback = .completing false bs → p.failed = []

theorem Control.step (h : Control p) (hstep : Effect p op p') : Control p' := by
  obtain ⟨hfailed, htrue, hfalse⟩ := h
  have hfill : ∀ {q}, Fills p q → Control q := by
    intro q hq
    constructor
    · rw [hq.fenced, hq.failed]; exact hfailed
    · rw [hq.fenced, hq.callback]; exact htrue
    · rw [hq.failed, hq.callback]; exact hfalse
  cases hstep with
  | begin | storeTrim | tryUpload | uploadStart | putLand => exact ⟨hfailed, htrue, hfalse⟩
  | fence => exact ⟨fun _ => rfl, fun _ _ => rfl, hfalse⟩
  | place => exact hfill (Fills.place p _)
  | sealActive => exact hfill (Fills.sealActive p)
  | putReturn =>
    exact ⟨fun hne => by simp [hfailed hne], fun bs hbs => by simp [htrue bs hbs], hfalse⟩
  | recv hidle hcb =>
    refine ⟨hfailed, fun bs hbs => ?_, fun bs hbs => ?_⟩ <;>
      rcases hcb with ⟨rfl, -⟩ | rfl <;> cases hbs
  | verify =>
    exact ⟨fun hne => by simp [hfailed hne], nofun, nofun⟩
  | loadFenced =>
    refine ⟨hfailed, fun bs hbs => ?_, fun bs hbs => ?_⟩
    · cases hf : p.fenced with
      | true => rfl
      | false => simp [hf] at hbs
    · by_contra hne
      simp [hfailed hne] at hbs
  | finish => exact ⟨hfailed, nofun, nofun⟩
  | fail hcb =>
    exact ⟨fun _ => htrue _ hcb, fun _ _ => htrue _ hcb, nofun⟩
  | flush hcb => exact ⟨hfailed, nofun, fun _ _ => hfalse _ hcb⟩

/-- The operations that hand bulks from one queue to the next. -/
def HandsOver : PipeOp → Prop
  | .tryUpload | .recv | .verify _ | .loadFenced | .completeBulk => True
  | _ => False

/-- Handing bulks from one queue to the next does not change their sequence. -/
theorem sealed_congr (hc : Control p) (hstep : Effect p op p') (hop : HandsOver op) :
    p'.sealed = p.sealed := by
  cases hstep with
  | tryUpload =>
    simp only [sealed, tryUploadWaiting, append_assoc, ← map_append, take_append_drop]
  | @recv cb hidle hcb =>
    have hbulks : cb.bulks = p.uploading.takeWhile (·.done.isSome) := by
      rcases hcb with ⟨rfl, hnil⟩ | rfl
      · exact hnil.symm
      · rfl
    have hnone : p.callback.bulks = [] := by rw [hidle]; rfl
    simp only [sealed, hbulks, hnone, nil_append]
    rw [← append_assoc (p.uploading.takeWhile _), takeWhile_append_dropWhile]
  | verify hcb | loadFenced hcb | finish hcb => simp [sealed, hcb, CallbackState.bulks]
  | fail hcb => simp [sealed, hcb, CallbackState.bulks]
  | flush hcb => simp [sealed, hcb, CallbackState.bulks, hc.completing_false _ hcb]
  | _ => cases hop

theorem Layout.sealed_eq_nil (h : Layout p) (hseq : p.bulkSeq = 0) :
    p.sealed = [] ∧ p.active = none := by
  constructor
  · refine eq_nil_iff_forall_not_mem.mpr fun b hb => ?_
    have := h.seq_pos b hb
    have := h.seq_le b hb
    omega
  · cases hact : p.active with
    | none => rfl
    | some a =>
      obtain ⟨-, -, hs, hpos, -⟩ := h.active a hact
      omega

theorem Layout.step (h : Layout p) (hf : p.Filled) (hc : Control p) (hstep : Effect p op p') :
    Layout p' ∧ p'.Filled := by
  have hmove : p'.sealed = p.sealed → p'.config = p.config → p'.startOffset = p.startOffset →
      p'.active = p.active → p'.bulkSeq = p.bulkSeq → p'.nextOffset = p.nextOffset →
      p'.trimOffset = p.trimOffset → Layout p' ∧ p'.Filled := by
    intro hs hcfg h0 ha hq hn ht
    exact ⟨h.congr hs hcfg h0 ha hq hn ht, fun a hact => hf a (ha ▸ hact)⟩
  have hsealed := fun hop => sealed_congr hc hstep hop
  cases hstep with
  | begin hseq hlt =>
    obtain ⟨hnil, hnone⟩ := h.sealed_eq_nil hseq
    refine ⟨⟨?_, h.ok, h.seqs, h.seq_pos, h.seq_le, ?_, hlt, h.trim_ge, h.trim_lt⟩, hf⟩
    · change Windows.Tiles _ _ _ p.sealed _
      rw [hnil]
      rfl
    · intro a ha
      cases hnone.symm.trans ha
  | fence => exact hmove rfl rfl rfl rfl rfl rfl rfl
  | storeTrim hlt hle =>
    have := h.trim_ge
    exact ⟨⟨h.tiles, h.ok, h.seqs, h.seq_pos, h.seq_le, h.active, h.next_lt, by dsimp only; omega,
      hle⟩, hf⟩
  | place hr hfit hroom => exact h.place hf hr hfit hroom
  | sealActive =>
    refine ⟨h.sealActive hf, fun a ha => ?_⟩
    unfold Pipeline.sealActive at ha
    split at ha
    next hnone => cases hnone.symm.trans ha
    next => cases ha
  | @uploadStart b seq f hb hseq hput =>
    have hbok := h.ok b (mem_sealed_of_mem_uploading hb)
    have hup := h.update (g := (·.issue p.config p.trimOffset)) (fun _ => rfl) (fun _ => rfl)
      (fun _ => rfl) hb hseq (hbok.issue (hbok.unissued hput) h.trim_ge h.trim_lt)
    exact ⟨hup.congr rfl rfl rfl rfl rfl rfl rfl, hf⟩
  | putLand => exact hmove rfl rfl rfl rfl rfl rfl rfl
  | @putReturn seq b ok hfind hb hseq hput =>
    have hbok := h.ok b (mem_sealed_of_mem_uploading hb)
    have hup := h.update (g := ({ · with done := some ok })) (fun _ => rfl) (fun _ => rfl)
      (fun _ => rfl) hb hseq (hbok.returned hput ok)
    exact ⟨hup.congr rfl rfl rfl rfl rfl rfl rfl, hf⟩
  | _ => exact hmove (hsealed trivial) rfl rfl rfl rfl rfl rfl

/-! ## PUTs and bulks -/

/-- Issued bulks and PUTs correspond; a bulk that is done Ok has its object in the storage. -/
structure Puts (p : Pipeline) : Prop where
  issued : ∀ b ∈ p.sealed, ∀ f, b.put = some f →
    ∃ q ∈ p.puts, q.seq = b.seq ∧ q.file = f ∧ (b.done = some true → q.landed = true)
  bulk : ∀ q ∈ p.puts, ∃ b ∈ p.sealed, b.seq = q.seq ∧ b.put = some q.file

theorem Puts.congr (h : Puts p) (hs : p'.sealed = p.sealed) (hp : p'.puts = p.puts) : Puts p' := by
  obtain ⟨issued, bulk⟩ := h
  constructor <;> simp only [hs, hp] <;> assumption

theorem Puts.fills (h : Puts p) (hq : Fills p p') : Puts p' := by
  obtain ⟨new, hnew⟩ := hq.sealed_eq
  constructor
  · rw [hnew, hq.puts]
    intro b hb f hf
    rcases mem_append.mp hb with hb | hb
    · exact h.issued b hb f hf
    · obtain ⟨d, -, rfl⟩ := mem_map.mp hb
      cases hf
  · rw [hnew, hq.puts]
    intro q hmem
    obtain ⟨b, hb, hbq⟩ := h.bulk q hmem
    exact ⟨b, mem_append_left _ hb, hbq⟩

theorem Puts.step (h : Puts p) (hl : Layout p) (hc : Control p) (hstep : Effect p op p') :
    Puts p' := by
  have hsealed := fun hop => sealed_congr hc hstep hop
  cases hstep with
  | begin | fence | storeTrim => exact h.congr rfl rfl
  | place => exact h.fills (Fills.place p _)
  | sealActive => exact h.fills (Fills.sealActive p)
  | @uploadStart b₀ seq f₀ hb₀ hseq hput hissue =>
    have hmem := @mem_sealed_update p seq (·.issue p.config p.trimOffset) hl b₀ hb₀ hseq
    constructor
    · intro b hb f hf
      rcases hmem.mp hb with rfl | ⟨hb, -⟩
      · refine ⟨⟨seq, f₀, false⟩, by simp, hseq.symm, ?_, fun hdone => ?_⟩
        · exact Option.some.inj (hissue.symm.trans hf)
        · have hnone := (hl.ok b₀ (mem_sealed_of_mem_uploading hb₀)).unissued hput
          cases hnone.symm.trans hdone
      · obtain ⟨q, hq, hrest⟩ := h.issued b hb f hf
        exact ⟨q, mem_append_left _ hq, hrest⟩
    · intro q hq
      rcases mem_append.mp hq with hq | hq
      · obtain ⟨b, hb, hbs, hbp⟩ := h.bulk q hq
        refine ⟨b, hmem.mpr (.inr ⟨hb, fun heq => ?_⟩), hbs, hbp⟩
        -- The bulk that is being issued has no PUT yet.
        obtain rfl := hl.eq_of_seq_eq hb (mem_sealed_of_mem_uploading hb₀) (heq.trans hseq.symm)
        cases hput.symm.trans hbp
      · obtain rfl := mem_singleton.mp hq
        exact ⟨_, hmem.mpr (.inl rfl), hseq, hissue⟩
  | putLand =>
    constructor
    · intro b hb f hf
      obtain ⟨q, hq, hqs, hqf, hql⟩ := h.issued b hb f hf
      refine ⟨_, mem_map_of_mem hq, ?_⟩
      split
      · exact ⟨hqs, hqf, fun _ => rfl⟩
      · exact ⟨hqs, hqf, hql⟩
    · intro q hq
      obtain ⟨q', hq', rfl⟩ := mem_map.mp hq
      obtain ⟨b, hb, hbs, hbp⟩ := h.bulk q' hq'
      refine ⟨b, hb, ?_⟩
      split
      · exact ⟨hbs, hbp⟩
      · exact ⟨hbs, hbp⟩
  | @putReturn seq b₀ ok hfind hb₀ hseq hput hdone hland =>
    have hmem := @mem_sealed_update p seq ({ · with done := some ok }) hl b₀ hb₀ hseq
    have hb₀s := mem_sealed_of_mem_uploading hb₀
    constructor
    · intro b hb f hf
      rcases hmem.mp hb with rfl | ⟨hb, -⟩
      · cases ok with
        | false =>
          obtain ⟨q, hq, hqs, hqf, -⟩ := h.issued b₀ hb₀s f hf
          exact ⟨q, hq, hqs, hqf, nofun⟩
        | true =>
          obtain ⟨q, hq, hqs, hql⟩ := hland rfl
          obtain ⟨b, hb, hbs, hbp⟩ := h.bulk q hq
          obtain rfl := hl.eq_of_seq_eq hb hb₀s (hbs.trans (hqs.trans hseq.symm))
          exact ⟨q, hq, hbs.symm, Option.some.inj (hbp.symm.trans hf), fun _ => hql⟩
      · exact h.issued b hb f hf
    · intro q hq
      obtain ⟨b, hb, hbs, hbp⟩ := h.bulk q hq
      by_cases heq : b.seq = seq
      · obtain rfl := hl.eq_of_seq_eq hb hb₀s (heq.trans hseq.symm)
        exact ⟨_, hmem.mpr (.inl rfl), hbs, hbp⟩
      · exact ⟨b, hmem.mpr (.inr ⟨hb, heq⟩), hbs, hbp⟩
  | _ => exact h.congr (hsealed trivial) rfl

/-! ## Completed bulks -/

/-- The flushed bulks tile the WAL up to `flushed_offset`, each after a successful PUT, and the
acks sent are exactly those of the completed bulks. -/
structure Flush (p : Pipeline) : Prop where
  tiles : Windows.Tiles UploadingBulk.baseOffset UploadingBulk.endOffsetAligned p.startOffset
    p.flushed p.flushedOffset
  flushed_done : ∀ b ∈ p.flushed, b.done = some true
  callback_done : ∀ b ∈ p.callback.bulks, b.done.isSome = true
  completing_done : ∀ bs, p.callback = .completing false bs → ∀ b ∈ bs, b.done = some true
  failed_put : ∀ b ∈ p.sealed, b.done = some false → p.fenced = true
  acks : p.acks = (p.flushed.flatMap fun b => bulkAcks p.config false b.records) ++
    p.failed.flatMap fun b => bulkAcks p.config true b.records

theorem Flush.fills (h : Flush p) (hq : Fills p p') : Flush p' := by
  obtain ⟨new, hnew⟩ := hq.sealed_eq
  constructor
  · rw [hq.startOffset, hq.flushed, hq.flushedOffset]; exact h.tiles
  · rw [hq.flushed]; exact h.flushed_done
  · rw [hq.callback]; exact h.callback_done
  · rw [hq.callback]; exact h.completing_done
  · rw [hnew, hq.fenced]
    intro b hb hd
    rcases mem_append.mp hb with hb | hb
    · exact h.failed_put b hb hd
    · obtain ⟨d, -, rfl⟩ := mem_map.mp hb
      cases hd
  · rw [hq.acks, hq.flushed, hq.failed, hq.config]; exact h.acks

theorem Flush.step (h : Flush p) (hl : Layout p) (hc : Control p) (hstep : Effect p op p') :
    Flush p' := by
  have hsealed := fun hop => sealed_congr hc hstep hop
  cases hstep with
  | begin hseq =>
    have hnil : p.flushed = [] := (append_eq_nil_iff.mp (hl.sealed_eq_nil hseq).1).1
    refine ⟨?_, h.flushed_done, h.callback_done, h.completing_done, h.failed_put, h.acks⟩
    rw [hnil]
    rfl
  | fence =>
    exact ⟨h.tiles, h.flushed_done, h.callback_done, h.completing_done, fun _ _ _ => rfl, h.acks⟩
  | storeTrim | putLand =>
    exact ⟨h.tiles, h.flushed_done, h.callback_done, h.completing_done, h.failed_put, h.acks⟩
  | place => exact h.fills (Fills.place p _)
  | sealActive => exact h.fills (Fills.sealActive p)
  | tryUpload =>
    exact ⟨h.tiles, h.flushed_done, h.callback_done, h.completing_done,
      fun b hb => h.failed_put b (hsealed trivial ▸ hb), h.acks⟩
  | @uploadStart b₀ seq f₀ hb₀ hseq =>
    have hmem := @mem_sealed_update p seq (·.issue p.config p.trimOffset) hl b₀ hb₀ hseq
    refine ⟨h.tiles, h.flushed_done, h.callback_done, h.completing_done, fun b hb hd => ?_, h.acks⟩
    rcases hmem.mp hb with rfl | ⟨hb, -⟩
    · exact h.failed_put b₀ (mem_sealed_of_mem_uploading hb₀) hd
    · exact h.failed_put b hb hd
  | @putReturn seq b₀ ok hfind hb₀ hseq =>
    have hmem := @mem_sealed_update p seq ({ · with done := some ok }) hl b₀ hb₀ hseq
    refine ⟨h.tiles, h.flushed_done, h.callback_done, h.completing_done, fun b hb hd => ?_, h.acks⟩
    rcases hmem.mp hb with rfl | ⟨hb, -⟩
    · cases ok with
      | true => cases hd
      | false => simp
    · simp [h.failed_put b hb hd]
  | @recv cb hidle hcb =>
    refine ⟨h.tiles, h.flushed_done, ?_, ?_,
      fun b hb => h.failed_put b (hsealed trivial ▸ hb), h.acks⟩
    · intro b hb
      rcases hcb with ⟨rfl, -⟩ | rfl
      · cases hb
      · exact all_eq_true.mp all_takeWhile b hb
    · rintro bs hbs
      rcases hcb with ⟨rfl, -⟩ | rfl <;> cases hbs
  | @verify bs outcome hcb =>
    refine ⟨h.tiles, h.flushed_done, ?_, ?_, ?_, h.acks⟩
    · exact fun b hb => h.callback_done b (by rw [hcb]; exact hb)
    · rintro bs' hbs
      cases hbs
    · intro b hb hd
      simp [h.failed_put b (hsealed trivial ▸ hb) hd]
  | @loadFenced bs hcb =>
    have hbulks : p.callback.bulks = bs := by rw [hcb]; rfl
    refine ⟨h.tiles, h.flushed_done, fun b hb => h.callback_done b (hbulks ▸ hb), ?_,
      fun b hb => h.failed_put b (hsealed trivial ▸ hb), h.acks⟩
    -- A PUT that failed has set the flag that was just read as clear.
    rintro bs' hbs b hb
    obtain ⟨hfenced, rfl⟩ : p.fenced = false ∧ bs = bs' := by simpa using hbs
    have hsome := h.callback_done b (hbulks ▸ hb)
    have hmem : b ∈ p.sealed := by simp [sealed, hbulks, hb]
    cases hd : b.done with
    | none => simp [hd] at hsome
    | some ok =>
      cases ok with
      | true => rfl
      | false => cases hfenced.symm.trans (h.failed_put b hmem hd)
  | finish =>
    refine ⟨h.tiles, h.flushed_done, nofun, nofun,
      fun b hb => h.failed_put b (hsealed trivial ▸ hb), h.acks⟩
  | @fail b₀ bs hcb =>
    have hbulks : p.callback.bulks = b₀ :: bs := by rw [hcb]; rfl
    refine ⟨h.tiles, h.flushed_done, fun b hb => h.callback_done b ?_, nofun,
      fun b hb => h.failed_put b (hsealed trivial ▸ hb), ?_⟩
    · rw [hbulks]
      exact mem_cons_of_mem b₀ hb
    · simp [h.acks]
  | @flush b₀ bs hcb =>
    have hbulks : p.callback.bulks = b₀ :: bs := by rw [hcb]; rfl
    have hfailed := hc.completing_false _ hcb
    have hdone := h.completing_done _ hcb
    refine ⟨?_, ?_, fun b hb => h.callback_done b ?_, ?_,
      fun b hb => h.failed_put b (hsealed trivial ▸ hb), ?_⟩
    · -- The next bulk starts where the flushed ones end.
      have htiles := hl.tiles
      simp only [sealed, hfailed, hbulks, nil_append] at htiles
      obtain ⟨mid, hleft, hbase, hlt, -⟩ := Windows.Tiles.append.mp htiles
      exact h.tiles.snoc (hbase.trans (hleft.right_unique h.tiles)) hlt
    · exact forall_mem_append.mpr
        ⟨h.flushed_done, forall_mem_singleton.mpr (hdone b₀ mem_cons_self)⟩
    · rw [hbulks]
      exact mem_cons_of_mem b₀ hb
    · rintro bs' hbs
      obtain rfl : bs = bs' := by simpa using hbs
      exact fun b hb => hdone b (mem_cons_of_mem b₀ hb)
    · simp [h.acks, hfailed]

/-! ## The invariant -/

structure Inv (p : Pipeline) : Prop where
  layout : Layout p
  filled : Filled p
  control : Control p
  puts : Puts p
  flush : Flush p

theorem Inv.new (c : WalConfig) : Inv (Pipeline.new c) where
  layout := by
    refine ⟨rfl, ?_, .nil, ?_, ?_, ?_, ?_, ?_, ?_⟩ <;> simp [Pipeline.new, sealed,
      CallbackState.bulks, trimOffsetNone]
  filled := nofun
  control := ⟨fun h => absurd rfl h, nofun, fun _ _ => rfl⟩
  puts := ⟨nofun, nofun⟩
  flush := ⟨rfl, nofun, nofun, nofun, nofun, rfl⟩

theorem Inv.step (h : Inv p) (hstep : p.step op = some p') : Inv p' := by
  have heff := effect_of_step hstep
  obtain ⟨hlayout, hfilled⟩ := h.layout.step h.filled h.control heff
  exact ⟨hlayout, hfilled, h.control.step heff, h.puts.step h.layout h.control heff,
    h.flush.step h.layout h.control heff⟩

end Pipeline

end S3Stream
