import S3Stream.Wal.Reader
import S3Stream.Wal.WriterTrim

/-! # Reading back what was acknowledged

One writer over a prefix that holds any objects when it starts, v0 ones included, and `get` over
the same storage. The writer takes its first offset from the end of the last listed object, while
the reader computes keys of aligned blocks: they agree when that end is aligned. -/

namespace S3Stream

open List Pipeline TransitionSystem

/-- A writer and the storage that it shares with the reader. -/
structure ObjectWalService where
  storage : Storage
  writer : Writer

inductive ServiceAct where
  | wal (a : WalAct)
  /-- A delete that the writer has issued takes effect. -/
  | deleteLand (o : WalObject)
  deriving DecidableEq

namespace ObjectWalService

/-- A writer that has not been started. -/
def new (storage : Storage) (c : WalConfig) : ObjectWalService := ⟨storage, Writer.new c⟩

def root (s : ObjectWalService) : Key := s.writer.config.root

/-- LIST reports what the storage holds; every other request has any outcome. -/
def Answers (s : ObjectWalService) : WalAct → Prop
  | .startList listed => listed = s.storage.list s.root
  | _ => True

instance (s : ObjectWalService) (a : WalAct) : Decidable (s.Answers a) := by
  induction a using WalAct.casesOn <;> dsimp only [Answers] <;> infer_instance

/-- The storage after an action of the writer. -/
def storageAfter (s : ObjectWalService) : WalAct → Storage
  | .putLand seq =>
    match s.writer.puts.find? fun q => q.seq = seq with
    | some q => s.storage.write (q.file.key s.root) q.file.payload
    | none => s.storage
  | _ => s.storage

def step (s : ObjectWalService) : ServiceAct → Option ObjectWalService
  | .wal a =>
    if s.Answers a then (s.writer.step a).map fun w => ⟨s.storageAfter a, w⟩ else none
  | .deleteLand o =>
    if o ∈ s.writer.deletes then some { s with storage := s.storage.delete o.key } else none

/-- The record behind an acknowledged offset. -/
def get (s : ObjectWalService) (offset : RecordOffset) : Except WalError StreamRecordBatch :=
  WalReader.get s.storage s.root offset

/-- The writer starts behind an aligned offset: no listed object is empty, and the last one ends
at a multiple of 64 MiB. -/
def BeginsAligned (_ : ObjectWalService) : ServiceAct → Prop
  | .wal (.startList listed) =>
    (∀ o ∈ parseWalObjects listed, o.startOffset < o.endOffset) ∧
      dataFileAlignSize ∣
        ((skipOverlapObjects (parseWalObjects listed)).getLast?.map WalObject.endOffset).getD 0
  | _ => True

instance (s : ObjectWalService) (a : ServiceAct) : Decidable (s.BeginsAligned a) := by
  unfold BeginsAligned
  split <;> infer_instance

variable {s s' : ObjectWalService} {x : ServiceAct}

/-- Everything an action can do. -/
inductive Effect (s : ObjectWalService) : ServiceAct → ObjectWalService → Prop where
  | wal {a : WalAct} {w : Writer} (hans : s.Answers a) (hstep : s.writer.step a = some w) :
    Effect s (.wal a) ⟨s.storageAfter a, w⟩
  | deleteLand {o : WalObject} (ho : o ∈ s.writer.deletes) :
    Effect s (.deleteLand o) { s with storage := s.storage.delete o.key }

theorem effect_of_step (h : s.step x = some s') : Effect s x s' := by
  cases x with
  | wal =>
    simp only [step] at h
    split at h
    next hans =>
      obtain ⟨w, hstep, rfl⟩ := Option.map_eq_some_iff.mp h
      exact .wal hans hstep
    next => cases h
  | deleteLand =>
    simp only [step] at h
    split at h <;> cases h
    next ho => exact .deleteLand ho

theorem storageAfter_cases (s : ObjectWalService) (a : WalAct) : s.storageAfter a = s.storage ∨
    ∃ q ∈ s.writer.puts, s.storageAfter a = s.storage.write (q.file.key s.root) q.file.payload := by
  cases a with
  | putLand =>
    simp only [storageAfter]
    split
    next q hq => exact .inr ⟨q, mem_of_find?_eq_some hq, rfl⟩
    next => exact .inl rfl
  | _ => exact .inl rfl

/-! ## The invariant -/

/-- Every PUT that took effect can be read, or its delete was issued. -/
def Tracks (s : ObjectWalService) : Prop :=
  ∀ q ∈ s.writer.puts, q.landed = true →
    s.storage.lookup (q.file.key s.root) = some q.file.payload ∨
      ∃ d ∈ s.writer.deletes, d.key = q.file.key s.root

structure Inv (s : ObjectWalService) : Prop where
  keys : (s.storage.map Prod.fst).Nodup
  pipeline : s.writer.toPipeline.Inv
  untouched : s.writer.start ≠ .returned → s.writer.Untouched
  trims : s.writer.Trims
  objects : s.writer.Objects WalObject.Parsed
  aligned : dataFileAlignSize ∣ s.writer.startOffset
  tracks : s.Tracks

theorem keys_write {storage : Storage} (h : (storage.map Prod.fst).Nodup) (key : Key)
    (data : Bytes) : ((storage.write key data).map Prod.fst).Nodup := by
  refine nodup_cons.mpr ⟨?_, h.sublist (filter_sublist.map _)⟩
  intro hmem
  obtain ⟨o, ho, hkey⟩ := mem_map.mp hmem
  exact absurd hkey (by simpa using (mem_filter.mp ho).2)

theorem nodup_list {storage : Storage} (h : (storage.map Prod.fst).Nodup) (root : Key) :
    (storage.list root).Nodup := by
  apply List.Nodup.of_map ObjectInfo.key
  rw [Storage.list, map_map]
  exact h.sublist (filter_sublist.map _)

theorem wellListed {storage : Storage} (h : (storage.map Prod.fst).Nodup) {root : Key}
    (hwindow : ∀ o ∈ parseWalObjects (storage.list root), o.startOffset < o.endOffset) :
    Writer.WellListed WalObject.Parsed (storage.list root) := by
  intro o ho
  refine ⟨parsed_of_mem ho, exists_last_skipOverlapObjects ?_ ?_ hwindow ho⟩
  · exact pairwise_insertionSort ..
  · exact nodup_parseWalObjects (nodup_list h root)

theorem Tracks.wal (h : s.Tracks) (hi : s.writer.toPipeline.Inv) (hs : s.writer.step a = some w) :
    Tracks ⟨s.storageAfter a, w⟩ := by
  have hroot : (ObjectWalService.mk (s.storageAfter a) w).root = s.root := by
    simp only [root, Writer.config_step hs]
  have hdir : s.root = s.writer.config.dir ++ ['/'] := s.writer.config.root_eq
  intro q hq hland
  rw [hroot]
  rcases Writer.landed_origin hs hq hland with hq | ⟨rfl, q₀, hq₀, hseq, hfile⟩
  · rcases h q hq hland with hread | ⟨d, hd, hkey⟩
    · -- A later PUT under the same key is the PUT of the same file.
      left
      rcases s.storageAfter_cases a with heq | ⟨q₁, hq₁, heq⟩
      · simp only [heq, hread]
      · simp only [heq, Storage.lookup_write, hread]
        split
        next hkey =>
          obtain ⟨b, hb, -, hput⟩ := hi.puts.bulk q hq
          obtain ⟨d, hd, -, hput'⟩ := hi.puts.bulk q₁ hq₁
          rw [hdir] at hkey
          obtain rfl := hi.eq_of_key_eq hb hd hput hput' hkey
          rw [Option.some.inj (hput.symm.trans hput')]
        next => rfl
    · exact .inr ⟨d, Writer.deletes_subset_step hs hd, hkey⟩
  · left
    obtain ⟨q₁, hfind, hfile₁⟩ := hi.find?_put hq₀
    rw [hseq] at hfind
    simp only [storageAfter, hfind, hfile₁, hfile, Storage.lookup_write, if_true]

theorem Tracks.deleteLand (h : s.Tracks) (ho : o ∈ s.writer.deletes) :
    Tracks { s with storage := s.storage.delete o.key } := by
  intro q hq hland
  by_cases hkey : q.file.key s.root = o.key
  · exact .inr ⟨o, ho, hkey.symm⟩
  · exact (h q hq hland).imp_left fun hread => (Storage.lookup_delete hkey).trans hread

theorem Inv.step (h : Inv s) (hg : s.BeginsAligned x) (hs : s.step x = some s') : Inv s' := by
  cases effect_of_step hs with
  | deleteLand ho =>
    exact ⟨h.keys.sublist (filter_sublist.map _), h.pipeline, h.untouched, h.trims,
      h.objects, h.aligned, h.tracks.deleteLand ho⟩
  | @wal a w hans hstep =>
    have heff := Writer.effect_of_step hstep
    refine ⟨?_, Writer.pipelineInv_step h.pipeline hstep, Writer.Untouched.step h.untouched heff,
      h.trims.step h.pipeline heff, ?_, ?_, h.tracks.wal h.pipeline hstep⟩
    · rcases s.storageAfter_cases a with heq | ⟨q, -, heq⟩
      · simp only [heq]
        exact h.keys
      · simp only [heq]
        exact keys_write h.keys _ _
    · refine h.objects.step h.pipeline hstep h.trims h.untouched fun listed ha => ?_
      subst ha
      obtain rfl : listed = s.storage.list s.root := hans
      exact wellListed h.keys hg.1
    · rcases Writer.startOffset_step heff with heq | ⟨listed, -, rfl, heq⟩
      · simp only [heq]
        exact h.aligned
      · simp only [heq]
        exact hg.2

theorem Inv.new {storage : Storage} (h : (storage.map Prod.fst).Nodup) (c : WalConfig) :
    Inv (new storage c) :=
  ⟨h, Pipeline.Inv.new c, fun _ => Writer.Untouched.new c, Writer.Trims.new c,
    Writer.Objects.new c, dvd_zero _, nofun⟩

/-! ## What the reader finds -/

theorem Inv.aligned_file (h : Inv s) (hb : b ∈ s.writer.sealed) (hput : b.put = some f) :
    f.Aligned := by
  obtain ⟨hdvd, hstop⟩ := h.pipeline.aligned_window h.aligned hb
  obtain ⟨hstart, hend, -⟩ := (h.pipeline.layout.ok b hb).window hput
  rw [WalFile.Aligned, hstart, hend]
  exact ⟨hdvd, hstop⟩

/-- The object of a confirmed bulk is there, or a requested trim covers the bulk. -/
theorem Inv.stored_or_trimmed (h : Inv s) (hb : b ∈ s.writer.flushed) (hput : b.put = some f) :
    s.storage.lookup (f.key s.root) = some f.payload ∨
      ∃ t ∈ s.writer.trims, (b.lastRecordOffset : Int) ≤ t.offset := by
  have hmem := mem_sealed_of_mem_flushed hb
  have hdir : s.root = s.writer.config.dir ++ ['/'] := s.writer.config.root_eq
  obtain ⟨q, hq, -, rfl, hland⟩ := h.pipeline.puts.issued b hmem f hput
  refine (h.tracks q hq (hland (h.pipeline.flush.flushed_done b hb))).imp_right ?_
  rintro ⟨d, hd, hkey⟩
  rw [hdir] at hkey
  obtain ⟨-, ⟨o, hlast, hle, -⟩, -⟩ :=
    h.objects.trimmed_of_delete h.pipeline (fun _ hp => hp) hdir hmem hput hd hkey
  rcases h.trims.top with hnone | ⟨t, ht, heq⟩
  · rw [hnone, trimOffsetNone] at hle
    omega
  · exact ⟨t, ht, by omega⟩

theorem Inv.get_acked (h : Inv s) (ha : a ∈ s.writer.acks) (hok : a.result = .ok res)
    (htrim : ∀ t ∈ s.writer.trims, t.offset < res.recordOffset.offset) :
    s.get res.recordOffset = .ok a.record := by
  obtain ⟨b, hb, hab⟩ := h.pipeline.flush.exists_of_ok ha hok
  obtain ⟨r, hr, -, hrecord, last, hres⟩ := mem_bulkAcks hab
  obtain rfl : res = ackResult s.writer.config r last := by
    simpa using hok.symm.trans hres
  have hmem := mem_sealed_of_mem_flushed hb
  have hbok := h.pipeline.layout.ok b hmem
  obtain ⟨f, hput⟩ := h.pipeline.exists_put_of_flushed hb
  have hv := h.pipeline.valid hmem hput
  have hentry : r.entry ∈ f.entries := by
    rw [hbok.entries hput]
    exact mem_map_of_mem hr
  have hread : s.storage.lookup (f.key s.root) = some f.payload := by
    refine (h.stored_or_trimmed hb hput).resolve_right ?_
    rintro ⟨t, ht, hle⟩
    have hlast := hbok.le_lastRecordOffset hput hv hentry
    have hlt := htrim t ht
    simp only [ackResult, PendingRecord.entry] at hlt hlast
    omega
  have hget := WalReader.get_entry hv (h.aligned_file hmem hput) hread hentry
  rw [(hbok.window hput).2.2] at hget
  rw [hrecord, get, ackResult]
  rw [(hbok.record r hr).size]
  exact hget

/-- **Read back by offset.** The storage holds any objects, v0 or v1, when the writer starts; the
end of the last one, if any, is a multiple of 64 MiB. Whatever happens then, `get` returns every
acknowledged record above all requested trims; every bulk fills one aligned block, its key is the
one that `get` computes from any offset inside, and different bulks fill different blocks. -/
theorem get_returns_acked {storage : Storage} {c : WalConfig} {xs : List ServiceAct}
    (hkeys : (storage.map Prod.fst).Nodup)
    (hguard : Guarded step BeginsAligned (new storage c) xs)
    (hrun : run step (new storage c) xs = some s) :
    (∀ a ∈ s.writer.acks, ∀ res, a.result = .ok res →
      (∀ t ∈ s.writer.trims, t.offset < res.recordOffset.offset) →
      s.get res.recordOffset = .ok a.record) ∧
    (∀ b ∈ s.writer.sealed, dataFileAlignSize ∣ b.baseOffset ∧
      b.endOffsetAligned = b.baseOffset + dataFileAlignSize ∧
      ∀ f, b.put = some f → ∀ offset, b.baseOffset ≤ offset → offset < b.endOffsetAligned →
        genObjectPathV1Aligned s.root s.writer.config.epoch (floorAlignOffset offset) =
          f.key s.root) ∧
    s.writer.sealed.Pairwise fun b d => b.endOffsetAligned ≤ d.baseOffset := by
  have h : Inv s := run_invariant_of_guarded
    (fun hi hg hs => hi.step hg hs) (.new hkeys c) hguard hrun
  refine ⟨fun a ha res hok htrim => h.get_acked ha hok htrim, fun b hb => ?_, ?_⟩
  · obtain ⟨hdvd, hstop⟩ := h.pipeline.aligned_window h.aligned hb
    refine ⟨hdvd, hstop, fun f hput offset hle hlt => ?_⟩
    obtain ⟨hstart, hend, hepoch⟩ := (h.pipeline.layout.ok b hb).window hput
    rw [← hepoch]
    exact (h.aligned_file hb hput).key_eq (hstart ▸ hle) (hend ▸ hlt)
  · exact Windows.Tiles.pairwise h.pipeline.layout.tiles

/-- A v0 object of 100 bytes of records; the writer of epoch 1 starts behind it. -/
def oldFormat : Storage :=
  [(WalConfig.defaults.root ++ "0/wal/0".toList, List.replicate 140 0)]

theorem one_lt_two_pow_64 : 1 < 2 ^ 64 := by decide

def firstOwner : WalConfig := { WalConfig.defaults with epoch := 1, epoch_lt := one_lt_two_pow_64 }

/-- One record, appended and acknowledged. -/
def appendOne (listed : List ObjectInfo) : List ServiceAct :=
  [.startVerify .held, .startList listed, .submit ⟨5, 0, 0, 1, [1, 2, 3]⟩, .place 0, .flush,
    .tryUpload, .uploadStart 1, .putLand 1, .putReturn 1 true, .recv, .verify .held, .loadFenced,
    .completeBulk].map .wal

/-- Behind a v0 object the first bulk starts at 100; the reader looks for the block at 0. -/
theorem acked_record_not_found : ∃ (s : ObjectWalService) (a : Ack) (res : AppendResult),
    run step (new oldFormat firstOwner)
      (appendOne (oldFormat.list firstOwner.root)) = some s ∧
    a ∈ s.writer.acks ∧ a.result = .ok res ∧ s.writer.trims = [] ∧
    res.recordOffset = ⟨1, 100, 60⟩ ∧
    s.get res.recordOffset =
      .error (.storage (.notFound (genObjectPathV1 s.root 1 0 dataFileAlignSize))) ∧
    (s.storage.lookup (genObjectPathV1 s.root 1 100 dataFileAlignSize)).isSome := by
  obtain ⟨s, hs, hack, htrims, hget, hlookup⟩ : ∃ s,
      run step (new oldFormat firstOwner)
        (appendOne (oldFormat.list firstOwner.root)) = some s ∧
      ⟨(1, 0), ⟨5, 0, 0, 1, [1, 2, 3]⟩,
        .ok ⟨⟨1, 100, 60⟩, ⟨1, dataFileAlignSize, 0⟩⟩⟩ ∈ s.writer.acks ∧ s.writer.trims = [] ∧
      s.get ⟨1, 100, 60⟩ =
        .error (.storage (.notFound (genObjectPathV1 s.root 1 0 dataFileAlignSize))) ∧
      (s.storage.lookup (genObjectPathV1 s.root 1 100 dataFileAlignSize)).isSome := by
    decide +kernel
  exact ⟨s, _, _, hs, hack, rfl, htrims, rfl, hget, hlookup⟩

/-- On an empty prefix the same record is read back. -/
theorem get_returns_acked_first : ∃ s : ObjectWalService,
    run step (new [] firstOwner) (appendOne []) = some s ∧
    s.get ⟨1, 0, 60⟩ = .ok ⟨5, 0, 0, 1, [1, 2, 3]⟩ := by
  obtain ⟨s, hs, hack, htrims⟩ : ∃ s,
      run step (new [] firstOwner) (appendOne []) = some s ∧
      ⟨(1, 0), ⟨5, 0, 0, 1, [1, 2, 3]⟩,
        .ok ⟨⟨1, 0, 60⟩, ⟨1, dataFileAlignSize, 0⟩⟩⟩ ∈ s.writer.acks ∧ s.writer.trims = [] := by
    decide +kernel
  have hguard : Guarded step BeginsAligned (new [] firstOwner) (appendOne []) := by
    decide +kernel
  have hkeys : (([] : Storage).map Prod.fst).Nodup := nodup_nil
  refine ⟨s, hs, (get_returns_acked hkeys hguard hs).1 _ hack _ rfl fun t ht => ?_⟩
  rw [htrims] at ht
  cases ht

end ObjectWalService

end S3Stream
