import Mathlib.Data.List.TakeWhile
import S3Stream.Wal.Takeover

/-! # Recovery across epochs

Overlap removal looks at the first object of a listing only, so an object that a fenced writer
stores late, anywhere else, hides what a newer epoch has acknowledged. If no PUT leaves such an
object behind, recovery yields every acknowledged record. -/

namespace S3Stream

open List Pipeline TransitionSystem Windows

/-! ## Entries of ordered files -/

section recovered

variable {files : List WalFile}

/-- The files from the first one that the newest watermark does not cover. -/
def untrimmedFiles (files : List WalFile) : List WalFile :=
  files.dropWhile fun f => (f.endOffset : Int) ≤ newestTrim files

theorem mem_untrimmedFiles (hf : f ∈ files) (hlt : newestTrim files < f.endOffset) :
    f ∈ untrimmedFiles files := by
  rw [← takeWhile_append_dropWhile (p := fun f : WalFile =>
    (f.endOffset : Int) ≤ newestTrim files) (l := files)] at hf
  rcases mem_append.mp hf with hf | hf
  · have hle := mem_takeWhile_imp hf
    simp only [decide_eq_true_eq] at hle
    omega
  · exact hf

theorem eq_or_disjoint_of_pairwise {fs : List WalFile}
    (hord : fs.Pairwise fun f g => f.endOffset ≤ g.startOffset) (hf : f ∈ fs) (hg : g ∈ fs) :
    f = g ∨ f.endOffset ≤ g.startOffset ∨ g.endOffset ≤ f.startOffset := by
  induction fs with
  | nil => cases hf
  | cons x fs ih =>
    obtain ⟨hx, hfs⟩ := pairwise_cons.mp hord
    rcases mem_cons.mp hf with rfl | hf' <;> rcases mem_cons.mp hg with rfl | hg'
    · exact .inl rfl
    · exact .inr (.inl (hx g hg'))
    · exact .inr (.inr (hx f hf'))
    · exact ih hfs hf' hg'

section

variable (hvalid : ∀ f ∈ untrimmedFiles files, f.Valid)
  (hord : (untrimmedFiles files).Pairwise fun f g => f.endOffset ≤ g.startOffset)

include hvalid hord

theorem newestTrim_lt_of_mem (hf : f ∈ untrimmedFiles files) : newestTrim files < f.endOffset := by
  cases hu : untrimmedFiles files with
  | nil =>
    rw [hu] at hf
    cases hf
  | cons g gs =>
    have hg : newestTrim files < g.endOffset := by
      have hhead := head?_dropWhile_not
        (fun f : WalFile => decide ((f.endOffset : Int) ≤ newestTrim files)) files
      rw [show files.dropWhile _ = g :: gs from hu] at hhead
      simpa using hhead
    have hpos := (hvalid f hf).start_lt_end
    rw [hu] at hf hord
    rcases mem_cons.mp hf with rfl | hf
    · exact hg
    · have hle := (pairwise_cons.mp hord).1 f hf
      omega

theorem recoveredEntries_sorted :
    (recoveredEntries files).Pairwise fun d e => d.offset < e.offset := by
  have hpre : continuousFiles files <+: untrimmedFiles files := contiguousRun_isPrefix _
  refine List.Pairwise.filter _ (entries_sorted (fun f hf => hvalid f (hpre.subset hf)) ?_)
  exact hord.sublist hpre.sublist

/-- An entry is yielded if no gap lies between the watermark and its file. -/
theorem mem_recoveredEntries (hf : f ∈ untrimmedFiles files) (he : e ∈ f.entries)
    (hnext : ∀ x ∈ untrimmedFiles files, x.startOffset < f.startOffset →
      ∃ z ∈ untrimmedFiles files, z.startOffset = x.endOffset)
    (hsurvives : e.Survives (newestTrim files)) : e ∈ recoveredEntries files := by
  have hrun : f ∈ continuousFiles files :=
    mem_contiguousRun hord (fun x hx => (hvalid x hx).start_lt_end) hf hnext
  exact mem_filter.mpr ⟨mem_flatMap.mpr ⟨f, hrun, he⟩, decide_eq_true hsurvives⟩

end

end recovered

namespace Cluster

variable {s : Cluster} {w : Writer} {i : Nat}

namespace Takeovers

/-! ## What a recovery finds -/

theorem issuer (h : Takeovers s) (hf : f ∈ s.store) :
    ∃ (i : Nat) (w : Writer), s.nodes[i]? = some w ∧ ∃ b ∈ w.sealed, b.put = some f := by
  rcases h.epochs.origin f hf with hinit | hissued
  · obtain ⟨i, w, hw, he⟩ := h.own f hf
    have := hinit i w hw
    omega
  · exact hissued

theorem discover_ordered (h : Takeovers s) :
    (discoverFiles s.store).Pairwise fun f g => f.endOffset ≤ g.startOffset := by
  refine h.settled.discover_ordered h.epochs.distinct fun f hf g hg he hlt => ?_
  obtain ⟨i, w, hw, b, hb, hput⟩ := h.issuer hf
  obtain ⟨j, v, hv, c, hc, hput'⟩ := h.issuer hg
  obtain ⟨hfs, hfe, hfep⟩ := (h.epochs.inv.node i w hw).window hb hput
  obtain ⟨hgs, -, hgep⟩ := (h.epochs.inv.node j v hv).window hc hput'
  obtain rfl := h.epochs.index_eq hw hv (by omega)
  cases hw.symm.trans hv
  have htiles := (h.epochs.inv.node i w hw).pipeline.layout.tiles
  have hpos := Tiles.lo_lt_hi htiles hc
  rcases Tiles.trichotomy htiles hb hc with rfl | hle | hle
  · omega
  · omega
  · omega

theorem exists_newest (h : Takeovers s) (hg : g ∈ s.store) :
    ∃ l ∈ s.store, newestTrim (discoverFiles s.store) = l.trimOffset ∧
      ∀ f ∈ s.store, l.AtLeast f.epoch f.startOffset := by
  have hobjects := @discoverWalObjects_files s.dir s.store h.epochs.distinct
    h.epochs.inv.bucket.valid
  have hlist : ∀ {f}, f ∈ s.store → ∃ l ∈ s.store,
      (discoverFiles s.store).getLast?.map (WalFile.toWalObject s.root) =
        some (l.toWalObject s.root) ∧ l.AtLeast f.epoch f.startOffset := by
    intro f hf
    obtain ⟨l, hl, hlast, hle⟩ := newest_of_listing h.epochs.inv hf
    refine ⟨l, hl, ?_, hle⟩
    rw [← getLast?_map]
    exact (congrArg getLast? hobjects).symm.trans hlast
  obtain ⟨_, -, hlast, -⟩ := hlist hg
  obtain ⟨l, hl, -⟩ := Option.map_eq_some_iff.mp hlast
  refine ⟨l, discoverFiles_subset _ (mem_of_getLast? hl), by simp [newestTrim, hl], fun f hf => ?_⟩
  obtain ⟨l', -, hlast', hle⟩ := hlist hf
  rw [hl] at hlast'
  have heq := Option.some.inj hlast'
  have he := congrArg WalObject.epoch heq
  have hs := congrArg WalObject.startOffset heq
  simp only [WalFile.toWalObject] at he hs
  unfold WalFile.AtLeast at *
  omega

/-- The newest file is the writer's own: no newer writer has stored an object. -/
structure Newest (s : Cluster) (w : Writer) (trim : Int) : Prop where
  epoch_le : ∀ f ∈ s.store, f.epoch ≤ w.config.epoch
  start_le : (w.startOffset : Int) - 1 ≤ trim
  covers : ∀ q ∈ w.flushed, ∀ o, w.Covers o q.seq → o ≤ trim

/-- A record that a writer acknowledged is below the watermark, or the writer is the newest. -/
theorem newest_of_lt (h : Takeovers s) (hw : s.nodes[i]? = some w) (hb : b ∈ w.flushed)
    (hlt : newestTrim (discoverFiles s.store) + 1 < b.endOffsetAligned) :
    Newest s w (newestTrim (discoverFiles s.store)) := by
  have hn := h.epochs.inv.node i w hw
  have hcovered : ∀ q ∈ w.flushed, Covered s.store w.config.epoch q.baseOffset := by
    intro q hq
    obtain ⟨f, hput⟩ := hn.pipeline.exists_put_of_flushed hq
    exact (h.epochs.reach i w hw).uploaded_covered hn
      ⟨mem_sealed_of_mem_flushed hq, hn.pipeline.flush.flushed_done q hq, f, hput, rfl⟩
  obtain ⟨g, hg, hge⟩ := hcovered b hb
  obtain ⟨l, hl, htrim, hmax⟩ := h.exists_newest hg
  obtain ⟨k, v, hv, c, hc, hcp⟩ := h.issuer hl
  have hnv := h.epochs.inv.node k v hv
  obtain ⟨hcs, -, hce⟩ := hnv.window hc hcp
  have hheader := (h.node k v hv).reset.headers c hc l hcp
  have hlg := hge.trans (hmax g hg)
  rcases lt_trichotomy i k with hik | rfl | hgt
  · have hbelow := h.below i k w v hw hv hik (hnv.listed_of_sealed hc) b (mem_append_left _ hb)
    omega
  · cases hw.symm.trans hv
    refine ⟨fun f hf => ?_, htrim ▸ hheader, fun q hq o hcov => ?_⟩
    · have hle := hmax f hf
      unfold WalFile.AtLeast at hle
      omega
    · obtain ⟨g', hg', hge'⟩ := hcovered q hq
      have hlq := hge'.trans (hmax g' hg')
      rw [htrim]
      refine hcov c hc ?_ l hcp
      by_contra hseq
      have hqm := mem_sealed_of_mem_flushed hq
      have hwin := hn.pipeline.endOffset_le_of_seq_lt hc hqm (not_le.mp hseq)
      have hpos := Tiles.lo_lt_hi hn.pipeline.layout.tiles hc
      unfold WalFile.AtLeast at hlq
      omega
  · have := h.epochs.increasing k i v w hv hw hgt
    unfold WalFile.AtLeast at hlg
    omega

/-- A flushed bulk of the newest writer is in the bucket unless its records are at or below the
recovered watermark. -/
theorem mem_store_or_trimmed (h : Takeovers s) (hw : s.nodes[i]? = some w)
    (hnew : Newest s w trim) (hb : b ∈ w.flushed) :
    ∃ f, b.put = some f ∧ (f ∈ s.store ∨ b.lastRecordOffset ≤ trim) := by
  have hn := h.epochs.inv.node i w hw
  have hmem := mem_sealed_of_mem_flushed hb
  obtain ⟨f, hput⟩ := hn.pipeline.exists_put_of_flushed hb
  refine ⟨f, hput, ?_⟩
  obtain ⟨q, hq, -, rfl, hland⟩ := hn.pipeline.puts.issued b hmem f hput
  refine (h.tracks i w hw q hq (hland (hn.pipeline.flush.flushed_done b hb))).imp_right ?_
  rintro ⟨j, v, hv, d, hd, hkey⟩
  have hnv := h.epochs.inv.node j v hv
  obtain ⟨g, hg, rfl⟩ := hnv.delete_file hd
  obtain ⟨he, -⟩ := hg.key_inj (hn.put_valid hq) hkey
  have hwe := (hn.window hmem hput).2.2
  rcases (h.node j v hv).deletes _ hd with ⟨c, hc, -, f', hcp, heq⟩ | ⟨g', hg', hlt⟩
  · -- The delete is the writer's own, of a bulk that a trim covers.
    have hce := (hnv.window hc hcp).2.2
    have hge := congrArg WalObject.epoch heq
    simp only [WalFile.toWalObject] at hge
    obtain rfl := h.epochs.index_eq hv hw (by omega)
    cases hv.symm.trans hw
    obtain ⟨-, ⟨o, hlast, -, q', hq', hcov⟩, -⟩ := hn.trimmed_of_delete hmem hput hd hkey
    exact hlast.trans (hnew.covers q' hq' o hcov)
  · have hle := hnew.epoch_le g' hg'
    simp only [WalFile.toWalObject] at hlt
    omega

theorem window_length (h : Takeovers s) (hw : s.nodes[i]? = some w) (hb : b ∈ w.sealed) :
    b.endOffsetAligned = b.baseOffset + dataFileAlignSize :=
  ((h.epochs.inv.node i w hw).pipeline.aligned_window (h.node i w hw).start hb).2

theorem mem_store_of_untrimmed (hf : f ∈ untrimmedFiles (discoverFiles s.store)) : f ∈ s.store :=
  discoverFiles_subset _ ((dropWhile_sublist _).subset hf)

section

variable (h : Takeovers s)

include h

theorem untrimmed_valid : ∀ f ∈ untrimmedFiles (discoverFiles s.store), f.Valid :=
  fun f hf => h.epochs.inv.bucket.valid f (mem_store_of_untrimmed hf)

theorem untrimmed_ordered :
    (untrimmedFiles (discoverFiles s.store)).Pairwise fun f g => f.endOffset ≤ g.startOffset :=
  h.discover_ordered.sublist (dropWhile_sublist _)

/-- Behind an untrimmed file stands its successor, up to every flushed bulk of the newest
writer. -/
theorem exists_successor (hw : s.nodes[i]? = some w)
    (hnew : Newest s w (newestTrim (discoverFiles s.store))) (hb : b ∈ w.flushed)
    (hput : b.put = some f) (hf : f ∈ untrimmedFiles (discoverFiles s.store))
    (hx : x ∈ untrimmedFiles (discoverFiles s.store)) (hlt : x.startOffset < f.startOffset) :
    ∃ z ∈ untrimmedFiles (discoverFiles s.store), z.startOffset = x.endOffset := by
  have hn := h.epochs.inv.node i w hw
  have hlayout := hn.pipeline.layout
  have htrim := newestTrim_lt_of_mem h.untrimmed_valid h.untrimmed_ordered hx
  have hbm := mem_sealed_of_mem_flushed hb
  have hbase := (hn.window hbm hput).1
  have hxend : x.endOffset ≤ f.startOffset := by
    have hfv := (h.untrimmed_valid f hf).start_lt_end
    rcases eq_or_disjoint_of_pairwise h.untrimmed_ordered hx hf with rfl | hle | hle
    · omega
    · exact hle
    · omega
  -- The file ends on a boundary of the writer's blocks.
  have hstart := hnew.start_le
  have hbend := (Tiles.bounds hlayout.tiles hbm).2
  have hbpos := Tiles.lo_lt_hi hlayout.tiles hbm
  obtain ⟨d, hd, hdlo⟩ := Tiles.exists_lo_eq hlayout.tiles
    (fun c hc => h.window_length hw hc) (by omega) (by omega)
    (Nat.dvd_sub (h.aligned x (mem_store_of_untrimmed hx)) (h.node i w hw).start)
  have hseq : d.seq ≤ b.seq := by
    by_contra hgt
    have hwin := hn.pipeline.endOffset_le_of_seq_lt hbm hd (not_le.mp hgt)
    omega
  have hdf := hn.pipeline.mem_flushed_of_seq_le hb hd hseq
  obtain ⟨z, hz, hstore⟩ := h.mem_store_or_trimmed hw hnew hdf
  obtain ⟨hzlo, hzhi, hze⟩ := hn.window hd hz
  have hdpos := Tiles.lo_lt_hi hlayout.tiles hd
  rcases hstore with hstore | hlast
  · have hzm := mem_discoverFiles hstore fun g hg => hze ▸ hnew.epoch_le g hg
    exact ⟨z, mem_untrimmedFiles hzm (by omega), by omega⟩
  · -- A trimmed successor would put `x` below the recovered watermark as well.
    have hbounds := (hlayout.ok d hd).lastRecordOffset_bounds hz (hn.pipeline.valid hd hz)
    omega

theorem recoverStream_eq (hwindow : 0 < window) :
    recoverStream s.storage window (discoverWalObjects s.storage s.root) =
      (recoveredEntries (discoverFiles s.store)).map (.ok <| ·.toRecoverResult
        (startOffsetToEpoch ((discoverFiles s.store).map (WalFile.toWalObject s.root)))) :=
  recoverStream_bucket hwindow h.epochs.distinct h.epochs.inv.bucket.valid

theorem getTrimOffset_eq :
    getTrimOffset s.storage (discoverWalObjects s.storage s.root) =
      .ok (newestTrim (discoverFiles s.store)) := by
  have hvalid := h.epochs.inv.bucket.valid
  have hsub := discoverFiles_subset s.store
  rw [show discoverWalObjects s.storage s.root = _ from
    @discoverWalObjects_files s.dir s.store h.epochs.distinct hvalid]
  exact getTrimOffset_files (fun f hf => stored_storageOf h.epochs.distinct hvalid f (hsub hf))
    fun f hf => hvalid f (hsub hf)

theorem recovered_sorted :
    (recoveredEntries (discoverFiles s.store)).Pairwise fun d e => d.offset < e.offset :=
  recoveredEntries_sorted h.untrimmed_valid h.untrimmed_ordered

/-- **Every acknowledged record above the watermark is yielded.** -/
theorem mem_recovered (hw : s.nodes[i]? = some w) (ha : a ∈ w.acks) (hok : a.result = .ok res)
    (htrim : newestTrim (discoverFiles s.store) < res.recordOffset.offset)
    (huser : ¬ WalEntry.IsTrimRecord ⟨res.recordOffset.offset, a.record⟩) :
    ⟨res.recordOffset.offset, a.record⟩ ∈ recoveredEntries (discoverFiles s.store) := by
  have hn := h.epochs.inv.node i w hw
  obtain ⟨b, hb, hab⟩ := hn.pipeline.flush.exists_of_ok ha hok
  obtain ⟨r, hr, -, hrecord, last, hres⟩ := mem_bulkAcks hab
  obtain rfl : res = ackResult w.config r last := by
    simpa using hok.symm.trans hres
  have hmem := mem_sealed_of_mem_flushed hb
  obtain ⟨f, hput⟩ := hn.pipeline.exists_put_of_flushed hb
  have hokb := hn.pipeline.layout.ok b hmem
  have hvalid := hn.pipeline.valid hmem hput
  have hentry : r.entry ∈ f.entries := by
    rw [hokb.entries hput]
    exact mem_map_of_mem hr
  have hbound := hvalid.bounds hentry
  have hlast := hokb.le_lastRecordOffset hput hvalid hentry
  obtain ⟨-, hfend, hfe⟩ := hn.window hmem hput
  simp only [PendingRecord.entry] at hbound hlast
  simp only [ackResult] at htrim huser ⊢
  have hnew := h.newest_of_lt hw hb (by omega)
  obtain ⟨f', hput', hstore⟩ := h.mem_store_or_trimmed hw hnew hb
  cases hput.symm.trans hput'
  have hf : f ∈ s.store := hstore.resolve_right fun hle => by omega
  have hfm := mem_untrimmedFiles (mem_discoverFiles hf fun g hg => hfe ▸ hnew.epoch_le g hg)
    (by omega)
  have heq : (⟨r.offset, a.record⟩ : WalEntry) = r.entry := by rw [hrecord]; rfl
  rw [heq] at huser ⊢
  exact mem_recoveredEntries h.untrimmed_valid h.untrimmed_ordered hfm hentry
    (fun x hx hlt => h.exists_successor hw hnew hb hput hfm hx hlt) ⟨htrim, huser⟩

end

end Takeovers

/-- **Recovery across epochs**, if every PUT settles. Writers of one WAL with increasing epochs
acquire their leases in increasing order and reset the WAL before they append; they crash or are
fenced at any point, and their PUTs and deletes take effect at any later one. Then a recovery
yields, once each and in order, every user record that any epoch acknowledged and whose offset is
above the watermark of the newest header. -/
theorem recovery_across_epochs {dir : Key} {clusterId : List Char} {configs : List WalConfig}
    {xs : List ClusterAct} {window : Nat} (hroot : ∀ c ∈ configs, c.root = dir ++ ['/'])
    (hnode : ∀ c ∈ configs, ∀ d ∈ configs, c.nodeId = d.nodeId)
    (hinc : configs.Pairwise fun c d => c.epoch < d.epoch) (hacq : IncreasingAcquires xs)
    (hsteps : Guarded Cluster.step (fun s x => s.ResetsFirst x ∧ s.Settles x)
      (Cluster.new dir clusterId [] configs) xs)
    (hrun : run Cluster.step (Cluster.new dir clusterId [] configs) xs = some s)
    (hwindow : 0 < window) :
    ∃ (es : List WalEntry) (epochs : OrdMap Nat Nat) (trim : Int),
      recoverStream s.storage window (discoverWalObjects s.storage s.root) =
        es.map (.ok <| ·.toRecoverResult epochs) ∧
      getTrimOffset s.storage (discoverWalObjects s.storage s.root) = .ok trim ∧
      es.Pairwise (fun d e => d.offset < e.offset) ∧
      ∀ (i : Nat) (w : Writer), s.nodes[i]? = some w → ∀ a ∈ w.acks, ∀ res, a.result = .ok res →
        trim < res.recordOffset.offset →
        ¬ WalEntry.IsTrimRecord ⟨res.recordOffset.offset, a.record⟩ →
        ⟨res.recordOffset.offset, a.record⟩ ∈ es := by
  have h := Takeovers.run hroot hnode hinc hacq hsteps hrun
  exact ⟨_, _, _, h.recoverStream_eq hwindow, h.getTrimOffset_eq, h.recovered_sorted,
    fun i w hw a ha res hok htrim huser => h.mem_recovered hw ha hok htrim huser⟩

/-- Epoch 1 runs `first` and has the PUT of its bulk `seq` in flight when epoch 2 starts; epoch 2
runs `reset`, then `second`; the PUT of epoch 1 takes effect last. -/
def lateSchedule (first : List WalAct) (seq : Nat) (listed : List ObjectInfo)
    (second : List WalAct) : List ClusterAct :=
  let old : List WalAct := [.startVerify .held, .startList []] ++ first ++
    [.submit ⟨5, 0, 1, 1, [2]⟩, .place 0, .flush, .tryUpload, .uploadStart seq]
  let new : List WalAct := [.startVerify .held, .startList listed, .reset] ++ second
  .acquire oldOwner.lease :: old.map (.node 0) ++
    .acquire newOwner.lease :: new.map (.node 1) ++ [.node 0 (.putLand seq)]

/-- Epoch 1 has one record acknowledged, so the late object is the second one of the listing. -/
def hiddenSchedule : List ClusterAct :=
  lateSchedule (.submit ⟨5, 0, 0, 1, [1]⟩ :: confirmBulk 1) 2
    [⟨genObjectPathV1 oldOwner.root 1 0 dataFileAlignSize, 106⟩]
    ([.trimSubmit 0] ++ confirmBulk 1 ++ [.trimProceed 0, .trimFinish 0,
      .submit ⟨5, 0, 2, 1, [3]⟩] ++ confirmBulk 2)

/-- Epoch 1 has stored nothing, so the late object is the first one of the listing. -/
def droppedSchedule : List ClusterAct :=
  lateSchedule [] 1 [] (.submit ⟨5, 0, 2, 1, [3]⟩ :: confirmBulk 1)

/-- An object that epoch 1 stores late, where epoch 2 has written as well, hides a record that
epoch 2 has acknowledged. -/
theorem late_object_hides_record : ∃ (s : Cluster) (w : Writer) (a : Ack) (res : AppendResult)
    (trim : Int), IncreasingAcquires hiddenSchedule ∧
    Guarded Cluster.step ResetsFirst twoOwners hiddenSchedule ∧
    run Cluster.step twoOwners hiddenSchedule = some s ∧
    s.nodes[1]? = some w ∧ a ∈ w.acks ∧ a.result = .ok res ∧
    getTrimOffset s.storage (discoverWalObjects s.storage s.root) = .ok trim ∧
    trim < res.recordOffset.offset ∧
    ¬ WalEntry.IsTrimRecord ⟨res.recordOffset.offset, a.record⟩ ∧
    ∀ r, .ok r ∈ recoverStream s.storage newOwner.readaheadDataSize
      (discoverWalObjects s.storage s.root) → r.record ≠ a.record := by
  obtain ⟨s, hs, ⟨w, hw, ha⟩, htrim, hrec⟩ : ∃ s,
      run Cluster.step twoOwners hiddenSchedule = some s ∧
        (∃ w, s.nodes[1]? = some w ∧ ⟨(2, 0), ⟨5, 0, 2, 1, [3]⟩,
          .ok ⟨⟨2, 2 * dataFileAlignSize, 58⟩, ⟨2, 3 * dataFileAlignSize, 0⟩⟩⟩ ∈ w.acks) ∧
        getTrimOffset s.storage (discoverWalObjects s.storage s.root) =
          .ok (dataFileAlignSize - 1) ∧
        recoverStream s.storage newOwner.readaheadDataSize (discoverWalObjects s.storage s.root) =
          [.ok ⟨⟨5, 0, 1, 1, [2]⟩, 2, dataFileAlignSize, 58⟩] := by decide +kernel
  refine ⟨s, w, _, _, _, by unfold IncreasingAcquires; decide, by decide +kernel, hs, hw,
    ha, rfl, htrim, by decide, by decide, fun r hr => ?_⟩
  rw [hrec, mem_singleton] at hr
  rw [Except.ok.inj hr]
  decide

theorem recovery_across_epochs_head :
    ∃ (s : Cluster) (es : List WalEntry) (epochs : OrdMap Nat Nat),
    run Cluster.step twoOwners droppedSchedule = some s ∧ s.store.length = 2 ∧
    recoverStream s.storage newOwner.readaheadDataSize (discoverWalObjects s.storage s.root) =
      es.map (.ok <| ·.toRecoverResult epochs) ∧
    ⟨0, ⟨5, 0, 2, 1, [3]⟩⟩ ∈ es := by
  obtain ⟨s, hs, hstore, htrim, w, hw, ha⟩ : ∃ s,
      run Cluster.step twoOwners droppedSchedule = some s ∧ s.store.length = 2 ∧
        getTrimOffset s.storage (discoverWalObjects s.storage s.root) = .ok (-1) ∧
        ∃ w, s.nodes[1]? = some w ∧ ⟨(1, 0), ⟨5, 0, 2, 1, [3]⟩,
          .ok ⟨⟨2, 0, 58⟩, ⟨2, dataFileAlignSize, 0⟩⟩⟩ ∈ w.acks := by decide +kernel
  obtain ⟨es, epochs, trim, hrec, htrim', -, hmem⟩ := recovery_across_epochs (by decide) (by decide)
    (by decide) (by unfold IncreasingAcquires; decide) (by decide +kernel) hs newOwner.readahead_pos
  obtain rfl := Except.ok.inj (htrim.symm.trans htrim')
  exact ⟨s, es, epochs, hs, hstore, hrec, hmem 1 w hw _ ha _ rfl (by decide) (by decide)⟩

end Cluster

end S3Stream
