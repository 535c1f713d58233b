import S3Stream.Wal.Reopen

/-! # Take-overs

Any number of writers with increasing epochs, each of which resets the WAL before it appends,
while PUTs of fenced writers still take effect. The invariant of runs in which every PUT leaves a
listing that overlap removal puts in order. -/

namespace S3Stream

open List TransitionSystem

/-! ## Listings that overlap removal puts in order -/

/-- Only the first object of the listing may reach into an object of a newer epoch. -/
def Settled (files : List WalFile) : Prop :=
  ∀ f ∈ files, ∀ g ∈ files, f.epoch < g.epoch → g.startOffset < f.endOffset →
    ∀ h ∈ files, f.Le h

instance (files : List WalFile) : Decidable (Settled files) := by
  unfold Settled
  infer_instance

theorem Settled.filter (h : Settled files) (p : WalFile → Bool) :
    Settled (files.filter p) := by
  intro f hf g hg hlt hover x hx
  exact h f (mem_filter.mp hf).1 g (mem_filter.mp hg).1 hlt hover x
    (mem_filter.mp hx).1

section discovered

variable {files : List WalFile}

/-- Overlap removal on a settled listing leaves the windows in order. -/
theorem Settled.discover_ordered (h : Settled files) (hd : DistinctFiles files)
    (hown : ∀ f ∈ files, ∀ g ∈ files, f.epoch = g.epoch → f.startOffset < g.startOffset →
      f.endOffset ≤ g.startOffset) :
    (discoverFiles files).Pairwise fun f g => f.endOffset ≤ g.startOffset := by
  have hsorted := pairwise_insertionSort WalFile.Le files
  have hdist := hd.perm (perm_insertionSort WalFile.Le files)
  have hmem : ∀ {f}, f ∈ files.insertionSort WalFile.Le → f ∈ files :=
    fun hf => (mem_insertionSort _).mp hf
  unfold discoverFiles
  cases hl : files.insertionSort WalFile.Le with
  | nil => exact .nil
  | cons f₀ fs =>
    rw [hl] at hsorted hdist hmem
    obtain ⟨hhead, htail⟩ := pairwise_cons.mp hsorted
    obtain ⟨hne, hrest⟩ := pairwise_cons.mp hdist
    -- Of two files in listing order, the first one ends below the second or is the head.
    have hpair : ∀ {f g}, f ∈ f₀ :: fs → g ∈ f₀ :: fs → f.Le g →
        ¬ (f.epoch = g.epoch ∧ f.startOffset = g.startOffset) →
        f.endOffset ≤ g.startOffset ∨ f.epoch < g.epoch ∧ f.Le f₀ := by
      intro f g hf hg hle hfg
      by_cases hend : f.endOffset ≤ g.startOffset
      · exact .inl hend
      · rcases hle with hlt | ⟨heq, hle⟩
        · exact .inr ⟨hlt, h f (hmem hf) g (hmem hg) hlt (not_le.mp hend) f₀
            (hmem mem_cons_self)⟩
        · exact .inl (hown f (hmem hf) g (hmem hg) heq (by omega))
    have hfs : fs.Pairwise fun f g => f.endOffset ≤ g.startOffset := by
      refine (htail.and hrest).imp_of_mem ?_
      rintro f g hf hg ⟨hle, hfg⟩
      refine (hpair (mem_cons_of_mem f₀ hf) (mem_cons_of_mem f₀ hg) hle hfg).resolve_right ?_
      rintro ⟨-, hfirst⟩
      have hge := hhead f hf
      refine hne f hf ?_
      unfold WalFile.Le at hge hfirst
      omega
    rw [keptFiles]
    split
    next => exact hfs
    next hno =>
      refine .cons (fun g hg => ?_) hfs
      rcases hpair mem_cons_self (mem_cons_of_mem f₀ hg) (hhead g hg) (hne g hg) with
        hend | ⟨hlt, -⟩
      · exact hend
      · by_contra hover
        exact hno ⟨g, hg, hlt.ne, not_le.mp hover⟩

theorem mem_discoverFiles (hf : f ∈ files) (hnew : ∀ g ∈ files, g.epoch ≤ f.epoch) :
    f ∈ discoverFiles files := by
  have hmem : ∀ {g}, g ∈ files.insertionSort WalFile.Le → g ∈ files :=
    fun hg => (mem_insertionSort _).mp hg
  have hsorted := pairwise_insertionSort WalFile.Le files
  rw [← mem_insertionSort WalFile.Le] at hf
  unfold discoverFiles
  cases hl : files.insertionSort WalFile.Le with
  | nil =>
    rw [hl] at hf
    cases hf
  | cons =>
    rw [hl] at hf hsorted hmem
    rw [keptFiles]
    split
    next hover =>
      rcases mem_cons.mp hf with rfl | hf
      · -- The head is dropped only for a file of a newer epoch.
        obtain ⟨g, hg, hne, -⟩ := hover
        have hle := (pairwise_cons.mp hsorted).1 g hg
        have hge := hnew g (hmem (mem_cons_of_mem f hg))
        unfold WalFile.Le at hle
        omega
      · exact hf
    next => exact hf

end discovered

/-! ## A writer that resets first -/

namespace Writer

variable {w w' : Writer} {a : WalAct}

/-- Appends and trims wait for the reset: everything below the start offset is trimmed. -/
def AfterReset (w : Writer) : WalAct → Prop
  | .submit _ | .trimStart _ => (w.startOffset : Int) - 1 ≤ w.completedTrim
  | _ => True

instance (w : Writer) (a : WalAct) : Decidable (w.AfterReset a) := by
  induction a using WalAct.casesOn <;> dsimp only [AfterReset] <;> infer_instance

/-- The trim of the reset comes before every object of the writer. -/
structure ResetFirst (w : Writer) : Prop where
  trim : (w.startOffset : Int) - 1 ≤ w.trimOffset ∨ w.Quiet
  headers : ∀ b ∈ w.sealed, ∀ f, b.put = some f → (w.startOffset : Int) - 1 ≤ f.trimOffset

theorem Trims.completed_le (h : Trims w) (hi : w.toPipeline.Inv) :
    w.completedTrim ≤ w.trimOffset := by
  rcases h.completed with hnone | ⟨-, -, -, hle⟩
  · rw [hnone]
    exact hi.layout.trim_ge
  · exact hle

theorem Quiet.nextOffset (h : w.Quiet) (hi : w.toPipeline.Inv) : w.nextOffset = w.startOffset := by
  have htiles := hi.layout.tiles
  rw [h.sealed] at htiles
  exact htiles.symm

/-- A quiet writer stays quiet until it has stored the trim of its reset. -/
theorem Quiet.step (h : w.Quiet) (hi : w.toPipeline.Inv) (ht : Trims w) (hg : w.AfterReset a)
    (hs : Effect w a w') : (w.startOffset : Int) - 1 ≤ w'.trimOffset ∨ w'.Quiet := by
  have hdone : (w.startOffset : Int) - 1 ≤ w.completedTrim →
      (w.startOffset : Int) - 1 ≤ w.trimOffset := fun hle => hle.trans (ht.completed_le hi)
  have hreset : asI64 w.nextOffset = w.startOffset := by
    rw [asI64_of_lt hi.layout.next_lt, h.nextOffset hi]
  cases hs with
  | submit => exact .inl (hdone hg)
  | place hd => simp [h.admitted] at hd
  | pipe hop hp =>
    obtain ⟨hsealed, hactive⟩ := empty_of_pipeOnly hi h.sealed h.active hop hp
    exact .inr ⟨h.admitted, h.trims, hsealed, hactive⟩
  | putReturn hb => exact (inFlight?_of_empty h.sealed hb).elim
  | trimWait hopen hle ha =>
    rcases ha with rfl | ⟨-, hoffset⟩
    · exact .inl (hdone hg)
    · rw [hoffset, hreset] at hle
      exact .inl hle
  | trimStore hopen ha hlt =>
    rcases ha with rfl | ⟨-, hoffset⟩
    · exact .inl ((hdone hg).trans hlt.le)
    · rw [hreset] at hoffset
      exact .inl hoffset.ge
  | trimSubmit hk | trimFail hk | trimProceed hk | trimFinish hk | trimJoin hk =>
    simp [h.trims] at hk
  | _ => exact .inr ⟨h.admitted, h.trims, h.sealed, h.active⟩

theorem ResetFirst.step (h : ResetFirst w) (hi : w.toPipeline.Inv) (ht : Trims w)
    (hu : w.start ≠ .returned → Untouched w) (hg : w.AfterReset a) (hs : Effect w a w') :
    ResetFirst w' := by
  rcases startOffset_step hs with hstart | ⟨listed, hverified, -⟩
  · constructor
    · rw [hstart]
      rcases h.trim with hle | hq
      · exact .inl (hle.trans (trimOffset_le_step hs))
      · exact hq.step hi ht hg hs
    · intro b hb f hput
      rw [hstart]
      rcases issued_origin hi hs hb hput with ⟨d, hd, hdp⟩ | ⟨⟨seq, rfl⟩, htrim⟩
      · exact h.headers d hd f hdp
      · rw [htrim]
        refine h.trim.resolve_right fun hq => ?_
        have hempty : w'.sealed = [] := by
          cases hs with
          | pipe hop hp => exact (empty_of_pipeOnly hi hq.sealed hq.active hop hp).1
          | _ => exact hq.sealed
        rw [hempty] at hb
        cases hb
  · have hq : w'.Quiet := by
      by_cases hret : w'.start = .returned
      · have hw := (hu (by simp [hverified])).quiet
        cases hs with
        | startNewer | started => exact ⟨hw.admitted, hw.trims, hw.sealed, hw.active⟩
        | startHeld hc | startLost hc | startError hc => cases hverified.symm.trans hc
        | _ => cases hverified.symm.trans hret
      · exact (Untouched.step hu hs hret).quiet
    refine ⟨.inr hq, fun b hb => ?_⟩
    rw [hq.sealed] at hb
    cases hb

theorem ResetFirst.new (c : WalConfig) : ResetFirst (Writer.new c) :=
  ⟨.inr (Untouched.new c).quiet, nofun⟩

end Writer

namespace Cluster

variable {s s' : Cluster} {x : ClusterAct} {w v u : Writer} {i j : Nat}

/-- Every writer calls `reset` before it appends or trims. -/
def ResetsFirst (s : Cluster) : ClusterAct → Prop
  | .node i a => ∀ w ∈ s.nodes[i]?, w.AfterReset a
  | _ => True

/-- A PUT leaves a listing that overlap removal puts in order. -/
def Settles (s : Cluster) : ClusterAct → Prop
  | .node i (.putLand seq) => ∀ w ∈ s.nodes[i]?, Settled (s.storeAfter w (.putLand seq))
  | _ => True

instance (s : Cluster) (x : ClusterAct) : Decidable (s.ResetsFirst x) := by
  induction x using ClusterAct.casesOn <;> dsimp only [ResetsFirst] <;> infer_instance

instance (s : Cluster) (x : ClusterAct) : Decidable (s.Settles x) := by
  unfold Settles
  split <;> infer_instance

/-! ## What every writer keeps -/

def Newer (store : List WalFile) (epoch : Nat) : Prop := ∃ g ∈ store, epoch < g.epoch

theorem Reaches.newer {store store' : List WalFile} (h : Reaches store store') {epoch : Nat}
    (hn : Newer store epoch) : Newer store' epoch := by
  obtain ⟨g, hg, hlt⟩ := hn
  obtain ⟨g', hg', hle⟩ := h g hg
  refine ⟨g', hg', ?_⟩
  unfold WalFile.AtLeast at hle
  omega

/-- A writer resets first, its windows are aligned, and a foreign object that it deletes is older
than some object of the bucket. -/
structure NodeTakeover (store : List WalFile) (w : Writer) : Prop where
  start : dataFileAlignSize ∣ w.startOffset
  reset : w.ResetFirst
  previous : ∀ o ∈ w.previousObjects, o.epoch < w.config.epoch
  deletes : ∀ d ∈ w.deletes, (∃ b, w.Uploaded b d) ∨ Newer store d.epoch

theorem NodeTakeover.mono {store store' : List WalFile} (h : NodeTakeover store w)
    (hr : Reaches store store') : NodeTakeover store' w :=
  ⟨h.start, h.reset, h.previous, fun d hd => (h.deletes d hd).imp_right hr.newer⟩

theorem NodeTakeover.new (store : List WalFile) (c : WalConfig) :
    NodeTakeover store (Writer.new c) :=
  ⟨dvd_zero _, .new c, nofun, nofun⟩

theorem aligned_of_listing (h : Inv s) (haligned : ∀ f ∈ s.store, dataFileAlignSize ∣ f.endOffset) :
    dataFileAlignSize ∣ Writer.listedEnd s.listing := by
  unfold Writer.listedEnd
  cases hl : (skipOverlapObjects (parseWalObjects s.listing)).getLast? with
  | none => exact dvd_zero _
  | some =>
    have hmem := (skipOverlapObjects_sublist _).subset (mem_of_getLast? hl)
    rw [h.parse_listing] at hmem
    obtain ⟨f, hf, rfl⟩ := mem_map.mp hmem
    exact haligned f ((mem_insertionSort _).mp hf)

theorem older_of_listing (h : Epochs s) (hw : s.nodes[i]? = some w) (hun : w.Untouched)
    (hepoch : ∀ o, (skipOverlapObjects (parseWalObjects s.listing)).getLast? = some o →
      o.epoch ≤ w.config.epoch) {o : WalObject}
    (ho : o ∈ skipOverlapObjects (parseWalObjects s.listing)) : o.epoch < w.config.epoch := by
  have hmem := (skipOverlapObjects_sublist _).subset ho
  rw [h.inv.parse_listing] at hmem
  obtain ⟨f, hf, rfl⟩ := mem_map.mp hmem
  replace hf := (mem_insertionSort _).mp hf
  obtain ⟨l, -, hl, hle⟩ := newest_of_listing h.inv hf
  have hbound := hepoch _ hl
  rcases h.origin f hf with hinit | ⟨k, v, hv, b, hb, hput⟩
  · exact hinit i w hw
  · obtain ⟨-, -, he⟩ := (h.inv.node k v hv).window hb hput
    refine lt_of_le_of_ne ?_ fun heq => ?_
    · simp only [WalFile.AtLeast, WalFile.toWalObject] at hle hbound ⊢
      omega
    · obtain rfl := h.index_eq hw hv (heq.symm.trans he)
      cases hw.symm.trans hv
      rw [hun.quiet.sealed] at hb
      cases hb

theorem NodeTakeover.step {a : WalAct} (h : NodeTakeover s.store w) (he : Epochs s)
    (haligned : ∀ f ∈ s.store, dataFileAlignSize ∣ f.endOffset) (hw : s.nodes[i]? = some w)
    (hans : s.Answers w a) (hg : w.AfterReset a) (hs : w.step a = some v) :
    NodeTakeover (s.storeAfter w a) v := by
  have hn := he.inv.node i w hw
  have heff := Writer.effect_of_step hs
  have hr := reaches_storeAfter he.inv hn a
  have hstart : dataFileAlignSize ∣ v.startOffset := by
    rcases Writer.startOffset_step heff with heq | ⟨listed, -, rfl, heq⟩
    · exact heq ▸ h.start
    · obtain rfl := hans
      exact heq ▸ aligned_of_listing he.inv haligned
  have hold : ∀ d ∈ w.deletes, (∃ b, v.Uploaded b d) ∨ Newer (s.storeAfter w a) d.epoch :=
    fun d hd => (h.deletes d hd).imp (fun ⟨b, hb⟩ => ⟨b, hb.step hn.pipeline hs⟩) hr.newer
  have hprev : v.previousObjects ⊆ w.previousObjects →
      ∀ o ∈ v.previousObjects, o.epoch < v.config.epoch := fun hsub o ho =>
    Writer.config_step hs ▸ h.previous o (hsub ho)
  have hreset := h.reset.step hn.pipeline hn.trims hn.untouched hg heff
  cases heff with
  | startNewer =>
    obtain rfl := hans
    refine ⟨hstart, hreset, hprev (List.Subset.refl _), fun d hd => ?_⟩
    rcases mem_append.mp hd with hd | hd
    · exact hold d hd
    · exact .inr (hr.newer (newer_of_overlap he.inv hd))
  | started hver hepoch =>
    obtain rfl := hans
    have hun := hn.untouched (by simp [hver])
    refine ⟨hstart, hreset, fun o ho => ?_, fun d hd => ?_⟩
    · simp only [hun.previousObjects, nil_append] at ho
      exact older_of_listing he hw hun hepoch ho
    · rcases mem_append.mp hd with hd | hd
      · exact hold d hd
      · exact .inr (hr.newer (newer_of_overlap he.inv hd))
  | @trimProceed k ack res offset id hk hack hid hok =>
    refine ⟨hstart, hreset, hprev fun o ho => mem_of_mem_drop ho, fun d hd => ?_⟩
    rcases mem_append.mp hd with hd | hd
    · exact hold d hd
    · rcases mem_append.mp hd with hd | hd
      · obtain ⟨e, hmem, rfl⟩ := mem_map.mp hd
        obtain ⟨b, hb, -⟩ := hn.objects.entry e (Writer.mem_coveredObjects hmem).1
        exact .inl ⟨b, hb.step hn.pipeline hs⟩
      · -- The trim record was flushed, so the bucket has reached the epoch of this writer.
        have hd' := (take_subset _ _) ((List.takeWhile_prefix _).subset hd)
        obtain ⟨b, hb, -⟩ := hn.pipeline.flush.exists_of_ok hack hok
        obtain ⟨f, hput⟩ := hn.pipeline.exists_put_of_flushed hb
        obtain ⟨g, hg', hge⟩ := (he.reach i w hw).uploaded_covered hn
          ⟨Pipeline.mem_sealed_of_mem_flushed hb, hn.pipeline.flush.flushed_done b hb, f, hput, rfl⟩
        have hlt := h.previous d hd'
        refine .inr (hr.newer ⟨g, hg', ?_⟩)
        unfold WalFile.AtLeast at hge
        omega
  | _ => exact ⟨hstart, hreset, hprev (List.Subset.refl _), hold⟩

/-! ## Where an older writer's records are when a newer one lists -/

/-- Any number of take-overs. Behind `below` stands the lease: what a writer may still acknowledge
was stored before a newer writer listed. -/
structure Takeovers (s : Cluster) : Prop where
  epochs : Epochs s
  own : ∀ f ∈ s.store, ∃ (i : Nat) (w : Writer), s.nodes[i]? = some w ∧ f.epoch = w.config.epoch
  settled : Settled s.store
  aligned : ∀ f ∈ s.store, dataFileAlignSize ∣ f.endOffset
  node : ∀ (i : Nat) (w : Writer), s.nodes[i]? = some w → NodeTakeover s.store w
  tracks : ∀ (i : Nat) (w : Writer), s.nodes[i]? = some w → ∀ q ∈ w.puts, q.landed = true →
    q.file ∈ s.store ∨ ∃ (j : Nat) (v : Writer), s.nodes[j]? = some v ∧
      ∃ d ∈ v.deletes, d.key = q.file.key s.root
  below : ∀ (i j : Nat) (u v : Writer), s.nodes[i]? = some u → s.nodes[j]? = some v → i < j →
    Listed v → ∀ b ∈ u.confirmable, b.endOffsetAligned ≤ v.startOffset

namespace Takeovers

/-- The newest object of the bucket is at or behind every bulk that may be acknowledged. -/
theorem below_of_listing (h : Takeovers s) (hu : s.nodes[i]? = some u)
    (hb : b ∈ u.confirmable) : b.endOffsetAligned ≤ Writer.listedEnd s.listing := by
  have hn := h.epochs.inv.node i u hu
  obtain ⟨hmem, hdone⟩ := hn.pipeline.confirmable_done hb
  obtain ⟨f, hput⟩ : ∃ f, b.put = some f := by
    cases hput : b.put with
    | some f => exact ⟨f, rfl⟩
    | none => cases ((hn.pipeline.layout.ok b hmem).unissued hput).symm.trans hdone
  obtain ⟨g, hg, hge⟩ := (h.epochs.reach i u hu).uploaded_covered hn ⟨hmem, hdone, f, hput, rfl⟩
  obtain ⟨l, hl, hlast, hle⟩ := newest_of_listing h.epochs.inv hg
  have hpos := hge.trans hle
  rw [Writer.listedEnd, hlast]
  simp only [Option.map_some, Option.getD_some, WalFile.toWalObject]
  unfold WalFile.AtLeast at hpos
  rcases h.epochs.origin l hl with hinit | ⟨k, v, hv, c, hc, hcp⟩
  · have := hinit i u hu
    omega
  · have hnv := h.epochs.inv.node k v hv
    obtain ⟨hcs, hcend, hce⟩ := hnv.window hc hcp
    have hcpos := Windows.Tiles.lo_lt_hi hnv.pipeline.layout.tiles hc
    rcases lt_trichotomy i k with hlt | rfl | hgt
    · have hbelow := h.below i k u v hu hv hlt (hnv.listed_of_sealed hc) b hb
      have hlo := (Windows.Tiles.bounds hnv.pipeline.layout.tiles hc).1
      omega
    · cases hu.symm.trans hv
      rcases Windows.Tiles.trichotomy hn.pipeline.layout.tiles hmem hc with rfl | hbc | hcb
      · omega
      · omega
      · have := Windows.Tiles.lo_lt_hi hn.pipeline.layout.tiles hmem
        omega
    · have := h.epochs.increasing k i v u hv hu hgt
      omega

/-- A file of the bucket stays under its key, whatever a writer puts. -/
theorem mem_storeAfter (h : Takeovers s) (hw : s.nodes[i]? = some w) (hu : s.nodes[j]? = some u)
    (hq : q ∈ u.puts) (hf : q.file ∈ s.store) (a : WalAct) :
    q.file ∈ s.storeAfter w a := by
  refine mem_storeAfter_of_mem hf (fun q₁ hq₁ hkey => ?_) a
  have hnu := h.epochs.inv.node j u hu
  have hnw := h.epochs.inv.node i w hw
  obtain ⟨b, hb, -, hput⟩ := hnu.pipeline.puts.bulk q hq
  obtain ⟨d, hd, -, hput'⟩ := hnw.pipeline.puts.bulk q₁ hq₁
  obtain ⟨he, -⟩ := (hnu.put_valid hq).key_inj (hnw.put_valid hq₁) hkey
  obtain ⟨-, -, hbe⟩ := hnu.window hb hput
  obtain ⟨-, -, hde⟩ := hnw.window hd hput'
  obtain rfl := h.epochs.index_eq hw hu (by omega)
  cases hw.symm.trans hu
  exact hnw.file_eq hq hq₁ hkey

theorem step (h : Takeovers s) (hreset : s.ResetsFirst x) (hsettle : s.Settles x)
    (hheld : ∀ (i j : Nat) (v : Writer), x = .node i (.verify .held) → s.nodes[j]? = some v →
      i < j → ¬ Listed v)
    (hs : s.step x = some s') : Takeovers s' := by
  have hepochs := h.epochs.step hs
  cases effect_of_step hs with
  | acquire => exact ⟨hepochs, h.own, h.settled, h.aligned, h.node, h.tracks, h.below⟩
  | @deleteLand i o w hw ho =>
    have hr := reaches_delete h.epochs.inv (h.epochs.inv.node i w hw) ho
      ((h.epochs.reach i w hw).deletes o ho)
    refine ⟨hepochs, fun f hf => h.own f (mem_filter.mp hf).1, h.settled.filter _,
      fun f hf => h.aligned f (mem_filter.mp hf).1, fun j v hv => (h.node j v hv).mono hr,
      fun j v hv q hq hland => ?_, h.below⟩
    by_cases hkey : q.file.key s.root = o.key
    · exact .inr ⟨i, w, hw, o, ho, hkey.symm⟩
    · exact (h.tracks j v hv q hq hland).imp_left fun hf =>
        mem_filter.mpr ⟨hf, decide_eq_true hkey⟩
  | @node k a v v' hv hans hstep =>
    have hn := h.epochs.inv.node k v hv
    have hr := reaches_storeAfter h.epochs.inv hn a
    refine ⟨hepochs, fun f hf => ?_, ?_, fun f hf => ?_, fun j w hw => ?_,
      fun j w hw q hq hland => ?_, fun i j u w hui hwj hlt hl b hb => ?_⟩
    · have hown : ∃ (i : Nat) (w : Writer), s.nodes[i]? = some w ∧ f.epoch = w.config.epoch := by
        rcases mem_storeAfter_cases hf with hf | ⟨q, hq, rfl⟩
        · exact h.own f hf
        · obtain ⟨b, hb, -, hput⟩ := hn.pipeline.puts.bulk q hq
          exact ⟨k, v, hv, (hn.window hb hput).2.2⟩
      exact Table.exists_set hv (fun hepoch => Writer.config_step hstep ▸ hepoch) hown
    · change Settled (s.storeAfter v a)
      rcases storeAfter_cases a with heq | ⟨q, -, rfl, -⟩
      · rw [heq]
        exact h.settled
      · exact hsettle v hv
    · rcases mem_storeAfter_cases hf with hf | ⟨q, hq, rfl⟩
      · exact h.aligned f hf
      · obtain ⟨b, hb, -, hput⟩ := hn.pipeline.puts.bulk q hq
        rw [(hn.window hb hput).2.1, (hn.pipeline.layout.ok b hb).stop]
        exact dvd_ceilAlignOffset _
    · rcases getElem?_set_cases hw with ⟨rfl, rfl⟩ | ⟨-, hw⟩
      · exact (h.node k v hv).step h.epochs h.aligned hv hans (hreset v hv) hstep
      · exact (h.node j w hw).mono hr
    · -- A delete stays issued, and a stored file stays stored.
      have hold : ∀ {j₀ : Nat} {w₀ : Writer}, s.nodes[j₀]? = some w₀ → q ∈ w₀.puts →
          q.file ∈ s.storeAfter v a ∨ ∃ (j : Nat) (w : Writer), (s.nodes.set k v')[j]? = some w ∧
            ∃ d ∈ w.deletes, d.key = q.file.key s.root := by
        intro j₀ w₀ hw₀ hq₀
        exact (h.tracks j₀ w₀ hw₀ q hq₀ hland).imp (fun hf => h.mem_storeAfter hv hw₀ hq₀ hf a)
          (Table.exists_set hv fun ⟨d, hd, hkey⟩ => ⟨d, Writer.deletes_subset_step hstep hd, hkey⟩)
      rcases getElem?_set_cases hw with ⟨rfl, rfl⟩ | ⟨-, hw⟩
      · rcases Writer.landed_origin hstep hq hland with hq | ⟨rfl, q₀, hq₀, hseq, hfile⟩
        · exact hold hv hq
        · refine .inl ?_
          rw [← hseq, hn.storeAfter_putLand hq₀, hfile]
          exact mem_putFile.mpr (.inl rfl)
      · exact hold hw hq
    · rcases getElem?_set_cases hui with ⟨rfl, rfl⟩ | ⟨-, hu⟩
      · obtain ⟨-, hw⟩ := (getElem?_set_cases hwj).resolve_left fun heq => by omega
        refine h.below k j v w hv hw hlt hl b (confirmable_node hstep (fun ha => ?_) hb)
        exact hheld k j w (by rw [ha]) hw hlt hl
      · rcases getElem?_set_cases hwj with ⟨rfl, rfl⟩ | ⟨-, hw⟩
        · rcases listed_step hn.untouched hn.pipeline hstep hl with
            ⟨hl, heq⟩ | ⟨-, listed, rfl, heq⟩
          · rw [heq]
            exact h.below i k u v hu hv hlt hl b hb
          · obtain rfl := hans
            rw [heq]
            exact h.below_of_listing hu hb
        · exact h.below i j u w hu hw hlt hl b hb

theorem new {dir : Key} {clusterId : List Char} {configs : List WalConfig}
    (hroot : ∀ c ∈ configs, c.root = dir ++ ['/'])
    (hinc : configs.Pairwise fun c d => c.epoch < d.epoch) :
    Takeovers (Cluster.new dir clusterId [] configs) := by
  refine ⟨Epochs.new ⟨nofun, .nil⟩ .nil hroot hinc nofun, nofun, nofun, nofun,
    fun i w hw => ?_, fun i w hw q hq => ?_, fun i j u v hu hv hlt hl => ?_⟩
  · obtain ⟨c, -, rfl⟩ := getElem?_new hw
    exact .new _ c
  · obtain ⟨c, -, rfl⟩ := getElem?_new hw
    cases hq
  · obtain ⟨c, -, rfl⟩ := getElem?_new hv
    cases hl.1

/-- **Runs of take-overs**: leases are acquired in increasing order, every writer resets first,
and every PUT settles. -/
theorem run {dir : Key} {clusterId : List Char} {configs : List WalConfig} {xs : List ClusterAct}
    (hroot : ∀ c ∈ configs, c.root = dir ++ ['/'])
    (hnode : ∀ c ∈ configs, ∀ d ∈ configs, c.nodeId = d.nodeId)
    (hinc : configs.Pairwise fun c d => c.epoch < d.epoch) (hacq : IncreasingAcquires xs)
    (hsteps : Guarded Cluster.step (fun s x => s.ResetsFirst x ∧ s.Settles x)
      (Cluster.new dir clusterId [] configs) xs)
    (hrun : run Cluster.step (Cluster.new dir clusterId [] configs) xs = some s) :
    Takeovers s := by
  have hinit : Takeovers (Cluster.new dir clusterId [] configs) := .new hroot hinc
  have hcreated : ∀ (i : Nat) (u : Writer),
      (Cluster.new dir clusterId [] configs).nodes[i]? = some u → u.start = .created := by
    intro i u hu
    obtain ⟨c, -, rfl⟩ := getElem?_new hu
    rfl
  refine run_induction_of_guarded (P := fun pre m => IncreasingAcquires pre →
    Takeovers m) ?_ (fun _ => hinit) hsteps hrun hacq
  intro pre x m m' hpre hP hG hx hpinc
  have hinc' : IncreasingAcquires pre := by
    unfold IncreasingAcquires at hpinc ⊢
    rw [acquired_append] at hpinc
    exact (pairwise_append.mp hpinc).1
  have h := hP hinc'
  refine h.step hG.1 hG.2 ?_ hx
  -- A newer writer that has listed holds a lease that was acquired before.
  rintro i j v rfl hv hlt hl
  cases effect_of_step hx with
  | @node i a u u' hu hans =>
    have hlease := mem_acquired_of_listed hinit.epochs.inv rfl hcreated hpre hv (.inr hl)
    obtain ⟨u₀, hu₀, hcu⟩ := config_run hpre hu
    obtain ⟨v₀, hv₀, hcv⟩ := config_run hpre hv
    obtain ⟨c, hc, rfl⟩ := getElem?_new hu₀
    obtain ⟨d, hd, rfl⟩ := getElem?_new hv₀
    have hsame : u.config.nodeId = v.config.nodeId := by
      rw [hcu, hcv]
      exact hnode c (mem_of_getElem? hc) d (mem_of_getElem? hd)
    have hfalse := not_verifies_of_newer hpre hinc' hlease hsame
      (.inl (h.epochs.increasing i j u v hu hv hlt))
    cases hfalse.symm.trans hans

end Takeovers

end Cluster

end S3Stream
