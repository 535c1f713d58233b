import S3Stream.Wal.Epochs

/-! # Reopening a trimmed WAL

Writers with increasing epochs that are used one after another. The trim watermark lives only in
object headers and `start` does not read it back, so the first headers of a new writer say that
nothing was trimmed. A completed trim survives if every header carries the completed trims of the
earlier writers. -/

namespace S3Stream

open List OrdMap Cluster TransitionSystem

/-- The call of `trim` has returned Ok. -/
def TrimPhase.returnedOk : TrimPhase → Bool
  | .done _ | .joined => true
  | _ => false

namespace Writer

variable {w w' : Writer} {a : WalAct} {epoch start : Nat}

/-- The last object of `object_list` is at least at a position of the order of listings: it is
one of the writer's own, or a previous one that is. -/
def Knows (w : Writer) (epoch start : Nat) : Prop :=
  (∃ e, e ∈ w.lastRecordOffsetToObject) ∨ ∃ o, w.previousObjects.getLast? = some o ∧
    (epoch < o.epoch ∨ epoch = o.epoch ∧ start ≤ o.startOffset)

theorem exists_mem_uploadedObjects (h : ∃ e, e ∈ w.lastRecordOffsetToObject) :
    ∃ e, e ∈ w.uploadedObjects b ok := by
  unfold uploadedObjects
  split
  · exact ⟨_, mem_insert_self⟩
  · exact h

/-- A trim that deletes none of the writer's own objects keeps the last previous one. -/
theorem getLast?_drop_coveredPrevious (h : (w.coveredObjects offset).entries = []) :
    (w.previousObjects.drop (w.coveredPrevious offset).length).getLast? =
      w.previousObjects.getLast? := by
  have hle : (w.coveredPrevious offset).length ≤ w.previousObjects.length - 1 := by
    unfold coveredPrevious
    simp only [h, isEmpty_nil, if_true]
    exact (List.takeWhile_prefix _).length_le.trans (length_take_le _ _)
  rw [getLast?_drop]
  split
  next =>
    have hnil : w.previousObjects.length = 0 := by omega
    rw [length_eq_zero_iff.mp hnil]
    rfl
  next => rfl

theorem Knows.step (h : w.Knows epoch start) (hret : w.start = .returned) (hs : Effect w a w') :
    w'.Knows epoch start := by
  cases hs with
  | startHeld hs | startLost hs | startError hs | startNewer hs | started hs =>
    cases hret.symm.trans hs
  | putReturn => exact h.imp_left exists_mem_uploadedObjects
  | @trimProceed k ack res offset =>
    rcases h with ⟨e, he⟩ | h
    · obtain ⟨l, hl, -, hnot⟩ := exists_kept_ge offset he
      exact .inl ⟨l, OrdMap.mem_filter.mpr ⟨hl, decide_eq_true hnot⟩⟩
    · cases hcov : (w.coveredObjects offset).entries with
      | nil =>
        refine .inr ?_
        simp only [getLast?_drop_coveredPrevious hcov]
        exact h
      | cons e =>
        have he : e ∈ w.coveredObjects offset := by
          rw [OrdMap.mem_def, hcov]
          exact mem_cons_self
        obtain ⟨-, -, l, hl, -, hnot⟩ := mem_coveredObjects he
        rw [OrdMap.mem_def, hcov] at hnot
        exact .inl ⟨l, OrdMap.mem_filter.mpr ⟨hl, decide_eq_true hnot⟩⟩
  | _ => exact h

/-- An object was issued before, or the action issues it with the current trim offset. -/
theorem issued_origin (hi : w.toPipeline.Inv) (hs : Effect w a w') (hb : b ∈ w'.sealed)
    (hput : b.put = some f) :
    (∃ d ∈ w.sealed, d.put = some f) ∨
      (∃ seq, a = .uploadStart seq) ∧ f.trimOffset = w.trimOffset := by
  have hof : ∀ {op p}, w.toPipeline.step op = some p → b ∈ p.sealed →
      (∃ d ∈ w.sealed, d.put = some f) ∨
        op = .uploadStart b.seq ∧ f.trimOffset = w.trimOffset := by
    intro op p hop hb
    refine (Pipeline.issued_origin hi (Pipeline.effect_of_step hop) hb hput).imp_left ?_
    rintro ⟨d, hd, -, hdp⟩
    exact ⟨d, hd, hdp⟩
  cases hs with
  | place hd hp => exact (hof hp hb).imp_right fun hop => by cases hop.1
  | putReturn hf hp => exact (hof hp hb).imp_right fun hop => by cases hop.1
  | pipe hop hp hland hstart => exact (hof hp hb).imp_right fun hop => ⟨⟨_, hstart _ hop.1⟩, hop.2⟩
  | _ => exact .inl ⟨b, hb, hput⟩

end Writer

namespace Cluster

variable {s s' : Cluster} {x : ClusterAct} {w u : Writer} {i j : Nat}

/-- The writers are used one after another: a writer acts only while no later one was started. -/
def InTurn (s : Cluster) : ClusterAct → Prop
  | .node i _ => ∀ v ∈ s.nodes.drop (i + 1), v.start = .created
  | _ => True

/-- When a writer fixes the header of an object, its trim offset is at least every trim that an
earlier writer completed. -/
def CarriesTrims (s : Cluster) : ClusterAct → Prop
  | .node i (.uploadStart _) => ∀ w ∈ s.nodes[i]?, ∀ u ∈ s.nodes.take i,
      u.completedTrim ≤ w.trimOffset
  | _ => True

instance (s : Cluster) (x : ClusterAct) : Decidable (s.InTurn x) := by
  unfold InTurn
  split <;> infer_instance

instance (s : Cluster) (x : ClusterAct) : Decidable (s.CarriesTrims x) := by
  unfold CarriesTrims
  split <;> infer_instance

theorem mem_drop_of_getElem? {nodes : List Writer} (h : nodes[j]? = some w) (hlt : i < j) :
    w ∈ nodes.drop (i + 1) := by
  refine mem_of_getElem? (i := j - (i + 1)) ?_
  rw [getElem?_drop, show i + 1 + (j - (i + 1)) = j by omega]
  exact h

theorem mem_take_of_getElem? {nodes : List Writer} (h : nodes[j]? = some w) (hlt : j < i) :
    w ∈ nodes.take i := by
  refine mem_of_getElem? (i := j) ?_
  rw [getElem?_take, if_pos hlt]
  exact h

/-- Writers used one after another: the headers of a writer carry the completed trims of the
earlier ones, and a started writer knows of an object behind everything they stored. -/
structure Chain (s : Cluster) : Prop where
  epochs : Epochs s
  headers : ∀ (i j : Nat) (w u : Writer), s.nodes[i]? = some w → s.nodes[j]? = some u → j < i →
    ∀ b ∈ w.sealed, ∀ f, b.put = some f → u.completedTrim ≤ f.trimOffset
  knows : ∀ (i j : Nat) (w u : Writer), s.nodes[i]? = some w → s.nodes[j]? = some u → j < i →
    w.closed = false → ∀ q ∈ u.puts, q.landed = true → w.Knows q.file.epoch q.file.startOffset

theorem NodeInv.untouched_of_created {root : Key} (h : NodeInv root w)
    (hcreated : w.start = .created) : w.Untouched := h.untouched (by simp [hcreated])

theorem NodeInv.returned_of_open {root : Key} (h : NodeInv root w) (hopen : w.closed = false) :
    w.start = .returned := by
  by_contra hne
  rw [(h.untouched hne).closed] at hopen
  cases hopen

theorem newest_of_listing (h : Inv s) (hg : g ∈ s.store) :
    ∃ l ∈ s.store, (skipOverlapObjects (parseWalObjects s.listing)).getLast? =
      some (l.toWalObject s.root) ∧ l.AtLeast g.epoch g.startOffset := by
  have hnodup : (parseWalObjects s.listing).Nodup := by
    rw [h.parse_listing]
    exact h.bucket.object_nodup
  rw [getLast?_skipOverlapObjects hnodup, h.parse_listing, getLast?_map]
  have hmem : g ∈ s.store.insertionSort WalFile.Le := (mem_insertionSort _).mpr hg
  obtain ⟨l, hl⟩ := Option.isSome_iff_exists.mp (getLast?_isSome.mpr (ne_nil_of_mem hmem))
  refine ⟨l, (mem_insertionSort _).mp (mem_of_getLast? hl), by rw [hl]; rfl, ?_⟩
  obtain ⟨fs, hfs⟩ := getLast?_eq_some_iff.mp hl
  have hsorted := pairwise_insertionSort WalFile.Le s.store
  rw [hfs] at hsorted hmem
  rcases mem_append.mp hmem with hmem | hmem
  · exact (pairwise_append.mp hsorted).2.2 g hmem l (mem_singleton.mpr rfl)
  · obtain rfl := mem_singleton.mp hmem
    exact .refl _

namespace Chain

theorem step (h : Chain s) (hturn : s.InTurn x) (hcarry : s.CarriesTrims x)
    (hs : s.step x = some s') : Chain s' := by
  have hepochs := h.epochs.step hs
  cases effect_of_step hs with
  | acquire => exact ⟨hepochs, h.headers, h.knows⟩
  | deleteLand => exact ⟨hepochs, h.headers, h.knows⟩
  | @node k a v v' hv hans hstep =>
    have hn := h.epochs.inv.node k v hv
    have heff := Writer.effect_of_step hstep
    -- A writer behind the acting one has not been started.
    have hlater : ∀ {i : Nat} {w : Writer}, s.nodes[i]? = some w → k < i → w.Untouched :=
      fun hw hlt => (h.epochs.inv.node _ _ hw).untouched_of_created
        (hturn _ (mem_drop_of_getElem? hw hlt))
    refine ⟨hepochs, fun i j w u hwi huj hlt b hb f hput => ?_,
      fun i j w u hwi huj hlt hopen q hq hland => ?_⟩
    · rcases getElem?_set_cases hwi with ⟨rfl, rfl⟩ | ⟨-, hw⟩
      · obtain ⟨-, hu⟩ := (getElem?_set_cases huj).resolve_left fun heq => by omega
        rcases Writer.issued_origin hn.pipeline heff hb hput with ⟨d, hd, hdp⟩ | ⟨⟨seq, rfl⟩, htrim⟩
        · exact h.headers k j v u hv hu hlt d hd f hdp
        · rw [htrim]
          exact hcarry v hv u (mem_take_of_getElem? hu hlt)
      · rcases getElem?_set_cases huj with ⟨rfl, rfl⟩ | ⟨-, hu⟩
        · rw [(hlater hw hlt).pipeline] at hb
          cases hb
        · exact h.headers i j w u hw hu hlt b hb f hput
    · rcases getElem?_set_cases hwi with ⟨rfl, rfl⟩ | ⟨-, hw⟩
      · obtain ⟨-, hu⟩ := (getElem?_set_cases huj).resolve_left fun heq => by omega
        have hold : v.closed = false → w.Knows q.file.epoch q.file.startOffset := fun hopen =>
          (h.knows k j v u hv hu hlt hopen q hq hland).step (hn.returned_of_open hopen) heff
        cases heff with
        | started hstart =>
          obtain rfl := hans
          obtain ⟨g, hg, hge⟩ := (h.epochs.reach j u hu).landed q hq hland
          obtain ⟨l, -, hl, hle⟩ := newest_of_listing h.epochs.inv hg
          refine .inr ⟨l.toWalObject s.root, ?_, hge.trans hle⟩
          simp only [(hn.untouched (by simp [hstart])).previousObjects, nil_append]
          exact hl
        | close => cases hopen
        | _ => exact hold hopen
      · rcases getElem?_set_cases huj with ⟨rfl, rfl⟩ | ⟨-, hu⟩
        · rw [(hlater hw hlt).closed] at hopen
          cases hopen
        · exact h.knows i j w u hw hu hlt hopen q hq hland

theorem new {dir : Key} {clusterId : List Char} {store : List WalFile}
    (h : Epochs (new dir clusterId store configs)) :
    Chain (new dir clusterId store configs) := by
  refine ⟨h, fun i j w u hw hu hlt b hb => ?_, fun i j w u hw hu hlt hopen => ?_⟩
  · obtain ⟨c, -, rfl⟩ := getElem?_new hw
    cases hb
  · obtain ⟨c, -, rfl⟩ := getElem?_new hw
    cases hopen

/-! ## What a recovery reads -/

/-- Everything stored at or behind some flushed bulk carries the completed trim. -/
theorem exists_carrier (h : Chain s) (hu : s.nodes[j]? = some u)
    (hsome : u.completedTrim ≠ trimOffsetNone) : ∃ b f, b ∈ u.flushed ∧ b.put = some f ∧
      ∀ g ∈ s.store, g.AtLeast f.epoch f.startOffset → u.completedTrim ≤ g.trimOffset := by
  have hn := h.epochs.inv.node j u hu
  obtain ⟨b, hb, hcov, -⟩ := hn.trims.completed.resolve_left hsome
  have hmem := Pipeline.mem_sealed_of_mem_flushed hb
  obtain ⟨f, hput⟩ := hn.pipeline.exists_put_of_flushed hb
  obtain ⟨hstart, -, hepoch⟩ := hn.window hmem hput
  refine ⟨b, f, hb, hput, fun g hg hge => ?_⟩
  rcases h.epochs.origin g hg with hinit | ⟨k, v, hv, c, hc, hcp⟩
  · have := hinit j u hu
    unfold WalFile.AtLeast at hge
    omega
  · have hnv := h.epochs.inv.node k v hv
    obtain ⟨hcs, -, hce⟩ := hnv.window hc hcp
    rcases lt_trichotomy j k with hlt | rfl | hgt
    · exact h.headers k j v u hv hu hlt c hc g hcp
    · cases hu.symm.trans hv
      refine hcov c hc ?_ g hcp
      by_contra hseq
      have hwin := hn.pipeline.endOffset_le_of_seq_lt hc hmem (not_le.mp hseq)
      have hpos := Windows.Tiles.lo_lt_hi hn.pipeline.layout.tiles hc
      unfold WalFile.AtLeast at hge
      omega
    · have := h.epochs.increasing k j v u hv hu hgt
      unfold WalFile.AtLeast at hge
      omega

/-- A recovery over objects that end at or behind every flushed bulk of a writer yields nothing
that the writer has completed to trim. -/
theorem completedTrim_lt (h : Chain s) (hu : s.nodes[j]? = some u)
    (hlast : ∀ b f, b ∈ u.flushed → b.put = some f → ∃ g : WalFile, g.Valid ∧
      objects.getLast? = some (g.toWalObject s.root) ∧ g.AtLeast f.epoch f.startOffset)
    (hr : .ok r ∈ recoverStream s.storage window objects) :
    u.completedTrim < r.recordOffset.offset := by
  obtain ⟨trimOffset, htrim, hlt⟩ := lt_of_mem_recoverStream hr
  by_cases hsome : u.completedTrim = trimOffsetNone
  · rw [hsome, trimOffsetNone]
    omega
  · obtain ⟨b, f, hb, hput, hcarry⟩ := h.exists_carrier hu hsome
    obtain ⟨g, hg, hgl, hge⟩ := hlast b f hb hput
    obtain ⟨l, hl, hkey, rfl⟩ :=
      getTrimOffset_storageOf h.epochs.distinct h.epochs.inv.bucket.valid hg hgl htrim
    obtain ⟨he, hs, -⟩ := (h.epochs.inv.bucket.valid l hl).key_inj hg hkey
    refine (hcarry l hl ?_).trans_lt hlt
    unfold WalFile.AtLeast at *
    omega

theorem flushed_covered (h : Chain s) (hu : s.nodes[j]? = some u) (hb : b ∈ u.flushed)
    (hput : b.put = some f) :
    (∃ q ∈ u.puts, q.landed = true ∧ q.file = f) ∧ Covered s.store f.epoch f.startOffset := by
  have hn := h.epochs.inv.node j u hu
  have hmem := Pipeline.mem_sealed_of_mem_flushed hb
  obtain ⟨q, hq, -, rfl, hland⟩ := hn.pipeline.puts.issued b hmem f hput
  have hlanded := hland (hn.pipeline.flush.flushed_done b hb)
  exact ⟨⟨q, hq, hlanded, rfl⟩, (h.epochs.reach j u hu).landed q hq hlanded⟩

theorem last_own (h : Chain s) (hw : s.nodes[i]? = some w) (he : e ∈ w.lastRecordOffsetToObject) :
    ∃ b g, b ∈ w.sealed ∧ b.put = some g ∧
      e.1 ≤ b.lastRecordOffset ∧ ∀ os, (os ++ w.lastRecordOffsetToObject.values).getLast? =
        some (g.toWalObject s.root) := by
  have hn := h.epochs.inv.node i w hw
  obtain ⟨l, hl⟩ := exists_last? he
  obtain ⟨b, ⟨hb, -, g, hg, hobj⟩, hkey⟩ := hn.objects.entry l (mem_of_last? hl)
  refine ⟨b, g, hb, hg, hkey ▸ le_of_last? hl he, fun os => ?_⟩
  have hlast : w.lastRecordOffsetToObject.values.getLast? = some l.2 := by
    rw [values, getLast?_map, show w.lastRecordOffsetToObject.entries.getLast? = _ from hl]
    rfl
  rw [getLast?_append, hlast, hobj, hn.root]
  rfl

/-- The object list of the writer in turn ends at or behind every flushed bulk. -/
theorem last_objectList (h : Chain s) (hw : s.nodes[i]? = some w)
    (hturn : ∀ v ∈ s.nodes.drop (i + 1), v.start = .created) (hopen : w.closed = false)
    (hu : s.nodes[j]? = some u) (hb : b ∈ u.flushed) (hput : b.put = some f) :
    ∃ g : WalFile, g.Valid ∧
      (w.previousObjects ++ w.lastRecordOffsetToObject.values).getLast? =
        some (g.toWalObject s.root) ∧ g.AtLeast f.epoch f.startOffset := by
  have hn := h.epochs.inv.node i w hw
  have hnu := h.epochs.inv.node j u hu
  have hmem := Pipeline.mem_sealed_of_mem_flushed hb
  obtain ⟨hstart, -, hepoch⟩ := hnu.window hmem hput
  rcases lt_trichotomy i j with hlt | rfl | hgt
  · have hun := hnu.untouched_of_created (hturn u (mem_drop_of_getElem? hu hlt))
    rw [hun.pipeline] at hb
    cases hb
  · cases hw.symm.trans hu
    -- The writer's own newest object is at or behind each of its flushed bulks.
    have hentry : ∃ e ∈ w.lastRecordOffsetToObject, b.lastRecordOffset ≤ e.1 := by
      rcases hn.objects.kept b _ ⟨hmem, hn.pipeline.flush.flushed_done b hb, f, hput, rfl⟩ with
        he | ⟨-, e, he, hlt⟩
      · exact ⟨_, he, le_refl _⟩
      · exact ⟨e, he, hlt.le⟩
    obtain ⟨e, he, hle⟩ := hentry
    obtain ⟨c, g, hc, hg, hel, hlast⟩ := h.last_own hw he
    refine ⟨g, hn.pipeline.valid hc hg, hlast _, ?_⟩
    obtain ⟨hcs, -, hce⟩ := hn.window hc hg
    refine .inr ⟨by omega, ?_⟩
    by_contra hlt
    have hseq : c.seq < b.seq := by
      by_contra hge
      rcases lt_or_ge b.seq c.seq with hbc | hcb
      · have hwin := hn.pipeline.endOffset_le_of_seq_lt hmem hc hbc
        have hpos := Windows.Tiles.lo_lt_hi hn.pipeline.layout.tiles hmem
        omega
      · rw [hn.pipeline.layout.eq_of_seq_eq hmem hc (by omega)] at hstart
        omega
    have hlast := hn.pipeline.lastRecordOffset_lt hc hmem hg hput hseq
    omega
  · obtain ⟨⟨q, hq, hland, rfl⟩, -⟩ := h.flushed_covered hu hb hput
    have hinc := h.epochs.increasing j i u w hu hw hgt
    have hown : ∀ e ∈ w.lastRecordOffsetToObject, ∃ g : WalFile, g.Valid ∧
        (w.previousObjects ++ w.lastRecordOffsetToObject.values).getLast? =
          some (g.toWalObject s.root) ∧ g.AtLeast q.file.epoch q.file.startOffset := by
      intro e he
      obtain ⟨c, g, hc, hg, -, hlast⟩ := h.last_own hw he
      obtain ⟨-, -, hce⟩ := hn.window hc hg
      exact ⟨g, hn.pipeline.valid hc hg, hlast _, .inl (by omega)⟩
    rcases h.knows i j w u hw hu hgt hopen q hq hland with ⟨e, he⟩ | ⟨o, ho, hge⟩
    · exact hown e he
    · -- Without an object of its own the writer's list ends with the newest one it found.
      cases hentries : w.lastRecordOffsetToObject.entries with
      | nil =>
        obtain ⟨⟨g, hg, rfl⟩, -⟩ := hn.objects.previous o (mem_of_getLast? ho)
        refine ⟨g, hg, ?_, hge⟩
        rw [values, hentries, map_nil, append_nil, ho, hn.root]
      | cons e => exact hown e (mem_def.mpr (hentries ▸ mem_cons_self))

end Chain

/-- **A completed trim survives reopening**, if every header carries the earlier trims. Writers
with increasing epochs are used one after another over a bucket of older epochs; a PUT that has
not taken effect when the next writer is started never does. Once a trim has returned Ok, neither
a recovery over the listing nor one over the objects that the writer in turn knows yields a record
at or below it. -/
theorem completed_trim_survives {dir : Key} {clusterId : List Char} {store : List WalFile}
    {configs : List WalConfig} {xs : List ClusterAct}
    (hstore : Bucket (dir ++ ['/']) store) (hd : DistinctFiles store)
    (hroot : ∀ c ∈ configs, c.root = dir ++ ['/'])
    (hinc : configs.Pairwise fun c d => c.epoch < d.epoch)
    (hold : ∀ f ∈ store, ∀ c ∈ configs, f.epoch < c.epoch)
    (hrun : run Cluster.step (Cluster.new dir clusterId store configs) xs = some s)
    (hsteps : Guarded Cluster.step (fun s x => s.InTurn x ∧ s.CarriesTrims x)
      (Cluster.new dir clusterId store configs) xs)
    {t : TrimTask} (hu : s.nodes[j]? = some u) (ht : t ∈ u.trims)
    (hok : t.phase.returnedOk = true) {window : Nat} {r : RecoverResult} :
    (.ok r ∈ recoverStream s.storage window (discoverWalObjects s.storage s.root) →
      t.offset < r.recordOffset.offset) ∧
    ∀ (i : Nat) (w : Writer) (objects : List WalObject), s.nodes[i]? = some w →
      (∀ v ∈ s.nodes.drop (i + 1), v.start = .created) → w.objectList = .ok objects →
      .ok r ∈ recoverStream s.storage window objects → t.offset < r.recordOffset.offset := by
  have h : Chain s := run_invariant_of_guarded
    (fun hi hG hs => hi.step hG.1 hG.2 hs)
    (Chain.new (Epochs.new hstore hd hroot hinc hold)) hsteps hrun
  have hn := h.epochs.inv.node j u hu
  have hle : t.offset ≤ u.completedTrim := by
    refine (hn.trims.ok t ht).returned ?_
    cases hphase : t.phase <;> simp_all [TrimPhase.returnedOk]
  constructor
  · intro hr
    refine hle.trans_lt (h.completedTrim_lt hu (fun b f hb hput => ?_) hr)
    obtain ⟨-, g, hg, hge⟩ := h.flushed_covered hu hb hput
    obtain ⟨l, hl, hlast, hlg⟩ := newest_of_listing h.epochs.inv hg
    exact ⟨l, h.epochs.inv.bucket.valid l hl, hlast, hge.trans hlg⟩
  · intro i w objects hw hturn hlist hr
    refine hle.trans_lt (h.completedTrim_lt hu (fun b f hb hput => ?_) hr)
    unfold Writer.objectList Writer.checkStatus at hlist
    split at hlist
    · cases hlist
    next hopen =>
      split at hlist
      · cases hlist
      · cases hlist
        exact h.last_objectList hw hturn (by simpa using hopen) hu hb hput

/-- The admitted record is placed, and its bulk sealed, uploaded and confirmed. -/
def confirmBulk (seq : Nat) : List WalAct :=
  [.place 0, .flush, .tryUpload, .uploadStart seq, .putLand seq, .putReturn seq true, .recv,
    .verify .held, .loadFenced, .completeBulk, .completeBulk]

/-- Epoch 1 puts two records into one bulk, trims the first and stops; epoch 2 runs `more` and
writes one record. -/
def reopenSchedule (more : List WalAct) : List ClusterAct :=
  let first : List WalAct := [.startVerify .held, .startList [], .submit ⟨5, 0, 0, 1, [1]⟩,
    .submit ⟨5, 0, 1, 1, [2]⟩, .place 0] ++ confirmBulk 1 ++ [.trimStart 0, .trimSubmit 0] ++
    confirmBulk 2 ++ [.trimProceed 0, .trimFinish 0, .close]
  let listed : List ObjectInfo := [⟨genObjectPathV1 oldOwner.root 1 0 dataFileAlignSize, 164⟩,
    ⟨genObjectPathV1 oldOwner.root 1 dataFileAlignSize (2 * dataFileAlignSize), 105⟩]
  let second : List WalAct := [.startVerify .held, .startList listed] ++ more ++
    [.submit ⟨5, 0, 2, 1, [3]⟩] ++ confirmBulk 1
  .acquire oldOwner.lease :: first.map (.node 0) ++
    .acquire newOwner.lease :: second.map (.node 1)

/-- The first header of the second writer says that nothing was trimmed: the record at offset 0
comes back after its trim returned Ok. -/
theorem trimmed_record_comes_back : ∃ (s : Cluster) (u : Writer) (t : TrimTask) (r : RecoverResult),
    run Cluster.step twoOwners (reopenSchedule []) = some s ∧
    Guarded Cluster.step InTurn twoOwners (reopenSchedule []) ∧
    s.nodes[0]? = some u ∧ t ∈ u.trims ∧ t.phase.returnedOk = true ∧
    .ok r ∈ recoverStream s.storage newOwner.readaheadDataSize
      (discoverWalObjects s.storage s.root) ∧ r.recordOffset.offset ≤ t.offset := by
  obtain ⟨s, hs, ⟨u, hu, ht⟩, hr⟩ : ∃ s,
      run step twoOwners (reopenSchedule []) = some s ∧
        (∃ u, s.nodes[0]? = some u ∧ ⟨0, .done (2, 0)⟩ ∈ u.trims) ∧
        .ok ⟨⟨5, 0, 0, 1, [1]⟩, 1, 0, 58⟩ ∈ recoverStream s.storage newOwner.readaheadDataSize
          (discoverWalObjects s.storage s.root) := by decide +kernel
  exact ⟨s, u, ⟨0, .done (2, 0)⟩, _, hs, by decide +kernel, hu, ht, rfl, hr, le_refl _⟩

/-- With a `reset` before its first append the second writer carries the trim. -/
theorem completed_trim_survives_reset : ∃ (s : Cluster) (u : Writer),
    run Cluster.step twoOwners (reopenSchedule [.reset]) = some s ∧ s.nodes[0]? = some u ∧
    ⟨0, .done (2, 0)⟩ ∈ u.trims ∧
    ∀ window r, .ok r ∈ recoverStream s.storage window (discoverWalObjects s.storage s.root) →
      0 < r.recordOffset.offset := by
  obtain ⟨s, hs, u, hu, ht⟩ : ∃ s,
      run step twoOwners (reopenSchedule [.reset]) = some s ∧
        ∃ u, s.nodes[0]? = some u ∧ ⟨0, .done (2, 0)⟩ ∈ u.trims := by decide +kernel
  refine ⟨s, u, hs, hu, ht, fun window r hr => ?_⟩
  have hlt := (completed_trim_survives
    ⟨fun f hf => (by cases hf), .nil⟩ .nil (by decide) (by decide) (fun f hf => by cases hf) hs
    (by decide +kernel) hu ht rfl).1 hr
  exact Int.natCast_pos.mp hlt

end Cluster

end S3Stream
