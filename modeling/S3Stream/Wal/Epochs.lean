import S3Stream.Wal.HandOff

/-! # Writers of increasing epochs

Any interleaving of writers whose epochs increase, zombies included. No delete ever removes the
newest object: behind every object that was stored, listed or deleted stands one that is still
in the bucket. -/

namespace S3Stream

open List

namespace WalFile

/-- The file is behind a position of the order of listings. -/
def Above (g : WalFile) (epoch start : Nat) : Prop :=
  epoch < g.epoch ∨ epoch = g.epoch ∧ start < g.startOffset

def AtLeast (g : WalFile) (epoch start : Nat) : Prop :=
  epoch < g.epoch ∨ epoch = g.epoch ∧ start ≤ g.startOffset

theorem AtLeast.trans {f g : WalFile} {epoch : Nat} (hf : f.AtLeast epoch start)
    (hg : g.AtLeast f.epoch f.startOffset) : g.AtLeast epoch start := by
  unfold AtLeast at *
  omega

theorem Above.trans {f g : WalFile} {epoch : Nat} (hf : f.Above epoch start)
    (hg : g.AtLeast f.epoch f.startOffset) : g.Above epoch start := by
  unfold AtLeast Above at *
  omega

theorem Above.atLeast {g : WalFile} {epoch : Nat} (h : g.Above epoch start) :
    g.AtLeast epoch start := by
  unfold AtLeast Above at *
  omega

theorem AtLeast.refl (g : WalFile) : g.AtLeast g.epoch g.startOffset := .inr ⟨rfl, le_refl _⟩

end WalFile

namespace Cluster

variable {s s' : Cluster} {x : ClusterAct} {w v : Writer} {i : Nat}

/-- Every file of the first list is reached by one of the second. -/
def Reaches (store store' : List WalFile) : Prop :=
  ∀ g ∈ store, ∃ g' ∈ store', g'.AtLeast g.epoch g.startOffset

def Covered (store : List WalFile) (epoch start : Nat) : Prop :=
  ∃ g ∈ store, g.AtLeast epoch start

def Superseded (store : List WalFile) (epoch start : Nat) : Prop :=
  ∃ g ∈ store, g.Above epoch start

theorem Reaches.covered {store : List WalFile} (h : Reaches store store')
    (hc : Covered store epoch start) : Covered store' epoch start := by
  obtain ⟨g, hg, hle⟩ := hc
  obtain ⟨g', hg', hle'⟩ := h g hg
  exact ⟨g', hg', hle.trans hle'⟩

theorem Reaches.superseded {store : List WalFile} (h : Reaches store store')
    (hc : Superseded store epoch start) : Superseded store' epoch start := by
  obtain ⟨g, hg, hlt⟩ := hc
  obtain ⟨g', hg', hle'⟩ := h g hg
  exact ⟨g', hg', hlt.trans hle'⟩

theorem Reaches.refl (store : List WalFile) : Reaches store store := fun g hg => ⟨g, hg, .refl g⟩

/-- What the nodes know of objects: their landed PUTs and previous objects are reached by the
bucket, their deletes are superseded in it. -/
structure NodeReach (store : List WalFile) (w : Writer) : Prop where
  landed : ∀ q ∈ w.puts, q.landed = true → Covered store q.file.epoch q.file.startOffset
  previous : ∀ o ∈ w.previousObjects, Covered store o.epoch o.startOffset
  sorted : w.previousObjects.Pairwise fun a b =>
    a.epoch < b.epoch ∨ a.epoch = b.epoch ∧ a.startOffset < b.startOffset
  deletes : ∀ d ∈ w.deletes, Superseded store d.epoch d.startOffset

theorem NodeReach.mono {store : List WalFile} (h : NodeReach store w) (hr : Reaches store store') :
    NodeReach store' w :=
  ⟨fun q hq hl => hr.covered (h.landed q hq hl), fun o ho => hr.covered (h.previous o ho),
    h.sorted, fun d hd => hr.superseded (h.deletes d hd)⟩

structure Epochs (s : Cluster) : Prop where
  inv : Inv s
  increasing : ∀ (i j : Nat) (u v : Writer), s.nodes[i]? = some u → s.nodes[j]? = some v →
    i < j → u.config.epoch < v.config.epoch
  origin : ∀ f ∈ s.store,
    (∀ (i : Nat) (w : Writer), s.nodes[i]? = some w → f.epoch < w.config.epoch) ∨
    ∃ (i : Nat) (w : Writer), s.nodes[i]? = some w ∧ ∃ b ∈ w.sealed, b.put = some f
  distinct : DistinctFiles s.store
  reach : ∀ (i : Nat) (w : Writer), s.nodes[i]? = some w → NodeReach s.store w

/-! ## The store never loses its newest file -/

theorem reaches_putFile {dir : Key} {store : List WalFile} (hf : f.Valid)
    (hstore : ∀ g ∈ store, g.Valid) : Reaches store (putFile (dir ++ ['/']) store f) := by
  intro g hg
  by_cases hkey : g.key (dir ++ ['/']) = f.key (dir ++ ['/'])
  · obtain ⟨hepoch, hstart, -⟩ := (hstore g hg).key_inj hf hkey
    exact ⟨f, mem_putFile.mpr (.inl rfl), .inr ⟨hepoch, hstart.le⟩⟩
  · exact ⟨g, mem_putFile.mpr (.inr ⟨hg, hkey⟩), .refl g⟩

theorem NodeInv.delete_file {root : Key} (h : NodeInv root w) (ho : o ∈ w.deletes) :
    ∃ f : WalFile, f.Valid ∧ o = f.toWalObject root := by
  rcases h.objects.deletes o ho with ⟨b, ⟨hb, -, f, hput, rfl⟩, -⟩ | ⟨⟨f, hf, rfl⟩, -⟩
  · exact ⟨f, h.pipeline.valid hb hput, by rw [h.root]⟩
  · exact ⟨f, hf, by rw [h.root]⟩

theorem reaches_delete (hi : Inv s) (hw : NodeInv s.root w) (ho : o ∈ w.deletes)
    (hsup : Superseded s.store o.epoch o.startOffset) :
    Reaches s.store (s.store.filter fun f => f.key s.root ≠ o.key) := by
  obtain ⟨f, hf, rfl⟩ := hw.delete_file ho
  obtain ⟨l, hl, hlt⟩ := hsup
  have hkey : ∀ {g : WalFile}, g ∈ s.store → g.key s.root = f.key s.root →
      g.epoch = f.epoch ∧ g.startOffset = f.startOffset := by
    intro g hg heq
    obtain ⟨he, hs, -⟩ := (hi.bucket.valid g hg).key_inj hf heq
    exact ⟨he, hs⟩
  -- The file that supersedes the deleted one has another key.
  have hlkeep : l ∈ s.store.filter fun g => g.key s.root ≠ (f.toWalObject s.root).key := by
    refine mem_filter.mpr ⟨hl, decide_eq_true fun heq => ?_⟩
    obtain ⟨he, hs⟩ := hkey hl heq
    simp only [WalFile.Above, WalFile.toWalObject] at hlt
    omega
  intro g hg
  by_cases heq : g.key s.root = f.key s.root
  · obtain ⟨he, hs⟩ := hkey hg heq
    refine ⟨l, hlkeep, ?_⟩
    rw [he, hs]
    exact hlt.atLeast
  · exact ⟨g, mem_filter.mpr ⟨hg, decide_eq_true heq⟩, .refl g⟩

theorem Inv.parse_listing (h : Inv s) : parseWalObjects s.listing =
    (s.store.insertionSort WalFile.Le).map (WalFile.toWalObject s.root) :=
  parseWalObjects_list h.bucket.valid

/-! ## What a node's action deletes is superseded -/

theorem newer_of_overlap (h : Inv s) (hd : d ∈ overlapObjects (parseWalObjects s.listing)) :
    ∃ g ∈ s.store, d.epoch < g.epoch := by
  have hsorted := pairwise_insertionSort WalFile.Le s.store
  have hmem : ∀ {g}, g ∈ s.store.insertionSort WalFile.Le → g ∈ s.store :=
    fun hg => (mem_insertionSort _).mp hg
  rw [h.parse_listing] at hd
  cases hl : s.store.insertionSort WalFile.Le with
  | nil =>
    rw [hl] at hd
    cases hd
  | cons f =>
    rw [hl] at hd hsorted hmem
    obtain ⟨y, hy, rfl⟩ := mem_map.mp hd
    obtain ⟨hy, hcond⟩ := mem_filter.mp hy
    obtain ⟨g, hg, rfl⟩ := mem_map.mp hy
    have hne := (of_decide_eq_true hcond).1
    have hle := (pairwise_cons.mp hsorted).1 g hg
    refine ⟨g, hmem (mem_cons_of_mem f hg), ?_⟩
    rcases hle with hlt | ⟨heq, -⟩
    · exact hlt
    · exact absurd heq hne

theorem superseded_of_overlap (h : Inv s) (hd : d ∈ overlapObjects (parseWalObjects s.listing)) :
    Superseded s.store d.epoch d.startOffset := by
  obtain ⟨g, hg, hlt⟩ := newer_of_overlap h hd
  exact ⟨g, hg, .inl hlt⟩

/-- The objects that `start` keeps are files of the bucket, in listing order. -/
theorem kept_of_listing (h : Inv s) (hd : DistinctFiles s.store) :
    (∀ o ∈ skipOverlapObjects (parseWalObjects s.listing), Covered s.store o.epoch o.startOffset) ∧
      (skipOverlapObjects (parseWalObjects s.listing)).Pairwise fun a b =>
        a.epoch < b.epoch ∨ a.epoch = b.epoch ∧ a.startOffset < b.startOffset := by
  have hsub := skipOverlapObjects_sublist (parseWalObjects s.listing)
  constructor
  · intro o ho
    have hmem := hsub.subset ho
    rw [h.parse_listing] at hmem
    obtain ⟨f, hf, rfl⟩ := mem_map.mp hmem
    exact ⟨f, (mem_insertionSort _).mp hf, .refl f⟩
  · refine List.Pairwise.sublist hsub ?_
    rw [h.parse_listing, pairwise_map]
    have hdist := hd.perm (perm_insertionSort WalFile.Le s.store)
    refine ((pairwise_insertionSort WalFile.Le s.store).and hdist).imp ?_
    rintro f g ⟨hle, hne⟩
    simp only [WalFile.Le, WalFile.toWalObject] at *
    omega

namespace NodeReach

variable {store : List WalFile} {dir : Key}

section

variable (h : NodeReach store w) (hi : NodeInv (dir ++ ['/']) w)

include h hi

theorem uploaded_covered (hb : w.Uploaded b o) : Covered store w.config.epoch b.baseOffset := by
  obtain ⟨hmem, hdone, f, hput, -⟩ := hb
  obtain ⟨q, hq, -, rfl, hland⟩ := hi.pipeline.puts.issued b hmem f hput
  obtain ⟨hstart, -, hepoch⟩ := hi.window hmem hput
  rw [← hstart, ← hepoch]
  exact h.landed q hq (hland hdone)

theorem superseded_of_covered (hd : d ∈ (w.coveredObjects offset).values) :
    Superseded store d.epoch d.startOffset := by
  obtain ⟨e, he, rfl⟩ := mem_map.mp hd
  obtain ⟨hmap, -, l, hl, hlt, -⟩ := Writer.mem_coveredObjects he
  obtain ⟨b, hb, hbk⟩ := hi.objects.entry e hmap
  obtain ⟨c, hc, hck⟩ := hi.objects.entry l hl
  obtain ⟨g, hg, hge⟩ := h.uploaded_covered hi hc
  obtain ⟨hbm, -, f, hput, hobj⟩ := hb
  obtain ⟨hcm, -, f', hput', -⟩ := hc
  obtain ⟨hstart, -, hepoch⟩ := hi.window hbm hput
  have hseq : b.seq < c.seq := by
    rcases lt_trichotomy b.seq c.seq with hlt' | heq | hgt
    · exact hlt'
    · rw [hi.pipeline.layout.eq_of_seq_eq hbm hcm heq] at hbk
      omega
    · have := hi.pipeline.lastRecordOffset_lt hcm hbm hput' hput hgt
      omega
  have hwin := hi.pipeline.endOffset_le_of_seq_lt hbm hcm hseq
  have hpos := Windows.Tiles.lo_lt_hi hi.pipeline.layout.tiles hbm
  refine ⟨g, hg, ?_⟩
  rw [hobj]
  simp only [WalFile.toWalObject, WalFile.Above, WalFile.AtLeast] at *
  omega

/-- A trim deletes previous objects only below the last one, or below an own one it keeps. -/
theorem superseded_of_previous (hd : d ∈ w.coveredPrevious offset) :
    Superseded store d.epoch d.startOffset := by
  have hd := (List.takeWhile_prefix _).subset hd
  have hmem : d ∈ w.previousObjects := mem_of_mem_take hd
  cases hcov : (w.coveredObjects offset).entries with
  | nil =>
    simp only [hcov, isEmpty_nil, if_true] at hd
    rw [← dropLast_eq_take] at hd
    obtain ⟨l, hl⟩ := Option.isSome_iff_exists.mp
      (getLast?_isSome.mpr (ne_nil_of_mem hmem))
    obtain ⟨ps, hps⟩ := getLast?_eq_some_iff.mp hl
    have hsorted := h.sorted
    obtain ⟨g, hg, hge⟩ := h.previous l (mem_of_getLast? hl)
    rw [hps, dropLast_concat] at hd
    rw [hps] at hsorted
    have hlt := (pairwise_append.mp hsorted).2.2 d hd l (mem_singleton.mpr rfl)
    refine ⟨g, hg, ?_⟩
    simp only [WalFile.Above, WalFile.AtLeast] at *
    omega
  | cons e =>
    have he : e ∈ w.coveredObjects offset := by
      rw [OrdMap.mem_def, hcov]
      exact mem_cons_self
    obtain ⟨-, -, l, hl, -⟩ := Writer.mem_coveredObjects he
    obtain ⟨b, hb, -⟩ := hi.objects.entry l hl
    obtain ⟨g, hg, hge⟩ := h.uploaded_covered hi hb
    have hlo := (Windows.Tiles.bounds hi.pipeline.layout.tiles hb.1).1
    refine ⟨g, hg, ?_⟩
    rcases (hi.objects.previous d hmem).2 with hidle | hbelow
    · have hnil := hidle.sealed ▸ hb.1
      cases hnil
    · simp only [WalFile.Above, WalFile.AtLeast] at *
      omega

end

end NodeReach

/-! ## Every action -/

theorem reaches_storeAfter (hi : Inv s) (hw : NodeInv s.root w) (a : WalAct) :
    Reaches s.store (s.storeAfter w a) := by
  rcases storeAfter_cases a with heq | ⟨q, hq, -, heq⟩
  · rw [heq]
    exact .refl _
  · rw [heq]
    exact reaches_putFile (hw.put_valid hq) hi.bucket.valid

theorem NodeReach.step (h : NodeReach s.store w) (hi : Inv s) (hd : DistinctFiles s.store)
    (hw : NodeInv s.root w) (hans : s.Answers w a) (hs : w.step a = some v) :
    NodeReach (s.storeAfter w a) v := by
  have hr := reaches_storeAfter hi hw a
  have hold := h.mono hr
  have hlanded : ∀ q ∈ v.puts, q.landed = true →
      Covered (s.storeAfter w a) q.file.epoch q.file.startOffset := by
    intro q hq hland
    rcases Writer.landed_origin hs hq hland with hq | ⟨rfl, q₀, hq₀, hseq, hfile⟩
    · exact hold.landed q hq hland
    · rw [← hseq, hw.storeAfter_putLand hq₀, ← hfile]
      exact ⟨q₀.file, mem_putFile.mpr (.inl rfl), .refl _⟩
  have hsame : v.previousObjects = w.previousObjects → v.deletes = w.deletes →
      NodeReach (s.storeAfter w a) v := fun hp hdel =>
    ⟨hlanded, fun o ho => hold.previous o (hp ▸ ho), hp ▸ hold.sorted,
      fun d hd => hold.deletes d (hdel ▸ hd)⟩
  cases Writer.effect_of_step hs with
  | startNewer =>
    obtain rfl := hans
    refine ⟨hlanded, hold.previous, hold.sorted, fun d hd => ?_⟩
    rcases mem_append.mp hd with hd | hd
    · exact hold.deletes d hd
    · exact hr.superseded (superseded_of_overlap hi hd)
  | started hstart =>
    obtain rfl := hans
    have hun := hw.untouched (by simp [hstart])
    obtain ⟨hcov, hsorted⟩ := kept_of_listing hi hd
    refine ⟨hlanded, fun o ho => ?_, ?_, fun d hd => ?_⟩
    · simp only [hun.previousObjects, nil_append] at ho
      exact hr.covered (hcov o ho)
    · simp only [hun.previousObjects, nil_append]
      exact hsorted
    · rcases mem_append.mp hd with hd | hd
      · exact hold.deletes d hd
      · exact hr.superseded (superseded_of_overlap hi hd)
  | trimProceed =>
    refine ⟨hlanded, fun o ho => hold.previous o (mem_of_mem_drop ho),
      hold.sorted.sublist (drop_sublist _ _), fun d hd => ?_⟩
    rcases mem_append.mp hd with hd | hd
    · exact hold.deletes d hd
    · rcases mem_append.mp hd with hd | hd
      · exact hr.superseded (h.superseded_of_covered hw hd)
      · exact hr.superseded (h.superseded_of_previous hw hd)
  | _ => exact hsame rfl rfl

namespace Epochs

theorem index_eq (h : Epochs s) (hw : s.nodes[i]? = some w) (hu : s.nodes[j]? = some u)
    (he : w.config.epoch = u.config.epoch) : i = j := by
  rcases lt_trichotomy i j with hlt | heq | hgt
  · have := h.increasing i j w u hw hu hlt
    omega
  · exact heq
  · have := h.increasing j i u w hu hw hgt
    omega

theorem distinct_putFile (h : Epochs s) (hw : s.nodes[i]? = some w) (hq : q ∈ w.puts) :
    DistinctFiles (putFile s.root s.store q.file) := by
  have hn := h.inv.node i w hw
  obtain ⟨b, hb, -, hput⟩ := hn.pipeline.puts.bulk q hq
  obtain ⟨hstart, -, hepoch⟩ := hn.window hb hput
  refine pairwise_append.mpr ⟨h.distinct.filter _, pairwise_singleton .., ?_⟩
  intro g hg f hf heq
  obtain rfl := mem_singleton.mp hf
  obtain ⟨hg, hkey⟩ := mem_filter.mp hg
  refine of_decide_eq_true hkey ?_
  -- A file of this epoch and start is the file of the same bulk.
  rcases h.origin g hg with hinit | ⟨j, u, hu, c, hc, hcp⟩
  · have := hinit i w hw
    omega
  · have hun := h.inv.node j u hu
    obtain ⟨hcs, -, hce⟩ := hun.window hc hcp
    obtain rfl := h.index_eq hw hu (by omega)
    cases hw.symm.trans hu
    have hbc : b = c := Windows.Tiles.eq_of_lo_eq hn.pipeline.layout.tiles hb hc (by omega)
    rw [← hbc, hput] at hcp
    rw [Option.some.inj hcp]

theorem step (h : Epochs s) (hs : s.step x = some s') : Epochs s' := by
  have hinv := h.inv.step hs
  cases effect_of_step hs with
  | acquire => exact ⟨hinv, h.increasing, h.origin, h.distinct, h.reach⟩
  | @deleteLand i o w hw ho =>
    have hr := reaches_delete h.inv (h.inv.node i w hw) ho ((h.reach i w hw).deletes o ho)
    exact ⟨hinv, h.increasing, fun f hf => h.origin f (mem_filter.mp hf).1,
      h.distinct.filter _, fun j v hv => (h.reach j v hv).mono hr⟩
  | @node i a w w' hw hans hstep =>
    have hn := h.inv.node i w hw
    have hcfg := Writer.config_step hstep
    have hconfig : ∀ {j : Nat} {u : Writer}, (s.nodes.set i w')[j]? = some u →
        ∃ u₀, s.nodes[j]? = some u₀ ∧ u.config = u₀.config := by
      intro j u hu
      rcases getElem?_set_cases hu with ⟨rfl, rfl⟩ | ⟨-, hu⟩
      · exact ⟨w, hw, hcfg⟩
      · exact ⟨u, hu, rfl⟩
    -- A bulk keeps its object.
    have hissued : ∀ f, (∃ b ∈ w.sealed, b.put = some f) → ∃ b ∈ w'.sealed, b.put = some f := by
      rintro f ⟨b, hb, hput⟩
      rcases (Writer.effect_of_step hstep).pipeline with heq | ⟨op, hop⟩
      · exact ⟨b, heq ▸ hb, hput⟩
      · obtain ⟨d, hd, -, hdp⟩ := Pipeline.issued_persists hn.pipeline
          (Pipeline.effect_of_step hop) hb hput
        exact ⟨d, hd, hdp⟩
    refine ⟨hinv, fun j k u v hu hv hlt => ?_, fun f hf => ?_, ?_, fun j v hv => ?_⟩
    · obtain ⟨u₀, hu₀, hcu⟩ := hconfig hu
      obtain ⟨v₀, hv₀, hcv⟩ := hconfig hv
      rw [hcu, hcv]
      exact h.increasing j k u₀ v₀ hu₀ hv₀ hlt
    · rcases mem_storeAfter_cases hf with hf | ⟨q, hq, rfl⟩
      · refine (h.origin f hf).imp (fun hinit j u hu => ?_) (Table.exists_set hw (hissued f))
        obtain ⟨u₀, hu₀, hcu⟩ := hconfig hu
        rw [hcu]
        exact hinit j u₀ hu₀
      · obtain ⟨b, hb, -, hput⟩ := hn.pipeline.puts.bulk q hq
        exact .inr (Table.exists_set hw (hissued _) ⟨i, w, hw, b, hb, hput⟩)
    · change DistinctFiles (s.storeAfter w a)
      rcases storeAfter_cases a with heq | ⟨q, hq, -, heq⟩
      · rw [heq]
        exact h.distinct
      · rw [heq]
        exact h.distinct_putFile hw hq
    · rcases getElem?_set_cases hv with ⟨rfl, rfl⟩ | ⟨-, hv⟩
      · exact (h.reach i w hw).step h.inv h.distinct hn hans hstep
      · exact (h.reach j v hv).mono (reaches_storeAfter h.inv hn a)

theorem new {dir : Key} {clusterId : List Char} {store : List WalFile}
    (hstore : Bucket (dir ++ ['/']) store) (hd : DistinctFiles store)
    (hroot : ∀ c ∈ configs, c.root = dir ++ ['/'])
    (hinc : configs.Pairwise fun c d => c.epoch < d.epoch)
    (hold : ∀ f ∈ store, ∀ c ∈ configs, f.epoch < c.epoch) :
    Epochs (Cluster.new dir clusterId store configs) := by
  refine ⟨Inv.new hstore hroot, fun i j u v hu hv hlt => ?_, fun f hf => .inl fun i w hw => ?_, hd,
    fun i w hw => ?_⟩
  · obtain ⟨c, hc, rfl⟩ := getElem?_new hu
    obtain ⟨d, hd, rfl⟩ := getElem?_new hv
    obtain ⟨hi, rfl⟩ := List.getElem?_eq_some_iff.mp hc
    obtain ⟨hj, rfl⟩ := List.getElem?_eq_some_iff.mp hd
    exact pairwise_iff_getElem.mp hinc i j hi hj hlt
  · obtain ⟨c, hc, rfl⟩ := getElem?_new hw
    exact hold f hf c (mem_of_getElem? hc)
  · obtain ⟨c, -, rfl⟩ := getElem?_new hw
    exact ⟨nofun, nofun, .nil, nofun⟩

end Epochs

end Cluster

end S3Stream
