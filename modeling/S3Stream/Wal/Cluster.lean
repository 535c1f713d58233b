import S3Stream.Wal.WriterTrim

/-! # Writers over one bucket

Any number of writers of one WAL, the objects of its prefix and the reservations. LIST and the
reservation are strongly consistent: what an action reports is what the state holds when it is
taken. A PUT or a delete that was issued takes effect at any later point or never. -/

namespace S3Stream

open List TransitionSystem

/-- `dir` is the key prefix of the WAL without its last slash. -/
structure Cluster where
  dir : Key
  clusterId : List Char
  store : List WalFile
  reservations : Storage
  nodes : List Writer

inductive ClusterAct where
  /-- Some process acquires a lease. -/
  | acquire (lease : Lease)
  | node (i : Nat) (a : WalAct)
  /-- A delete that node `i` has issued takes effect. -/
  | deleteLand (i : Nat) (o : WalObject)
  deriving DecidableEq

namespace Cluster

/-- Writers that have not been started over a bucket that holds `store`. -/
def new (dir : Key) (clusterId : List Char) (store : List WalFile) (configs : List WalConfig) :
    Cluster where
  dir := dir
  clusterId := clusterId
  store := store
  reservations := []
  nodes := configs.map Writer.new

def root (s : Cluster) : Key := s.dir ++ ['/']

/-- The bytes behind the files. -/
def storage (s : Cluster) : Storage := storageOf s.root s.store

def listing (s : Cluster) : List ObjectInfo := s.storage.list s.root

def verifies (s : Cluster) (w : Writer) : Bool :=
  Reservation.verify s.clusterId s.reservations w.config.lease

/-- The answer that an action carries is the one the bucket gives; any request may fail. -/
def Answers (s : Cluster) (w : Writer) : WalAct → Prop
  | .startVerify .held | .verify .held => s.verifies w = true
  | .startVerify .lost | .verify .lost => s.verifies w = false
  | .startList listed => listed = s.listing
  | _ => True

instance (s : Cluster) (w : Writer) (a : WalAct) : Decidable (s.Answers w a) := by
  induction a using WalAct.casesOn <;>
    (try induction ‹VerifyOutcome› using VerifyOutcome.casesOn) <;> dsimp only [Answers] <;>
    infer_instance

/-- A PUT replaces the object of its key. -/
def putFile (root : Key) (store : List WalFile) (f : WalFile) : List WalFile :=
  store.filter (fun g => g.key root ≠ f.key root) ++ [f]

/-- The store after an action of a writer. -/
def storeAfter (s : Cluster) (w : Writer) : WalAct → List WalFile
  | .putLand seq =>
    match w.puts.find? fun q => q.seq = seq with
    | some q => putFile s.root s.store q.file
    | none => s.store
  | _ => s.store

def step (s : Cluster) : ClusterAct → Option Cluster
  | .acquire lease => some { s with
      reservations := Reservation.acquire s.clusterId s.reservations lease }
  | .node i a =>
    match s.nodes[i]? with
    | none => none
    | some w =>
      if s.Answers w a then
        (w.step a).map fun w' => { s with nodes := s.nodes.set i w', store := s.storeAfter w a }
      else none
  | .deleteLand i o =>
    match s.nodes[i]? with
    | none => none
    | some w =>
      if o ∈ w.deletes then
        some { s with store := s.store.filter fun f => f.key s.root ≠ o.key }
      else none

variable {s s' : Cluster} {x : ClusterAct} {w : Writer} {i : Nat}

/-- Everything an action can do to the cluster. -/
inductive Effect (s : Cluster) : ClusterAct → Cluster → Prop where
  | acquire {lease : Lease} : Effect s (.acquire lease) { s with
      reservations := Reservation.acquire s.clusterId s.reservations lease }
  | node {i : Nat} {a : WalAct} {w w' : Writer} (hw : s.nodes[i]? = some w)
      (hans : s.Answers w a) (hstep : w.step a = some w') :
    Effect s (.node i a) { s with nodes := s.nodes.set i w', store := s.storeAfter w a }
  | deleteLand {i : Nat} {o : WalObject} {w : Writer} (hw : s.nodes[i]? = some w)
      (ho : o ∈ w.deletes) :
    Effect s (.deleteLand i o) { s with store := s.store.filter fun f => f.key s.root ≠ o.key }

theorem effect_of_step (h : s.step x = some s') : Effect s x s' := by
  cases x with
  | acquire => cases h; exact .acquire
  | node =>
    simp only [step] at h
    split at h
    next => cases h
    next hw =>
      split at h
      next hans =>
        obtain ⟨w', hstep, rfl⟩ := Option.map_eq_some_iff.mp h
        exact .node hw hans hstep
      next => cases h
  | deleteLand =>
    simp only [step] at h
    split at h
    next => cases h
    next hw =>
      split at h <;> cases h
      next ho => exact .deleteLand hw ho

/-! ## The store -/

theorem mem_putFile {root : Key} {store : List WalFile} :
    g ∈ putFile root store f ↔ g = f ∨ g ∈ store ∧ g.key root ≠ f.key root := by
  simp [putFile, or_comm]

/-- The objects of the bucket: well-formed files under different keys. -/
structure Bucket (root : Key) (store : List WalFile) : Prop where
  valid : ∀ f ∈ store, f.Valid
  keys : store.Pairwise fun f g => f.key root ≠ g.key root

theorem Bucket.filter {root : Key} {store : List WalFile} (h : Bucket root store)
    (p : WalFile → Bool) : Bucket root (store.filter p) :=
  ⟨fun f hf => h.valid f (mem_filter.mp hf).1, h.keys.filter p⟩

theorem Bucket.putFile {root : Key} {store : List WalFile} (h : Bucket root store) (hf : f.Valid) :
    Bucket root (putFile root store f) := by
  constructor
  · intro g hg
    rcases mem_putFile.mp hg with rfl | ⟨hg, -⟩
    · exact hf
    · exact h.valid g hg
  · refine pairwise_append.mpr ⟨h.keys.filter _, pairwise_singleton .., ?_⟩
    intro a ha b hb
    rw [mem_singleton.mp hb]
    simpa using (mem_filter.mp ha).2

theorem storeAfter_cases (a : WalAct) : s.storeAfter w a = s.store ∨
    ∃ q ∈ w.puts, a = .putLand q.seq ∧ s.storeAfter w a = putFile s.root s.store q.file := by
  cases a with
  | putLand seq =>
    simp only [storeAfter]
    split
    next q hq =>
      have hseq : q.seq = seq := by simpa using find?_some hq
      exact .inr ⟨q, mem_of_find?_eq_some hq, hseq ▸ rfl, rfl⟩
    next => exact .inl rfl
  | _ => exact .inl rfl

theorem mem_storeAfter_cases (hf : f ∈ s.storeAfter w a) :
    f ∈ s.store ∨ ∃ q ∈ w.puts, q.file = f := by
  rcases storeAfter_cases a with heq | ⟨q, hq, -, heq⟩
  · exact .inl (heq ▸ hf)
  · rw [heq] at hf
    rcases mem_putFile.mp hf with rfl | ⟨hf, -⟩
    · exact .inr ⟨q, hq, rfl⟩
    · exact .inl hf

section listing

variable {dir : Key} {store : List WalFile}

theorem Bucket.object_nodup (h : Bucket (dir ++ ['/']) store) :
    ((store.insertionSort WalFile.Le).map (WalFile.toWalObject (dir ++ ['/']))).Nodup := by
  have hperm := (perm_insertionSort WalFile.Le store).map (WalFile.toWalObject (dir ++ ['/']))
  refine hperm.nodup_iff.mpr (pairwise_map.mpr (h.keys.imp fun hne heq => hne ?_))
  exact congrArg WalObject.key heq

theorem Bucket.wellListed (h : Bucket (dir ++ ['/']) store) :
    Writer.WellListed (Writer.OfFile (dir ++ ['/']))
      ((storageOf (dir ++ ['/']) store).list (dir ++ ['/'])) := by
  have hsorted : ((store.insertionSort WalFile.Le).map
      (WalFile.toWalObject (dir ++ ['/']))).Pairwise WalObject.Le :=
    pairwise_map.mpr (pairwise_insertionSort WalFile.Le store)
  rw [Writer.WellListed, parseWalObjects_list h.valid]
  intro o ho
  refine ⟨?_, exists_last_skipOverlapObjects hsorted h.object_nodup ?_ ho⟩
  · obtain ⟨f, hf, rfl⟩ := mem_map.mp ho
    exact ⟨f, h.valid f ((mem_insertionSort _).mp hf), rfl⟩
  · intro x hx
    obtain ⟨f, hf, rfl⟩ := mem_map.mp hx
    exact (h.valid f ((mem_insertionSort _).mp hf)).start_lt_end

end listing

/-! ## Every node keeps its invariants -/

structure NodeInv (root : Key) (w : Writer) : Prop where
  root : w.config.root = root
  pipeline : w.toPipeline.Inv
  untouched : w.start ≠ .returned → w.Untouched
  trims : w.Trims
  objects : w.Objects (Writer.OfFile w.config.root)

structure Inv (s : Cluster) : Prop where
  bucket : Bucket s.root s.store
  node : ∀ (i : Nat) (w : Writer), s.nodes[i]? = some w → NodeInv s.root w

theorem NodeInv.new {root : Key} (h : c.root = root) : NodeInv root (Writer.new c) :=
  ⟨h, Pipeline.Inv.new c, fun _ => Writer.Untouched.new c, Writer.Trims.new c,
    Writer.Objects.new c⟩

theorem NodeInv.step {root : Key} {w w' : Writer} {a : WalAct} (h : NodeInv root w)
    (hs : w.step a = some w')
    (hlisted : ∀ listed, a = .startList listed → Writer.WellListed (Writer.OfFile root) listed) :
    NodeInv root w' where
  root := (Writer.config_step hs) ▸ h.root
  pipeline := Writer.pipelineInv_step h.pipeline hs
  untouched := Writer.Untouched.step h.untouched (Writer.effect_of_step hs)
  trims := h.trims.step h.pipeline (Writer.effect_of_step hs)
  objects := by
    rw [Writer.config_step hs]
    exact h.objects.step h.pipeline hs h.trims h.untouched (h.root ▸ hlisted)

theorem NodeInv.put_valid {root : Key} (h : NodeInv root w) (hq : q ∈ w.puts) : q.file.Valid := by
  obtain ⟨b, hb, -, hput⟩ := h.pipeline.puts.bulk q hq
  exact h.pipeline.valid hb hput

theorem getElem?_set_cases {nodes : List Writer} (h : (nodes.set i v)[j]? = some v') :
    i = j ∧ v' = v ∨ i ≠ j ∧ nodes[j]? = some v' :=
  (Table.of_getElem?_set h).symm.imp (.imp_left Eq.symm) (.imp_left Ne.symm)

theorem config_run {j : Nat} (h : run Cluster.step s xs = some s')
    (hv : s'.nodes[j]? = some v) : ∃ u, s.nodes[j]? = some u ∧ v.config = u.config := by
  induction xs generalizing s with
  | nil => cases h; exact ⟨v, hv, rfl⟩
  | cons x xs ih =>
    obtain ⟨m, hx, hxs⟩ := run_cons.mp h
    obtain ⟨u, hu, hcfg⟩ := ih hxs
    cases effect_of_step hx with
    | acquire => exact ⟨u, hu, hcfg⟩
    | deleteLand => exact ⟨u, hu, hcfg⟩
    | node hw hans hstep =>
      rcases getElem?_set_cases hu with ⟨rfl, rfl⟩ | ⟨-, hu⟩
      · exact ⟨_, hw, hcfg.trans (Writer.config_step hstep)⟩
      · exact ⟨u, hu, hcfg⟩

theorem Inv.step (h : Inv s) (hs : s.step x = some s') : Inv s' := by
  cases effect_of_step hs with
  | acquire => exact ⟨h.bucket, h.node⟩
  | @node i a w w' hw hans hstep =>
    have hnode := h.node i w hw
    constructor
    · rcases storeAfter_cases (s := s) (w := w) a with heq | ⟨q, hq, -, heq⟩
      · simp only [heq]
        exact h.bucket
      · simp only [heq]
        exact h.bucket.putFile (hnode.put_valid hq)
    · intro j v hv
      rcases getElem?_set_cases hv with ⟨rfl, rfl⟩ | ⟨-, hv⟩
      · refine hnode.step hstep fun listed ha => ?_
        subst ha
        obtain rfl : listed = s.listing := hans
        exact h.bucket.wellListed
      · exact h.node j v hv
  | deleteLand => exact ⟨h.bucket.filter _, h.node⟩

theorem getElem?_new {dir : Key} {clusterId : List Char} {store : List WalFile}
    (h : (new dir clusterId store configs).nodes[i]? = some w) :
    ∃ c, configs[i]? = some c ∧ w = Writer.new c := by
  simp only [Cluster.new, getElem?_map, Option.map_eq_some_iff] at h
  obtain ⟨c, hc, rfl⟩ := h
  exact ⟨c, hc, rfl⟩

theorem Inv.new {dir : Key} {clusterId : List Char} {store : List WalFile}
    (hstore : Bucket (dir ++ ['/']) store) (hroot : ∀ c ∈ configs, c.root = dir ++ ['/']) :
    Inv (new dir clusterId store configs) := by
  refine ⟨hstore, fun i w hw => ?_⟩
  obtain ⟨c, hc, rfl⟩ := getElem?_new hw
  exact .new (hroot c (mem_of_getElem? hc))

/-- **In every reachable cluster the bucket and every node are well formed.** -/
theorem Inv.run (h : Inv s) (hrun : run Cluster.step s xs = some s') : Inv s' :=
  run_invariant (fun hi hs => hi.step hs) h hrun

/-! ## The files of one node -/

namespace NodeInv

variable {dir : Key} {b d : UploadingBulk} {f g : WalFile}

theorem window (h : NodeInv (dir ++ ['/']) w) (hb : b ∈ w.sealed) (hput : b.put = some f) :
    f.startOffset = b.baseOffset ∧ f.endOffset = b.endOffsetAligned ∧ f.epoch = w.config.epoch :=
  (h.pipeline.layout.ok b hb).window hput

theorem storeAfter_putLand (h : NodeInv s.root w) (hq : q ∈ w.puts) :
    s.storeAfter w (.putLand q.seq) = putFile s.root s.store q.file := by
  obtain ⟨q₁, hq₁, hfile⟩ := h.pipeline.find?_put hq
  simp only [storeAfter, hq₁, hfile]

/-- A delete that would remove a node's own object is the delete of a trimmed one. -/
theorem trimmed_of_delete (h : NodeInv (dir ++ ['/']) w) (hb : b ∈ w.sealed)
    (hput : b.put = some f) (ho : o ∈ w.deletes) (hkey : o.key = f.key (dir ++ ['/'])) :
    o = f.toWalObject (dir ++ ['/']) ∧ w.Trimmed b := by
  refine h.objects.trimmed_of_delete h.pipeline ?_ h.root hb hput ho hkey
  rintro o ⟨g, hg, rfl⟩
  rw [h.root]
  exact hg.parseWalObject_info dir

end NodeInv

/-- Every landed PUT of the node is in the bucket, or its delete was issued. -/
def Tracks (s : Cluster) (w : Writer) : Prop :=
  ∀ q ∈ w.puts, q.landed = true → q.file ∈ s.store ∨ q.file.toWalObject s.root ∈ w.deletes

theorem mem_storeAfter_of_mem (hf : f ∈ s.store)
    (hsame : ∀ q ∈ w.puts, f.key s.root = q.file.key s.root → f = q.file) (a : WalAct) :
    f ∈ s.storeAfter w a := by
  rcases storeAfter_cases a with heq | ⟨q, hq, -, heq⟩
  · rwa [heq]
  · rw [heq]
    by_cases hkey : f.key s.root = q.file.key s.root
    · exact mem_putFile.mpr (.inl (hsame q hq hkey))
    · exact mem_putFile.mpr (.inr ⟨hf, hkey⟩)

theorem NodeInv.file_eq (hi : NodeInv s.root w) (hq : q ∈ w.puts) (hq' : q' ∈ w.puts)
    (hkey : q.file.key s.root = q'.file.key s.root) : q.file = q'.file := by
  obtain ⟨b, hb, -, hput⟩ := hi.pipeline.puts.bulk q hq
  obtain ⟨d, hd, -, hput'⟩ := hi.pipeline.puts.bulk q' hq'
  obtain rfl := hi.pipeline.eq_of_key_eq hb hd hput hput' hkey
  exact Option.some.inj (hput.symm.trans hput')

theorem Tracks.node (h : s.Tracks w) (hi : NodeInv s.root w) (hs : w.step a = some w') :
    Tracks { s with nodes := s.nodes.set i w', store := s.storeAfter w a } w' := by
  intro q hq hland
  rcases Writer.landed_origin hs hq hland with hq | ⟨rfl, q₀, hq₀, hseq, hfile⟩
  · rcases h q hq hland with hf | hd
    · exact .inl (mem_storeAfter_of_mem hf (fun _ => hi.file_eq hq) a)
    · exact .inr (Writer.deletes_subset_step hs hd)
  · left
    rw [← hseq, hi.storeAfter_putLand hq₀, hfile]
    exact mem_putFile.mpr (.inl rfl)

theorem Tracks.deleteLand (h : s.Tracks w) (hi : NodeInv s.root w) (ho : o ∈ w.deletes) :
    Tracks { s with store := s.store.filter fun f => f.key s.root ≠ o.key } w := by
  intro q hq hland
  rcases h q hq hland with hf | hd
  · by_cases hkey : q.file.key s.root = o.key
    · obtain ⟨b, hb, -, hput⟩ := hi.pipeline.puts.bulk q hq
      obtain ⟨rfl, -⟩ := hi.trimmed_of_delete hb hput ho hkey.symm
      exact .inr ho
    · exact .inl (mem_filter.mpr ⟨hf, decide_eq_true hkey⟩)
  · exact .inr hd

/-- An uploaded bulk of a tracked node is in the bucket unless it was trimmed. -/
theorem Tracks.mem_store (h : s.Tracks w) (hi : NodeInv s.root w) (hb : b ∈ w.sealed)
    (hput : b.put = some f) (hdone : b.done = some true) : f ∈ s.store ∨ w.Trimmed b := by
  obtain ⟨q, hq, -, rfl, hland⟩ := hi.pipeline.puts.issued b hb f hput
  refine (h q hq (hland hdone)).imp_right fun hd => ?_
  exact (hi.trimmed_of_delete hb hput hd rfl).2

end Cluster

end S3Stream
