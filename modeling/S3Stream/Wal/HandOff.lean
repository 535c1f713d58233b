import S3Stream.Wal.Cluster

/-! # Hand-off to a newer owner

An old writer and a take-over of the same WAL. A record that the old writer acknowledges has been
PUT before a lease check that held, hence before the take-over acquired its lease, hence before
the take-over listed the bucket. -/

namespace S3Stream

open List TransitionSystem Cluster

namespace Pipeline

variable {p p' : Pipeline} {op : PipeOp}

/-- The bulks that may still be acknowledged Ok without another lease check that holds. -/
def confirmable (p : Pipeline) : List UploadingBulk :=
  p.flushed ++ match p.callback with
    | .completing false bs => bs
    | .verified bs => if p.fenced then [] else bs
    | _ => []

theorem confirmable_subset (hfl : p'.flushed = p.flushed) (hcb : p'.callback = p.callback)
    (hf : p.fenced = true → p'.fenced = true) : p'.confirmable ⊆ p.confirmable := by
  unfold confirmable
  rw [hfl, hcb]
  cases p.callback with
  | verified =>
    cases hp : p.fenced with
    | true => simp [hf hp]
    | false => cases p'.fenced <;> simp
  | completing fenced => cases fenced <;> exact List.Subset.refl _
  | idle | popped => exact List.Subset.refl _

theorem confirmable_step (h : p.step op = some p') (hop : op ≠ .verify .held) :
    p'.confirmable ⊆ p.confirmable := by
  cases effect_of_step h with
  | place =>
    have hq := Fills.place p ‹_›
    exact confirmable_subset hq.flushed hq.callback fun hf => hq.fenced.trans hf
  | sealActive =>
    have hq := Fills.sealActive p
    exact confirmable_subset hq.flushed hq.callback fun hf => hq.fenced.trans hf
  | fence => exact confirmable_subset rfl rfl fun _ => rfl
  | putReturn => exact confirmable_subset rfl rfl fun hf => by simp [hf]
  | recv hidle hcb =>
    rcases hcb with ⟨rfl, -⟩ | rfl <;> simp [confirmable]
  | @verify bs outcome =>
    have hne : outcome ≠ .held := fun heq => hop (heq ▸ rfl)
    simp [confirmable, hne]
  | @loadFenced bs hcb =>
    cases hf : p.fenced <;> simp [confirmable, hcb, hf]
  | finish => simp [confirmable]
  | fail => simp [confirmable]
  | flush hcb => simp [confirmable, hcb]
  | _ => exact List.Subset.refl _

theorem Inv.confirmable_done (hi : Inv p) (hb : b ∈ p.confirmable) :
    b ∈ p.sealed ∧ b.done = some true := by
  rcases mem_append.mp hb with hb | hb
  · exact ⟨mem_sealed_of_mem_flushed hb, hi.flush.flushed_done b hb⟩
  · have hin : b ∈ p.callback.bulks → b ∈ p.sealed := fun h => by simp [sealed, h]
    cases hcb : p.callback with
    | completing fenced bs =>
      cases fenced with
      | true => simp [hcb] at hb
      | false =>
        simp only [hcb] at hb
        exact ⟨hin (by rw [hcb]; exact hb), hi.flush.completing_done bs hcb b hb⟩
    | verified =>
      cases hf : p.fenced with
      | true => simp [hcb, hf] at hb
      | false =>
        simp only [hcb, hf, Bool.false_eq_true, if_false] at hb
        have hmem : b ∈ p.callback.bulks := by
          rw [hcb]
          exact hb
        obtain ⟨ok, hok⟩ := Option.isSome_iff_exists.mp (hi.flush.callback_done b hmem)
        cases ok with
        | true => exact ⟨hin hmem, hok⟩
        | false => cases hf.symm.trans (hi.flush.failed_put b (hin hmem) hok)
    | idle | popped => simp [hcb] at hb

end Pipeline

namespace Cluster

variable {s s' : Cluster} {x : ClusterAct} {xs : List ClusterAct} {w v : Writer}

/-! ## Leases along a run -/

/-- The leases that a schedule acquires, in order. -/
def acquired (xs : List ClusterAct) : List Lease :=
  xs.filterMap fun
    | .acquire lease => some lease
    | _ => none

/-- The acquires of every node are issued in increasing order. -/
def IncreasingAcquires (xs : List ClusterAct) : Prop :=
  (acquired xs).Pairwise fun a b => a.nodeId = b.nodeId → a.Older b

theorem reservations_run (h : run step s xs = some s') :
    s'.clusterId = s.clusterId ∧ s'.reservations =
      Reservation.acquireAll s.clusterId s.reservations (acquired xs) := by
  induction xs generalizing s with
  | nil => cases h; exact ⟨rfl, rfl⟩
  | cons x xs ih =>
    obtain ⟨m, hx, hxs⟩ := run_cons.mp h
    obtain ⟨hid, hres⟩ := ih hxs
    cases effect_of_step hx with
    | acquire => exact ⟨hid, hres⟩
    | node => exact ⟨hid, hres⟩
    | deleteLand => exact ⟨hid, hres⟩

theorem mem_acquired_of_verifies (h : run step s xs = some s')
    (hfree : s.reservations = []) (hv : s'.verifies w = true) : w.config.lease ∈ acquired xs := by
  obtain ⟨hid, hres⟩ := reservations_run h
  rw [verifies, hid, hres, hfree] at hv
  rcases Reservation.mem_or_verify_of_verify_acquireAll _ hv with hmem | hempty
  · exact hmem
  · cases hempty

theorem not_verifies_of_newer (h : run step s xs = some s')
    (hinc : IncreasingAcquires xs) {new : Lease} (hnew : new ∈ acquired xs)
    (hnode : w.config.lease.nodeId = new.nodeId) (holder : w.config.lease.Older new) :
    s'.verifies w = false := by
  obtain ⟨hid, hres⟩ := reservations_run h
  rw [verifies, hid, hres]
  exact Reservation.verify_acquireAll_of_older _ hinc hnew hnode holder

theorem acquired_append (xs ys : List ClusterAct) :
    acquired (xs ++ ys) = acquired xs ++ acquired ys :=
  filterMap_append

/-! ## Who has listed -/

/-- The writer has listed the bucket and may have taken records since. -/
def Listed (w : Writer) : Prop := w.start = .returned ∧ ¬ w.Idle

theorem NodeInv.listed_of_sealed {root : Key} (h : NodeInv root w) (hb : b ∈ w.sealed) :
    Listed w := by
  constructor
  · by_contra hne
    rw [(h.untouched hne).quiet.sealed] at hb
    cases hb
  · intro hidle
    rw [hidle.sealed] at hb
    cases hb

theorem listed_step (hu : w.start ≠ .returned → w.Untouched) (hi : w.toPipeline.Inv)
    (hs : w.step a = some v) (hl : Listed v) : Listed w ∧ v.startOffset = w.startOffset ∨
      w.start = .verified ∧ ∃ listed, a = .startList listed ∧
        v.startOffset = Writer.listedEnd listed := by
  have heff := Writer.effect_of_step hs
  by_cases hret : w.start = .returned
  · refine .inl ⟨⟨hret, fun hidle => hl.2 (hidle.step hi hs)⟩, ?_⟩
    rcases Writer.startOffset_step heff with heq | ⟨listed, hver, -⟩
    · exact heq
    · cases hret.symm.trans hver
  · have hun := (hu hret).quiet
    have hclosed := (hu hret).closed
    have hl' := hl
    cases heff with
    | startLost | startError | startNewer =>
      exact absurd ⟨rfl, hclosed, hun.admitted, hun.trims, hun.sealed, hun.active⟩ hl'.2
    | @started listed offset hver hepoch hoffset => exact .inr ⟨hver, listed, rfl, hoffset⟩
    | startHeld => cases hl'.1
    | _ => exact absurd hl'.1 hret

/-- A writer gets past the lease check of `start` only after its lease was acquired. -/
theorem mem_acquired_of_listed (hi : Inv s) (hfree : s.reservations = [])
    (hnew : ∀ (i : Nat) (u : Writer), s.nodes[i]? = some u → u.start = .created)
    (h : run step s xs = some s') {i : Nat}
    (hv : s'.nodes[i]? = some v) (hstart : v.start = .verified ∨ Listed v) :
    v.config.lease ∈ acquired xs := by
  -- From the last action backwards, to the one that passed the check.
  induction xs using reverseRecOn generalizing s' v with
  | nil =>
    cases h
    rcases hstart with hver | hl
    · cases (hnew i v hv).symm.trans hver
    · cases (hnew i v hv).symm.trans hl.1
  | append_singleton ys x ih =>
    obtain ⟨m, hys, hx⟩ := run_append.mp h
    obtain ⟨m', hx, hnil⟩ := run_cons.mp hx
    cases hnil
    rw [acquired_append]
    apply mem_append_left
    cases effect_of_step hx with
    | acquire => exact ih hys hv hstart
    | deleteLand => exact ih hys hv hstart
    | @node j a u u' hu hans hstep =>
      rcases getElem?_set_cases hv with ⟨rfl, rfl⟩ | ⟨-, hv⟩
      · rw [Writer.config_step hstep]
        have hn := (hi.run hys).node j u hu
        rcases hstart with hver | hl
        · cases Writer.effect_of_step hstep with
          | startHeld => exact mem_acquired_of_verifies hys hfree hans
          | startLost | startError | startNewer | started => cases hver
          | _ => exact ih hys hu (.inl hver)
        · rcases listed_step hn.untouched hn.pipeline hstep hl with ⟨hl, -⟩ | ⟨hver, -⟩
          · exact ih hys hu (.inr hl)
          · exact ih hys hu (.inl hver)
      · exact ih hys hv hstart

/-! ## The old writer behind the take-over -/

theorem confirmable_node (h : w.step a = some v) (ha : a ≠ .verify .held) :
    v.confirmable ⊆ w.confirmable := by
  have hop : ∀ {op}, w.toPipeline.step op = some v.toPipeline → op ≠ .verify .held →
      v.confirmable ⊆ w.confirmable := fun hp hne => Pipeline.confirmable_step hp hne
  cases Writer.effect_of_step h with
  | place hd hp => exact hop hp (by simp)
  | putReturn hb hp => exact hop hp (by simp)
  | pipe hpo hp hl hs hverify =>
    refine hop hp fun heq => ha ?_
    exact hverify _ heq
  | startLost | startNewer => exact Pipeline.confirmable_subset rfl rfl fun _ => rfl
  | _ => exact Pipeline.confirmable_subset rfl rfl id

/-- Without a lease check that holds, nothing new becomes acknowledgeable. -/
theorem confirmable_run (h : run step s xs = some s')
    (hno : .node 0 (.verify .held) ∉ xs) (hw : s.nodes[0]? = some w) (hv : s'.nodes[0]? = some v) :
    v.confirmable ⊆ w.confirmable ∧ v.config = w.config := by
  induction xs generalizing s w with
  | nil =>
    cases h
    cases hw.symm.trans hv
    exact ⟨List.Subset.refl _, rfl⟩
  | cons x xs ih =>
    obtain ⟨m, hx, hxs⟩ := run_cons.mp h
    have hno' := fun hmem => hno (mem_cons_of_mem x hmem)
    cases effect_of_step hx with
    | acquire => exact ih hxs hno' hw
    | deleteLand => exact ih hxs hno' hw
    | @node i a u u' hu hans hstep =>
      cases i with
      | zero =>
        cases hw.symm.trans hu
        have hlt := of_getElem?_eq_some hw
        obtain ⟨hsub, hcfg⟩ := ih hxs hno' (w := u') (by simp [hlt])
        have hstep' := confirmable_node hstep fun ha => hno (by rw [ha]; exact mem_cons_self)
        exact ⟨List.Subset.trans hsub hstep', hcfg.trans (Writer.config_step hstep)⟩
      | succ => exact ih hxs hno' (by simpa using hw)

/-- Behind the acquire of a newer lease no lease check of the old writer holds. -/
theorem held_not_mem_of_newer {new : Lease} (hinc : IncreasingAcquires (pre ++ ys))
    (hpre : run step s pre = some s₁)
    (hys : run step s₁ ys = some s') (hacq : new ∈ acquired pre)
    (hold : s.nodes[0]? = some (Writer.new old)) (hnode : old.nodeId = new.nodeId)
    (holder : old.lease.Older new) : .node 0 (.verify .held) ∉ ys := by
  intro hmem
  obtain ⟨before, after, rfl⟩ := append_of_mem hmem
  obtain ⟨t, hbefore, hafter⟩ := run_append.mp hys
  obtain ⟨t', hheld, -⟩ := run_cons.mp hafter
  have hrun := run_append.mpr ⟨s₁, hpre, hbefore⟩
  have hnew : new ∈ acquired (pre ++ before) := by
    rw [acquired_append]
    exact mem_append_left _ hacq
  have hinc' : IncreasingAcquires (pre ++ before) := by
    unfold IncreasingAcquires at hinc ⊢
    rw [← append_assoc, acquired_append] at hinc
    exact (pairwise_append.mp hinc).1
  cases effect_of_step hheld with
  | @node i a u u' hu hans =>
    obtain ⟨_, hc, hcfg⟩ := config_run hrun hu
    cases hold.symm.trans hc
    have hfalse := not_verifies_of_newer hrun hinc' hnew (by rw [hcfg]; exact hnode)
      (by rw [hcfg]; exact holder)
    cases hfalse.symm.trans hans

/-- An old writer and its take-over: until the take-over has started, only the old writer
touches its objects. -/
structure Pair (s : Cluster) (w v : Writer) : Prop where
  inv : Inv s
  nodes : s.nodes = [w, v]
  tracks : v.start ≠ .returned → s.Tracks w

theorem Pair.step (h : Pair s w v) (hs : s.step x = some s') : ∃ w' v', Pair s' w' v' := by
  have hinv := h.inv.step hs
  have hw := h.inv.node 0 w (by simp [h.nodes])
  have hv := h.inv.node 1 v (by simp [h.nodes])
  cases effect_of_step hs with
  | acquire => exact ⟨w, v, hinv, h.nodes, h.tracks⟩
  | @node i a u u' hu hans hstep =>
    rw [h.nodes] at hu
    match i with
    | 0 =>
      obtain rfl : w = u := by simpa using hu
      exact ⟨u', v, hinv, by simp [h.nodes], fun hstart => (h.tracks hstart).node hw hstep⟩
    | 1 =>
      obtain rfl : v = u := by simpa using hu
      refine ⟨w, u', hinv, by simp [h.nodes], fun hstart => ?_⟩
      have hbefore : v.start ≠ .returned := fun hret =>
        hstart ((Writer.effect_of_step hstep).start_returned hret)
      -- A take-over that has not started has no PUT that could land.
      have hstore : s.storeAfter v a = s.store := by
        rcases storeAfter_cases a with heq | ⟨q, hq, -⟩
        · exact heq
        · rw [(hv.untouched hbefore).pipeline] at hq
          cases hq
      intro q hq hland
      rw [hstore]
      exact h.tracks hbefore q hq hland
    | n + 2 => simp at hu
  | @deleteLand i o u hu ho =>
    rw [h.nodes] at hu
    refine ⟨w, v, hinv, h.nodes, fun hstart => ?_⟩
    match i with
    | 0 =>
      obtain rfl : w = u := by simpa using hu
      exact (h.tracks hstart).deleteLand hw ho
    | 1 =>
      obtain rfl : v = u := by simpa using hu
      rw [(hv.untouched hstart).deletes] at ho
      cases ho
    | n + 2 => simp at hu

theorem Pair.run (h : Pair s w v) (hrun : run Cluster.step s xs = some s') :
    ∃ w' v', Pair s' w' v' :=
  run_invariant (I := fun s => ∃ w v, Pair s w v)
    (fun ⟨_, _, hp⟩ hs => hp.step hs) ⟨w, v, h⟩ hrun

theorem Pair.new {new : WalConfig} {clusterId : List Char} {store : List WalFile}
    (hroot : new.root = old.root) (hstore : Bucket old.root store) :
    Pair (Cluster.new old.dir clusterId store [old, new]) (Writer.new old) (Writer.new new) := by
  refine ⟨Inv.new (old.root_eq ▸ hstore) fun c hc => ?_, rfl, nofun⟩
  rcases mem_cons.mp hc with rfl | hc
  · exact c.root_eq
  · rw [mem_singleton.mp hc, hroot]
    exact old.root_eq

/-- What may be acknowledged when the take-over lists is in the bucket, or trimmed. -/
theorem Pair.confirmable_stored (h : Pair s w v) (hstart : v.start ≠ .returned)
    (hb : b ∈ w.confirmable) (hr : r ∈ b.records) :
    (∃ t ∈ w.trims, (r.offset : Int) ≤ t.offset) ∨ ∃ f ∈ s.store, r.entry ∈ f.entries := by
  have hw := h.inv.node 0 w (by simp [h.nodes])
  obtain ⟨hmem, hdone⟩ := hw.pipeline.confirmable_done hb
  have hok := hw.pipeline.layout.ok b hmem
  cases hput : b.put with
  | none => cases (hok.unissued hput).symm.trans hdone
  | some f =>
    have hentry : r.entry ∈ f.entries := by
      rw [hok.entries hput]
      exact mem_map_of_mem hr
    rcases (h.tracks hstart).mem_store hw hmem hput hdone with hf | ⟨⟨o, hlast, hle, -⟩, -⟩
    · exact .inr ⟨f, hf, hentry⟩
    · have hrle := hok.le_lastRecordOffset hput (hw.pipeline.valid hmem hput) hentry
      simp only [PendingRecord.entry] at hrle
      left
      rcases hw.trims.top with hnone | ⟨t, ht, heq⟩
      · rw [hnone, trimOffsetNone] at hle
        omega
      · exact ⟨t, ht, by omega⟩

/-- **Fencing hand-off.** The bucket holds any objects; the acquires of every node are issued in
increasing order; the take-over has a larger epoch, or the same epoch with the failover flag.
Every record that the old writer acknowledges Ok, at any time before or after, is in an object of
the listing that the start of the take-over obtained, unless the old writer had requested a trim
at or above it before that listing. -/
theorem acked_in_takeover_listing {old new : WalConfig} {store : List WalFile}
    {pre post : List ClusterAct} {listed : List ObjectInfo} {s₁ s : Cluster} {w₁ w : Writer}
    (hroot : new.root = old.root) (hnode : new.nodeId = old.nodeId)
    (hstore : Bucket old.root store) (holder : old.lease.Older new.lease)
    (hinc : IncreasingAcquires (pre ++ .node 1 (.startList listed) :: post))
    (hpre : run Cluster.step (Cluster.new old.dir old.clusterId store [old, new]) pre = some s₁)
    (hpost : run Cluster.step s₁ (.node 1 (.startList listed) :: post) = some s)
    (hw₁ : s₁.nodes[0]? = some w₁) (hw : s.nodes[0]? = some w) :
    ∀ a ∈ w.acks, ∀ res, a.result = .ok res →
      (∃ t ∈ w₁.trims, (res.recordOffset.offset : Int) ≤ t.offset) ∨
        ∃ f ∈ s₁.store, f.info s₁.root ∈ listed ∧
          ⟨res.recordOffset.offset, a.record⟩ ∈ f.entries := by
  obtain ⟨w', v, hpair⟩ := (Pair.new hroot hstore).run hpre
  obtain rfl : w' = w₁ := by simpa [hpair.nodes] using hw₁
  have hv : s₁.nodes[1]? = some v := by simp [hpair.nodes]
  -- The listing is the one the bucket gave to a take-over that holds its lease.
  obtain ⟨m, hlist, -⟩ := run_cons.mp hpost
  have hfacts : v.start = .verified ∧ listed = s₁.listing := by
    cases effect_of_step hlist with
    | @node i a u u' hu hans hstep =>
      cases hv.symm.trans hu
      refine ⟨?_, hans⟩
      simp only [Writer.step, Writer.startList] at hstep
      split at hstep
      next hs => exact hs
      next => cases hstep
  obtain ⟨hstart, hlisted⟩ := hfacts
  obtain ⟨_, hcv, hvcfg⟩ := config_run hpre hv
  obtain rfl : Writer.new new = _ := by simpa [Cluster.new] using hcv
  have hcreated : ∀ (i : Nat) (u : Writer),
      (Cluster.new old.dir old.clusterId store [old, new]).nodes[i]? = some u →
        u.start = .created := by
    intro i u hu
    obtain ⟨c, -, rfl⟩ := getElem?_new hu
    rfl
  have hacq : new.lease ∈ acquired pre := by
    have hmem := mem_acquired_of_listed (Pair.new hroot hstore).inv rfl hcreated hpre hv
      (.inl hstart)
    rwa [hvcfg] at hmem
  have hno := held_not_mem_of_newer hinc hpre hpost hacq rfl hnode.symm holder
  obtain ⟨hsub, -⟩ := confirmable_run hpost hno hw₁ hw
  obtain ⟨w'', v'', hpair'⟩ := hpair.run hpost
  obtain rfl : w'' = w := by simpa [hpair'.nodes] using hw
  have hwinv := hpair'.inv.node 0 w'' (by simp [hpair'.nodes])
  intro a ha res hok
  obtain ⟨b, hb, hab⟩ := hwinv.pipeline.flush.exists_of_ok ha hok
  obtain ⟨r, hr, -, hrecord, last, hres⟩ := Pipeline.mem_bulkAcks hab
  obtain rfl : res = Pipeline.ackResult w''.config r last := by
    simpa using hok.symm.trans hres
  have hbc := hsub (mem_append_left _ hb)
  rcases hpair.confirmable_stored (by simp [hstart]) hbc hr with htrim | ⟨f, hf, he⟩
  · exact .inl htrim
  · refine .inr ⟨f, hf, ?_, ?_⟩
    · rw [hlisted, listing, storage, list_storageOf]
      exact mem_map_of_mem hf
    · rw [hrecord]
      exact he

def oldOwner : WalConfig := { WalConfig.defaults with epoch := 1, epoch_lt := by decide }

def newOwner : WalConfig := { WalConfig.defaults with epoch := 2, epoch_lt := by decide }

/-- Two owners of an empty prefix. -/
abbrev twoOwners : Cluster := new oldOwner.dir oldOwner.clusterId [] [oldOwner, newOwner]

/-- Epoch 1 has a record confirmed but not acknowledged when epoch 2 takes the lease. -/
def takeoverSchedule : List ClusterAct :=
  .acquire oldOwner.lease :: ([.startVerify .held, .startList [],
      .submit ⟨5, 0, 0, 1, [1, 2, 3]⟩, .place 0, .flush, .tryUpload, .uploadStart 1, .putLand 1,
      .putReturn 1 true, .recv, .verify .held].map (.node 0) ++
    [.acquire newOwner.lease, .node 1 (.startVerify .held)])

theorem acked_in_takeover_listing_epochs : ∃ (s₁ s : Cluster) (listed : List ObjectInfo),
    run Cluster.step twoOwners takeoverSchedule = some s₁ ∧
    run Cluster.step s₁ [.node 1 (.startList listed), .node 0 .loadFenced,
      .node 0 .completeBulk] = some s ∧
    ∃ f ∈ s₁.store, f.info s₁.root ∈ listed ∧ ⟨0, ⟨5, 0, 0, 1, [1, 2, 3]⟩⟩ ∈ f.entries := by
  obtain ⟨s₁, hpre, ⟨w₁, hw₁, hnone⟩, s, hpost, w, hw, hack⟩ : ∃ s₁,
      run step twoOwners takeoverSchedule = some s₁ ∧ (∃ w, s₁.nodes[0]? = some w ∧ w.trims = []) ∧
        ∃ s, run step s₁ [.node 1 (.startList s₁.listing),
          .node 0 .loadFenced, .node 0 .completeBulk] = some s ∧
        ∃ w, s.nodes[0]? = some w ∧ ⟨(1, 0), ⟨5, 0, 0, 1, [1, 2, 3]⟩,
          .ok ⟨⟨1, 0, 60⟩, ⟨1, dataFileAlignSize, 0⟩⟩⟩ ∈ w.acks := by decide +kernel
  refine ⟨s₁, s, s₁.listing, hpre, hpost, ?_⟩
  have hroot : newOwner.root = oldOwner.root := rfl
  have holder : oldOwner.lease.Older newOwner.lease := by decide
  have hinc : IncreasingAcquires (takeoverSchedule ++ [.node 1 (.startList s₁.listing),
      .node 0 .loadFenced, .node 0 .completeBulk]) := by
    change [oldOwner.lease, newOwner.lease].Pairwise _
    simpa using fun _ => holder
  have hlist := acked_in_takeover_listing hroot rfl ⟨fun f hf => (by cases hf), .nil⟩ holder hinc
    hpre hpost hw₁ hw _ hack _ rfl
  refine hlist.resolve_left ?_
  rintro ⟨t, ht, -⟩
  rw [hnone] at ht
  cases ht

end Cluster

end S3Stream
