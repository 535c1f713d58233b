import S3Stream.Core.WalReplay

/-! # The replay keeps the order of the requests

The steps of the replay in `Core/WalReplay.lean` keep its invariant, so in every run the puts are in
the order of the requests and every request is answered once it was put or dropped. The spawned
loads never wait for each other: a finished load at the head of the queue always has a lock step
of another load behind it, so all of them come to their end. -/

namespace S3Stream

open List TransitionSystem Function

/-- The steps a load has before it. -/
def WalLoad.rest : WalLoad → Nat
  | .idle => 3
  | .running => 2
  | .loaded => 1
  | .finished => 0

namespace WalReplay

variable {s s' : WalReplay} {a : Action} {as : List Action} {k n : Nat} {ks late : List Nat}

/-! ## The steps -/

theorem Core.lt_of_load (h : s.Core) (hk : s.load k ≠ .idle) : k < s.requests := by
  rw [h.numbered, mem_order]
  by_contra hnot
  apply hk
  apply (h.stage k).idle.mpr
  exact ⟨fun hin => hnot (.inl (.inl hin)), fun hin => hnot (.inl (.inr (.inl hin)))⟩

theorem Core.pushBack (h : s.Core) (nodeId : Nat)
    (walRecords : Option (List StreamRecordBatch)) : (s.pushBack nodeId walRecords).Core := by
  have horder : (s.pushBack nodeId walRecords).order = s.order ++ [s.requests] := by
    show s.puts.map Prod.fst ++ (s.loading ++ (s.waiting ++ [s.requests])) = _
    rw [order, append_assoc, append_assoc]
  have hidle : s.load s.requests = .idle := by
    by_contra hne
    exact lt_irrefl _ (h.lt_of_load hne)
  have htasks : ∀ j, j ≠ s.requests → (s.pushBack nodeId walRecords).tasks j = s.tasks j :=
    fun j hj => update_of_ne hj ..
  have hnew : (s.pushBack nodeId walRecords).tasks s.requests =
      ⟨nodeId, walRecords, [], false, true⟩ := update_self ..
  refine ⟨?_, ?_, h.answered, fun j hj => ?_, fun j => ?_, h.inflight⟩
  · rw [horder]
    refine pairwise_append.mpr ⟨h.ordered, pairwise_singleton .., fun j hj x hx => ?_⟩
    rw [mem_singleton.mp hx]
    exact h.numbered.mpr (.inl hj)
  · rw [horder, append_assoc]
    refine (perm_append_comm.append_left s.order).trans ?_
    show (s.order ++ (s.dropped ++ [s.requests])).Perm (range (s.requests + 1))
    rw [← append_assoc, range_succ]
    exact h.all.append_right _
  · by_cases hne : j = s.requests
    · rw [hne, hnew]
    · rw [htasks j hne]
      apply h.sender j
      replace hj : j ∈ s.loading ++ (s.waiting ++ [s.requests]) := hj
      rw [← append_assoc] at hj
      exact (mem_append.mp hj).resolve_right fun hx => hne (mem_singleton.mp hx)
  · by_cases hne : j = s.requests
    · have hstage := hne ▸ (hne ▸ h.stage j).idle.mp hidle
      refine ⟨?_, (h.stage j).idle, ?_, fun _ => ?_, fun hin => absurd hin hstage.2⟩
      · rw [hne, hnew]
        show _ ↔ s.load s.requests = .loaded ∨ s.load s.requests = .finished
        rw [hidle]
        exact iff_of_false (by simp) (by rintro (hc | hc) <;> cases hc)
      · exact fun p hp heq => absurd (heq ▸ mem_map_of_mem hp) hstage.1
      · rw [hne, hnew]
    · refine (h.stage j).congr ?_ rfl rfl (fun _ _ => Iff.rfl) Iff.rfl
      rw [htasks j hne]
      exact ⟨rfl, rfl, rfl⟩

theorem Core.enqueue (h : s.Core) (hhead : s.HeadMoves) (nodeId : Nat)
    (walRecords : Option (List StreamRecordBatch)) :
    (s.enqueue nodeId walRecords).Core ∧ (s.enqueue nodeId walRecords).HeadMoves := by
  rw [WalReplay.enqueue]
  split
  · exact ⟨h.clearOverloaded.1.pushBack .., headMoves_clearOverloaded hhead⟩
  · exact ⟨h.pushBack .., hhead⟩

theorem Core.loadReturn_task (h : s.Core) (hk : s.load k = .running)
    (loaded : Option (List StreamRecordBatch))
    (decoder : StreamRecordBatch → Option StreamRecordBatch) :
    (s.loadReturn k loaded decoder).tasks k = { s.tasks k with
      records := loadedRecords (s.tasks k).walRecords loaded decoder
      loadDone := true } := by
  have hopen : ¬(s.tasks k).loadDone = true := by
    rw [(h.stage k).done, hk]
    rintro (hc | hc) <;> cases hc
  refine (update_self ..).trans ?_
  rw [loadedRecords]
  cases (s.tasks k).walRecords.or loaded with
  | none => simp [(h.stage k).fresh hopen]
  | some rs => simp [decodeLinks_eq]

theorem Core.loadReturn (h : s.Core) (hk : s.load k = .running)
    (loaded : Option (List StreamRecordBatch))
    (decoder : StreamRecordBatch → Option StreamRecordBatch) :
    (s.loadReturn k loaded decoder).Core := by
  have htasks : ∀ j, j ≠ k → (s.loadReturn k loaded decoder).tasks j = s.tasks j :=
    fun j hj => update_of_ne hj ..
  have hnew := h.loadReturn_task hk loaded decoder
  refine ⟨h.ordered, h.all, h.answered, fun j hj => ?_, fun j => ?_, h.inflight⟩
  · by_cases hne : j = k
    · subst hne
      rw [hnew]
      exact h.sender j hj
    · rw [htasks j hne]
      exact h.sender j hj
  · by_cases hne : j = k
    · subst hne
      have hstage := h.stage j
      have hload : (s.loadReturn j loaded decoder).load j = .loaded := update_self ..
      have hdone : ((s.loadReturn j loaded decoder).tasks j).loadDone = true := by rw [hnew]
      refine ⟨?_, ?_, fun p hp heq => absurd hk (hstage.put p hp heq).1,
        fun hopen => absurd hdone hopen, fun _ _ => ⟨loaded, decoder, update_self .., ?_⟩⟩
      · rw [hload]
        exact iff_of_true hdone (.inl rfl)
      · rw [hload]
        refine iff_of_false nofun fun hc => ?_
        cases hk.symm.trans (hstage.idle.mpr hc)
      · rw [hnew]
    · refine (h.stage j).congr ?_ (update_of_ne hne ..) (update_of_ne hne ..)
        (fun _ _ => Iff.rfl) Iff.rfl
      rw [htasks j hne]
      exact ⟨rfl, rfl, rfl⟩

theorem Core.finish (h : s.Core) (hk : s.load k = .loaded) :
    { s with load := update s.load k .finished }.Core := by
  refine ⟨h.ordered, h.all, h.answered, h.sender, fun j => ?_, h.inflight⟩
  by_cases hne : j = k
  · subst hne
    have hstage := h.stage j
    have hload : update s.load j WalLoad.finished j = .finished := update_self ..
    refine ⟨iff_of_true (hstage.done.mpr (.inl hk)) (.inr hload), iff_of_false ?_ fun hc => ?_,
      fun p hp heq => ⟨?_, (hstage.put p hp heq).2⟩, hstage.fresh, hstage.records⟩
    · exact fun hidle => nomatch hidle.symm.trans hload
    · cases hk.symm.trans (hstage.idle.mpr hc)
    · exact fun hrun => nomatch hrun.symm.trans hload
  · exact (h.stage j).congr ⟨rfl, rfl, rfl⟩ (update_of_ne hne ..) rfl (fun _ _ => Iff.rfl) Iff.rfl

theorem loadFrom_limits : (s.loadFrom late ks).requests = s.requests ∧
    (s.loadFrom late ks).maxInflight = s.maxInflight := by
  induction ks generalizing s with
  | nil => exact ⟨rfl, rfl⟩
  | cons k ks ih =>
    rw [WalReplay.loadFrom]
    split
    · exact ⟨rfl, rfl⟩
    · split
      · exact sameLoads_clearFrom.1.2
      · exact ih

theorem enqueue_maxInflight : (s.enqueue nodeId walRecords).maxInflight = s.maxInflight := by
  rw [WalReplay.enqueue]
  split
  · exact sameLoads_clearFrom.1.2.2
  · rfl

/-- What every reachable state of a cache with `max_inflight = n` has. -/
structure Inv (n : Nat) (s : WalReplay) : Prop where
  core : s.Core
  head : s.HeadMoves
  full : s.Full
  limit : s.maxInflight = n

theorem inv_new (parallelism : Nat) : (new parallelism).Inv (parallelism * 4) where
  core := core_new parallelism
  head := nofun
  full := fun hne => absurd rfl hne
  limit := rfl

theorem Core.inv_tryLoadWal (h : s.Core) (hhead : s.HeadMoves) (hmax : s.maxInflight = n) :
    (s.tryLoadWal late).Inv n := by
  have hkept : (s.tryLoadWal late).Core ∧ _ ∧ _ := h.loadFrom hhead rfl
  exact ⟨hkept.1, hkept.2.1, hkept.2.2, loadFrom_limits.2.trans hmax⟩

theorem Inv.step (h : s.Inv n) (hstep : s.step a = some s') : s'.Inv n := by
  cases a with
  | replayWal nodeId walRecords =>
    cases hstep
    obtain ⟨hcore, hhead⟩ := h.core.enqueue h.head nodeId walRecords
    exact hcore.inv_tryLoadWal hhead (enqueue_maxInflight.trans h.limit)
  | loadReturn k loaded decoder =>
    obtain ⟨hk, hs'⟩ := Option.ite_none_right_eq_some.mp hstep
    cases hs'
    refine ⟨h.core.loadReturn hk loaded decoder, fun _ _ _ => ⟨k, ?_⟩, h.full, h.limit⟩
    exact update_self ..
  | locked =>
    obtain ⟨hk, hs'⟩ := Option.ite_none_right_eq_some.mp hstep
    cases hs'
    obtain ⟨hcore, hhead⟩ := (h.core.finish hk).headMoves_putFrom
    exact hcore.inv_tryLoadWal hhead (sameLoads_putFrom.2.2.trans h.limit)
  | resume k =>
    obtain ⟨-, hs'⟩ := Option.ite_none_right_eq_some.mp hstep
    cases hs'
    have hcore : { s with resumed := s.resumed ++ [k] }.Core :=
      ⟨h.core.ordered, h.core.all, h.core.answered, h.core.sender, fun j => (h.core.stage j).congr
        ⟨rfl, rfl, rfl⟩ rfl rfl (fun _ _ => Iff.rfl) Iff.rfl, h.core.inflight⟩
    exact hcore.inv_tryLoadWal h.head h.limit

theorem inv_of_run (hrun : run step (new parallelism) as = some s) : s.Inv (parallelism * 4) :=
  run_invariant (fun h hstep => h.step hstep)
    (inv_new parallelism) hrun

/-! ## What is left to do

The spawned tasks go on by themselves: each of their steps lowers `rest`, so without new requests
they all come to their end. -/

/-- The steps of the spawned tasks. -/
def Action.spawned : Action → Bool
  | .loadReturn .. | .locked .. => true
  | .replayWal .. | .resume .. => false

/-- No spawned task has anything left to do. -/
def Quiet (s : WalReplay) : Prop := ∀ k, s.load k ≠ .running ∧ s.load k ≠ .loaded

def rest (s : WalReplay) : Nat := ∑ k ∈ Finset.range s.requests, (s.load k).rest

theorem SameLoads.rest (h : SameLoads s s') : s'.rest = s.rest := by
  rw [WalReplay.rest, WalReplay.rest, h.1, h.2.1]

theorem rest_update_lt (load : Nat → WalLoad) (hk : k < n) (hx : x.rest < (load k).rest) :
    ∑ j ∈ Finset.range n, (update load k x j).rest <
      ∑ j ∈ Finset.range n, (load j).rest := by
  apply Finset.sum_lt_sum
  · intro j _
    by_cases hj : j = k
    · subst hj
      rw [update_self]
      exact hx.le
    · rw [update_of_ne hj]
  · refine ⟨k, Finset.mem_range.mpr hk, ?_⟩
    rwa [update_self]

theorem Core.rest_loadFrom (h : s.Core) (hw : s.waiting = ks) :
    (s.loadFrom late ks).rest ≤ s.rest := by
  induction ks generalizing s with
  | nil => exact le_rfl
  | cons k ks ih =>
    rw [WalReplay.loadFrom]
    split
    · exact le_rfl
    · rename_i hroom
      split
      · exact sameLoads_clearFrom.1.rest.le
      · obtain ⟨hcore, hwaiting⟩ := h.startTask hw hroom
        have hmem : k ∈ s.waiting := hw ▸ mem_cons_self
        have hk : k < s.requests := h.numbered.mpr (.inl (mem_order.mpr (.inr (.inr hmem))))
        have hstart : (s.startTask k ks).rest < s.rest := by
          apply rest_update_lt s.load hk
          rw [h.idle_of_waiting hmem]
          decide
        exact (ih hcore hwaiting).trans hstart.le

theorem Inv.rest_step (h : s.Inv n) (ha : a.spawned = true) (hstep : s.step a = some s') :
    s'.rest < s.rest := by
  cases a with
  | loadReturn k =>
    obtain ⟨hk, hs'⟩ := Option.ite_none_right_eq_some.mp hstep
    cases hs'
    have hlt : k < s.requests := h.core.lt_of_load (by rw [hk]; decide)
    apply rest_update_lt s.load hlt
    rw [hk]
    decide
  | locked k late =>
    obtain ⟨hk, hs'⟩ := Option.ite_none_right_eq_some.mp hstep
    cases hs'
    have hlt : k < s.requests := h.core.lt_of_load (by rw [hk]; decide)
    have hfinish : { s with load := update s.load k .finished }.rest < s.rest := by
      apply rest_update_lt s.load hlt
      rw [hk]
      decide
    calc ({ s with load := update s.load k .finished }.tryPutWal.tryLoadWal late).rest
        ≤ { s with load := update s.load k .finished }.tryPutWal.rest :=
          (h.core.finish hk).headMoves_putFrom.1.rest_loadFrom rfl
      _ = { s with load := update s.load k .finished }.rest := sameLoads_putFrom.rest
      _ < s.rest := hfinish
  | replayWal => cases ha
  | resume => cases ha

theorem exists_step (h : ¬s.Quiet) : ∃ a s', a.spawned = true ∧ s.step a = some s' := by
  simp only [Quiet, not_forall, not_and_or, not_not] at h
  obtain ⟨k, hrunning | hloaded⟩ := h
  · exact ⟨.loadReturn k none fun _ => none, _, rfl, if_pos hrunning⟩
  · exact ⟨.locked k [], _, rfl, if_pos hloaded⟩

theorem Inv.exists_quiet (h : s.Inv n) : ∃ (as : List Action) (s' : WalReplay),
    (∀ a ∈ as, a.spawned = true) ∧ run WalReplay.step s as = some s' ∧ s'.Quiet := by
  -- By induction on what is left.
  induction hrest : s.rest using Nat.strongRecOn generalizing s with
  | ind m ih =>
    by_cases hquiet : s.Quiet
    · exact ⟨[], s, nofun, rfl, hquiet⟩
    obtain ⟨a, s', ha, hstep⟩ := exists_step hquiet
    obtain ⟨as, s'', has, hrun, hquiet'⟩ :=
      ih s'.rest (hrest ▸ h.rest_step ha hstep) (h.step hstep) rfl
    exact ⟨a :: as, s'', forall_mem_cons.mpr ⟨ha, has⟩, run_cons.mpr ⟨s', hstep, hrun⟩, hquiet'⟩

/-- When the spawned tasks have ended nothing loads and nothing waits. -/
theorem Inv.empty_of_quiet (h : s.Inv n) (hn : 0 < n) (hquiet : s.Quiet) :
    s.loading = [] ∧ s.waiting = [] := by
  have hloading : s.loading = [] := by
    rw [eq_nil_iff_forall_not_mem]
    intro k hk
    obtain ⟨x, xs, hl⟩ := exists_cons_of_ne_nil (ne_nil_of_mem hk)
    have hx : x ∈ s.loading := hl ▸ mem_cons_self
    -- The head of the queue has started and has nothing left to do: it is finished.
    have hfin : s.load x = .finished := by
      cases hload : s.load x with
      | idle => exact absurd hx ((h.core.stage x).idle.mp hload).2
      | running => exact absurd hload (hquiet x).1
      | loaded => exact absurd hload (hquiet x).2
      | finished => rfl
    obtain ⟨j, hj⟩ := h.head x (by rw [hl]; rfl) hfin
    exact (hquiet j).2 hj
  refine ⟨hloading, ?_⟩
  by_contra hne
  have hle := h.full hne
  rw [h.limit, hloading, length_nil] at hle
  omega

theorem Inv.puts_of_quiet (h : s.Inv n) (hn : 0 < n) (hquiet : s.Quiet) :
    s.puts.map Prod.fst = (range s.requests).filter (· ∉ s.dropped) := by
  obtain ⟨hloading, hwaiting⟩ := h.empty_of_quiet hn hquiet
  have horder : s.order = s.puts.map Prod.fst := by
    rw [order, hloading, hwaiting, append_nil, append_nil]
  have hord := h.core.ordered
  rw [horder] at hord
  apply hord.eq_of_mem_iff (pairwise_lt_range.filter _)
  intro k
  have hapart := (nodup_append.mp h.core.nodup).2.2 k
  rw [horder] at hapart
  rw [mem_filter, mem_range, h.core.numbered, horder, decide_eq_true_iff]
  constructor
  · exact fun hput => ⟨.inl hput, fun hdrop => hapart hput k hdrop rfl⟩
  · exact fun hin => hin.1.resolve_right hin.2

/-- **The replay keeps the order of the requests.** -/
theorem replay_in_request_order {parallelism : Nat} (hpar : 0 < parallelism)
    (hrun : run step (new parallelism) as = some s) :
    -- the puts are in the order of the requests, each once, and behind the end of the load
    (s.puts.map Prod.fst).Pairwise (· < ·) ∧
    (∀ p ∈ s.puts, p.1 < s.requests ∧ s.load p.1 ≠ .running) ∧
    -- what is put is what the read and the decoder of the load gave: the request's own records or
    -- those of the WAL, with the links decoded, and nothing if the read or a link fails
    (∀ p ∈ s.puts, ∃ loaded decoder, s.delivered p.1 = some (loaded, decoder) ∧
      p.2 = loadedRecords (s.tasks p.1).walRecords loaded decoder) ∧
    -- a request before one that was put was put or dropped
    (∀ p ∈ s.puts, ∀ k < p.1, k ∈ s.puts.map Prod.fst ∨ k ∈ s.dropped) ∧
    (∀ k ∈ s.dropped, k ∉ s.puts.map Prod.fst) ∧
    -- no request is answered twice, and only those that were put or dropped are answered
    s.answers.Nodup ∧ (∀ k, k ∈ s.answers ↔ k ∈ s.puts.map Prod.fst ∨ k ∈ s.dropped) ∧
    -- the loads stand in a queue of at most `max_inflight`
    (∀ k, s.load k = .running → k ∈ s.loading) ∧ s.loading.Nodup ∧
    s.loading.length ≤ parallelism * 4 ∧
    -- at the end of the loads, which they reach by themselves, every request is answered
    (s.Quiet → s.puts.map Prod.fst = (List.range s.requests).filter (· ∉ s.dropped) ∧
      ∀ k < s.requests, s.answers.count k = 1) ∧
    ∃ as' s', (∀ a ∈ as', a.spawned = true) ∧ run step s as' = some s' ∧ s'.Quiet := by
  have h := inv_of_run hrun
  have hcore := h.core
  have hnodup := nodup_append.mp hcore.nodup
  have hmem : ∀ k, k ∈ s.answers ↔ k ∈ s.puts.map Prod.fst ∨ k ∈ s.dropped := fun k =>
    hcore.answered.mem_iff.trans mem_append
  have honce : s.answers.Nodup := by
    rw [hcore.answered.nodup_iff]
    exact hcore.nodup.sublist ((sublist_append_left ..).append_right _)
  have hlt : ∀ p ∈ s.puts, p.1 < s.requests := fun p hp =>
    hcore.numbered.mpr (.inl (mem_order.mpr (.inl (mem_map_of_mem hp))))
  have hput := fun p hp => (hcore.stage p.1).put p hp rfl
  refine ⟨(pairwise_append.mp hcore.ordered).1, fun p hp => ⟨hlt p hp, (hput p hp).1⟩,
    fun p hp => (hput p hp).2, fun p hp k hk => ?_,
    fun k hk hin => hnodup.2.2 k (mem_order.mpr (.inl hin)) k hk rfl, honce, hmem, fun k hk => ?_,
    (nodup_append.mp (nodup_append.mp hnodup.1).2.1).1, h.limit ▸ hcore.inflight,
    fun hquiet => ⟨h.puts_of_quiet (by omega) hquiet, fun k hk => ?_⟩, h.exists_quiet⟩
  · rcases hcore.numbered.mp (hk.trans (hlt p hp)) with hin | hin
    · refine .inl ((mem_append.mp hin).resolve_right fun hrest => ?_)
      have hpk := (pairwise_append.mp hcore.ordered).2.2 p.1 (mem_map_of_mem hp) k hrest
      omega
    · exact .inr hin
  · by_contra hnot
    have hnone : k ∉ s.puts.map Prod.fst := by
      rintro hin
      obtain ⟨p, hp, rfl⟩ := mem_map.mp hin
      exact (hput p hp).1 hk
    cases hk.symm.trans ((hcore.stage k).idle.mpr ⟨hnone, hnot⟩)
  · apply count_eq_one_of_mem honce
    obtain ⟨hloading, hwaiting⟩ := h.empty_of_quiet (by omega) hquiet
    rw [hmem]
    rcases hcore.numbered.mp hk with hin | hin
    · rw [mem_order, hloading, hwaiting] at hin
      exact .inl (hin.resolve_right (by rintro (hx | hx) <;> cases hx))
    · exact .inr hin

/-- Two requests whose loads end in the other order. -/
def loadsOutOfOrder : List Action :=
  [.replayWal 1 (some [⟨7, 0, 0, 1, [1]⟩]) [], .replayWal 1 (some [⟨7, 0, 1, 1, [2]⟩]) [],
    .loadReturn 1 none fun _ => none, .locked 1 [], .loadReturn 0 none fun _ => none,
    .locked 0 [], .resume 0 []]

theorem replay_in_request_order_loads_out_of_order :
    ∃ s, run step (new 1) loadsOutOfOrder = some s ∧ s.puts.map Prod.fst = [0, 1] ∧
      (s.puts.map Prod.fst).Pairwise (· < ·) ∧ s.answers.Nodup :=
  exists_and (by decide +kernel) fun _ hs _ =>
    have h := replay_in_request_order (by decide) hs
    ⟨h.1, h.2.2.2.2.2.1⟩

end WalReplay

end S3Stream
