import S3Stream.Core.RecoverCuts

/-! # Recovering again after a cut

However often `recover` is cut, a call that goes to its end leaves every stream with the records
that one uninterrupted call commits, and a call can always go to its end; the condition is that
every call starts in order (`InOrder`). -/

namespace S3Stream

open List ChainScan TransitionSystem StreamRecordBatch Windows
open UploadWalTask (plan)

namespace StorageRecovery

variable {config : UploadConfig} {d s s' : StorageRecovery} {a : Action} {as : List Action}

theorem Inv.of_step (h : Inv config d s) (hd : d.Initial) (hs : s.step config a = some s')
    (ha : a ≠ .start) : Inv config d s' :=
  (h.step hd (fun hstart => absurd hstart ha) hs).1

/-! ## Completion -/

/-- The call can go on to its end. -/
def Completes (config : UploadConfig) (s : StorageRecovery) : Prop :=
  ∃ as s', (∀ a ∈ as, a ≠ .cut) ∧
    run (step config) s as = some s' ∧ s'.phase = .finished

theorem Completes.of_step (hs : s.step config a = some m) (ha : a ≠ .cut) (h : Completes config m) :
    Completes config s := by
  obtain ⟨as, s', hcut, hrun, hfinished⟩ := h
  exact ⟨a :: as, s', forall_mem_cons.mpr ⟨ha, hcut⟩, run_cons.mpr ⟨m, hs, hrun⟩, hfinished⟩

theorem completes_resetting (hphase : s.phase = .resetting) : Completes config s := by
  have hreset : s.step config .reset = some { s with wal := [] } := by
    rw [step, hphase]
  have hfinish : ({ s with wal := [] } : StorageRecovery).step config .finish =
      some { s with wal := [], phase := .finished } := by
    rw [step]
    rw [hphase]
    rfl
  exact .of_step hreset (by simp) (.of_step hfinish (by simp) ⟨[], _, (by simp), rfl, rfl⟩)

theorem completes_closing {streams : List OpeningStream} (hphase : s.phase = .closing streams) :
    Completes config s := by
  induction streams generalizing s with
  | nil =>
    have hs : s.step config .awaitReset = some { s with phase := .resetting } := by
      rw [step, hphase]
    exact .of_step hs (by simp) (completes_resetting rfl)
  | cons o streams ih =>
    have hs : s.step config .closeStream = some { s with
        opening := s.opening.filter fun o' => o'.streamId ≠ o.streamId
        phase := .closing streams } := by
      rw [step, hphase]
    exact .of_step hs (by simp) (ih rfl)

theorem exists_write (hr : Pending d s r records)
    (hup : Uploading config records task objectId written)
    (hphase : s.phase = .uploading r records task written) (hk : written[k]? = some none) :
    ∃ storage o, s.step config (.write k) = some { s with
      storage, phase := .uploading r records task (written.set k (some o)) } := by
  obtain ⟨htask, hlease, hlength, -⟩ := hup
  have hlt : k < (task.objectWrites objectId).length := hlength ▸ (List.getElem_of_getElem? hk).1
  have hmem : (task.objectWrites objectId)[k] ∈
      (plan config records).objectWrites objectId := by
    subst htask
    exact getElem_mem hlt
  obtain ⟨storage, o, hrun, -⟩ := ((task.objectWrites objectId)[k]).exists_run task.objectBlockSize
    task.objectPartSize (UploadWalTask.sorted_objectWrites hmem)
    (fun e he => hr.ne e (UploadWalTask.mem_records hlease hmem he)) s.storage
  have hid : task.preparedObjectId = some objectId := by
    rw [htask]
    rfl
  refine ⟨storage, o, ?_⟩
  rw [step, hphase]
  dsimp only
  rw [hk]
  rw [hid, Option.bind_some, JoinAll.finish, getElem?_eq_getElem hlt, Option.bind_some, hrun]
  rfl

theorem finishUpload_eq (config : UploadConfig)
    (hphase : s.phase = .uploading r records task written)
    (hid : task.preparedObjectId = some objectId) (hall : written.mapM id = some results) :
    s.step config .finishUpload = some { s with
      phase := .uploaded r records { task with
        commitRequest := some
          (UploadWalTask.request (task.streamSetObjectId objectId) results) } } := by
  rw [step, hphase]
  dsimp only
  rw [hid, Option.bind_some, hall]
  rfl

theorem completes_uploaded (hd : d.Initial) (h : Inv config d s)
    (hphase : s.phase = .uploaded r records task)
    (hnext : ∀ m : StorageRecovery, Inv config d m → m.phase = .filling r → Completes config m) :
    Completes config s := by
  cases h.stands_of hphase with
  | @uploaded _ _ _ request _ hrequest _ =>
    have hcommit : s.step config .commit = some { s with
        commits := s.commits ++ [(request, records)]
        opening := s.opening.map (advance request)
        phase := .filling r } := by
      rw [step, hphase]
      dsimp only
      rw [hrequest]
      rfl
    exact .of_step hcommit (by simp) (hnext _ (h.of_step hd hcommit (by simp)) rfl)

theorem completes_uploading (hd : d.Initial) (h : Inv config d s)
    (hphase : s.phase = .uploading r records task written) (hn : written.countP Option.isNone = n)
    (hnext : ∀ m : StorageRecovery, Inv config d m → m.phase = .filling r → Completes config m) :
    Completes config s := by
  induction n generalizing s written with
  | zero =>
    cases h.stands_of hphase with
    | uploading hr hup =>
      obtain ⟨results, rfl, -⟩ := JoinAll.exists_results hup.length
        fun k w hk => by
          have hlt : k < written.length := hup.length ▸ (List.getElem_of_getElem? hk).1
          have hsome := countP_eq_zero.mp hn _ (getElem_mem hlt)
          rw [getElem?_eq_getElem hlt]
          cases ho : written[k] with
          | none =>
            rw [ho] at hsome
            exact absurd rfl hsome
          | some o => exact ⟨o, rfl, trivial⟩
      have hfinish := finishUpload_eq config hphase hup.preparedObjectId
        (JoinAll.mapM_id_map_some results)
      exact .of_step hfinish nofun (completes_uploaded hd (h.of_step hd hfinish nofun) rfl hnext)
  | succ n ih =>
    cases h.stands_of hphase with
    | uploading hr hup =>
      obtain ⟨x, hx, hnone⟩ := countP_pos_iff.mp (Nat.lt_of_sub_eq_succ hn)
      obtain ⟨k, hk, rfl⟩ := getElem_of_mem hx
      have hk' : written[k]? = some none := by
        rw [getElem?_eq_getElem hk, Option.isNone_iff_eq_none.mp hnone]
      obtain ⟨storage, o, hs⟩ := exists_write hr hup hphase hk'
      refine .of_step hs nofun (ih (h.of_step hd hs nofun) rfl ?_)
      rw [countP_set hk, hn, if_pos hnone]
      rfl

theorem objectCount_le (config : UploadConfig) (records : OrdMap Nat (List StreamRecordBatch)) :
    (plan config records).objectCount ≤ records.entries.length := by
  have hlength := (UploadWalTask.perm_plan config records).length_eq
  rw [length_append] at hlength
  rw [UploadWalTask.objectCount, ← hlength]
  cases hset : (plan config records).streamSetObjectMap.entries with
  | nil => simp
  | cons e es =>
    simp only [isEmpty_cons, Bool.false_eq_true, if_false, length_cons]
    omega

theorem completes_planned (hd : d.Initial) (h : Inv config d s)
    (hphase : s.phase = .planned r records task)
    (hnext : ∀ m : StorageRecovery, Inv config d m → m.phase = .filling r → Completes config m) :
    Completes config s := by
  cases h.stands_of hphase with
  | planned hr =>
    have hlease : 0 + (plan config records).objectCount ≤ noopObjectId := by
      have hle := (objectCount_le config records).trans hr.count
      unfold defaultMaxBlockStreamCount at hle
      unfold noopObjectId
      omega
    have hprepare : s.step config (.prepare 0) = some { s with
        phase := .uploading r records ((plan config records).prepare 0)
          (((plan config records).objectWrites 0).map fun _ => none) } := by
      rw [step, hphase]
      exact if_pos hlease
    exact .of_step hprepare (by simp)
      (completes_uploading hd (h.of_step hd hprepare (by simp)) rfl rfl hnext)

/-- **A call that has started can go to its end.** -/
theorem completes_filling (hd : d.Initial) (h : Inv config d s) (hphase : s.phase = .filling r) :
    Completes config s := by
  induction hn : r.todoLength using Nat.strong_induction_on generalizing s r with
  | h n ih =>
    cases h.stands_of hphase with
    | filling hr =>
      have hs : s.step config .nextBlock = some (s.nextBlock config r) := by
        rw [step, hphase]
      have hinv := h.of_step hd hs (by simp)
      refine .of_step hs (by simp) ?_
      rcases nextBlock_cases config hr with
        ⟨hclose, -⟩ | ⟨r', records, hlt, -, ⟨hfill, -⟩ | hplan⟩
      · rw [hclose]
        exact completes_closing rfl
      · rw [hfill] at hinv ⊢
        exact ih _ (hn ▸ hlt) hinv rfl rfl
      · rw [hplan] at hinv ⊢
        exact completes_planned hd hinv rfl fun m hm hphase => ih _ (hn ▸ hlt) hm hphase rfl

/-! ## The committed ranges -/

/-- Where the records of the commits tile an offset range, their ranges do. -/
theorem tiles_ranges
    {cs : List (CommitStreamSetObjectRequest × OrdMap Nat (List StreamRecordBatch))}
    (h : ∀ c ∈ cs, Describes c) {id : Nat}
    (htiles : Tiles baseOffset lastOffsetU64 lo
      (cs.flatMap fun c => (c.2.get? id).getD []) hi) :
    Tiles (fun r : Nat × Nat × Nat => r.2.1) (fun r => r.2.2) lo
      (cs.flatMap fun c => c.1.ranges.filter fun r => r.1 = id) hi := by
  induction cs generalizing lo with
  | nil => exact htiles
  | cons c cs ih =>
    obtain ⟨hc, hcs⟩ := forall_mem_cons.mp h
    rw [flatMap_cons] at htiles ⊢
    obtain ⟨mid, hfirst, hrest⟩ := Tiles.append.mp htiles
    refine Tiles.append.mpr ⟨mid, ?_, ih hcs hrest⟩
    have hfilter := hc.filter_ranges id
    cases hget : c.2.get? id with
    | none =>
      rw [hget] at hfilter hfirst
      rw [map_eq_nil_iff.mp hfilter]
      exact hfirst
    | some rs =>
      rw [hget] at hfilter hfirst
      obtain ⟨r, hr, heq⟩ := map_eq_singleton_iff.mp hfilter
      rw [hr]
      have hne : rs ≠ [] := hc.ne _ (OrdMap.mem_of_get? hget)
      have hstart : some r.2.1 = rs.head?.map baseOffset := congrArg (fun x => x.2.1) heq
      have hend : some r.2.2 = rs.getLast?.map lastOffsetU64 := congrArg (fun x => x.2.2) heq
      rw [head?_eq_some_head hne] at hstart
      rw [getLast?_eq_some_getLast hne] at hend
      have hlo := hfirst.lo_head (head?_eq_some_head hne)
      have hhi := hfirst.hi_getLast (getLast?_eq_some_getLast hne)
      refine ⟨(Option.some.inj hstart).trans hlo, ?_, (Option.some.inj hend).trans hhi⟩
      obtain ⟨hlow, hhigh⟩ := hfirst.bounds (head_mem hne)
      have hlt := hfirst.lo_lt_hi (head_mem hne)
      dsimp only
      rw [Option.some.inj hstart, Option.some.inj hend, hhi]
      exact hlt.trans_le hhigh

theorem Safe.tiles_rangesOf (hd : d.Initial) (h : Safe d s)
    (hfits : ∀ x ∈ d.wal, x.record.lastOffset < 2 ^ 64) (ho : o ∈ d.opening) :
    Tiles (fun r : Nat × Nat × Nat => r.2.1) (fun r => r.2.2) o.endOffset
      (s.rangesOf o.streamId)
      (stop lastOffsetU64 o.endOffset (s.committedOf o.streamId)) := by
  obtain ⟨left, hleft⟩ := h.committed o.streamId
  have hkept : d.kept o.streamId = scan baseOffset
      lastOffsetU64 o.endOffset
        ((d.wal.map RecoverResult.record).filter (·.streamId = o.streamId)) := by
    rw [kept, filter_scanOnce, get?_endOffsets hd.nodup ho]
  have hjoined : Joined baseOffset lastOffsetU64
      o.endOffset (s.committedOf o.streamId ++ left)
      (stop lastOffsetU64 o.endOffset (s.committedOf o.streamId ++ left)) := by
    rw [hleft, hkept]
    exact joined_scan ..
  obtain ⟨mid, hfirst, -⟩ := Joined.append.mp hjoined
  refine tiles_ranges h.commits (eq_stop_of_joined hfirst ▸ hfirst.tiles fun r hr => ?_)
  have hmem : r ∈ d.kept o.streamId := hleft ▸ mem_append_left _ hr
  obtain ⟨x, hx, rfl⟩ := mem_map.mp
    ((scanOnce_sublist _ _).subset (mem_of_mem_filter hmem))
  have hlt : x.record.baseOffset < x.record.lastOffset := by
    have hpos := (hd.counts x hx).1
    rw [lastOffset]
    split <;> omega
  rw [lastOffsetU64, Nat.mod_eq_of_lt (hfits x hx)]
  exact hlt

/-! ## The result -/

/-- A call starts in order. -/
def StartsInOrder (s : StorageRecovery) (a : Action) : Prop := a = .start → s.InOrder

instance (s : StorageRecovery) : Decidable s.InOrder :=
  inferInstanceAs (Decidable (∀ o ∈ s.opening, ∀ r ∈ (s.committedOf o.streamId).getLast?,
    s.wal.Pairwise fun y x => x.record = r →
      ¬(y.record.streamId = o.streamId ∧ y.record.baseOffset = o.endOffset)))

instance (s : StorageRecovery) (a : Action) : Decidable (s.StartsInOrder a) :=
  inferInstanceAs (Decidable (a = .start → s.InOrder))

theorem Inv.run (hd : d.Initial)
    (hguard : Guarded (StorageRecovery.step config) StartsInOrder d as)
    (hrun : run (StorageRecovery.step config) d as = some s) : Inv config d s :=
  run_invariant_of_guarded (fun h hG hs => (h.step hd hG hs).1) (Inv.initial hd) hguard hrun

theorem Inv.run_uncut (hd : d.Initial) (h : Inv config d s) (horder : s.phase = .idle → s.InOrder)
    (huncut : ∀ a ∈ as, a ≠ .cut)
    (hrun : TransitionSystem.run (StorageRecovery.step config) s as = some s') :
    Inv config d s' := by
  induction as generalizing s with
  | nil =>
    cases hrun
    exact h
  | cons a as ih =>
    obtain ⟨m, hs, hrest⟩ := run_cons.mp hrun
    obtain ⟨ha, has⟩ := forall_mem_cons.mp huncut
    have hstart : a = .start → s.InOrder := by
      intro hstart
      subst hstart
      cases effect_of_step hs with
      | start hidle => exact horder hidle
    obtain ⟨hm, hphase⟩ := h.step hd hstart hs
    exact ih hm (fun hidle => absurd hidle (hphase ha)) has hrest

theorem Initial.inOrder (hd : d.Initial) : d.InOrder := by
  intro o _ r hr
  rw [committedOf, hd.commits] at hr
  cases hr

theorem Inv.all_of_finished (h : Inv config d s) (hphase : s.phase = .finished) :
    s.opening = [] ∧ s.wal = [] ∧ ∀ id, s.committedOf id = d.kept id := by
  cases h.stands_of hphase with
  | finished hopening hwal hall => exact ⟨hopening, hwal, hall⟩

theorem Inv.completes (hd : d.Initial) (h : Inv config d s) (hphase : s.phase = .idle)
    (horder : s.InOrder) : Completes config s := by
  have hs : s.step config .start = some { s with
      streams := s.opening, phase := .filling (.start (endOffsets s.opening) s.wal) } := by
    rw [StorageRecovery.step, hphase]
  exact .of_step hs (by simp) (completes_filling hd (h.step hd (fun _ => horder) hs).1 rfl)

/-- Two records of stream `7`, committed up to offset `0`, in the WAL in the order `xs`. -/
def ofWal (xs : List RecoverResult) : StorageRecovery where
  opening := [⟨7, 0, 0⟩]
  commits := []
  storage := []
  wal := xs
  streams := []
  phase := .idle

def low : RecoverResult := ⟨⟨7, 0, 0, 10, [1]⟩, 1, 0, 40⟩

def high : RecoverResult := ⟨⟨7, 0, 10, 5, [2]⟩, 1, 40, 40⟩

/-- One block is written and committed. -/
def commitBlock (objectId : Nat) : List Action :=
  [.nextBlock, .prepare objectId, .write 0, .finishUpload, .commit]

def complete : List Action := [.nextBlock, .closeStream, .awaitReset, .reset, .finish]

theorem initial_ofWal {xs : List RecoverResult}
    (h : ∀ x ∈ xs, 1 ≤ x.record.count ∧ x.record.count ≤ i32Max) : (ofWal xs).Initial :=
  ⟨rfl, rfl, nodup_singleton _, h⟩

instance : ∀ phase : RecoverPhase, Decidable (phase = .finished)
  | .finished => isTrue rfl
  | .idle | .filling _ | .planned .. | .uploading .. | .uploaded .. | .closing _ | .resetting =>
    isFalse nofun

/-- A call is cut in front of its commit and the next one behind it. -/
def twoCuts : List Action :=
  [.start, .nextBlock, .prepare 0, .write 0, .cut, .start] ++ commitBlock 1 ++ [.cut]

end StorageRecovery

end S3Stream
