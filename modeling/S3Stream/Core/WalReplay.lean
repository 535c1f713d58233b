import S3Stream.Codec.Record
import S3Stream.Lib.Run

/-! # Replay of confirmed WAL ranges into the snapshot cache

`replay_wal`, `try_load_wal`, `clear_overloaded`, `try_put_wal` and `run_wal_load`
(`s3stream-core/src/cache/snapshot_read.rs`). Requests wait, at most `max_inflight` of them load,
and loaded ones are put in the order they started to load: a load that is done waits for those
before it. An overload drops every request that still waits and answers it.

Requests are numbered in the order in which they get the lock. `put_locked` is the entry of a
request with its records in `puts`. Whether a waiting request is overdue when `try_load_wal` looks
at it is taken from outside (`late`), and so are the results of reading the WAL and of decoding
links. -/

namespace S3Stream

open List TransitionSystem Function

def maxWaitingLoadTaskCount : Nat := 4096

/-- Where the spawned load of a request is; `loaded` is behind `load_done` and before the lock. -/
inductive WalLoad where
  | idle
  | running
  | loaded
  | finished
  deriving DecidableEq, Repr

structure WalReplayTask where
  /-- The node of the request's WAL. -/
  nodeId : Nat
  walRecords : Option (List StreamRecordBatch)
  records : List StreamRecordBatch
  loadDone : Bool
  /-- The sender of the answer has not been taken. -/
  replayTx : Bool

/-- The queues, and the history: what was put and dropped, which requests were answered and which
nodes were asked to commit; `delivered` is what the read of a load returned, with the decoder of
its links. -/
structure WalReplay where
  maxInflight : Nat
  requests : Nat
  tasks : Nat → WalReplayTask
  load : Nat → WalLoad
  waiting : List Nat
  loading : List Nat
  delivered : Nat → Option
    (Option (List StreamRecordBatch) × (StreamRecordBatch → Option StreamRecordBatch))
  puts : List (Nat × List StreamRecordBatch)
  dropped : List Nat
  answers : List Nat
  resumed : List Nat
  notified : List Nat

namespace WalReplay

def new (parallelism : Nat) : WalReplay where
  maxInflight := parallelism * 4
  requests := 0
  tasks := fun _ => ⟨0, none, [], false, true⟩
  load := fun _ => .idle
  waiting := []
  loading := []
  delivered := fun _ => none
  puts := []
  dropped := []
  answers := []
  resumed := []
  notified := []

/-- `complete_oneshot`: the sender is taken, so a request is answered once. -/
def complete (s : WalReplay) (k : Nat) : WalReplay :=
  if (s.tasks k).replayTx then
    { s with
      tasks := Function.update s.tasks k { s.tasks k with replayTx := false }
      answers := s.answers ++ [k] }
  else s

def dropTask (s : WalReplay) (k : Nat) (ks : List Nat) : WalReplay :=
  { s with waiting := ks, dropped := s.dropped ++ [k] }.complete k

def clearFrom (s : WalReplay) : List Nat → WalReplay
  | [] => s
  | k :: ks => (s.dropTask k ks).clearFrom ks

def clearOverloaded (s : WalReplay) : WalReplay :=
  { s.clearFrom s.waiting with
    notified := s.notified ++ (s.waiting.map fun k => (s.tasks k).nodeId).dedup }

def startTask (s : WalReplay) (k : Nat) (ks : List Nat) : WalReplay :=
  { s with
    waiting := ks
    loading := s.loading ++ [k]
    load := Function.update s.load k .running }

/-- The loop of `try_load_wal`; the requests in `late` are overdue. -/
def loadFrom (s : WalReplay) (late : List Nat) : List Nat → WalReplay
  | [] => s
  | k :: ks =>
    if s.maxInflight ≤ s.loading.length then s
    else if late.contains k then s.clearOverloaded
    else (s.startTask k ks).loadFrom late ks

def tryLoadWal (s : WalReplay) (late : List Nat) : WalReplay := s.loadFrom late s.waiting

def putTask (s : WalReplay) (k : Nat) (ks : List Nat) : WalReplay :=
  { s with
    loading := ks
    tasks := Function.update s.tasks k { s.tasks k with records := [] }
    puts := s.puts ++ [(k, (s.tasks k).records)] }.complete k

def putFrom (s : WalReplay) : List Nat → WalReplay
  | [] => s
  | k :: ks => if (s.tasks k).loadDone then (s.putTask k ks).putFrom ks else s

def tryPutWal (s : WalReplay) : WalReplay := s.putFrom s.loading

/-- The decoded records; one link that cannot be decoded leaves none. -/
def decodeLinks (decoder : StreamRecordBatch → Option StreamRecordBatch) :
    List StreamRecordBatch → List StreamRecordBatch → List StreamRecordBatch
  | decoded, [] => decoded
  | decoded, r :: rs =>
    if 0 ≤ r.count then decodeLinks decoder (decoded ++ [r]) rs
    else
      match decoder r with
      | none => []
      | some plain => decodeLinks decoder (decoded ++ [plain]) rs

/-- `run_wal_load`, up to `load_done`. -/
def loadReturn (s : WalReplay) (k : Nat) (loaded : Option (List StreamRecordBatch))
    (decoder : StreamRecordBatch → Option StreamRecordBatch) : WalReplay :=
  let records := match (s.tasks k).walRecords.or loaded with
    | none => (s.tasks k).records
    | some walRecords => decodeLinks decoder [] walRecords
  { s with
    tasks := Function.update s.tasks k { s.tasks k with records, loadDone := true }
    load := Function.update s.load k .loaded
    delivered := Function.update s.delivered k (some (loaded, decoder)) }

def pushBack (s : WalReplay) (nodeId : Nat) (walRecords : Option (List StreamRecordBatch)) :
    WalReplay :=
  { s with
    requests := s.requests + 1
    tasks := Function.update s.tasks s.requests ⟨nodeId, walRecords, [], false, true⟩
    waiting := s.waiting ++ [s.requests] }

/-- The first critical section of `replay_wal`; its loop ends after one round, with an empty
queue. -/
def enqueue (s : WalReplay) (nodeId : Nat) (walRecords : Option (List StreamRecordBatch)) :
    WalReplay :=
  (if maxWaitingLoadTaskCount ≤ s.waiting.length then s.clearOverloaded else s).pushBack nodeId
    walRecords

inductive Action where
  | replayWal (nodeId : Nat) (walRecords : Option (List StreamRecordBatch)) (late : List Nat)
  /-- The load of a request ends; `none` is a failed read of the WAL. -/
  | loadReturn (k : Nat) (loaded : Option (List StreamRecordBatch))
      (decoder : StreamRecordBatch → Option StreamRecordBatch)
  /-- The spawned task gets the lock behind its load. -/
  | locked (k : Nat) (late : List Nat)
  /-- The caller gets the lock behind its answer. -/
  | resume (k : Nat) (late : List Nat)

def step (s : WalReplay) : Action → Option WalReplay
  | .replayWal nodeId walRecords late => some ((s.enqueue nodeId walRecords).tryLoadWal late)
  | .loadReturn k loaded decoder =>
    if s.load k = .running then some (s.loadReturn k loaded decoder) else none
  | .locked k late =>
    if s.load k = .loaded then
      some ({ s with load := Function.update s.load k .finished }.tryPutWal.tryLoadWal late)
    else none
  | .resume k late =>
    if k ∈ s.answers ∧ k ∉ s.resumed then
      some ({ s with resumed := s.resumed ++ [k] }.tryLoadWal late)
    else none

/-! ## The invariant -/

variable {s s' : WalReplay} {k : Nat} {ks late : List Nat}

/-- The requests that were put, that load and that wait. -/
def order (s : WalReplay) : List Nat := s.puts.map Prod.fst ++ (s.loading ++ s.waiting)

/-- What a load is to leave: the records that came with the request or else those of the WAL, with
every link decoded, and none if the read or a link fails. -/
def loadedRecords (walRecords loaded : Option (List StreamRecordBatch))
    (decoder : StreamRecordBatch → Option StreamRecordBatch) : List StreamRecordBatch :=
  ((walRecords.or loaded).bind fun rs =>
    rs.mapM fun r => if 0 ≤ r.count then some r else decoder r).getD []

/-- `rs` is what the load of request `k` leaves, by what its read returned. -/
def Delivers (s : WalReplay) (k : Nat) (rs : List StreamRecordBatch) : Prop :=
  ∃ loaded decoder, s.delivered k = some (loaded, decoder) ∧
    rs = loadedRecords (s.tasks k).walRecords loaded decoder

theorem Delivers.congr (h : s.Delivers k rs) (hdelivered : s'.delivered k = s.delivered k)
    (hwal : (s'.tasks k).walRecords = (s.tasks k).walRecords) : s'.Delivers k rs := by
  rw [Delivers, hdelivered, hwal]
  exact h

theorem decodeLinks_eq (decoder : StreamRecordBatch → Option StreamRecordBatch)
    (decoded rs : List StreamRecordBatch) : decodeLinks decoder decoded rs =
      ((rs.mapM fun r => if 0 ≤ r.count then some r else decoder r).map
        (decoded ++ ·)).getD [] := by
  induction rs generalizing decoded with
  | nil => simp [decodeLinks]
  | cons r rs ih =>
    rw [decodeLinks, mapM_cons]
    split
    · rw [ih]
      cases mapM (m := Option) _ rs <;> simp
    · cases decoder r with
      | none => rfl
      | some plain =>
        show decodeLinks decoder (decoded ++ [plain]) rs = _
        rw [ih]
        cases mapM (m := Option) _ rs <;> simp

/-- What the load of a request works on is the same. -/
def SameTask (t t' : WalReplayTask) : Prop :=
  t'.loadDone = t.loadDone ∧ t'.records = t.records ∧ t'.walRecords = t.walRecords

theorem sameTask_sender (tasks : Nat → WalReplayTask) (k j : Nat) :
    SameTask (tasks j) (update tasks k { tasks k with replayTx := false } j) := by
  by_cases hj : j = k
  · subst hj
    rw [update_self]
    exact ⟨rfl, rfl, rfl⟩
  · rw [update_of_ne hj]
    exact ⟨rfl, rfl, rfl⟩

/-- What holds of every request: how far its load is, and what there is of its records. -/
structure Stage (s : WalReplay) (k : Nat) : Prop where
  done : (s.tasks k).loadDone = true ↔ s.load k = .loaded ∨ s.load k = .finished
  idle : s.load k = .idle ↔ k ∉ s.puts.map Prod.fst ∧ k ∉ s.loading
  put : ∀ p ∈ s.puts, p.1 = k → s.load k ≠ .running ∧ s.Delivers k p.2
  fresh : ¬(s.tasks k).loadDone = true → (s.tasks k).records = []
  records : k ∈ s.loading → (s.tasks k).loadDone = true → s.Delivers k (s.tasks k).records

/-- A change that is about other requests. -/
theorem Stage.congr (h : s.Stage k) (htask : SameTask (s.tasks k) (s'.tasks k))
    (hload : s'.load k = s.load k) (hdelivered : s'.delivered k = s.delivered k)
    (hputs : ∀ p : Nat × List StreamRecordBatch, p.1 = k → (p ∈ s'.puts ↔ p ∈ s.puts))
    (hloading : k ∈ s'.loading ↔ k ∈ s.loading) : s'.Stage k := by
  obtain ⟨hdone, hrecords, hwal⟩ := htask
  have hmap : k ∈ s'.puts.map Prod.fst ↔ k ∈ s.puts.map Prod.fst := by
    rw [mem_map, mem_map]
    exact exists_congr fun p => and_congr_left (hputs p)
  constructor
  · rw [hdone, hload]
    exact h.done
  · rw [hload, hmap, hloading]
    exact h.idle
  · intro p hp hk
    rw [hload]
    exact (h.put p ((hputs p hk).mp hp) hk).imp_right (·.congr hdelivered hwal)
  · rw [hdone, hrecords]
    exact h.fresh
  · rw [hloading, hdone, hrecords]
    exact fun hk hd => (h.records hk hd).congr hdelivered hwal

/-- What every change of the queues keeps. -/
structure Core (s : WalReplay) : Prop where
  ordered : s.order.Pairwise (· < ·)
  all : (s.order ++ s.dropped).Perm (range s.requests)
  answered : s.answers.Perm (s.puts.map Prod.fst ++ s.dropped)
  sender : ∀ k ∈ s.loading ++ s.waiting, (s.tasks k).replayTx = true
  stage : ∀ k, s.Stage k
  inflight : s.loading.length ≤ s.maxInflight

theorem core_new (parallelism : Nat) : (new parallelism).Core where
  ordered := .nil
  all := .nil
  answered := .nil
  sender := nofun
  stage := fun _ =>
    ⟨⟨nofun, nofun⟩, ⟨fun _ => ⟨nofun, nofun⟩, fun _ => rfl⟩, nofun, fun _ => rfl, nofun⟩
  inflight := Nat.zero_le _

theorem mem_order : k ∈ s.order ↔
    k ∈ s.puts.map Prod.fst ∨ k ∈ s.loading ∨ k ∈ s.waiting := by
  rw [order, mem_append, mem_append]

theorem Core.numbered (h : s.Core) : k < s.requests ↔ k ∈ s.order ∨ k ∈ s.dropped := by
  rw [← mem_append, h.all.mem_iff, mem_range]

theorem Core.nodup (h : s.Core) : (s.order ++ s.dropped).Nodup := h.all.nodup_iff.mpr nodup_range

theorem Core.not_mem_rest (h : s.Core) {after : List Nat}
    (hsplit : s.order = before ++ k :: after) : k ∉ before ++ after := by
  have hnodup := (nodup_append.mp h.nodup).1
  rw [hsplit, nodup_middle] at hnodup
  exact (nodup_cons.mp hnodup).1

theorem Core.dropTask (h : s.Core) (hw : s.waiting = k :: ks) :
    (s.dropTask k ks).Core ∧ (s.dropTask k ks).waiting = ks := by
  have hsender := h.sender k (mem_append_right _ (hw ▸ mem_cons_self))
  have hdrop : s.dropTask k ks = { s with
      waiting := ks
      dropped := s.dropped ++ [k]
      tasks := update s.tasks k { s.tasks k with replayTx := false }
      answers := s.answers ++ [k] } := if_pos hsender
  have hsplit : s.order = (s.puts.map Prod.fst ++ s.loading) ++ k :: ks := by
    rw [order, hw, append_assoc]
  have hnot := h.not_mem_rest hsplit
  rw [append_assoc] at hnot
  have hsub : (s.loading ++ ks).Sublist (s.loading ++ s.waiting) := by
    rw [hw]
    exact (sublist_cons_self k ks).append_left _
  rw [hdrop]
  refine ⟨⟨h.ordered.sublist (hsub.append_left _), ?_, ?_, fun j hj => ?_,
    fun j => (h.stage j).congr (sameTask_sender s.tasks k j) rfl rfl
      (fun _ _ => Iff.rfl) Iff.rfl, h.inflight⟩, rfl⟩
  · have hall := h.all
    rw [hsplit, append_assoc, cons_append] at hall
    refine List.Perm.trans ?_ (perm_middle.symm.trans hall)
    show ((_ ++ (s.loading ++ ks)) ++ (s.dropped ++ [k])).Perm _
    rw [← append_assoc, ← append_assoc, append_assoc _ ks]
    exact perm_append_singleton k _
  · show (s.answers ++ [k]).Perm (_ ++ (s.dropped ++ [k]))
    rw [← append_assoc]
    exact h.answered.append_right [k]
  · have hne : j ≠ k := by
      rintro rfl
      exact hnot (mem_append_right _ hj)
    show (update s.tasks k _ j).replayTx = true
    rw [update_of_ne hne]
    exact h.sender j (hsub.subset hj)

theorem Core.putTask (h : s.Core) (hl : s.loading = k :: ks) (hdone : (s.tasks k).loadDone = true) :
    (s.putTask k ks).Core ∧ (s.putTask k ks).loading = ks := by
  have hk : k ∈ s.loading := hl ▸ mem_cons_self
  have hput : s.putTask k ks = { s with
      loading := ks
      tasks := update s.tasks k { s.tasks k with records := [], replayTx := false }
      puts := s.puts ++ [(k, (s.tasks k).records)]
      answers := s.answers ++ [k] } := by
    simp [WalReplay.putTask, complete, h.sender k (mem_append_left _ hk)]
  have hfst : (s.puts ++ [(k, (s.tasks k).records)]).map Prod.fst = s.puts.map Prod.fst ++ [k] :=
    map_append
  have hsplit : s.order = s.puts.map Prod.fst ++ k :: (ks ++ s.waiting) := by
    rw [order, hl]
    rfl
  have horder : (s.puts ++ [(k, (s.tasks k).records)]).map Prod.fst ++ (ks ++ s.waiting) =
      s.order := by
    rw [hsplit, hfst, append_assoc]
    rfl
  have hnot := h.not_mem_rest hsplit
  have htasks : ∀ j, j ≠ k →
      update s.tasks k { s.tasks k with records := [], replayTx := false } j = s.tasks j :=
    fun j hj => update_of_ne hj ..
  rw [hput]
  refine ⟨⟨?_, ?_, ?_, fun j hj => ?_, fun j => ?_, ?_⟩, rfl⟩
  · show (map _ _ ++ _).Pairwise _
    rw [horder]
    exact h.ordered
  · show (map _ _ ++ _ ++ _).Perm _
    rw [horder]
    exact h.all
  · show (s.answers ++ [k]).Perm (map _ _ ++ _)
    rw [hfst, append_assoc]
    refine (h.answered.append_right [k]).trans ?_
    rw [append_assoc]
    exact perm_append_comm.append_left _
  · have hne : j ≠ k := by
      rintro rfl
      exact hnot (mem_append_right _ hj)
    show (update s.tasks k _ j).replayTx = true
    rw [htasks j hne]
    exact h.sender j (hl ▸ mem_cons_of_mem k hj)
  · by_cases hj : j = k
    · subst hj
      have hstage := h.stage j
      have hload := hstage.done.mp hdone
      refine ⟨?_, iff_of_false ?_ ?_, fun p hp heq => ?_, fun _ => ?_, fun hin => ?_⟩
      · show (update s.tasks j _ j).loadDone = true ↔ _
        rw [update_self]
        exact hstage.done
      · rintro hidle
        rcases hload with hload | hload <;> cases hidle.symm.trans hload
      · exact fun hc => hc.1 (hfst ▸ mem_append_right _ (mem_singleton_self j))
      · rcases mem_append.mp hp with hp | hp
        · exact absurd (mem_append_left _ (heq ▸ mem_map_of_mem hp)) hnot
        · obtain rfl := mem_singleton.mp hp
          refine ⟨fun hrun => ?_, (hstage.records hk hdone).congr rfl ?_⟩
          · rcases hload with hload | hload <;> cases hrun.symm.trans hload
          · show (update s.tasks j _ j).walRecords = _
            rw [update_self]
      · show (update s.tasks j _ j).records = []
        rw [update_self]
      · exact absurd (mem_append_right _ (mem_append_left _ hin)) hnot
    · refine (h.stage j).congr ?_ rfl rfl (fun p hp => ?_) ?_
      · show SameTask _ (update s.tasks k _ j)
        rw [htasks j hj]
        exact ⟨rfl, rfl, rfl⟩
      · refine mem_append.trans (or_iff_left fun hin => hj ?_)
        rw [← hp, mem_singleton.mp hin]
      · rw [hl, mem_cons]
        exact (or_iff_right hj).symm
  · have hlen := h.inflight
    rw [hl, length_cons] at hlen
    exact Nat.le_of_succ_le hlen

theorem Core.idle_of_waiting (h : s.Core) (hk : k ∈ s.waiting) : s.load k = .idle := by
  have hnodup := nodup_append.mp (nodup_append.mp h.nodup).1
  apply (h.stage k).idle.mpr
  constructor
  · exact fun hin => hnodup.2.2 k hin k (mem_append_right _ hk) rfl
  · exact fun hin => (nodup_append.mp hnodup.2.1).2.2 k hin k hk rfl

theorem Core.startTask (h : s.Core) (hw : s.waiting = k :: ks)
    (hroom : ¬s.maxInflight ≤ s.loading.length) :
    (s.startTask k ks).Core ∧ (s.startTask k ks).waiting = ks := by
  have horder : (s.startTask k ks).order = s.order := by
    show s.puts.map Prod.fst ++ (s.loading ++ [k] ++ ks) = s.order
    rw [order, hw, append_assoc s.loading]
    rfl
  have hidle := h.idle_of_waiting (hw ▸ mem_cons_self)
  refine ⟨⟨horder ▸ h.ordered, ?_, h.answered, fun j hj => ?_, fun j => ?_, ?_⟩, rfl⟩
  · rw [horder]
    exact h.all
  · apply h.sender j
    rw [hw]
    rwa [WalReplay.startTask, append_assoc] at hj
  · by_cases hj : j = k
    · subst hj
      have hstage := h.stage j
      have hopen : ¬(s.tasks j).loadDone = true := by
        rw [hstage.done, hidle]
        rintro (hc | hc) <;> cases hc
      have hload : (s.startTask j ks).load j = .running := update_self ..
      refine ⟨?_, ?_, fun p hp heq => ?_, hstage.fresh, fun _ hd => absurd hd hopen⟩
      · rw [hload]
        exact iff_of_false hopen (by rintro (hc | hc) <;> cases hc)
      · rw [hload]
        exact iff_of_false nofun fun hc => hc.2 (mem_append_right _ (mem_singleton_self j))
      · exact absurd (heq ▸ mem_map_of_mem hp) (hstage.idle.mp hidle).1
    · refine (h.stage j).congr ⟨rfl, rfl, rfl⟩ (update_of_ne hj ..) rfl (fun _ _ => Iff.rfl) ?_
      exact mem_append.trans (or_iff_left fun hin => hj (mem_singleton.mp hin))
  · show (s.loading ++ [k]).length ≤ s.maxInflight
    rw [length_append, length_singleton]
    omega

/-! ## The loops -/

@[simp] theorem complete_load : (s.complete k).load = s.load := by
  unfold complete
  split <;> rfl

@[simp] theorem complete_loading : (s.complete k).loading = s.loading := by
  unfold complete
  split <;> rfl

@[simp] theorem complete_requests : (s.complete k).requests = s.requests := by
  unfold complete
  split <;> rfl

@[simp] theorem complete_maxInflight : (s.complete k).maxInflight = s.maxInflight := by
  unfold complete
  split <;> rfl

/-- The loads, the number of requests and the limit are the same. -/
def SameLoads (s s' : WalReplay) : Prop :=
  s'.load = s.load ∧ s'.requests = s.requests ∧ s'.maxInflight = s.maxInflight

theorem sameLoads_clearFrom :
    SameLoads s (s.clearFrom ks) ∧ (s.clearFrom ks).loading = s.loading := by
  induction ks generalizing s with
  | nil => exact ⟨⟨rfl, rfl, rfl⟩, rfl⟩
  | cons k ks ih =>
    obtain ⟨⟨hload, hrequests, hmax⟩, hloading⟩ := ih
    exact ⟨⟨hload.trans complete_load, hrequests.trans complete_requests,
      hmax.trans complete_maxInflight⟩, hloading.trans complete_loading⟩

theorem Core.clearFrom (h : s.Core) (hw : s.waiting = ks) :
    (s.clearFrom ks).Core ∧ (s.clearFrom ks).waiting = [] := by
  induction ks generalizing s with
  | nil => exact ⟨h, hw⟩
  | cons k ks ih => exact ih (h.dropTask hw).1 (h.dropTask hw).2

theorem Core.clearOverloaded (h : s.Core) :
    s.clearOverloaded.Core ∧ s.clearOverloaded.waiting = [] := by
  obtain ⟨hcore, hwaiting⟩ := h.clearFrom rfl
  exact ⟨⟨hcore.ordered, hcore.all, hcore.answered, hcore.sender,
    fun k => (hcore.stage k).congr ⟨rfl, rfl, rfl⟩ rfl rfl (fun _ _ => Iff.rfl) Iff.rfl,
    hcore.inflight⟩, hwaiting⟩

/-- A finished load at the head of the queue has another behind it that is about to get the lock. -/
def HeadMoves (s : WalReplay) : Prop :=
  ∀ k, s.loading.head? = some k → s.load k = .finished → ∃ j, s.load j = .loaded

/-- Requests wait only while the queue of loads is full. -/
def Full (s : WalReplay) : Prop := s.waiting ≠ [] → s.maxInflight ≤ s.loading.length

theorem headMoves_clearOverloaded (h : s.HeadMoves) : s.clearOverloaded.HeadMoves := by
  have hframe : SameLoads s (s.clearFrom s.waiting) ∧ _ = s.loading := sameLoads_clearFrom
  obtain ⟨⟨hload, -⟩, hloading⟩ := hframe
  show ∀ k, (s.clearFrom s.waiting).loading.head? = some k →
    (s.clearFrom s.waiting).load k = .finished → ∃ j, (s.clearFrom s.waiting).load j = .loaded
  rw [hload, hloading]
  exact h

theorem HeadMoves.startTask (h : s.HeadMoves) (hcore : s.Core) (hw : s.waiting = k :: ks) :
    (s.startTask k ks).HeadMoves := by
  have hidle := hcore.idle_of_waiting (hw ▸ mem_cons_self)
  intro j hhead hfin
  replace hhead : (s.loading ++ [k]).head? = some j := hhead
  replace hfin : update s.load k .running j = .finished := hfin
  have hne : j ≠ k := by
    rintro rfl
    rw [update_self] at hfin
    cases hfin
  rw [update_of_ne hne] at hfin
  cases hl : s.loading with
  | nil =>
    rw [hl] at hhead
    exact absurd (Option.some.inj hhead).symm hne
  | cons =>
    obtain ⟨i, hi⟩ := h j (hl ▸ hhead) hfin
    refine ⟨i, ?_⟩
    show update s.load k .running i = .loaded
    rwa [update_of_ne]
    rintro rfl
    cases hidle.symm.trans hi

theorem Core.loadFrom (h : s.Core) (hhead : s.HeadMoves) (hw : s.waiting = ks) :
    (s.loadFrom late ks).Core ∧ (s.loadFrom late ks).HeadMoves ∧ (s.loadFrom late ks).Full := by
  induction ks generalizing s with
  | nil => exact ⟨h, hhead, fun hne => absurd hw hne⟩
  | cons k ks ih =>
    rw [WalReplay.loadFrom]
    split
    · rename_i hfull
      exact ⟨h, hhead, fun _ => hfull⟩
    · rename_i hroom
      split
      · exact ⟨h.clearOverloaded.1, headMoves_clearOverloaded hhead,
          fun hne => absurd h.clearOverloaded.2 hne⟩
      · obtain ⟨hcore, hwaiting⟩ := h.startTask hw hroom
        exact ih hcore (hhead.startTask h hw) hwaiting

theorem sameLoads_putFrom : SameLoads s (s.putFrom ks) := by
  induction ks generalizing s with
  | nil => exact ⟨rfl, rfl, rfl⟩
  | cons k ks ih =>
    rw [WalReplay.putFrom]
    split
    · obtain ⟨hload, hrequests, hmax⟩ := ih
      exact ⟨hload.trans complete_load, hrequests.trans complete_requests,
        hmax.trans complete_maxInflight⟩
    · exact ⟨rfl, rfl, rfl⟩

theorem Core.putFrom (h : s.Core) (hl : s.loading = ks) :
    (s.putFrom ks).Core ∧ ∀ k, (s.putFrom ks).loading.head? = some k →
      ¬((s.putFrom ks).tasks k).loadDone = true := by
  induction ks generalizing s with
  | nil =>
    refine ⟨h, fun k hhead => ?_⟩
    rw [WalReplay.putFrom, hl] at hhead
    cases hhead
  | cons k ks ih =>
    rw [WalReplay.putFrom]
    split
    · rename_i hdone
      obtain ⟨hcore, hloading⟩ := h.putTask hl hdone
      exact ih hcore hloading
    · rename_i hopen
      refine ⟨h, fun j hhead => ?_⟩
      rw [hl] at hhead
      rwa [← Option.some.inj hhead]

theorem Core.headMoves_putFrom (h : s.Core) : s.tryPutWal.Core ∧ s.tryPutWal.HeadMoves := by
  obtain ⟨hcore, hopen⟩ := h.putFrom rfl
  exact ⟨hcore, fun k hhead hfin => absurd ((hcore.stage k).done.mpr (.inr hfin)) (hopen k hhead)⟩

end WalReplay

end S3Stream
