import Mathlib.Data.List.GetD
import S3Stream.Lib.Run
import S3Stream.Lib.Update
import S3Stream.Object.Metadata

/-! # Replay of committed objects into the snapshot cache

`s3stream-core/src/cache/snapshot_read.rs`: `replay_objects` starts loads up to a byte budget. Every
load runs on its own: it awaits the index, reads all blocks at once and then takes the state lock
and puts what is ready at the head of the `loading` queue into the cache. A round of the loop of
`put_object_into_cache` is one step here, so index loads and block reads of any object run between
two of them. -/

namespace S3Stream

open List TransitionSystem

def maxInflightLoadBytes : Nat := 100 * 1024 * 1024

/-- What reading and decoding a block returns. -/
abbrev BlockRead := Except Unit (List StreamRecordBatch)

/-- The records that `put_object_into_cache` hands to `put_locked`. -/
def readRecords : Option BlockRead → Option (List StreamRecordBatch)
  | some (.ok records) => some records
  | _ => none

/-- One slot of `ObjectReplayTask::blocks`. -/
structure BlockLoad where
  done : Bool
  records : Option BlockRead

inductive LoadPhase where
  /-- Not spawned yet. -/
  | waiting
  /-- Awaits `basic_object_info`. -/
  | loadingInfo
  /-- `join_all` awaits the block reads. -/
  | reading
  /-- In `try_put_objects` with the state locked: in `run_object_load`, or after it (`last`). -/
  | putting (last : Bool)
  /-- `run_object_load` has returned. -/
  | returning
  | ended
  | panicked
  deriving DecidableEq, Repr

structure ObjectReplayTask where
  metadata : S3ObjectMetadata
  blocks : Option (List BlockLoad)
  /-- A panic was raised while the mutex of `blocks` was held. -/
  poisoned : Bool
  /-- `replay_tx` was taken and answered. -/
  replied : Bool
  phase : LoadPhase
  /-- What the futures under `join_all` have returned; `none` while a read is in flight. -/
  reads : List (Option BlockRead)

namespace ObjectReplayTask

def new (metadata : S3ObjectMetadata) : ObjectReplayTask :=
  ⟨metadata, none, false, false, .waiting, []⟩

/-- `run_object_load` behind `basic_object_info`; the result is the number of index entries. -/
def infoReturn (t : ObjectReplayTask) (result : Except Unit Nat) : Option ObjectReplayTask :=
  if t.phase = .loadingInfo then
    match result with
    | .ok n => some { t with
        blocks := some (List.replicate n ⟨false, none⟩)
        reads := List.replicate n none
        phase := .reading }
    | .error () => some { t with replied := true, phase := .returning }
  else none

/-- The end of one future under `join_all`: it writes `slots[i]`. -/
def readReturn (t : ObjectReplayTask) (i : Nat) (result : BlockRead) : Option ObjectReplayTask :=
  if t.phase = .reading ∧ (t.reads[i]?).any Option.isNone then
    match t.blocks with
    | none => some { t with reads := t.reads.set i (some result) }
    | some slots =>
      if i < slots.length then some { t with
        blocks := some (slots.set i ⟨true, some result⟩)
        reads := t.reads.set i (some result) }
      else some { t with poisoned := true, phase := .panicked }
  else none

def allRead (t : ObjectReplayTask) : Bool := t.reads.all Option.isSome

/-- The two places where a load awaits the state lock. -/
def lockState (t : ObjectReplayTask) : Option ObjectReplayTask :=
  match t.phase with
  | .reading => if t.allRead then some { t with phase := .putting false } else none
  | .returning => some { t with phase := .putting true }
  | _ => none

/-- The end of `try_put_objects`, which releases the lock. -/
def unlock (t : ObjectReplayTask) : ObjectReplayTask :=
  match t.phase with
  | .putting false => { t with phase := .returning }
  | .putting true => { t with phase := .ended }
  | _ => t

/-- The first slot is done. -/
def frontDone (t : ObjectReplayTask) : Bool :=
  match t.blocks with
  | some (slot :: _) => slot.done
  | _ => false

end ObjectReplayTask

/-- `ObjectReplayState` with the tasks it shares with the spawned loads. Tasks are numbered in the
order in which `replay_objects` made them. -/
structure ObjectReplay where
  inflightLoadBytes : Nat := 0
  waiting : List Nat := []
  loading : List Nat := []
  tasks : List ObjectReplayTask := []
  /-- The load that holds the state lock. -/
  lock : Option Nat := none
  /-- The calls of `put_locked`. -/
  puts : List (List StreamRecordBatch) := []

namespace ObjectReplay

inductive Action where
  | replayObjects (objects : List S3ObjectMetadata)
  | infoReturn (k : Nat) (result : Except Unit Nat)
  | readReturn (k i : Nat) (result : BlockRead)
  | lockState (k : Nat)
  /-- One round of the loops of `try_put_objects` and `put_object_into_cache`. -/
  | putRound (k : Nat)

def objectSizes (s : ObjectReplay) : List Nat := s.tasks.map (·.metadata.objectSize)

def setTask (s : ObjectReplay) (k : Nat) (t : ObjectReplayTask) : ObjectReplay :=
  { s with tasks := s.tasks.set k t }

/-- One round of `try_load_objects`: the first of the waiting objects `k :: ks` is spawned. -/
def startLoad (s : ObjectReplay) (k : Nat) (ks : List Nat) : ObjectReplay :=
  { s with
    inflightLoadBytes := (s.inflightLoadBytes + s.objectSizes.getD k 0) % 2 ^ 64
    waiting := ks
    loading := s.loading ++ [k]
    tasks := s.tasks.modify k fun t => { t with phase := .loadingInfo } }

def loadFrom (s : ObjectReplay) : List Nat → ObjectReplay
  | [] => s
  | k :: ks =>
    if maxInflightLoadBytes ≤ s.inflightLoadBytes then s else loadFrom (s.startLoad k ks) ks

def tryLoadObjects (s : ObjectReplay) : ObjectReplay := s.loadFrom s.waiting

def enqueue (s : ObjectReplay) (objects : List S3ObjectMetadata) : ObjectReplay :=
  { s with
    waiting := s.waiting ++ List.range' s.tasks.length objects.length
    tasks := s.tasks ++ objects.map ObjectReplayTask.new }

def replayObjects (s : ObjectReplay) (objects : List S3ObjectMetadata) : Option ObjectReplay :=
  -- An empty list is refused before the state is locked.
  if objects.isEmpty then some s
  else if s.lock.isSome then none
  else some (s.enqueue objects).tryLoadObjects

/-- The consumed head `h` of the queue leaves it, and more objects are loaded. -/
def popObject (s : ObjectReplay) (h : Nat) (t : ObjectReplayTask) (rest : List Nat) :
    ObjectReplay :=
  tryLoadObjects { s with
    loading := rest
    inflightLoadBytes := s.inflightLoadBytes - t.metadata.objectSize
    tasks := s.tasks.set h { t with replied := true } }

/-- A slot leaves the front of the object `h` and its records are put. -/
def takeSlot (s : ObjectReplay) (h : Nat) (t : ObjectReplayTask) (slot : BlockLoad)
    (slots : List BlockLoad) : ObjectReplay :=
  { s with
    tasks := s.tasks.set h { t with blocks := some slots }
    puts := s.puts ++ (readRecords slot.records).toList }

def unlock (s : ObjectReplay) (k : Nat) : ObjectReplay :=
  { s with lock := none, tasks := s.tasks.modify k .unlock }

def putRound (s : ObjectReplay) (k : Nat) : Option ObjectReplay :=
  if s.lock = some k then
    match s.loading with
    | [] => some (s.unlock k)
    | h :: rest =>
      (s.tasks[h]?).map fun t =>
        -- `expect("blocks poisoned")`
        if t.poisoned then
          { s with lock := none, tasks := s.tasks.modify k ({ · with phase := .panicked }) }
        else
          match t.blocks with
          | none => s.unlock k
          | some [] => s.popObject h t rest
          | some (slot :: slots) => if slot.done then s.takeSlot h t slot slots else s.unlock k
  else none

def step (s : ObjectReplay) : Action → Option ObjectReplay
  | .replayObjects objects => s.replayObjects objects
  | .infoReturn k result =>
    (s.tasks[k]?).bind fun t => (t.infoReturn result).map (s.setTask k)
  | .readReturn k i result =>
    (s.tasks[k]?).bind fun t => (t.readReturn i result).map (s.setTask k)
  | .lockState k =>
    if s.lock.isSome then none
    else (s.tasks[k]?).bind fun t =>
      t.lockState.map fun t' => { s.setTask k t' with lock := some k }
  | .putRound k => s.putRound k

end ObjectReplay

/-! ## What is put -/

section PutUpTo

variable {reads more : List (List (Option BlockRead))} {r : Option BlockRead}
  {rest rs : List (Option BlockRead)} {p d k : Nat}

/-- The puts once the first `p` objects are consumed and `d` slots of the next one are taken. -/
def putUpTo (reads : List (List (Option BlockRead))) (p d : Nat) :
    List (List StreamRecordBatch) :=
  ((reads.take p).flatten ++ (reads.getD p []).take d).filterMap readRecords

theorem putUpTo_set (hk : p ≤ k) (hd : k = p → d = 0) :
    putUpTo (reads.set k rs) p d = putUpTo reads p d := by
  rw [putUpTo, putUpTo, take_set_of_le hk]
  rcases eq_or_lt_of_le hk with rfl | hlt
  · rw [hd rfl, take_zero, take_zero]
  · rw [getD_eq_getElem?_getD, getElem?_set_ne (ne_of_gt hlt), getD_eq_getElem?_getD]

theorem putUpTo_append (hp : p ≤ reads.length) (hd : p = reads.length → d = 0) :
    putUpTo (reads ++ more) p d = putUpTo reads p d := by
  rw [putUpTo, putUpTo, take_append_of_le_length hp]
  rcases eq_or_lt_of_le hp with heq | hlt
  · rw [hd heq, take_zero, take_zero]
  · rw [getD_append _ _ _ _ hlt]

theorem putUpTo_next (hr : (reads.getD p []).drop d = r :: rest) :
    putUpTo reads p (d + 1) = putUpTo reads p d ++ (readRecords r).toList := by
  rw [putUpTo, putUpTo, take_add, hr, filterMap_append, filterMap_append,
    filterMap_append, append_assoc]
  cases h : readRecords r <;> simp [h]

theorem putUpTo_succ (hp : p < reads.length) (hd : (reads.getD p []).drop d = []) :
    putUpTo reads (p + 1) 0 = putUpTo reads p d := by
  rw [putUpTo, putUpTo, take_of_length_le (drop_eq_nil_iff.mp hd), take_zero,
    append_nil, take_add_one, getElem?_eq_getElem hp, getD_eq_getElem _ _ hp,
    flatten_append, Option.toList_some, flatten_singleton]

theorem putUpTo_isPrefix : putUpTo reads p d <+: reads.flatten.filterMap readRecords := by
  refine List.IsPrefix.filterMap _ ?_
  rcases lt_or_ge p reads.length with hp | hp
  · conv_rhs => rw [← take_append_drop p reads, drop_eq_getElem_cons hp,
      flatten_append, flatten_cons]
    rw [getD_eq_getElem _ _ hp]
    exact (prefix_append_right_inj _).mpr
      ((List.take_prefix _ _).trans (prefix_append _ _))
  · rw [take_of_length_le hp, getD_eq_default _ _ hp, take_nil, append_nil]

end PutUpTo

/-! ## The tasks -/

namespace BlockLoad

def ofRead : Option BlockRead → BlockLoad
  | none => ⟨false, none⟩
  | some result => ⟨true, some result⟩

@[simp] theorem ofRead_done (r : Option BlockRead) : (ofRead r).done = r.isSome := by
  cases r <;> rfl

@[simp] theorem ofRead_records (r : Option BlockRead) : (ofRead r).records = r := by
  cases r <;> rfl

end BlockLoad

/-- The index is loaded and nothing has gone wrong. -/
def LoadPhase.Opened : LoadPhase → Prop
  | .reading | .putting _ | .returning | .ended => True
  | .waiting | .loadingInfo | .panicked => False

namespace ObjectReplayTask

variable {t t' : ObjectReplayTask} {d i n : Nat}

/-- The slots are those of the reads without the first `d`, and slots are taken only behind the
last read. -/
structure Open (t : ObjectReplayTask) (d : Nat) : Prop where
  phase : t.phase.Opened
  sound : t.poisoned = false
  blocks : t.blocks = some ((t.reads.drop d).map .ofRead)
  read : t.phase ≠ .reading ∨ d ≠ 0 → t.allRead = true

def Held (t : ObjectReplayTask) (d : Nat) : Prop :=
  t = { ObjectReplayTask.new t.metadata with phase := .loadingInfo } ∧ d = 0 ∨ t.Open d

theorem Held.opened (h : t.Held d) (hphase : t.phase ≠ .loadingInfo) : t.Open d := by
  rcases h with ⟨ht, -⟩ | h
  · exact absurd (by rw [ht]) hphase
  · exact h

theorem Held.opened_of_blocks (h : t.Held d) (hblocks : t.blocks = some slots) : t.Open d := by
  rcases h with ⟨ht, -⟩ | h
  · rw [ht] at hblocks
    cases hblocks
  · exact h

theorem Held.sound (h : t.Held d) : t.poisoned = false ∧ t.phase ≠ .panicked := by
  rcases h with ⟨ht, -⟩ | h
  · rw [ht]
    exact ⟨rfl, nofun⟩
  · refine ⟨h.sound, fun heq => ?_⟩
    have hopened := h.phase
    rw [heq] at hopened
    exact hopened

theorem Open.setPhase {phase : LoadPhase} (h : t.Open d) (hphase : phase.Opened)
    (hread : t.allRead = true) : ({ t with phase := phase } : ObjectReplayTask).Open d :=
  ⟨hphase, h.sound, h.blocks, fun _ => hread⟩

theorem lockState_eq (h : t.lockState = some t') :
    (t.phase = .reading ∧ t.allRead = true ∨ t.phase = .returning) ∧
      ∃ last, t' = { t with phase := .putting last } := by
  rw [lockState] at h
  split at h
  next hphase =>
    split at h <;> cases h
    next hread => exact ⟨.inl ⟨hphase, hread⟩, false, rfl⟩
  next hphase =>
    cases h
    exact ⟨.inr hphase, true, rfl⟩
  next => cases h

theorem unlock_eq (h : t.phase = .putting last) :
    ∃ phase : LoadPhase, phase.Opened ∧ t.unlock = { t with phase := phase } := by
  rw [unlock, h]
  cases last
  · exact ⟨.returning, trivial, rfl⟩
  · exact ⟨.ended, trivial, rfl⟩

theorem pending_of_readReturn (h : t.readReturn i result = some t') :
    t.phase = .reading ∧ t.reads[i]? = some none := by
  rw [readReturn] at h
  split at h
  next hif =>
    obtain ⟨r, hr, hnone⟩ := (Option.any_eq_true _ _).mp hif.2
    obtain rfl := Option.isNone_iff_eq_none.mp hnone
    exact ⟨hif.1, hr⟩
  next => cases h

theorem allRead_ne_true (h : t.reads[i]? = some none) : t.allRead ≠ true := by
  intro hall
  cases all_eq_true.mp hall none (mem_of_getElem? h)

theorem readReturn_open (h : t.readReturn i result = some t') (hopen : t.Open d) :
    d = 0 ∧ t'.Open 0 ∧ t'.metadata = t.metadata ∧ t'.phase = .reading := by
  obtain ⟨hphase, hr⟩ := pending_of_readReturn h
  -- No slot is taken while a read is in flight, so every slot stands at its own position.
  have hd : d = 0 := by
    by_contra hd
    exact allRead_ne_true hr (hopen.read (.inr hd))
  subst hd
  have hlt : i < ((t.reads.drop 0).map BlockLoad.ofRead).length := by
    rw [drop_zero, length_map]
    exact (List.getElem_of_getElem? hr).1
  rw [readReturn, hopen.blocks, if_pos ⟨hphase, by rw [hr]; rfl⟩] at h
  simp only [if_pos hlt, Option.some.injEq] at h
  subst h
  refine ⟨rfl, ⟨hopen.phase, hopen.sound, ?_, ?_⟩, rfl, hphase⟩
  · simp only [drop_zero, map_set]
    rfl
  · rintro (hne | hne)
    · exact absurd hphase hne
    · exact absurd rfl hne

end ObjectReplayTask

/-! ## The queue -/

namespace ObjectReplay

variable {s s' : ObjectReplay} {t t' : ObjectReplayTask} {p q d k n : Nat} {ks : List Nat}

/-- The slots taken from the front of a task. -/
def taken (p d k : Nat) (t : ObjectReplayTask) : Nat :=
  if k < p then t.reads.length else if k = p then d else 0

/-- What the task of the object `k` is, by its place in the queue. -/
structure Stage (p q d k : Nat) (t : ObjectReplayTask) : Prop where
  held : k < q → t.Held (taken p d k t)
  fresh : q ≤ k → t = .new t.metadata
  consumed : k < p → t.phase.Opened ∧ t.allRead = true ∧ t.replied = true

def PuttingAt (tasks : List ObjectReplayTask) (k : Nat) : Prop :=
  ∃ t last, tasks[k]? = some t ∧ t.phase = .putting last

/-- The first `p` objects are consumed, those before `q` are spawned and `d` slots of the object `p`
are taken. -/
structure Replaying (s : ObjectReplay) (p q d : Nat) : Prop where
  loading : s.loading = List.range' p (q - p)
  waiting : s.waiting = List.range' q (s.tasks.length - q)
  le : p ≤ q
  spawned : q ≤ s.tasks.length
  front : p = q → d = 0
  stage : ∀ k t, s.tasks[k]? = some t → Stage p q d k t
  lock : ∀ k, s.lock = some k → PuttingAt s.tasks k
  /-- Nobody leaves a consumable object at the head of the queue. -/
  idle : s.lock = none → p < q → ∀ t, s.tasks[p]? = some t →
    t.phase = .loadingInfo ∨ t.phase = .reading
  inflight : s.inflightLoadBytes ≤ (s.loading.map fun k => s.objectSizes.getD k 0).sum
  puts : s.puts = putUpTo (s.tasks.map (·.reads)) p d

theorem Replaying.new : Replaying {} 0 0 0 :=
  ⟨rfl, rfl, le_rfl, le_rfl, fun _ => rfl, nofun, nofun, nofun, le_rfl, rfl⟩

theorem Replaying.opened (h : s.Replaying p q d) (hk : s.tasks[k]? = some t)
    (hphase : t.phase ≠ .waiting ∧ t.phase ≠ .loadingInfo) :
    k < q ∧ t.Open (taken p d k t) := by
  have hq : k < q := by
    by_contra hge
    exact hphase.1 (by rw [(h.stage k t hk).fresh (not_lt.mp hge)]; rfl)
  exact ⟨hq, ((h.stage k t hk).held hq).opened hphase.2⟩

theorem Replaying.setTask {lock : Option Nat} {puts : List (List StreamRecordBatch)}
    (h : s.Replaying p q d) (hk : s.tasks[k]? = some t) (hq : k < q)
    (hmeta : t'.metadata = t.metadata) (hd : d' = d ∨ k = p) (hheld : t'.Held (taken p d' k t'))
    (hconsumed : k < p → t'.phase.Opened ∧ t'.allRead = true ∧ t'.replied = true)
    (hlock : ∀ j, lock = some j → PuttingAt (s.tasks.set k t') j)
    (hidle : lock = none → p < q → ∀ u, (s.tasks.set k t')[p]? = some u →
      u.phase = .loadingInfo ∨ u.phase = .reading)
    (hputs : puts = putUpTo ((s.tasks.set k t').map (·.reads)) p d') :
    Replaying { s.setTask k t' with lock := lock, puts := puts } p q d' := by
  have hlength : (s.tasks.set k t').length = s.tasks.length := length_set
  have hsizes : (s.tasks.set k t').map (·.metadata.objectSize) = s.objectSizes :=
    Table.map_set _ hk (by rw [hmeta])
  have hfront : p = q → d' = 0 := by
    intro hpq
    rcases hd with rfl | rfl
    · exact h.front hpq
    · omega
  refine ⟨h.loading, h.waiting.trans (congrArg (fun n => range' q (n - q)) hlength.symm),
    h.le, h.spawned.trans_eq hlength.symm, hfront, fun j u hu => ?_, hlock, hidle, ?_, hputs⟩
  · rcases Table.of_getElem?_set hu with ⟨hne, hold⟩ | ⟨rfl, rfl⟩
    · have hstage := h.stage j u hold
      rcases hd with rfl | rfl
      · exact hstage
      · have htaken : taken k d' j u = taken k d j u := by simp only [taken, if_neg hne]
        exact ⟨htaken ▸ hstage.held, hstage.fresh, hstage.consumed⟩
    · exact ⟨fun _ => hheld, fun hj => absurd hq hj.not_gt, hconsumed⟩
  · show s.inflightLoadBytes ≤ (s.loading.map fun j =>
      ((s.tasks.set k t').map (·.metadata.objectSize)).getD j 0).sum
    rw [hsizes]
    exact h.inflight

theorem Replaying.puts_set (h : s.Replaying p q d) (hk : s.tasks[k]? = some t)
    (hreads : t'.reads = t.reads) : s.puts = putUpTo ((s.tasks.set k t').map (·.reads)) p d := by
  rw [Table.map_set _ hk hreads]
  exact h.puts

theorem Replaying.putting_set (h : s.Replaying p q d) (hk : s.tasks[k]? = some t)
    (hphase : t'.phase = t.phase) (hj : s.lock = some j) : PuttingAt (s.tasks.set k t') j := by
  obtain ⟨u, last, hu, hputting⟩ := h.lock j hj
  by_cases hkj : k = j
  · subst hkj
    cases hk.symm.trans hu
    exact ⟨t', last, getElem?_set_self (List.getElem_of_getElem? hk).1, hphase.trans hputting⟩
  · exact ⟨u, last, by rw [getElem?_set_ne hkj, hu], hputting⟩

theorem taken_eq_zero (hp : p ≤ k) (hd : k = p → d = 0) : taken p d k t = 0 := by
  rw [taken, if_neg (not_lt.mpr hp)]
  split
  next heq => exact hd heq
  next => rfl

section

variable (h : s.Replaying p q d) (hk : s.tasks[k]? = some t)

include h hk

theorem Replaying.read (hphase : t.phase = .loadingInfo ∨ t.phase = .reading)
    (hmeta : t'.metadata = t.metadata) (hopen : t'.Open 0) (hreading : t'.phase = .reading)
    (hp : p ≤ k) (hd : k = p → d = 0) : (s.setTask k t').Replaying p q d := by
  have hq : k < q := by
    by_contra hge
    rw [(h.stage k t hk).fresh (not_lt.mp hge)] at hphase
    rcases hphase with hphase | hphase <;> cases hphase
  refine h.setTask hk hq hmeta (.inl rfl) (.inr ?_) (fun hlt => absurd hlt hp.not_gt)
    (fun j hj => ?_) (fun hnone hpq u hu => ?_)
    (by rw [map_set, putUpTo_set hp hd]; exact h.puts)
  · rw [taken_eq_zero hp hd]
    exact hopen
  · obtain ⟨u, last, hu, hputting⟩ := h.lock j hj
    refine ⟨u, last, ?_, hputting⟩
    rw [getElem?_set_ne, hu]
    rintro rfl
    cases hk.symm.trans hu
    rw [hputting] at hphase
    rcases hphase with hphase | hphase <;> cases hphase
  · rcases Table.of_getElem?_set hu with ⟨-, hold⟩ | ⟨-, rfl⟩
    · exact h.idle hnone hpq u hold
    · exact .inr hreading

theorem Replaying.infoReturn (ht : t.infoReturn (.ok n) = some t') :
    (s.setTask k t').Replaying p q d := by
  simp only [ObjectReplayTask.infoReturn] at ht
  split at ht <;> cases ht
  next hphase =>
    have hstage := h.stage k t hk
    have hq : k < q := by
      by_contra hge
      rw [hstage.fresh (not_lt.mp hge)] at hphase
      cases hphase
    have hp : p ≤ k := by
      by_contra hlt
      have hopened := (hstage.consumed (not_le.mp hlt)).1
      rw [hphase] at hopened
      exact hopened
    rcases hstage.held hq with ⟨hinfo, htaken⟩ | hopen
    · refine h.read hk (.inl hphase) rfl ⟨trivial, by rw [hinfo]; rfl, ?_, ?_⟩ rfl hp ?_
      · rw [drop_zero, map_replicate]
        rfl
      · rintro (hne | hne) <;> exact absurd rfl hne
      · rintro rfl
        rwa [taken, if_neg (lt_irrefl _), if_pos rfl] at htaken
    · have hopened := hopen.phase
      rw [hphase] at hopened
      cases hopened

theorem Replaying.readReturn (ht : t.readReturn i result = some t') :
    (s.setTask k t').Replaying p q d := by
  obtain ⟨hphase, hr⟩ := ObjectReplayTask.pending_of_readReturn ht
  obtain ⟨-, hopen⟩ := h.opened hk (by rw [hphase]; exact ⟨nofun, nofun⟩)
  obtain ⟨htaken, hopen', hmeta, hreading⟩ := ObjectReplayTask.readReturn_open ht hopen
  have hp : p ≤ k := by
    by_contra hlt
    exact ObjectReplayTask.allRead_ne_true hr ((h.stage k t hk).consumed (not_le.mp hlt)).2.1
  refine h.read hk (.inr hphase) hmeta hopen' hreading hp ?_
  rintro rfl
  rwa [taken, if_neg (lt_irrefl _), if_pos rfl] at htaken

theorem Replaying.lockState (ht : t.lockState = some t') :
    Replaying { s.setTask k t' with lock := some k } p q d := by
  obtain ⟨hphase, last, rfl⟩ := ObjectReplayTask.lockState_eq ht
  obtain ⟨hq, hopen⟩ := h.opened hk (by
    rcases hphase with ⟨hphase, -⟩ | hphase <;> rw [hphase] <;> exact ⟨nofun, nofun⟩)
  have hread : t.allRead = true := by
    rcases hphase with ⟨-, hread⟩ | hphase
    · exact hread
    · exact hopen.read (.inl (by rw [hphase]; nofun))
  refine h.setTask hk hq rfl (.inl rfl) (.inr (hopen.setPhase trivial hread))
    (fun hlt => ⟨trivial, hread, ((h.stage k t hk).consumed hlt).2.2⟩) (fun j hj => ?_) nofun
    (h.puts_set hk rfl)
  cases hj
  exact ⟨_, last, getElem?_set_self (List.getElem_of_getElem? hk).1, rfl⟩

end

/-- The lock is released when the head of the queue cannot be consumed. -/
theorem Replaying.unlock (h : s.Replaying p q d) (hlock : s.lock = some k)
    (hfront : p < q → ∀ t, s.tasks[p]? = some t → t.phase = .loadingInfo ∨ t.phase = .reading) :
    (s.unlock k).Replaying p q d := by
  obtain ⟨t, last, hk, hputting⟩ := h.lock k hlock
  obtain ⟨hq, hopen⟩ := h.opened hk (by rw [hputting]; exact ⟨nofun, nofun⟩)
  have hread : t.allRead = true := hopen.read (.inl (by rw [hputting]; nofun))
  obtain ⟨phase, hopened, hunlock⟩ := ObjectReplayTask.unlock_eq hputting
  have heq : s.tasks.modify k .unlock = s.tasks.set k { t with phase := phase } := by
    rw [modify_eq_set_getElem?, hk, ← hunlock]
    rfl
  rw [ObjectReplay.unlock, heq]
  refine h.setTask hk hq rfl (.inl rfl) (.inr (hopen.setPhase hopened hread))
    (fun hlt => ⟨hopened, hread, ((h.stage k t hk).consumed hlt).2.2⟩) nofun (fun _ hpq u hu => ?_)
    (h.puts_set hk rfl)
  rcases Table.of_getElem?_set hu with ⟨-, hold⟩ | ⟨rfl, -⟩
  · exact hfront hpq u hold
  · have hphase := hfront hpq t hk
    rw [hputting] at hphase
    rcases hphase with hphase | hphase <;> cases hphase

theorem Replaying.head (h : s.Replaying p q d) (hpq : p < q) (hk : s.tasks[p]? = some t) :
    t.Held d := by
  have hheld := (h.stage p t hk).held hpq
  rwa [taken, if_neg (lt_irrefl _), if_pos rfl] at hheld

theorem getD_map_reads (hk : s.tasks[k]? = some t) :
    (s.tasks.map (·.reads)).getD k [] = t.reads := by
  rw [getD_eq_getElem?_getD, getElem?_map, hk]
  rfl

theorem Replaying.takeSlot (h : s.Replaying p q d) (hpq : p < q) (hk : s.tasks[p]? = some t)
    (hlock : s.lock = some k) (hblocks : t.blocks = some (slot :: slots))
    (hread : t.allRead = true) : (s.takeSlot p t slot slots).Replaying p q (d + 1) := by
  have hopen : t.Open d := (h.head hpq hk).opened_of_blocks hblocks
  obtain ⟨r, rest, hdrop, hslot, hslots⟩ :=
    map_eq_cons_iff.mp (Option.some.inj (hopen.blocks.symm.trans hblocks))
  refine h.setTask hk hpq rfl (.inr rfl) (.inr ?_) (fun hlt => absurd hlt (lt_irrefl _))
    (fun j hj => h.putting_set hk rfl hj) (fun hnone => ?_) ?_
  · rw [taken, if_neg (lt_irrefl _), if_pos rfl]
    refine ⟨hopen.phase, hopen.sound, ?_, fun _ => hread⟩
    rw [← hslots, ← drop_drop, hdrop, drop_one, tail_cons]
  · cases hnone.symm.trans hlock
  · have hreads : ({ t with blocks := some slots } : ObjectReplayTask).reads = t.reads := rfl
    rw [Table.map_set _ hk hreads, putUpTo_next (by rw [getD_map_reads hk]; exact hdrop), h.puts,
      ← hslot, BlockLoad.ofRead_records]

/-- The head of the queue is consumed; `try_load_objects` is still to come. -/
theorem Replaying.pop (h : s.Replaying p q d) (hpq : p < q) (hk : s.tasks[p]? = some t)
    (hlock : s.lock = some k) (hblocks : t.blocks = some []) (hloading : s.loading = p :: rest) :
    Replaying { s with
      loading := rest
      inflightLoadBytes := s.inflightLoadBytes - t.metadata.objectSize
      tasks := s.tasks.set p { t with replied := true } } (p + 1) q 0 := by
  have hopen : t.Open d := (h.head hpq hk).opened_of_blocks hblocks
  have hdrop : t.reads.drop d = [] :=
    map_eq_nil_iff.mp (Option.some.inj (hopen.blocks.symm.trans hblocks))
  have hread : t.allRead = true := by
    rcases eq_zero_or_pos d with rfl | hd
    · rw [ObjectReplayTask.allRead, show t.reads = [] from hdrop]
      rfl
    · exact hopen.read (.inr (ne_of_gt hd))
  obtain ⟨-, -, hrest⟩ := range'_eq_cons_iff.mp (h.loading.symm.trans hloading)
  set tasks := s.tasks.set p { t with replied := true } with htasks
  have hlength : tasks.length = s.tasks.length := length_set
  have hsizes : tasks.map (·.metadata.objectSize) = s.objectSizes := Table.map_set _ hk rfl
  have hreads : tasks.map (·.reads) = s.tasks.map (·.reads) := Table.map_set _ hk rfl
  refine ⟨hrest, h.waiting.trans (congrArg (fun n => range' q (n - q)) hlength.symm),
    hpq, h.spawned.trans_eq hlength.symm, fun _ => rfl, fun j u hu => ?_,
    fun j hj => h.putting_set hk rfl hj, fun hnone => ?_, ?_, ?_⟩
  · rcases Table.of_getElem?_set hu with ⟨hne, hold⟩ | ⟨rfl, rfl⟩
    · have hstage := h.stage j u hold
      have htaken : taken (p + 1) 0 j u = taken p d j u := by
        simp only [taken, if_neg hne, ite_self]
        split <;> split <;> first | rfl | omega
      exact ⟨htaken ▸ hstage.held, hstage.fresh, fun hj => hstage.consumed (by omega)⟩
    · refine ⟨fun _ => .inr ⟨hopen.phase, hopen.sound, ?_, fun _ => hread⟩,
        fun hj => absurd hpq hj.not_gt, fun _ => ⟨hopen.phase, hread, rfl⟩⟩
      rw [taken, if_pos (Nat.lt_succ_self j), drop_length]
      exact hblocks
  · cases hnone.symm.trans hlock
  · have hsum := h.inflight
    have hsize : s.objectSizes.getD p 0 = t.metadata.objectSize := by
      rw [objectSizes, getD_eq_getElem?_getD, getElem?_map, hk]
      rfl
    rw [hloading, map_cons, sum_cons, hsize] at hsum
    show s.inflightLoadBytes - t.metadata.objectSize ≤ (rest.map fun j =>
      (tasks.map (·.metadata.objectSize)).getD j 0).sum
    rw [hsizes]
    omega
  · show s.puts = putUpTo (tasks.map (·.reads)) (p + 1) 0
    rw [hreads, putUpTo_succ (by rw [length_map]; exact (List.getElem_of_getElem? hk).1)
      (by rw [getD_map_reads hk]; exact hdrop)]
    exact h.puts

theorem Replaying.startLoad (h : s.Replaying p q d) (hwaiting : s.waiting = k :: ks) :
    (s.startLoad k ks).Replaying p (q + 1) d := by
  have hle := h.le
  obtain ⟨rfl, hpos, rfl⟩ := range'_eq_cons_iff.mp (h.waiting.symm.trans hwaiting)
  have hq : q < s.tasks.length := by omega
  set tasks := s.tasks.modify q fun t => { t with phase := .loadingInfo } with htasks
  have hsizes : tasks.map (·.metadata.objectSize) = s.objectSizes := Table.map_modify _ fun _ => rfl
  have hreads : tasks.map (·.reads) = s.tasks.map (·.reads) := Table.map_modify _ fun _ => rfl
  have hlength : tasks.length = s.tasks.length := length_modify ..
  refine ⟨?_, congrArg (fun n => range' (q + 1) (n - (q + 1))) hlength.symm, by omega,
    hq.trans_eq hlength.symm, by omega, fun j u hu => ?_, fun j hj => ?_,
    fun hnone _ u hu => ?_, ?_, ?_⟩
  · show s.loading ++ [q] = _
    rw [h.loading, show q + 1 - p = (q - p) + 1 by omega, range'_concat]
    congr 2
    omega
  · rcases Table.of_getElem?_modify hu with ⟨hne, hold⟩ | ⟨rfl, t, ht, rfl⟩
    · have hstage := h.stage j u hold
      exact ⟨fun hj => hstage.held (by omega), fun hj => hstage.fresh (by omega), hstage.consumed⟩
    · have hfresh := (h.stage j t ht).fresh le_rfl
      exact ⟨fun _ => .inl ⟨by rw [hfresh]; rfl, taken_eq_zero hle fun heq => h.front heq.symm⟩,
        fun hj => by omega, fun hj => by omega⟩
  · obtain ⟨u, last, hu, hputting⟩ := h.lock j hj
    refine ⟨u, last, ?_, hputting⟩
    show tasks[j]? = some u
    rw [htasks, getElem?_modify_ne, hu]
    rintro rfl
    rw [(h.stage q u hu).fresh le_rfl] at hputting
    cases hputting
  · rcases Table.of_getElem?_modify hu with ⟨hne, hold⟩ | ⟨-, t, -, rfl⟩
    · exact h.idle hnone (by omega) u hold
    · exact .inl rfl
  · show (s.inflightLoadBytes + s.objectSizes.getD q 0) % 2 ^ 64 ≤ ((s.loading ++ [q]).map fun j =>
      (tasks.map (·.metadata.objectSize)).getD j 0).sum
    rw [hsizes, map_append, sum_append, map_singleton, sum_singleton]
    exact (Nat.mod_le _ _).trans (Nat.add_le_add_right h.inflight _)
  · show s.puts = putUpTo (tasks.map (·.reads)) p d
    rw [hreads]
    exact h.puts

theorem Replaying.enqueue (h : s.Replaying p q d) (objects : List S3ObjectMetadata) :
    (s.enqueue objects).Replaying p q d := by
  have hold : ∀ {j u}, (s.tasks ++ objects.map ObjectReplayTask.new)[j]? = some u →
      s.tasks[j]? = some u ∨ s.tasks.length ≤ j ∧ u = .new u.metadata := by
    intro j u hu
    rcases lt_or_ge j s.tasks.length with hlt | hge
    · rw [getElem?_append_left hlt] at hu
      exact .inl hu
    · rw [getElem?_append_right hge] at hu
      obtain ⟨o, -, rfl⟩ := mem_map.mp (mem_of_getElem? hu)
      exact .inr ⟨hge, rfl⟩
  have hspawned := h.spawned
  have hle := h.le
  have hlength : (s.enqueue objects).tasks.length = s.tasks.length + objects.length := by
    simp [ObjectReplay.enqueue]
  refine ⟨h.loading, ?_, hle, by omega, h.front, fun j u hu => ?_, fun j hj => ?_,
    fun hnone hpq u hu => ?_, ?_, ?_⟩
  · rw [hlength]
    show s.waiting ++ _ = _
    rw [h.waiting, show s.tasks.length + objects.length - q =
      (s.tasks.length - q) + objects.length by omega, ← range'_append_1]
    congr 2
    omega
  · rcases hold hu with hu | ⟨hge, hnew⟩
    · exact h.stage j u hu
    · exact ⟨fun hj => by omega, fun _ => hnew, fun hj => by omega⟩
  · obtain ⟨u, last, hu, hputting⟩ := h.lock j hj
    exact ⟨u, last, (getElem?_append_left (List.getElem_of_getElem? hu).1).trans hu, hputting⟩
  · rcases hold hu with hu | ⟨hge, -⟩
    · exact h.idle hnone hpq u hu
    · omega
  · refine h.inflight.trans (le_of_eq (congrArg sum (map_congr_left fun j hj => ?_)))
    rw [h.loading, mem_range'_1] at hj
    have hlt : j < (s.tasks.map (·.metadata.objectSize)).length := by
      rw [length_map]
      omega
    rw [objectSizes, objectSizes, ObjectReplay.enqueue, map_append, getD_append _ _ _ _ hlt]
  · show s.puts = putUpTo ((s.tasks ++ objects.map ObjectReplayTask.new).map (·.reads)) p d
    rw [map_append, putUpTo_append (by rw [length_map]; omega)
      (by rw [length_map]; intro heq; exact h.front (by omega))]
    exact h.puts

/-! ## Runs -/

/-- An object waits only for the byte budget. -/
def Saturated (s : ObjectReplay) : Prop :=
  s.waiting ≠ [] → maxInflightLoadBytes ≤ s.inflightLoadBytes

theorem Replaying.loadFrom (h : s.Replaying p q d) (hwaiting : s.waiting = ks) :
    (∃ q, (s.loadFrom ks).Replaying p q d) ∧ (s.loadFrom ks).Saturated := by
  induction ks generalizing s q with
  | nil => exact ⟨⟨q, h⟩, fun hne => absurd hwaiting hne⟩
  | cons k ks ih =>
    rw [ObjectReplay.loadFrom]
    split
    next hfull => exact ⟨⟨q, h⟩, fun _ => hfull⟩
    next => exact ih (h.startLoad hwaiting) rfl

/-- The index of every object loads, and a slot is taken from the front of an object only when no
read of it is in flight. -/
def ReadsHeld (s : ObjectReplay) : Action → Prop
  | .infoReturn _ result => result.isOk = true
  | .putRound _ => (s.loading.head?.bind fun h => s.tasks[h]?).all
      (fun t => !t.frontDone || t.allRead) = true
  | .replayObjects _ | .readReturn .. | .lockState _ => True

instance (s : ObjectReplay) : ∀ a, Decidable (s.ReadsHeld a)
  | .infoReturn _ result => inferInstanceAs (Decidable (result.isOk = true))
  | .putRound _ => inferInstanceAs (Decidable (Option.all _ _ = true))
  | .replayObjects _ | .readReturn .. | .lockState _ => isTrue trivial

theorem Replaying.putRound (h : s.Replaying p q d) (hsat : s.Saturated)
    (hG : s.ReadsHeld (.putRound k)) (hstep : s.putRound k = some s') :
    (∃ p q d, s'.Replaying p q d) ∧ s'.Saturated := by
  rw [ObjectReplay.putRound] at hstep
  split at hstep
  next hlock =>
    split at hstep
    next hnil =>
      cases hstep
      refine ⟨⟨p, q, d, h.unlock hlock fun hpq => ?_⟩, hsat⟩
      have hlen := congrArg length (h.loading.symm.trans hnil)
      rw [length_range', length_nil] at hlen
      omega
    next head rest hloading =>
      obtain ⟨t, ht, rfl⟩ := Option.map_eq_some_iff.mp hstep
      obtain ⟨rfl, hpos, -⟩ := range'_eq_cons_iff.mp (h.loading.symm.trans hloading)
      have hpq : p < q := by omega
      have hheld := h.head hpq ht
      rw [if_neg (by rw [hheld.sound.1]; exact Bool.false_ne_true)]
      split
      next hnone =>
        refine ⟨⟨p, q, d, h.unlock hlock fun _ u hu => ?_⟩, hsat⟩
        cases ht.symm.trans hu
        rcases hheld with ⟨hinfo, -⟩ | hopen
        · exact .inl (by rw [hinfo])
        · cases hnone.symm.trans hopen.blocks
      next hblocks =>
        obtain ⟨hrep, hsat'⟩ := (h.pop hpq ht hlock hblocks hloading).loadFrom rfl
        obtain ⟨q', hrep⟩ := hrep
        exact ⟨⟨_, q', _, hrep⟩, hsat'⟩
      next slot slots hblocks =>
        have hopen := hheld.opened_of_blocks hblocks
        split
        next hdone =>
          have hread : t.allRead = true := by
            simpa [ReadsHeld, hloading, ht, ObjectReplayTask.frontDone, hblocks, hdone] using hG
          exact ⟨⟨_, _, _, h.takeSlot hpq ht hlock hblocks hread⟩, hsat⟩
        next hdone =>
          refine ⟨⟨p, q, d, h.unlock hlock fun _ u hu => .inr ?_⟩, hsat⟩
          cases ht.symm.trans hu
          -- A slot that is not done belongs to a read in flight.
          by_contra hne
          obtain ⟨r, rest, hdrop, hslot, -⟩ :=
            map_eq_cons_iff.mp (Option.some.inj (hopen.blocks.symm.trans hblocks))
          have hmem : r ∈ t.reads := mem_of_mem_drop (by rw [hdrop]; exact mem_cons_self)
          have hsome := all_eq_true.mp (hopen.read (.inl hne)) r hmem
          rw [← hslot, BlockLoad.ofRead_done, hsome] at hdone
          exact hdone rfl
  next => cases hstep

theorem replaying_step (h : (∃ p q d, s.Replaying p q d) ∧ s.Saturated) (hG : s.ReadsHeld a)
    (hstep : s.step a = some s') : (∃ p q d, s'.Replaying p q d) ∧ s'.Saturated := by
  obtain ⟨⟨p, q, d, h⟩, hsat⟩ := h
  cases a with
  | replayObjects objects =>
    simp only [step, ObjectReplay.replayObjects] at hstep
    split at hstep
    next =>
      cases hstep
      exact ⟨⟨p, q, d, h⟩, hsat⟩
    next =>
      split at hstep <;> cases hstep
      next =>
        obtain ⟨⟨q', hrep⟩, hsat'⟩ := (h.enqueue objects).loadFrom rfl
        exact ⟨⟨p, q', d, hrep⟩, hsat'⟩
  | infoReturn k result =>
    obtain ⟨t, hk, ht⟩ := Option.bind_eq_some_iff.mp hstep
    obtain ⟨t', ht', rfl⟩ := Option.map_eq_some_iff.mp ht
    cases result with
    | error => cases hG
    | ok => exact ⟨⟨p, q, d, h.infoReturn hk ht'⟩, hsat⟩
  | readReturn =>
    obtain ⟨t, hk, ht⟩ := Option.bind_eq_some_iff.mp hstep
    obtain ⟨t', ht', rfl⟩ := Option.map_eq_some_iff.mp ht
    exact ⟨⟨p, q, d, h.readReturn hk ht'⟩, hsat⟩
  | lockState =>
    simp only [step] at hstep
    split at hstep
    next => cases hstep
    next =>
      obtain ⟨t, hk, ht⟩ := Option.bind_eq_some_iff.mp hstep
      obtain ⟨t', ht', rfl⟩ := Option.map_eq_some_iff.mp ht
      exact ⟨⟨p, q, d, h.lockState hk ht'⟩, hsat⟩
  | putRound => exact h.putRound hsat hG hstep

/-- The blocks of an object that were read, in index order. -/
def readBlocks (t : ObjectReplayTask) : List (List StreamRecordBatch) :=
  t.reads.filterMap readRecords

theorem flatMap_readBlocks (tasks : List ObjectReplayTask) :
    tasks.flatMap readBlocks = ((tasks.map (·.reads)).flatten).filterMap readRecords := by
  rw [filterMap_flatten, map_map, flatMap]
  rfl

/-- All loads that were spawned have ended. -/
def Quiet (s : ObjectReplay) : Prop :=
  ∀ t ∈ s.tasks, t.phase = .waiting ∨ t.phase = .ended

instance (s : ObjectReplay) : Decidable s.Quiet :=
  inferInstanceAs (Decidable (∀ t ∈ s.tasks, t.phase = .waiting ∨ t.phase = .ended))

theorem Replaying.consumed_of_quiet (h : s.Replaying p q d) (hquiet : s.Quiet) : p = q := by
  have hlock : s.lock = none := by
    refine Option.eq_none_iff_forall_ne_some.mpr fun k hk => ?_
    obtain ⟨t, last, ht, hputting⟩ := h.lock k hk
    rcases hquiet t (mem_of_getElem? ht) with hphase | hphase <;>
      cases hputting.symm.trans hphase
  by_contra hne
  have hpq : p < q := lt_of_le_of_ne h.le hne
  have ht := getElem?_eq_getElem (hpq.trans_le h.spawned)
  rcases h.idle hlock hpq _ ht with hold | hold <;>
    rcases hquiet _ (mem_of_getElem? ht) with hphase | hphase <;> cases hold.symm.trans hphase

/-- **Snapshot object replay is ordered and does not stick** along every run in which every index
loads and no slot is taken while a read of its object is in flight: nothing panics, the puts are a
beginning of the blocks read, by object and by index, and once all loads have ended every block that
was read is put, both queues are empty, no bytes are in flight and every request is answered. -/
theorem replay_in_order {as : List Action} (hG : Guarded step ReadsHeld {} as)
    (h : run step {} as = some s) :
    (∀ t ∈ s.tasks, t.phase ≠ .panicked ∧ t.poisoned = false) ∧
    s.puts <+: s.tasks.flatMap readBlocks ∧
    (s.Quiet → s.puts = s.tasks.flatMap readBlocks ∧ s.loading = [] ∧ s.waiting = [] ∧
      s.inflightLoadBytes = 0 ∧ ∀ t ∈ s.tasks, t.replied = true) := by
  obtain ⟨⟨p, q, d, hrep⟩, hsat⟩ := run_invariant_of_guarded
    replaying_step
    ⟨⟨0, 0, 0, .new⟩, fun hne => absurd rfl hne⟩ hG h
  refine ⟨fun t ht => ?_, ?_, fun hquiet => ?_⟩
  · obtain ⟨k, hk⟩ := mem_iff_getElem?.mp ht
    rcases lt_or_ge k q with hlt | hge
    · exact ((hrep.stage k t hk).held hlt).sound.symm
    · rw [(hrep.stage k t hk).fresh hge]
      exact ⟨nofun, rfl⟩
  · rw [hrep.puts, flatMap_readBlocks]
    exact putUpTo_isPrefix
  · obtain rfl := hrep.consumed_of_quiet hquiet
    have hloading : s.loading = [] := by rw [hrep.loading, Nat.sub_self, range'_zero]
    have hbytes : s.inflightLoadBytes = 0 := by
      have hsum := hrep.inflight
      rw [hloading] at hsum
      exact Nat.le_zero.mp hsum
    have hwaiting : s.waiting = [] := by
      by_contra hne
      have hfull := hsat hne
      rw [hbytes] at hfull
      cases hfull
    have hlength : s.tasks.length = p := by
      have hlen := congrArg length (hrep.waiting.symm.trans hwaiting)
      rw [length_range', length_nil] at hlen
      exact le_antisymm (by omega) hrep.spawned
    refine ⟨?_, hloading, hwaiting, hbytes, fun t ht => ?_⟩
    · rw [hrep.puts, flatMap_readBlocks, hrep.front rfl, putUpTo, take_zero, append_nil,
        take_of_length_le (by rw [length_map, hlength])]
    · obtain ⟨k, hk⟩ := mem_iff_getElem?.mp ht
      exact ((hrep.stage k t hk).consumed (hlength ▸ (List.getElem_of_getElem? hk).1)).2.2

def smallObject (objectId : Nat) : S3ObjectMetadata :=
  ⟨objectId, .stream, [], 10, ⟨0⟩, 0, 0⟩

/-- The rest of a load: both calls of `try_put_objects`, with `m` and `n` rounds. -/
def putTwice (k m n : Nat) : List Action :=
  .lockState k :: List.replicate m (.putRound k) ++ .lockState k :: List.replicate n (.putRound k)

/-- Two objects; the blocks of the first one arrive in reverse order, one of them fails, and the
second one is read before. -/
def orderedSchedule : List Action :=
  [.replayObjects [smallObject 1, smallObject 2], .infoReturn 0 (.ok 3), .infoReturn 1 (.ok 1),
    .readReturn 1 0 (.ok [⟨2, 0, 0, 1, [4]⟩])] ++ putTwice 1 1 1 ++
  [.readReturn 0 2 (.ok [⟨1, 0, 2, 1, [3]⟩]), .readReturn 0 1 (.error ()),
    .readReturn 0 0 (.ok [⟨1, 0, 0, 1, [1]⟩])] ++ putTwice 0 7 1

theorem replay_in_order_reversed :
    ∃ s, run step {} orderedSchedule = some s ∧ s.Quiet ∧
      s.puts = [[⟨1, 0, 0, 1, [1]⟩], [⟨1, 0, 2, 1, [3]⟩], [⟨2, 0, 0, 1, [4]⟩]] ∧
      s.puts = s.tasks.flatMap readBlocks ∧ s.loading = [] ∧ s.inflightLoadBytes = 0 := by
  obtain ⟨s, hs, hquiet, hputs⟩ : ∃ s, run step {} orderedSchedule = some s ∧
      s.Quiet ∧ s.puts = [[⟨1, 0, 0, 1, [1]⟩], [⟨1, 0, 2, 1, [3]⟩], [⟨2, 0, 0, 1, [4]⟩]] := by
    decide +kernel
  obtain ⟨hread, hloading, -, hbytes, -⟩ := (replay_in_order (by decide +kernel) hs).2.2 hquiet
  exact ⟨s, hs, hquiet, hputs, hread, hloading, hbytes⟩

/-- The load of the second object takes the first slot of the first one, whose other read then
writes past the end of the slots. -/
def shiftedSchedule : List Action :=
  [.replayObjects [smallObject 1, smallObject 2], .infoReturn 0 (.ok 2), .infoReturn 1 (.ok 0),
    .readReturn 0 0 (.ok [⟨1, 0, 0, 1, [1]⟩])] ++ putTwice 1 2 1 ++
  [.readReturn 0 1 (.ok [⟨1, 0, 1, 1, [2]⟩])]

/-- The index of the first object fails to load. -/
def failedIndexSchedule : List Action :=
  [.replayObjects [smallObject 1, smallObject 2], .infoReturn 0 (.error ()), .infoReturn 1 (.ok 1),
    .readReturn 1 0 (.ok [⟨2, 0, 0, 1, [4]⟩]), .lockState 0, .putRound 0] ++ putTwice 1 1 1

/-- A read panics behind a slot that was taken, and an object without an index keeps its place at
the head of the queue when all loads have ended: the block of the object behind it is not put. -/
theorem replay_panics_and_sticks :
    (∃ s, run step {} shiftedSchedule = some s ∧
      ∃ t, s.tasks[0]? = some t ∧ t.phase = .panicked ∧ t.poisoned = true ∧ s.loading = [0, 1]) ∧
    ∃ s, run step {} failedIndexSchedule = some s ∧ s.Quiet ∧ s.puts = [] ∧
      s.tasks.flatMap readBlocks = [[⟨2, 0, 0, 1, [4]⟩]] ∧ s.loading = [0, 1] ∧
      s.inflightLoadBytes = 20 := by
  decide +kernel

end ObjectReplay

end S3Stream
