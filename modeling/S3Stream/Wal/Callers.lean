import S3Stream.Lib.Update
import S3Stream.Wal.AckOrder

/-! # The callers of a writer

A writer together with the futures it has handed out: the append futures of `submit`, which a
caller awaits or drops, and the calls of `flush`. Two facts of the whole: a `flush` that returned
is a completion barrier, and, as long as no append future is dropped, `buffered_data_bytes` is the
size of the records on the way. -/

namespace S3Stream

open List TransitionSystem Writer

namespace Pipeline

variable {p p' : Pipeline}

/-! ## The completion signal of the bulk sealed last -/

/-- The completion signal of the bulk was sent. -/
def completed (p : Pipeline) (seq : Nat) : Bool := (p.flushed ++ p.failed).any (·.seq = seq)

/-- `last_inactive_complete` belongs to the bulk that was sealed last. -/
def LastSealed (p : Pipeline) : Prop :=
  p.lastInactiveComplete = (p.sealed.map UploadingBulk.seq).getLast?

theorem LastSealed.congr (h : LastSealed p)
    (hs : p'.sealed.map UploadingBulk.seq = p.sealed.map UploadingBulk.seq)
    (hl : p'.lastInactiveComplete = p.lastInactiveComplete) : LastSealed p' := by
  rw [LastSealed, hl, hs]
  exact h

theorem LastSealed.sealActive (h : LastSealed p) : LastSealed p.sealActive := by
  unfold Pipeline.sealActive
  split
  next => exact h
  next => simp [LastSealed, sealed, Bulk.toUploading]

theorem LastSealed.step (h : LastSealed p) (hc : Control p) (hstep : Effect p op p') :
    LastSealed p' := by
  have hsealed := fun hop => congrArg (map UploadingBulk.seq) (sealed_congr hc hstep hop)
  cases hstep with
  | begin | fence | storeTrim | putLand => exact h.congr rfl rfl
  | place =>
    exact place_induction (fun hq => hq.congr rfl rfl) (fun hq => hq.sealActive)
      (fun hq _ => hq.congr rfl rfl) h
  | sealActive => exact h.sealActive
  | uploadStart => exact h.congr (map_sealed_update fun _ => rfl) rfl
  | putReturn => exact h.congr (map_sealed_update fun _ => rfl) rfl
  | _ => exact h.congr (hsealed trivial) rfl

theorem completed_step (h : p.step op = some p') (hdone : p.completed seq = true) :
    p'.completed seq = true := by
  have hmono : (∀ b ∈ p.flushed ++ p.failed, b ∈ p'.flushed ++ p'.failed) →
      p'.completed seq = true := by
    intro hsub
    obtain ⟨b, hb, hseq⟩ := any_eq_true.mp hdone
    exact any_eq_true.mpr ⟨b, hsub b hb, hseq⟩
  apply hmono
  intro b hb
  cases effect_of_step h with
  | place =>
    rw [(Fills.place p _).flushed, (Fills.place p _).failed]
    exact hb
  | sealActive =>
    rw [(Fills.sealActive p).flushed, (Fills.sealActive p).failed]
    exact hb
  | fail | flush =>
    simp only [mem_append] at hb ⊢
    rcases hb with hb | hb
    · simp [hb]
    · simp [hb]
  | _ => exact hb

/-- Behind the signal of a bulk, every record of that bulk and of the earlier ones has its ack. -/
theorem Inv.acked_of_completed (hi : Inv p) (hdone : p.completed seq = true) {id : AckId}
    (hid : id ∈ p.slots.map Prod.fst) (hle : id.1 ≤ seq) : id ∈ p.acks.map Ack.id := by
  obtain ⟨b, hb, hseq⟩ := any_eq_true.mp hdone
  have hseq : b.seq = seq := of_decide_eq_true hseq
  have hsplit : p.sealed = (p.flushed ++ p.failed) ++
      (p.callback.bulks ++ (p.uploading ++ p.waiting.map Bulk.toUploading)) := by
    rw [sealed, append_assoc]
  have hbs : b ∈ p.sealed := by
    rw [hsplit]
    exact mem_append_left _ hb
  -- The bulk of the record is sealed, and not behind `b`.
  obtain ⟨d, hd, q, hq, hqid⟩ : ∃ d ∈ p.flushed ++ p.failed, ∃ q ∈ d.records, q.ack = id := by
    obtain ⟨x, hx, rfl⟩ := mem_map.mp hid
    obtain ⟨q, hq, rfl⟩ := mem_map.mp hx
    rcases mem_append.mp hq with hq | hq
    · obtain ⟨d, hd, hq⟩ := mem_flatMap.mp hq
      have hdseq : q.ack.1 = d.seq := ((hi.layout.ok d hd).record q hq).ack
      have hle : q.ack.1 ≤ seq := hle
      refine ⟨d, ?_, q, hq, rfl⟩
      have hseqs := hi.layout.seqs
      rw [hsplit] at hd hseqs
      rcases mem_append.mp hd with hd | hd
      · exact hd
      · have hlt := (pairwise_append.mp hseqs).2.2 b hb d hd
        omega
    · cases hact : p.active with
      | none =>
        rw [hact] at hq
        cases hq
      | some a =>
        rw [hact] at hq
        obtain ⟨haok, -, -, -, hlt, -⟩ := hi.layout.active a hact
        have haseq : q.ack.1 = a.seq := (haok.record q hq).ack
        have hle : q.ack.1 ≤ seq := hle
        have hlt := hlt b hbs
        omega
  have hmem : q.slot ∈ p.acks.map fun x => (x.id, x.record) := by
    rw [hi.flush.map_slot_acks]
    exact mem_map_of_mem (mem_flatMap.mpr ⟨d, hd, hq⟩)
  obtain ⟨x, hx, hxq⟩ := mem_map.mp hmem
  exact mem_map.mpr ⟨x, hx, (congrArg Prod.fst hxq).trans hqid⟩

end Pipeline

/-! ## Futures -/

/-- A call of `flush`: the signal it waits for, and the records placed before it. -/
structure FlushCall where
  rx : Option Nat
  submitted : List AckId
  returned : Bool
  deriving DecidableEq, Repr

/-- A writer and its callers. `dropped` are the append futures that were dropped before they
returned. -/
structure Callers where
  writer : Writer
  dropped : List AckId
  flushes : List FlushCall

inductive CallAct where
  | writer (a : WalAct)
  /-- The future of an append is dropped. -/
  | drop (id : AckId)
  /-- The `k`-th call of `flush` returns Ok. -/
  | flushReturn (k : Nat)
  deriving DecidableEq

namespace Callers

def new (c : WalConfig) : Callers := ⟨Writer.new c, [], []⟩

/-- The future that takes the ack `id` is gone. -/
def gone (s : Callers) : WalAct → Bool
  | .resolve id => id ∈ s.dropped
  | _ => false

/-- `flush` keeps the receiver it finds behind its own seal. -/
def flushCalls (s : Callers) (w : Writer) : WalAct → List FlushCall
  | .flush => s.flushes ++ [⟨w.lastInactiveComplete, s.writer.slots.map Prod.fst, false⟩]
  | _ => s.flushes

def step (s : Callers) : CallAct → Option Callers
  | .writer a =>
    if s.gone a then none
    else (s.writer.step a).map fun w => { s with writer := w, flushes := s.flushCalls w a }
  | .drop id =>
    if id ∈ s.writer.unresolved.map Prod.fst ∧ id ∉ s.dropped then
      some { s with dropped := s.dropped ++ [id] }
    else none
  | .flushReturn k =>
    match s.flushes[k]? with
    | none => none
    | some f =>
      if f.returned = false ∧ f.rx.all s.writer.completed then
        some { s with flushes := s.flushes.modify k fun f => { f with returned := true } }
      else none

variable {s s' : Callers} {c : WalConfig} {xs : List CallAct}

inductive Effect (s : Callers) : CallAct → Callers → Prop where
  | writer {a : WalAct} {w : Writer} (hgone : s.gone a = false) (hw : s.writer.step a = some w) :
    Effect s (.writer a) { s with writer := w, flushes := s.flushCalls w a }
  | drop {id : AckId} (hid : id ∈ s.writer.unresolved.map Prod.fst) :
    Effect s (.drop id) { s with dropped := s.dropped ++ [id] }
  | flushReturn {k : Nat} {f : FlushCall} (hk : s.flushes[k]? = some f)
      (hrx : f.rx.all s.writer.completed) :
    Effect s (.flushReturn k)
      { s with flushes := s.flushes.modify k fun f => { f with returned := true } }

theorem effect_of_step (h : s.step x = some s') : Effect s x s' := by
  cases x with
  | writer =>
    simp only [step] at h
    split at h
    next => cases h
    next hgone =>
      obtain ⟨w, hw, rfl⟩ := Option.map_eq_some_iff.mp h
      exact .writer (by simpa using hgone) hw
  | drop =>
    simp only [step] at h
    split at h <;> cases h
    next hc => exact .drop hc.1
  | flushReturn =>
    simp only [step] at h
    split at h
    next => cases h
    next hk =>
      split at h <;> cases h
      next hc => exact .flushReturn hk hc.2

/-- What holds of the writer behind every call. -/
structure Base (w : Writer) : Prop where
  inv : w.toPipeline.Inv
  senders : w.toPipeline.Senders
  last : w.toPipeline.LastSealed

theorem Base.step (h : Base w) (hs : w.step a = some w') : Base w' := by
  refine ⟨Writer.pipelineInv_step h.inv hs, Writer.senders_step h.senders h.inv hs, ?_⟩
  rcases (Writer.effect_of_step hs).pipeline with heq | ⟨op, hop⟩
  · rw [heq]
    exact h.last
  · exact h.last.step h.inv.control (Pipeline.effect_of_step hop)

theorem Base.new (c : WalConfig) : Base (Writer.new c) :=
  ⟨Pipeline.Inv.new c, Pipeline.Senders.new c, rfl⟩

/-! ## Flush is a barrier -/

/-- What a call of `flush` knows. -/
structure FlushOk (w : Writer) (f : FlushCall) : Prop where
  placed : ∀ id ∈ f.submitted, id ∈ w.slots.map Prod.fst
  behind : ∀ id ∈ f.submitted, ∃ seq, f.rx = some seq ∧ id.1 ≤ seq
  returned : f.returned = true → f.rx.all w.completed

theorem slots_subset_step {w : Writer} (hi : w.toPipeline.Inv) (hs : w.step a = some w') :
    w.slots ⊆ w'.slots := by
  rcases slots_step hi hs with ⟨n, d, -, -, hslots⟩ | hperm
  · rw [hslots]
    exact subset_append_left _ _
  · exact hperm.symm.subset

theorem completed_writer_step {w : Writer} (hs : w.step a = some w')
    (hdone : w.completed seq = true) : w'.completed seq = true := by
  rcases (Writer.effect_of_step hs).pipeline with heq | ⟨op, hop⟩
  · rw [heq]
    exact hdone
  · exact Pipeline.completed_step hop hdone

theorem FlushOk.step (h : FlushOk w f) (hb : Base w) (hs : w.step a = some w') : FlushOk w' f := by
  refine ⟨fun id hid => ?_, h.behind, fun hret => ?_⟩
  · exact map_subset Prod.fst (slots_subset_step hb.inv hs) (h.placed id hid)
  · have hrx := h.returned hret
    cases hseq : f.rx with
    | none => rfl
    | some =>
      rw [hseq] at hrx
      exact completed_writer_step hs hrx

/-- The records placed so far are in bulks at or before the one sealed last, once the active one
is sealed. -/
theorem FlushOk.call (hb : Base w) (hs : w.step .flush = some w') :
    FlushOk w' ⟨w'.lastInactiveComplete, w.slots.map Prod.fst, false⟩ := by
  have hb' := hb.step hs
  obtain ⟨p, hp, rfl⟩ := pipe_eq_some hs
  cases hp
  have hslots := Pipeline.slots_sealActive w.toPipeline
  refine ⟨fun id hid => ?_, fun id hid => ?_, nofun⟩
  · show id ∈ (w.toPipeline.sealActive).slots.map Prod.fst
    rw [hslots]
    exact hid
  · -- The bulk of the record is one of the sealed ones, and the last one has the largest number.
    have hactive := Pipeline.active_sealActive w.toPipeline
    have hid : id ∈ (w.toPipeline.sealActive).slots.map Prod.fst := by
      rw [hslots]
      exact hid
    obtain ⟨x, hx, rfl⟩ := mem_map.mp hid
    obtain ⟨q, hq, rfl⟩ := mem_map.mp hx
    rw [hactive] at hq
    obtain ⟨b, hbs, hq⟩ := mem_flatMap.mp (by simpa using hq)
    have hseq : q.ack.1 = b.seq := ((hb'.inv.layout.ok b hbs).record q hq).ack
    have hmem : b.seq ∈ (w.toPipeline.sealActive).sealed.map UploadingBulk.seq := mem_map_of_mem hbs
    obtain ⟨last, hlast⟩ := Option.isSome_iff_exists.mp
      (getLast?_isSome.mpr (ne_nil_of_mem hmem))
    refine ⟨last, hb'.last.trans hlast, ?_⟩
    obtain ⟨front, hfront⟩ := getLast?_eq_some_iff.mp hlast
    have hsorted : ((w.toPipeline.sealActive).sealed.map UploadingBulk.seq).Pairwise (· < ·) :=
      pairwise_map.mpr hb'.inv.layout.seqs
    rw [hfront] at hmem hsorted
    show q.ack.1 ≤ last
    rw [hseq]
    rcases mem_append.mp hmem with hmem | hmem
    · exact ((pairwise_append.mp hsorted).2.2 _ hmem last (by simp)).le
    · exact (mem_singleton.mp hmem).le

def Flushes (s : Callers) : Prop := Base s.writer ∧ ∀ f ∈ s.flushes, FlushOk s.writer f

theorem Flushes.new (c : WalConfig) : Flushes (Callers.new c) := ⟨Base.new c, nofun⟩

theorem Flushes.step (h : Flushes s) (hs : Effect s x s') : Flushes s' := by
  obtain ⟨hbase, hflush⟩ := h
  cases hs with
  | @writer a w hgone hw =>
    have hold : ∀ f ∈ s.flushes, FlushOk w f := fun f hf => (hflush f hf).step hbase hw
    refine ⟨hbase.step hw, ?_⟩
    cases a with
    | flush => exact forall_mem_append.mpr ⟨hold, forall_mem_singleton.mpr (.call hbase hw)⟩
    | _ => exact hold
  | drop => exact ⟨hbase, hflush⟩
  | @flushReturn k f₀ hk hrx =>
    refine ⟨hbase, fun f hf => ?_⟩
    obtain ⟨n, hn⟩ := mem_iff_getElem?.mp hf
    rcases Table.of_getElem?_modify hn with ⟨-, hn⟩ | ⟨-, f₁, hf₁, rfl⟩
    · exact hflush f (mem_of_getElem? hn)
    · cases hk.symm.trans hf₁
      have hok := hflush f₀ (mem_of_getElem? hk)
      exact ⟨hok.placed, hok.behind, fun _ => hrx⟩

/-- **Flush is a completion barrier.** When a call of `flush` has returned Ok, every record placed
before the call has its ack, Ok or Err. -/
theorem flush_is_barrier (h : run Callers.step (Callers.new c) xs = some s) :
    ∀ f ∈ s.flushes, f.returned = true → ∀ id ∈ f.submitted, id ∈ s.writer.acks.map Ack.id := by
  have hinv : Flushes s := run_invariant
    (fun hf hs => hf.step (effect_of_step hs)) (Flushes.new c) h
  obtain ⟨hbase, hflush⟩ := hinv
  intro f hf hret id hid
  have hok := hflush f hf
  obtain ⟨seq, hrx, hle⟩ := hok.behind id hid
  have hdone := hok.returned hret
  rw [hrx] at hdone
  exact hbase.inv.acked_of_completed hdone (hok.placed id hid) hle

/-- Two bulks on the way when `flush` is called: one uploading, one waiting for the single slot. -/
def flushSchedule : List CallAct :=
  [.writer (.startVerify .held), .writer (.startList []), .writer (.submit ⟨5, 0, 0, 1, [1]⟩),
    .writer (.place 0), .writer (.timer 1), .writer .tryUpload, .writer (.uploadStart 1),
    .writer (.submit ⟨5, 0, 1, 1, [2]⟩), .writer (.place 0), .writer .flush, .writer .tryUpload,
    .writer (.putLand 1), .writer (.putReturn 1 true), .writer .recv, .writer .tryUpload,
    .writer (.verify .held), .writer .loadFenced, .writer .completeBulk, .writer .completeBulk,
    .writer (.uploadStart 2), .writer (.putReturn 2 false), .writer .recv,
    .writer (.verify .held), .writer .loadFenced, .writer .completeBulk, .flushReturn 0]

theorem flush_is_barrier_two_bulks :
    ∃ s, run Callers.step
        (Callers.new { WalConfig.defaults with maxInflightUploadCount := 1 }) flushSchedule =
          some s ∧
      s.flushes = [⟨some 2, [(1, 0), (2, 0)], true⟩] ∧
      (1, 0) ∈ s.writer.acks.map Ack.id ∧ (2, 0) ∈ s.writer.acks.map Ack.id := by
  refine exists_and (by decide +kernel) fun s hs hflushes => ?_
  have hall := flush_is_barrier hs ⟨some 2, [(1, 0), (2, 0)], true⟩ (by simp [hflushes]) rfl
  exact ⟨hall (1, 0) (by simp), hall (2, 0) (by simp)⟩

/-! ## Back-pressure -/

/-- The counter and the append futures that have not returned. -/
structure Accounts (w : Writer) : Prop where
  buffered : w.bufferedDataBytes = (w.unresolved.map Prod.snd).sum
  nodup : (w.unresolved.map Prod.fst).Nodup
  sizes : ∀ e ∈ w.unresolved, ∃ r, (e.1, r) ∈ w.slots ∧ e.2 = framedSize r
  unacked : ∀ x ∈ w.slots, x.1 ∈ w.acks.map Ack.id ∨ x.1 ∈ w.unresolved.map Prod.fst

theorem Accounts.new (c : WalConfig) : Accounts (Writer.new c) := ⟨rfl, .nil, nofun, nofun⟩

theorem Accounts.congr (h : Accounts w) (hbuffered : w'.bufferedDataBytes = w.bufferedDataBytes)
    (hunresolved : w'.unresolved = w.unresolved) (hslots : w'.slots.Perm w.slots)
    (hacks : w.acks <+: w'.acks) : Accounts w' := by
  constructor
  · rw [hbuffered, hunresolved]
    exact h.buffered
  · rw [hunresolved]
    exact h.nodup
  · rw [hunresolved]
    intro e he
    obtain ⟨r, hr, hsize⟩ := h.sizes e he
    exact ⟨r, hslots.symm.subset hr, hsize⟩
  · rw [hunresolved]
    intro x hx
    refine (h.unacked x (hslots.subset hx)).imp_left fun hack => ?_
    exact map_subset Ack.id hacks.subset hack

theorem Accounts.place (h : Accounts w) (hb : Base w) (hs : w.step (.place n) = some w') :
    Accounts w' := by
  have hacks := Writer.acks_step hs
  obtain ⟨d, hd⟩ : ∃ d, w.admitted[n]? = some d := by
    cases hd : w.admitted[n]? with
    | none => simp [Writer.step, Writer.place, hd] at hs
    | some d => exact ⟨d, rfl⟩
  have hfresh := Writer.ackFor_fresh hb.senders hb.inv hd hs
  have hslots := Writer.slots_place hd hs
  have hbuffered : w'.bufferedDataBytes = w.bufferedDataBytes + framedSize d.record ∧
      w'.unresolved = w.unresolved ++ [(w.ackFor d.record, framedSize d.record)] := by
    simp only [Writer.step, Writer.place, hd] at hs
    obtain ⟨p, -, rfl⟩ := Writer.pipe_eq_some hs
    exact ⟨rfl, rfl⟩
  obtain ⟨hbuffered, hunresolved⟩ := hbuffered
  constructor
  · rw [hbuffered, hunresolved, h.buffered]
    simp
  · rw [hunresolved, map_append, nodup_append]
    refine ⟨h.nodup, nodup_singleton _, fun id hid id' hid' => ?_⟩
    obtain ⟨e, he, rfl⟩ := mem_map.mp hid
    obtain ⟨r, hr, -⟩ := h.sizes e he
    rw [mem_singleton.mp hid']
    exact (hfresh _ hr).2
  · rw [hunresolved, hslots]
    refine forall_mem_append.mpr ⟨fun e he => ?_,
      forall_mem_singleton.mpr ⟨d.record, mem_append_right _ (mem_singleton.mpr rfl), rfl⟩⟩
    obtain ⟨r, hr, hsize⟩ := h.sizes e he
    exact ⟨r, mem_append_left _ hr, hsize⟩
  · rw [hunresolved, hslots]
    intro x hx
    rw [map_append, mem_append]
    rcases mem_append.mp hx with hx | hx
    · rcases h.unacked x hx with hack | hid
      · exact .inl (map_subset Ack.id hacks.subset hack)
      · exact .inr (.inl hid)
    · obtain rfl := mem_singleton.mp hx
      exact .inr (.inr (mem_singleton.mpr rfl))

theorem Accounts.resolve {id : AckId} (h : Accounts w) (hs : w.step (.resolve id) = some w') :
    Accounts w' := by
  obtain ⟨size, hsize, hack, rfl⟩ : ∃ size, w.unresolved.lookup id = some size ∧
      w.acks.any (·.id = id) = true ∧ w' = { w with
        unresolved := w.unresolved.eraseP (·.1 = id)
        bufferedDataBytes := w.bufferedDataBytes - size } := by
    simp only [Writer.step, Writer.resolve] at hs
    split at hs
    next => cases hs
    next size hsize =>
      split at hs <;> cases hs
      next hack => exact ⟨size, hsize, hack, rfl⟩
  obtain ⟨l₁, l₂, hsplit, hfirst⟩ := lookup_eq_some_iff.mp hsize
  have herase : w.unresolved.eraseP (·.1 = id) = l₁ ++ l₂ := by
    have hother : ∀ e ∈ l₁, ¬ decide (e.1 = id) = true := by
      intro e he heq
      have hne := hfirst e he
      simp [of_decide_eq_true heq] at hne
    rw [hsplit, eraseP_append_right _ hother]
    simp
  have hsub : (l₁ ++ l₂).Sublist w.unresolved := herase ▸ eraseP_sublist
  constructor
  · show w.bufferedDataBytes - size = _
    rw [h.buffered, herase, hsplit]
    simp only [map_append, map_cons, sum_append, sum_cons]
    omega
  · show ((w.unresolved.eraseP _).map _).Nodup
    rw [herase]
    exact h.nodup.sublist (hsub.map _)
  · intro e he
    rw [herase] at he
    exact h.sizes e (hsub.subset he)
  · intro x hx
    rw [herase]
    by_cases hxid : x.1 = id
    · obtain ⟨y, hy, hyid⟩ := any_eq_true.mp hack
      exact .inl (mem_map.mpr ⟨y, hy, (of_decide_eq_true hyid).trans hxid.symm⟩)
    · refine (h.unacked x hx).imp_right fun hmem => ?_
      rw [hsplit] at hmem
      simpa [hxid] using hmem

theorem Accounts.step (h : Accounts w) (hb : Base w) (hs : w.step a = some w') : Accounts w' := by
  have hacks := Writer.acks_step hs
  have hslots := Writer.slots_step hb.inv hs
  by_cases hplace : ∃ n, a = .place n
  · obtain ⟨n, rfl⟩ := hplace
    exact h.place hb hs
  by_cases hresolve : ∃ id, a = .resolve id
  · obtain ⟨id, rfl⟩ := hresolve
    exact h.resolve hs
  have hperm := hslots.resolve_left fun ⟨n, _, ha, _⟩ => hplace ⟨n, ha⟩
  refine h.congr ?_ ?_ hperm hacks <;> cases Writer.effect_of_step hs with
  | place => exact absurd ⟨_, rfl⟩ hplace
  | resolve => exact absurd ⟨_, rfl⟩ hresolve
  | _ => rfl

theorem Accounts.perm (h : Accounts w) (hs : w.toPipeline.Senders) :
    w.unresolved.Perm ((w.slots.filter fun x => x.1 ∈ w.unresolved.map Prod.fst).map
      fun x => (x.1, framedSize x.2)) := by
  have hslots : w.slots.Nodup := hs.nodup.of_map Prod.fst
  refine (perm_ext_iff_of_nodup (h.nodup.of_map Prod.fst) ?_).mpr fun e => ?_
  · refine (hslots.filter _).map_on fun x hx y hy heq => ?_
    have hid : x.1 = y.1 := congrArg (fun e : AckId × Nat => e.1) heq
    exact inj_on_of_nodup_map hs.nodup (mem_of_mem_filter hx) (mem_of_mem_filter hy)
      hid
  · constructor
    · intro he
      obtain ⟨r, hr, hsize⟩ := h.sizes e he
      refine mem_map.mpr ⟨(e.1, r), mem_filter.mpr ⟨hr, ?_⟩, ?_⟩
      · simpa using ⟨e.2, he⟩
      · exact Prod.ext rfl hsize.symm
    · intro he
      obtain ⟨x, hx, rfl⟩ := mem_map.mp he
      obtain ⟨hx, hid⟩ := mem_filter.mp hx
      obtain ⟨e, he, heid⟩ := mem_map.mp (of_decide_eq_true hid)
      obtain ⟨r, hr, hsize⟩ := h.sizes e he
      obtain rfl : r = x.2 := hs.record_unique (heid ▸ hr) hx
      rwa [← heid, ← hsize]

/-- A record is on the way until its ack is sent, and while its caller awaits it until the caller
has the ack. -/
def onTheWay (s : Callers) (id : AckId) : Bool :=
  id ∉ s.writer.acks.map Ack.id || (id ∈ s.writer.unresolved.map Prod.fst && id ∉ s.dropped)

/-- The records submitted and not yet completed. -/
def outstanding (s : Callers) : List (AckId × StreamRecordBatch) :=
  s.writer.slots.filter fun x => s.onTheWay x.1

/-- Without dropped futures the counter is the size of the records on the way. -/
theorem Accounts.buffered_eq (h : Accounts s.writer) (hs : s.writer.toPipeline.Senders)
    (hdropped : s.dropped = []) :
    s.writer.bufferedDataBytes = (s.outstanding.map fun x => framedSize x.2).sum := by
  have hfilter : s.outstanding =
      s.writer.slots.filter fun x => x.1 ∈ s.writer.unresolved.map Prod.fst := by
    refine filter_congr fun x hx => ?_
    have hcase := h.unacked x hx
    simp only [onTheWay, hdropped, not_mem_nil, not_false_eq_true, decide_true, Bool.and_true]
    by_cases hid : x.1 ∈ s.writer.unresolved.map Prod.fst
    · simp [hid]
    · simp [hid, hcase.resolve_right hid]
  rw [h.buffered, hfilter, ((h.perm hs).map Prod.snd).sum_eq, map_map]
  rfl

def Keeps : CallAct → Prop
  | .drop _ => False
  | _ => True

instance : DecidablePred Keeps := fun x => by cases x <;> unfold Keeps <;> infer_instance

/-- The accounts of a writer whose futures are all awaited. -/
structure Awaited (s : Callers) : Prop where
  base : Base s.writer
  accounts : Accounts s.writer
  dropped : s.dropped = []

theorem Awaited.new (c : WalConfig) : Awaited (Callers.new c) :=
  ⟨Base.new c, Accounts.new c, rfl⟩

theorem Awaited.step (h : Awaited s) (hx : Keeps x) (hs : Effect s x s') : Awaited s' := by
  cases hs with
  | writer hgone hw => exact ⟨h.base.step hw, h.accounts.step h.base hw, h.dropped⟩
  | drop => exact hx.elim
  | flushReturn => exact ⟨h.base, h.accounts, h.dropped⟩

/-- **Back-pressure is exact** as long as no append future is dropped: `buffered_data_bytes` is the
size of the records submitted and not yet completed, and with none of these nothing is refused for
capacity. -/
theorem buffered_exact
    (hkept : Guarded Callers.step (fun _ x => Keeps x) (Callers.new c) xs)
    (h : run Callers.step (Callers.new c) xs = some s) :
    s.writer.bufferedDataBytes = (s.outstanding.map fun x => framedSize x.2).sum ∧
      (s.outstanding = [] → s.writer.bufferedDataBytes = 0 ∧
        ∀ r n m, s.writer.submitCheck r ≠ .error (.overCapacity n m)) := by
  have hinv : Awaited s := run_invariant_of_guarded
    (fun hi hG hs => hi.step hG (effect_of_step hs)) (Awaited.new c) hkept h
  have hexact := hinv.accounts.buffered_eq hinv.base.senders hinv.dropped
  refine ⟨hexact, fun hnone => ?_⟩
  have hzero : s.writer.bufferedDataBytes = 0 := by
    rw [hexact, hnone]
    rfl
  refine ⟨hzero, fun r n m hcheck => ?_⟩
  unfold submitCheck checkStatus at hcheck
  by_cases hclosed : s.writer.closed = true
  · simp [hclosed, bind, Except.bind] at hcheck
  by_cases hfenced : s.writer.fenced = true
  · simp [hclosed, hfenced, bind, Except.bind] at hcheck
  simp only [hclosed, hfenced, hzero, bind, Except.bind, Bool.false_eq_true, if_false,
    Nat.not_lt_zero] at hcheck
  split at hcheck <;> cases hcheck

/-- One record is acknowledged and awaited, one is in an active bulk. -/
def awaitedSchedule : List CallAct :=
  [.writer (.startVerify .held), .writer (.startList []), .writer (.submit ⟨5, 0, 0, 1, [1]⟩),
    .writer (.place 0), .writer .flush, .writer .tryUpload, .writer (.uploadStart 1),
    .writer (.putLand 1), .writer (.putReturn 1 true), .writer .recv, .writer (.verify .held),
    .writer .loadFenced, .writer .completeBulk, .writer .completeBulk, .writer (.resolve (1, 0)),
    .writer (.submit ⟨5, 0, 1, 1, [2]⟩), .writer (.place 0)]

theorem buffered_exact_one :
    ∃ s, run Callers.step (Callers.new .defaults) awaitedSchedule = some s ∧
      s.outstanding = [((2, 0), ⟨5, 0, 1, 1, [2]⟩)] ∧
      s.writer.bufferedDataBytes = framedSize ⟨5, 0, 1, 1, [2]⟩ := by
  refine exists_and (by decide +kernel) fun s hs hone => ?_
  rw [(buffered_exact (by decide +kernel) hs).1, hone]
  simp

/-- The caller drops the future of the only append; then its bulk is uploaded and acknowledged. -/
def droppedSchedule : List CallAct :=
  awaitedSchedule.take 4 ++ [.drop (1, 0)] ++ (awaitedSchedule.drop 4).take 10

/-- Nothing is on the way, and every append is refused for capacity. -/
theorem dropped_append_leaks :
    ∃ s, run Callers.step
        (Callers.new { WalConfig.defaults with maxUnflushedBytes := 0 }) droppedSchedule = some s ∧
      s.writer.acks.map Ack.id = [(1, 0)] ∧ s.outstanding = [] ∧ 0 < s.writer.bufferedDataBytes ∧
      ∀ r, s.writer.submitCheck r = .error (.overCapacity s.writer.bufferedDataBytes 0) := by
  obtain ⟨s, hs, ⟨hacks, hnone, hpos⟩, hclosed, hfenced, hmax⟩ : ∃ s, run Callers.step
      (Callers.new { WalConfig.defaults with maxUnflushedBytes := 0 }) droppedSchedule = some s ∧
        (s.writer.acks.map Ack.id = [(1, 0)] ∧ s.outstanding = [] ∧
          0 < s.writer.bufferedDataBytes) ∧ s.writer.closed = false ∧ s.writer.fenced = false ∧
        s.writer.config.maxUnflushedBytes = 0 := by decide +kernel
  refine ⟨s, hs, hacks, hnone, hpos, fun r => ?_⟩
  unfold submitCheck checkStatus
  simp [bind, Except.bind, hclosed, hfenced, hmax, hpos]

end Callers

end S3Stream
