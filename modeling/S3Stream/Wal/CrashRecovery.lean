import S3Stream.Wal.EpochRecovery

/-! # Crash recovery of a single writer

One writer on an empty prefix. Whatever the interleaving and wherever it stops, a recovery over
the objects then in the bucket yields every acknowledged record above the trims. -/

namespace S3Stream

open List TransitionSystem

namespace Cluster

variable {s s' : Cluster} {x : ClusterAct} {w : Writer}

/-- One writer on an empty prefix is a chain of take-overs of length one: it starts at offset 0,
where a reset has nothing to do, and a single epoch has no overlaps. -/
structure Solo (s : Cluster) (w : Writer) : Prop where
  takeovers : Takeovers s
  nodes : s.nodes = [w]
  start : w.startOffset = 0
  completed : trimOffsetNone ≤ w.completedTrim

namespace Solo

theorem only {i : Nat} (h : Solo s w) (hv : s.nodes[i]? = some v) : i = 0 ∧ v = w := by
  rw [h.nodes] at hv
  cases i with
  | zero => exact ⟨rfl, by simpa using hv.symm⟩
  | succ n => simp at hv

theorem epoch_eq (h : Solo s w) (hf : f ∈ s.store) : f.epoch = w.config.epoch := by
  obtain ⟨i, v, hv, he⟩ := h.takeovers.own f hf
  obtain ⟨-, rfl⟩ := h.only hv
  exact he

theorem resetsFirst (h : Solo s w) (x : ClusterAct) : s.ResetsFirst x := by
  cases x with
  | node i a =>
    intro v hv
    obtain ⟨-, rfl⟩ := h.only hv
    have hle : (v.startOffset : Int) - 1 ≤ v.completedTrim := by
      rw [h.start]
      exact h.completed
    unfold Writer.AfterReset
    split
    · exact hle
    · exact hle
    · trivial
  | acquire | deleteLand => trivial

theorem settles (h : Solo s w) (x : ClusterAct) : s.Settles x := by
  cases x with
  | acquire | deleteLand => trivial
  | node i a =>
    cases a with
    | putLand seq =>
      intro v hv
      have hn := h.takeovers.epochs.inv.node i v hv
      obtain ⟨-, rfl⟩ := h.only hv
      have hepoch : ∀ f ∈ s.storeAfter v (.putLand seq), f.epoch = v.config.epoch := by
        intro f hf
        rcases mem_storeAfter_cases hf with hf | ⟨q, hq, rfl⟩
        · exact h.epoch_eq hf
        · obtain ⟨b, hb, -, hput⟩ := hn.pipeline.puts.bulk q hq
          exact (hn.window hb hput).2.2
      intro f hf g hg hlt
      have := hepoch f hf
      have := hepoch g hg
      omega
    | _ => trivial

theorem step (h : Solo s w) (hs : s.step x = some s') : ∃ w', Solo s' w' := by
  have htake := h.takeovers.step (h.resetsFirst x) (h.settles x)
    (fun i j v _ hv hlt _ => by have := (h.only hv).1; omega) hs
  cases effect_of_step hs with
  | acquire | deleteLand => exact ⟨w, htake, h.nodes, h.start, h.completed⟩
  | @node i a v w' hv hans hstep =>
    have hn := h.takeovers.epochs.inv.node i v hv
    obtain ⟨rfl, rfl⟩ := h.only hv
    have heff := Writer.effect_of_step hstep
    refine ⟨w', htake, by simp [h.nodes], ?_, ?_⟩
    · rcases Writer.startOffset_step heff with heq | ⟨listed, hver, rfl, heq⟩
      · rw [heq, h.start]
      · -- Nothing is stored before the writer has started.
        have hnil : s.store = [] := by
          refine eq_nil_iff_forall_not_mem.mpr fun f hf => ?_
          obtain ⟨j, u, hu, b, hb, -⟩ := h.takeovers.issuer hf
          obtain ⟨-, rfl⟩ := h.only hu
          rw [(hn.untouched (by simp [hver])).quiet.sealed] at hb
          cases hb
        obtain rfl := hans
        rw [heq, listing, storage, hnil]
        rfl
    · cases heff with
      | trimFinish => exact le_max_of_le_left h.completed
      | _ => exact h.completed

theorem run (h : Solo s w) (hrun : run Cluster.step s xs = some s') :
    ∃ w', Solo s' w' :=
  run_invariant (I := fun s => ∃ w, Solo s w)
    (fun ⟨_, hw⟩ hs => hw.step hs) ⟨w, h⟩ hrun

theorem new {c : WalConfig} {clusterId : List Char} :
    Solo (Cluster.new c.dir clusterId [] [c]) (Writer.new c) where
  takeovers := .new (fun _ hd => mem_singleton.mp hd ▸ c.root_eq) (pairwise_singleton ..)
  nodes := rfl
  start := rfl
  completed := le_refl _

/-- The watermark of the newest header is a trim that was requested, or none. -/
theorem newestTrim_le (h : Solo s w) : newestTrim (discoverFiles s.store) ≤ w.trimOffset := by
  have hn := h.takeovers.epochs.inv.node 0 w (by simp [h.nodes])
  rw [newestTrim]
  cases hl : (discoverFiles s.store).getLast? with
  | none => exact hn.pipeline.layout.trim_ge
  | some l =>
    obtain ⟨i, v, hv, b, hb, hput⟩ :=
      h.takeovers.issuer (discoverFiles_subset _ (mem_of_getLast? hl))
    obtain ⟨-, rfl⟩ := h.only hv
    exact hn.trims.headers b hb l hput

end Solo

/-- Three bulks: two records and a trim of the first one, whose delete has taken effect. -/
def trimmedSchedule : List ClusterAct :=
  let bulk (seq : Nat) : List WalAct := [.place 0, .flush, .tryUpload, .uploadStart seq,
    .putLand seq, .putReturn seq true, .recv, .verify .held, .loadFenced, .completeBulk,
    .completeBulk]
  let writer : List WalAct :=
    [.startVerify .held, .startList [], .submit ⟨5, 0, 0, 1, [1, 2, 3]⟩] ++
    bulk 1 ++ [.submit ⟨5, 0, 1, 1, [4]⟩] ++ bulk 2 ++ [.trimStart 0, .trimSubmit 0] ++ bulk 3 ++
    [.trimProceed 0]
  .acquire WalConfig.defaults.lease :: writer.map (.node 0) ++
    [.deleteLand 0 ⟨genObjectPathV1 WalConfig.defaults.root 0 0 dataFileAlignSize, 0, 0,
      dataFileAlignSize, 108⟩]

end Cluster

end S3Stream
