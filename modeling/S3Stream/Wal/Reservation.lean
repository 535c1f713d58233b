import S3Stream.Object.Storage
import S3Stream.Lib.Run

/-! # The reservation that fences a WAL

`ObjectReservationService` (`s3stream-wal/src/object/reservation.rs`) keeps one small object per
node. `acquire` overwrites it with the caller's identity, `verify` reads it back and compares
the bytes. The service is modelled over the bytes it stores, so that what `verify` answers is
what the comparison of 21 bytes gives. -/

namespace S3Stream

open List

/-- Namespace part of all node paths. -/
def defaultNamespace : List Char := "_kafka_".toList

/-- The identity a reservation records: a node, its epoch, and whether it is a failover. -/
structure Lease where
  nodeId : Nat
  epoch : Nat
  failover : Bool
  nodeId_lt : nodeId < 2 ^ 32
  epoch_lt : epoch < 2 ^ 64
  deriving DecidableEq, Repr

/-- The order in which the owners of one WAL follow each other: by epoch, and a failover after
the ordinary owner of the same epoch. -/
def Lease.Older (a b : Lease) : Prop :=
  a.epoch < b.epoch ∨ a.epoch = b.epoch ∧ a.failover = false ∧ b.failover = true

instance (a b : Lease) : Decidable (a.Older b) := by unfold Lease.Older; infer_instance

namespace Reservation

def s3ReservationObjectMagicCode : Nat := 0x12345678

/-- `magic(4) + node_id(8) + epoch(8) + failover(1)`. -/
def s3ReservationObjectLength : Nat := 21

def path (clusterId : List Char) (nodeId : Nat) : Key :=
  "reservation/".toList ++ (defaultNamespace ++ (clusterId ++ ('/' :: decimal nodeId)))

/-- The stored form of an identity; the casts to `i64` keep the bits. -/
def targetBytes (l : Lease) : Bytes :=
  Bytes.ofNat 4 s3ReservationObjectMagicCode ++ (Bytes.ofNat 8 l.nodeId ++
    (Bytes.ofNat 8 l.epoch ++ Bytes.ofNat 1 l.failover.toNat))

variable (clusterId : List Char)

/-- A completed acquire: the object is overwritten whatever it holds. -/
def acquire (s : Storage) (l : Lease) : Storage :=
  s.write (path clusterId l.nodeId) (targetBytes l)

/-- A verification whose read reaches the storage; a missing object verifies nothing. -/
def verify (s : Storage) (l : Lease) : Bool :=
  match s.rangeRead (path clusterId l.nodeId) 0 (some s3ReservationObjectLength) with
  | .ok bytes => if bytes.length ≠ s3ReservationObjectLength then false else bytes = targetBytes l
  | .error _ => false

/-! ## What the stored bytes identify -/

@[simp] theorem length_targetBytes (l : Lease) :
    (targetBytes l).length = s3ReservationObjectLength := by
  simp [targetBytes, s3ReservationObjectLength]

theorem targetBytes_injective : Function.Injective targetBytes := by
  intro a b h
  obtain ⟨-, h⟩ := append_inj h (by simp)
  obtain ⟨hnode, h⟩ := append_inj h (by simp)
  obtain ⟨hepoch, hfail⟩ := append_inj h (by simp)
  have hn := Bytes.ofNat_inj (lt_trans a.nodeId_lt (by decide))
    (lt_trans b.nodeId_lt (by decide)) hnode
  have he := Bytes.ofNat_inj (lt_of_lt_of_le a.epoch_lt (by decide))
    (lt_of_lt_of_le b.epoch_lt (by decide)) hepoch
  have hf : a.failover = b.failover := by
    cases ha : a.failover <;> cases hb : b.failover <;> simp [ha, hb, Bytes.ofNat] at hfail ⊢
  cases a; cases b
  simp_all

theorem path_injective : Function.Injective (path clusterId) := by
  intro m n h
  have hdigits := append_cancel_left (append_cancel_left (append_cancel_left h))
  exact decimal_injective (cons.inj hdigits).2

/-- After an acquire exactly its own identity verifies for that node. -/
theorem verify_acquire (s : Storage) (a l : Lease) :
    verify clusterId (acquire clusterId s a) l =
      if l.nodeId = a.nodeId then decide (l = a) else verify clusterId s l := by
  by_cases hn : l.nodeId = a.nodeId
  · have hread : (acquire clusterId s a).rangeRead (path clusterId l.nodeId) 0
        (some s3ReservationObjectLength) = .ok (targetBytes a) := by
      refine Storage.rangeRead_whole ?_ (le_of_eq (length_targetBytes a))
      rw [acquire, Storage.lookup_write, if_pos (by rw [hn])]
    rw [verify, hread, if_pos hn]
    simp only [length_targetBytes, targetBytes_injective.eq_iff, ne_eq, not_true_eq_false,
      if_false, eq_comm]
  · have hne : path clusterId l.nodeId ≠ path clusterId a.nodeId := (path_injective clusterId).ne hn
    simp only [verify, acquire, Storage.rangeRead, Storage.lookup_write, hne, hn, if_false]

theorem verify_acquire_self (s : Storage) (l : Lease) :
    verify clusterId (acquire clusterId s l) l = true := by
  simp [verify_acquire]

/-! ## Sequences of acquires -/

def acquireAll (s : Storage) (ls : List Lease) : Storage := ls.foldl (acquire clusterId) s

/-- Who verifies after a sequence of acquires either made one of them or verified before. -/
theorem mem_or_verify_of_verify_acquireAll
    (h : verify clusterId (acquireAll clusterId s ls) l = true) :
    l ∈ ls ∨ verify clusterId s l = true := by
  induction ls generalizing s with
  | nil => exact .inr h
  | cons a ls ih =>
    rcases ih h with hmem | hver
    · exact .inl (mem_cons_of_mem a hmem)
    · rw [verify_acquire] at hver
      split at hver
      · exact .inl (mem_cons.mpr (.inl (of_decide_eq_true hver)))
      · exact .inr hver

/-- Acquires in increasing order: once a newer lease is taken, an older one never verifies. -/
theorem verify_acquireAll_of_older (hinc : ls.Pairwise fun a b => a.nodeId = b.nodeId → a.Older b)
    (hnew : new ∈ ls) (hnode : old.nodeId = new.nodeId) (holder : old.Older new) :
    verify clusterId (acquireAll clusterId s ls) old = false := by
  obtain ⟨before, after, rfl⟩ := append_of_mem hnew
  have hafter := (pairwise_cons.mp (pairwise_append.mp hinc).2.1).1
  refine Bool.eq_false_iff.mpr fun hver => ?_
  rw [acquireAll, foldl_append, foldl_cons] at hver
  rcases mem_or_verify_of_verify_acquireAll clusterId hver with hmem | hver
  · have hback := hafter old hmem hnode.symm
    rcases holder with hlt | ⟨heq, hf, hf'⟩ <;> rcases hback with hlt' | ⟨heq', hg, hg'⟩
    · omega
    · omega
    · omega
    · cases hf.symm.trans hg'
  · rw [verify_acquire, if_pos hnode] at hver
    rw [of_decide_eq_true hver] at holder
    rcases holder with hlt | ⟨-, hf, hf'⟩
    · omega
    · cases hf.symm.trans hf'

/-- **When a newer reservation stays in force.** Whatever the storage held before, older epochs
of the node fail to verify at every point after `acquire(l)` exactly when no acquire of an older
epoch of that node completes later: `acquire` itself does not look at what it overwrites. -/
theorem newer_epoch_stays_iff_no_older_acquire (s : Storage) (l : Lease) (later : List Lease) :
    (∀ sofar, sofar <+: later → ∀ old : Lease, old.nodeId = l.nodeId → old.epoch < l.epoch →
        verify clusterId (acquireAll clusterId (acquire clusterId s l) sofar) old = false) ↔
      ∀ a ∈ later, a.nodeId = l.nodeId → ¬ a.epoch < l.epoch := by
  constructor
  · intro h a ha hnode hepoch
    obtain ⟨before, after, rfl⟩ := append_of_mem ha
    have hfalse := h (before ++ [a]) ⟨after, by simp⟩ a hnode hepoch
    rw [acquireAll, foldl_append] at hfalse
    exact Bool.false_ne_true (hfalse.symm.trans (verify_acquire_self clusterId _ a))
  · intro h sofar hsub old hnode hepoch
    refine Bool.eq_false_iff.mpr fun hver => ?_
    rcases mem_or_verify_of_verify_acquireAll clusterId hver with hmem | hver
    · exact h old (hsub.subset hmem) hnode hepoch
    · rw [verify_acquire, if_pos hnode] at hver
      exact hepoch.ne (congrArg Lease.epoch (of_decide_eq_true hver))

/-- A delayed acquire of epoch 1 after epoch 2 took the node puts epoch 1 back in force. -/
theorem late_acquire_reinstates_older_epoch :
    ∃ (clusterId : List Char) (old new : Lease), old.nodeId = new.nodeId ∧ old.epoch < new.epoch ∧
      verify clusterId (acquireAll clusterId (acquire clusterId [] new) [old]) old = true :=
  ⟨"clusterX".toList, ⟨1, 1, false, by decide, by decide⟩, ⟨1, 2, false, by decide, by decide⟩,
    rfl, by decide, verify_acquire_self _ _ _⟩

end Reservation

end S3Stream
