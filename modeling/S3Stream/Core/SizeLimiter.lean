import Mathlib.Algebra.BigOperators.Group.List.Basic
import Mathlib.Algebra.GroupWithZero.Nat
import S3Stream.Lib.Run

/-! # The size limiter

`AsyncSizeLimiter` of `s3stream-core/src/cache/blockcache/size_limiter.rs`, and callers that
acquire, wait, retry once they are woken and release what they acquired. -/

namespace S3Stream

open List TransitionSystem

/-- The value of an `i64` under casts from `u64` and arithmetic that wraps. -/
@[irreducible] def wrapI64 (n : Int) : Int := n.bmod (2 ^ 64)

theorem wrapI64_sub (m n : Int) : wrapI64 (wrapI64 m - n) = wrapI64 (m - n) := by
  unfold wrapI64
  exact Int.bmod_sub_bmod

theorem wrapI64_add (m n : Int) : wrapI64 (wrapI64 m + n) = wrapI64 (m + n) := by
  unfold wrapI64
  exact Int.bmod_add_bmod

/-- The balance and the queue; `α` names the callers in it. -/
structure AsyncSizeLimiter (α : Type) where
  permits : Int
  waiters : List α

namespace AsyncSizeLimiter

def new (permits : Nat) : AsyncSizeLimiter α := ⟨wrapI64 permits, []⟩

/-- The caller acquires, or is queued. -/
def tryAcquire (l : AsyncSizeLimiter α) (required : Nat) (caller : α) :
    AsyncSizeLimiter α × Bool :=
  if 0 ≤ l.permits then ({ l with permits := wrapI64 (l.permits - required) }, true)
  else ({ l with waiters := l.waiters ++ [caller] }, false)

/-- A positive balance wakes the first waiter. -/
def release (l : AsyncSizeLimiter α) (required : Nat) : AsyncSizeLimiter α × Option α :=
  if 0 < wrapI64 (l.permits + required) then
    (⟨wrapI64 (l.permits + required), l.waiters.tail⟩, l.waiters.head?)
  else (⟨wrapI64 (l.permits + required), l.waiters⟩, none)

def requiredRelease (l : AsyncSizeLimiter α) : Bool := l.permits ≤ 0 || !l.waiters.isEmpty

end AsyncSizeLimiter

/-- A limiter and its callers, each named by the size it asks for. -/
structure SizeLimited where
  limiter : AsyncSizeLimiter Nat
  /-- Acquired and not released. -/
  held : List Nat
  /-- Woken, and yet to retry. -/
  woken : List Nat

namespace SizeLimited

def new (permits : Nat) : SizeLimited := ⟨.new permits, [], []⟩

def tryAcquire (s : SizeLimited) (required : Nat) : SizeLimited :=
  { s with
    limiter := (s.limiter.tryAcquire required required).1
    held := if (s.limiter.tryAcquire required required).2 then required :: s.held else s.held }

inductive Action where
  | tryAcquire (required : Nat)
  | retry (k : Nat)
  | release (k : Nat)

def step (s : SizeLimited) : Action → Option SizeLimited
  | .tryAcquire required => some (s.tryAcquire required)
  | .retry k => s.woken[k]?.map { s with woken := s.woken.eraseIdx k }.tryAcquire
  | .release k => s.held[k]?.map fun required =>
    ⟨(s.limiter.release required).1, s.held.eraseIdx k,
      s.woken ++ (s.limiter.release required).2.toList⟩

structure Inv (permits : Nat) (s : SizeLimited) : Prop where
  balance : s.limiter.permits = wrapI64 (permits - s.held.sum)
  waiters : s.limiter.waiters ≠ [] → s.held ≠ [] ∨ s.woken ≠ []

variable {s s' : SizeLimited} {permits : Nat}

/-- With nothing held the balance is the configured one. -/
theorem balance_of_nil {balance : Int} (h : balance = wrapI64 (permits - (sum sizes : Nat)))
    (hsizes : sizes = []) : balance = wrapI64 permits := by
  rw [h, hsizes, sum_nil, Int.natCast_zero, Int.sub_zero]

theorem Inv.tryAcquire (h : s.limiter.permits = wrapI64 (permits - s.held.sum))
    (hpermits : 0 < wrapI64 permits) (required : Nat) : (s.tryAcquire required).Inv permits := by
  unfold SizeLimited.tryAcquire AsyncSizeLimiter.tryAcquire
  split
  next =>
    refine ⟨?_, fun _ => .inl (cons_ne_nil _ _)⟩
    show wrapI64 (_ - _) = wrapI64 (permits - (required :: s.held).sum)
    rw [h, wrapI64_sub, sum_cons]
    exact congrArg wrapI64 (by omega)
  next =>
    refine ⟨h, fun _ => .inl fun hheld => ?_⟩
    have := balance_of_nil h hheld
    omega

theorem Inv.step (h : s.Inv permits) (hpermits : 0 < wrapI64 permits)
    (hstep : s.step a = some s') : s'.Inv permits := by
  cases a with
  | tryAcquire required =>
    cases hstep
    exact .tryAcquire h.balance hpermits required
  | retry k =>
    obtain ⟨required, -, rfl⟩ := Option.map_eq_some_iff.mp hstep
    exact .tryAcquire (s := { s with woken := s.woken.eraseIdx k }) h.balance hpermits required
  | release k =>
    obtain ⟨required, hk, rfl⟩ := Option.map_eq_some_iff.mp hstep
    obtain ⟨hlt, rfl⟩ := List.getElem?_eq_some_iff.mp hk
    have hsum := (getElem_cons_eraseIdx_perm hlt).sum_eq
    have hbalance : wrapI64 (s.limiter.permits + s.held[k]) =
        wrapI64 (permits - (s.held.eraseIdx k).sum) := by
      rw [h.balance, wrapI64_add, ← hsum, sum_cons]
      exact congrArg wrapI64 (by omega)
    by_cases hpos : 0 < wrapI64 (s.limiter.permits + s.held[k])
    · rw [AsyncSizeLimiter.release, if_pos hpos]
      refine ⟨hbalance, fun hwaiters => .inr ?_⟩
      -- A waiter is left, so there was a first one to wake.
      cases hw : s.limiter.waiters with
      | nil => exact absurd (congrArg tail hw) hwaiters
      | cons => exact append_ne_nil_of_right_ne_nil _ (cons_ne_nil _ _)
    · rw [AsyncSizeLimiter.release, if_neg hpos]
      refine ⟨hbalance, fun _ => .inl fun hheld => hpos ?_⟩
      rwa [balance_of_nil hbalance hheld]

/-- **No wake-up is lost**: a caller waits behind one that holds permits or one that was woken. -/
theorem no_lost_wakeup {as : List Action} (hpermits : 0 < (new permits).limiter.permits)
    (hrun : run step (new permits) as = some s) (hwaiters : s.limiter.waiters ≠ []) :
    s.held ≠ [] ∨ s.woken ≠ [] := by
  have hnew : (new permits).Inv permits := by
    refine ⟨?_, fun h => absurd rfl h⟩
    show wrapI64 permits = wrapI64 (permits - (0 : Nat))
    rw [Int.natCast_zero, Int.sub_zero]
  exact (run_invariant (fun h => h.step hpermits) hnew hrun).waiters hwaiters

theorem no_lost_wakeup_oversized : ∃ s, run step (new 1) [.tryAcquire 10, .tryAcquire 1] = some s ∧
    s.limiter.waiters = [1] ∧ (s.held ≠ [] ∨ s.woken ≠ []) :=
  exists_and (by decide +kernel) fun s hs hw => no_lost_wakeup (by decide +kernel) hs
    (by rw [hw]; nofun)

end SizeLimited

end S3Stream
