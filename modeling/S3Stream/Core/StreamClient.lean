import S3Stream.Lib.OrdMap
import S3Stream.Lib.Run
import S3Stream.Lib.Update

/-! # The stream client

`S3StreamClient` of `s3stream-core/src/stream_client.rs` with its `open_stream` and
`create_and_open_stream` calls and one `shutdown`. A stream is named by the call that made it; the
registry holds one stream per id. The close of a stream and its result are not modelled. -/

namespace S3Stream

open List TransitionSystem OrdMap

/-- Where an open call is. -/
inductive OpenPhase where
  /-- A `create_and_open_stream`; next is the check of the state. -/
  | begun
  /-- Waits for `create_stream`. -/
  | creating
  /-- In `open_stream0`; next is the check of the state. -/
  | checking (streamId : Nat) (snapshotRead : Bool)
  /-- Waits for `open_stream` of the metadata plane. -/
  | opening (streamId : Nat)
  /-- Next is the registration. -/
  | registering (streamId : Nat)
  /-- Has returned its stream. -/
  | opened (streamId : Nat) (snapshotRead : Bool)
  | failed
  deriving DecidableEq

def OpenPhase.registering? : OpenPhase → Option Nat
  | .registering streamId => some streamId
  | _ => none

/-- Where the `shutdown` is. -/
inductive ShutdownPhase where
  | running
  /-- The flag is set; next the registry is drained. -/
  | flagged
  /-- These streams of the registry are still to be closed. -/
  | closing (streams : List Nat)
  | returned
  deriving DecidableEq

def ShutdownPhase.streams : ShutdownPhase → List Nat
  | .closing streams => streams
  | _ => []

def ShutdownPhase.drained : ShutdownPhase → Bool
  | .running | .flagged => false
  | .closing _ | .returned => true

structure StreamClient where
  opened : OrdMap Nat Nat
  opens : List OpenPhase
  shutdown : ShutdownPhase
  /-- The streams `shutdown` has called `close` on. -/
  closed : List Nat

namespace StreamClient

def new : StreamClient := ⟨.empty, [], .running, []⟩

inductive Action where
  | openStream (streamId : Nat) (snapshotRead : Bool)
  | createAndOpenStream
  | checkState (n : Nat)
  | createReturn (n : Nat) (streamId : Option Nat)
  | openReturn (n : Nat) (ok : Bool)
  | register (n : Nat)
  | shutdown
  | drain
  | close
  | shutdownReturn

def setOpen (s : StreamClient) (n : Nat) (phase : OpenPhase) : StreamClient :=
  { s with opens := s.opens.set n phase }

def step (s : StreamClient) : Action → Option StreamClient
  | .openStream streamId snapshotRead =>
    some { s with opens := s.opens ++ [.checking streamId snapshotRead] }
  | .createAndOpenStream => some { s with opens := s.opens ++ [.begun] }
  | .checkState n => s.opens[n]?.bind fun
    | .begun => some (s.setOpen n (if s.shutdown = .running then .creating else .failed))
    | .checking streamId snapshotRead => some (s.setOpen n
        (if s.shutdown ≠ .running then .failed
        else if snapshotRead then .opened streamId true else .opening streamId))
    | _ => none
  | .createReturn n streamId => s.opens[n]?.bind fun
    | .creating => some (s.setOpen n ((streamId.map (OpenPhase.checking · false)).getD .failed))
    | _ => none
  | .openReturn n ok => s.opens[n]?.bind fun
    | .opening streamId => some (s.setOpen n (if ok then .registering streamId else .failed))
    | _ => none
  | .register n => s.opens[n]?.bind fun
    | .registering streamId =>
      some { s.setOpen n (.opened streamId false) with opened := s.opened.insert streamId n }
    | _ => none
  | .shutdown => if s.shutdown = .running then some { s with shutdown := .flagged } else none
  | .drain =>
    if s.shutdown = .flagged then
      some { s with opened := .empty, shutdown := .closing s.opened.values }
    else none
  | .close =>
    match s.shutdown with
    | .closing (n :: streams) =>
      some { s with shutdown := .closing streams, closed := s.closed ++ [n] }
    | _ => none
  | .shutdownReturn =>
    if s.shutdown = .closing [] then some { s with shutdown := .returned } else none

/-- A stream is registered before the registry is drained, and replaces no other stream. -/
def Timely (s : StreamClient) : Action → Prop
  | .register n => s.shutdown.drained = false ∧
    ∀ phase ∈ s.opens[n]?, ∀ streamId ∈ phase.registering?, s.opened.get? streamId = none
  | _ => True

instance (s : StreamClient) : ∀ a, Decidable (s.Timely a)
  | .register n => inferInstanceAs (Decidable (_ ∧ ∀ phase ∈ s.opens[n]?, _))
  | .openStream .. | .createAndOpenStream | .checkState _ | .createReturn .. | .openReturn ..
  | .shutdown | .drain | .close | .shutdownReturn => isTrue trivial

variable {s s' : StreamClient} {a : Action} {n : Nat} {phase : OpenPhase}

/-- Where the stream of a call is kept until it is closed. -/
def Kept (s : StreamClient) (n streamId : Nat) : Prop :=
  (streamId, n) ∈ s.opened ∨ n ∈ s.shutdown.streams ∨ n ∈ s.closed

structure Inv (s : StreamClient) : Prop where
  kept : ∀ (n streamId : Nat), s.opens[n]? = some (.opened streamId false) → s.Kept n streamId
  drained : s.shutdown.drained = true → s.opened.entries = []

/-- A call goes on without a registration. -/
theorem Inv.setOpen (h : s.Inv) (hphase : ∀ streamId, phase ≠ .opened streamId false) :
    (s.setOpen n phase).Inv := by
  refine ⟨fun m streamId hm => ?_, h.drained⟩
  rcases Table.of_getElem?_set hm with ⟨-, hm⟩ | ⟨-, heq⟩
  · exact h.kept m streamId hm
  · exact absurd heq.symm (hphase streamId)

theorem Inv.call (h : s.Inv) (hphase : ∀ streamId, phase ≠ .opened streamId false) :
    Inv { s with opens := s.opens ++ [phase] } := by
  refine ⟨fun m streamId hm => ?_, h.drained⟩
  rcases Table.of_getElem?_concat hm with hm | ⟨-, heq⟩
  · exact h.kept m streamId hm
  · exact absurd heq.symm (hphase streamId)

theorem Inv.register (h : s.Inv) (hG : s.Timely (.register n))
    (hn : s.opens[n]? = some (.registering streamId)) :
    Inv { s.setOpen n (.opened streamId false) with opened := s.opened.insert streamId n } := by
  obtain ⟨hdrained, hfresh⟩ := hG
  refine ⟨fun m id hm => ?_, fun hd => ?_⟩
  · rcases Table.of_getElem?_set hm with ⟨-, hm⟩ | ⟨rfl, heq⟩
    · refine (h.kept m id hm).imp_left fun hmem => mem_insert_of_ne hmem fun heq => ?_
      have hget := get?_of_mem hmem
      rw [show id = streamId from heq, hfresh _ hn _ rfl] at hget
      cases hget
    · cases heq
      exact .inl mem_insert_self
  · cases hdrained.symm.trans hd

theorem Inv.step (h : s.Inv) (hG : s.Timely a) (hstep : s.step a = some s') : s'.Inv := by
  cases a with
  | openStream | createAndOpenStream =>
    cases hstep
    exact h.call nofun
  | checkState n =>
    obtain ⟨phase, hn, hstep⟩ := Option.bind_eq_some_iff.mp hstep
    cases phase <;> cases hstep
    · exact h.setOpen (by split <;> nofun)
    · refine h.setOpen ?_
      split
      · nofun
      · split <;> nofun
  | createReturn n streamId =>
    obtain ⟨phase, hn, hstep⟩ := Option.bind_eq_some_iff.mp hstep
    cases phase <;> cases hstep
    exact h.setOpen (by cases streamId <;> nofun)
  | openReturn n ok =>
    obtain ⟨phase, hn, hstep⟩ := Option.bind_eq_some_iff.mp hstep
    cases phase <;> cases hstep
    exact h.setOpen (by cases ok <;> nofun)
  | register n =>
    obtain ⟨phase, hn, hstep⟩ := Option.bind_eq_some_iff.mp hstep
    cases phase <;> cases hstep
    exact h.register hG hn
  | shutdown =>
    obtain ⟨hrunning, hs'⟩ := Option.ite_none_right_eq_some.mp hstep
    cases hs'
    refine ⟨fun n streamId hn => ?_, nofun⟩
    have hkept := h.kept n streamId hn
    rwa [Kept, hrunning] at hkept
  | drain =>
    obtain ⟨hflagged, hs'⟩ := Option.ite_none_right_eq_some.mp hstep
    cases hs'
    refine ⟨fun n streamId hn => ?_, fun _ => rfl⟩
    rcases h.kept n streamId hn with hmem | hmem | hmem
    · exact .inr (.inl (mem_map_of_mem hmem))
    · rw [hflagged] at hmem
      cases hmem
    · exact .inr (.inr hmem)
  | close =>
    rw [StreamClient.step] at hstep
    split at hstep <;> cases hstep
    next n streams hclosing =>
    have hdrained := h.drained (by rw [hclosing]; rfl)
    refine ⟨fun m streamId hm => ?_, fun _ => hdrained⟩
    rcases h.kept m streamId hm with hmem | hmem | hmem
    · exact .inl hmem
    · rw [hclosing] at hmem
      rcases mem_cons.mp hmem with rfl | hmem
      · exact .inr (.inr mem_concat_self)
      · exact .inr (.inl hmem)
    · exact .inr (.inr (mem_append_left _ hmem))
  | shutdownReturn =>
    obtain ⟨hclosing, hs'⟩ := Option.ite_none_right_eq_some.mp hstep
    cases hs'
    refine ⟨fun n streamId hn => ?_, fun _ => h.drained (by rw [hclosing]; rfl)⟩
    have hkept := h.kept n streamId hn
    rwa [Kept, hclosing] at hkept

/-- **The shutdown closes every stream that was opened.** -/
theorem shutdown_closes {as : List Action} (hG : Guarded step Timely new as)
    (hrun : run step new as = some s) (hreturned : s.shutdown = .returned) :
    ∀ n streamId, s.opens[n]? = some (.opened streamId false) → n ∈ s.closed := by
  intro n streamId hn
  have hnew : new.Inv := ⟨by simp [new], by simp [new, ShutdownPhase.drained]⟩
  have hinv : s.Inv := run_invariant_of_guarded Inv.step hnew hG hrun
  have hdrained := hinv.drained (by rw [hreturned]; rfl)
  rcases hinv.kept n streamId hn with hmem | hmem | hmem
  · rw [mem_def, hdrained] at hmem
    cases hmem
  · rw [hreturned] at hmem
    cases hmem
  · exact hmem

theorem shutdown_closes_one : ∃ s, run step new [.openStream 7 false, .checkState 0,
    .openReturn 0 true, .register 0, .shutdown, .drain, .close, .shutdownReturn] = some s ∧
      s.opens[0]? = some (.opened 7 false) ∧ 0 ∈ s.closed := by
  obtain ⟨s, hs, hreturned, hopened⟩ : ∃ s, run step new [.openStream 7 false, .checkState 0,
      .openReturn 0 true, .register 0, .shutdown, .drain, .close, .shutdownReturn] = some s ∧
      s.shutdown = .returned ∧ s.opens[0]? = some (.opened 7 false) := by decide +kernel
  exact ⟨s, hs, hopened, shutdown_closes (by decide +kernel) hs hreturned 0 7 hopened⟩

/-- The open call is at the metadata plane while the shutdown runs. -/
theorem shutdown_misses : ∃ s, run step new [.openStream 7 false, .checkState 0, .shutdown, .drain,
    .shutdownReturn, .openReturn 0 true, .register 0] = some s ∧ s.shutdown = .returned ∧
      s.opens = [.opened 7 false] ∧ s.closed = [] := by
  decide +kernel

end StreamClient

end S3Stream
