import Mathlib
import Xv6.Library.Machine
import Xv6.Proc.Table

/-!
`sleep` and `wakeup` of `kernel/proc.c` at the level of spinlocks. A sleeper
runs the loop `while(!cond) sleep(chan, lk)` with `lk` held around it, as
`begin_op` and `acquiresleep` do; `piperead`, `wait` and the others also test
`killed(p)` in the loop and return, which is left out here. A waker sets `cond` under
`lk` and calls `wakeup(chan)`, either still holding `lk` (`pipewrite`,
`end_op`, `clockintr`) or after releasing it (`early`). Another CPU may call
`kill` on the sleeper at any time, and the scheduler runs it again once it is
`RUNNABLE`. Each CPU's steps are atomic between two lock operations; a step
of a CPU that spins on a held lock leaves the state as it is.

The sleeper's slot is the only one modelled: `wakeup`'s loop does the same
thing to every other slot, and none of it touches this one.
-/

namespace Xv6.Sleep

open Procs (ProcState Chan)

/-- The CPUs that take `lk` or the sleeper's `p->lock`. The scheduler that
runs the sleeper takes `p->lock` on the sleeper's CPU, and releases it there
after `sched`. -/
inductive Cpu where
  | sleeper
  | waker
  | killer
  deriving DecidableEq, Repr

section Spinlock

/-- One turn of `acquire(lk)`'s spin loop by `cpu`: `true` once it holds the
lock, `false` while another CPU does. A CPU that holds it already panics. -/
def acquire (lk : Option Cpu) (cpu : Cpu) : Except String Bool :=
  match lk with
  | none => .ok true
  | some holder => if holder = cpu then .error "acquire" else .ok false

/-- `release(lk)` by `cpu`; a CPU that does not hold the lock panics. -/
def release (lk : Option Cpu) (cpu : Cpu) : Except String Unit :=
  if lk = some cpu then .ok () else .error "release"

@[simp] theorem acquire_none (cpu : Cpu) : acquire none cpu = .ok true := rfl

@[simp] theorem acquire_other {holder cpu : Cpu} (other : holder ≠ cpu) :
    acquire (some holder) cpu = .ok false := by
  simp [acquire, other]

@[simp] theorem release_held (cpu : Cpu) : release (some cpu) cpu = .ok () := by
  simp [release]

theorem acquire_ok {lk : Option Cpu} {cpu : Cpu} {took : Bool} (ok : acquire lk cpu = .ok took) :
    lk ≠ some cpu ∧ (took = true ↔ lk = none) := by
  unfold acquire at ok
  split at ok
  · cases ok
    simp
  · split at ok
    · cases ok
    · rename_i holder other
      cases ok
      simpa using other

theorem release_ok {lk : Option Cpu} {cpu : Cpu} (ok : release lk cpu = .ok ()) : lk = some cpu := by
  unfold release at ok
  split at ok
  · assumption
  · cases ok

theorem acquire_of_not_held {lk : Option Cpu} {cpu : Cpu} (notHeld : lk ≠ some cpu) :
    ∃ took, acquire lk cpu = .ok took := by
  cases lk with
  | none => exact ⟨true, rfl⟩
  | some holder =>
      have other : holder ≠ cpu := fun same => notHeld (same ▸ rfl)
      exact ⟨false, acquire_other other⟩

/-- A step that tries to take a lock: it takes it if it is free, and
otherwise leaves the state as it is. -/
theorem acquire_step {σ : Type} {lk : Option Cpu} {cpu : Cpu} {took s s' : σ}
    (stepped : (do let t ← acquire lk cpu; pure (if t then took else s) : Except String σ) = .ok s') :
    lk ≠ some cpu ∧ (lk = none ∧ s' = took ∨ lk ≠ none ∧ s' = s) := by
  obtain ⟨t, acquired, rest⟩ := Machine.bind_eq_ok stepped
  obtain ⟨notHeld, tookFree⟩ := acquire_ok acquired
  refine ⟨notHeld, ?_⟩
  cases t
  · exact .inr ⟨fun free => by simpa using tookFree.mpr free, by simpa [pure, Except.pure] using rest.symm⟩
  · exact .inl ⟨tookFree.mp rfl, by simpa [pure, Except.pure] using rest.symm⟩

theorem release_step {σ : Type} {lk : Option Cpu} {cpu : Cpu} {a s' : σ}
    (stepped : (do release lk cpu; pure a : Except String σ) = .ok s') : lk = some cpu ∧ s' = a := by
  obtain ⟨u, released, rest⟩ := Machine.bind_eq_ok stepped
  exact ⟨release_ok released, by simpa [pure, Except.pure] using rest.symm⟩

end Spinlock

/-- Where the sleeper is: in its caller's loop around `sleep`, in `sleep`, or
switched out. -/
inductive SleeperPc where
  /-- `acquire(lk)` before the loop. -/
  | acquireLk
  /-- The loop's test of the condition, holding `lk`. -/
  | test
  /-- `sleep`: `acquire(&p->lock)`. -/
  | acquireP
  /-- `sleep`: `release(lk)`. -/
  | releaseLk
  /-- `sleep`: `p->chan = chan`. -/
  | setChan
  /-- `sleep`: `p->state = SLEEPING`. -/
  | setState
  /-- `sleep`: `sched()`, whose `swtch` lands in the scheduler, which releases
  `p->lock`. -/
  | sched
  /-- Off the CPU, until the scheduler runs it. -/
  | switched
  /-- `sleep`: `p->chan = 0`. -/
  | tidy
  /-- `sleep`: `release(&p->lock)`. -/
  | releaseP
  /-- `sleep`: `acquire(lk)`; the loop tests the condition again. -/
  | reacquireLk
  /-- The condition holds: the caller goes on and releases `lk`. -/
  | release
  | done
  deriving DecidableEq, Repr

/-- Where the waker is. -/
inductive WakerPc where
  /-- `acquire(lk)`. -/
  | acquireLk
  /-- The condition is made true under `lk`. -/
  | setCond
  /-- `release(lk)` before `wakeup`, when the waker releases early. -/
  | releaseEarly
  /-- `wakeup`: `acquire(&p->lock)` of the sleeper's slot. -/
  | wakeAcquire
  /-- `wakeup`: the test of the slot, and `release(&p->lock)`. -/
  | wakeCheck
  /-- `release(lk)` after `wakeup`. -/
  | releaseLate
  | done
  deriving DecidableEq, Repr

/-- Where a CPU that calls `kill` on the sleeper is; it may do so again and
again. -/
inductive KillerPc where
  /-- `acquire(&p->lock)`. -/
  | acquireP
  /-- `p->killed = 1`, the wakeup of a sleeping victim, `release(&p->lock)`. -/
  | mark
  deriving DecidableEq, Repr

/-- The sleeper's slot, the two locks and the condition, with each CPU's
place in its code. -/
structure St where
  sleeper : SleeperPc
  waker : WakerPc
  killer : KillerPc
  lk : Option Cpu
  plock : Option Cpu
  cond : Bool
  state : ProcState
  chan : Chan
  killed : Bool

/-- The start: the sleeper runs, no lock is held, and the condition is `cond`. -/
def init (cond : Bool) : St :=
  { sleeper := .acquireLk, waker := .acquireLk, killer := .acquireP, lk := none, plock := none,
    cond := cond, state := .running, chan := .none, killed := false }

section Steps

variable (early : Bool) (chan : Chan)

/-- The checks `sched()` makes before it switches to the scheduler. -/
def schedCheck (s : St) : Except String Unit :=
  if s.plock ≠ some .sleeper then .error "sched p->lock"
  -- `noff != 1`: the only lock besides `p->lock` is `lk`
  else if s.lk = some .sleeper then .error "sched locks"
  else if s.state = .running then .error "sched running"
  else .ok ()

/-- One step of the sleeper. -/
def sleeperStep (s : St) : Except String St :=
  match s.sleeper with
  | .acquireLk => do
      let took ← acquire s.lk .sleeper
      pure (if took then { s with lk := some .sleeper, sleeper := .test } else s)
  | .test => pure { s with sleeper := if s.cond then .release else .acquireP }
  | .acquireP => do
      let took ← acquire s.plock .sleeper
      pure (if took then { s with plock := some .sleeper, sleeper := .releaseLk } else s)
  | .releaseLk => do
      release s.lk .sleeper
      pure { s with lk := none, sleeper := .setChan }
  | .setChan => pure { s with chan := chan, sleeper := .setState }
  | .setState => pure { s with state := .sleeping, sleeper := .sched }
  | .sched => do
      schedCheck s
      pure { s with plock := none, sleeper := .switched }
  | .switched => pure s
  | .tidy => pure { s with chan := .none, sleeper := .releaseP }
  | .releaseP => do
      release s.plock .sleeper
      pure { s with plock := none, sleeper := .reacquireLk }
  | .reacquireLk => do
      let took ← acquire s.lk .sleeper
      pure (if took then { s with lk := some .sleeper, sleeper := .test } else s)
  | .release => do
      release s.lk .sleeper
      pure { s with lk := none, sleeper := .done }
  | .done => pure s

/-- One step of the waker. -/
def wakerStep (s : St) : Except String St :=
  match s.waker with
  | .acquireLk => do
      let took ← acquire s.lk .waker
      pure (if took then { s with lk := some .waker, waker := .setCond } else s)
  | .setCond => pure { s with cond := true, waker := if early then .releaseEarly else .wakeAcquire }
  | .releaseEarly => do
      release s.lk .waker
      pure { s with lk := none, waker := .wakeAcquire }
  | .wakeAcquire => do
      let took ← acquire s.plock .waker
      pure (if took then { s with plock := some .waker, waker := .wakeCheck } else s)
  | .wakeCheck => do
      release s.plock .waker
      let state := if s.state = .sleeping ∧ s.chan = chan then .runnable else s.state
      pure { s with state := state, plock := none, waker := if early then .done else .releaseLate }
  | .releaseLate => do
      release s.lk .waker
      pure { s with lk := none, waker := .done }
  | .done => pure s

/-- One step of `kill` on the sleeper. -/
def killerStep (s : St) : Except String St :=
  match s.killer with
  | .acquireP => do
      let took ← acquire s.plock .killer
      pure (if took then { s with plock := some .killer, killer := .mark } else s)
  | .mark => do
      release s.plock .killer
      let state := if s.state = .sleeping then .runnable else s.state
      pure { s with killed := true, state := state, plock := none, killer := .acquireP }

/-- The scheduler's pass over the sleeper's slot: under `p->lock`, a
`RUNNABLE` sleeper is made `RUNNING` and switched to, still holding the lock. -/
def scheduleStep (s : St) : Except String St :=
  if s.sleeper = .switched ∧ s.plock = none ∧ s.state = .runnable then
    pure { s with plock := some .sleeper, state := .running, sleeper := .tidy }
  else pure s

/-- The CPU that takes the next step. -/
inductive Act where
  | sleeper
  | waker
  | killer
  | schedule

/-- A step of the system. -/
def step (s : St) : Act → Except String St
  | .sleeper => sleeperStep chan s
  | .waker => wakerStep early chan s
  | .killer => killerStep s
  | .schedule => scheduleStep s

end Steps

/-- The states that some interleaving reaches. -/
abbrev Reachable (early : Bool) (chan : Chan) (cond : Bool) (s : St) : Prop :=
  Machine.Reachable (step early chan) (init cond) s

/-- The sleeper holds `lk`. -/
def SleeperPc.holdsLk : SleeperPc → Bool
  | .test | .acquireP | .releaseLk | .release => true
  | _ => false

/-- The sleeper's CPU holds `p->lock`. -/
def SleeperPc.holdsP : SleeperPc → Bool
  | .releaseLk | .setChan | .setState | .sched | .tidy | .releaseP => true
  | _ => false

/-- Between the test that found the condition false and `p->state = SLEEPING`. -/
def SleeperPc.committed : SleeperPc → Bool
  | .acquireP | .releaseLk | .setChan | .setState => true
  | _ => false

/-- In `sched`, or switched out. -/
def SleeperPc.off : SleeperPc → Bool
  | .sched | .switched => true
  | _ => false

/-- The waker holds `lk`. -/
def WakerPc.holdsLk (early : Bool) : WakerPc → Bool
  | .setCond | .releaseEarly => true
  | .wakeAcquire | .wakeCheck | .releaseLate => !early
  | _ => false

/-- The waker has made the condition true. -/
def WakerPc.condSet : WakerPc → Bool
  | .acquireLk | .setCond => false
  | _ => true

/-- The waker's `wakeup` has returned. -/
def WakerPc.woke : WakerPc → Bool
  | .releaseLate | .done => true
  | _ => false

/-- The waker releases `lk` at one of its two places only. -/
def WakerPc.onPath (early : Bool) : WakerPc → Bool
  | .releaseEarly => early
  | .releaseLate => !early
  | _ => true

/-- Who holds each lock, read off where the CPUs are. -/
structure Locks (early : Bool) (s : St) : Prop where
  lkSleeper : s.lk = some .sleeper ↔ s.sleeper.holdsLk
  lkWaker : s.lk = some .waker ↔ s.waker.holdsLk early
  lkKiller : s.lk ≠ some .killer
  pSleeper : s.plock = some .sleeper ↔ s.sleeper.holdsP
  pWaker : s.plock = some .waker ↔ s.waker = .wakeCheck
  pKiller : s.plock = some .killer ↔ s.killer = .mark
  path : s.waker.onPath early

/-- The invariant of the protocol. -/
structure Inv (early : Bool) (chan : Chan) (s : St) : Prop extends Locks early s where
  /-- The condition, once made true, stays true. -/
  condSet : s.waker.condSet → s.cond
  /-- The sleeper found the condition false and has held `lk` since. -/
  testedFalse : s.sleeper = .acquireP ∨ s.sleeper = .releaseLk → s.cond = false
  /-- A sleeper on its way to `SLEEPING` has not been passed by the waker. -/
  committed : s.sleeper.committed → s.waker.woke = false
  chanSet : s.sleeper = .setState → s.chan = chan
  sleepingChan : s.state = .sleeping → s.chan = chan
  onCpu : s.sleeper.off = false → s.state = .running
  inSched : s.sleeper = .sched → s.state = .sleeping
  /-- No lost wakeup. -/
  woken : s.waker.woke → s.state ≠ .sleeping

variable {early : Bool} {chan : Chan} {s s' : St}

theorem inv_init (cond : Bool) : Inv early chan (init cond) := by
  refine ⟨⟨?_, ?_, ?_, ?_, ?_, ?_, ?_⟩, ?_, ?_, ?_, ?_, ?_, ?_, ?_, ?_⟩ <;>
    simp [init, SleeperPc.holdsLk, SleeperPc.holdsP, SleeperPc.committed, SleeperPc.off, WakerPc.holdsLk,
      WakerPc.condSet, WakerPc.woke, WakerPc.onPath]

theorem WakerPc.condSet_of_woke {w : WakerPc} (woke : w.woke) : w.condSet := by
  cases w <;> simp [WakerPc.woke, WakerPc.condSet] at woke ⊢

/-! Each case below is one transition of a CPU: the fields of the invariant
that the transition does not touch are passed on, and each other field is
given with the fact it follows from. -/

theorem inv_sleeperStep (inv : Inv early chan s) (stepped : sleeperStep chan s = .ok s') : Inv early chan s' := by
  obtain ⟨⟨lkS, lkW, lkK, pS, pW, pK, path⟩, condSet, testedFalse, committed, chanSet, sleepingChan, onCpu,
    inSched, woken⟩ := inv
  unfold sleeperStep at stepped
  cases pc : s.sleeper <;> simp only [pc] at stepped
  case acquireLk | reacquireLk =>
    obtain ⟨-, ⟨free, rfl⟩ | ⟨-, rfl⟩⟩ := acquire_step stepped
    · exact ⟨⟨by simp [SleeperPc.holdsLk], by simpa [free] using lkW, by simp,
        by simpa [pc, SleeperPc.holdsP] using pS, pW, pK, path⟩, condSet, by simp, by simp [SleeperPc.committed],
        by simp, sleepingChan, fun _ => onCpu (by simp [pc, SleeperPc.off]), by simp, woken⟩
    · exact ⟨⟨lkS, lkW, lkK, pS, pW, pK, path⟩, condSet, testedFalse, committed, chanSet, sleepingChan,
        onCpu, inSched, woken⟩
  case test =>
    cases stepped
    -- a false condition means the waker has not set it, so has not woken anyone
    have notWoken : s.cond = false → s.waker.woke = false := fun unset => by
      cases woke : s.waker.woke
      · rfl
      · have set := condSet (WakerPc.condSet_of_woke woke)
        rw [unset] at set
        cases set
    have lkHeld : s.lk = some .sleeper ↔ true := by simpa [pc, SleeperPc.holdsLk] using lkS
    have pFree : s.plock = some .sleeper ↔ false := by simpa [pc, SleeperPc.holdsP] using pS
    have running : s.state = .running := onCpu (by simp [pc, SleeperPc.off])
    cases unset : s.cond
    · -- the loop goes on into `sleep`, committed to sleeping
      exact ⟨⟨by simpa [SleeperPc.holdsLk] using lkHeld, lkW, lkK, by simpa [SleeperPc.holdsP] using pFree, pW, pK,
        path⟩, by simpa [unset] using condSet, fun _ => rfl, fun _ => notWoken unset, by simp, sleepingChan,
        fun _ => running, by simp, woken⟩
    · exact ⟨⟨by simpa [SleeperPc.holdsLk] using lkHeld, lkW, lkK, by simpa [SleeperPc.holdsP] using pFree, pW, pK,
        path⟩, fun _ => rfl, by simp, by simp [SleeperPc.committed], by simp, sleepingChan, fun _ => running,
        by simp, woken⟩
  case acquireP =>
    obtain ⟨-, ⟨free, rfl⟩ | ⟨-, rfl⟩⟩ := acquire_step stepped
    · exact ⟨⟨by simpa [pc, SleeperPc.holdsLk] using lkS, lkW, lkK, by simp [SleeperPc.holdsP],
        by simpa [free] using pW, by simpa [free] using pK, path⟩, condSet, fun _ => testedFalse (.inl pc),
        fun _ => committed (by simp [pc, SleeperPc.committed]), by simp, sleepingChan,
        fun _ => onCpu (by simp [pc, SleeperPc.off]), by simp, woken⟩
    · exact ⟨⟨lkS, lkW, lkK, pS, pW, pK, path⟩, condSet, testedFalse, committed, chanSet, sleepingChan,
        onCpu, inSched, woken⟩
  case releaseLk | release =>
    obtain ⟨held, rfl⟩ := release_step stepped
    exact ⟨⟨by simp [SleeperPc.holdsLk], by simpa [held] using lkW, by simp, by simpa [pc, SleeperPc.holdsP] using pS,
      pW, pK, path⟩, condSet, by simp, fun onWay => committed (by simp [pc, SleeperPc.committed] at onWay ⊢),
      by simp, sleepingChan, fun _ => onCpu (by simp [pc, SleeperPc.off]), by simp, woken⟩
  case setChan =>
    cases stepped
    exact ⟨⟨by simpa [pc, SleeperPc.holdsLk] using lkS, lkW, lkK, by simpa [pc, SleeperPc.holdsP] using pS, pW, pK,
      path⟩, condSet, by simp, fun _ => committed (by simp [pc, SleeperPc.committed]), fun _ => rfl, fun _ => rfl,
      fun _ => onCpu (by simp [pc, SleeperPc.off]), by simp, woken⟩
  case tidy =>
    cases stepped
    -- the sleeper runs again, so it is not asleep when it clears its channel
    have running : s.state = .running := onCpu (by simp [pc, SleeperPc.off])
    exact ⟨⟨by simpa [pc, SleeperPc.holdsLk] using lkS, lkW, lkK, by simpa [pc, SleeperPc.holdsP] using pS, pW, pK,
      path⟩, condSet, by simp, by simp [SleeperPc.committed], by simp, fun asleep => absurd (running.symm.trans asleep)
      (by simp), fun _ => running, by simp, woken⟩
  case setState =>
    cases stepped
    -- the waker has not passed the sleeper, so no wakeup is lost by sleeping now
    have notWoken : s.waker.woke = false := committed (by simp [pc, SleeperPc.committed])
    exact ⟨⟨by simpa [pc, SleeperPc.holdsLk] using lkS, lkW, lkK, by simpa [pc, SleeperPc.holdsP] using pS, pW, pK,
      path⟩, condSet, by simp, by simp [SleeperPc.committed], by simp, fun _ => chanSet pc, by simp [SleeperPc.off],
      fun _ => rfl, fun woke => absurd woke (by simp [notWoken])⟩
  case sched | releaseP =>
    obtain ⟨-, -, rest⟩ := Machine.bind_eq_ok stepped
    cases rest
    have held : s.plock = some .sleeper := pS.mpr (by simp [pc, SleeperPc.holdsP])
    exact ⟨⟨by simpa [pc, SleeperPc.holdsLk] using lkS, lkW, lkK, by simp [SleeperPc.holdsP],
      by simpa [held] using pW, by simpa [held] using pK, path⟩, condSet, by simp, by simp [SleeperPc.committed],
      by simp, sleepingChan, fun notOff => onCpu (by simp [pc, SleeperPc.off] at notOff ⊢), by simp, woken⟩
  case switched | done =>
    cases stepped
    exact ⟨⟨lkS, lkW, lkK, pS, pW, pK, path⟩, condSet, testedFalse, committed, chanSet, sleepingChan,
      onCpu, inSched, woken⟩

theorem inv_wakerStep (inv : Inv early chan s) (stepped : wakerStep early chan s = .ok s') : Inv early chan s' := by
  obtain ⟨⟨lkS, lkW, lkK, pS, pW, pK, path⟩, condSet, testedFalse, committed, chanSet, sleepingChan, onCpu,
    inSched, woken⟩ := inv
  unfold wakerStep at stepped
  cases pc : s.waker <;> simp only [pc] at stepped
  case acquireLk =>
    obtain ⟨-, ⟨free, rfl⟩ | ⟨-, rfl⟩⟩ := acquire_step stepped
    · exact ⟨⟨by simpa [free] using lkS, by simp [WakerPc.holdsLk], by simp, pS, by simpa [pc] using pW, pK, rfl⟩,
        by simp [WakerPc.condSet], testedFalse, fun _ => rfl, chanSet, sleepingChan, onCpu, inSched,
        by simp [WakerPc.woke]⟩
    · exact ⟨⟨lkS, lkW, lkK, pS, pW, pK, path⟩, condSet, testedFalse, committed, chanSet, sleepingChan,
        onCpu, inSched, woken⟩
  case setCond =>
    cases stepped
    -- the sleeper cannot be between its test and `release(lk)`: the waker holds `lk`
    have held : s.lk = some .waker := lkW.mpr (by simp [pc, WakerPc.holdsLk])
    have notTesting : ¬(s.sleeper = .acquireP ∨ s.sleeper = .releaseLk) := by
      rintro (here | here) <;> simp [here, held, SleeperPc.holdsLk] at lkS
    -- either way the waker goes on holding `lk`, to `release(lk)` or to `wakeup`
    cases early <;>
      exact ⟨⟨lkS, by simpa [pc, WakerPc.holdsLk] using lkW, lkK, pS, by simpa [pc] using pW, pK, rfl⟩,
        fun _ => rfl, fun testing => absurd testing notTesting, fun _ => rfl, chanSet, sleepingChan, onCpu, inSched,
        by simp [WakerPc.woke]⟩
  case releaseEarly =>
    obtain ⟨held, rfl⟩ := release_step stepped
    have isEarly : early = true := by simpa [pc, WakerPc.onPath] using path
    subst isEarly
    exact ⟨⟨by simpa [held] using lkS, by simp [WakerPc.holdsLk], by simp, pS, by simpa [pc] using pW, pK, rfl⟩,
      fun _ => condSet (by simp [pc, WakerPc.condSet]), testedFalse, fun _ => rfl, chanSet, sleepingChan, onCpu,
      inSched, by simp [WakerPc.woke]⟩
  case releaseLate =>
    obtain ⟨held, rfl⟩ := release_step stepped
    have isLate : early = false := by simpa [pc, WakerPc.onPath] using path
    subst isLate
    -- `wakeup` has returned, so no sleeper is still on its way to `SLEEPING`
    exact ⟨⟨by simpa [held] using lkS, by simp [WakerPc.holdsLk], by simp, pS, by simpa [pc] using pW, pK, rfl⟩,
      fun _ => condSet (by simp [pc, WakerPc.condSet]), testedFalse,
      fun onWay => by simpa [pc, WakerPc.woke] using committed onWay, chanSet, sleepingChan, onCpu, inSched,
      fun _ => woken (by simp [pc, WakerPc.woke])⟩
  case wakeAcquire =>
    obtain ⟨-, ⟨free, rfl⟩ | ⟨-, rfl⟩⟩ := acquire_step stepped
    · exact ⟨⟨lkS, by simpa [pc, WakerPc.holdsLk] using lkW, lkK, by simpa [free] using pS, by simp,
        by simpa [free] using pK, rfl⟩, fun _ => condSet (by simp [pc, WakerPc.condSet]), testedFalse, fun _ => rfl,
        chanSet, sleepingChan, onCpu, inSched, by simp [WakerPc.woke]⟩
    · exact ⟨⟨lkS, lkW, lkK, pS, pW, pK, path⟩, condSet, testedFalse, committed, chanSet, sleepingChan,
        onCpu, inSched, woken⟩
  case wakeCheck =>
    obtain ⟨u, released, rest⟩ := Machine.bind_eq_ok stepped
    cases rest
    have held : s.plock = some .waker := release_ok released
    -- the sleeper does not hold `p->lock`, which the waker holds
    have notP : s.sleeper.holdsP = false := by simpa [held] using pS
    have notSched : s.sleeper ≠ .sched := fun here => by simp [here, SleeperPc.holdsP] at notP
    -- nor has it found the condition false, which the waker has set: so it is
    -- asleep on `chan` or will test the condition again
    have notCommitted : s.sleeper.committed = false := by
      have condTrue : s.cond = true := condSet (by simp [pc, WakerPc.condSet])
      cases sp : s.sleeper <;> simp only [SleeperPc.committed]
      case acquireP => simp [testedFalse (.inl sp)] at condTrue
      case releaseLk | setChan | setState => simp [sp, SleeperPc.holdsP] at notP
    -- `wakeup` wakes a sleeper on `chan`, and a sleeper sleeps on no other channel
    have awake : (if s.state = .sleeping ∧ s.chan = chan then ProcState.runnable else s.state) ≠ .sleeping := by
      split_ifs with asleep
      · simp
      · exact fun still => asleep ⟨still, sleepingChan still⟩
    refine ⟨⟨lkS, ?_, lkK, by simp [notP], by cases early <;> simp, by simpa [held] using pK, ?_⟩,
      fun _ => condSet (by simp [pc, WakerPc.condSet]), testedFalse, fun onWay => absurd onWay (by simp [notCommitted]),
      chanSet, fun still => absurd still awake, fun notOff => by simp [onCpu notOff], fun here => absurd here notSched,
      fun _ => awake⟩
    · -- the waker holds `lk` after `wakeup` exactly when it did not release it early
      cases early <;> simpa [pc, WakerPc.holdsLk] using lkW
    · cases early <;> rfl
  case done =>
    cases stepped
    exact ⟨⟨lkS, lkW, lkK, pS, pW, pK, path⟩, condSet, testedFalse, committed, chanSet, sleepingChan,
      onCpu, inSched, woken⟩

theorem inv_killerStep (inv : Inv early chan s) (stepped : killerStep s = .ok s') : Inv early chan s' := by
  obtain ⟨⟨lkS, lkW, lkK, pS, pW, pK, path⟩, condSet, testedFalse, committed, chanSet, sleepingChan, onCpu,
    inSched, woken⟩ := inv
  unfold killerStep at stepped
  cases pc : s.killer <;> simp only [pc] at stepped
  case acquireP =>
    obtain ⟨-, ⟨free, rfl⟩ | ⟨-, rfl⟩⟩ := acquire_step stepped
    · exact ⟨⟨lkS, lkW, lkK, by simpa [free] using pS, by simpa [free] using pW, by simp, path⟩, condSet,
        testedFalse, committed, chanSet, sleepingChan, onCpu, inSched, woken⟩
    · exact ⟨⟨lkS, lkW, lkK, pS, pW, pK, path⟩, condSet, testedFalse, committed, chanSet, sleepingChan,
        onCpu, inSched, woken⟩
  case mark =>
    obtain ⟨u, released, rest⟩ := Machine.bind_eq_ok stepped
    cases rest
    have held : s.plock = some .killer := release_ok released
    -- the sleeper does not hold `p->lock`, which `kill` holds, so it is not in `sched`
    have notP : s.sleeper.holdsP = false := by simpa [held] using pS
    have notSched : s.sleeper ≠ .sched := fun here => by simp [here, SleeperPc.holdsP] at notP
    -- `kill` makes a sleeping victim runnable
    have awake : (if s.state = .sleeping then ProcState.runnable else s.state) ≠ .sleeping := by
      split_ifs with asleep
      · simp
      · exact asleep
    exact ⟨⟨lkS, lkW, lkK, by simp [notP], by simpa [held] using pW, by simp, path⟩, condSet, testedFalse,
      committed, chanSet, fun still => absurd still awake, fun notOff => by simp [onCpu notOff],
      fun here => absurd here notSched, fun _ => awake⟩

theorem inv_scheduleStep (inv : Inv early chan s) (stepped : scheduleStep s = .ok s') : Inv early chan s' := by
  obtain ⟨⟨lkS, lkW, lkK, pS, pW, pK, path⟩, condSet, testedFalse, committed, chanSet, sleepingChan, onCpu,
    inSched, woken⟩ := inv
  unfold scheduleStep at stepped
  split at stepped
  · -- the scheduler takes `p->lock` for the switched-out sleeper and runs it
    rename_i runnable
    obtain ⟨switched, free, -⟩ := runnable
    cases stepped
    exact ⟨⟨by simpa [switched, SleeperPc.holdsLk] using lkS, lkW, lkK, by simp [SleeperPc.holdsP],
      by simpa [free] using pW, by simpa [free] using pK, path⟩, condSet, by simp, by simp [SleeperPc.committed],
      by simp, by simp, fun _ => rfl, by simp, fun _ => by simp⟩
  · cases stepped
    exact ⟨⟨lkS, lkW, lkK, pS, pW, pK, path⟩, condSet, testedFalse, committed, chanSet, sleepingChan,
      onCpu, inSched, woken⟩

theorem inv_step : Machine.Keeps (step early chan) (Inv early chan) := by
  intro s a s' inv stepped
  cases a with
  | sleeper => exact inv_sleeperStep inv stepped
  | waker => exact inv_wakerStep inv stepped
  | killer => exact inv_killerStep inv stepped
  | schedule => exact inv_scheduleStep inv stepped

theorem Reachable.inv {cond : Bool} (reached : Reachable early chan cond s) : Inv early chan s :=
  reached.of_keeps (inv_init cond) inv_step

section Leaving

/-- The sleeper's own steps never wake it: its state stays, or becomes
`SLEEPING`. -/
theorem sleeperStep_state (stepped : sleeperStep chan s = .ok s') :
    s'.state = s.state ∨ s'.state = .sleeping := by
  unfold sleeperStep at stepped
  cases pc : s.sleeper <;> simp only [pc] at stepped
  case acquireLk | acquireP | reacquireLk =>
    obtain ⟨-, ⟨-, rfl⟩ | ⟨-, rfl⟩⟩ := acquire_step stepped <;> exact .inl rfl
  case releaseLk | release =>
    obtain ⟨-, rfl⟩ := release_step stepped
    exact .inl rfl
  case sched | releaseP =>
    obtain ⟨u, -, rest⟩ := Machine.bind_eq_ok stepped
    cases rest
    exact .inl rfl
  case setState =>
    cases stepped
    exact .inr rfl
  all_goals
    cases stepped
    exact .inl rfl

theorem wakerStep_state (stepped : wakerStep early chan s = .ok s') :
    s'.state = s.state ∨ s.waker = .wakeCheck ∧ s.state = .sleeping ∧ s.chan = chan ∧ s'.state = .runnable := by
  unfold wakerStep at stepped
  cases pc : s.waker <;> simp only [pc] at stepped
  case acquireLk | wakeAcquire =>
    obtain ⟨-, ⟨-, rfl⟩ | ⟨-, rfl⟩⟩ := acquire_step stepped <;> exact .inl rfl
  case releaseEarly | releaseLate =>
    obtain ⟨-, rfl⟩ := release_step stepped
    exact .inl rfl
  case wakeCheck =>
    obtain ⟨u, -, rest⟩ := Machine.bind_eq_ok stepped
    cases rest
    by_cases asleep : s.state = .sleeping ∧ s.chan = chan
    · exact .inr ⟨rfl, asleep.1, asleep.2, by simp [asleep]⟩
    · exact .inl (by simp [asleep])
  all_goals
    cases stepped
    exact .inl rfl

theorem killerStep_state (stepped : killerStep s = .ok s') :
    s'.state = s.state ∨ s.killer = .mark ∧ s.state = .sleeping ∧ s'.state = .runnable := by
  unfold killerStep at stepped
  cases pc : s.killer <;> simp only [pc] at stepped
  case acquireP =>
    obtain ⟨-, ⟨-, rfl⟩ | ⟨-, rfl⟩⟩ := acquire_step stepped <;> exact .inl rfl
  case mark =>
    obtain ⟨u, -, rest⟩ := Machine.bind_eq_ok stepped
    cases rest
    by_cases asleep : s.state = .sleeping
    · exact .inr ⟨rfl, asleep, by simp [asleep]⟩
    · exact .inl (by simp [asleep])

theorem scheduleStep_state (stepped : scheduleStep s = .ok s') :
    s'.state = s.state ∨ s.state = .runnable ∧ s'.state = .running := by
  unfold scheduleStep at stepped
  split at stepped
  · rename_i runnable
    cases stepped
    exact .inr ⟨runnable.2.2, rfl⟩
  · cases stepped
    exact .inl rfl

theorem leaves_sleeping {a : Act} (stepped : step early chan s a = .ok s') (asleep : s.state = .sleeping)
    (left : s'.state ≠ .sleeping) :
    s'.state = .runnable ∧
      (a = .waker ∧ s.waker = .wakeCheck ∧ s.chan = chan ∨ a = .killer ∧ s.killer = .mark) := by
  cases a with
  | sleeper =>
      rcases sleeperStep_state stepped with same | slept
      · exact absurd (same.trans asleep) left
      · exact absurd slept left
  | waker =>
      rcases wakerStep_state stepped with same | ⟨checking, -, onChan, woken⟩
      · exact absurd (same.trans asleep) left
      · exact ⟨woken, .inl ⟨rfl, checking, onChan⟩⟩
  | killer =>
      rcases killerStep_state stepped with same | ⟨marking, -, woken⟩
      · exact absurd (same.trans asleep) left
      · exact ⟨woken, .inr ⟨rfl, marking⟩⟩
  | schedule =>
      rcases scheduleStep_state stepped with same | ⟨runnable, -⟩
      · exact absurd (same.trans asleep) left
      · rw [asleep] at runnable
        cases runnable

end Leaving

section Panics

/-- Every step of the sleeper from a state of the invariant goes through:
it takes only locks it does not hold, releases only locks it holds, and
reaches `sched` holding `p->lock` alone, not `RUNNING`. -/
theorem sleeperStep_ok (inv : Inv early chan s) : ∃ s', sleeperStep chan s = .ok s' := by
  unfold sleeperStep
  cases pc : s.sleeper <;> simp only
  case acquireLk | reacquireLk =>
    obtain ⟨took, acquired⟩ := acquire_of_not_held
      (show s.lk ≠ some .sleeper by simp [inv.lkSleeper, pc, SleeperPc.holdsLk])
    exact ⟨_, by rw [acquired]; rfl⟩
  case acquireP =>
    obtain ⟨took, acquired⟩ := acquire_of_not_held
      (show s.plock ≠ some .sleeper by simp [inv.pSleeper, pc, SleeperPc.holdsP])
    exact ⟨_, by rw [acquired]; rfl⟩
  case releaseLk | release =>
    have held : s.lk = some .sleeper := inv.lkSleeper.mpr (by simp [pc, SleeperPc.holdsLk])
    exact ⟨_, by rw [held, release_held]; rfl⟩
  case releaseP =>
    have held : s.plock = some .sleeper := inv.pSleeper.mpr (by simp [pc, SleeperPc.holdsP])
    exact ⟨_, by rw [held, release_held]; rfl⟩
  case sched =>
    have held : s.plock = some .sleeper := inv.pSleeper.mpr (by simp [pc, SleeperPc.holdsP])
    have lkFree : s.lk ≠ some .sleeper := by simp [inv.lkSleeper, pc, SleeperPc.holdsLk]
    have asleep : s.state = .sleeping := inv.inSched pc
    have checked : schedCheck s = .ok () := by simp [schedCheck, held, lkFree, asleep]
    exact ⟨_, by rw [checked]; rfl⟩
  all_goals exact ⟨_, rfl⟩

theorem wakerStep_ok (inv : Inv early chan s) : ∃ s', wakerStep early chan s = .ok s' := by
  unfold wakerStep
  cases pc : s.waker <;> simp only
  case acquireLk =>
    obtain ⟨took, acquired⟩ := acquire_of_not_held
      (show s.lk ≠ some .waker by simp [inv.lkWaker, pc, WakerPc.holdsLk])
    exact ⟨_, by rw [acquired]; rfl⟩
  case wakeAcquire =>
    obtain ⟨took, acquired⟩ := acquire_of_not_held (show s.plock ≠ some .waker by simp [inv.pWaker, pc])
    exact ⟨_, by rw [acquired]; rfl⟩
  case releaseEarly | releaseLate =>
    -- the waker is on the path that releases here
    have onPath := inv.path
    have held : s.lk = some .waker :=
      inv.lkWaker.mpr (by cases early <;> simp [pc, WakerPc.holdsLk, WakerPc.onPath] at onPath ⊢)
    exact ⟨_, by rw [held, release_held]; rfl⟩
  case wakeCheck =>
    have held : s.plock = some .waker := inv.pWaker.mpr pc
    exact ⟨_, by rw [held, release_held]; rfl⟩
  all_goals exact ⟨_, rfl⟩

theorem killerStep_ok (inv : Inv early chan s) : ∃ s', killerStep s = .ok s' := by
  unfold killerStep
  cases pc : s.killer <;> simp only
  case acquireP =>
    obtain ⟨took, acquired⟩ := acquire_of_not_held (show s.plock ≠ some .killer by simp [inv.pKiller, pc])
    exact ⟨_, by rw [acquired]; rfl⟩
  case mark =>
    have held : s.plock = some .killer := inv.pKiller.mpr pc
    exact ⟨_, by rw [held, release_held]; rfl⟩

theorem scheduleStep_ok (s : St) : ∃ s', scheduleStep s = .ok s' := by
  unfold scheduleStep
  split
  · exact ⟨_, rfl⟩
  · exact ⟨_, rfl⟩

/-- No interleaving of the sleeper, the waker, `kill` and the scheduler
reaches a panic of `acquire`, `release` or `sched`. -/
theorem sleep_wakeup_never_panics {cond : Bool} (reached : Reachable early chan cond s) (a : Act) :
    ∃ s', step early chan s a = .ok s' := by
  have inv := reached.inv
  cases a with
  | sleeper => exact sleeperStep_ok inv
  | waker => exact wakerStep_ok inv
  | killer => exact killerStep_ok inv
  | schedule => exact scheduleStep_ok s

end Panics

section Wakeup

theorem wakerStep_woke (checking : s.waker = .wakeCheck) (stepped : wakerStep early chan s = .ok s') :
    s'.waker.woke := by
  unfold wakerStep at stepped
  simp only [checking] at stepped
  obtain ⟨u, -, rest⟩ := Machine.bind_eq_ok stepped
  cases rest
  cases early <;> rfl

/-- The interleaving in which the sleeper goes to sleep on `chan` before the
waker takes `lk`, and the waker then reaches `wakeup`'s test of its slot. -/
def sleepFirst (early : Bool) : List Act :=
  [.sleeper, .sleeper, .sleeper, .sleeper, .sleeper, .sleeper, .sleeper, .waker, .waker] ++
    (if early then [.waker] else []) ++ [.waker]

/-- Where `sleepFirst` leaves the system: the sleeper switched out, asleep on
`chan`, and the waker holding the sleeper's `p->lock` in `wakeup`. -/
def sleptState (early : Bool) (chan : Chan) : St :=
  { sleeper := .switched, waker := .wakeCheck, killer := .acquireP, lk := if early then none else some .waker,
    plock := some .waker, cond := true, state := .sleeping, chan := chan, killed := false }

theorem sleepFirst_run (early : Bool) (chan : Chan) :
    Machine.run (step early chan) (init false) (sleepFirst early) = .ok (sleptState early chan) := by
  cases early <;> rfl

theorem sleep_wakeup_never_panics_asleep :
    ∃ s', step false .none (sleptState false .none) .waker = .ok s' :=
  sleep_wakeup_never_panics (Machine.Reachable.run .init (sleepFirst_run false .none)) .waker

end Wakeup

/-- No lost wakeup: in every interleaving, once the waker's `wakeup` has
returned the sleeper is not asleep on `chan`; `wakeup`'s test of the slot
returns from every state it is reached in; an interleaving in which the
sleeper is asleep on `chan` when the waker gets there has the sleeper
`RUNNABLE` after it; and the sleeper leaves `SLEEPING` only through `wakeup`'s
test of its slot on its channel, or `kill`. -/
theorem no_lost_wakeup (early : Bool) (chan : Chan) (cond : Bool) :
    (∀ s, Reachable early chan cond s → s.waker.woke → ¬(s.state = .sleeping ∧ s.chan = chan)) ∧
    (∀ s, Reachable early chan cond s → s.waker = .wakeCheck →
      ∃ s', step early chan s .waker = .ok s' ∧ s'.waker.woke ∧ ¬(s'.state = .sleeping ∧ s'.chan = chan)) ∧
    (∃ s s', Reachable early chan false s ∧ s.state = .sleeping ∧ s.chan = chan ∧ s.waker = .wakeCheck ∧
      step early chan s .waker = .ok s' ∧ s'.waker.woke ∧ s'.state = .runnable) ∧
    (∀ s a s', step early chan s a = .ok s' → s.state = .sleeping → s'.state ≠ .sleeping →
      s'.state = .runnable ∧
        (a = .waker ∧ s.waker = .wakeCheck ∧ s.chan = chan ∨ a = .killer ∧ s.killer = .mark)) := by
  refine ⟨fun s reached woke asleep => reached.inv.woken woke asleep.1, fun s reached checking => ?_, ?_,
    fun s a s' stepped asleep left => leaves_sleeping stepped asleep left⟩
  · obtain ⟨s', stepped⟩ := wakerStep_ok reached.inv
    have woke := wakerStep_woke checking stepped
    have reached' : Reachable early chan cond s' := Machine.Reachable.step Act.waker reached stepped
    have inv' := reached'.inv
    exact ⟨s', stepped, woke, fun asleep => inv'.woken woke asleep.1⟩
  · -- the sleeper is asleep when the waker tests its slot, and is woken by it
    have reached : Reachable early chan false (sleptState early chan) :=
      Machine.Reachable.run .init (sleepFirst_run early chan)
    obtain ⟨s', stepped⟩ := wakerStep_ok reached.inv
    have woke := wakerStep_woke rfl stepped
    have reached' : Reachable early chan false s' := Machine.Reachable.step Act.waker reached stepped
    have inv' := reached'.inv
    refine ⟨sleptState early chan, s', reached, rfl, rfl, rfl, stepped, woke, ?_⟩
    rcases wakerStep_state stepped with same | ⟨-, -, -, runnable⟩
    · exact absurd same (inv'.woken woke)
    · exact runnable

end Xv6.Sleep
