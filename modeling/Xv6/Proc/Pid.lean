import Xv6.Proc.Tree

/-!
`allocpid()` of `kernel/proc.c` with `nextpid` as the C `int` it is. The
table's model lets `nextpid` grow without bound, which is what the C code does
while the counter stays below `INT_MAX`. Here is a run that gets there: `init`
forks a child, the child exits and `init` reaps it, and each such round leaves
the table as it was but for `nextpid`. So every value of `nextpid` is reached,
and at `INT_MAX` the next `fork` makes `allocpid` compute `nextpid + 1`, a
signed overflow.
-/

namespace Xv6.Procs

/-- `allocpid()`: `pid = nextpid; nextpid = nextpid + 1;` with `nextpid` an
`int`. The pid and the new counter; an increment past `INT_MAX` is undefined. -/
def allocpid (nextpid : Int) : Except String (Int × Int) :=
  if nextpid + 1 ≤ 2 ^ 31 - 1 then .ok (nextpid, nextpid + 1) else .error "allocpid: nextpid + 1 overflows int"

/-- `init` in slot 0, running. -/
def initRunning : Proc := { state := .running, chan := .none, killed := false, xstate := 0, pid := 1, parent := none }

/-- The table with `init` running in slot 0 and every other slot free. -/
def soleInit (nextpid : Int) : Table :=
  { procs := Function.update (fun _ => unusedProc) 0 initRunning, nextpid := nextpid, initproc := 0 }

/-- `init`'s child in slot 1, with pid `pid`. -/
def child (pid : Int) (state : ProcState) : Proc :=
  { state := state, chan := .none, killed := false, xstate := 0, pid := pid, parent := some 0 }

/-- The table of a round once `fork` has made the child. -/
def withChild (n : Int) (state : ProcState) : Table := (soleInit (n + 1)).set 1 (child n state)

/-- One round: `init` forks, the child is scheduled and exits, and `init`'s
`wait` reaps it. -/
def round : List Event := [.fork 0 true true true, .schedule 1, .exit 1 0, .wait 0 0 true]

section Rounds

variable {n : Int} {state : ProcState}

theorem zero_ne_one_slot : (0 : Fin nProc) ≠ 1 := by decide

theorem Table.set_procs_eq (t : Table) (i : Fin nProc) : t.set i (t.procs i) = t := by
  cases t
  simp [Table.set]

theorem soleInit_procs_of_ne {i : Fin nProc} (other : i ≠ 0) : (soleInit n).procs i = unusedProc := by
  simp [soleInit, other]

theorem firstUnused_soleInit : firstUnused (soleInit n) = some 1 := by
  have closed : firstUnused (soleInit 0) = some 1 := by decide
  rw [← closed]
  exact firstUnused_congr fun _ => rfl

theorem withChild_procs_zero : (withChild n state).procs 0 = initRunning := by
  show Function.update (soleInit (n + 1)).procs 1 (child n state) 0 = initRunning
  rw [Function.update_of_ne zero_ne_one_slot]
  simp [soleInit]

theorem withChild_procs_one : (withChild n state).procs 1 = child n state := by
  simp [withChild]

theorem withChild_procs_of_ne {i : Fin nProc} (zero : i ≠ 0) (one : i ≠ 1) :
    (withChild n state).procs i = unusedProc := by
  simp [withChild, soleInit, Table.set, zero, one]

/-- In a round's tables, no process sleeps and slot 1 has no children. -/
theorem withChild_slots (awake : state ≠ .sleeping) (i : Fin nProc) :
    ((withChild n state).procs i).state ≠ .sleeping ∧ ((withChild n state).procs i).parent ≠ some 1 := by
  by_cases zero : i = 0
  · subst zero
    rw [withChild_procs_zero]
    exact ⟨nofun, nofun⟩
  · by_cases one : i = 1
    · subst one
      rw [withChild_procs_one]
      exact ⟨awake, fun same => zero_ne_one_slot (Option.some.inj same)⟩
    · rw [withChild_procs_of_ne zero one]
      exact ⟨nofun, nofun⟩

theorem wakeup_of_awake {t : Table} (awake : ∀ i, (t.procs i).state ≠ .sleeping) (chan : Chan) :
    wakeup t chan = t := by
  have same : ∀ i, wake chan (t.procs i) = t.procs i := fun i => by
    simp [wake, awake i]
  simp [wakeup, same]

theorem reparent_of_childless {t : Table} {p : Fin nProc} (childless : ∀ i, (t.procs i).parent ≠ some p) :
    reparent t p = t := by
  unfold reparent
  exact List.foldl_fixed' (fun pp => by rw [reparentAt, if_neg (childless pp)]) _

theorem round_fork : step (soleInit n) (.fork 0 true true true) = .ok (withChild n .runnable) := by
  have running : ((soleInit n).procs 0).state = .running := by simp [soleInit, initRunning]
  rw [step, if_pos running, fork_of_firstUnused firstUnused_soleInit, soleInit_procs_of_ne zero_ne_one_slot.symm]
  rfl

theorem round_schedule : step (withChild n .runnable) (.schedule 1) = .ok (withChild n .running) := by
  rw [step, if_pos (by rw [withChild_procs_one]; rfl), schedule, withChild_procs_one]
  simp [withChild, child]

theorem round_exit : step (withChild n .running) (.exit 1 0) = .ok (withChild n .zombie) := by
  have notInit : (1 : Fin nProc) ≠ (withChild n .running).initproc := zero_ne_one_slot.symm
  rw [step, if_pos (by rw [withChild_procs_one]; rfl), exit, if_neg notInit]
  dsimp only
  -- the child has no children to give away, and nobody sleeps to be woken
  have slots : ∀ i, ((withChild n .running).procs i).state ≠ .sleeping ∧
      ((withChild n .running).procs i).parent ≠ some 1 := withChild_slots (by decide)
  rw [reparent_of_childless fun i => (slots i).2, wakeup_of_awake fun i => (slots i).1, withChild_procs_one]
  simp [withChild, child]

theorem round_wait : step (withChild n .zombie) (.wait 0 0 true) = .ok (soleInit (n + 1)) := by
  rw [step, if_pos (by rw [withChild_procs_zero]; rfl)]
  rcases wait_of_zombie_child (t := withChild n .zombie) (p := 0) (c := 1) 0 true (by rw [withChild_procs_one]; rfl)
      (by rw [withChild_procs_one]; rfl) with ⟨absurd, -⟩ | ⟨-, c, isChild, -, reaped⟩
  · exact absurd.elim rfl
  -- slot 1 holds the only child of `init`
  · have one : c = 1 := by
      by_contra other
      by_cases zero : c = 0
      · subst zero
        rw [withChild_procs_zero] at isChild
        cases isChild
      · rw [withChild_procs_of_ne zero other] at isChild
        cases isChild
    subst one
    simp only [reaped]
    rw [withChild, Table.set_set, ← soleInit_procs_of_ne (n := n + 1) zero_ne_one_slot.symm, Table.set_procs_eq]

theorem round_run : Machine.run step (soleInit n) round = .ok (soleInit (n + 1)) := by
  rw [round, Machine.run_cons_of_step round_fork, Machine.run_cons_of_step round_schedule,
    Machine.run_cons_of_step round_exit, Machine.run_cons_of_step round_wait]
  rfl

theorem soleInit_booted : step booted (.schedule 0) = .ok (soleInit 2) := by
  rw [step, if_pos (by decide), schedule]
  simp [booted, soleInit, Table.set, initRunning, unusedProc]

theorem soleInit_reachable (k : Nat) : Reachable (soleInit (k + 2)) := by
  induction k with
  | zero => exact (Machine.Reachable.init).step (.schedule 0) soleInit_booted
  | succ k ih =>
    have next := ih.run round_run
    rwa [show (k + 2 : Int) + 1 = ((k + 1 : Nat) : Int) + 2 by push_cast; ring] at next

end Rounds

theorem nextpid_overflows :
    ∃ t, Reachable t ∧ (t.procs t.initproc).state = .running ∧ firstUnused t = some 1 ∧
      allocpid t.nextpid = .error "allocpid: nextpid + 1 overflows int" := by
  refine ⟨soleInit (2 ^ 31 - 1), ?_, by simp [soleInit, initRunning], firstUnused_soleInit, by decide⟩
  have reached := soleInit_reachable (2 ^ 31 - 3)
  rwa [show ((2 ^ 31 - 3 : Nat) : Int) + 2 = 2 ^ 31 - 1 by norm_num] at reached

end Xv6.Procs
