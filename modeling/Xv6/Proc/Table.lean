import Mathlib
import Xv6.Param
import Xv6.Library.Machine

/-!
The process table of `kernel/proc.c`: for every slot its state, sleep
channel, `killed` flag, exit status, pid and parent, with `nextpid` and
`initproc`. `fork`, `exit`, `wait`, `kill` and the scheduler's transitions
each change these fields as one step: each holds `wait_lock` or the slot locks
it needs across the changes it makes. The one exception is `fork`, whose child
is `USED` with no parent between `allocproc` and the `wait_lock` section; only
`kill` can touch it there, and a `killed` flag set then is the one set a moment
later. Memory, files and the working directory are left out, and the
allocations `fork` makes are oracles that succeed or fail.

`nextpid` is an `int` that the model lets grow without wrapping, as it does in
every run of fewer than `2^31` allocations.
-/

namespace Xv6.Procs

instance : NeZero nProc := ⟨by decide⟩

/-- `enum procstate`. -/
inductive ProcState where
  | unused
  | used
  | sleeping
  | runnable
  | running
  | zombie
  deriving DecidableEq, Repr

/-- A sleep channel: the address of a `struct proc`, which `wait` sleeps on and
`exit` wakes, or of some other kernel object; `none` is the null pointer. -/
inductive Chan where
  | none
  | proc (i : Fin nProc)
  | other (addr : Nat)
  deriving DecidableEq, Repr

/-- The fields of `struct proc` that the model reads and writes. -/
structure Proc where
  state : ProcState
  chan : Chan
  killed : Bool
  xstate : Int
  pid : Int
  parent : Option (Fin nProc)

/-- The process table, `nextpid` and `initproc`. -/
structure Table where
  procs : Fin nProc → Proc
  nextpid : Int
  initproc : Fin nProc

/-- Slot `i` replaced by `q`. -/
def Table.set (t : Table) (i : Fin nProc) (q : Proc) : Table :=
  { t with procs := Function.update t.procs i q }

section Calls

/-- `freeproc(p)`. -/
def freeproc (q : Proc) : Proc :=
  { q with pid := 0, parent := none, chan := .none, killed := false, xstate := 0, state := .unused }

/-- The slot `allocproc` takes: the first `UNUSED` one. -/
def firstUnused (t : Table) : Option (Fin nProc) :=
  (List.finRange nProc).find? fun i => (t.procs i).state = .unused

/-- `allocproc()`: the slot gets the next pid and the state `USED`; when its
trapframe or its page table cannot be allocated, `freeproc` gives it back. -/
def allocproc (t : Table) (trapframeOk pagetableOk : Bool) : Option (Fin nProc) × Table :=
  match firstUnused t with
  | none => (none, t)
  | some i =>
      let t' := { t with nextpid := t.nextpid + 1 }.set i
        { t.procs i with pid := t.nextpid, state := .used }
      if !trapframeOk then (none, t'.set i (freeproc (t'.procs i)))
      else if !pagetableOk then (none, t'.set i (freeproc (t'.procs i)))
      else (some i, t')

/-- `fork()` by process `p`: the pid it returns, and the table. The child's
`killed` flag is whatever its slot held. -/
def fork (t : Table) (p : Fin nProc) (trapframeOk pagetableOk copyOk : Bool) : Int × Table :=
  match allocproc t trapframeOk pagetableOk with
  | (none, t') => (-1, t')
  | (some np, t') =>
      if !copyOk then (-1, t'.set np (freeproc (t'.procs np)))
      else ((t'.procs np).pid, t'.set np { t'.procs np with parent := some p, state := .runnable })

/-- The effect of `wakeup(chan)` on one slot. -/
def wake (chan : Chan) (q : Proc) : Proc :=
  if q.state = .sleeping ∧ q.chan = chan then { q with state := .runnable } else q

/-- `wakeup(chan)`. It skips the caller, which is running and so is left alone
anyway. -/
def wakeup (t : Table) (chan : Chan) : Table :=
  { t with procs := fun i => wake chan (t.procs i) }

/-- One pass of `reparent(p)`'s loop, at slot `pp`. -/
def reparentAt (p : Fin nProc) (t : Table) (pp : Fin nProc) : Table :=
  if (t.procs pp).parent = some p then
    wakeup (t.set pp { t.procs pp with parent := some t.initproc }) (.proc t.initproc)
  else t

/-- `reparent(p)`: `p`'s children go to `initproc`. -/
def reparent (t : Table) (p : Fin nProc) : Table :=
  (List.finRange nProc).foldl (reparentAt p) t

/-- The channel of `wakeup(p->parent)`: a null parent is the null channel. -/
def parentChan : Option (Fin nProc) → Chan
  | some q => .proc q
  | none => .none

/-- `exit(status)` by process `p`, up to `sched`. -/
def exit (t : Table) (p : Fin nProc) (status : Int) : Except String Table :=
  if p = t.initproc then .error "init exiting"
  else
    let t := reparent t p
    let t := wakeup t (parentChan (t.procs p).parent)
    .ok (t.set p { t.procs p with xstate := status, state := .zombie })

/-- How a pass of `wait`'s loop ends. -/
inductive WaitResult where
  /-- It returns the pid of the child it freed. -/
  | reaped (pid : Int)
  /-- It returns `-1`. -/
  | failed
  /-- It calls `sleep(p, &wait_lock)`; woken, the process runs the loop again. -/
  | asleep

/-- One pass of `wait(addr)`'s loop by process `p`: the first child in table
order that is a zombie is freed, unless copying its exit status to `addr`
fails. -/
def wait (t : Table) (p : Fin nProc) (addr : Nat) (copyOk : Bool) : WaitResult × Table :=
  let kids := (List.finRange nProc).filter fun i => (t.procs i).parent = some p
  match kids.find? fun i => (t.procs i).state = .zombie with
  | some c =>
      if addr ≠ 0 ∧ copyOk = false then (.failed, t)
      else (.reaped (t.procs c).pid, t.set c (freeproc (t.procs c)))
  | none =>
      if kids = [] ∨ (t.procs p).killed then (.failed, t)
      else (.asleep, t.set p { t.procs p with chan := .proc p, state := .sleeping })

/-- `kill(pid)`: the first slot holding `pid`, whatever its state, is marked
killed and woken if asleep. -/
def kill (t : Table) (pid : Int) : Int × Table :=
  match (List.finRange nProc).find? fun i => (t.procs i).pid = pid with
  | none => (-1, t)
  | some i =>
      let q := t.procs i
      (0, t.set i { q with killed := true,
                           state := if q.state = .sleeping then .runnable else q.state })

/-- A slot of the zeroed table. -/
def unusedProc : Proc :=
  { state := .unused, chan := .none, killed := false, xstate := 0, pid := 0, parent := none }

/-- The process table at boot. -/
def empty : Table := { procs := fun _ => unusedProc, nextpid := 1, initproc := 0 }

/-- `userinit()`: the first process becomes `initproc`, runnable. `none` if
`allocproc` fails, where the C code would follow a null pointer. -/
def userinit (t : Table) : Option Table :=
  match allocproc t true true with
  | (some p, t') => some ({ t' with initproc := p }.set p { t'.procs p with state := .runnable })
  | (none, _) => none

/-- The table once `userinit` has run. -/
def booted : Table :=
  { procs := Function.update (fun _ => unusedProc) 0 { unusedProc with pid := 1, state := .runnable },
    nextpid := 2, initproc := 0 }

end Calls

section System

/-- What can happen to the table next. `fork`, `exit`, `wait` and `sleep` are
made by a running process; `sleep` is any other `sleep(chan, lk)` of the
kernel, whose channels are other objects' addresses. -/
inductive Event where
  | fork (p : Fin nProc) (trapframeOk pagetableOk copyOk : Bool)
  | exit (p : Fin nProc) (status : Int)
  | wait (p : Fin nProc) (addr : Nat) (copyOk : Bool)
  | kill (pid : Int)
  | schedule (p : Fin nProc)
  | yield (p : Fin nProc)
  | sleep (p : Fin nProc) (addr : Nat)
  | wakeup (chan : Chan)

/-- The scheduler runs `p`: `swtch` into it holding `p->lock`, under which a
process coming back from `sleep` clears its channel. -/
def schedule (t : Table) (p : Fin nProc) : Table :=
  t.set p { t.procs p with state := .running, chan := .none }

/-- A step of the table. An event that cannot happen now (its process is not
in the state it needs) leaves the table as it is. -/
def step (t : Table) : Event → Except String Table
  | .fork p a b c => if (t.procs p).state = .running then .ok (fork t p a b c).2 else .ok t
  | .exit p status => if (t.procs p).state = .running then exit t p status else .ok t
  | .wait p addr ok => if (t.procs p).state = .running then .ok (wait t p addr ok).2 else .ok t
  | .kill pid => .ok (kill t pid).2
  | .schedule p => if (t.procs p).state = .runnable then .ok (schedule t p) else .ok t
  | .yield p =>
      if (t.procs p).state = .running then .ok (t.set p { t.procs p with state := .runnable })
      else .ok t
  | .sleep p addr =>
      if (t.procs p).state = .running then
        .ok (t.set p { t.procs p with chan := .other addr, state := .sleeping })
      else .ok t
  | .wakeup chan => .ok (wakeup t chan)

/-- The tables some run from boot reaches. -/
abbrev Reachable (t : Table) : Prop := Machine.Reachable step booted t

end System

section Spec

variable {t : Table} {i j : Fin nProc} {q : Proc}

@[simp] theorem Table.set_procs_self (t : Table) (i : Fin nProc) (q : Proc) : (t.set i q).procs i = q := by
  simp [Table.set]

@[simp] theorem Table.set_procs_of_ne (t : Table) (q : Proc) (other : j ≠ i) : (t.set i q).procs j = t.procs j := by
  simp [Table.set, other]

@[simp] theorem Table.set_initproc (t : Table) (i : Fin nProc) (q : Proc) : (t.set i q).initproc = t.initproc := rfl

@[simp] theorem Table.set_nextpid (t : Table) (i : Fin nProc) (q : Proc) : (t.set i q).nextpid = t.nextpid := rfl

theorem Table.set_procs (t : Table) (i : Fin nProc) (q : Proc) (j : Fin nProc) :
    (t.set i q).procs j = if j = i then q else t.procs j :=
  Function.update_apply t.procs i q j

/-- What a wakeup may do to a slot: make a sleeping process runnable. The
pid and the `killed` flag stay. -/
def Wakes (q q' : Proc) : Prop :=
  q'.pid = q.pid ∧ q'.killed = q.killed ∧ (q'.state = q.state ∨ q.state = .sleeping ∧ q'.state = .runnable)

theorem Wakes.refl (q : Proc) : Wakes q q := ⟨rfl, rfl, .inl rfl⟩

theorem Wakes.trans {q q' q'' : Proc} (first : Wakes q q') (second : Wakes q' q'') : Wakes q q'' := by
  obtain ⟨pid, killed, state⟩ := first
  obtain ⟨pid', killed', state'⟩ := second
  refine ⟨pid'.trans pid, killed'.trans killed, ?_⟩
  rcases state with same | ⟨asleep, woken⟩ <;> rcases state' with same' | ⟨asleep', woken'⟩
  · exact .inl (same'.trans same)
  · exact .inr ⟨same ▸ asleep', woken'⟩
  · exact .inr ⟨asleep, same'.trans woken⟩
  · rw [woken] at asleep'
    cases asleep'

theorem wakes_wake (chan : Chan) (q : Proc) : Wakes q (wake chan q) := by
  unfold wake
  split
  · rename_i asleep
    exact ⟨rfl, rfl, .inr ⟨asleep.1, rfl⟩⟩
  · exact Wakes.refl q

@[simp] theorem wake_parent (chan : Chan) (q : Proc) : (wake chan q).parent = q.parent := by
  unfold wake
  split <;> rfl

@[simp] theorem wake_pid (chan : Chan) (q : Proc) : (wake chan q).pid = q.pid := (wakes_wake chan q).1

/-- A wakeup leaves a slot that is not asleep as it is. -/
theorem Wakes.state_of_ne_sleeping {q q' : Proc} (woken : Wakes q q') (awake : q.state ≠ .sleeping) :
    q'.state = q.state := by
  rcases woken.2.2 with same | ⟨asleep, _⟩
  · exact same
  · exact absurd asleep awake

@[simp] theorem wakeup_procs (t : Table) (chan : Chan) (i : Fin nProc) :
    (wakeup t chan).procs i = wake chan (t.procs i) := rfl

@[simp] theorem wakeup_initproc (t : Table) (chan : Chan) : (wakeup t chan).initproc = t.initproc := rfl

@[simp] theorem wakeup_nextpid (t : Table) (chan : Chan) : (wakeup t chan).nextpid = t.nextpid := rfl

theorem reparentAt_spec (p : Fin nProc) (t : Table) (pp : Fin nProc) :
    (reparentAt p t pp).initproc = t.initproc ∧ (reparentAt p t pp).nextpid = t.nextpid ∧
      ∀ i, Wakes (t.procs i) ((reparentAt p t pp).procs i) ∧
        ((reparentAt p t pp).procs i).parent =
          if i = pp ∧ (t.procs i).parent = some p then some t.initproc else (t.procs i).parent := by
  unfold reparentAt
  split
  · rename_i child
    refine ⟨rfl, rfl, fun i => ⟨?_, ?_⟩⟩
    · refine Wakes.trans ?_ (wakes_wake _ _)
      by_cases here : i = pp
      · subst here
        rw [Table.set_procs_self]
        exact ⟨rfl, rfl, .inl rfl⟩
      · rw [Table.set_procs_of_ne _ _ here]
        exact Wakes.refl _
    · by_cases here : i = pp
      · subst here
        simp [child]
      · simp [here]
  · rename_i notChild
    refine ⟨rfl, rfl, fun i => ⟨Wakes.refl _, ?_⟩⟩
    by_cases here : i = pp
    · subst here
      simp [notChild]
    · simp [here]

theorem reparent_loop (p : Fin nProc) (slots : List (Fin nProc)) (t : Table) (notInit : p ≠ t.initproc) :
    (slots.foldl (reparentAt p) t).initproc = t.initproc ∧
      (slots.foldl (reparentAt p) t).nextpid = t.nextpid ∧
      ∀ i, Wakes (t.procs i) ((slots.foldl (reparentAt p) t).procs i) ∧
        ((slots.foldl (reparentAt p) t).procs i).parent =
          if i ∈ slots ∧ (t.procs i).parent = some p then some t.initproc else (t.procs i).parent := by
  induction slots generalizing t with
  | nil => exact ⟨rfl, rfl, fun i => ⟨Wakes.refl _, by simp⟩⟩
  | cons pp rest ih =>
      obtain ⟨init₁, next₁, each₁⟩ := reparentAt_spec p t pp
      obtain ⟨init₂, next₂, each₂⟩ := ih (reparentAt p t pp) (init₁ ▸ notInit)
      rw [List.foldl_cons]
      refine ⟨init₂.trans init₁, next₂.trans next₁, fun i => ⟨(each₁ i).1.trans (each₂ i).1, ?_⟩⟩
      rw [(each₂ i).2, (each₁ i).2, init₁]
      -- a child moved by this pass is no longer `p`'s when the rest of the loop sees it
      by_cases child : (t.procs i).parent = some p
      · by_cases here : i = pp
        · subst here
          simp [child, Ne.symm notInit]
        · simp [here, child]
      · simp [child]

theorem reparent_spec (t : Table) (p : Fin nProc) (notInit : p ≠ t.initproc) :
    (reparent t p).initproc = t.initproc ∧ (reparent t p).nextpid = t.nextpid ∧
      ∀ i, Wakes (t.procs i) ((reparent t p).procs i) ∧
        ((reparent t p).procs i).parent =
          if (t.procs i).parent = some p then some t.initproc else (t.procs i).parent := by
  unfold reparent
  obtain ⟨init, next, each⟩ := reparent_loop p (List.finRange nProc) t notInit
  refine ⟨init, next, fun i => ⟨(each i).1, ?_⟩⟩
  simpa only [List.mem_finRange, true_and] using (each i).2

@[simp] theorem Table.set_set (t : Table) (i : Fin nProc) (q q' : Proc) : (t.set i q).set i q' = t.set i q' := by
  simp [Table.set]

/-- `freeproc` clears every field the model keeps. -/
@[simp] theorem freeproc_eq (q : Proc) : freeproc q = unusedProc := rfl

theorem firstUnused_unused (found : firstUnused t = some i) : (t.procs i).state = .unused := by
  unfold firstUnused at found
  simpa using List.find?_some found

/-- `fork`'s three outcomes: no free slot, an allocation that fails and gives
the slot back, or a child in the first free slot. -/
theorem fork_cases (t : Table) (p : Fin nProc) (trapframeOk pagetableOk copyOk : Bool) :
    fork t p trapframeOk pagetableOk copyOk = (-1, t) ∨
      ∃ i, firstUnused t = some i ∧
        (fork t p trapframeOk pagetableOk copyOk = (-1, { t with nextpid := t.nextpid + 1 }.set i unusedProc) ∨
          fork t p trapframeOk pagetableOk copyOk = (t.nextpid, { t with nextpid := t.nextpid + 1 }.set i
            { t.procs i with pid := t.nextpid, parent := some p, state := .runnable })) := by
  unfold fork allocproc
  cases found : firstUnused t with
  | none => exact .inl rfl
  | some i =>
      refine .inr ⟨i, rfl, ?_⟩
      -- each failed allocation frees the slot; only the last branch keeps it
      cases trapframeOk
      · left
        simp only [Bool.not_false, if_true, Table.set_set, freeproc_eq]
      cases pagetableOk
      · left
        simp only [Bool.not_true, Bool.not_false, if_true, Bool.false_eq_true, if_false, Table.set_set,
          freeproc_eq]
      cases copyOk
      · left
        simp only [Bool.not_true, Bool.not_false, if_true, Bool.false_eq_true, if_false, Table.set_set,
          freeproc_eq, Table.set_procs_self]
      · right
        simp only [Bool.not_true, Bool.false_eq_true, if_false, Table.set_set, Table.set_procs_self]

theorem fork_of_firstUnused {p : Fin nProc} (found : firstUnused t = some i) :
    fork t p true true true = (t.nextpid, { t with nextpid := t.nextpid + 1 }.set i
      { t.procs i with pid := t.nextpid, parent := some p, state := .runnable }) := by
  simp [fork, allocproc, found]

theorem firstUnused_congr {t' : Table} (states : ∀ j, (t'.procs j).state = (t.procs j).state) :
    firstUnused t' = firstUnused t := by
  simp only [firstUnused, states]

theorem exit_spec {p : Fin nProc} {status : Int} {t' : Table} (exited : exit t p status = .ok t') :
    p ≠ t.initproc ∧ t'.initproc = t.initproc ∧ t'.nextpid = t.nextpid ∧
      (t'.procs p).state = .zombie ∧ (t'.procs p).pid = (t.procs p).pid ∧
      ∀ i, (t'.procs i).parent =
          (if (t.procs i).parent = some p then some t.initproc else (t.procs i).parent) ∧
        (i ≠ p → Wakes (t.procs i) (t'.procs i)) := by
  unfold exit at exited
  split at exited
  · cases exited
  · rename_i notInit
    cases exited
    obtain ⟨init, next, each⟩ := reparent_spec t p notInit
    refine ⟨notInit, by simp [init], by simp [next], by simp, by simpa using (each p).1.1,
      fun i => ⟨?_, fun other => ?_⟩⟩
    · by_cases here : i = p
      · subst here
        simpa using (each i).2
      · simpa [here] using (each i).2
    · simpa [other] using (each i).1.trans (wakes_wake _ _)

theorem wait_cases (t : Table) (p : Fin nProc) (addr : Nat) (copyOk : Bool) :
    wait t p addr copyOk = (.failed, t) ∨
      wait t p addr copyOk = (.asleep, t.set p { t.procs p with chan := .proc p, state := .sleeping }) ∨
      ∃ c, (t.procs c).parent = some p ∧ (t.procs c).state = .zombie ∧
        wait t p addr copyOk = (.reaped (t.procs c).pid, t.set c unusedProc) := by
  unfold wait
  dsimp only
  cases found : ((List.finRange nProc).filter fun i => (t.procs i).parent = some p).find?
      (fun i => (t.procs i).state = .zombie) with
  | some c =>
      have zombie := List.find?_some found
      have child := List.mem_of_find?_eq_some found
      simp only [List.mem_filter, List.mem_finRange, decide_eq_true_eq, true_and] at child
      dsimp only
      split
      · exact .inl rfl
      · exact .inr (.inr ⟨c, child, by simpa using zombie, by simp⟩)
  | none =>
      dsimp only
      split
      · exact .inl rfl
      · exact .inr (.inl rfl)

theorem wait_of_zombie_child {p c : Fin nProc} (addr : Nat) (copyOk : Bool)
    (child : (t.procs c).parent = some p) (zombie : (t.procs c).state = .zombie) :
    (addr ≠ 0 ∧ copyOk = false ∧ wait t p addr copyOk = (.failed, t)) ∨
      ((addr = 0 ∨ copyOk = true) ∧ ∃ c', (t.procs c').parent = some p ∧ (t.procs c').state = .zombie ∧
        wait t p addr copyOk = (.reaped (t.procs c').pid, t.set c' unusedProc)) := by
  unfold wait
  dsimp only
  cases found : ((List.finRange nProc).filter fun i => (t.procs i).parent = some p).find?
      (fun i => (t.procs i).state = .zombie) with
  | some c' =>
      have zombie' := List.find?_some found
      have child' := List.mem_of_find?_eq_some found
      simp only [List.mem_filter, List.mem_finRange, decide_eq_true_eq, true_and] at child'
      dsimp only
      split
      · rename_i failed
        exact .inl ⟨failed.1, failed.2, rfl⟩
      · rename_i copied
        refine .inr ⟨?_, c', child', by simpa using zombie', by simp⟩
        cases copyOk
        · simpa using copied
        · exact .inr rfl
  | none =>
      -- `c` itself is a zombie among `p`'s children, so the search finds one
      have := List.find?_eq_none.mp found c
      simp [child, zombie] at this

theorem kill_cases (t : Table) (pid : Int) :
    ((kill t pid).1 = -1 ∧ (kill t pid).2 = t ∧ ∀ i, (t.procs i).pid ≠ pid) ∨
      ∃ i, (List.finRange nProc).find? (fun i => (t.procs i).pid = pid) = some i ∧
        (kill t pid).1 = 0 ∧
          (kill t pid).2 = t.set i { t.procs i with killed := true,
                                                    state := if (t.procs i).state = .sleeping then .runnable
                                                      else (t.procs i).state } := by
  unfold kill
  split
  · rename_i none
    refine .inl ⟨rfl, rfl, fun i => ?_⟩
    simpa using List.find?_eq_none.mp none i
  · rename_i i found
    exact .inr ⟨i, found, rfl, rfl⟩

end Spec


end Xv6.Procs
