import Mathlib
import Xv6.Proc.Table

/-!
The process tree that `fork`, `exit` and `wait` keep under `wait_lock`, and
the pids that `allocproc` and `freeproc` hand out. Each invariant is proved
for the booted table and for every step, and so holds of every reachable
table.

Most steps change a slot in a way the tree does not see: a wakeup, `kill`,
the scheduler, `yield` and `sleep` keep every parent and pid and move a state
only among the live ones (`Restate`). `fork`, `exit` and `wait` are the steps
that add, move and remove parent pointers, and each has its own lemma.
-/

namespace Xv6.Procs

/-- The states in which a process will run again, and so can still call
`wait` for its children. -/
def ProcState.live : ProcState → Bool
  | .sleeping | .runnable | .running => true
  | _ => false

theorem ProcState.ne_of_live {s : ProcState} (live : s.live) : s ≠ .unused ∧ s ≠ .zombie := by
  cases s <;> simp_all [ProcState.live]

/-- How a step that does not create or free a process may move a state:
not at all, or from a live state to a live one. -/
def ProcState.Moves (s s' : ProcState) : Prop := s' = s ∨ s.live ∧ s'.live

section Moves

variable {s s' d : ProcState}

theorem ProcState.Moves.live (moved : s.Moves s') (live : s.live) : s'.live := by
  rcases moved with same | ⟨-, live'⟩
  · rwa [same]
  · exact live'

/-- A state that is not live is neither left nor reached by a move. -/
theorem ProcState.Moves.ne (moved : s.Moves s') (dead : d.live = false) (ne : s ≠ d) : s' ≠ d := by
  rcases moved with same | ⟨-, live'⟩
  · rwa [same]
  · rintro rfl
    simp [dead] at live'

theorem ProcState.Moves.eq (moved : s.Moves s') (dead : d.live = false) (eq : s = d) : s' = d := by
  rcases moved with same | ⟨live, -⟩
  · rw [same, eq]
  · rw [eq, dead] at live
    cases live

theorem ProcState.Moves.eq_of_dead (moved : s.Moves s') (dead : s'.live = false) : s' = s := by
  rcases moved with same | ⟨-, live'⟩
  · exact same
  · rw [dead] at live'
    cases live'

theorem Wakes.moves {q q' : Proc} (woken : Wakes q q') : q.state.Moves q'.state := by
  rcases woken.2.2 with same | ⟨asleep, woken⟩
  · exact .inl same
  · exact .inr ⟨by simp [asleep, ProcState.live], by simp [woken, ProcState.live]⟩

end Moves

/-- A change to a slot that neither the tree nor the pids see: the parent and
the pid stay, and the state moves only among the live ones. -/
def Restate (q q' : Proc) : Prop :=
  q'.parent = q.parent ∧ q'.pid = q.pid ∧ q.state.Moves q'.state

section Restate

theorem Restate.refl (q : Proc) : Restate q q := ⟨rfl, rfl, .inl rfl⟩

theorem restate_wake (chan : Chan) (q : Proc) : Restate q (wake chan q) :=
  ⟨wake_parent chan q, wake_pid chan q, (wakes_wake chan q).moves⟩

/-- The slot update of the scheduler, `yield` and `sleep`: a live process
moves to another live state. -/
theorem restate_of_live {q : Proc} (s : ProcState) (c : Chan) (live : q.state.live) (live' : s.live) :
    Restate q { q with state := s, chan := c } :=
  ⟨rfl, rfl, .inr ⟨live, live'⟩⟩

theorem restate_kill (q : Proc) :
    Restate q { q with killed := true, state := if q.state = .sleeping then .runnable else q.state } := by
  refine ⟨rfl, rfl, ?_⟩
  by_cases asleep : q.state = .sleeping
  · exact .inr ⟨by simp [asleep, ProcState.live], by simp [asleep, ProcState.live]⟩
  · exact .inl (by simp [asleep])

theorem restate_set {t : Table} {i : Fin nProc} {q : Proc} (r : Restate (t.procs i) q) (j : Fin nProc) :
    Restate (t.procs j) ((t.set i q).procs j) := by
  by_cases here : j = i
  · subst here
    simpa using r
  · simpa [here] using Restate.refl (t.procs j)

/-- What a step of the table can do. Apart from `fork`, `exit` and `wait`,
it changes one slot by a `Restate` (`kill`, the scheduler, `yield`, `sleep`)
or wakes up a channel. -/
theorem step_cases {t t' : Table} {e : Event} (stepped : step t e = .ok t') :
    t' = t ∨
      (∃ i q, Restate (t.procs i) q ∧ t' = t.set i q) ∨
      (∃ chan, t' = wakeup t chan) ∨
      (∃ p trapframeOk pagetableOk copyOk, (t.procs p).state = .running ∧
        t' = (fork t p trapframeOk pagetableOk copyOk).2) ∨
      (∃ p status, (t.procs p).state = .running ∧ exit t p status = .ok t') ∨
      (∃ p addr copyOk, (t.procs p).state = .running ∧ t' = (wait t p addr copyOk).2) := by
  have live : ∀ {s : ProcState}, s = .running ∨ s = .runnable → s.live := by
    rintro s (rfl | rfl) <;> rfl
  cases e with
  | fork p a b c =>
      simp only [step] at stepped
      split at stepped <;> cases stepped
      · exact .inr (.inr (.inr (.inl ⟨p, a, b, c, ‹_›, rfl⟩)))
      · exact .inl rfl
  | exit p status =>
      simp only [step] at stepped
      split at stepped
      · exact .inr (.inr (.inr (.inr (.inl ⟨p, status, ‹_›, stepped⟩))))
      · cases stepped
        exact .inl rfl
  | wait p addr copyOk =>
      simp only [step] at stepped
      split at stepped <;> cases stepped
      · exact .inr (.inr (.inr (.inr (.inr ⟨p, addr, copyOk, ‹_›, rfl⟩))))
      · exact .inl rfl
  | kill pid =>
      cases stepped
      rcases kill_cases t pid with ⟨-, same, -⟩ | ⟨i, -, -, killed⟩
      · exact .inl same
      · exact .inr (.inl ⟨i, _, restate_kill _, killed⟩)
  | schedule p =>
      simp only [step] at stepped
      split at stepped <;> cases stepped
      · rename_i runnable
        exact .inr (.inl ⟨p, _, restate_of_live .running .none (live (.inr runnable)) rfl, rfl⟩)
      · exact .inl rfl
  | yield p =>
      simp only [step] at stepped
      split at stepped <;> cases stepped
      · rename_i running
        exact .inr (.inl ⟨p, { t.procs p with state := .runnable }, ⟨rfl, rfl, .inr ⟨live (.inl running), rfl⟩⟩, rfl⟩)
      · exact .inl rfl
  | sleep p addr =>
      simp only [step] at stepped
      split at stepped <;> cases stepped
      · rename_i running
        exact .inr (.inl ⟨p, _, restate_of_live .sleeping (.other addr) (live (.inl running)) rfl, rfl⟩)
      · exact .inl rfl
  | wakeup chan =>
      cases stepped
      exact .inr (.inr (.inl ⟨chan, rfl⟩))

end Restate

section Tree

variable {t t' : Table} {p i : Fin nProc}

/-- The process tree. -/
structure Tree (t : Table) : Prop where
  /-- `initproc` never exits, so it is always live. -/
  initLive : (t.procs t.initproc).state.live
  /-- A parent pointer names a live process. -/
  parentLive : ∀ i j, (t.procs i).parent = some j → (t.procs j).state.live
  /-- Every process but `initproc` that holds a slot has a parent. -/
  hasParent : ∀ i, i ≠ t.initproc → (t.procs i).state ≠ .unused → ∃ j, (t.procs i).parent = some j
  /-- `USED` lasts only within `fork`. -/
  noUsed : ∀ i, (t.procs i).state ≠ .used

theorem tree_booted : Tree booted where
  initLive := by decide
  parentLive := by decide
  hasParent := by decide
  noUsed := by decide

/-- Steps that `Restate` every slot keep the tree. -/
theorem Tree.restate (tree : Tree t) (init : t'.initproc = t.initproc)
    (each : ∀ i, Restate (t.procs i) (t'.procs i)) : Tree t' where
  initLive := init ▸ (each _).2.2.live tree.initLive
  parentLive i j parent := (each j).2.2.live (tree.parentLive i j ((each i).1 ▸ parent))
  hasParent i notInit slot := by
    have slot' : (t.procs i).state ≠ .unused := fun unused =>
      slot ((each i).2.2.eq rfl unused)
    rw [(each i).1]
    exact tree.hasParent i (init ▸ notInit) slot'
  noUsed i := (each i).2.2.ne rfl (tree.noUsed i)

theorem Tree.set (tree : Tree t) (r : Restate (t.procs i) q) : Tree (t.set i q) :=
  tree.restate rfl (restate_set r)

theorem Tree.free (tree : Tree t) (orphan : ∀ k, (t.procs k).parent ≠ some i) (notInit : i ≠ t.initproc) :
    Tree (t.set i unusedProc) where
  initLive := by simpa [Ne.symm notInit] using tree.initLive
  parentLive k j parent := by
    by_cases here : k = i
    · subst here
      simp [unusedProc] at parent
    · have named := tree.parentLive k j (by simpa [here] using parent)
      have other : j ≠ i := by
        rintro rfl
        exact orphan k (by simpa [here] using parent)
      simpa [other] using named
  hasParent k notInit' slot := by
    by_cases here : k = i
    · subst here
      simp [unusedProc] at slot
    · simpa [here] using tree.hasParent k notInit' (by simpa [here] using slot)
  noUsed k := by
    by_cases here : k = i
    · subst here
      simp [unusedProc]
    · simpa [here] using tree.noUsed k

theorem Tree.orphan_of_dead (tree : Tree t) (dead : (t.procs i).state.live = false) :
    ∀ k, (t.procs k).parent ≠ some i := by
  intro k parent
  have := tree.parentLive k i parent
  simp [dead] at this

theorem Tree.ne_init_of_dead (tree : Tree t) (dead : (t.procs i).state.live = false) : i ≠ t.initproc := by
  rintro rfl
  have := tree.initLive
  simp [dead] at this

theorem tree_fork (tree : Tree t) (running : (t.procs p).state = .running)
    (trapframeOk pagetableOk copyOk : Bool) : Tree (fork t p trapframeOk pagetableOk copyOk).2 := by
  rcases fork_cases t p trapframeOk pagetableOk copyOk with same | ⟨i, found, freed | forked⟩
  · rw [same]
    exact tree
  all_goals
    have unused := firstUnused_unused found
    have dead : (t.procs i).state.live = false := by simp [unused, ProcState.live]
    -- `nextpid` is not part of the tree
    have tree' : Tree { t with nextpid := t.nextpid + 1 } :=
      ⟨tree.initLive, tree.parentLive, tree.hasParent, tree.noUsed⟩
  · rw [freed]
    exact tree'.free (tree.orphan_of_dead dead) (tree.ne_init_of_dead dead)
  · rw [forked]
    have orphan := tree.orphan_of_dead dead
    have notInit := tree.ne_init_of_dead dead
    have parentLive : (t.procs p).state.live := by simp [running, ProcState.live]
    refine ⟨?_, fun k j parent => ?_, fun k _ _ => ?_, fun k => ?_⟩
    · simpa [Ne.symm notInit] using tree.initLive
    -- the child's parent is `p`; no other pointer names the child
    · by_cases here : k = i
      · subst here
        have : p ≠ k := by
          rintro rfl
          simp [unused] at running
        simp only [Table.set_procs_self, Option.some.injEq] at parent
        subst parent
        simpa [this] using parentLive
      · have other : j ≠ i := by
          rintro rfl
          exact orphan k (by simpa [here] using parent)
        simpa [other] using tree.parentLive k j (by simpa [here] using parent)
    · by_cases here : k = i
      · subst here
        simp
      · simp only [Table.set_procs_of_ne _ _ here] at *
        exact tree.hasParent k ‹_› ‹_›
    · by_cases here : k = i
      · subst here
        simp
      · simpa [here] using tree.noUsed k

theorem tree_exit (tree : Tree t) (running : (t.procs p).state = .running) {status : Int}
    (exited : exit t p status = .ok t') : Tree t' := by
  obtain ⟨notInit, init, -, zombie, -, each⟩ := exit_spec exited
  -- every slot but `p` is at most woken, so it stays live or dead as it was
  have moves : ∀ k, k ≠ p → (t.procs k).state.Moves (t'.procs k).state := fun k other =>
    ((each k).2 other).moves
  have initLive : (t'.procs t.initproc).state.live := (moves _ (Ne.symm notInit)).live tree.initLive
  -- a parent pointer that `reparent` leaves alone does not name `p`
  have kept : ∀ k j, (t.procs k).parent = some j → (t.procs k).parent ≠ some p → j ≠ p := by
    rintro k j parent notChild rfl
    exact notChild parent
  refine ⟨init ▸ initLive, fun k j parent => ?_, fun k notInit' slot => ?_, fun k => ?_⟩
  · rw [(each k).1] at parent
    split at parent
    · cases parent
      exact initLive
    · rename_i notChild
      exact (moves j (kept k j parent notChild)).live (tree.parentLive k j parent)
  · have slot' : (t.procs k).state ≠ .unused := by
      by_cases here : k = p
      · subst here
        simp [running]
      · exact fun unused => slot ((moves k here).eq rfl unused)
    obtain ⟨j, parent⟩ := tree.hasParent k (init ▸ notInit') slot'
    rw [(each k).1]
    split
    · exact ⟨_, rfl⟩
    · exact ⟨j, parent⟩
  · by_cases here : k = p
    · subst here
      simp [zombie]
    · exact (moves k here).ne rfl (tree.noUsed k)

theorem tree_wait (tree : Tree t) (running : (t.procs p).state = .running) (addr : Nat) (copyOk : Bool) :
    Tree (wait t p addr copyOk).2 := by
  rcases wait_cases t p addr copyOk with failed | asleep | ⟨c, -, zombie, reaped⟩
  · rw [failed]
    exact tree
  · rw [asleep]
    exact tree.set (restate_of_live .sleeping (.proc p) (by simp [running, ProcState.live]) rfl)
  · rw [reaped]
    have dead : (t.procs c).state.live = false := by simp [zombie, ProcState.live]
    exact tree.free (tree.orphan_of_dead dead) (tree.ne_init_of_dead dead)

theorem tree_step : Machine.Keeps step Tree := by
  intro t e t' tree stepped
  rcases step_cases stepped with rfl | ⟨i, q, r, rfl⟩ | ⟨chan, rfl⟩ | ⟨p, a, b, c, running, rfl⟩ |
      ⟨p, status, running, exited⟩ | ⟨p, addr, copyOk, running, rfl⟩
  · exact tree
  · exact tree.set r
  · exact tree.restate rfl fun i => restate_wake chan _
  · exact tree_fork tree running a b c
  · exact tree_exit tree running exited
  · exact tree_wait tree running addr copyOk

theorem Reachable.tree (reached : Reachable t) : Tree t :=
  reached.of_keeps tree_booted tree_step

end Tree

section Pids

variable {t t' : Table} {p i : Fin nProc}

/-- The pids `allocproc` and `freeproc` hand out: a free slot has pid 0 and
every other slot a positive one. -/
structure Pids (t : Table) : Prop where
  nextpidPos : 0 < t.nextpid
  unusedPid : ∀ i, (t.procs i).state = .unused → (t.procs i).pid = 0
  slotPid : ∀ i, (t.procs i).state ≠ .unused → 0 < (t.procs i).pid

theorem pids_booted : Pids booted where
  nextpidPos := by decide
  unusedPid := by decide
  slotPid := by decide

theorem Pids.restate (pids : Pids t) (next : t'.nextpid = t.nextpid)
    (each : ∀ i, Restate (t.procs i) (t'.procs i)) : Pids t' where
  nextpidPos := next ▸ pids.nextpidPos
  unusedPid i unused := by
    have back := (each i).2.2.eq_of_dead (by rw [unused]; rfl)
    rw [(each i).2.1]
    exact pids.unusedPid i (back.symm.trans unused)
  slotPid i slot := by
    rw [(each i).2.1]
    exact pids.slotPid i fun unused => slot ((each i).2.2.eq rfl unused)

theorem Pids.set (pids : Pids t) (r : Restate (t.procs i) q) : Pids (t.set i q) :=
  pids.restate rfl (restate_set r)

theorem Pids.free (pids : Pids t) : Pids (t.set i unusedProc) where
  nextpidPos := pids.nextpidPos
  unusedPid k unused := by
    by_cases here : k = i
    · subst here
      simp [unusedProc]
    · simpa [here] using pids.unusedPid k (by simpa [here] using unused)
  slotPid k slot := by
    by_cases here : k = i
    · subst here
      simp [unusedProc] at slot
    · simpa [here] using pids.slotPid k (by simpa [here] using slot)

theorem pids_fork (pids : Pids t) (trapframeOk pagetableOk copyOk : Bool) :
    Pids (fork t p trapframeOk pagetableOk copyOk).2 := by
  have pids' : Pids { t with nextpid := t.nextpid + 1 } :=
    ⟨show 0 < t.nextpid + 1 by have := pids.nextpidPos; omega, pids.unusedPid, pids.slotPid⟩
  rcases fork_cases t p trapframeOk pagetableOk copyOk with same | ⟨i, -, freed | forked⟩
  · rw [same]
    exact pids
  · rw [freed]
    exact pids'.free
  · -- the child's pid is the old `nextpid`
    rw [forked]
    refine ⟨pids'.nextpidPos, fun k unused => ?_, fun k slot => ?_⟩
    · by_cases here : k = i
      · subst here
        simp at unused
      · simpa [here] using pids.unusedPid k (by simpa [here] using unused)
    · by_cases here : k = i
      · subst here
        simpa using pids.nextpidPos
      · simpa [here] using pids.slotPid k (by simpa [here] using slot)

theorem pids_exit (pids : Pids t) (running : (t.procs p).state = .running) {status : Int}
    (exited : exit t p status = .ok t') : Pids t' := by
  obtain ⟨-, -, next, zombie, pid, each⟩ := exit_spec exited
  refine ⟨next ▸ pids.nextpidPos, fun k unused => ?_, fun k slot => ?_⟩
  · by_cases here : k = p
    · subst here
      rw [zombie] at unused
      cases unused
    · have woken := (each k).2 here
      have back := woken.moves.eq_of_dead (by rw [unused]; rfl)
      rw [woken.1]
      exact pids.unusedPid k (back.symm.trans unused)
  · by_cases here : k = p
    · subst here
      rw [pid]
      exact pids.slotPid k (by simp [running])
    · have woken := (each k).2 here
      rw [woken.1]
      exact pids.slotPid k fun unused => slot (woken.moves.eq rfl unused)

theorem pids_wait (pids : Pids t) (running : (t.procs p).state = .running) (addr : Nat) (copyOk : Bool) :
    Pids (wait t p addr copyOk).2 := by
  rcases wait_cases t p addr copyOk with failed | asleep | ⟨c, -, -, reaped⟩
  · rw [failed]
    exact pids
  · rw [asleep]
    exact pids.set (restate_of_live .sleeping (.proc p) (by simp [running, ProcState.live]) rfl)
  · rw [reaped]
    exact pids.free

theorem pids_step : Machine.Keeps step Pids := by
  intro t e t' pids stepped
  rcases step_cases stepped with rfl | ⟨i, q, r, rfl⟩ | ⟨chan, rfl⟩ | ⟨p, a, b, c, -, rfl⟩ |
      ⟨p, status, running, exited⟩ | ⟨p, addr, copyOk, running, rfl⟩
  · exact pids
  · exact pids.set r
  · exact pids.restate rfl fun i => restate_wake chan _
  · exact pids_fork pids a b c
  · exact pids_exit pids running exited
  · exact pids_wait pids running addr copyOk

theorem Reachable.pids (reached : Reachable t) : Pids t :=
  reached.of_keeps pids_booted pids_step

/-- In a reachable table pid 0 is held by the free slots and no others. -/
theorem Pids.pid_eq_zero (pids : Pids t) (j : Fin nProc) : (t.procs j).pid = 0 ↔ (t.procs j).state = .unused := by
  constructor
  · intro zero
    by_contra slot
    have := pids.slotPid j slot
    omega
  · exact pids.unusedPid j

end Pids

section Reaping

variable {t : Table} {p i c : Fin nProc}

/-- The zombie children of `p`. -/
def zombieKids (t : Table) (p : Fin nProc) : Finset (Fin nProc) :=
  Finset.univ.filter fun c => (t.procs c).parent = some p ∧ (t.procs c).state = .zombie

theorem mem_zombieKids : c ∈ zombieKids t p ↔ (t.procs c).parent = some p ∧ (t.procs c).state = .zombie := by
  simp [zombieKids]

theorem zombieKids_free (mem : c ∈ zombieKids t p) :
    zombieKids (t.set c unusedProc) p = (zombieKids t p).erase c := by
  ext k
  by_cases here : k = c
  · subst here
    simp [mem_zombieKids, unusedProc]
  · simp [mem_zombieKids, here]

/-- A running parent that calls `wait` again and again frees its zombie
children one a call, and so frees any one of them within as many calls as it
has zombie children. The induction is on that number. -/
theorem waits_reap : ∀ (k : Nat) (t : Table), (zombieKids t p).card = k → (t.procs p).state = .running →
    i ∈ zombieKids t p → ∃ n ≤ k, ∃ t', Machine.run step t (List.replicate n (.wait p 0 true)) = .ok t' ∧
      (t'.procs i).state = .unused
  | 0, _, card, _, mem => absurd card (Finset.card_ne_zero_of_mem mem)
  | k + 1, t, card, running, mem => by
      obtain ⟨child, zombie⟩ := mem_zombieKids.mp mem
      rcases wait_of_zombie_child 0 true child zombie with ⟨nonzero, -⟩ | ⟨-, c, childC, zombieC, reaped⟩
      · exact absurd rfl nonzero
      have stepped : step t (.wait p 0 true) = .ok (t.set c unusedProc) := by
        simp [step, running, reaped]
      have memC : c ∈ zombieKids t p := mem_zombieKids.mpr ⟨childC, zombieC⟩
      by_cases same : c = i
      · subst same
        refine ⟨1, by omega, t.set c unusedProc, ?_, by simp [unusedProc]⟩
        rw [List.replicate_one, Machine.run_cons_of_step stepped]
        rfl
      · -- `p` is running and `c` a zombie, so `p` keeps running
        have other : p ≠ c := by
          rintro rfl
          simp [running] at zombieC
        obtain ⟨n, bound, t', ran, freed⟩ := waits_reap k (t.set c unusedProc)
          (by rw [zombieKids_free memC, Finset.card_erase_of_mem memC, card]; rfl)
          (by simpa [other] using running)
          (by rw [zombieKids_free memC]; exact Finset.mem_erase.mpr ⟨Ne.symm same, mem⟩)
        refine ⟨n + 1, by omega, t', ?_, freed⟩
        rw [List.replicate_succ, Machine.run_cons_of_step stepped]
        exact ran

end Reaping

section Safety

variable {t : Table}

/-- In every reachable table the parents of the processes are live, so no
zombie has a child and no parent pointer names a free slot; `wait` frees only
a zombie child of its caller, unless copying out its status fails; and every
zombie is freed by its parent's `wait` calls once the parent runs. -/
theorem parents_live_and_zombies_reapable (reached : Reachable t) :
    (∀ i, i ≠ t.initproc → (t.procs i).state ≠ .unused →
      ∃ j, (t.procs i).parent = some j ∧ (t.procs j).state ≠ .unused ∧ (t.procs j).state ≠ .zombie) ∧
    (∀ i j, (t.procs i).parent = some j → (t.procs j).state ≠ .unused ∧ (t.procs j).state ≠ .zombie) ∧
    (∀ p addr copyOk, wait t p addr copyOk = (.failed, t) ∨
      wait t p addr copyOk = (.asleep, t.set p { t.procs p with chan := .proc p, state := .sleeping }) ∨
      ∃ c, (t.procs c).parent = some p ∧ (t.procs c).state = .zombie ∧
        wait t p addr copyOk = (.reaped (t.procs c).pid, t.set c (freeproc (t.procs c)))) ∧
    (∀ p c addr, (t.procs c).parent = some p → (t.procs c).state = .zombie → addr ≠ 0 →
      wait t p addr false = (.failed, t)) ∧
    (∀ i j, (t.procs i).state = .zombie → (t.procs i).parent = some j →
      (t.procs j).state.live ∧ ((t.procs j).state = .running →
        ∃ n ≤ nProc, ∃ t', Machine.run step t (List.replicate n (.wait j 0 true)) = .ok t' ∧
          Reachable t' ∧ (t'.procs i).state = .unused)) := by
  have tree := reached.tree
  refine ⟨fun i notInit slot => ?_, fun i j parent => ProcState.ne_of_live (tree.parentLive i j parent),
    fun p addr copyOk => by simpa using wait_cases t p addr copyOk, fun p c addr child zombie nonzero => ?_,
    fun i j zombie parent => ⟨tree.parentLive i j parent, fun running => ?_⟩⟩
  · obtain ⟨j, parent⟩ := tree.hasParent i notInit slot
    exact ⟨j, parent, ProcState.ne_of_live (tree.parentLive i j parent)⟩
  · rcases wait_of_zombie_child addr false child zombie with ⟨-, -, failed⟩ | ⟨copied, -⟩
    · exact failed
    · simp [nonzero] at copied
  · -- the parent frees its zombie children one a call
    have mem : i ∈ zombieKids t j := mem_zombieKids.mpr ⟨parent, zombie⟩
    obtain ⟨n, bound, t', ran, freed⟩ := waits_reap _ t rfl running mem
    have few : (zombieKids t j).card ≤ nProc := by
      simpa using Finset.card_le_univ (zombieKids t j)
    exact ⟨n, bound.trans few, t', ran, reached.run ran, freed⟩

/-- The table after `init` runs and forks a child, which runs and exits: a
zombie whose parent is running. -/
def zombieSys : Table :=
  match Machine.run step booted [.schedule 0, .fork 0 true true true, .schedule 1, .exit 1 0] with
  | .ok t => t
  | .error _ => booted

set_option maxRecDepth 20000 in
theorem zombieSys_reached : Reachable zombieSys := by
  have ran : Machine.run step booted [.schedule 0, .fork 0 true true true, .schedule 1, .exit 1 0] = .ok zombieSys := by
    rfl
  exact Machine.Reachable.run .init ran

set_option maxRecDepth 20000 in
example : (zombieSys.procs 1).state = .zombie ∧ (zombieSys.procs 1).parent = some 0 := by
  decide

theorem parents_live_and_zombies_reapable_zombie :
    (∀ i, i ≠ zombieSys.initproc → (zombieSys.procs i).state ≠ .unused →
      ∃ j, (zombieSys.procs i).parent = some j ∧ (zombieSys.procs j).state ≠ .unused ∧
        (zombieSys.procs j).state ≠ .zombie) ∧
    (∀ i j, (zombieSys.procs i).parent = some j →
      (zombieSys.procs j).state ≠ .unused ∧ (zombieSys.procs j).state ≠ .zombie) ∧
    (∀ p addr copyOk, wait zombieSys p addr copyOk = (.failed, zombieSys) ∨
      wait zombieSys p addr copyOk =
        (.asleep, zombieSys.set p { zombieSys.procs p with chan := .proc p, state := .sleeping }) ∨
      ∃ c, (zombieSys.procs c).parent = some p ∧ (zombieSys.procs c).state = .zombie ∧
        wait zombieSys p addr copyOk = (.reaped (zombieSys.procs c).pid, zombieSys.set c (freeproc (zombieSys.procs c)))) ∧
    (∀ p c addr, (zombieSys.procs c).parent = some p → (zombieSys.procs c).state = .zombie → addr ≠ 0 →
      wait zombieSys p addr false = (.failed, zombieSys)) ∧
    (∀ i j, (zombieSys.procs i).state = .zombie → (zombieSys.procs i).parent = some j →
      (zombieSys.procs j).state.live ∧ ((zombieSys.procs j).state = .running →
        ∃ n ≤ nProc, ∃ t', Machine.run step zombieSys (List.replicate n (.wait j 0 true)) = .ok t' ∧
          Reachable t' ∧ (t'.procs i).state = .unused)) :=
  parents_live_and_zombies_reapable zombieSys_reached

/-- `kill` matches on the pid alone, and a free slot carries pid 0: in every
reachable table with a free slot `kill(0)` returns 0 and marks the first free
slot killed, though no process holds pid 0, and the next `fork` hands out that
slot with the flag still set. -/
theorem kill_zero_marks_free_slot (reached : Reachable t) {p : Fin nProc}
    (running : (t.procs p).state = .running) (free : ∃ i, (t.procs i).state = .unused) :
    (∀ j, (t.procs j).pid = 0 → (t.procs j).state = .unused) ∧
    ∃ i t₁ t₂, firstUnused t = some i ∧
      step t (.kill 0) = .ok t₁ ∧ (kill t 0).1 = 0 ∧
      (t₁.procs i).state = .unused ∧ (t₁.procs i).killed = true ∧
      step t₁ (.fork p true true true) = .ok t₂ ∧ (fork t₁ p true true true).1 = (t₂.procs i).pid ∧
      (t₂.procs i).state = .runnable ∧ (t₂.procs i).parent = some p ∧ (t₂.procs i).killed = true := by
  have pids := reached.pids
  -- `kill(0)`'s search and `allocproc`'s search stop at the same slot
  have search : (List.finRange nProc).find? (fun j => (t.procs j).pid = 0) = firstUnused t := by
    simp only [firstUnused, pids.pid_eq_zero]
  obtain ⟨i, found⟩ : ∃ i, firstUnused t = some i := by
    obtain ⟨k, unused⟩ := free
    cases none : firstUnused t with
    | some i => exact ⟨i, rfl⟩
    | none =>
        have := List.find?_eq_none.mp none k
        simp [unused] at this
  have unused := firstUnused_unused found
  rcases kill_cases t 0 with ⟨-, -, noPid⟩ | ⟨i', found', killed, marked⟩
  · exact absurd (pids.unusedPid i unused) (noPid i)
  rw [search, found, Option.some.injEq] at found'
  subst found'
  have slot₁ : (kill t 0).2.procs i = { t.procs i with killed := true } := by
    rw [marked]
    simp [unused]
  have other : p ≠ i := by
    rintro rfl
    simp [unused] at running
  have running₁ : ((kill t 0).2.procs p).state = .running := by
    simpa [marked, other] using running
  have found₁ : firstUnused (kill t 0).2 = some i := by
    rw [firstUnused_congr fun j => ?_, found]
    by_cases here : j = i
    · subst here
      rw [slot₁]
    · simp [marked, here]
  refine ⟨fun j => (pids.pid_eq_zero j).mp, i, (kill t 0).2, (fork (kill t 0).2 p true true true).2, found, rfl,
    killed, by simp [slot₁, unused], by simp [slot₁], by simp [step, running₁], ?_⟩
  rw [fork_of_firstUnused found₁]
  simp [slot₁]

theorem kill_zero_marks_free_slot_after_boot :
    (∀ j, ((schedule booted 0).procs j).pid = 0 → ((schedule booted 0).procs j).state = .unused) ∧
    ∃ i t₁ t₂, firstUnused (schedule booted 0) = some i ∧
      step (schedule booted 0) (.kill 0) = .ok t₁ ∧ (kill (schedule booted 0) 0).1 = 0 ∧
      (t₁.procs i).state = .unused ∧ (t₁.procs i).killed = true ∧
      step t₁ (.fork 0 true true true) = .ok t₂ ∧ (fork t₁ 0 true true true).1 = (t₂.procs i).pid ∧
      (t₂.procs i).state = .runnable ∧ (t₂.procs i).parent = some 0 ∧ (t₂.procs i).killed = true :=
  kill_zero_marks_free_slot (.step (.schedule 0) .init rfl) (by decide) ⟨1, by decide⟩

end Safety

end Xv6.Procs
