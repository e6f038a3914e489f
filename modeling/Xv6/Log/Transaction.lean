import Mathlib
import Xv6.Param

/-!
The in-memory side of `kernel/log.c`: `begin_op`, `log_write` and `end_op`
over the fields of `struct log` they read and write. A file-system call
reserves `MAXOPBLOCKS` blocks of log space in `begin_op`; `log_write` records a
block number in `log.lh`, absorbing repeated writes of one block, and panics
when the header is full. Concurrent calls interleave at the granularity of
`log.lock`, so each of these functions is one atomic step, and a `begin_op`
that would sleep is a step that is not enabled yet.
-/

namespace Xv6.Logging

/-- `struct logheader`: the count `n` and the array `block[LOGSIZE]`. -/
structure LogHeader where
  n : Nat
  block : Nat → Nat

/-- The fields of `struct log` used by the transaction protocol. -/
structure Log where
  start : Nat
  size : Nat
  outstanding : Nat
  committing : Bool
  lh : LogHeader

/-- One pass of the loop in `begin_op`; `none` when the caller sleeps. -/
def beginOp (log : Log) : Option Log :=
  if log.committing then none
  else if log.lh.n + (log.outstanding + 1) * maxOpBlocks > logSize then none
  else some { log with outstanding := log.outstanding + 1 }

/-- Where the absorption loop of `log_write` stops: the first `i < n` whose
entry is `blockno`, or `n`. -/
def absorbIndex (lh : LogHeader) (blockno : Nat) : Nat :=
  ((List.range lh.n).find? fun i => lh.block i = blockno).getD lh.n

/-- `log_write(b)` for a buffer holding block `blockno`. The `bpin` of a newly
logged buffer belongs to the buffer cache and is not part of this state. -/
def logWrite (log : Log) (blockno : Nat) : Except String Log :=
  if log.lh.n ≥ logSize ∨ log.lh.n ≥ log.size - 1 then .error "too big a transaction"
  else if log.outstanding < 1 then .error "log_write outside of trans"
  else
    let i := absorbIndex log.lh blockno
    let block := Function.update log.lh.block i blockno
    if i = log.lh.n then .ok { log with lh := { n := log.lh.n + 1, block } }
    else .ok { log with lh := { log.lh with block } }

/-- `end_op` up to its call of `commit`; the flag is `do_commit`. -/
def endOp (log : Log) : Except String (Log × Bool) :=
  let log := { log with outstanding := log.outstanding - 1 }
  if log.committing then .error "log.committing"
  else if log.outstanding = 0 then .ok ({ log with committing := true }, true)
  else .ok (log, false)

/-- The rest of a committing `end_op`: `commit` empties the header and the
flag is cleared. What `commit` writes to disk is modelled in `Log.Crash`. -/
def commitDone (log : Log) : Log :=
  { log with lh := { log.lh with n := 0 }, committing := false }

/-- A file-system operation's calls, tagged with the operation they belong to. -/
inductive Event where
  | begin (op : Nat)
  | write (op : Nat) (blockno : Nat)
  | finish (op : Nat)
  | commit

/-- The log together with the operations that have begun and not ended. -/
structure Sys where
  log : Log
  active : List Nat
  started : List Nat

/-- One event; `none` when it cannot happen now (a sleeping `begin_op`, or a
call by an operation that is not between its `begin_op` and `end_op`). -/
def step (s : Sys) : Event → Option (Except String Sys)
  | .begin op =>
      if op ∈ s.started then none
      else (beginOp s.log).map fun log =>
        .ok { log, active := op :: s.active, started := op :: s.started }
  | .write op blockno =>
      if op ∈ s.active then some ((logWrite s.log blockno).map fun log => { s with log })
      else none
  | .finish op =>
      if op ∈ s.active then
        some ((endOp s.log).map fun result => { s with log := result.1, active := s.active.erase op })
      else none
  | .commit => if s.log.committing then some (.ok { s with log := commitDone s.log }) else none

/-- An interleaving of events, stopping at the first panic. -/
def run (s : Sys) : List Event → Option (Except String Sys)
  | [] => some (.ok s)
  | e :: rest =>
      match step s e with
      | none => none
      | some (.error msg) => some (.error msg)
      | some (.ok next) => run next rest

/-- The log after `initlog` on an image made by `mkfs`: `log.size = nlog = LOGSIZE`. -/
def booted (start : Nat) : Sys :=
  { log := { start, size := logSize, outstanding := 0, committing := false,
             lh := { n := 0, block := fun _ => 0 } },
    active := [], started := [] }

/-- Three operations admitted together, each logging ten fresh blocks. -/
def fullReservations : List Event :=
  [Event.begin 0, Event.begin 1, Event.begin 2] ++
    (List.range 10).map (fun b => Event.write 0 (100 + b)) ++
    (List.range 10).map (fun b => Event.write 1 (200 + b)) ++
    (List.range 10).map (fun b => Event.write 2 (300 + b))

/-- `begin_op` admits all three (`0 + 3 * MAXOPBLOCKS ≤ LOGSIZE`), but the log
holds only `log.size - 1 = LOGSIZE - 1` blocks: the thirtieth distinct block
panics although no operation exceeded its reservation. -/
theorem fullReservations_overflow :
    run (booted 2) fullReservations = some (.error "too big a transaction") := by
  rfl

end Xv6.Logging
