import Mathlib
import Xv6.Param
import Xv6.Library.Machine

/-!
The open-file layer of `kernel/file.c`, `kernel/sysfile.c` and
`kernel/pipe.c`: `ftable`'s `NFILE` file structures with their reference
counts, every process's `ofile` array of `NOFILE` descriptors (kept as one
table indexed by process and descriptor), and the pipes `pipealloc` takes
from `kalloc`, each with its `readopen` and `writeopen` flags. A ghost count
records the `kfree` calls on each pipe.

Each system call is one step. Another CPU can see a call's intermediate
states only through `filealloc`'s scan for a slot with no references, and a
slot a call is using has references, so the steps interleave as the calls do.
Inodes are left out: whether `create` or `namei` and the checks on the inode
succeed, and whether it is a device, are oracles of `open`, and closing an
inode file (`iput`) changes nothing here. `read`, `write` and `exec` do not
change references and are not modelled.
-/

namespace Xv6.Files

instance : NeZero nFile := ⟨by decide⟩

instance : NeZero nOFile := ⟨by decide⟩

instance : NeZero nProc := ⟨by decide⟩

/-- `enum { FD_NONE, FD_PIPE, FD_INODE, FD_DEVICE }`. -/
inductive FileType where
  | none
  | pipe
  | inode
  | device
  deriving DecidableEq, Repr

/-- The fields of `struct file` that the model reads; `pipe` names the pipe of
an `FD_PIPE` file. -/
structure File where
  type : FileType
  ref : Nat
  readable : Bool
  writable : Bool
  pipe : Nat

/-- The open flags of `struct pipe`. -/
structure Pipe where
  readopen : Bool
  writeopen : Bool

/-- A descriptor slot `p->ofile[fd]`. -/
abbrev Slot := Fin nProc × Fin nOFile

/-- The file table, the descriptor tables, the processes that can make
system calls, the pipes and `kalloc`'s next pipe, and the ghost `kfree`
count of each pipe. -/
structure Sys where
  files : Fin nFile → File
  ofile : Slot → Option (Fin nFile)
  alive : Fin nProc → Bool
  pipes : Nat → Pipe
  nextPipe : Nat
  freed : Nat → Nat

def Sys.setFile (s : Sys) (f : Fin nFile) (file : File) : Sys :=
  { s with files := Function.update s.files f file }

def Sys.setOfile (s : Sys) (slot : Slot) (f : Option (Fin nFile)) : Sys :=
  { s with ofile := Function.update s.ofile slot f }

section Fields

variable (s : Sys) (f : Fin nFile) (file : File) (slot : Slot) (x : Option (Fin nFile))

@[simp] theorem Sys.setFile_files : (s.setFile f file).files = Function.update s.files f file := rfl
@[simp] theorem Sys.setFile_ofile : (s.setFile f file).ofile = s.ofile := rfl
@[simp] theorem Sys.setFile_alive : (s.setFile f file).alive = s.alive := rfl
@[simp] theorem Sys.setFile_pipes : (s.setFile f file).pipes = s.pipes := rfl
@[simp] theorem Sys.setFile_nextPipe : (s.setFile f file).nextPipe = s.nextPipe := rfl
@[simp] theorem Sys.setFile_freed : (s.setFile f file).freed = s.freed := rfl
@[simp] theorem Sys.setOfile_files : (s.setOfile slot x).files = s.files := rfl
@[simp] theorem Sys.setOfile_ofile : (s.setOfile slot x).ofile = Function.update s.ofile slot x := rfl
@[simp] theorem Sys.setOfile_alive : (s.setOfile slot x).alive = s.alive := rfl
@[simp] theorem Sys.setOfile_pipes : (s.setOfile slot x).pipes = s.pipes := rfl
@[simp] theorem Sys.setOfile_nextPipe : (s.setOfile slot x).nextPipe = s.nextPipe := rfl
@[simp] theorem Sys.setOfile_freed : (s.setOfile slot x).freed = s.freed := rfl

end Fields

section Calls

/-- `filealloc()`: the first file with no references gets one. -/
def filealloc (s : Sys) : Option (Fin nFile) × Sys :=
  match (List.finRange nFile).find? (fun f => (s.files f).ref = 0) with
  | none => (none, s)
  | some f => (some f, s.setFile f { s.files f with ref := 1 })

/-- `filedup(f)`. -/
def filedup (s : Sys) (f : Fin nFile) : Except String Sys :=
  if (s.files f).ref < 1 then .error "filedup"
  else .ok (s.setFile f { s.files f with ref := (s.files f).ref + 1 })

/-- `pipeclose(pi, writable)`: the pipe is freed once both ends are closed. -/
def pipeclose (s : Sys) (pi : Nat) (writable : Bool) : Sys :=
  let p := if writable then { s.pipes pi with writeopen := false } else { s.pipes pi with readopen := false }
  let s := { s with pipes := Function.update s.pipes pi p }
  if p.readopen = false ∧ p.writeopen = false then
    { s with freed := Function.update s.freed pi (s.freed pi + 1) }
  else s

section PipecloseFields

variable (s : Sys) (pi : Nat) (writable : Bool)

@[simp] theorem pipeclose_files : (pipeclose s pi writable).files = s.files := by
  unfold pipeclose; dsimp only; split_ifs <;> rfl
@[simp] theorem pipeclose_ofile : (pipeclose s pi writable).ofile = s.ofile := by
  unfold pipeclose; dsimp only; split_ifs <;> rfl
@[simp] theorem pipeclose_alive : (pipeclose s pi writable).alive = s.alive := by
  unfold pipeclose; dsimp only; split_ifs <;> rfl
@[simp] theorem pipeclose_nextPipe : (pipeclose s pi writable).nextPipe = s.nextPipe := by
  unfold pipeclose; dsimp only; split_ifs <;> rfl

end PipecloseFields

/-- `fileclose(f)`: the last reference closes the pipe end, or puts the inode
(which the model leaves out). -/
def fileclose (s : Sys) (f : Fin nFile) : Except String Sys :=
  let file := s.files f
  if file.ref < 1 then .error "fileclose"
  else if file.ref - 1 > 0 then .ok (s.setFile f { file with ref := file.ref - 1 })
  else
    let s := s.setFile f { file with ref := 0, type := .none }
    if file.type = .pipe then .ok (pipeclose s file.pipe file.writable) else .ok s

/-- `fdalloc(f)` by process `p`: the first empty descriptor. -/
def fdalloc (s : Sys) (p : Fin nProc) (f : Fin nFile) : Option (Fin nOFile) × Sys :=
  match (List.finRange nOFile).find? (fun fd => s.ofile (p, fd) = none) with
  | none => (none, s)
  | some fd => (some fd, s.setOfile (p, fd) (some f))

/-- `argfd`: the descriptor `fd` of process `p` and its file, if it is open. -/
def argfd (s : Sys) (p : Fin nProc) (fd : Int) : Option (Fin nOFile × Fin nFile) :=
  if range : 0 ≤ fd ∧ fd < nOFile then
    let slot : Fin nOFile := ⟨fd.toNat, by omega⟩
    (s.ofile (p, slot)).map fun f => (slot, f)
  else none

/-- `O_WRONLY`. -/
def oWronly : Nat := 0x001

/-- `O_RDWR`. -/
def oRdwr : Nat := 0x002

/-- `sys_open` by process `p`. `found` says whether `create` or `namei` gave
an inode that passed the checks, and `device` whether it is a device. -/
def sysOpen (s : Sys) (p : Fin nProc) (omode : Nat) (found device : Bool) : Except String (Int × Sys) :=
  if !found then .ok (-1, s)
  else
    match filealloc s with
    | (none, s) => .ok (-1, s)
    | (some f, s) =>
        match fdalloc s p f with
        | (none, s) => do
            let s ← fileclose s f
            return (-1, s)
        | (some fd, s) =>
            .ok (fd, s.setFile f { s.files f with
              type := if device then .device else .inode,
              readable := omode &&& oWronly = 0,
              writable := omode &&& oWronly ≠ 0 ∨ omode &&& oRdwr ≠ 0 })

/-- The cleanup of `pipealloc`'s `bad` label: the files it took. -/
def pipeallocBad (s : Sys) (f0 f1 : Option (Fin nFile)) : Except String Sys := do
  let s ← match f0 with
    | some f => fileclose s f
    | none => pure s
  match f1 with
  | some f => fileclose s f
  | none => pure s

/-- `pipealloc(&f0, &f1)`, with `kalloc` succeeding or not. -/
def pipealloc (s : Sys) (kallocOk : Bool) : Except String (Option (Fin nFile × Fin nFile) × Sys) :=
  match filealloc s with
  | (none, s) => .ok (none, s)
  | (some f0, s) =>
      match filealloc s with
      | (none, s) => do
          let s ← pipeallocBad s (some f0) none
          return (none, s)
      | (some f1, s) =>
          if !kallocOk then do
            let s ← pipeallocBad s (some f0) (some f1)
            return (none, s)
          else
            let pi := s.nextPipe
            let s := { s with pipes := Function.update s.pipes pi ⟨true, true⟩, nextPipe := pi + 1 }
            let s := s.setFile f0 { s.files f0 with type := .pipe, readable := true, writable := false, pipe := pi }
            let s := s.setFile f1 { s.files f1 with type := .pipe, readable := false, writable := true, pipe := pi }
            .ok (some (f0, f1), s)

/-- `sys_pipe` by process `p`; `copyOk0` and `copyOk1` say whether the two
`copyout`s of the descriptors succeed. -/
def sysPipe (s : Sys) (p : Fin nProc) (kallocOk copyOk0 copyOk1 : Bool) : Except String (Int × Sys) := do
  let (files, s) ← pipealloc s kallocOk
  match files with
  | none => return (-1, s)
  | some (rf, wf) =>
      match fdalloc s p rf with
      | (none, s) => do
          let s ← fileclose s rf
          let s ← fileclose s wf
          return (-1, s)
      | (some fd0, s) =>
          match fdalloc s p wf with
          | (none, s) => do
              let s := s.setOfile (p, fd0) none
              let s ← fileclose s rf
              let s ← fileclose s wf
              return (-1, s)
          | (some fd1, s) =>
              if !copyOk0 ∨ !copyOk1 then do
                let s := (s.setOfile (p, fd0) none).setOfile (p, fd1) none
                let s ← fileclose s rf
                let s ← fileclose s wf
                return (-1, s)
              else return (0, s)

/-- `sys_dup` by process `p`. -/
def sysDup (s : Sys) (p : Fin nProc) (fd : Int) : Except String (Int × Sys) :=
  match argfd s p fd with
  | none => .ok (-1, s)
  | some (_, f) =>
      match fdalloc s p f with
      | (none, s) => .ok (-1, s)
      | (some fd', s) => do
          let s ← filedup s f
          return (fd', s)

/-- `sys_close` by process `p`. -/
def sysClose (s : Sys) (p : Fin nProc) (fd : Int) : Except String (Int × Sys) :=
  match argfd s p fd with
  | none => .ok (-1, s)
  | some (slot, f) => do
      let s ← fileclose (s.setOfile (p, slot) none) f
      return (0, s)

/-- One pass of `fork`'s loop over the parent's descriptors: the child's
descriptor gets `filedup` of the parent's. -/
def forkFile (p c : Fin nProc) (s : Sys) (fd : Fin nOFile) : Except String Sys :=
  match s.ofile (p, fd) with
  | none => .ok s
  | some f => do
      let s ← filedup s f
      return s.setOfile (c, fd) (some f)

/-- The descriptors of `fork` by `p`, whose child, already allocated, takes
slot `c`. -/
def fork (s : Sys) (p c : Fin nProc) : Except String Sys :=
  (List.finRange nOFile).foldlM (forkFile p c) { s with alive := Function.update s.alive c true }

/-- One pass of `exit`'s loop over the descriptors of `p`. -/
def exitFile (p : Fin nProc) (s : Sys) (fd : Fin nOFile) : Except String Sys :=
  match s.ofile (p, fd) with
  | none => .ok s
  | some f => do
      let s ← fileclose s f
      return s.setOfile (p, fd) none

/-- The descriptors of `exit` by `p`. -/
def exit (s : Sys) (p : Fin nProc) : Except String Sys := do
  let s ← (List.finRange nOFile).foldlM (exitFile p) s
  return { s with alive := Function.update s.alive p false }

end Calls

section System

/-- The next system call: `p` is the calling process. -/
inductive Event where
  | open (p : Fin nProc) (omode : Nat) (found device : Bool)
  | pipe (p : Fin nProc) (kallocOk copyOk0 copyOk1 : Bool)
  | dup (p : Fin nProc) (fd : Int)
  | close (p : Fin nProc) (fd : Int)
  | fork (p c : Fin nProc)
  | exit (p : Fin nProc)

/-- A step: a system call of a live process, or `fork` into a free slot. -/
def step (s : Sys) : Event → Except String Sys
  | .open p omode found device => if s.alive p then (sysOpen s p omode found device).map (·.2) else .ok s
  | .pipe p kallocOk copyOk0 copyOk1 =>
      if s.alive p then (sysPipe s p kallocOk copyOk0 copyOk1).map (·.2) else .ok s
  | .dup p fd => if s.alive p then (sysDup s p fd).map (·.2) else .ok s
  | .close p fd => if s.alive p then (sysClose s p fd).map (·.2) else .ok s
  | .fork p c => if s.alive p ∧ !s.alive c then fork s p c else .ok s
  | .exit p => if s.alive p then exit s p else .ok s

/-- The tables at boot, with the first process alive. -/
def boot : Sys :=
  { files := fun _ => ⟨.none, 0, false, false, 0⟩, ofile := fun _ => none,
    alive := fun p => p = 0, pipes := fun _ => ⟨false, false⟩, nextPipe := 0, freed := fun _ => 0 }

abbrev Reachable (s : Sys) : Prop := Machine.Reachable step boot s

end System

end Xv6.Files
