import Mathlib
import Xv6.Library.Scan
import Xv6.Library.BlockDev
import Xv6.Fs.FileMap
import Xv6.Log.Transaction
import Xv6.Log.Crash

/-!
The block layer of `kernel/fs.c`: the superblock, `bzero`, and the bitmap
allocator `balloc`/`bfree`, over the file system as its code sees it. `bread`
returns a block's current contents (the buffer cache keeps one copy of each
block and writes change it in place), so the state is what every block holds,
the global `sb`, and the in-memory log that `log_write` fills. A `panic` is an
error carrying its message. Each function runs with the locks it takes held,
so it is one step of the kernel.
-/

namespace Xv6.Fs

open Bytes Scan

/-- What the file-system code reads and writes. -/
structure State where
  blocks : Disk
  sb : Superblock
  log : Logging.Log

/-- Change block `b` to `data` in its buffer, then `log_write` it. -/
def State.write (fs : State) (b : Nat) (data : Mem) : Except String State := do
  let log ← Logging.logWrite fs.log b
  return { fs with blocks := Function.update fs.blocks b data, log }

/-- `bzero(dev, bno)`. -/
def bzero (fs : State) (bno : Nat) : Except String State := fs.write bno fun _ => 0

/-- The test `(bp->data[bi/8] & m) == 0` with `m = 1 << (bi % 8)`. -/
def isFree (bp : Mem) (bi : Nat) : Bool := bp (bi / 8) &&& mask bi == 0

/-- The outer loop of `balloc` from bitmap block `BBLOCK(b, sb)` on: the first
block `b + bi < sb.size` whose bit is clear is marked in use and zeroed; `0`
when there is none (`balloc: out of blocks`). -/
def ballocFrom (fs : State) (b : Nat) : Except String (Nat × State) :=
  if b < fs.sb.size then
    let bp := fs.blocks (bblock fs.sb b)
    match firstFrom (isFree bp) (min bpb (fs.sb.size - b)) 0 with
    | some bi => do
        let fs ← fs.write (bblock fs.sb b) (setBit bp bi)
        let fs ← bzero fs (b + bi)
        return (b + bi, fs)
    | none => ballocFrom fs (b + bpb)
  else .ok (0, fs)
termination_by fs.sb.size - b
decreasing_by
  have : 0 < bpb := by decide
  omega

def balloc (fs : State) : Except String (Nat × State) := ballocFrom fs 0

/-- `bfree(dev, b)`. -/
def bfree (fs : State) (b : Nat) : Except String State :=
  let bp := fs.blocks (bblock fs.sb b)
  let bi := b % bpb
  if isFree bp bi then .error "freeing free block"
  else fs.write (bblock fs.sb b) (clearBit bp bi)

/-- `readsb(dev, &sb)`. -/
def readsb (disk : Disk) : Superblock := Superblock.read (disk 1)

/-- `fsinit(dev)`: `readsb`, the magic check, and `initlog`, whose
`recover_from_log` replays a committed log and clears the header. -/
def fsinit (disk : Disk) : Except String State :=
  let sb := readsb disk
  if sb.magic ≠ fsMagic then .error "invalid file system"
  else
    let lh := Logging.readHead sb.logstart disk
    .ok { blocks := BlockDev.apply disk (Logging.recoverFromLog sb.logstart disk), sb,
          log := { start := sb.logstart, size := sb.nlog, outstanding := 0, committing := false,
                   lh := { lh with n := 0 } } }

section Spec

variable {fs : State} {b : Nat} {data : Mem}

theorem isFree_eq_false_iff (bp : Mem) (bi : Nat) : isFree bp bi = false ↔ bit bp bi = true := by
  rw [isFree, beq_eq_false_iff_ne, ne_eq, ← bit_eq_false_iff]
  simp

theorem State.write_of_logWrite {log : Logging.Log} (logged : Logging.logWrite fs.log b = .ok log) :
    fs.write b data = .ok { fs with blocks := Function.update fs.blocks b data, log } := by
  simp [State.write, logged, bind, Except.bind, pure, Except.pure]

theorem State.write_of_error {msg : String} (failed : Logging.logWrite fs.log b = .error msg) :
    fs.write b data = .error msg := by
  simp [State.write, failed, bind, Except.bind]

/-- `log_write` outside `begin_op`/`end_op`, with room in the header. -/
theorem logWrite_outside {log : Logging.Log} (room : log.lh.n < logSize) (fits : log.lh.n + 1 < log.size)
    (idle : log.outstanding = 0) (blockno : Nat) :
    Logging.logWrite log blockno = .error "log_write outside of trans" := by
  rw [Logging.logWrite, if_neg (by omega), if_pos (by omega)]

theorem ballocFrom_found (inside : b < fs.sb.size) {bi : Nat}
    (found : firstFrom (isFree (fs.blocks (bblock fs.sb b))) (min bpb (fs.sb.size - b)) 0 = some bi) :
    ballocFrom fs b = (do
      let fs ← fs.write (bblock fs.sb b) (setBit (fs.blocks (bblock fs.sb b)) bi)
      let fs ← bzero fs (b + bi)
      return (b + bi, fs)) := by
  rw [ballocFrom, if_pos inside]
  simp only [found]

theorem balloc_outside_trans (single : fs.sb.size ≤ bpb) {bi : Nat}
    (found : firstFrom (isFree (fs.blocks (bblock fs.sb 0))) fs.sb.size 0 = some bi)
    (room : fs.log.lh.n < logSize) (fits : fs.log.lh.n + 1 < fs.log.size) (idle : fs.log.outstanding = 0) :
    balloc fs = .error "log_write outside of trans" := by
  have inside : 0 < fs.sb.size := by
    have := (firstFrom_some found).2.1
    omega
  have whole : min bpb (fs.sb.size - 0) = fs.sb.size := by omega
  rw [← whole] at found
  rw [balloc, ballocFrom_found inside found, State.write_of_error (logWrite_outside room fits idle _)]
  rfl

end Spec

end Xv6.Fs
