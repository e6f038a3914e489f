import Mathlib
import Xv6.Fs.Blocks

/-!
The inode layer of `kernel/fs.c`: `ilock` loading an inode, `iupdate`
storing it, `bmap` finding (and allocating) a file's blocks, `readi`, `writei`
and `itrunc`.
An in-memory inode is the `struct inode` fields these read: its number, its
reference count, `valid`, and the copy of `struct dinode`. `readi` copies to
`dst` through `either_copyout`, whose success for each chunk is the parameter
`copyout`; for a kernel address it always succeeds. `writei` copies from `src`
through the parameter `copyin` (`either_copyin`). `off` and `n` are `uint`s.

When every block a read touches is present, `readi` allocates nothing, writes
nothing, and returns the file's bytes (`readi_present`).
-/

namespace Xv6.Fs

open Bytes

/-- The fields of `struct inode` the code reads. -/
structure Inode where
  inum : Nat
  ref : Nat
  valid : Bool
  din : Dinode

/-- `ilock(ip)`: load the inode from its block when `valid` is clear. -/
def ilock (fs : State) (ip : Inode) : Except String Inode :=
  if ip.ref < 1 then .error "ilock"
  else if ip.valid then .ok ip
  else
    let din := Dinode.read (fs.blocks (iblock fs.sb ip.inum)) (dinodeOffset ip.inum)
    if din.type = 0 then .error "ilock: no type" else .ok { ip with valid := true, din }

/-- `iupdate(ip)`. -/
def iupdate (fs : State) (ip : Inode) : Except String State :=
  let b := iblock fs.sb ip.inum
  fs.write b (Dinode.write (fs.blocks b) (dinodeOffset ip.inum) ip.din)

/-- `if((addr = ip->addrs[i]) == 0){ addr = balloc(ip->dev); if(addr == 0) return 0;
ip->addrs[i] = addr; }`, as `bmap` does for a direct block and for the
indirect block. -/
def addrOrAlloc (fs : State) (ip : Inode) (i : Nat) : Except String (Nat × Inode × State) :=
  if ip.din.addr i = 0 then do
    let (addr, fs) ← balloc fs
    if addr = 0 then return (0, ip, fs)
    else return (addr, { ip with din := ip.din.setAddr i addr }, fs)
  else .ok (ip.din.addr i, ip, fs)

/-- Entry `j` of indirect block `ind`, allocated and logged when it is zero. -/
def entryOrAlloc (fs : State) (ind j : Nat) : Except String (Nat × State) :=
  if readLE (fs.blocks ind) (4 * j) 4 = 0 then do
    let (addr, fs) ← balloc fs
    if addr ≠ 0 then do
      let fs ← fs.write ind (writeLE (fs.blocks ind) (4 * j) 4 addr)
      return (addr, fs)
    else return (addr, fs)
  else .ok (readLE (fs.blocks ind) (4 * j) 4, fs)

/-- `bmap(ip, bn)`. -/
def bmap (fs : State) (ip : Inode) (bn : Nat) : Except String (Nat × Inode × State) :=
  if bn < nDirect then addrOrAlloc fs ip bn
  else if bn - nDirect < nIndirect then do
    let (ind, ip, fs) ← addrOrAlloc fs ip nDirect
    if ind = 0 then return (0, ip, fs)
    else
      let (addr, fs) ← entryOrAlloc fs ind (bn - nDirect)
      return (addr, ip, fs)
  else .error "bmap: out of range"

theorem chunk_pos {tot n : Nat} (more : tot < n) (off : Nat) : 0 < min (n - tot) (bSize - off % bSize) := by
  have := Nat.mod_lt off (show 0 < bSize by decide)
  omega

/-- The loop of `readi`: `tot` of `n` bytes copied to `dst` so far (they are
`out`), the next at `off`. -/
def readLoop (copyout : Nat → List UInt8 → Bool) (fs : State) (ip : Inode) (dst off tot n : Nat)
    (out : List UInt8) : Except String (Int × List UInt8 × Inode × State) :=
  if _ : tot < n then do
    let (addr, ip, fs) ← bmap fs ip (off / bSize)
    if addr = 0 then return (tot, out, ip, fs)
    else
      let m := min (n - tot) (bSize - off % bSize)
      let bytes := (List.range m).map fun i => fs.blocks addr (off % bSize + i)
      if copyout dst bytes then readLoop copyout fs ip (dst + m) (off + m) (tot + m) n (out ++ bytes)
      else return (-1, out, ip, fs)
  else .ok (tot, out, ip, fs)
termination_by n - tot
decreasing_by
  have := chunk_pos ‹tot < n› off
  omega

/-- `readi(ip, user_dst, dst, off, n)`: what it returns and the bytes it copies. -/
def readi (copyout : Nat → List UInt8 → Bool) (fs : State) (ip : Inode) (dst off n : Nat) :
    Except String (Int × List UInt8 × Inode × State) :=
  if off > ip.din.size ∨ (off + n) % 2 ^ 32 < off then .ok (0, [], ip, fs)
  else
    let n := if off + n > ip.din.size then ip.din.size - off else n
    readLoop copyout fs ip dst off 0 n []

/-- The loop of `writei`: `tot` of `n` bytes written so far, the next at `off`
from `src`. `copyin` is `either_copyin` into a buffer at an offset: its result
and the buffer after it, which keeps what a failed copy moved before it stopped. -/
def writeLoop (copyin : Mem → Nat → Nat → Nat → Int × Mem) (fs : State) (ip : Inode)
    (src off tot n : Nat) : Except String (Nat × Nat × Inode × State) :=
  if _ : tot < n then do
    let (addr, ip, fs) ← bmap fs ip (off / bSize)
    if addr = 0 then return (tot, off, ip, fs)
    else
      let m := min (n - tot) (bSize - off % bSize)
      let (r, data) := copyin (fs.blocks addr) (off % bSize) src m
      -- a failed copy is released without `log_write`, its bytes left in the buffer
      if r = -1 then return (tot, off, ip, { fs with blocks := Function.update fs.blocks addr data })
      else
        let fs ← fs.write addr data
        writeLoop copyin fs ip (src + m) (off + m) (tot + m) n
  else .ok (tot, off, ip, fs)
termination_by n - tot
decreasing_by
  have := chunk_pos ‹tot < n› off
  omega

/-- `writei(ip, user_src, src, off, n)`: what it returns, the inode and the state. -/
def writei (copyin : Mem → Nat → Nat → Nat → Int × Mem) (fs : State) (ip : Inode) (src off n : Nat) :
    Except String (Int × Inode × State) :=
  if off > ip.din.size ∨ (off + n) % 2 ^ 32 < off then .ok (-1, ip, fs)
  else if (off + n) % 2 ^ 32 > maxFile * bSize then .ok (-1, ip, fs)
  else do
    let (tot, off, ip, fs) ← writeLoop copyin fs ip src off 0 n
    let ip := if off > ip.din.size then { ip with din := { ip.din with size := off } } else ip
    let fs ← iupdate fs ip
    return (tot, ip, fs)

/-- One pass of `itrunc`'s loop over the direct blocks. -/
def freeDirect (acc : Inode × State) (i : Nat) : Except String (Inode × State) :=
  if acc.1.din.addr i ≠ 0 then do
    let fs ← bfree acc.2 (acc.1.din.addr i)
    return ({ acc.1 with din := acc.1.din.setAddr i 0 }, fs)
  else .ok acc

/-- One pass of `itrunc`'s loop over the entries `a[j]` of indirect block `ind`,
read from the buffer as it is now. -/
def freeEntry (ind : Nat) (fs : State) (j : Nat) : Except String State :=
  if readLE (fs.blocks ind) (4 * j) 4 ≠ 0 then bfree fs (readLE (fs.blocks ind) (4 * j) 4) else .ok fs

/-- The block `if(ip->addrs[NDIRECT])` of `itrunc`: free the entries of the
indirect block, then the indirect block itself. -/
def freeIndirect (ip : Inode) (fs : State) : Except String (Inode × State) :=
  if ip.din.addr nDirect ≠ 0 then do
    let fs ← (List.range nIndirect).foldlM (freeEntry (ip.din.addr nDirect)) fs
    let fs ← bfree fs (ip.din.addr nDirect)
    pure ({ ip with din := ip.din.setAddr nDirect 0 }, fs)
  else pure (ip, fs)

/-- `itrunc(ip)`: free every block of the file, then store the empty inode. -/
def itrunc (fs : State) (ip : Inode) : Except String (Inode × State) := do
  let (ip, fs) ← (List.range nDirect).foldlM freeDirect (ip, fs)
  let (ip, fs) ← freeIndirect ip fs
  let ip := { ip with din := { ip.din with size := 0 } }
  let fs ← iupdate fs ip
  return (ip, fs)

section Present

variable {fs : State} {ip : Inode}

/-- `readi` within the file, with no `uint` wrap: the loop over
`min(n, size - off)` bytes. -/
theorem readi_eq_readLoop (copyout : Nat → List UInt8 → Bool) (dst : Nat) {off n : Nat}
    (within : off ≤ ip.din.size) (small : off + n < 2 ^ 32) :
    readi copyout fs ip dst off n = readLoop copyout fs ip dst off 0 (min n (ip.din.size - off)) [] := by
  have noWrap : (off + n) % 2 ^ 32 = off + n := Nat.mod_eq_of_lt small
  have count : (if off + n > ip.din.size then ip.din.size - off else n) = min n (ip.din.size - off) := by
    split <;> omega
  rw [readi, if_neg (by omega)]
  simp only [count]

theorem addrOrAlloc_present {i : Nat} (present : ip.din.addr i ≠ 0) :
    addrOrAlloc fs ip i = .ok (ip.din.addr i, ip, fs) := by
  rw [addrOrAlloc, if_neg present]

theorem entryOrAlloc_present {ind j : Nat} (present : readLE (fs.blocks ind) (4 * j) 4 ≠ 0) :
    entryOrAlloc fs ind j = .ok (readLE (fs.blocks ind) (4 * j) 4, fs) := by
  rw [entryOrAlloc, if_neg present]

theorem bmap_present {bn : Nat} (inFile : bn < maxFile) (present : blockAt fs.blocks ip.din bn ≠ 0) :
    bmap fs ip bn = .ok (blockAt fs.blocks ip.din bn, ip, fs) := by
  unfold blockAt at present ⊢
  by_cases direct : bn < nDirect
  · rw [if_pos direct] at present ⊢
    rw [bmap, if_pos direct, addrOrAlloc_present present]
  · rw [if_neg direct] at present ⊢
    have indirect : ip.din.addr nDirect ≠ 0 := fun absent => present (if_pos absent)
    rw [if_neg indirect] at present ⊢
    have inIndirect : bn - nDirect < nIndirect := by
      simp only [maxFile] at inFile
      omega
    rw [bmap, if_neg direct, if_pos inIndirect, addrOrAlloc_present indirect]
    simp [indirect, entryOrAlloc_present present, bind, Except.bind, pure, Except.pure]

/-- The bytes of the file from `off`, `m` of them. -/
def fileBytes (disk : Disk) (d : Dinode) (off m : Nat) : List UInt8 :=
  (List.range m).map fun i => fileByte disk d (off + i)

theorem fileBytes_add (disk : Disk) (d : Dinode) (off m k : Nat) :
    fileBytes disk d off (m + k) = fileBytes disk d off m ++ fileBytes disk d (off + m) k := by
  simp only [fileBytes, List.range_add, List.map_append, List.map_map]
  congr 1
  apply List.map_congr_left
  intro i _
  simp [Nat.add_assoc]

/-- A chunk inside one block is the file's bytes there. -/
theorem chunk_bytes (disk : Disk) (d : Dinode) {off m : Nat} (inside : off % bSize + m ≤ bSize) :
    ((List.range m).map fun i => disk (blockAt disk d (off / bSize)) (off % bSize + i)) =
      fileBytes disk d off m := by
  apply List.map_congr_left
  intro i member
  have below : i < m := List.mem_range.mp member
  have sameBlock : (off + i) / bSize = off / bSize := by
    rw [show bSize = 1024 from rfl] at inside ⊢
    omega
  have offset : (off + i) % bSize = off % bSize + i := by
    rw [show bSize = 1024 from rfl] at inside ⊢
    omega
  simp only [fileByte, sameBlock, offset]

/-- Every block holding a byte in `[off, off + k)` is present. -/
def Present (disk : Disk) (d : Dinode) (off k : Nat) : Prop :=
  ∀ p, off ≤ p → p < off + k → p / bSize < maxFile ∧ blockAt disk d (p / bSize) ≠ 0

/-- The loop over present blocks copies the file's bytes and changes nothing. -/
theorem readLoop_present (dst off tot n : Nat) (out : List UInt8) (present : Present fs.blocks ip.din off (n - tot)) :
    readLoop (fun _ _ => true) fs ip dst off tot n out =
      .ok (max tot n, out ++ fileBytes fs.blocks ip.din off (n - tot), ip, fs) := by
  by_cases more : tot < n
  · set m := min (n - tot) (bSize - off % bSize) with m_def
    have pos := chunk_pos more off
    obtain ⟨inFile, here⟩ := present off (le_refl _) (by omega)
    have inside : off % bSize + m ≤ bSize := by
      have := Nat.mod_lt off (show 0 < bSize by decide)
      omega
    have rest : Present fs.blocks ip.din (off + m) (n - (tot + m)) :=
      fun p lower upper => present p (by omega) (by omega)
    rw [readLoop, dif_pos more]
    simp only [bmap_present inFile here, bind, Except.bind, here, if_false, ← m_def,
      chunk_bytes _ _ inside, if_true]
    rw [readLoop_present (dst + m) (off + m) (tot + m) n _ rest]
    have split : n - tot = m + (n - (tot + m)) := by omega
    rw [split, fileBytes_add, List.append_assoc]
    congr 2
    omega
  · rw [readLoop, dif_neg more]
    have none : n - tot = 0 := by omega
    simp only [none, fileBytes, List.range_zero, List.map_nil, List.append_nil]
    rw [show max (tot : Int) n = tot by omega]
termination_by n - tot
decreasing_by omega

theorem readi_present (dst off n : Nat) (within : off ≤ ip.din.size) (small : off + n < 2 ^ 32)
    (present : Present fs.blocks ip.din off (min n (ip.din.size - off))) :
    readi (fun _ _ => true) fs ip dst off n =
      .ok (min n (ip.din.size - off), fileBytes fs.blocks ip.din off (min n (ip.din.size - off)), ip, fs) := by
  rw [readi_eq_readLoop _ dst within small, readLoop_present dst off 0 _ [] (by simpa using present)]
  simp only [Nat.sub_zero, List.nil_append, Except.ok.injEq, Prod.mk.injEq, and_true]
  omega

theorem readi_at_end (copyout : Nat → List UInt8 → Bool) (dst : Nat) {off n : Nat}
    (atEnd : ip.din.size = off) (small : off + n < 2 ^ 32) :
    readi copyout fs ip dst off n = .ok (0, [], ip, fs) := by
  rw [readi_eq_readLoop copyout dst atEnd.ge small, atEnd, Nat.sub_self, Nat.min_zero, readLoop,
    dif_neg (Nat.lt_irrefl 0)]
  rfl

end Present

section Missing

variable {fs : State} {ip : Inode}

theorem readLoop_of_bmap_error (copyout : Nat → List UInt8 → Bool) (dst : Nat) {off tot n : Nat}
    (out : List UInt8) (more : tot < n) {msg : String} (failed : bmap fs ip (off / bSize) = .error msg) :
    readLoop copyout fs ip dst off tot n out = .error msg := by
  rw [readLoop, dif_pos more]
  simp only [failed, bind, Except.bind]

theorem bmap_of_balloc_error {bn : Nat} (direct : bn < nDirect) (absent : ip.din.addr bn = 0)
    {msg : String} (failed : balloc fs = .error msg) : bmap fs ip bn = .error msg := by
  rw [bmap, if_pos direct, addrOrAlloc, if_pos absent]
  simp only [failed, bind, Except.bind]

end Missing

end Xv6.Fs
