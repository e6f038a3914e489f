import Mathlib
import Xv6.Param
import Xv6.String
import Xv6.Fs.Layout

/-!
`mkfs/mkfs.c`, the host program that builds `fs.img`. The image file is an
array of sectors with a length: `wsect` writes a whole sector, extending the
file, and `rsect` dies with `read` past its end. The host is little-endian, so
`xint` and `xshort` leave a value as it is while storing it in RISC-V byte
order, and `mkfs`'s `struct dinode` values are the `Dinode`s the kernel reads.
A failed `assert` stops `mkfs` with the asserted expression. An input file is
its path as given in `argv` and its bytes.
-/

namespace Xv6.Mkfs

open Bytes Fs

def nInodes : Nat := 200
def nBitmap : Nat := fsSize / bpb + 1
def nInodeBlocks : Nat := nInodes / ipb + 1
def nLog : Nat := logSize
-- boot, super, log, inode and bitmap blocks
def nMeta : Nat := 2 + nLog + nInodeBlocks + nBitmap
def nBlocks : Nat := fsSize - nMeta

/-- The superblock `main` writes to sector 1. -/
def sb : Superblock where
  magic := fsMagic
  size := fsSize
  nblocks := nBlocks
  ninodes := nInodes
  nlog := nLog
  logstart := 2
  inodestart := 2 + nLog
  bmapstart := 2 + nLog + nInodeBlocks

/-- `fs.img` with the globals `freeinode` and `freeblock`. -/
structure Image where
  disk : Nat → Mem
  len : Nat
  freeinode : Nat
  freeblock : Nat

def zeroes : Mem := fun _ => 0

def wsect (img : Image) (sec : Nat) (buf : Mem) : Image :=
  { img with disk := Function.update img.disk sec buf, len := max img.len (sec + 1) }

def rsect (img : Image) (sec : Nat) : Except String Mem :=
  if sec < img.len then .ok (img.disk sec) else .error "read"

def winode (img : Image) (inum : Nat) (din : Dinode) : Except String Image := do
  let bn := iblock sb inum
  let buf ← rsect img bn
  return wsect img bn (Dinode.write buf (dinodeOffset inum) din)

def rinode (img : Image) (inum : Nat) : Except String Dinode := do
  let buf ← rsect img (iblock sb inum)
  return Dinode.read buf (dinodeOffset inum)

def ialloc (img : Image) (type : Int16) : Except String (Nat × Image) := do
  let inum := img.freeinode
  let img := { img with freeinode := img.freeinode + 1 }
  let img ← winode img inum { Dinode.zero with type, nlink := 1 }
  return (inum, img)

/-- `buf[i/8] |= 1 << (i%8)` for every `i < used`. -/
def markUsed (buf : Mem) : Nat → Mem
  | 0 => buf
  | i + 1 => setBit (markUsed buf i) i

def balloc (img : Image) (used : Nat) : Except String Image :=
  if used < bpb then .ok (wsect img sb.bmapstart (markUsed zeroes used))
  else .error "used < BPB"

/-- `x = freeblock++`. -/
def nextBlock (img : Image) : Nat × Image :=
  (img.freeblock, { img with freeblock := img.freeblock + 1 })

/-- `addrs[i]`, taking `freeblock++` when it is zero. -/
def claimAddr (img : Image) (din : Dinode) (i : Nat) : Dinode × Image :=
  if din.addr i = 0 then
    let (b, img) := nextBlock img
    (din.setAddr i b, img)
  else (din, img)

/-- The block of file block `fbn` in one pass of `iappend`'s loop, allocated
in order from `freeblock` if absent; a new indirect entry is written back at once. -/
def appendBlock (img : Image) (din : Dinode) (fbn : Nat) : Except String (Nat × Dinode × Image) :=
  if fbn < nDirect then
    let (din, img) := claimAddr img din fbn
    .ok (din.addr fbn, din, img)
  else do
    let (din, img) := claimAddr img din nDirect
    let indirect ← rsect img (din.addr nDirect)
    let slot := 4 * (fbn - nDirect)
    if readLE indirect slot 4 = 0 then
      let (b, img) := nextBlock img
      let indirect := writeLE indirect slot 4 b
      return (readLE indirect slot 4, din, wsect img (din.addr nDirect) indirect)
    else return (readLE indirect slot 4, din, img)

theorem append_step_pos (off n : Nat) (pos : 0 < n) :
    0 < min n ((off / bSize + 1) * bSize - off) := by
  have := Nat.lt_div_mul_add (a := off) (show 0 < bSize by decide)
  simp only [bSize] at *
  omega

-- `pos` is read by `decreasing_by` only
set_option linter.unusedVariables false in
/-- The `while(n > 0)` loop of `iappend` from offset `off`, appending `p`. -/
def appendLoop (img : Image) (din : Dinode) (off : Nat) (p : List UInt8) :
    Except String (Dinode × Nat × Image) :=
  if pos : 0 < p.length then
    let fbn := off / bSize
    if fbn < maxFile then do
      let (x, din, img) ← appendBlock img din fbn
      let n1 := min p.length ((fbn + 1) * bSize - off)
      let buf ← rsect img x
      let buf := copy buf (off - fbn * bSize) (fun i => p.getD i 0) 0 n1
      appendLoop (wsect img x buf) din (off + n1) (p.drop n1)
    else .error "fbn < MAXFILE"
  else .ok (din, off, img)
termination_by p.length
decreasing_by
  have := append_step_pos off p.length pos
  simp only [List.length_drop]
  omega

def iappend (img : Image) (inum : Nat) (p : List UInt8) : Except String Image := do
  let din ← rinode img inum
  let (din, off, img) ← appendLoop img din din.size p
  winode img inum { din with size := off }

/-- `struct dirent` with `de.inum = xshort(inum)` and `strncpy(de.name, name, DIRSIZ)`
over a zeroed entry, as the bytes passed to `iappend`. -/
def dirent (inum : Nat) (name : List UInt8) : List UInt8 :=
  let de := strncpy (writeLE zeroes 0 2 inum) 2 (fun i => name.getD i 0) 0 dirSiz
  (List.range direntSize).map de

-- "user/", "/", "_", "." and ".."
def userPrefix : List UInt8 := [0x75, 0x73, 0x65, 0x72, 0x2f]
def slash : UInt8 := 0x2f
def underscore : UInt8 := 0x5f
def dot : List UInt8 := [0x2e]
def dotdot : List UInt8 := [0x2e, 0x2e]

/-- The name an input file gets: without `user/`, without a leading `_`. -/
def shortName (path : List UInt8) : Except String (List UInt8) := do
  let name := if path.take 5 = userPrefix then path.drop 5 else path
  if slash ∈ name then throw "index(shortname, '/') == 0"
  let name := if name.head? = some underscore then name.drop 1 else name
  if name.length ≤ dirSiz then return name else throw "strlen(shortname) <= DIRSIZ"

/-- `while((cc = read(fd, buf, sizeof(buf))) > 0) iappend(inum, buf, cc)`. -/
def appendFile (img : Image) (inum : Nat) (data : List UInt8) : Except String Image :=
  if 0 < data.length then do
    let img ← iappend img inum (data.take bSize)
    appendFile img inum (data.drop bSize)
  else .ok img
termination_by data.length
decreasing_by
  simp only [List.length_drop, bSize]
  omega

/-- One pass of `main`'s loop over the input files. -/
def addFile (rootino : Nat) (img : Image) (file : List UInt8 × List UInt8) : Except String Image := do
  let name ← shortName file.1
  let (inum, img) ← ialloc img tFile
  let img ← iappend img rootino (dirent inum name)
  appendFile img inum file.2

/-- `for(i = 0; i < FSSIZE; i++) wsect(i, zeroes)`. -/
def zeroSectors (img : Image) : Nat → Image
  | 0 => img
  | i + 1 => wsect (zeroSectors img i) i zeroes

/-- `main(argc, argv)` on a fresh `fs.img`. -/
def mkfs (files : List (List UInt8 × List UInt8)) : Except String Image := do
  let img : Image := { disk := fun _ => zeroes, len := 0, freeinode := 1, freeblock := nMeta }
  let img := zeroSectors img fsSize
  let img := wsect img 1 (Superblock.write zeroes sb)
  let (rootino, img) ← ialloc img tDir
  if rootino ≠ rootIno then throw "rootino == ROOTINO"
  let img ← iappend img rootino (dirent rootino dot)
  let img ← iappend img rootino (dirent rootino dotdot)
  let img ← files.foldlM (addFile rootino) img
  -- fix size of root inode dir
  let din ← rinode img rootino
  let off := (din.size / bSize + 1) * bSize
  let img ← winode img rootino { din with size := off }
  balloc img img.freeblock

end Xv6.Mkfs
