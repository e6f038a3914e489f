import Mathlib
import Xv6.Param
import Xv6.Library.Bytes

/-!
The on-disk format of `kernel/fs.h` as bytes. A block is a byte memory; the
superblock is eight `uint`s at the start of block 1, a `struct dinode` is four
`short`s, a `uint` size and thirteen `uint` block addresses, 64 bytes at
`(inum % IPB) * 64` of block `IBLOCK(inum)`, and a `struct dirent` is a
`ushort` inode number and `DIRSIZ` name bytes. RISC-V stores integers
little-endian, which is also the order `mkfs`'s `xint` and `xshort` produce.
-/

namespace Xv6.Fs

open Bytes

/-- A C `short` stored at `off`. -/
def readShort (m : Mem) (off : Nat) : Int16 := (readLE m off 2).toInt16

def writeShort (m : Mem) (off : Nat) (x : Int16) : Mem := writeLE m off 2 x.toUInt16.toNat

theorem readShort_writeShort (m : Mem) (off : Nat) (x : Int16) :
    readShort (writeShort m off x) off = x := by
  have small := x.toUInt16.toNat_lt
  rw [readShort, writeShort, readLE_writeLE_of_lt _ _ _ _ small]
  rw [← Int16.toBitVec_inj]
  simp [Nat.toInt16, Int16.ofNat]

theorem readShort_zero (off : Nat) : readShort (fun _ => 0) off = 0 := rfl

/-- `struct superblock`. -/
structure Superblock where
  magic : Nat
  size : Nat
  nblocks : Nat
  ninodes : Nat
  nlog : Nat
  logstart : Nat
  inodestart : Nat
  bmapstart : Nat

/-- The superblock's fields in declaration order. -/
def Superblock.words (sb : Superblock) : Nat → Nat
  | 0 => sb.magic
  | 1 => sb.size
  | 2 => sb.nblocks
  | 3 => sb.ninodes
  | 4 => sb.nlog
  | 5 => sb.logstart
  | 6 => sb.inodestart
  | _ => sb.bmapstart

/-- `readsb`: `memmove(sb, bp->data, sizeof(*sb))`. -/
def Superblock.read (m : Mem) : Superblock where
  magic := readLE m 0 4
  size := readLE m 4 4
  nblocks := readLE m 8 4
  ninodes := readLE m 12 4
  nlog := readLE m 16 4
  logstart := readLE m 20 4
  inodestart := readLE m 24 4
  bmapstart := readLE m 28 4

/-- The superblock stored at the start of a block. -/
def Superblock.write (m : Mem) (sb : Superblock) : Mem := writeWords m 0 4 sb.words 8

/-- Every field fits a `uint`. -/
def Superblock.Fits (sb : Superblock) : Prop := ∀ i < 8, sb.words i < 2 ^ 32

theorem Superblock.read_write (m : Mem) (sb : Superblock) (fits : sb.Fits) :
    Superblock.read (Superblock.write m sb) = sb := by
  have field : ∀ i < 8, readLE (Superblock.write m sb) (0 + 4 * i) 4 = sb.words i := fun i below => by
    have small : sb.words i < 256 ^ 4 := fits i below
    rw [Superblock.write, readLE_writeWords _ _ _ _ _ _ below, Nat.mod_eq_of_lt small]
  cases sb
  simp only [Superblock.read, Superblock.mk.injEq]
  exact ⟨field 0 (by decide), field 1 (by decide), field 2 (by decide), field 3 (by decide),
    field 4 (by decide), field 5 (by decide), field 6 (by decide), field 7 (by decide)⟩

/-- `IBLOCK(i, sb)`: the block holding inode `i`. -/
def iblock (sb : Superblock) (i : Nat) : Nat := i / ipb + sb.inodestart

/-- Where inode `i`'s `struct dinode` starts inside its block. -/
def dinodeOffset (i : Nat) : Nat := i % ipb * dinodeSize

/-- `BBLOCK(b, sb)`: the bitmap block holding block `b`'s bit. -/
def bblock (sb : Superblock) (b : Nat) : Nat := b / bpb + sb.bmapstart

-- `kernel/stat.h`
def tDir : Int16 := 1
def tFile : Int16 := 2
def tDevice : Int16 := 3

/-- `struct dinode`. -/
structure Dinode where
  type : Int16
  major : Int16
  minor : Int16
  nlink : Int16
  size : Nat
  addrs : Vector Nat (nDirect + 1)

/-- `addrs[i]`, and `0` past the array. -/
def Dinode.addr (d : Dinode) (i : Nat) : Nat := if h : i < nDirect + 1 then d.addrs[i] else 0

/-- `addrs[i] = v`. -/
def Dinode.setAddr (d : Dinode) (i v : Nat) : Dinode :=
  if h : i < nDirect + 1 then { d with addrs := d.addrs.set i v h } else d

@[simp] theorem Dinode.addr_setAddr (d : Dinode) (i v j : Nat) :
    (d.setAddr i v).addr j = if j = i ∧ j < nDirect + 1 then v else d.addr j := by
  unfold Dinode.addr Dinode.setAddr
  by_cases inside : i < nDirect + 1
  · by_cases same : j = i
    · subst same
      simp [inside]
    · by_cases below : j < nDirect + 1 <;> simp [inside, below, same, Vector.getElem_set_ne, Ne.symm same]
  · by_cases same : j = i
    · subst same
      simp [inside]
    · simp [inside, same]

@[simp] theorem Dinode.setAddr_type (d : Dinode) (i v : Nat) : (d.setAddr i v).type = d.type := by
  unfold Dinode.setAddr; split <;> rfl

@[simp] theorem Dinode.setAddr_major (d : Dinode) (i v : Nat) : (d.setAddr i v).major = d.major := by
  unfold Dinode.setAddr; split <;> rfl

@[simp] theorem Dinode.setAddr_minor (d : Dinode) (i v : Nat) : (d.setAddr i v).minor = d.minor := by
  unfold Dinode.setAddr; split <;> rfl

@[simp] theorem Dinode.setAddr_nlink (d : Dinode) (i v : Nat) : (d.setAddr i v).nlink = d.nlink := by
  unfold Dinode.setAddr; split <;> rfl

@[simp] theorem Dinode.setAddr_size (d : Dinode) (i v : Nat) : (d.setAddr i v).size = d.size := by
  unfold Dinode.setAddr; split <;> rfl

/-- The `struct dinode` at `off`. -/
def Dinode.read (m : Mem) (off : Nat) : Dinode where
  type := readShort m off
  major := readShort m (off + 2)
  minor := readShort m (off + 4)
  nlink := readShort m (off + 6)
  size := readLE m (off + 8) 4
  addrs := Vector.ofFn fun i => readLE m (off + 12 + 4 * i) 4

/-- `*dip = *ip`: the `struct dinode` stored at `off`. -/
def Dinode.write (m : Mem) (off : Nat) (d : Dinode) : Mem :=
  writeWords
    (writeLE (writeShort (writeShort (writeShort (writeShort m off d.type) (off + 2) d.major)
      (off + 4) d.minor) (off + 6) d.nlink) (off + 8) 4 d.size)
    (off + 12) 4 d.addr (nDirect + 1)

/-- The size and every address fit a `uint`. -/
structure Dinode.Fits (d : Dinode) : Prop where
  size : d.size < 2 ^ 32
  addrs : ∀ i < nDirect + 1, d.addr i < 2 ^ 32

theorem Dinode.read_fits (m : Mem) (off : Nat) : (Dinode.read m off).Fits := by
  refine ⟨readLE_lt _ _ _, fun i below => ?_⟩
  simp only [Dinode.addr, dif_pos below, Dinode.read, Vector.getElem_ofFn]
  exact readLE_lt _ _ _

/-- A free inode on a zeroed disk. -/
def Dinode.zero : Dinode := ⟨0, 0, 0, 0, 0, Vector.replicate _ 0⟩

section Dinode

theorem Dinode.write_of_outside (m : Mem) (off : Nat) (d : Dinode) (i : Nat)
    (outside : i < off ∨ off + dinodeSize ≤ i) : Dinode.write m off d i = m i := by
  simp only [Dinode.write, dinodeSize, nDirect] at outside ⊢
  rw [writeWords_of_outside _ _ _ _ _ _ (by omega)]
  simp only [writeShort]
  repeat rw [writeLE_of_outside _ _ _ _ _ (by omega)]

theorem readLE_dinode_write_of_disjoint (m : Mem) (off : Nat) (d : Dinode) (off' w : Nat)
    (apart : off' + w ≤ off ∨ off + dinodeSize ≤ off') :
    readLE (Dinode.write m off d) off' w = readLE m off' w :=
  readLE_congr fun i lower upper => Dinode.write_of_outside m off d i (by omega)

theorem Dinode.read_congr {m m' : Mem} {off : Nat}
    (same : ∀ i, off ≤ i → i < off + dinodeSize → m i = m' i) :
    Dinode.read m off = Dinode.read m' off := by
  have field : ∀ k w, k + w ≤ dinodeSize → readLE m (off + k) w = readLE m' (off + k) w :=
    fun k w inside => readLE_congr fun i lower upper => same i (by omega) (by omega)
  simp only [Dinode.read, readShort, Dinode.mk.injEq]
  refine ⟨?_, congrArg _ (field 2 2 (by decide)), congrArg _ (field 4 2 (by decide)),
    congrArg _ (field 6 2 (by decide)), field 8 4 (by decide), Vector.ext fun i below => ?_⟩
  · exact congrArg _ (by simpa using field 0 2 (by decide))
  · have inside : 12 + 4 * i + 4 ≤ dinodeSize := by
      simp only [nDirect, dinodeSize] at below ⊢
      omega
    simpa [Nat.add_assoc] using field (12 + 4 * i) 4 inside

theorem Dinode.read_write_of_disjoint (m : Mem) (off off' : Nat) (d : Dinode)
    (apart : off' + dinodeSize ≤ off ∨ off + dinodeSize ≤ off') :
    Dinode.read (Dinode.write m off d) off' = Dinode.read m off' :=
  Dinode.read_congr fun i lower upper => Dinode.write_of_outside m off d i (by omega)

theorem toInt16_toUInt16_mod (x : Int16) : (x.toUInt16.toNat % 256 ^ 2).toInt16 = x := by
  have small : x.toUInt16.toNat < 256 ^ 2 := x.toUInt16.toNat_lt
  rw [Nat.mod_eq_of_lt small, ← Int16.toBitVec_inj]
  simp [Nat.toInt16, Int16.ofNat]

theorem Dinode.read_write (m : Mem) (off : Nat) (d : Dinode) (fits : d.Fits) :
    Dinode.read (Dinode.write m off d) off = d := by
  obtain ⟨type, major, minor, nlink, size, addrs⟩ := d
  simp only [Dinode.read, Dinode.write, readShort, writeShort, Dinode.mk.injEq]
  -- each field is read through the writes of the fields stored after it
  refine ⟨?_, ?_, ?_, ?_, ?_, Vector.ext fun i below => ?_⟩
  rotate_right
  · have small : addrs[i] < 256 ^ 4 := by simpa [Dinode.addr, below] using fits.addrs i below
    rw [Vector.getElem_ofFn, readLE_writeWords _ _ _ _ _ _ below, Dinode.addr, dif_pos below,
      Nat.mod_eq_of_lt small]
  all_goals
    simp (disch := omega) only [readLE_writeWords_of_disjoint, readLE_writeLE_of_disjoint,
      readLE_writeLE, toInt16_toUInt16_mod]
  have small : size < 256 ^ 4 := fits.size
  exact Nat.mod_eq_of_lt small

end Dinode

end Xv6.Fs
