import Mathlib
import Xv6.Param
import Xv6.Fs.Layout

/-!
What an inode describes on a disk: the block of each file block (the lookup
half of `bmap`), the file's bytes, and the blocks it references. Both `mkfs`
and the kernel build files through these, so the lemmas here say which disk
writes leave a file's map and bytes alone.
-/

namespace Xv6.Fs

open Bytes

abbrev Disk := Nat → Mem

/-- The block holding file block `bn` as `bmap` finds it when nothing is missing:
`addrs[bn]` for a direct block, else entry `bn - NDIRECT` of the indirect block;
`0` for a block that is not there. -/
def blockAt (disk : Disk) (d : Dinode) (bn : Nat) : Nat :=
  if bn < nDirect then d.addr bn
  else if d.addr nDirect = 0 then 0
  else readLE (disk (d.addr nDirect)) (4 * (bn - nDirect)) 4

/-- Byte `p` of the file. -/
def fileByte (disk : Disk) (d : Dinode) (p : Nat) : UInt8 :=
  disk (blockAt disk d (p / bSize)) (p % bSize)

/-- Where an inode can name a block: as file block `bn`, or as its indirect block. -/
inductive Slot where
  | data (bn : Nat)
  | indirect
  deriving DecidableEq

/-- The block an inode names at a slot (`0` for none). -/
def slotBlock (disk : Disk) (d : Dinode) : Slot → Nat
  | .data bn => blockAt disk d bn
  | .indirect => d.addr nDirect

/-- The slots a file can use: `MAXFILE` file blocks and the indirect block. -/
def Slot.Valid : Slot → Prop
  | .data bn => bn < maxFile
  | .indirect => True

/-- Inode `d` references block `b` (nonzero) at slot `s`: the block numbers
`addrs[0..NDIRECT]` and the nonzero entries of the indirect block. -/
def RefAt (disk : Disk) (d : Dinode) (s : Slot) (b : Nat) : Prop :=
  s.Valid ∧ b ≠ 0 ∧ slotBlock disk d s = b

section Frame

variable {disk disk' : Disk} {d : Dinode}

theorem blockAt_of_direct (disk : Disk) (d : Dinode) {bn : Nat} (direct : bn < nDirect) :
    blockAt disk d bn = d.addr bn := if_pos direct

/-- `blockAt` reads only the indirect block. -/
theorem blockAt_congr (same : disk (d.addr nDirect) = disk' (d.addr nDirect)) (bn : Nat) :
    blockAt disk d bn = blockAt disk' d bn := by
  unfold blockAt
  rw [same]

theorem slotBlock_congr (same : disk (d.addr nDirect) = disk' (d.addr nDirect)) (s : Slot) :
    slotBlock disk d s = slotBlock disk' d s := by
  cases s with
  | data bn => exact blockAt_congr same bn
  | indirect => rfl

theorem refAt_congr (same : disk (d.addr nDirect) = disk' (d.addr nDirect)) (s : Slot) (b : Nat) :
    RefAt disk d s b ↔ RefAt disk' d s b := by
  unfold RefAt
  rw [slotBlock_congr same]

theorem fileByte_congr {p : Nat} (same : disk (d.addr nDirect) = disk' (d.addr nDirect))
    (byte : disk (blockAt disk d (p / bSize)) (p % bSize) =
      disk' (blockAt disk d (p / bSize)) (p % bSize)) :
    fileByte disk d p = fileByte disk' d p := by
  unfold fileByte
  rw [← blockAt_congr same, byte]

theorem fileByte_update_of_ne (b : Nat) (m : Mem) (p : Nat) (notIndirect : b ≠ d.addr nDirect)
    (notData : b ≠ blockAt disk d (p / bSize)) :
    fileByte (Function.update disk b m) d p = fileByte disk d p := by
  have same : Function.update disk b m (d.addr nDirect) = disk (d.addr nDirect) :=
    Function.update_of_ne (Ne.symm notIndirect) _ _
  unfold fileByte
  rw [blockAt_congr same, Function.update_of_ne (Ne.symm notData)]

theorem blockAt_setAddr_direct (disk : Disk) (d : Dinode) {k : Nat} (direct : k < nDirect)
    (v bn : Nat) : blockAt disk (d.setAddr k v) bn = if bn = k then v else blockAt disk d bn := by
  have other : nDirect ≠ k := by omega
  unfold blockAt
  by_cases below : bn < nDirect
  · by_cases same : bn = k
    · subst same
      simp [below, show bn < nDirect + 1 by omega]
    · simp [below, same]
  · have notK : bn ≠ k := by omega
    simp [below, notK, other]

theorem blockAt_setIndirect (disk : Disk) (d : Dinode) (v : Nat) (zero : disk v = fun _ => 0)
    (bn : Nat) : blockAt disk (d.setAddr nDirect v) bn = if bn < nDirect then d.addr bn else 0 := by
  unfold blockAt
  by_cases below : bn < nDirect
  · have other : bn ≠ nDirect := by omega
    simp [below, other]
  · have self : (d.setAddr nDirect v).addr nDirect = v := by simp
    rw [if_neg below, if_neg below, self, zero]
    split <;> simp

theorem blockAt_setEntry (disk : Disk) (d : Dinode) (present : d.addr nDirect ≠ 0) (j v bn : Nat)
    (small : v < 2 ^ 32) :
    blockAt (Function.update disk (d.addr nDirect)
        (writeLE (disk (d.addr nDirect)) (4 * j) 4 v)) d bn =
      if bn = nDirect + j then v else blockAt disk d bn := by
  unfold blockAt
  by_cases below : bn < nDirect
  · have other : bn ≠ nDirect + j := by omega
    simp [below, other]
  · simp only [below, if_false, present, Function.update_self]
    by_cases same : bn = nDirect + j
    · subst same
      have small' : v < 256 ^ 4 := small
      rw [if_pos rfl, Nat.add_sub_cancel_left, readLE_writeLE_of_lt _ _ _ _ small']
    · rw [if_neg same, readLE_writeLE_of_disjoint _ _ _ _ _ _ (by omega)]

/-- `disk'` holds what `disk` holds in every block `d` references. -/
def AgreeOn (disk disk' : Disk) (d : Dinode) : Prop := ∀ s b, RefAt disk d s b → disk' b = disk b

theorem blockAt_of_agree (agree : AgreeOn disk disk' d) (bn : Nat) :
    blockAt disk' d bn = blockAt disk d bn := by
  by_cases absent : d.addr nDirect = 0
  · unfold blockAt
    simp [absent]
  · exact blockAt_congr (agree .indirect _ ⟨trivial, absent, rfl⟩) bn

theorem refAt_of_agree (agree : AgreeOn disk disk' d) (s : Slot) (b : Nat) :
    RefAt disk' d s b ↔ RefAt disk d s b := by
  cases s with
  | data bn => simp only [RefAt, slotBlock, blockAt_of_agree agree]
  | indirect => rfl

theorem fileByte_of_agree (agree : AgreeOn disk disk' d) {p : Nat} (within : p / bSize < maxFile)
    (present : blockAt disk d (p / bSize) ≠ 0) : fileByte disk' d p = fileByte disk d p := by
  unfold fileByte
  rw [blockAt_of_agree agree, agree (.data (p / bSize)) _ ⟨within, present, rfl⟩]

/-- Writing a block `d` does not reference. -/
theorem agreeOn_update (b : Nat) (m : Mem) (unreferenced : ∀ s, ¬ RefAt disk d s b) :
    AgreeOn disk (Function.update disk b m) d := by
  intro s b' ref
  have other : b' ≠ b := fun same => unreferenced s (same ▸ ref)
  exact Function.update_of_ne other _ _

end Frame

end Xv6.Fs
