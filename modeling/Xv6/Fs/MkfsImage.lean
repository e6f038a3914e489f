import Mathlib
import Xv6.Fs.FileMap
import Xv6.Fs.Mkfs

/-!
What `mkfs` writes, read the way the kernel reads it. `Built` is the invariant
of `main`'s run: every inode allocated so far holds the bytes appended to it,
its blocks are laid out exactly as its size asks, each block past the metadata
and below `freeblock` belongs to exactly one inode slot, and everything from
`freeblock` on is still zero. `iappend`'s loop keeps it with the inode being
extended described by the loop's local `din`.
-/

namespace Xv6.Mkfs

open Bytes Fs

section Geometry

theorem nMeta_eq : nMeta = 46 := rfl
theorem sb_inodestart : sb.inodestart = 32 := rfl
theorem sb_bmapstart : sb.bmapstart = 45 := rfl

/-- Inodes below 224 have their `struct dinode` before the first data block. -/
def inodeSlots : Nat := 224

theorem iblock_lt {inum : Nat} (small : inum < inodeSlots) : iblock sb inum < nMeta := by
  simp only [iblock, sb_inodestart, nMeta_eq, ipb, bSize, dinodeSize, inodeSlots] at *
  omega

theorem iblock_ge (inum : Nat) : 32 ≤ iblock sb inum := by
  rw [iblock, sb_inodestart]
  exact Nat.le_add_left _ _

/-- Two inodes of one block sit in disjoint 64-byte slots. -/
theorem dinodeOffset_apart {i j : Nat} (sameBlock : iblock sb i = iblock sb j) (other : i ≠ j) :
    dinodeOffset i + dinodeSize ≤ dinodeOffset j ∨ dinodeOffset j + dinodeSize ≤ dinodeOffset i := by
  simp only [iblock, dinodeOffset, ipb, bSize, dinodeSize] at *
  omega

theorem dinodeOffset_add_le (i : Nat) : dinodeOffset i + dinodeSize ≤ bSize := by
  simp only [dinodeOffset, ipb, bSize, dinodeSize]
  omega

/-- Blocks a file of `size` bytes takes: its data blocks, and past `NDIRECT` of
them the indirect block. -/
def fileBlocks (size : Nat) : Nat :=
  if nDirect < (size + bSize - 1) / bSize then (size + bSize - 1) / bSize + 1
  else (size + bSize - 1) / bSize

theorem fileBlocks_grow (off : Nat) :
    fileBlocks (off + 1) =
      fileBlocks off + if off % bSize = 0 then (if off / bSize = nDirect then 2 else 1) else 0 := by
  unfold fileBlocks
  rw [show bSize = 1024 from rfl, show nDirect = 12 from rfl]
  have next : (off + 1 + 1024 - 1) / 1024 = off / 1024 + 1 := by omega
  rw [next]
  by_cases aligned : off % 1024 = 0
  · -- the first byte of a new block
    have ceil : (off + 1024 - 1) / 1024 = off / 1024 := by omega
    rw [ceil, if_pos aligned]
    by_cases twelve : off / 1024 = 12
    · rw [if_pos twelve, twelve]
      decide
    · rw [if_neg twelve]
      by_cases past : 12 < off / 1024
      · rw [if_pos past, if_pos (by omega)]
      · rw [if_neg past, if_neg (by omega)]
  · have ceil : (off + 1024 - 1) / 1024 = off / 1024 + 1 := by omega
    rw [ceil, if_neg aligned]
    exact (Nat.add_zero _).symm

/-- Appending inside the block that holds offset `off` grows the file's blocks
as its first byte does. -/
theorem fileBlocks_within {off n : Nat} (pos : 0 < n) (within : off + n ≤ (off / bSize + 1) * bSize) :
    fileBlocks (off + n) = fileBlocks (off + 1) := by
  unfold fileBlocks
  rw [show bSize = 1024 from rfl] at *
  have same : (off + n + 1024 - 1) / 1024 = (off + 1 + 1024 - 1) / 1024 := by omega
  rw [same]

theorem fileBlocks_mono {a b : Nat} (le : a ≤ b) : fileBlocks a ≤ fileBlocks b := by
  unfold fileBlocks
  have ceil : (a + bSize - 1) / bSize ≤ (b + bSize - 1) / bSize :=
    Nat.div_le_div_right (by omega)
  split <;> split <;> omega

end Geometry

section Image

variable {img : Image}

/-- Inode `inum` as the image stores it. -/
def diskInode (img : Image) (inum : Nat) : Dinode :=
  Dinode.read (img.disk (iblock sb inum)) (dinodeOffset inum)

theorem rsect_of_lt {sec : Nat} (inside : sec < img.len) : rsect img sec = .ok (img.disk sec) :=
  if_pos inside

@[simp] theorem wsect_disk (sec : Nat) (buf : Mem) :
    (wsect img sec buf).disk = Function.update img.disk sec buf := rfl

theorem wsect_len_of_lt {sec : Nat} (buf : Mem) (inside : sec < img.len) :
    (wsect img sec buf).len = img.len := by
  simp only [wsect]
  omega

@[simp] theorem wsect_freeinode (sec : Nat) (buf : Mem) :
    (wsect img sec buf).freeinode = img.freeinode := rfl

@[simp] theorem wsect_freeblock (sec : Nat) (buf : Mem) :
    (wsect img sec buf).freeblock = img.freeblock := rfl

theorem rinode_eq {inum : Nat} (inside : iblock sb inum < img.len) :
    rinode img inum = .ok (diskInode img inum) := by
  simp [rinode, rsect_of_lt inside, diskInode, bind, Except.bind, pure, Except.pure]

theorem winode_eq {inum : Nat} (d : Dinode) (inside : iblock sb inum < img.len) :
    winode img inum d = .ok (wsect img (iblock sb inum)
      (Dinode.write (img.disk (iblock sb inum)) (dinodeOffset inum) d)) := by
  simp [winode, rsect_of_lt inside, bind, Except.bind, pure, Except.pure]

/-- Writing a block past the inode blocks leaves every stored inode. -/
theorem diskInode_wsect_of_data {b : Nat} (buf : Mem) (data : nMeta ≤ b) {inum : Nat}
    (small : inum < inodeSlots) : diskInode (wsect img b buf) inum = diskInode img inum := by
  have other : iblock sb inum ≠ b := by
    have := iblock_lt small
    omega
  simp only [diskInode, wsect_disk, Function.update_of_ne other]

theorem diskInode_winode {inum : Nat} (d : Dinode) (fits : d.Fits) (i : Nat) :
    diskInode (wsect img (iblock sb inum)
      (Dinode.write (img.disk (iblock sb inum)) (dinodeOffset inum) d)) i =
      if i = inum then d else diskInode img i := by
  unfold diskInode
  by_cases same : i = inum
  · subst same
    simp [Dinode.read_write _ _ _ fits]
  · rw [if_neg same, wsect_disk]
    by_cases sameBlock : iblock sb i = iblock sb inum
    · rw [sameBlock, Function.update_self, Dinode.read_write_of_disjoint _ _ _ _
        (dinodeOffset_apart sameBlock same)]
    · rw [Function.update_of_ne sameBlock]

end Image

section AppendBlock

variable {img : Image} {din : Dinode} {fbn : Nat}

theorem claimAddr_present {i : Nat} (present : din.addr i ≠ 0) :
    claimAddr img din i = (din, img) := if_neg present

theorem claimAddr_absent {i : Nat} (absent : din.addr i = 0) :
    claimAddr img din i = (din.setAddr i img.freeblock, { img with freeblock := img.freeblock + 1 }) :=
  if_pos absent

theorem appendBlock_present (inside : din.addr nDirect < img.len)
    (present : blockAt img.disk din fbn ≠ 0) :
    appendBlock img din fbn = .ok (blockAt img.disk din fbn, din, img) := by
  unfold appendBlock
  by_cases direct : fbn < nDirect
  · rw [blockAt_of_direct _ _ direct] at present ⊢
    simp [direct, claimAddr_present present]
  · have indirect : din.addr nDirect ≠ 0 := by
      intro zero
      simp [blockAt, direct, zero] at present
    have entry : readLE (img.disk (din.addr nDirect)) (4 * (fbn - nDirect)) 4 ≠ 0 := by
      simpa [blockAt, direct, indirect] using present
    simp [direct, claimAddr_present indirect, rsect_of_lt inside, entry, blockAt, indirect,
      bind, Except.bind, pure, Except.pure]

theorem appendBlock_direct (direct : fbn < nDirect) (absent : din.addr fbn = 0) :
    appendBlock img din fbn =
      .ok (img.freeblock, din.setAddr fbn img.freeblock,
        { img with freeblock := img.freeblock + 1 }) := by
  have slot : fbn < nDirect + 1 := by omega
  simp [appendBlock, direct, claimAddr_absent absent, slot]

theorem appendBlock_entry (indirect : nDirect ≤ fbn) (present : din.addr nDirect ≠ 0)
    (inside : din.addr nDirect < img.len)
    (absent : readLE (img.disk (din.addr nDirect)) (4 * (fbn - nDirect)) 4 = 0)
    (small : img.freeblock < 2 ^ 32) :
    appendBlock img din fbn =
      .ok (img.freeblock, din,
        wsect { img with freeblock := img.freeblock + 1 } (din.addr nDirect)
          (writeLE (img.disk (din.addr nDirect)) (4 * (fbn - nDirect)) 4 img.freeblock)) := by
  have notDirect : ¬ fbn < nDirect := by omega
  have small' : img.freeblock < 256 ^ 4 := small
  simp [appendBlock, notDirect, claimAddr_present present, rsect_of_lt inside, absent,
    nextBlock, readLE_writeLE_of_lt _ _ _ _ small', bind, Except.bind, pure, Except.pure]

theorem appendBlock_indirect (indirect : nDirect ≤ fbn) (absent : din.addr nDirect = 0)
    (inside : img.freeblock < img.len) (fresh : img.disk img.freeblock = zeroes)
    (small : img.freeblock + 1 < 2 ^ 32) :
    appendBlock img din fbn =
      .ok (img.freeblock + 1, din.setAddr nDirect img.freeblock,
        wsect { img with freeblock := img.freeblock + 2 } img.freeblock
          (writeLE zeroes (4 * (fbn - nDirect)) 4 (img.freeblock + 1))) := by
  have notDirect : ¬ fbn < nDirect := by omega
  have small' : img.freeblock + 1 < 256 ^ 4 := small
  have self : (din.setAddr nDirect img.freeblock).addr nDirect = img.freeblock := by simp
  have read : rsect { img with freeblock := img.freeblock + 1 } img.freeblock = .ok zeroes := by
    simp only [rsect]
    rw [if_pos inside, fresh]
  have empty : readLE zeroes (4 * (fbn - nDirect)) 4 = 0 := readLE_zero_mem _ _
  simp [appendBlock, notDirect, claimAddr_absent absent, self, read, nextBlock, empty,
    readLE_writeLE_of_lt _ _ _ _ small', bind, Except.bind, pure, Except.pure]

/-- What one pass of `appendBlock` at offset `off` does: file block `off / BSIZE`
now maps to `x`, which is the block already there or a block just taken from
`freeblock`; only the inode's indirect block is rewritten, and only the blocks
taken are new. -/
structure Claim (img : Image) (din : Dinode) (off x : Nat) (din' : Dinode) (img' : Image) :
    Prop where
  len : img'.len = img.len
  freeinode : img'.freeinode = img.freeinode
  grow : img'.freeblock = img.freeblock + (fileBlocks (off + 1) - fileBlocks off)
  type : din'.type = din.type
  major : din'.major = din.major
  minor : din'.minor = din.minor
  nlink : din'.nlink = din.nlink
  map : ∀ bn, blockAt img'.disk din' bn = if bn = off / bSize then x else blockAt img.disk din bn
  target : x ≠ 0
  old : off / bSize * bSize < off → x = blockAt img.disk din (off / bSize)
  new : off / bSize * bSize = off → img.freeblock ≤ x ∧ x < img'.freeblock
  indirect : din'.addr nDirect = din.addr nDirect ∨
    (din.addr nDirect = 0 ∧ img.freeblock ≤ din'.addr nDirect ∧ din'.addr nDirect < img'.freeblock)
  indirectPresent : din'.addr nDirect ≠ 0 ↔ (din.addr nDirect ≠ 0 ∨ nDirect ≤ off / bSize)
  disk : ∀ b, img'.disk b = img.disk b ∨ (b = din'.addr nDirect ∧ nMeta ≤ b)
  notIndirect : x ≠ din'.addr nDirect
  fresh : ∀ b, img'.freeblock ≤ b → b < fsSize → img'.disk b = zeroes
  newBlocks : ∀ b, img.freeblock ≤ b → b < img'.freeblock → b = x ∨ b = din'.addr nDirect
  fits : din'.Fits

/-- The inode being extended, laid out for `off` bytes, with its blocks taken
before `freeblock` and everything from `freeblock` on zero. -/
structure Extending (img : Image) (din : Dinode) (off : Nat) : Prop where
  len : img.len = fsSize
  pastMeta : nMeta ≤ img.freeblock
  fresh : ∀ b, img.freeblock ≤ b → b < fsSize → img.disk b = zeroes
  shaped : ∀ bn < maxFile, blockAt img.disk din bn ≠ 0 ↔ bn * bSize < off
  indirect : din.addr nDirect ≠ 0 ↔ nDirect * bSize < off
  below : ∀ bn < maxFile, blockAt img.disk din bn < img.freeblock
  indirectBelow : din.addr nDirect < img.freeblock
  indirectMeta : din.addr nDirect = 0 ∨ nMeta ≤ din.addr nDirect
  apart : ∀ bn < maxFile, blockAt img.disk din bn ≠ 0 → blockAt img.disk din bn ≠ din.addr nDirect
  injective : ∀ bn < maxFile, ∀ bn' < maxFile, blockAt img.disk din bn ≠ 0 →
    blockAt img.disk din bn = blockAt img.disk din bn' → bn = bn'
  fits : din.Fits

theorem Extending.freeblock_pos (ext : Extending img din off) : 0 < img.freeblock := by
  have := ext.pastMeta
  rw [nMeta_eq] at this
  omega

theorem fits_setAddr {d : Dinode} (fits : d.Fits) (i : Nat) {v : Nat} (small : v < 2 ^ 32) :
    (d.setAddr i v).Fits := by
  refine ⟨?_, fun j below => ?_⟩
  · unfold Dinode.setAddr
    split
    · exact fits.size
    · exact fits.size
  · rw [Dinode.addr_setAddr]
    split
    · exact small
    · exact fits.addrs j below

section Cases

variable (ext : Extending img din off) (room : img.freeblock + (fileBlocks (off + 1) - fileBlocks off) ≤ fsSize)
include ext room

omit room in
theorem claim_present (existing : off / bSize * bSize < off) (inFile : off / bSize < maxFile) :
    Claim img din off (blockAt img.disk din (off / bSize)) din img := by
  have grow : fileBlocks (off + 1) = fileBlocks off := by
    rw [fileBlocks_grow]
    have unaligned : off % bSize ≠ 0 := by
      rw [show bSize = 1024 from rfl] at existing ⊢
      omega
    simp [unaligned]
  have present := (ext.shaped _ inFile).mpr existing
  refine ⟨rfl, rfl, by omega, rfl, rfl, rfl, rfl, fun bn => ?_, present, fun _ => rfl,
    fun exact => by omega, .inl rfl, ?_, fun _ => .inl rfl, ext.apart _ inFile present, ext.fresh,
    fun b lower upper => by omega, ext.fits⟩
  · split
    · rename_i same
      rw [same]
    · rfl
  · constructor
    · exact .inl
    · rintro (present | late)
      · exact present
      · apply ext.indirect.mpr
        have lateBlock : nDirect * bSize ≤ off / bSize * bSize := Nat.mul_le_mul_right _ late
        omega

theorem claim_direct (direct : off / bSize < nDirect) (aligned : off / bSize * bSize = off) :
    Claim img din off img.freeblock (din.setAddr (off / bSize) img.freeblock)
      { img with freeblock := img.freeblock + 1 } := by
  have unaligned : off % bSize = 0 := by
    rw [show bSize = 1024 from rfl] at aligned ⊢
    omega
  have grow : fileBlocks (off + 1) - fileBlocks off = 1 := by
    rw [fileBlocks_grow, if_pos unaligned, if_neg (by omega)]
    omega
  have below := ext.indirectBelow
  have small : img.freeblock < 2 ^ 32 := by
    have := ext.pastMeta
    simp only [grow, fsSize] at room
    omega
  have other : nDirect ≠ off / bSize := by omega
  have positive := ext.freeblock_pos
  refine ⟨rfl, rfl, by rw [grow], by simp, by simp, by simp, by simp,
    fun bn => blockAt_setAddr_direct _ _ direct _ _, by omega,
    fun existing => by omega, fun _ => ⟨le_refl _, by simp⟩, .inl (by simp [other]), ?_,
    fun _ => .inl rfl, by simp [other]; omega, fun b lower upper => ext.fresh b (by simp at lower; omega) upper,
    fun b lower upper => .inl (by simp at upper; omega), fits_setAddr ext.fits _ small⟩
  simp only [Dinode.addr_setAddr, other, false_and, if_false]
  constructor
  · exact .inl
  · rintro (present | late)
    · exact present
    · omega

theorem claim_entry (present : din.addr nDirect ≠ 0)
    (aligned : off / bSize * bSize = off) :
    Claim img din off img.freeblock din
      (wsect { img with freeblock := img.freeblock + 1 } (din.addr nDirect)
        (writeLE (img.disk (din.addr nDirect)) (4 * (off / bSize - nDirect)) 4 img.freeblock)) := by
  have unaligned : off % bSize = 0 := by
    rw [show bSize = 1024 from rfl] at aligned ⊢
    omega
  -- the indirect block exists, so the file is already past block `NDIRECT`
  have past : nDirect < off / bSize := by
    have started := ext.indirect.mp present
    have : nDirect * bSize < off / bSize * bSize := by omega
    exact Nat.lt_of_mul_lt_mul_right this
  have grow : fileBlocks (off + 1) - fileBlocks off = 1 := by
    rw [fileBlocks_grow, if_pos unaligned, if_neg (by omega)]
    omega
  have below := ext.indirectBelow
  have small : img.freeblock < 2 ^ 32 := by
    have := ext.pastMeta
    simp only [grow, fsSize] at room
    omega
  have inside : din.addr nDirect < img.len := by
    have := ext.len
    simp only [grow] at room
    omega
  have positive := ext.freeblock_pos
  refine ⟨wsect_len_of_lt _ inside, rfl, by simp [grow], rfl, rfl, rfl, rfl, fun bn => ?_,
    by omega, fun existing => by omega,
    fun _ => ⟨le_refl _, by simp⟩, .inl rfl, ⟨fun _ => .inl present, fun _ => present⟩,
    fun b => ?_, by omega, fun b lower upper => ?_,
    fun b lower upper => ?_, ext.fits⟩
  · rw [wsect_disk, blockAt_setEntry _ _ present _ _ _ small]
    have shift : nDirect + (off / bSize - nDirect) = off / bSize := by omega
    rw [shift]
  · by_cases same : b = din.addr nDirect
    · exact .inr ⟨same, same ▸ ext.indirectMeta.resolve_left present⟩
    · exact .inl (by simp [Function.update_of_ne same])
  · rw [wsect_freeblock] at lower
    dsimp only at lower
    rw [wsect_disk, Function.update_of_ne (by omega)]
    exact ext.fresh b (by omega) upper
  · rw [wsect_freeblock] at upper
    dsimp only at upper
    exact .inl (by omega)

theorem claim_indirect (late : nDirect ≤ off / bSize) (absent : din.addr nDirect = 0)
    (aligned : off / bSize * bSize = off) :
    Claim img din off (img.freeblock + 1) (din.setAddr nDirect img.freeblock)
      (wsect { img with freeblock := img.freeblock + 2 } img.freeblock
        (writeLE zeroes (4 * (off / bSize - nDirect)) 4 (img.freeblock + 1))) := by
  -- no indirect block yet, so this is file block `NDIRECT` itself
  have first : off / bSize = nDirect := by
    have notPast : ¬ nDirect * bSize < off := fun past => ext.indirect.mpr past absent
    have : off / bSize * bSize ≤ nDirect * bSize := by omega
    have := Nat.le_of_mul_le_mul_right this (by decide)
    omega
  have unaligned : off % bSize = 0 := by
    rw [show bSize = 1024 from rfl] at aligned ⊢
    omega
  have grow : fileBlocks (off + 1) - fileBlocks off = 2 := by
    rw [fileBlocks_grow, if_pos unaligned, if_pos first]
    omega
  have small : img.freeblock + 1 < 2 ^ 32 := by
    simp only [grow, fsSize] at room
    omega
  have inside : img.freeblock < img.len := by
    have := ext.len
    simp only [grow] at room
    omega
  have self : (din.setAddr nDirect img.freeblock).addr nDirect = img.freeblock := by simp
  have positive := ext.freeblock_pos
  refine ⟨wsect_len_of_lt _ inside, rfl, by simp [grow], by simp, by simp, by simp, by simp,
    fun bn => ?_, by omega, fun existing => by omega, fun _ => ⟨by omega, by simp⟩,
    .inr ⟨absent, by rw [self], by rw [self]; simp⟩, by rw [self]; simp [late]; omega,
    fun b => ?_, by rw [self]; omega, fun b lower upper => ?_, fun b lower upper => ?_,
    fits_setAddr ext.fits _ (by omega)⟩
  · -- the new indirect block names only file block `NDIRECT`
    unfold blockAt
    rw [wsect_disk, self, Function.update_self]
    by_cases direct : bn < nDirect
    · have other : bn ≠ nDirect := by omega
      simp [direct, other, show bn ≠ off / bSize by omega]
    · have small' : img.freeblock + 1 < 256 ^ 4 := small
      simp only [direct, if_false, show img.freeblock ≠ 0 by omega, absent, if_true]
      by_cases same : bn = off / bSize
      · rw [if_pos same, same, readLE_writeLE_of_lt _ _ _ _ small']
      · rw [if_neg same, readLE_writeLE_of_disjoint _ _ _ _ _ _ (by omega)]
        exact readLE_zero_mem _ _
  · rw [self]
    by_cases same : b = img.freeblock
    · exact .inr ⟨same, same ▸ ext.pastMeta⟩
    · exact .inl (by simp [Function.update_of_ne same])
  · rw [wsect_freeblock] at lower
    dsimp only at lower
    rw [wsect_disk, Function.update_of_ne (by omega)]
    exact ext.fresh b (by omega) upper
  · rw [self]
    rw [wsect_freeblock] at upper
    dsimp only at upper
    omega

/-- One pass of `appendBlock` never fails on a file laid out for `off` bytes
when the blocks it may take fit, and does what `Claim` says. -/
theorem appendBlock_claim (inFile : off / bSize < maxFile) :
    ∃ x din' img', appendBlock img din (off / bSize) = .ok (x, din', img') ∧
      Claim img din off x din' img' := by
  have inside : din.addr nDirect < img.len := by
    have := ext.indirectBelow
    have := ext.len
    omega
  have small : img.freeblock + 1 < 2 ^ 32 := by
    simp only [fsSize] at room
    omega
  by_cases existing : off / bSize * bSize < off
  · have present := (ext.shaped _ inFile).mpr existing
    exact ⟨_, _, _, appendBlock_present inside present, claim_present ext existing inFile⟩
  · have aligned : off / bSize * bSize = off := by
      have := Nat.div_mul_le_self off bSize
      omega
    have missing : blockAt img.disk din (off / bSize) = 0 := by
      by_contra present
      exact existing ((ext.shaped _ inFile).mp present)
    by_cases direct : off / bSize < nDirect
    · rw [blockAt_of_direct _ _ direct] at missing
      exact ⟨_, _, _, appendBlock_direct direct missing, claim_direct ext room direct aligned⟩
    · by_cases present : din.addr nDirect = 0
      · -- a new block is taken, so there is room for at least one
        have growth : 1 ≤ fileBlocks (off + 1) - fileBlocks off := by
          have unaligned : off % bSize = 0 := by
            rw [show bSize = 1024 from rfl] at aligned ⊢
            omega
          rw [fileBlocks_grow, if_pos unaligned]
          split <;> omega
        have free : img.freeblock < img.len := by
          have := ext.len
          omega
        exact ⟨_, _, _, appendBlock_indirect (by omega) present free
          (ext.fresh _ (le_refl _) (by omega)) small,
          claim_indirect ext room (by omega) present aligned⟩
      · have entry : readLE (img.disk (din.addr nDirect)) (4 * (off / bSize - nDirect)) 4 = 0 := by
          simpa [blockAt, direct, present] using missing
        exact ⟨_, _, _, appendBlock_entry (by omega) present inside entry (by omega),
          claim_entry ext room present aligned⟩

end Cases

end AppendBlock

section Built

variable {disk disk' : Disk} {d : Dinode} {type : Int16} {bytes : List UInt8}

/-- Inode `d` holds `bytes` with `type` and one link, laid out as `mkfs` lays
out files: file block `bn` is there exactly when it starts before the end,
and the indirect block exactly when the file is past `NDIRECT` blocks. -/
structure Holds (disk : Disk) (d : Dinode) (type : Int16) (bytes : List UInt8) : Prop where
  type : d.type = type
  major : d.major = 0
  minor : d.minor = 0
  nlink : d.nlink = 1
  size : d.size = bytes.length
  bound : bytes.length ≤ maxFile * bSize
  fits : d.Fits
  shaped : ∀ bn < maxFile, blockAt disk d bn ≠ 0 ↔ bn * bSize < bytes.length
  indirect : d.addr nDirect ≠ 0 ↔ nDirect * bSize < bytes.length
  content : ∀ p < bytes.length, fileByte disk d p = bytes.getD p 0

theorem Holds.present (holds : Holds disk d type bytes) {p : Nat} (inside : p < bytes.length) :
    p / bSize < maxFile ∧ blockAt disk d (p / bSize) ≠ 0 := by
  have bound := holds.bound
  have within : p / bSize < maxFile := by
    apply Nat.div_lt_of_lt_mul
    rw [Nat.mul_comm]
    omega
  refine ⟨within, (holds.shaped _ within).mpr ?_⟩
  have := Nat.div_mul_le_self p bSize
  omega

/-- A file stays as it is when the blocks it references do. -/
theorem Holds.of_agree (agree : AgreeOn disk disk' d) (holds : Holds disk d type bytes) :
    Holds disk' d type bytes where
  type := holds.type
  major := holds.major
  minor := holds.minor
  nlink := holds.nlink
  size := holds.size
  bound := holds.bound
  fits := holds.fits
  shaped bn below := by rw [blockAt_of_agree agree]; exact holds.shaped bn below
  indirect := holds.indirect
  content p inside := by
    obtain ⟨within, present⟩ := holds.present inside
    rw [fileByte_of_agree agree within present]
    exact holds.content p inside

/-- `main` midway. Inodes `1 .. files.length` hold `files`, as `view` describes
them; `owner` names the one inode slot that references each block taken from
`freeblock`; nothing at or past `freeblock` has been written. -/
structure Built (img : Image) (view : Nat → Dinode) (files : List (Int16 × List UInt8))
    (owner : Nat → Nat × Slot) : Prop where
  len : img.len = fsSize
  super : img.disk 1 = Superblock.write zeroes sb
  boot : ∀ b, b < sb.inodestart → b ≠ 1 → img.disk b = zeroes
  freeinode : img.freeinode = files.length + 1
  slots : files.length < inodeSlots
  count : img.freeblock = nMeta + (files.map fun f => fileBlocks f.2.length).sum
  room : img.freeblock ≤ fsSize
  fresh : ∀ b, img.freeblock ≤ b → b < fsSize → img.disk b = zeroes
  holds : ∀ k (h : k < files.length), Holds img.disk (view (k + 1)) files[k].1 files[k].2
  free : ∀ i, files.length < i → i < inodeSlots → view i = Dinode.read zeroes 0
  owned : ∀ i s b, 0 < i → i ≤ files.length → RefAt img.disk (view i) s b →
    nMeta ≤ b ∧ b < img.freeblock ∧ owner b = (i, s)
  covered : ∀ b, nMeta ≤ b → b < img.freeblock →
    0 < (owner b).1 ∧ (owner b).1 ≤ files.length ∧
      RefAt img.disk (view (owner b).1) (owner b).2 b

section Extended

variable {img img1 : Image} {din din' : Dinode} {off x n1 : Nat} {t : Int16} {bs p : List UInt8}

/-- The bytes `iappend` leaves in block `x`: `bcopy(p, buf + off - fbn * BSIZE, n1)`. -/
def chunk (img1 : Image) (x off n1 : Nat) (p : List UInt8) : Mem :=
  copy (img1.disk x) (off - off / bSize * bSize) (fun i => p.getD i 0) 0 n1

theorem blockAt_extended (claim : Claim img din off x din' img1) (buf : Mem) (bn : Nat) :
    blockAt (Function.update img1.disk x buf) din' bn =
      if bn = off / bSize then x else blockAt img.disk din bn := by
  rw [← claim.map bn]
  exact blockAt_congr (Function.update_of_ne (Ne.symm claim.notIndirect) _ _) bn

/-- The extended inode holds the old bytes and the chunk just copied, laid out exactly. -/
theorem holds_extended (ext : Extending img din off) (claim : Claim img din off x din' img1)
    (holds : Holds img.disk { din with size := off } t bs) (size : bs.length = off)
    (pos : 0 < n1) (enough : n1 ≤ p.length) (within : off + n1 ≤ (off / bSize + 1) * bSize)
    (bound : off + n1 ≤ maxFile * bSize) :
    Holds (Function.update img1.disk x (chunk img1 x off n1 p)) { din' with size := off + n1 } t
      (bs ++ p.take n1) := by
  have length : (bs ++ p.take n1).length = off + n1 := by simp [size, enough]
  have start := Nat.div_mul_le_self off bSize
  have map := blockAt_extended claim (chunk img1 x off n1 p)
  have noOverflow : off + n1 < 2 ^ 32 := by
    simp only [maxFile, nDirect, nIndirect, bSize] at bound
    omega
  have inFile : off / bSize < maxFile := by
    apply Nat.div_lt_of_lt_mul
    rw [Nat.mul_comm]
    omega
  refine ⟨?_, ?_, ?_, ?_, length.symm, by rw [length]; exact bound,
    ⟨noOverflow, claim.fits.addrs⟩, fun bn below => ?_, ?_, fun q inside => ?_⟩
  · simpa [claim.type] using holds.type
  · simpa [claim.major] using holds.major
  · simpa [claim.minor] using holds.minor
  · simpa [claim.nlink] using holds.nlink
  · -- block `fbn` is the one just claimed; the others are as before
    show blockAt _ din' bn ≠ 0 ↔ _
    rw [map bn, length]
    split
    · rename_i here
      subst here
      exact ⟨fun _ => by omega, fun _ => claim.target⟩
    · rename_i other
      rw [show blockAt img.disk din bn = blockAt img.disk { din with size := off } bn from rfl,
        holds.shaped bn below, size]
      constructor
      · intro early
        omega
      · intro early
        have : bn * bSize ≠ off / bSize * bSize := fun same =>
          other (Nat.eq_of_mul_eq_mul_right (by decide) same)
        have : bn < off / bSize + 1 := by
          by_contra late
          have : (off / bSize + 1) * bSize ≤ bn * bSize := Nat.mul_le_mul_right _ (by omega)
          omega
        have : bn * bSize < off / bSize * bSize := by
          have : bn < off / bSize := by omega
          exact Nat.mul_lt_mul_of_pos_right this (by decide)
        omega
  · show din'.addr nDirect ≠ 0 ↔ _
    rw [claim.indirectPresent, length]
    have old := holds.indirect
    simp only [size] at old
    change din.addr nDirect ≠ 0 ↔ _ at old
    rw [old]
    constructor
    · rintro (early | late)
      · omega
      · have := Nat.mul_le_mul_right bSize late
        omega
    · intro past
      by_cases early : nDirect * bSize < off
      · exact .inl early
      · right
        by_contra before
        have : (off / bSize + 1) * bSize ≤ nDirect * bSize :=
          Nat.mul_le_mul_right _ (by omega)
        omega
  · rw [length] at inside
    show Function.update img1.disk x _ (blockAt _ din' (q / bSize)) (q % bSize) = _
    rw [map]
    by_cases old : q < off
    · -- a byte that was already there
      have was := holds.content q (by omega)
      obtain ⟨within', present⟩ := holds.present (by omega : q < bs.length)
      change blockAt img.disk din (q / bSize) ≠ 0 at present
      rw [List.getD_append _ _ _ _ (by omega)]
      rw [← was]
      show _ = img.disk (blockAt img.disk din (q / bSize)) (q % bSize)
      split
      · rename_i here
        -- the block being extended: the chunk starts at `off`, after this byte
        have existing : off / bSize * bSize < off := by
          have := Nat.div_mul_le_self q bSize
          rw [here] at this
          omega
        have qmod : q % bSize + off / bSize * bSize = q := by
          have := Nat.mod_add_div q bSize
          rw [here, Nat.mul_comm] at this
          omega
        rw [Function.update_self, chunk, here, ← claim.old existing]
        simp only [copy]
        rw [if_neg (by omega)]
        rcases claim.disk x with same | ⟨indirect, _⟩
        · rw [same]
        · exact absurd indirect claim.notIndirect
      · rename_i other
        have notX : blockAt img.disk din (q / bSize) ≠ x := by
          intro same
          by_cases existing : off / bSize * bSize < off
          · rw [claim.old existing] at same
            exact other (ext.injective _ within' _ inFile present same)
          · have := ext.below _ within'
            have := (claim.new (by omega)).1
            omega
        rw [Function.update_of_ne notX]
        rcases claim.disk (blockAt img.disk din (q / bSize)) with same | ⟨indirect, _⟩
        · rw [same]
        · rcases claim.indirect with keep | ⟨_, fresh, _⟩
          · exact absurd (indirect.trans keep) (ext.apart _ within' present)
          · have := ext.below _ within'
            omega
    · -- a byte of the chunk
      have lo : off / bSize * bSize ≤ q := by omega
      have hi : q < (off / bSize + 1) * bSize := by omega
      have here : q / bSize = off / bSize := Nat.div_eq_of_lt_le lo hi
      have qmod : q % bSize + off / bSize * bSize = q := by
        have := Nat.mod_add_div q bSize
        rw [here, Nat.mul_comm] at this
        omega
      rw [if_pos here, Function.update_self, chunk]
      simp only [copy]
      rw [if_pos (by omega)]
      have index : 0 + (q % bSize - (off - off / bSize * bSize)) = q - off := by omega
      rw [index, List.getD_append_right _ _ _ _ (by omega), size]
      simp [List.getD_eq_getElem?_getD, show q - off < n1 by omega]

end Extended

section Step

variable {img img1 : Image} {view : Nat → Dinode} {files : List (Int16 × List UInt8)}
  {owner : Nat → Nat × Slot} {din din' : Dinode} {k off x n1 : Nat} {t : Int16} {bs p : List UInt8}

theorem Built.extending (built : Built img view files owner) (hk : k < files.length)
    (isOpen : view (k + 1) = { din with size := off }) (size : files[k].2.length = off)
    (fits : din.Fits) : Extending img din off := by
  have holds := built.holds k hk
  rw [isOpen] at holds
  have ref : ∀ s b, RefAt img.disk din s b → nMeta ≤ b ∧ b < img.freeblock ∧ owner b = (k + 1, s) :=
    fun s b r => built.owned (k + 1) s b (by omega) (by omega) (by rw [isOpen]; exact r)
  have pastMeta : nMeta ≤ img.freeblock := by
    have := built.count
    omega
  have positive : 0 < nMeta := by rw [nMeta_eq]; decide
  refine ⟨built.len, pastMeta, built.fresh, fun bn below => by rw [← size]; exact holds.shaped bn below,
    by rw [← size]; exact holds.indirect, fun bn below => ?_, ?_, ?_, fun bn below present same => ?_,
    fun bn below bn' below' present same => ?_, fits⟩
  · by_cases absent : blockAt img.disk din bn = 0
    · omega
    · exact (ref (.data bn) _ ⟨below, absent, rfl⟩).2.1
  · by_cases absent : din.addr nDirect = 0
    · omega
    · exact (ref .indirect _ ⟨trivial, absent, rfl⟩).2.1
  · by_cases absent : din.addr nDirect = 0
    · exact .inl absent
    · exact .inr (ref .indirect _ ⟨trivial, absent, rfl⟩).1
  · -- the indirect block and a data block are different slots of one owner
    have asData := (ref (.data bn) _ ⟨below, present, rfl⟩).2.2
    have asIndirect := (ref .indirect (din.addr nDirect) ⟨trivial, same ▸ present, rfl⟩).2.2
    rw [same, asIndirect] at asData
    cases asData
  · have first := (ref (.data bn) _ ⟨below, present, rfl⟩).2.2
    have second := (ref (.data bn') (blockAt img.disk din bn') ⟨below', same ▸ present, rfl⟩).2.2
    rw [same, second] at first
    cases first
    rfl

theorem diskInode_congr {img' : Image} {i : Nat}
    (same : img'.disk (iblock sb i) = img.disk (iblock sb i)) : diskInode img' i = diskInode img i := by
  unfold diskInode
  rw [same]

theorem Built.agree_others (built : Built img view files owner) {disk : Disk}
    (changed : ∀ b, disk b ≠ img.disk b → img.freeblock ≤ b ∨ (owner b).1 = k + 1)
    {i : Nat} (positive : 0 < i) (inRange : i ≤ files.length) (other : i ≠ k + 1) :
    AgreeOn img.disk disk (view i) := by
  intro s b ref
  obtain ⟨_, below, own⟩ := built.owned i s b positive inRange ref
  by_contra differs
  rcases changed b differs with late | mine
  · omega
  · rw [own] at mine
    exact other mine

/-- The owner map after a pass: the blocks just taken belong to the extended inode. -/
def stepOwner (owner : Nat → Nat × Slot) (img img1 : Image) (k x fbn : Nat) : Nat → Nat × Slot :=
  fun b => if img.freeblock ≤ b ∧ b < img1.freeblock then
    (if b = x then (k + 1, .data fbn) else (k + 1, .indirect)) else owner b

theorem sum_map_set {α : Type} (f : α → Nat) (l : List α) {k : Nat} (a : α) (h : k < l.length) :
    ((l.set k a).map f).sum + f l[k] = (l.map f).sum + f a := by
  have whole : (l.map f).sum = ((l.map f).set k (f l[k])).sum := by
    rw [← List.map_set, List.set_getElem_self]
  rw [whole, List.map_set, List.sum_set, List.sum_set]
  simp only [List.length_map, h, if_true]
  omega

/-- One pass of `iappend`'s loop keeps `Built`: the pass claims block `x` for
file block `off / BSIZE` and copies `n1` bytes of `p` into it. -/
theorem Built.step
    (built : Built img (Function.update (diskInode img) (k + 1) { din with size := off }) files owner)
    (hk : k < files.length) (entry : files[k] = (t, bs)) (size : bs.length = off) (fits : din.Fits)
    (claim : Claim img din off x din' img1) (pos : 0 < n1) (enough : n1 ≤ p.length)
    (within : off + n1 ≤ (off / bSize + 1) * bSize) (bound : off + n1 ≤ maxFile * bSize)
    (room : img1.freeblock ≤ fsSize) :
    Built (wsect img1 x (chunk img1 x off n1 p))
      (Function.update (diskInode (wsect img1 x (chunk img1 x off n1 p))) (k + 1)
        { din' with size := off + n1 })
      (files.set k (t, bs ++ p.take n1)) (stepOwner owner img img1 k x (off / bSize)) := by
  set img2 := wsect img1 x (chunk img1 x off n1 p) with img2_def
  set view := Function.update (diskInode img) (k + 1) { din with size := off } with view_def
  have isOpen : view (k + 1) = { din with size := off } := Function.update_self _ _ _
  have ext := built.extending hk isOpen (by rw [entry, size]) fits
  have fbnIn : off / bSize < maxFile := by
    apply Nat.div_lt_of_lt_mul
    rw [Nat.mul_comm]
    omega
  have oldHolds := built.holds k hk
  rw [isOpen, entry] at oldHolds
  -- where `x` comes from: the block already there, or one just taken
  have xRange : nMeta ≤ x ∧ x < img1.freeblock := by
    by_cases existing : off / bSize * bSize < off
    · have present := (ext.shaped _ fbnIn).mpr existing
      rw [← claim.old existing] at present
      have owned := built.owned (k + 1) (.data (off / bSize)) x (by omega) (by omega)
        (by rw [isOpen]; exact ⟨fbnIn, present, (claim.old existing).symm⟩)
      have := claim.grow
      omega
    · have := claim.new (by have := Nat.div_mul_le_self off bSize; omega)
      have := ext.pastMeta
      omega
  have len1 : img1.len = fsSize := by rw [claim.len, ext.len]
  have xInside : x < img1.len := by omega
  have disk2 : ∀ b, img2.disk b = if b = x then chunk img1 x off n1 p else img1.disk b := by
    intro b
    by_cases same : b = x
    · subst same
      simp [img2_def]
    · simp [img2_def, same]
  -- blocks that changed are `x` or the extended inode's indirect block
  have changed : ∀ b, img2.disk b ≠ img.disk b → b = x ∨ (b = din'.addr nDirect ∧ nMeta ≤ b) := by
    intro b differs
    rw [disk2] at differs
    split at differs
    · exact .inl (by assumption)
    · rcases claim.disk b with same | indirect
      · exact absurd same differs
      · exact .inr indirect
  have indirectOwner : ∀ b, b = din'.addr nDirect → nMeta ≤ b →
      img.freeblock ≤ b ∨ owner b = (k + 1, .indirect) := by
    intro b is past
    rcases claim.indirect with keep | ⟨_, fresh, _⟩
    · by_cases late : img.freeblock ≤ b
      · exact .inl late
      · have present : din.addr nDirect ≠ 0 := by
          have := ext.freeblock_pos
          rw [nMeta_eq] at past
          omega
        right
        have := built.owned (k + 1) .indirect b (by omega) (by omega)
          (by rw [isOpen]; exact ⟨trivial, is ▸ keep ▸ present, by rw [is, keep]; rfl⟩)
        exact this.2.2
    · exact .inl (is ▸ fresh)
  have xOwner : img.freeblock ≤ x ∨ owner x = (k + 1, .data (off / bSize)) := by
    by_cases existing : off / bSize * bSize < off
    · right
      have present := (ext.shaped _ fbnIn).mpr existing
      rw [← claim.old existing] at present
      exact (built.owned (k + 1) (.data (off / bSize)) x (by omega) (by omega)
        (by rw [isOpen]; exact ⟨fbnIn, present, (claim.old existing).symm⟩)).2.2
    · exact .inl (claim.new (by have := Nat.div_mul_le_self off bSize; omega)).1
  have mine : ∀ b, img2.disk b ≠ img.disk b → img.freeblock ≤ b ∨ (owner b).1 = k + 1 := by
    intro b differs
    rcases changed b differs with rfl | ⟨is, past⟩
    · rcases xOwner with late | own
      · exact .inl late
      · exact .inr (by rw [own])
    · rcases indirectOwner b is past with late | own
      · exact .inl late
      · exact .inr (by rw [own])
  have inodes : ∀ i, i < inodeSlots → diskInode img2 i = diskInode img i := by
    intro i small
    apply diskInode_congr
    by_contra differs
    have := iblock_lt small
    rcases changed _ differs with same | ⟨_, past⟩ <;> omega
  have slots := built.slots
  have views : ∀ i, i < inodeSlots → i ≠ k + 1 →
      Function.update (diskInode img2) (k + 1) { din' with size := off + n1 } i = view i := by
    intro i small other
    rw [Function.update_of_ne other, inodes i small, view_def, Function.update_of_ne other]
  have agree : ∀ i, 0 < i → i ≤ files.length → i ≠ k + 1 → AgreeOn img.disk img2.disk (view i) :=
    fun i positive inRange other => built.agree_others mine positive inRange other
  have keepMeta : ∀ b, b < nMeta → img2.disk b = img.disk b := by
    intro b small
    by_contra differs
    rcases changed b differs with rfl | ⟨_, past⟩ <;> omega
  have extended := holds_extended ext claim oldHolds size pos enough within bound
  have newMap := blockAt_extended claim (chunk img1 x off n1 p)
  have lengthSet : (files.set k (t, bs ++ p.take n1)).length = files.length := List.length_set ..
  have free1 : img2.freeblock = img1.freeblock := rfl
  refine ⟨by rw [wsect_len_of_lt _ xInside, len1], ?_, ?_, ?_, by rw [lengthSet]; exact slots, ?_,
    room, ?_, ?_, ?_, ?_, ?_⟩
  · rw [keepMeta 1 (by rw [nMeta_eq]; decide)]
    exact built.super
  · intro b small other
    rw [keepMeta b (by rw [sb_inodestart] at small; rw [nMeta_eq]; omega)]
    exact built.boot b small other
  · rw [lengthSet]
    simp [img2_def, claim.freeinode, built.freeinode]
  · -- the file grew by `fileBlocks (off + n1) - fileBlocks off` blocks, all taken now
    have sum := sum_map_set (fun f : Int16 × List UInt8 => fileBlocks f.2.length) files
      (t, bs ++ p.take n1) hk
    simp only [entry, List.length_append, List.length_take, Nat.min_eq_left enough, size] at sum
    rw [fileBlocks_within pos within] at sum
    have mono := fileBlocks_mono (Nat.le_add_right off 1)
    have grow := claim.grow
    have count := built.count
    rw [free1]
    omega
  · intro b late upper
    rw [disk2, if_neg (by omega)]
    exact claim.fresh b late upper
  · intro j hj
    rw [lengthSet] at hj
    rw [List.getElem_set]
    by_cases same : k = j
    · subst same
      simp only [if_true, Function.update_self]
      exact extended
    · rw [if_neg same, views (j + 1) (by omega) (by omega)]
      exact (built.holds j hj).of_agree (agree (j + 1) (by omega) (by omega) (by omega))
  · intro i late small
    rw [lengthSet] at late
    rw [views i small (by omega)]
    exact built.free i late small
  · intro i s b positive inRange ref
    rw [lengthSet] at inRange
    by_cases here : i = k + 1
    · subst here
      rw [Function.update_self] at ref
      obtain ⟨valid, nonzero, named⟩ := ref
      cases s with
      | data bn =>
          change blockAt img2.disk din' bn = b at named
          rw [img2_def, wsect_disk, newMap] at named
          split at named
          · rename_i atFbn
            subst atFbn
            subst named
            refine ⟨xRange.1, xRange.2, ?_⟩
            unfold stepOwner
            split
            · simp
            · rename_i outside
              rcases xOwner with late | own
              · exact absurd ⟨late, xRange.2⟩ outside
              · exact own
          · obtain ⟨lo, hi, own⟩ := built.owned (k + 1) (.data bn) b positive (by omega)
              (by rw [isOpen]; exact ⟨valid, nonzero, named⟩)
            refine ⟨lo, by have := claim.grow; rw [free1]; omega, ?_⟩
            simp only [stepOwner, show ¬ (img.freeblock ≤ b ∧ b < img1.freeblock) by omega, if_false]
            exact own
      | indirect =>
          change din'.addr nDirect = b at named
          rcases claim.indirect with keep | ⟨_, lo, hi⟩
          · obtain ⟨lo, hi, own⟩ := built.owned (k + 1) .indirect b positive (by omega)
              (by rw [isOpen]; exact ⟨trivial, nonzero, by rw [← named, keep]; rfl⟩)
            refine ⟨lo, by have := claim.grow; rw [free1]; omega, ?_⟩
            simp only [stepOwner, show ¬ (img.freeblock ≤ b ∧ b < img1.freeblock) by omega, if_false]
            exact own
          · have := ext.pastMeta
            have notX := claim.notIndirect
            refine ⟨by omega, by rw [free1]; omega, ?_⟩
            simp only [stepOwner, show img.freeblock ≤ b ∧ b < img1.freeblock by omega, and_self,
              if_true, show b ≠ x by omega, if_false]
    · rw [views i (by omega) here] at ref
      obtain ⟨lo, hi, own⟩ := built.owned i s b positive inRange
        ((refAt_of_agree (agree i positive inRange here) s b).mp ref)
      refine ⟨lo, by have := claim.grow; rw [free1]; omega, ?_⟩
      simp only [stepOwner, show ¬ (img.freeblock ≤ b ∧ b < img1.freeblock) by omega, if_false]
      exact own
  · intro b lo hi
    rw [free1] at hi
    rw [lengthSet]
    by_cases late : img.freeblock ≤ b
    · simp only [stepOwner, show img.freeblock ≤ b ∧ b < img1.freeblock from ⟨late, hi⟩, and_self,
        if_true]
      refine ⟨?_, ?_, ?_⟩
      · split <;> simp
      · split <;> simp <;> omega
      · split
        · rename_i isX
          subst isX
          simp only [Function.update_self]
          refine ⟨fbnIn, claim.target, ?_⟩
          change blockAt img2.disk din' (off / bSize) = b
          rw [img2_def, wsect_disk, newMap, if_pos rfl]
        · rename_i notX
          simp only [Function.update_self]
          have is := (claim.newBlocks b late hi).resolve_left notX
          refine ⟨trivial, by have := ext.freeblock_pos; omega, is.symm⟩
    · simp only [stepOwner, show ¬ (img.freeblock ≤ b ∧ b < img1.freeblock) by omega, if_false]
      obtain ⟨positive, inRange, ref⟩ := built.covered b lo (by omega)
      refine ⟨positive, inRange, ?_⟩
      by_cases here : (owner b).1 = k + 1
      · rw [here, Function.update_self]
        rw [here, isOpen] at ref
        obtain ⟨valid, nonzero, named⟩ := ref
        revert valid named
        cases (owner b).2 with
        | data bn =>
            intro valid named
            change blockAt img.disk din bn = b at named
            refine ⟨valid, nonzero, ?_⟩
            change blockAt img2.disk din' bn = b
            rw [img2_def, wsect_disk, newMap]
            split
            · rename_i atFbn
              subst atFbn
              have existing := (ext.shaped _ valid).mp (named ▸ nonzero)
              rw [claim.old existing, named]
            · exact named
        | indirect =>
            intro valid named
            change din.addr nDirect = b at named
            refine ⟨valid, nonzero, ?_⟩
            change din'.addr nDirect = b
            rcases claim.indirect with keep | ⟨absent, _⟩
            · rw [keep, named]
            · exact absurd (named ▸ absent) nonzero
      · rw [views _ (by omega) here]
        exact (refAt_of_agree (agree _ positive inRange here) _ b).mpr ref

end Step

section Loop

theorem appendLoop_done {img : Image} {din : Dinode} {off : Nat} {p : List UInt8}
    (empty : p.length = 0) : appendLoop img din off p = .ok (din, off, img) := by
  rw [appendLoop, dif_neg (by omega)]

theorem appendLoop_step {img : Image} {din : Dinode} {off : Nat} {p : List UInt8} (pos : 0 < p.length)
    (inFile : off / bSize < maxFile) {x : Nat} {din' : Dinode} {img1 : Image}
    (appended : appendBlock img din (off / bSize) = .ok (x, din', img1)) (inside : x < img1.len) :
    appendLoop img din off p =
      appendLoop (wsect img1 x (chunk img1 x off (min p.length ((off / bSize + 1) * bSize - off)) p))
        din' (off + min p.length ((off / bSize + 1) * bSize - off))
        (p.drop (min p.length ((off / bSize + 1) * bSize - off))) := by
  rw [appendLoop, dif_pos pos, if_pos inFile]
  simp [appended, rsect_of_lt inside, bind, Except.bind, chunk]

theorem set_getElem_eq {α : Type} {l : List α} {k : Nat} {a : α} (hk : k < l.length) (entry : l[k] = a) :
    l.set k a = l := by
  rw [← entry, List.set_getElem_self]

theorem appendLoop_built (p : List UInt8) {img : Image} {din : Dinode}
    {files : List (Int16 × List UInt8)} {owner : Nat → Nat × Slot} {k : Nat} {t : Int16}
    {bs : List UInt8}
    (built : Built img (Function.update (diskInode img) (k + 1) { din with size := bs.length }) files owner)
    (hk : k < files.length) (entry : files[k] = (t, bs)) (fits : din.Fits)
    (bound : bs.length + p.length ≤ maxFile * bSize)
    (room : img.freeblock + (fileBlocks (bs.length + p.length) - fileBlocks bs.length) ≤ fsSize) :
    ∃ din' img' owner', appendLoop img din bs.length p = .ok (din', bs.length + p.length, img') ∧
      din'.Fits ∧
      Built img' (Function.update (diskInode img') (k + 1) { din' with size := bs.length + p.length })
        (files.set k (t, bs ++ p)) owner' := by
  by_cases empty : p.length = 0
  · have nil : p = [] := List.eq_nil_of_length_eq_zero empty
    subst nil
    refine ⟨din, img, owner, appendLoop_done rfl, fits, ?_⟩
    simpa [set_getElem_eq hk entry] using built
  · -- one pass, then the rest of `p` from the new offset
    set off := bs.length with off_def
    have pos : 0 < p.length := by omega
    have inFile : off / bSize < maxFile := by
      apply Nat.div_lt_of_lt_mul
      rw [Nat.mul_comm]
      omega
    have ext := built.extending hk (Function.update_self _ _ _) (by rw [entry]) fits
    have roomStep : img.freeblock + (fileBlocks (off + 1) - fileBlocks off) ≤ fsSize := by
      have := fileBlocks_mono (show off + 1 ≤ off + p.length by omega)
      have := fileBlocks_mono (show off ≤ off + 1 by omega)
      omega
    obtain ⟨x, din1, img1, appended, claim⟩ := appendBlock_claim ext roomStep inFile
    set n1 := min p.length ((off / bSize + 1) * bSize - off) with n1_def
    have step := append_step_pos off p.length pos
    have within : off + n1 ≤ (off / bSize + 1) * bSize := by
      have := Nat.lt_div_mul_add (a := off) (show 0 < bSize by decide)
      omega
    have grown := fileBlocks_within (show 0 < n1 by omega) within
    have room1 : img1.freeblock ≤ fsSize := by
      have := claim.grow
      omega
    have built1 := built.step hk entry rfl fits claim (by omega) (Nat.min_le_left _ _) within
      (by omega) room1
    have inside : x < img1.len := by
      have := claim.len
      have := ext.len
      by_cases existing : off / bSize * bSize < off
      · have present := (ext.shaped _ inFile).mpr existing
        rw [← claim.old existing] at present
        have := ext.below _ inFile
        rw [← claim.old existing] at this
        have := claim.grow
        omega
      · have := (claim.new (by have := Nat.div_mul_le_self off bSize; omega)).2
        omega
    have hk1 : k < (files.set k (t, bs ++ p.take n1)).length := by simpa using hk
    have entry1 : (files.set k (t, bs ++ p.take n1))[k] = (t, bs ++ p.take n1) := by simp
    have length1 : (bs ++ p.take n1).length = off + n1 := by
      have le : n1 ≤ p.length := Nat.min_le_left _ _
      simp [off_def, le]
    rw [← length1] at built1
    obtain ⟨din', img', owner', loop, fits', built'⟩ :=
      appendLoop_built (p.drop n1) built1 hk1 entry1 claim.fits
        (by simp only [length1, List.length_drop]; omega)
        (by
          simp only [length1, List.length_drop, wsect_freeblock]
          have := claim.grow
          rw [show off + n1 + (p.length - n1) = off + p.length by omega, grown]
          have := fileBlocks_mono (show off + 1 ≤ off + p.length by omega)
          have := fileBlocks_mono (show off ≤ off + 1 by omega)
          omega)
    have total : (bs ++ p.take n1).length + (p.drop n1).length = off + p.length := by
      simp only [length1, List.length_drop]
      omega
    refine ⟨din', img', owner', ?_, fits', ?_⟩
    · rw [appendLoop_step pos inFile appended inside, ← n1_def, ← length1, loop, total]
    · rw [total] at built'
      simpa [List.set_set, List.append_assoc, List.take_append_drop] using built'
termination_by p.length
decreasing_by
  have := append_step_pos bs.length p.length (by omega)
  simp only [List.length_drop]
  omega

end Loop

end Built

end Xv6.Mkfs
