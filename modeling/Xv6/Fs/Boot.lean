import Mathlib
import Xv6.Fs.MkfsRun
import Xv6.Fs.Inodes

/-!
The kernel booted on an image `mkfs` made. `fsinit` finds `mkfs`'s superblock
and an empty log, so `ilock` loads every inode `mkfs` stored and `readi`
returns every file's bytes without allocating, except where `mkfs`'s last two
steps changed the image: the root's size is rounded to the start of the block
after its last one, and inodes `208 .. 223` are read from the bitmap block
that `balloc` wrote over them.
-/

namespace Xv6.Mkfs

open Bytes Fs Scan

section Bitmap

/-- The low `j` bits of a byte. -/
def lowBits (j : Nat) : UInt8 := (2 ^ j - 1).toUInt8

/-- Bits below `8 * k` leave byte `k` alone. -/
theorem markUsed_of_le (buf : Mem) {n k : Nat} (before : n ≤ 8 * k) : markUsed buf n k = buf k := by
  induction n with
  | zero => rfl
  | succ n ih => rw [markUsed, setBit_apply_of_ne _ _ _ (by omega), ih (by omega)]

theorem lowBits_succ : ∀ j < 8, lowBits j ||| 1 <<< j.toUInt8 = lowBits (j + 1) := by decide

theorem markUsed_partial (buf : Mem) (k : Nat) {j : Nat} (le : j ≤ 8) :
    markUsed buf (8 * k + j) k = buf k ||| lowBits j := by
  induction j with
  | zero =>
      rw [Nat.add_zero, markUsed_of_le buf (le_refl _)]
      simp [lowBits]
  | succ j ih =>
      have sameByte : k = (8 * k + j) / 8 := by omega
      have offset : (8 * k + j) % 8 = j := by omega
      rw [← Nat.add_assoc, markUsed]
      simp only [setBit, if_pos sameByte, ih (by omega), mask, offset, UInt8.or_assoc,
        lowBits_succ j (by omega)]

theorem markUsed_of_ge (buf : Mem) {n k : Nat} (past : 8 * k + 8 ≤ n) :
    markUsed buf n k = buf k ||| 255 := by
  induction n, past using Nat.le_induction with
  | base => exact markUsed_partial buf k (le_refl 8)
  | succ n past ih => rw [markUsed, setBit_apply_of_ne _ _ _ (by omega), ih]

theorem bit_zeroes (i : Nat) : bit zeroes i = false := by
  simp [bit, zeroes]

theorem bit_markUsed (buf : Mem) (n i : Nat) : bit (markUsed buf n) i = (bit buf i || decide (i < n)) := by
  induction n with
  | zero => simp [markUsed]
  | succ n ih =>
      rw [markUsed, bit_setBit, ih, Bool.or_assoc]
      congr 1
      by_cases here : n = i
      · simp [here]
      · simp only [here, decide_false, Bool.or_false]
        congr 1
        apply propext
        omega

theorem isFree_eq_not_bit (bp : Mem) (bi : Nat) : isFree bp bi = !bit bp bi := by
  cases used : bit bp bi with
  | true => exact (isFree_eq_false_iff bp bi).mpr used
  | false =>
      cases free : isFree bp bi with
      | true => rfl
      | false => simp [(isFree_eq_false_iff bp bi).mp free] at used

theorem firstFrom_markUsed {used hi : Nat} (below : used < hi) :
    firstFrom (isFree (markUsed zeroes used)) hi 0 = some used := by
  apply firstFrom_eq_some (Nat.zero_le used) below
  · simp [isFree_eq_not_bit, bit_markUsed, bit_zeroes]
  · intro j _ before
    simp [isFree_eq_not_bit, bit_markUsed, bit_zeroes, before]

theorem readLE_markUsed_full {used off w : Nat} (past : 8 * (off + w) ≤ used) :
    readLE (markUsed zeroes used) off w = 256 ^ w - 1 :=
  readLE_full fun i _ upper => by
    rw [markUsed_of_ge zeroes (by omega)]
    show (0 : UInt8) ||| 255 = 255
    decide

theorem readLE_markUsed_clear {used off w : Nat} (before : used ≤ 8 * off) :
    readLE (markUsed zeroes used) off w = 0 := by
  have same : readLE (markUsed zeroes used) off w = readLE zeroes off w :=
    readLE_congr fun i lower _ => markUsed_of_le zeroes (by omega)
  rw [same]
  exact readLE_zero_mem off w

/-! The `struct dinode` at the start of the bitmap block, as the kernel
reads inode `208` from it: its fields are runs of set bits, then zeroes. -/

theorem bitmapDinode_type {used : Nat} (past : 16 ≤ used) :
    (Dinode.read (markUsed zeroes used) 0).type = -1 := by
  show (readLE _ 0 2).toInt16 = -1
  rw [readLE_markUsed_full (by omega)]
  decide

theorem bitmapDinode_nlink {used : Nat} (past : 64 ≤ used) :
    (Dinode.read (markUsed zeroes used) 0).nlink = -1 := by
  show (readLE _ (0 + 6) 2).toInt16 = -1
  rw [readLE_markUsed_full (by omega)]
  decide

theorem bitmapDinode_size {used : Nat} (before : used ≤ 64) :
    (Dinode.read (markUsed zeroes used) 0).size = 0 :=
  readLE_markUsed_clear (by omega)

theorem bitmapDinode_addr {used i : Nat} (direct : i < nDirect + 1) (past : 8 * (16 + 4 * i) ≤ used) :
    (Dinode.read (markUsed zeroes used) 0).addr i = 2 ^ 32 - 1 := by
  simp only [Dinode.addr, direct, dite_true, Dinode.read, Vector.getElem_ofFn]
  rw [readLE_markUsed_full (by omega)]
  rfl

theorem bitmapDinode_addr_last {used i : Nat} (direct : i < nDirect + 1) (last : used = 8 * (12 + 4 * i) + 1) :
    (Dinode.read (markUsed zeroes used) 0).addr i = 1 := by
  simp only [Dinode.addr, direct, dite_true, Dinode.read, Vector.getElem_ofFn]
  have first : markUsed zeroes used (0 + 12 + 4 * i) = 1 := by
    rw [last, show 0 + 12 + 4 * i = 12 + 4 * i by omega, markUsed_partial zeroes _ (by decide)]
    show (0 : UInt8) ||| lowBits 1 = 1
    decide
  rw [readLE, first, readLE_markUsed_clear (by omega)]
  rfl

end Bitmap

section Booted

variable {img : Image} {fs : State}

theorem sb_fits : sb.Fits := by
  unfold Superblock.Fits
  decide

/-- What `fsinit` leaves on an image that holds `mkfs`'s superblock and an
empty log header: that superblock, every block but the header as on the
image, and an empty log with no operation running. -/
structure Booted (img : Image) (fs : State) : Prop where
  super : fs.sb = sb
  blocks : ∀ b, b ≠ sb.logstart → fs.blocks b = img.disk b
  idle : fs.log.outstanding = 0
  empty : fs.log.lh.n = 0
  size : fs.log.size = logSize

theorem fsinit_booted (super : img.disk 1 = Superblock.write zeroes sb)
    (head : img.disk sb.logstart = zeroes) : ∃ fs, fsinit img.disk = .ok fs ∧ Booted img fs := by
  have read : readsb img.disk = sb := by rw [readsb, super, Superblock.read_write _ _ sb_fits]
  have clean : (Logging.readHead sb.logstart img.disk).n = 0 := by
    simp [Logging.readHead, head, Logging.readInt, zeroes_eq]
  -- with nothing logged, recovery rewrites the header block and nothing else
  have recovered : ∀ b, b ≠ sb.logstart →
      BlockDev.apply img.disk (Logging.recoverFromLog sb.logstart img.disk) b = img.disk b := by
    intro b other
    apply BlockDev.apply_of_unwritten
    simp only [Logging.recoverFromLog, clean, List.range_zero, Logging.installTrans, List.nil_append,
      Logging.writeHead, List.mem_singleton, forall_eq]
    exact Ne.symm other
  have booted : fsinit img.disk = .ok
      { blocks := BlockDev.apply img.disk (Logging.recoverFromLog sb.logstart img.disk), sb,
        log := { start := sb.logstart, size := sb.nlog, outstanding := 0, committing := false,
                 lh := { Logging.readHead sb.logstart img.disk with n := 0 } } } := by
    rw [fsinit]
    simp only [read]
    rfl
  exact ⟨_, booted, ⟨rfl, recovered, rfl, rfl, rfl⟩⟩

/-- The inode `ilock` loads on a booted image is the one stored there. -/
theorem Booted.ilock_eq (booted : Booted img fs) (i : Nat) (din : Dinode) :
    ilock fs ⟨i, 1, false, din⟩ =
      if (diskInode img i).type = 0 then .error "ilock: no type" else .ok ⟨i, 1, true, diskInode img i⟩ := by
  have notHeader : iblock sb i ≠ sb.logstart := by
    have := iblock_ge i
    simp only [sb] at this ⊢
    omega
  simp only [Fs.ilock, Nat.lt_irrefl, if_false, Bool.false_eq_true, booted.super,
    booted.blocks _ notHeader, diskInode]
  rfl

end Booted

section Reads

variable {fs : State} {ip : Inode} {d : Dinode} {t : Int16} {bytes : List UInt8}

theorem blockAt_of_addrs (disk : Disk) {d' : Dinode} (same : d'.addrs = d.addrs) (bn : Nat) :
    blockAt disk d' bn = blockAt disk d bn := by
  unfold blockAt Dinode.addr
  rw [same]

theorem Holds.fileBytes (holds : Holds fs.blocks d t bytes) (same : ip.din.addrs = d.addrs) {off m : Nat}
    (inside : off + m ≤ bytes.length) : fileBytes fs.blocks ip.din off m = (bytes.drop off).take m := by
  apply List.ext_getElem
  · simp [Fs.fileBytes]
    omega
  · intro i lower _
    simp only [Fs.fileBytes, List.length_map, List.length_range] at lower
    have moved : fileByte fs.blocks ip.din (off + i) = fileByte fs.blocks d (off + i) := by
      simp only [fileByte, blockAt_of_addrs _ same]
    simp only [Fs.fileBytes, List.getElem_map, List.getElem_range, List.getElem_take, List.getElem_drop]
    rw [moved, holds.content _ (by omega), List.getD_eq_getElem _ _ (by omega)]

theorem Holds.readi (holds : Holds fs.blocks d t bytes) (same : ip.din.addrs = d.addrs) {off m : Nat}
    (inside : off + m ≤ bytes.length) (sized : bytes.length ≤ ip.din.size) (dst : Nat) :
    Fs.readi (fun _ _ => true) fs ip dst off m = .ok (m, (bytes.drop off).take m, ip, fs) := by
  have bound := holds.bound
  have small := maxFile_mul_bSize_lt
  have count : min m (ip.din.size - off) = m := by omega
  have present : Present fs.blocks ip.din off m := fun p _ upper => by
    rw [blockAt_of_addrs _ same]
    exact holds.present (by omega)
  rw [readi_present dst off m (by omega) (by omega) (by rw [count]; exact present), count,
    holds.fileBytes same inside]
  simp only [Except.ok.injEq, Prod.mk.injEq, and_true]
  omega

end Reads

section Made

variable {img img' : Image} {es : List (Int16 × List UInt8)} {owner : Nat → Nat × Slot} {fs : State}

theorem Finished.super (built : Built img (diskInode img) es owner) (done : Finished img img') :
    img'.disk 1 = Superblock.write zeroes sb := by
  rw [done.blocks 1 (by decide) (by decide), built.super]

theorem Finished.head (built : Built img (diskInode img) es owner) (done : Finished img img') :
    img'.disk sb.logstart = zeroes := by
  rw [done.blocks _ (by decide) (by decide), built.boot _ (by decide) (by decide)]

theorem Booted.agree (built : Built img (diskInode img) es owner) (done : Finished img img')
    (booted : Booted img' fs) {i : Nat} (positive : 0 < i) (inRange : i ≤ es.length) :
    AgreeOn img.disk fs.blocks (diskInode img i) := by
  intro s b ref
  have data := (built.owned i s b positive inRange ref).1
  rw [nMeta_eq] at data
  rw [booted.blocks b (by rw [show sb.logstart = 2 from rfl]; omega),
    done.blocks b (by rw [show iblock sb rootIno = 32 from rfl]; omega) (by rw [sb_bmapstart]; omega)]

theorem Booted.ilock_bitmap (done : Finished img img') (booted : Booted img' fs) {i : Nat} (inBitmap : iblock sb i = sb.bmapstart) (din : Dinode) :
    Fs.ilock fs ⟨i, 1, false, din⟩ =
      let d := Dinode.read (markUsed zeroes img.freeblock) (dinodeOffset i)
      if d.type = 0 then .error "ilock: no type" else .ok ⟨i, 1, true, d⟩ := by
  rw [booted.ilock_eq, diskInode, inBitmap, done.bitmap]

end Made

end Xv6.Mkfs
