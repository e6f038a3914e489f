import Mathlib
import Xv6.Fs.Boot

/-!
What the kernel finds on the image `mkfs` makes of a list of input files.
Up to 206 files, it finds each file under the inode `mkfs` gave it, of the
file's type and size, and reads back the file's bytes (`mkfs_boot_files`).
Two steps of `mkfs` break this: when the root's entries end on a block
boundary its size claims a block it does not have, and a read there outside
a transaction panics (`mkfs_root_hole`); and with 207 files or more, inode
208 on lies in the bitmap block, so the kernel reads it from the bitmap's
bits (`mkfs_bitmap_inode`). The input lists named `inputs` make each case
concrete.
-/

namespace Xv6.Mkfs

open Bytes Fs Scan

section Inputs

/-- Two lowercase letters naming input file `k`, for `k < 676`. -/
def fileName (k : Nat) : List UInt8 := [(0x61 + k / 26).toUInt8, (0x61 + k % 26).toUInt8]

/-- `n` input files named by `fileName`, file `k` holding `content k`. -/
def inputs (n : Nat) (content : Nat → List UInt8) : List (List UInt8 × List UInt8) :=
  (List.range n).map fun k => (fileName k, content k)

/-- A path of fewer than five bytes with no `/` and no leading `_` is its own
short name. -/
theorem shortName_of_plain {path : List UInt8} (short : path.length < 5) (noSlash : slash ∉ path)
    (noUnderscore : path.head? ≠ some underscore) (fits : path.length ≤ dirSiz) :
    shortName path = .ok path := by
  have whole : path.take 5 = path := List.take_of_length_le (by omega)
  have notUser : path ≠ userPrefix := fun same => by
    rw [same] at short
    exact absurd short (by decide)
  simp [shortName, whole, notUser, noSlash, noUnderscore, fits, pure, Except.pure]

theorem shortName_fileName {k : Nat} (small : k < 676) : shortName (fileName k) = .ok (fileName k) := by
  have first : (0x61 + k / 26) % 256 = 0x61 + k / 26 := Nat.mod_eq_of_lt (by omega)
  have second : (0x61 + k % 26) % 256 = 0x61 + k % 26 := Nat.mod_eq_of_lt (by omega)
  apply shortName_of_plain (by simp [fileName])
  · simp only [fileName, List.mem_cons, List.not_mem_nil, or_false, slash, not_or]
    constructor <;> (intro same; have := congrArg UInt8.toNat same; simp at this; omega)
  · simp only [fileName, List.head?_cons, ne_eq, Option.some.injEq, underscore]
    intro same
    have := congrArg UInt8.toNat same
    simp at this
    omega
  · simp [fileName, dirSiz]

theorem inputs_named {n : Nat} (content : Nat → List UInt8) (small : n ≤ 676) :
    List.Forall₂ (fun file name => shortName file.1 = .ok name) (inputs n content)
      ((List.range n).map fileName) := by
  rw [inputs, List.forall₂_map_left_iff, List.forall₂_map_right_iff, List.forall₂_same]
  intro k member
  exact shortName_fileName (by simp at member; omega)

theorem fileName_injective {k j : Nat} (hk : k < 676) (hj : j < 676) (same : fileName k = fileName j) :
    k = j := by
  simp only [fileName, List.cons.injEq, and_true] at same
  have high := congrArg UInt8.toNat same.1
  have low := congrArg UInt8.toNat same.2
  simp at high low
  omega

theorem inputs_distinct {n : Nat} (content : Nat → List UInt8) (small : n ≤ 676) :
    ((inputs n content).map Prod.fst).Nodup := by
  rw [inputs, List.map_map]
  apply List.Nodup.map_on _ List.nodup_range
  intro k member j member' same
  exact fileName_injective (by simp at member; omega) (by simp at member'; omega) same

theorem inputs_dataBound {n : Nat} {content : Nat → List UInt8}
    (bound : ∀ k, (content k).length ≤ maxFile * bSize) :
    ∀ file ∈ inputs n content, file.2.length ≤ maxFile * bSize := by
  intro file member
  obtain ⟨k, _, rfl⟩ := List.mem_map.mp member
  exact bound k

theorem inputs_length (n : Nat) (content : Nat → List UInt8) : (inputs n content).length = n := by
  simp [inputs]

theorem inputs_blocks (n : Nat) (content : Nat → List UInt8) :
    ((inputs n content).map fun file => fileBlocks file.2.length).sum =
      ((List.range n).map fun k => fileBlocks (content k).length).sum := by
  rw [inputs, List.map_map]
  rfl

end Inputs

section Kernel

variable {files : List (List UInt8 × List UInt8)} {names : List (List UInt8)} {img img' : Image}
  {owner : Nat → Nat × Slot} {fs : State}

theorem mkfs_booted (named : List.Forall₂ (fun file name => shortName file.1 = .ok name) files names)
    (slots : files.length + 2 < inodeSlots) (dataBound : ∀ file ∈ files, file.2.length ≤ maxFile * bSize)
    (room : nMeta + fileBlocks (rootDir names).length +
      (files.map fun file => fileBlocks file.2.length).sum ≤ fsSize) :
    ∃ img owner img' fs, Built img (diskInode img) (entries names files) owner ∧ mkfs files = .ok img' ∧
      Finished img img' ∧ fsinit img'.disk = .ok fs ∧ Booted img' fs := by
  obtain ⟨img, owner, img', built, made, done⟩ := mkfs_run files names named slots dataBound room
  obtain ⟨fs, init, booted⟩ := fsinit_booted (done.super built) (done.head built)
  exact ⟨img, owner, img', fs, built, made, done, init, booted⟩

theorem Booted.file (built : Built img (diskInode img) (entries names files) owner)
    (done : Finished img img') (booted : Booted img' fs) {k : Nat} (hk : k < files.length)
    (low : k + 2 < 208) (din : Dinode) :
    Fs.ilock fs ⟨k + 2, 1, false, din⟩ = .ok ⟨k + 2, 1, true, diskInode img (k + 2)⟩ ∧
      Holds fs.blocks (diskInode img (k + 2)) tFile files[k].2 := by
  have holds := built.holds (k + 1) (by simp [entries]; omega)
  simp only [entries, List.getElem_cons_succ, List.getElem_map] at holds
  have kept : diskInode img' (k + 2) = diskInode img (k + 2) := by
    apply done.inodes (k + 2) (by simp [rootIno])
    simp only [iblock, sb_inodestart, sb_bmapstart, show ipb = 16 from rfl]
    omega
  refine ⟨?_, holds.of_agree (booted.agree built done (by omega) (by simp [entries]; omega))⟩
  rw [booted.ilock_eq, kept, holds.type, if_neg (by decide)]

theorem Booted.root (built : Built img (diskInode img) (entries names files) owner)
    (done : Finished img img') (booted : Booted img' fs) (din : Dinode) :
    Fs.ilock fs ⟨rootIno, 1, false, din⟩ = .ok ⟨rootIno, 1, true,
      { diskInode img rootIno with size := ((rootDir names).length / bSize + 1) * bSize }⟩ ∧
      Holds fs.blocks (diskInode img rootIno) tDir (rootDir names) := by
  have holds : Holds img.disk (diskInode img 1) tDir (rootDir names) := by
    simpa [entries] using built.holds 0 (by simp [entries])
  change Holds img.disk (diskInode img rootIno) tDir (rootDir names) at holds
  refine ⟨?_, holds.of_agree (booted.agree built done (by decide) (by simp [entries, rootIno]))⟩
  have typed : (diskInode img rootIno).type ≠ 0 := by
    rw [holds.type]
    decide
  rw [booted.ilock_eq, done.root, ← holds.size, if_neg typed]

theorem rootDir_length (names : List (List UInt8)) :
    (rootDir names).length = direntSize + direntSize + direntSize * names.length := by
  simp only [rootDir, List.length_append, dirent_length, fileDirents_length]

theorem fileDirents_entry (inum : Nat) {names : List (List UInt8)} {k : Nat} (hk : k < names.length) :
    ((fileDirents inum names).drop (direntSize * k)).take direntSize = dirent (inum + k) names[k] := by
  induction names generalizing inum k with
  | nil => simp at hk
  | cons name names ih =>
      cases k with
      | zero => simp [fileDirents, List.take_left' (dirent_length inum name)]
      | succ k =>
          have shift : direntSize * (k + 1) - (dirent inum name).length = direntSize * k := by
            rw [dirent_length, Nat.mul_succ, Nat.add_sub_cancel]
          rw [fileDirents, List.drop_append, shift, List.drop_eq_nil_of_le (by rw [dirent_length, Nat.mul_succ]; omega),
            List.nil_append, ih (inum + 1) (by simpa using hk)]
          simp [Nat.add_assoc, Nat.add_comm 1 k]

theorem rootDir_entry {names : List (List UInt8)} {k : Nat} (hk : k < names.length) :
    ((rootDir names).drop (direntSize * (k + 2))).take direntSize = dirent (k + 2) names[k] := by
  have shift : direntSize * (k + 2) - (dirent rootIno dot ++ dirent rootIno dotdot).length = direntSize * k := by
    simp only [List.length_append, dirent_length]
    rw [Nat.mul_add]
    omega
  have past : (dirent rootIno dot ++ dirent rootIno dotdot).length ≤ direntSize * (k + 2) := by
    simp only [List.length_append, dirent_length]
    rw [Nat.mul_add]
    omega
  rw [rootDir, List.drop_append, shift, List.drop_eq_nil_of_le past, List.nil_append,
    fileDirents_entry 2 hk, Nat.add_comm 2 k]

theorem Built.freeblock_entries (built : Built img (diskInode img) (entries names files) owner) :
    img.freeblock = nMeta + fileBlocks (rootDir names).length +
      (files.map fun file => fileBlocks file.2.length).sum := by
  rw [built.freeblock_eq, List.map_map]
  rfl

/-- For at most 206 input files, the kernel booted on `mkfs`'s image loads
every file from the inode `mkfs` gave it, typed `T_FILE` and of the file's
length, and `readi` returns the file's bytes without allocating or logging. -/
theorem mkfs_boot_files (named : List.Forall₂ (fun file name => shortName file.1 = .ok name) files names)
    (few : files.length ≤ 206) (dataBound : ∀ file ∈ files, file.2.length ≤ maxFile * bSize)
    (room : nMeta + fileBlocks (rootDir names).length +
      (files.map fun file => fileBlocks file.2.length).sum ≤ fsSize) :
    ∃ img fs, mkfs files = .ok img ∧ fsinit img.disk = .ok fs ∧
      ∀ k (hk : k < files.length) (din : Dinode), ∃ ip, Fs.ilock fs ⟨k + 2, 1, false, din⟩ = .ok ip ∧
        ip.din.type = tFile ∧ ip.din.size = files[k].2.length ∧
        ∀ dst, Fs.readi (fun _ _ => true) fs ip dst 0 files[k].2.length =
          .ok (files[k].2.length, files[k].2, ip, fs) := by
  obtain ⟨img, owner, img', fs, built, made, done, init, booted⟩ :=
    mkfs_booted named (by rw [show inodeSlots = 224 from rfl]; omega) dataBound room
  refine ⟨img', fs, made, init, fun k hk din => ?_⟩
  obtain ⟨loaded, holds⟩ := booted.file built done hk (by omega) din
  refine ⟨_, loaded, holds.type, holds.size, fun dst => ?_⟩
  rw [holds.readi rfl (by simp) holds.size.ge dst, List.drop_zero, List.take_length]

theorem mkfs_boot_files_three :
    List.Forall₂ (fun file name => shortName file.1 = .ok name) (inputs 3 fun _ => [0x78])
        ((List.range 3).map fileName) ∧
      (inputs 3 fun _ => [0x78]).length ≤ 206 ∧
      (∀ file ∈ inputs 3 (fun _ => [0x78]), file.2.length ≤ maxFile * bSize) ∧
      nMeta + fileBlocks (rootDir ((List.range 3).map fileName)).length +
        ((inputs 3 fun _ => [0x78]).map fun file => fileBlocks file.2.length).sum ≤ fsSize ∧
      ∃ img fs, mkfs (inputs 3 fun _ => [0x78]) = .ok img ∧ fsinit img.disk = .ok fs ∧
        ∀ k (hk : k < (inputs 3 fun _ => [0x78]).length) (din : Dinode), ∃ ip,
          Fs.ilock fs ⟨k + 2, 1, false, din⟩ = .ok ip ∧ ip.din.type = tFile ∧
          ip.din.size = (inputs 3 fun _ => [0x78])[k].2.length ∧
          ∀ dst, Fs.readi (fun _ _ => true) fs ip dst 0 (inputs 3 fun _ => [0x78])[k].2.length =
            .ok ((inputs 3 fun _ => [0x78])[k].2.length, (inputs 3 fun _ => [0x78])[k].2, ip, fs) := by
  have named := inputs_named (n := 3) (fun _ => [0x78]) (by decide)
  have few : (inputs 3 fun _ => [0x78]).length ≤ 206 := by
    rw [inputs_length]
    decide
  have bound := @inputs_dataBound 3 (fun _ => [0x78]) (fun _ => by decide)
  have room : nMeta + fileBlocks (rootDir ((List.range 3).map fileName)).length +
      ((inputs 3 fun _ => [0x78]).map fun file => fileBlocks file.2.length).sum ≤ fsSize := by
    rw [rootDir_length, inputs_blocks]
    decide
  exact ⟨named, few, bound, room, mkfs_boot_files named few bound room⟩

/-- When the root's entries fill whole blocks, `main`'s size fix-up claims a
block the root does not have; `readi` there, outside a transaction as in
`read()`, sends `bmap` to `balloc`, whose `log_write` panics. -/
theorem mkfs_root_hole (named : List.Forall₂ (fun file name => shortName file.1 = .ok name) files names)
    (slots : files.length + 2 < inodeSlots) (whole : (files.length + 2) % 64 = 0)
    (dataBound : ∀ file ∈ files, file.2.length ≤ maxFile * bSize)
    (spare : nMeta + fileBlocks (rootDir names).length +
      (files.map fun file => fileBlocks file.2.length).sum < fsSize) :
    ∃ img fs, mkfs files = .ok img ∧ fsinit img.disk = .ok fs ∧
      ∀ din, ∃ ip, Fs.ilock fs ⟨rootIno, 1, false, din⟩ = .ok ip ∧
        ip.din.size = (rootDir names).length + bSize ∧
        blockAt fs.blocks ip.din ((rootDir names).length / bSize) = 0 ∧
        ∀ copyout dst, Fs.readi copyout fs ip dst (rootDir names).length direntSize =
          .error "log_write outside of trans" := by
  obtain ⟨img, owner, img', fs, built, made, done, init, booted⟩ :=
    mkfs_booted named slots dataBound spare.le
  refine ⟨img', fs, made, init, fun din => ?_⟩
  obtain ⟨loaded, holds⟩ := booted.root built done din
  have length := rootDir_length names
  have sameLength : files.length = names.length := named.length_eq
  rw [show inodeSlots = 224 from rfl] at slots
  rw [show direntSize = 16 from rfl] at length
  generalize rootEq : ({ diskInode img rootIno with
    size := ((rootDir names).length / bSize + 1) * bSize } : Dinode) = root at loaded
  have sameAddrs : root.addrs = (diskInode img rootIno).addrs := by rw [← rootEq]
  -- the root's bytes end on a block boundary, and the fix-up adds a whole block
  have sized : root.size = (rootDir names).length + bSize := by
    rw [← rootEq, show bSize = 1024 from rfl]
    dsimp only
    omega
  have direct : (rootDir names).length / bSize < nDirect := by
    rw [show bSize = 1024 from rfl, show nDirect = 12 from rfl]
    omega
  -- and the block after the last is not there
  have absent : blockAt fs.blocks root ((rootDir names).length / bSize) = 0 := by
    have last : (rootDir names).length / bSize < maxFile := by
      rw [show bSize = 1024 from rfl, show maxFile = 268 from rfl]
      omega
    have notBefore : ¬ (rootDir names).length / bSize * bSize < (rootDir names).length := by
      rw [show bSize = 1024 from rfl]
      omega
    rw [blockAt_of_addrs _ sameAddrs]
    by_contra present
    exact notBefore ((holds.shaped _ last).mp present)
  refine ⟨⟨rootIno, 1, true, root⟩, loaded, sized, absent, fun copyout dst => ?_⟩
  have addrAbsent : root.addr ((rootDir names).length / bSize) = 0 := by
    rw [← blockAt_of_direct fs.blocks root direct]
    exact absent
  -- `balloc` finds the first block after those `mkfs` used
  have freeFirst : firstFrom (isFree (fs.blocks (bblock fs.sb 0))) fs.sb.size 0 = some img.freeblock := by
    rw [booted.super, show bblock sb 0 = sb.bmapstart from rfl, booted.blocks _ (by decide), done.bitmap]
    apply firstFrom_markUsed
    rw [built.freeblock_entries]
    exact spare
  have panics := balloc_outside_trans (by rw [booted.super]; decide) freeFirst
    (by rw [booted.empty]; decide) (by rw [booted.empty, booted.size]; decide) booted.idle
  have wide : root.size < 2 ^ 32 := by
    rw [sized, show bSize = 1024 from rfl]
    omega
  rw [readi_eq_readLoop copyout dst (by show _ ≤ root.size; omega)
    (by rw [show direntSize = 16 from rfl]; omega)]
  exact readLoop_of_bmap_error copyout dst [] (by
      show 0 < min direntSize (root.size - _)
      rw [sized, Nat.add_sub_cancel_left]
      decide)
    (bmap_of_balloc_error direct addrAbsent panics)

/-- 62 empty files: the root's 64 entries fill its first block exactly, the
fix-up makes its size two blocks, and `read()` of its second block panics. -/
theorem rootHole_read_panics :
    ((inputs 62 fun _ => []).map Prod.fst).Nodup ∧
    ∃ img fs, mkfs (inputs 62 fun _ => []) = .ok img ∧ fsinit img.disk = .ok fs ∧
      ∀ din, ∃ root, Fs.ilock fs ⟨rootIno, 1, false, din⟩ = .ok root ∧ root.din.size = 2048 ∧
        blockAt fs.blocks root.din 1 = 0 ∧
        ∀ copyout dst, Fs.readi copyout fs root dst 1024 direntSize =
          .error "log_write outside of trans" := by
  have length : (rootDir ((List.range 62).map fileName)).length = 1024 := by
    rw [rootDir_length, List.length_map, List.length_range]
    rfl
  have spare : nMeta + fileBlocks (rootDir ((List.range 62).map fileName)).length +
      ((inputs 62 fun _ => []).map fun file => fileBlocks file.2.length).sum < fsSize := by
    rw [inputs_blocks, length]
    simp only [List.length_nil, fileBlocks_zero, List.map_const', List.sum_replicate, smul_eq_mul,
      mul_zero, add_zero]
    decide
  obtain ⟨img, fs, made, init, hole⟩ := mkfs_root_hole (inputs_named (fun _ => []) (by decide))
    (by rw [inputs_length]; decide) (by rw [inputs_length]) (inputs_dataBound fun _ => Nat.zero_le _) spare
  refine ⟨inputs_distinct _ (by decide), img, fs, made, init, fun din => ?_⟩
  obtain ⟨root, loaded, sized, absent, panics⟩ := hole din
  rw [length] at sized absent panics
  exact ⟨root, loaded, sized, absent, panics⟩

/-- With 207 input files the last gets inode 208, stored in the bitmap block.
The kernel finds the root's entry for it naming inode 208, and loads that
inode from the bitmap `mkfs` wrote over it. -/
theorem mkfs_bitmap_inode (named : List.Forall₂ (fun file name => shortName file.1 = .ok name) files names)
    (count : files.length = 207) (dataBound : ∀ file ∈ files, file.2.length ≤ maxFile * bSize)
    (room : nMeta + fileBlocks (rootDir names).length +
      (files.map fun file => fileBlocks file.2.length).sum ≤ fsSize) :
    ∃ img fs, mkfs files = .ok img ∧ fsinit img.disk = .ok fs ∧ fs.sb = sb ∧
      ∀ din din', ∃ root, Fs.ilock fs ⟨rootIno, 1, false, din⟩ = .ok root ∧
        Fs.readi (fun _ _ => true) fs root 0 (direntSize * 208) direntSize =
          .ok (direntSize, dirent 208 (names.getD 206 []), root, fs) ∧
        Fs.ilock fs ⟨208, 1, false, din'⟩ =
          let d := Dinode.read (markUsed zeroes (nMeta + fileBlocks (rootDir names).length +
            (files.map fun file => fileBlocks file.2.length).sum)) 0
          if d.type = 0 then .error "ilock: no type" else .ok ⟨208, 1, true, d⟩ := by
  obtain ⟨img, owner, img', fs, built, made, done, init, booted⟩ :=
    mkfs_booted named (by rw [count]; decide) dataBound room
  refine ⟨img', fs, made, init, booted.super, fun din din' => ?_⟩
  obtain ⟨loaded, holds⟩ := booted.root built done din
  have sameLength : names.length = 207 := named.length_eq ▸ count
  have length := rootDir_length names
  rw [sameLength, show direntSize = 16 from rfl] at length
  refine ⟨_, loaded, ?_, ?_⟩
  · have entry := rootDir_entry (show 206 < names.length by omega)
    rw [List.getD_eq_getElem _ _ (by omega)]
    rw [holds.readi rfl (by rw [length]; decide) (by dsimp only; rw [length]; decide) 0, entry]
  · rw [booted.ilock_bitmap done (by decide), ← built.freeblock_entries]
    rfl

theorem inputs_bitmap_inode (content : Nat → List UInt8) (used : Nat)
    (bound : ∀ k, (content k).length ≤ maxFile * bSize)
    (blocks : 50 + ((List.range 207).map fun k => fileBlocks (content k).length).sum = used)
    (room : used ≤ fsSize) (typed : (Dinode.read (markUsed zeroes used) 0).type ≠ 0) :
    ∃ img fs, mkfs (inputs 207 content) = .ok img ∧ fsinit img.disk = .ok fs ∧ fs.sb = sb ∧
      ∀ din din', ∃ root, Fs.ilock fs ⟨rootIno, 1, false, din⟩ = .ok root ∧
        Fs.readi (fun _ _ => true) fs root 0 (direntSize * 208) direntSize =
          .ok (direntSize, dirent 208 (fileName 206), root, fs) ∧
        Fs.ilock fs ⟨208, 1, false, din'⟩ = .ok ⟨208, 1, true, Dinode.read (markUsed zeroes used) 0⟩ := by
  have metaBlocks : nMeta + fileBlocks (direntSize + direntSize + direntSize * 207) = 50 := by decide
  have total : nMeta + fileBlocks (rootDir ((List.range 207).map fileName)).length +
      ((inputs 207 content).map fun file => fileBlocks file.2.length).sum = used := by
    rw [inputs_blocks, rootDir_length, List.length_map, List.length_range, metaBlocks, blocks]
  obtain ⟨img, fs, made, init, super, boot⟩ := mkfs_bitmap_inode (inputs_named content (by decide))
    (inputs_length 207 content) (inputs_dataBound bound) (by rw [total]; exact room)
  refine ⟨img, fs, made, init, super, fun din din' => ?_⟩
  obtain ⟨root, loaded, entry, bitmap⟩ := boot din din'
  rw [total] at bitmap
  refine ⟨root, loaded, ?_, ?_⟩
  · rw [entry]
    simp
  · rw [bitmap]
    dsimp only
    rw [if_neg typed]

/-- File `k` of the input below: empty before file `206`, one byte from it on. -/
def lastByte (k : Nat) : List UInt8 := if k < 206 then [] else [0x78]

theorem lastByte_blocks : ((List.range 207).map fun k => fileBlocks (lastByte k).length).sum = 1 := by
  rw [List.range_succ, List.map_append, List.sum_append]
  have empty : ∀ k ∈ List.range 206, fileBlocks (lastByte k).length = 0 := by
    intro k member
    simp [lastByte, List.mem_range.mp member]
  rw [List.map_congr_left (g := fun _ => 0) empty, List.map_const', List.sum_replicate, smul_zero,
    zero_add, List.map_singleton, List.sum_singleton]
  decide

/-- 206 empty files and a last file of one byte: the kernel finds the last
file's entry naming inode 208, loads that inode from the bitmap with type
`-1` and size `0`, and reads none of the file's byte. -/
theorem lastFile_reads_nothing :
    ((inputs 207 lastByte).map Prod.fst).Nodup ∧
    ∃ img fs, mkfs (inputs 207 lastByte) = .ok img ∧ fsinit img.disk = .ok fs ∧
      ∀ din din', ∃ root ip, Fs.ilock fs ⟨rootIno, 1, false, din⟩ = .ok root ∧
        Fs.readi (fun _ _ => true) fs root 0 (direntSize * 208) direntSize =
          .ok (direntSize, dirent 208 (fileName 206), root, fs) ∧
        Fs.ilock fs ⟨208, 1, false, din'⟩ = .ok ip ∧ ip.din.type = -1 ∧ ip.din.size = 0 ∧
        Fs.readi (fun _ _ => true) fs ip 0 0 1 = .ok (0, [], ip, fs) := by
  have typed : (Dinode.read (markUsed zeroes 51) 0).type = -1 := bitmapDinode_type (by decide)
  have empty : (Dinode.read (markUsed zeroes 51) 0).size = 0 := bitmapDinode_size (by decide)
  obtain ⟨img, fs, made, init, -, boot⟩ := inputs_bitmap_inode lastByte 51
    (fun k => by unfold lastByte; split <;> decide) (by rw [lastByte_blocks]) (by decide)
    (by rw [typed]; decide)
  refine ⟨inputs_distinct _ (by decide), img, fs, made, init, fun din din' => ?_⟩
  obtain ⟨root, loaded, entry, bitmap⟩ := boot din din'
  exact ⟨root, _, loaded, entry, bitmap, typed, empty, readi_at_end _ 0 empty (by decide)⟩

theorem oneByte_blocks : 50 + ((List.range 207).map fun _ => fileBlocks [(0x78 : UInt8)].length).sum = 257 := by
  simp only [List.map_const', List.sum_replicate, List.length_range, smul_eq_mul]
  decide

/-- 207 files of one byte: the kernel loads the last file's inode, 208, from
the bitmap as an allocated inode whose first block lies past the end of the
disk and whose sixth is the superblock. -/
theorem bitmapInode_blocks_outside_data :
    ((inputs 207 fun _ => [0x78]).map Prod.fst).Nodup ∧
    ∃ img fs, mkfs (inputs 207 fun _ => [0x78]) = .ok img ∧ fsinit img.disk = .ok fs ∧
      ∀ din din', ∃ root ip, Fs.ilock fs ⟨rootIno, 1, false, din⟩ = .ok root ∧
        Fs.readi (fun _ _ => true) fs root 0 (direntSize * 208) direntSize =
          .ok (direntSize, dirent 208 (fileName 206), root, fs) ∧
        Fs.ilock fs ⟨208, 1, false, din'⟩ = .ok ip ∧ ip.din.type ≠ 0 ∧
        fs.sb.size ≤ ip.din.addr 0 ∧ ip.din.addr 5 = 1 := by
  have typed : (Dinode.read (markUsed zeroes 257) 0).type = -1 := bitmapDinode_type (by decide)
  obtain ⟨img, fs, made, init, super, boot⟩ := inputs_bitmap_inode (fun _ => [0x78]) 257
    (fun _ => by decide) oneByte_blocks (by decide) (by rw [typed]; decide)
  refine ⟨inputs_distinct _ (by decide), img, fs, made, init, fun din din' => ?_⟩
  obtain ⟨root, loaded, entry, bitmap⟩ := boot din din'
  refine ⟨root, _, loaded, entry, bitmap, by rw [typed]; decide, ?_, ?_⟩
  · rw [super, bitmapDinode_addr (by decide) (by decide)]
    decide
  · exact bitmapDinode_addr_last (by decide) (by decide)

/-- The same 207 files: inode 208, named by an entry of the root, is loaded
as allocated with link count `-1`. -/
theorem bitmapInode_nlink_negative :
    ((inputs 207 fun _ => [0x78]).map Prod.fst).Nodup ∧
    ∃ img fs, mkfs (inputs 207 fun _ => [0x78]) = .ok img ∧ fsinit img.disk = .ok fs ∧
      ∀ din din', ∃ root ip, Fs.ilock fs ⟨rootIno, 1, false, din⟩ = .ok root ∧
        Fs.readi (fun _ _ => true) fs root 0 (direntSize * 208) direntSize =
          .ok (direntSize, dirent 208 (fileName 206), root, fs) ∧
        Fs.ilock fs ⟨208, 1, false, din'⟩ = .ok ip ∧ ip.din.type ≠ 0 ∧ ip.din.nlink = -1 := by
  have typed : (Dinode.read (markUsed zeroes 257) 0).type = -1 := bitmapDinode_type (by decide)
  obtain ⟨img, fs, made, init, -, boot⟩ := inputs_bitmap_inode (fun _ => [0x78]) 257
    (fun _ => by decide) oneByte_blocks (by decide) (by rw [typed]; decide)
  refine ⟨inputs_distinct _ (by decide), img, fs, made, init, fun din din' => ?_⟩
  obtain ⟨root, loaded, entry, bitmap⟩ := boot din din'
  exact ⟨root, _, loaded, entry, bitmap, by rw [typed]; decide, bitmapDinode_nlink (by decide)⟩

end Kernel

end Xv6.Mkfs
