import Mathlib
import Xv6.Fs.MkfsImage

/-!
`main` of `mkfs` from start to end. Each call it makes (`ialloc`, `iappend`,
the read loop of every input file) keeps `Built` with the view the image
itself stores, so after the loop over the input files inode `1` holds the
root directory and inode `k + 2` the `k`-th file. The last two steps are not
covered by `Built`: the root's size is rounded past its last block, and the
bitmap is written over the block that holds inodes `208 .. 223`.
-/

namespace Xv6.Mkfs

open Bytes Fs

section Meta

variable {img : Image} {view : Nat → Dinode} {files : List (Int16 × List UInt8)}
  {owner : Nat → Nat × Slot}

theorem nMeta_lt_fsSize : nMeta < fsSize := by
  rw [nMeta_eq]
  decide

theorem Built.pastMeta (built : Built img view files owner) : nMeta ≤ img.freeblock := by
  have := built.count
  omega

theorem Built.wsect_meta (built : Built img view files owner) {b : Nat} (buf : Mem)
    (lower : sb.inodestart ≤ b) (upper : b < nMeta) : Built (wsect img b buf) view files owner := by
  have pastMeta := built.pastMeta
  have notSuper : (1 : Nat) ≠ b := by
    rw [sb_inodestart] at lower
    omega
  have agree : ∀ i, 0 < i → i ≤ files.length → AgreeOn img.disk (wsect img b buf).disk (view i) :=
    fun i positive inRange => agreeOn_update b buf fun s ref =>
      absurd (built.owned i s b positive inRange ref).1 (by omega)
  refine ⟨?_, ?_, fun b' below other => ?_, built.freeinode, built.slots, built.count, built.room,
    fun b' late inside => ?_, fun k hk => (built.holds k hk).of_agree (agree _ (by omega) (by omega)),
    built.free, fun i s b' positive inRange ref => ?_, fun b' lower' upper' => ?_⟩
  · have := nMeta_lt_fsSize
    rw [wsect_len_of_lt _ (by rw [built.len]; omega), built.len]
  · rw [wsect_disk, Function.update_of_ne notSuper]
    exact built.super
  · rw [wsect_disk, Function.update_of_ne (by omega)]
    exact built.boot b' below other
  · rw [wsect_freeblock] at late
    rw [wsect_disk, Function.update_of_ne (by omega)]
    exact built.fresh b' late inside
  · rw [refAt_of_agree (agree i positive inRange)] at ref
    exact built.owned i s b' positive inRange ref
  · obtain ⟨positive, inRange, ref⟩ := built.covered b' lower' upper'
    exact ⟨positive, inRange, (refAt_of_agree (agree _ positive inRange) _ _).mpr ref⟩

theorem Built.winode {i : Nat} {d : Dinode}
    (built : Built img (Function.update (diskInode img) i d) files owner) (small : i < inodeSlots)
    (fits : d.Fits) : ∃ img', winode img i d = .ok img' ∧ Built img' (diskInode img') files owner := by
  have inside : iblock sb i < img.len := by
    have := iblock_lt small
    have := nMeta_lt_fsSize
    rw [built.len]
    omega
  refine ⟨_, winode_eq d inside, ?_⟩
  have stored : diskInode (wsect img (iblock sb i)
      (Dinode.write (img.disk (iblock sb i)) (dinodeOffset i) d)) = Function.update (diskInode img) i d := by
    funext j
    rw [diskInode_winode d fits j, Function.update_apply]
  rw [stored]
  exact built.wsect_meta _ (by rw [sb_inodestart]; exact iblock_ge i) (iblock_lt small)

theorem Built.freeblock_set {img' : Image} {view' : Nat → Dinode} {owner' : Nat → Nat × Slot}
    {k : Nat} {t : Int16} {bs bs' : List UInt8} (before : Built img view files owner)
    (after : Built img' view' (files.set k (t, bs')) owner') (hk : k < files.length)
    (entry : files[k] = (t, bs)) :
    img'.freeblock + fileBlocks bs.length = img.freeblock + fileBlocks bs'.length := by
  have sum := sum_map_set (fun f : Int16 × List UInt8 => fileBlocks f.2.length) files (t, bs') hk
  rw [entry] at sum
  rw [before.count, after.count]
  dsimp only at sum
  omega

end Meta

section Inodes

variable {img : Image} {files : List (Int16 × List UInt8)} {owner : Nat → Nat × Slot} {k : Nat}
  {t : Int16} {bs : List UInt8}

theorem maxFile_mul_bSize_lt : maxFile * bSize < 2 ^ 32 := by decide

theorem iappend_built (p : List UInt8) (built : Built img (diskInode img) files owner)
    (hk : k < files.length) (entry : files[k] = (t, bs)) (bound : bs.length + p.length ≤ maxFile * bSize)
    (room : img.freeblock + (fileBlocks (bs.length + p.length) - fileBlocks bs.length) ≤ fsSize) :
    ∃ img' owner', iappend img (k + 1) p = .ok img' ∧
      Built img' (diskInode img') (files.set k (t, bs ++ p)) owner' := by
  have small : k + 1 < inodeSlots := by
    have := built.slots
    omega
  have inside : iblock sb (k + 1) < img.len := by
    have := iblock_lt small
    have := nMeta_lt_fsSize
    rw [built.len]
    omega
  have size : (diskInode img (k + 1)).size = bs.length := by
    have := (built.holds k hk).size
    rw [entry] at this
    exact this
  -- the loop starts from the stored inode, so the view is the stored one
  have opened : Function.update (diskInode img) (k + 1)
      { diskInode img (k + 1) with size := bs.length } = diskInode img := by
    rw [← size]
    exact Function.update_eq_self _ _
  rw [← opened] at built
  obtain ⟨din', img1, owner1, loop, fits', built1⟩ :=
    appendLoop_built p built hk entry (Dinode.read_fits _ _) bound room
  have fits : ({ din' with size := bs.length + p.length } : Dinode).Fits :=
    ⟨by have := maxFile_mul_bSize_lt; dsimp only; omega, fits'.addrs⟩
  obtain ⟨img2, written, built2⟩ := built1.winode small fits
  refine ⟨img2, owner1, ?_, built2⟩
  simp only [iappend, rinode_eq inside, bind, Except.bind, size, loop]
  exact written

theorem appendFile_eq_of_pos {inum : Nat} {data : List UInt8} (pos : 0 < data.length) :
    appendFile img inum data = (do
      let img ← iappend img inum (data.take bSize)
      appendFile img inum (data.drop bSize)) := by
  rw [appendFile, if_pos pos]

theorem appendFile_built (data : List UInt8) {img : Image} {files : List (Int16 × List UInt8)}
    {owner : Nat → Nat × Slot} {k : Nat} {t : Int16} {bs : List UInt8} (built : Built img (diskInode img) files owner)
    (hk : k < files.length) (entry : files[k] = (t, bs))
    (bound : bs.length + data.length ≤ maxFile * bSize)
    (room : img.freeblock + (fileBlocks (bs.length + data.length) - fileBlocks bs.length) ≤ fsSize) :
    ∃ img' owner', appendFile img (k + 1) data = .ok img' ∧
      Built img' (diskInode img') (files.set k (t, bs ++ data)) owner' := by
  by_cases empty : data.length = 0
  · have nil : data = [] := List.eq_nil_of_length_eq_zero empty
    subst nil
    refine ⟨img, owner, by rw [appendFile, if_neg (by decide)], ?_⟩
    simpa [set_getElem_eq hk entry] using built
  · have pos : 0 < data.length := by omega
    have mono := fileBlocks_mono (show bs.length + (data.take bSize).length ≤ bs.length + data.length by
      simp)
    have mono' := fileBlocks_mono (Nat.le_add_right bs.length (data.take bSize).length)
    obtain ⟨img1, owner1, appended, built1⟩ := iappend_built (data.take bSize) built hk entry
      (by simp only [List.length_take]; omega) (by omega)
    have grown := built.freeblock_set built1 hk entry
    have hk1 : k < (files.set k (t, bs ++ data.take bSize)).length := by simpa using hk
    have entry1 : (files.set k (t, bs ++ data.take bSize))[k] = (t, bs ++ data.take bSize) := by simp
    have total : (bs ++ data.take bSize).length + (data.drop bSize).length = bs.length + data.length := by
      simp only [List.length_append, List.length_take, List.length_drop]
      omega
    obtain ⟨img', owner', rest, built'⟩ := appendFile_built (data.drop bSize) built1 hk1 entry1
      (by rw [total]; exact bound)
      (by
        rw [total]
        rw [List.length_append] at grown ⊢
        omega)
    refine ⟨img', owner', ?_, ?_⟩
    · rw [appendFile_eq_of_pos pos]
      simp only [appended, bind, Except.bind]
      exact rest
    · simpa [List.set_set, List.append_assoc, List.take_append_drop] using built'
termination_by data.length
decreasing_by
  simp only [List.length_drop, bSize]
  omega

theorem Dinode.zero_addr (i : Nat) : Dinode.zero.addr i = 0 := by
  unfold Dinode.addr
  split <;> simp [Dinode.zero]

/-- The inode `ialloc` writes: zeroed, with its type and one link. -/
def allocated (type : Int16) : Dinode := { Dinode.zero with type, nlink := 1 }

theorem blockAt_allocated (disk : Disk) (type : Int16) (bn : Nat) :
    blockAt disk (allocated type) bn = 0 := by
  have none : ∀ i, (allocated type).addr i = 0 := Dinode.zero_addr
  unfold blockAt
  simp [none]

theorem not_refAt_allocated (disk : Disk) (type : Int16) (s : Slot) (b : Nat) :
    ¬ RefAt disk (allocated type) s b := by
  rintro ⟨_, nonzero, named⟩
  cases s with
  | data bn => exact nonzero (named ▸ blockAt_allocated disk type bn)
  | indirect => exact nonzero (named ▸ Dinode.zero_addr nDirect)

theorem holds_allocated (disk : Disk) (type : Int16) : Holds disk (allocated type) type [] where
  type := rfl
  major := rfl
  minor := rfl
  nlink := rfl
  size := rfl
  bound := Nat.zero_le _
  fits := ⟨show 0 < 2 ^ 32 by decide,
    fun i _ => by rw [show (allocated type).addr i = 0 from Dinode.zero_addr i]; decide⟩
  shaped bn _ := by simp [blockAt_allocated]
  indirect := by simp [show (allocated type).addr nDirect = 0 from Dinode.zero_addr nDirect]
  content p inside := absurd inside (Nat.not_lt_zero _)

/-- `ialloc` takes inode `freeinode`, the one after the last file. -/
theorem ialloc_built (type : Int16) (built : Built img (diskInode img) files owner)
    (slot : files.length + 1 < inodeSlots) :
    ∃ img', ialloc img type = .ok (files.length + 1, img') ∧
      Built img' (diskInode img') (files ++ [(type, [])]) owner := by
  set n := files.length with n_def
  have view : ∀ i, i ≠ n + 1 →
      Function.update (diskInode img) (n + 1) (allocated type) i = diskInode img i :=
    fun i other => Function.update_of_ne other _ _
  have grown : Built { img with freeinode := img.freeinode + 1 }
      (Function.update (diskInode img) (n + 1) (allocated type)) (files ++ [(type, [])]) owner := by
    refine ⟨built.len, built.super, built.boot, by simp [built.freeinode], by simp; omega,
      by simp [built.count, show fileBlocks 0 = 0 by decide], built.room, built.fresh, fun j hj => ?_, fun i late small => ?_,
      fun i s b positive inRange ref => ?_, fun b lower upper => ?_⟩
    · by_cases old : j < n
      · rw [view _ (by omega), List.getElem_append_left old]
        exact built.holds j old
      · have last : j = n := by simp at hj; omega
        subst last
        have appended : (files ++ [(type, [])])[n] = (type, []) := by simp [n_def]
        rw [Function.update_self, appended]
        exact holds_allocated _ _
    · rw [view _ (by simp at late; omega)]
      exact built.free i (by simp at late; omega) small
    · by_cases new : i = n + 1
      · subst new
        rw [Function.update_self] at ref
        exact absurd ref (not_refAt_allocated _ _ _ _)
      · rw [view _ new] at ref
        exact built.owned i s b positive (by simp at inRange; omega) ref
    · obtain ⟨positive, inRange, ref⟩ := built.covered b lower upper
      refine ⟨positive, by simp; omega, ?_⟩
      rw [view _ (by omega)]
      exact ref
  have fits : (allocated type).Fits := (holds_allocated (fun _ => zeroes) type).fits
  obtain ⟨img', written, built'⟩ := grown.winode slot fits
  refine ⟨img', ?_, built'⟩
  have inum : img.freeinode = n + 1 := built.freeinode
  simp only [ialloc, bind, Except.bind, pure, Except.pure]
  simp only [allocated] at written
  rw [inum] at written ⊢
  rw [written]

theorem Built.freeblock_eq {root : List UInt8} {done : List (Int16 × List UInt8)}
    (built : Built img (diskInode img) ((tDir, root) :: done) owner) :
    img.freeblock = nMeta + fileBlocks root.length + (done.map fun f => fileBlocks f.2.length).sum := by
  simp only [built.count, List.map_cons, List.sum_cons]
  omega

@[simp] theorem fileBlocks_zero : fileBlocks 0 = 0 := by decide

end Inodes

section Files

variable {img : Image} {owner : Nat → Nat × Slot} {root : List UInt8}
  {done : List (Int16 × List UInt8)}

@[simp] theorem dirent_length (inum : Nat) (name : List UInt8) : (dirent inum name).length = direntSize := by
  simp [dirent]

/-- The entries `main` appends to the root directory for files named `names`,
whose inodes are numbered from `inum`. -/
def fileDirents (inum : Nat) : List (List UInt8) → List UInt8
  | [] => []
  | name :: names => dirent inum name ++ fileDirents (inum + 1) names

@[simp] theorem fileDirents_length (inum : Nat) (names : List (List UInt8)) :
    (fileDirents inum names).length = direntSize * names.length := by
  induction names generalizing inum with
  | nil => rfl
  | cons name names ih =>
      rw [fileDirents, List.length_append, ih, dirent_length, List.length_cons]
      ring

/-- One pass of `main`'s loop: inode `done.length + 2` holds the file, and the
root directory names it. -/
theorem addFile_built {path data name : List UInt8}
    (built : Built img (diskInode img) ((tDir, root) :: done) owner) (named : shortName path = .ok name)
    (slot : done.length + 2 < inodeSlots) (rootBound : root.length + direntSize ≤ maxFile * bSize)
    (dataBound : data.length ≤ maxFile * bSize)
    (room : img.freeblock + (fileBlocks (root.length + direntSize) - fileBlocks root.length) +
      fileBlocks data.length ≤ fsSize) :
    ∃ img' owner', addFile rootIno img (path, data) = .ok img' ∧
      Built img' (diskInode img')
        ((tDir, root ++ dirent (done.length + 2) name) :: (done ++ [(tFile, data)])) owner' := by
  have mono := fileBlocks_mono (Nat.le_add_right root.length direntSize)
  have before := built.freeblock_eq
  -- `ialloc` takes no block
  obtain ⟨img1, allocated, built1⟩ := ialloc_built tFile built (by simp; omega)
  simp only [List.cons_append, List.length_cons] at built1 allocated
  have after1 := built1.freeblock_eq
  simp only [List.map_append, List.sum_append, List.map_cons, List.map_nil, List.sum_cons,
    List.sum_nil, List.length_nil, fileBlocks_zero] at after1
  -- the directory entry goes to the root, inode 1
  obtain ⟨img2, owner2, rootAppended, built2⟩ := iappend_built (dirent (done.length + 1 + 1) name)
    built1 (k := 0) (show 0 < ((tDir, root) :: (done ++ [(tFile, [])])).length by simp)
    (show ((tDir, root) :: (done ++ [(tFile, [])]))[0] = (tDir, root) from rfl)
    (by rw [dirent_length]; exact rootBound)
    (by rw [dirent_length]; omega)
  simp only [List.set_cons_zero] at built2
  have after2 := built2.freeblock_eq
  simp only [List.map_append, List.sum_append, List.map_cons, List.map_nil, List.sum_cons,
    List.sum_nil, List.length_nil, fileBlocks_zero, List.length_append, dirent_length] at after2
  -- then the file's bytes go to the new inode
  obtain ⟨img3, owner3, fileAppended, built3⟩ := appendFile_built data built2 (k := done.length + 1)
    (show done.length + 1 < ((tDir, root ++ dirent (done.length + 1 + 1) name) ::
      (done ++ [(tFile, [])])).length by simp)
    (show ((tDir, root ++ dirent (done.length + 1 + 1) name) :: (done ++ [(tFile, [])]))[done.length + 1] =
      (tFile, []) by simp)
    (by simp only [List.length_nil]; omega)
    (by simp only [List.length_nil, fileBlocks_zero, Nat.zero_add]; omega)
  refine ⟨img3, owner3, ?_, ?_⟩
  · simp only [addFile, named, allocated, bind, Except.bind]
    rw [show rootIno = 0 + 1 from rfl, rootAppended]
    exact fileAppended
  · have entries : ((tDir, root ++ dirent (done.length + 1 + 1) name) :: (done ++ [(tFile, [])])).set
        (done.length + 1) (tFile, [] ++ data) =
        (tDir, root ++ dirent (done.length + 2) name) :: (done ++ [(tFile, data)]) := by
      simp [List.set_append_right]
    rw [entries] at built3
    exact built3

theorem files_built {rest : List (List UInt8 × List UInt8)} {names : List (List UInt8)}
    (named : List.Forall₂ (fun file name => shortName file.1 = .ok name) rest names)
    (built : Built img (diskInode img) ((tDir, root) :: done) owner)
    (slots : done.length + rest.length + 1 < inodeSlots)
    (rootBound : root.length + direntSize * rest.length ≤ maxFile * bSize)
    (dataBound : ∀ file ∈ rest, file.2.length ≤ maxFile * bSize)
    (room : img.freeblock + (fileBlocks (root.length + direntSize * rest.length) - fileBlocks root.length) +
      (rest.map fun file => fileBlocks file.2.length).sum ≤ fsSize) :
    ∃ img' owner', rest.foldlM (addFile rootIno) img = .ok img' ∧
      Built img' (diskInode img')
        ((tDir, root ++ fileDirents (done.length + 2) names) ::
          (done ++ rest.map fun file => (tFile, file.2))) owner' := by
  induction named generalizing img owner root done with
  | nil =>
      refine ⟨img, owner, rfl, ?_⟩
      simpa [fileDirents] using built
  | @cons file name rest names first _ ih =>
      simp only [List.length_cons, List.map_cons, List.sum_cons] at slots rootBound room
      have spread : root.length + direntSize * (rest.length + 1) =
          root.length + direntSize + direntSize * rest.length := by ring
      rw [spread] at rootBound room
      have mono := fileBlocks_mono (Nat.le_add_right (root.length + direntSize) (direntSize * rest.length))
      have mono' := fileBlocks_mono (Nat.le_add_right root.length direntSize)
      have before := built.freeblock_eq
      obtain ⟨img1, owner1, added, built1⟩ := addFile_built built first (by omega) (by omega)
        (dataBound file (by simp)) (by omega)
      have after := built1.freeblock_eq
      simp only [List.map_append, List.sum_append, List.map_cons, List.map_nil, List.sum_cons,
        List.sum_nil, List.length_append, dirent_length] at after
      obtain ⟨img', owner', folded, built'⟩ := ih built1 (by simp; omega)
        (by simp only [List.length_append, dirent_length]; omega)
        (fun f member => dataBound f (by simp [member]))
        (by simp only [List.length_append, dirent_length]; omega)
      refine ⟨img', owner', ?_, ?_⟩
      · rw [List.foldlM_cons]
        simp only [added, bind, Except.bind]
        exact folded
      · have entries : (tDir, root ++ dirent (done.length + 2) name ++
            fileDirents ((done ++ [(tFile, file.2)]).length + 2) names) ::
              (done ++ [(tFile, file.2)] ++ rest.map fun file => (tFile, file.2)) =
            (tDir, root ++ fileDirents (done.length + 2) (name :: names)) ::
              (done ++ (file :: rest).map fun file => (tFile, file.2)) := by
          simp [fileDirents, Nat.add_right_comm _ 1 2]
        rw [← entries]
        exact built'

end Files

section Main

theorem zeroSectors_disk (img : Image) (n b : Nat) :
    (zeroSectors img n).disk b = if b < n then zeroes else img.disk b := by
  induction n with
  | zero => rfl
  | succ n ih =>
      rw [zeroSectors, wsect_disk, Function.update_apply, ih]
      by_cases here : b = n
      · rw [if_pos here, if_pos (by omega)]
      · rw [if_neg here]
        by_cases below : b < n
        · rw [if_pos below, if_pos (by omega)]
        · rw [if_neg below, if_neg (by omega)]

theorem zeroSectors_len (img : Image) (n : Nat) : (zeroSectors img n).len = max img.len n := by
  induction n with
  | zero => simp [zeroSectors]
  | succ n ih =>
      simp only [zeroSectors, wsect, ih]
      omega

theorem zeroSectors_freeinode (img : Image) (n : Nat) : (zeroSectors img n).freeinode = img.freeinode := by
  induction n with
  | zero => rfl
  | succ n ih => exact ih

theorem zeroSectors_freeblock (img : Image) (n : Nat) : (zeroSectors img n).freeblock = img.freeblock := by
  induction n with
  | zero => rfl
  | succ n ih => exact ih

/-- The image before the root is allocated: every sector zeroed and the
superblock in sector 1. -/
def formatted : Image :=
  wsect (zeroSectors { disk := fun _ => zeroes, len := 0, freeinode := 1, freeblock := nMeta } fsSize) 1
    (Superblock.write zeroes sb)

theorem formatted_disk (b : Nat) :
    formatted.disk b = if b = 1 then Superblock.write zeroes sb else zeroes := by
  rw [formatted, wsect_disk, Function.update_apply, zeroSectors_disk]
  by_cases one : b = 1
  · rw [if_pos one, if_pos one]
  · rw [if_neg one, if_neg one]
    split <;> rfl

theorem formatted_freeblock : formatted.freeblock = nMeta := by
  rw [formatted, wsect_freeblock, zeroSectors_freeblock]

theorem zeroes_eq : zeroes = fun _ => 0 := rfl

theorem Dinode.read_zeroes (off : Nat) : Dinode.read zeroes off = Dinode.read zeroes 0 := by
  simp [Dinode.read, readShort, zeroes_eq]

/-- Nothing is allocated yet, and no block is owned. -/
theorem built_formatted : Built formatted (diskInode formatted) [] fun _ => (0, .indirect) := by
  have fresh := formatted_freeblock
  have metaSize := nMeta_eq
  refine ⟨?_, by rw [formatted_disk, if_pos rfl], fun b _ other => by rw [formatted_disk, if_neg other],
    ?_, by simp [inodeSlots], by simp [fresh], by rw [fresh]; exact nMeta_lt_fsSize.le,
    fun b late _ => ?_, fun k hk => absurd hk (Nat.not_lt_zero k), fun i _ _ => ?_,
    fun i _ _ _ inRange => absurd inRange (by simp; omega), fun b lower upper => by omega⟩
  · have zeroed : (zeroSectors { disk := fun _ => zeroes, len := 0, freeinode := 1, freeblock := nMeta }
        fsSize).len = fsSize := by
      rw [zeroSectors_len]
      rfl
    rw [formatted, wsect_len_of_lt _ (by rw [zeroed]; decide), zeroed]
  · rw [formatted, wsect_freeinode, zeroSectors_freeinode]
    rfl
  · rw [formatted_disk, if_neg (by omega)]
  · have := iblock_ge i
    rw [diskInode, formatted_disk, if_neg (by omega), Dinode.read_zeroes]

/-- The root directory `main` writes for input files named `names`. -/
def rootDir (names : List (List UInt8)) : List UInt8 :=
  dirent rootIno dot ++ dirent rootIno dotdot ++ fileDirents 2 names

/-- What inodes `1, 2, ..` hold after `main`'s loop: the root directory, then
every input file. -/
def entries (names : List (List UInt8)) (files : List (List UInt8 × List UInt8)) :
    List (Int16 × List UInt8) :=
  (tDir, rootDir names) :: files.map fun file => (tFile, file.2)

/-- The last two steps of `main` over the image `img` its loop leaves: the
root's size is rounded to the start of the block after its last one, and
the bitmap marking blocks `0 .. freeblock - 1` is written over its block. -/
structure Finished (img img' : Image) : Prop where
  len : img'.len = img.len
  bitmap : img'.disk sb.bmapstart = markUsed zeroes img.freeblock
  blocks : ∀ b, b ≠ iblock sb rootIno → b ≠ sb.bmapstart → img'.disk b = img.disk b
  root : diskInode img' rootIno =
    { diskInode img rootIno with size := ((diskInode img rootIno).size / bSize + 1) * bSize }
  inodes : ∀ i, i ≠ rootIno → iblock sb i ≠ sb.bmapstart → diskInode img' i = diskInode img i

theorem finished_of_built {img : Image} {files : List (Int16 × List UInt8)} {owner : Nat → Nat × Slot}
    (built : Built img (diskInode img) files owner) (nonempty : 0 < files.length) :
    ∃ img', (do
        let din ← rinode img rootIno
        let img ← winode img rootIno { din with size := (din.size / bSize + 1) * bSize }
        balloc img img.freeblock) = .ok img' ∧ Finished img img' := by
  have small : rootIno < inodeSlots := by decide
  have inside : iblock sb rootIno < img.len := by rw [built.len]; decide
  set d := diskInode img rootIno with d_def
  have fits : ({ d with size := (d.size / bSize + 1) * bSize } : Dinode).Fits := by
    have bound := (built.holds 0 nonempty).bound
    have size : d.size = files[0].2.length := (built.holds 0 nonempty).size
    refine ⟨?_, (built.holds 0 nonempty).fits.addrs⟩
    dsimp only
    rw [show bSize = 1024 from rfl, show maxFile = 268 from rfl] at *
    omega
  have bitmapRoom : img.freeblock < bpb := by
    have := built.room
    rw [show bpb = 8192 from rfl, show fsSize = 2000 from rfl] at *
    omega
  set img1 := wsect img (iblock sb rootIno)
    (Dinode.write (img.disk (iblock sb rootIno)) (dinodeOffset rootIno)
      { d with size := (d.size / bSize + 1) * bSize }) with img1_def
  refine ⟨wsect img1 sb.bmapstart (markUsed zeroes img.freeblock), ?_, ?_⟩
  · have unchanged : img1.freeblock = img.freeblock := rfl
    simp only [rinode_eq inside, winode_eq _ inside, bind, Except.bind, balloc, ← d_def, ← img1_def]
    rw [unchanged, if_pos bitmapRoom]
  · have rootBlock : iblock sb rootIno ≠ sb.bmapstart := by decide
    have stored : ∀ i, iblock sb i ≠ sb.bmapstart →
        diskInode (wsect img1 sb.bmapstart (markUsed zeroes img.freeblock)) i =
          if i = rootIno then { d with size := (d.size / bSize + 1) * bSize } else diskInode img i := by
      intro i other
      have kept : diskInode (wsect img1 sb.bmapstart (markUsed zeroes img.freeblock)) i = diskInode img1 i :=
        diskInode_congr (by rw [wsect_disk, Function.update_of_ne other])
      rw [kept, img1_def, diskInode_winode _ fits]
    refine ⟨?_, ?_, fun b notRoot notBitmap => ?_, ?_, fun i other notBitmap => ?_⟩
    · rw [wsect_len_of_lt _ (by rw [wsect_len_of_lt _ inside, built.len]; decide),
        wsect_len_of_lt _ inside]
    · rw [wsect_disk, Function.update_self]
    · rw [wsect_disk, Function.update_of_ne notBitmap, img1_def, wsect_disk, Function.update_of_ne notRoot]
    · rw [stored _ rootBlock, if_pos rfl]
    · rw [stored _ notBitmap, if_neg other]

/-- `mkfs` on input files whose short names are `names`, when they fit: its
loop leaves every inode holding its entry, and the image is finished from
there. -/
theorem mkfs_run (files : List (List UInt8 × List UInt8)) (names : List (List UInt8))
    (named : List.Forall₂ (fun file name => shortName file.1 = .ok name) files names)
    (slots : files.length + 2 < inodeSlots)
    (dataBound : ∀ file ∈ files, file.2.length ≤ maxFile * bSize)
    (room : nMeta + fileBlocks (rootDir names).length +
      (files.map fun file => fileBlocks file.2.length).sum ≤ fsSize) :
    ∃ img owner img', Built img (diskInode img) (entries names files) owner ∧
      mkfs files = .ok img' ∧ Finished img img' := by
  have sameLength : files.length = names.length := named.length_eq
  have rootLength : (rootDir names).length = direntSize + direntSize + direntSize * files.length := by
    simp only [rootDir, List.length_append, dirent_length, fileDirents_length, sameLength]
  have metaSize := nMeta_eq
  have diskSize : fsSize = 2000 := rfl
  have one : fileBlocks direntSize = 1 := by decide
  have two : fileBlocks (direntSize + direntSize) = 1 := by decide
  have mono := fileBlocks_mono (show direntSize + direntSize ≤ (rootDir names).length by
    rw [rootLength]
    omega)
  -- the root directory with its entries `.` and `..`
  obtain ⟨img1, allocated, built1⟩ := ialloc_built tDir built_formatted (by decide)
  rw [List.nil_append] at built1
  have free1 := built1.freeblock_eq
  simp only [List.length_nil, fileBlocks_zero, List.map_nil, List.sum_nil] at free1
  obtain ⟨img2, owner2, dotAppended, built2⟩ := iappend_built (dirent 1 dot) built1 (k := 0)
    (show 0 < [(tDir, ([] : List UInt8))].length by decide) rfl
    (by rw [dirent_length]; decide)
    (by rw [dirent_length, free1, List.length_nil, Nat.zero_add, fileBlocks_zero, one]; omega)
  simp only [List.set_cons_zero, List.nil_append] at built2
  have free2 := built2.freeblock_eq
  simp only [dirent_length, one, List.map_nil, List.sum_nil] at free2
  obtain ⟨img3, owner3, dotdotAppended, built3⟩ := iappend_built (dirent 1 dotdot) built2 (k := 0)
    (show 0 < [(tDir, dirent 1 dot)].length by decide) rfl
    (by rw [dirent_length, dirent_length]; decide)
    (by rw [dirent_length, dirent_length, free2, one, two]; omega)
  simp only [List.set_cons_zero] at built3
  have free3 := built3.freeblock_eq
  simp only [List.length_append, dirent_length, two, List.map_nil, List.sum_nil] at free3
  -- then every input file
  obtain ⟨img4, owner4, folded, built4⟩ := files_built named built3
    (by rw [List.length_nil, Nat.zero_add]; omega)
    (by
      have := rootLength
      simp only [rootDir, List.length_append, dirent_length, fileDirents_length] at this ⊢
      rw [show maxFile * bSize = 274432 from rfl, show inodeSlots = 224 from rfl,
        show direntSize = 16 from rfl] at *
      omega)
    dataBound
    (by
      simp only [List.length_append, dirent_length]
      rw [free3, two]
      rw [rootLength] at room mono
      omega)
  obtain ⟨img', finished, done⟩ := finished_of_built built4 (by simp)
  refine ⟨img4, owner4, img', ?_, ?_, done⟩
  · simpa [entries, rootDir, rootIno] using built4
  · have rootino : rootIno = 1 := rfl
    have start : ialloc (wsect (zeroSectors
        { disk := (fun _ => zeroes), len := 0, freeinode := 1, freeblock := nMeta } fsSize) 1
        (Superblock.write zeroes sb)) tDir = .ok (1, img1) := allocated
    simp only [Nat.zero_add] at dotAppended dotdotAppended
    simp only [rootino] at folded finished
    -- one call at a time: simp on the whole run makes the kernel unfold `zeroSectors`
    rw [mkfs, start]
    simp only [bind, Except.bind, rootino, ne_eq, not_true_eq_false, if_false]
    rw [dotAppended]
    dsimp only
    rw [dotdotAppended]
    dsimp only
    rw [folded]
    dsimp only
    simp only [bind, Except.bind] at finished
    exact finished

end Main

end Xv6.Mkfs
