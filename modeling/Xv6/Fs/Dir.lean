import Mathlib
import Xv6.String
import Xv6.Fs.Write

/-!
Directories in `kernel/fs.c`. A directory is a file of `struct dirent`s: a
16-bit inode number and a name of `DIRSIZ` bytes; an entry is in use when its
number is not 0. `dirlookup` reads the entries in turn with `readi` and stops
at the first in use whose name `namecmp` finds equal to the one asked for;
`dirlink` checks that the name is not there, looks for the first entry not in
use, and writes the new entry there, or at the end, with `writei`.

The names are C strings in kernel memory, the local `struct dirent de` is a
buffer of its own, and `iget` and `iput` of the inode cache are left out:
`dirlookup` returns the inode number it would pass to `iget`.

On a directory whose entries are whole and whose blocks are all present
(`DirOk`), `dirlookup` changes nothing and returns what `lookup` reads off the
directory's bytes; a `dirlink` that returns 0 leaves a directory of the same
shape, on a sound disk, in which `dirlookup` finds the new name.
-/

namespace Xv6.Fs

open Bytes

section Size

variable {fs fs' : State} {ip ip' : Inode}

theorem addrOrAlloc_size {i a : Nat} (ran : addrOrAlloc fs ip i = .ok (a, ip', fs')) :
    ip'.din.size = ip.din.size := by
  unfold addrOrAlloc at ran
  split at ran
  · obtain ⟨⟨x, fs1⟩, -, rest⟩ := Machine.bind_eq_ok ran
    by_cases zero : x = 0
    · simp only [zero, ↓reduceIte, Machine.pure_eq_ok, Except.ok.injEq, Prod.mk.injEq] at rest
      rw [← rest.2.1]
    · simp only [zero, ↓reduceIte, Machine.pure_eq_ok, Except.ok.injEq, Prod.mk.injEq] at rest
      rw [← rest.2.1, Dinode.setAddr_size]
  · simp only [Except.ok.injEq, Prod.mk.injEq] at ran
    rw [← ran.2.1]

theorem bmap_size {bn a : Nat} (ran : bmap fs ip bn = .ok (a, ip', fs')) : ip'.din.size = ip.din.size := by
  unfold bmap at ran
  split at ran
  · exact addrOrAlloc_size ran
  · split at ran
    · obtain ⟨⟨ind, ip1, fs1⟩, alloc, rest⟩ := Machine.bind_eq_ok ran
      rw [← addrOrAlloc_size alloc]
      by_cases zero : ind = 0
      · simp only [zero, ↓reduceIte, Machine.pure_eq_ok, Except.ok.injEq, Prod.mk.injEq] at rest
        rw [rest.2.1]
      · simp only [zero, ↓reduceIte] at rest
        obtain ⟨⟨x, fs2⟩, -, done⟩ := Machine.bind_eq_ok rest
        simp only [Machine.pure_eq_ok, Except.ok.injEq, Prod.mk.injEq] at done
        rw [done.2.1]
    · cases ran

theorem readLoop_size (copyout : Nat → List UInt8 → Bool) (fs : State) (ip : Inode) (dst off tot n : Nat)
    (out : List UInt8) {r : Int} {bytes : List UInt8}
    (ran : readLoop copyout fs ip dst off tot n out = .ok (r, bytes, ip', fs')) :
    ip'.din.size = ip.din.size := by
  rw [readLoop] at ran
  split at ran
  · rename_i more
    obtain ⟨⟨addr, ip1, fs1⟩, mapped, rest⟩ := Machine.bind_eq_ok ran
    rw [← bmap_size mapped]
    by_cases zero : addr = 0
    · simp only [zero, ↓reduceIte, Machine.pure_eq_ok, Except.ok.injEq, Prod.mk.injEq] at rest
      rw [rest.2.2.1]
    · simp only [zero, ↓reduceIte] at rest
      split at rest
      · have := chunk_pos more off
        exact readLoop_size copyout fs1 ip1 _ _ _ n _ rest
      · simp only [Machine.pure_eq_ok, Except.ok.injEq, Prod.mk.injEq] at rest
        rw [rest.2.2.1]
  · cases ran
    rfl
termination_by n - tot
decreasing_by omega

theorem readi_size (copyout : Nat → List UInt8 → Bool) {dst off n : Nat} {r : Int} {bytes : List UInt8}
    (ran : readi copyout fs ip dst off n = .ok (r, bytes, ip', fs')) : ip'.din.size = ip.din.size := by
  unfold readi at ran
  split at ran
  · cases ran
    rfl
  · exact readLoop_size copyout fs ip dst off 0 _ [] ran

end Size

/-- The buffer `de` once `readi` has copied `bytes` into it. -/
def bufOf (bytes : List UInt8) : Mem := fun i => bytes.getD i 0

-- `ran` is what the termination proof reads
set_option linter.unusedVariables false in
/-- The loop of `dirlookup(dp, name, poff)` from offset `off`, for the name at
`name` in kernel memory `kmem`: the inode number and offset of the first entry
in use that `namecmp` finds equal to it, `none` for the `0` after the last
entry. `readi` copies each entry into the buffer `de`. -/
def dirlookupLoop (kmem : Mem) (name : Nat) (fs : State) (dp : Inode) (off : Nat) :
    Except String (Option (Nat × Nat) × Inode × State) :=
  if _ : off < dp.din.size then
    match ran : readi (fun _ _ => true) fs dp 0 off direntSize with
    | .error msg => .error msg
    | .ok (r, bytes, dp', fs') =>
        if r ≠ direntSize then .error "dirlookup read"
        else if readLE (bufOf bytes) 0 2 = 0 then dirlookupLoop kmem name fs' dp' (off + direntSize)
        else if strncmp kmem name (bufOf bytes) 2 dirSiz = 0 then
          .ok (some (readLE (bufOf bytes) 0 2, off), dp', fs')
        else dirlookupLoop kmem name fs' dp' (off + direntSize)
  else .ok (none, dp, fs)
termination_by dp.din.size - off
decreasing_by
  all_goals
    have := readi_size _ ran
    simp only [direntSize]
    omega

/-- `dirlookup(dp, name, poff)`. -/
def dirlookup (kmem : Mem) (name : Nat) (fs : State) (dp : Inode) :
    Except String (Option (Nat × Nat) × Inode × State) :=
  if dp.din.type ≠ tDir then .error "dirlookup not DIR"
  else dirlookupLoop kmem name fs dp 0

-- `ran` is what the termination proof reads
set_option linter.unusedVariables false in
/-- The loop of `dirlink` looking for an entry not in use from offset `off`:
where it stops, at such an entry or at the end, and the buffer `de` as the last
`readi` left it. -/
def dirlinkLoop (fs : State) (dp : Inode) (de : Mem) (off : Nat) : Except String (Nat × Mem × Inode × State) :=
  if _ : off < dp.din.size then
    match ran : readi (fun _ _ => true) fs dp 0 off direntSize with
    | .error msg => .error msg
    | .ok (r, bytes, dp', fs') =>
        if r ≠ direntSize then .error "dirlink read"
        else if readLE (bufOf bytes) 0 2 = 0 then .ok (off, bufOf bytes, dp', fs')
        else dirlinkLoop fs' dp' (bufOf bytes) (off + direntSize)
  else .ok (off, de, dp, fs)
termination_by dp.din.size - off
decreasing_by
  have := readi_size _ ran
  simp only [direntSize]
  omega

/-- `dirlink(dp, name, inum)` for the name at `name` in kernel memory `kmem`;
`de` is what the local `struct dirent` holds before the call. The entry is
written from `de` with `writei(dp, 0, (uint64)&de, off, sizeof(de))`, a copy
from kernel memory. -/
def dirlink (kmem : Mem) (name : Nat) (fs : State) (dp : Inode) (inum : Nat) (de : Mem) :
    Except String (Int × Inode × State) := do
  let (found, dp, fs) ← dirlookup kmem name fs dp
  if found.isSome then return (-1, dp, fs)
  else
    let (off, de, dp, fs) ← dirlinkLoop fs dp de 0
    -- `strncpy(de.name, name, DIRSIZ)`, then the `ushort` store `de.inum = inum`
    let de := writeLE (strncpy de 2 kmem name dirSiz) 0 2 inum
    let (r, dp, fs) ← writei (Vm.eitherCopyin ⟨de, [], 0⟩ 0 false) fs dp 0 off direntSize
    if r ≠ direntSize then return (-1, dp, fs) else return (0, dp, fs)

/-- Entry `k` of a directory, as `readi` copies it into `de`. -/
def entry (disk : Disk) (d : Dinode) (k : Nat) : Mem := bufOf (fileBytes disk d (direntSize * k) direntSize)

/-- Entry `de` is in use and `namecmp` finds its name equal to the name at `name`. -/
def Names (kmem : Mem) (name : Nat) (de : Mem) : Bool :=
  readLE de 0 2 != 0 && strncmp kmem name de 2 dirSiz == 0

/-- What `dirlookup` finds in a directory of whole entries: the inode number
and offset of the first entry in use named `name`. -/
def lookup (kmem : Mem) (name : Nat) (disk : Disk) (d : Dinode) : Option (Nat × Nat) :=
  ((List.range (d.size / direntSize)).find? fun k => Names kmem name (entry disk d k)).map
    fun k => (readLE (entry disk d k) 0 2, direntSize * k)

/-- Where `dirlink` writes: the first entry not in use, else the end. -/
def freeSlot (disk : Disk) (d : Dinode) : Nat :=
  ((List.range (d.size / direntSize)).find? fun k => readLE (entry disk d k) 0 2 == 0).getD (d.size / direntSize)

/-- A directory `dirlookup` and `dirlink` read without a panic: of type
`T_DIR`, whole entries, and every block of it present. -/
structure DirOk (fs : State) (dp : Inode) : Prop where
  isDir : dp.din.type = tDir
  whole : dp.din.size % direntSize = 0
  dense : Present fs.blocks dp.din 0 dp.din.size

section Lookup

variable {fs : State} {dp : Inode}

theorem DirOk.size_le (ok : DirOk fs dp) : dp.din.size ≤ maxFile * bSize := by
  rcases Nat.eq_zero_or_pos dp.din.size with empty | pos
  · omega
  · have := (ok.dense (dp.din.size - 1) (Nat.zero_le _) (by omega)).1
    simp only [maxFile, nIndirect, nDirect, bSize] at this ⊢
    omega

/-- Entry `k` of a directory of whole entries ends inside it. -/
theorem DirOk.entry_end (ok : DirOk fs dp) {k : Nat} (inside : k < dp.din.size / direntSize) :
    direntSize * k + direntSize ≤ dp.din.size := by
  have whole := ok.whole
  simp only [direntSize] at *
  omega

theorem DirOk.readi (ok : DirOk fs dp) {k : Nat} (inside : k < dp.din.size / direntSize) :
    readi (fun _ _ => true) fs dp 0 (direntSize * k) direntSize =
      .ok (direntSize, fileBytes fs.blocks dp.din (direntSize * k) direntSize, dp, fs) := by
  have ends := ok.entry_end inside
  have fits := ok.size_le
  have small : maxFile * bSize < 2 ^ 32 := by decide
  rw [readi_eq_readLoop _ 0 (by omega) (by omega),
    show min direntSize (dp.din.size - direntSize * k) = direntSize by omega,
    readLoop_present 0 _ 0 _ [] fun p _ upper => ok.dense p (Nat.zero_le _) (by omega)]
  simp

theorem DirOk.dirlookupLoop_eq (ok : DirOk fs dp) (kmem : Mem) (name : Nat) :
    ∀ j k, k + j = dp.din.size / direntSize →
      dirlookupLoop kmem name fs dp (direntSize * k) =
        .ok (((List.range' k j).find? fun i => Names kmem name (entry fs.blocks dp.din i)).map
          (fun i => (readLE (entry fs.blocks dp.din i) 0 2, direntSize * i)), dp, fs)
  | 0, k, last => by
      have whole := ok.whole
      rw [dirlookupLoop, dif_neg (by simp only [direntSize] at *; omega)]
      rfl
  | j + 1, k, more => by
      have inside : k < dp.din.size / direntSize := by omega
      rw [dirlookupLoop, dif_pos (by have := ok.entry_end inside; simp only [direntSize] at *; omega)]
      split
      · rename_i ran
        rw [ok.readi inside] at ran
        cases ran
      · rename_i r bytes dp' fs' ran
        rw [ok.readi inside] at ran
        simp only [Except.ok.injEq, Prod.mk.injEq] at ran
        obtain ⟨rfl, rfl, rfl, rfl⟩ := ran
        have next := ok.dirlookupLoop_eq kmem name j (k + 1) (by omega)
        rw [Nat.mul_succ] at next
        have read : bufOf (fileBytes fs.blocks dp.din (direntSize * k) direntSize) = entry fs.blocks dp.din k := rfl
        rw [if_neg (not_not.mpr rfl), read, List.range'_succ]
        -- the three ways `dirlookup` treats an entry: not in use, named `name`, or another name
        by_cases unused : readLE (entry fs.blocks dp.din k) 0 2 = 0
        · rw [if_pos unused, next, List.find?_cons_of_neg (by simp [Names, unused])]
        · rw [if_neg unused]
          by_cases hit : strncmp kmem name (entry fs.blocks dp.din k) 2 dirSiz = 0
          · rw [if_pos hit, List.find?_cons_of_pos (by simp [Names, unused, hit])]
            rfl
          · rw [if_neg hit, next, List.find?_cons_of_neg (by simp [Names, hit])]

theorem DirOk.dirlookup_eq (ok : DirOk fs dp) (kmem : Mem) (name : Nat) :
    dirlookup kmem name fs dp = .ok (lookup kmem name fs.blocks dp.din, dp, fs) := by
  rw [dirlookup, if_neg (not_not.mpr ok.isDir)]
  have loop := ok.dirlookupLoop_eq kmem name (dp.din.size / direntSize) 0 (Nat.zero_add _)
  rw [Nat.mul_zero] at loop
  rw [loop, ← List.range_eq_range']
  rfl

theorem DirOk.dirlinkLoop_eq (ok : DirOk fs dp) :
    ∀ j k (de : Mem), k + j = dp.din.size / direntSize → ∃ de',
      dirlinkLoop fs dp de (direntSize * k) =
        .ok (direntSize * ((List.range' k j).find? fun i => readLE (entry fs.blocks dp.din i) 0 2 == 0).getD
          (dp.din.size / direntSize), de', dp, fs)
  | 0, k, de, last => by
      have whole := ok.whole
      refine ⟨de, ?_⟩
      rw [dirlinkLoop, dif_neg (by simp only [direntSize] at *; omega)]
      simp only [List.range'_zero, List.find?_nil, Option.getD_none, ← last, Nat.add_zero]
  | j + 1, k, de, more => by
      have inside : k < dp.din.size / direntSize := by omega
      rw [dirlinkLoop, dif_pos (by have := ok.entry_end inside; simp only [direntSize] at *; omega)]
      split
      · rename_i ran
        rw [ok.readi inside] at ran
        cases ran
      · rename_i r bytes dp' fs' ran
        rw [ok.readi inside] at ran
        simp only [Except.ok.injEq, Prod.mk.injEq] at ran
        obtain ⟨rfl, rfl, rfl, rfl⟩ := ran
        have read : bufOf (fileBytes fs.blocks dp.din (direntSize * k) direntSize) = entry fs.blocks dp.din k := rfl
        rw [if_neg (not_not.mpr rfl), read, List.range'_succ]
        by_cases unused : readLE (entry fs.blocks dp.din k) 0 2 = 0
        · rw [if_pos unused, List.find?_cons_of_pos (by simp [unused])]
          exact ⟨_, rfl⟩
        · obtain ⟨de', next⟩ := ok.dirlinkLoop_eq j (k + 1) (entry fs.blocks dp.din k) (by omega)
          rw [Nat.mul_succ] at next
          rw [if_neg unused, next, List.find?_cons_of_neg (by simp [unused])]
          exact ⟨de', rfl⟩

end Lookup

section Entries

variable {kmem : Mem} {name : Nat}

theorem strncmp_congr {m m' m'' : Mem} {p q n : Nat} (same : ∀ i < n, m' (q + i) = m'' (q + i)) :
    strncmp m p m' q n = strncmp m p m'' q n := by
  induction n generalizing p q with
  | zero => rfl
  | succ n ih =>
      have head : m' q = m'' q := same 0 (by omega)
      have tail : strncmp m (p + 1) m' (q + 1) n = strncmp m (p + 1) m'' (q + 1) n :=
        ih fun i below => by simpa [Nat.add_assoc, Nat.add_comm 1 i] using same (i + 1) (by omega)
      simp only [strncmp, head, tail]

theorem Names.congr {de de' : Mem} (same : ∀ i < direntSize, de i = de' i) :
    Names kmem name de = Names kmem name de' := by
  have inNum : readLE de 0 2 = readLE de' 0 2 :=
    readLE_congr fun i _ upper => same i (by simp only [direntSize]; omega)
  have inName : strncmp kmem name de 2 dirSiz = strncmp kmem name de' 2 dirSiz :=
    strncmp_congr fun i below => same (2 + i) (by simp only [direntSize, dirSiz] at *; omega)
  simp only [Names, inNum, inName]

theorem entry_apply (disk : Disk) (d : Dinode) (k : Nat) {i : Nat} (below : i < direntSize) :
    entry disk d k i = fileByte disk d (direntSize * k + i) := by
  simp [entry, bufOf, fileBytes, below]

theorem entry_past (disk : Disk) (d : Dinode) (k : Nat) {i : Nat} (past : direntSize ≤ i) : entry disk d k i = 0 := by
  simp [entry, bufOf, fileBytes, Nat.not_lt.mpr past]

section StrEq

variable {m m' m'' : Mem} {p q r n : Nat}

theorem StrEq.nonzero (same : StrEq m p m' q n) :
    ∀ {i}, i ≤ n → (∀ j < i, m' (q + j) ≠ 0) → ∀ j < i, m (p + j) ≠ 0
  | 0, _, _ => fun _ below => absurd below (Nat.not_lt_zero _)
  | i + 1, inside, after => by
      have before := StrEq.nonzero same (Nat.le_of_succ_le inside) fun j below => after j (by omega)
      intro j below
      rcases Nat.lt_succ_iff_lt_or_eq.mp below with earlier | last
      · exact before j earlier
      · rw [last, same i (by omega) before]
        exact after i (by omega)

theorem StrEq.symm (same : StrEq m p m' q n) : StrEq m' q m p n := fun i below after =>
  (same i below (StrEq.nonzero same below.le after)).symm

theorem StrEq.trans (first : StrEq m p m' q n) (second : StrEq m' q m'' r n) : StrEq m p m'' r n := by
  intro i below before
  have after : ∀ j < i, m' (q + j) ≠ 0 := fun j earlier => by
    rw [← first j (by omega) fun k lt => before k (by omega)]
    exact before j earlier
  rw [first i below before, second i below after]

end StrEq

theorem strEq_built (kmem : Mem) (name : Nat) (de : Mem) (inum : Nat) :
    StrEq kmem name (writeLE (strncpy de 2 kmem name dirSiz) 0 2 inum) 2 dirSiz := by
  intro i below before
  rw [writeLE_of_outside _ _ _ _ _ (by omega), strncpy_apply, if_pos (by omega),
    show 2 + i - 2 = i by omega, if_pos before]

theorem names_built (kmem : Mem) (name : Nat) (de : Mem) {inum : Nat} (used : inum ≠ 0) (small : inum < 2 ^ 16) :
    readLE (writeLE (strncpy de 2 kmem name dirSiz) 0 2 inum) 0 2 = inum ∧
      Names kmem name (writeLE (strncpy de 2 kmem name dirSiz) 0 2 inum) = true := by
  have number : readLE (writeLE (strncpy de 2 kmem name dirSiz) 0 2 inum) 0 2 = inum :=
    readLE_writeLE_of_lt _ _ _ _ small
  refine ⟨number, ?_⟩
  simp [Names, number, used, (strncmp_eq_zero_iff _ _ _ _ _).mpr (strEq_built kmem name de inum)]

end Entries

section Link

variable {fs fs' : State} {dp dp' : Inode} {kmem : Mem} {name : Nat}

theorem freeSlot_le (disk : Disk) (d : Dinode) : freeSlot disk d ≤ d.size / direntSize := by
  unfold freeSlot
  cases found : (List.range (d.size / direntSize)).find? fun k => readLE (entry disk d k) 0 2 == 0 with
  | none => exact Nat.le_refl _
  | some k => exact (List.mem_range.mp (List.mem_of_find?_eq_some found)).le

theorem DirOk.dirlink_found (ok : DirOk fs dp) (inum : Nat) (de : Mem)
    (found : (lookup kmem name fs.blocks dp.din).isSome) :
    dirlink kmem name fs dp inum de = .ok (-1, dp, fs) := by
  rw [dirlink, ok.dirlookup_eq]
  simp only [Machine.ok_bind, found, ↓reduceIte, Machine.pure_eq_ok]

theorem DirOk.dirlink_free (ok : DirOk fs dp) (inum : Nat) (de : Mem)
    (absent : lookup kmem name fs.blocks dp.din = none) : ∃ de',
    dirlink kmem name fs dp inum de = (do
      let (r, dp, fs) ← writei (Vm.eitherCopyin ⟨writeLE (strncpy de' 2 kmem name dirSiz) 0 2 inum, [], 0⟩ 0 false)
        fs dp 0 (direntSize * freeSlot fs.blocks dp.din) direntSize
      if r ≠ direntSize then return (-1, dp, fs) else return (0, dp, fs)) := by
  obtain ⟨de', looped⟩ := ok.dirlinkLoop_eq (dp.din.size / direntSize) 0 de (Nat.zero_add _)
  rw [Nat.mul_zero, ← List.range_eq_range'] at looped
  refine ⟨de', ?_⟩
  rw [dirlink, ok.dirlookup_eq]
  simp only [Machine.ok_bind, absent, Option.isSome_none, Bool.false_eq_true, ↓reduceIte, looped]
  rfl

theorem entry_stored {mem : Mem} {s : Nat} (stored : Stored mem fs dp 0 (direntSize * s) direntSize dp' fs')
    {k : Nat} (inside : k < dp'.din.size / direntSize) {i : Nat} (below : i < direntSize) :
    entry fs'.blocks dp'.din k i = if k = s then mem i else entry fs.blocks dp.din k i := by
  have within : direntSize * k + i < dp'.din.size := by
    simp only [direntSize] at *
    omega
  rw [entry_apply _ _ _ below, stored.content _ within, entry_apply _ _ _ below]
  by_cases same : k = s
  · subst same
    rw [if_pos ⟨by omega, by omega⟩, if_pos rfl]
    congr 1
    omega
  · -- the bytes of another entry lie outside the 16 written
    have apart : ¬ (direntSize * s ≤ direntSize * k + i ∧ direntSize * k + i < direntSize * s + direntSize) := by
      simp only [direntSize] at *
      omega
    rw [if_neg apart, if_neg same]

theorem DirOk.stored (ok : DirOk fs dp) {mem : Mem} {s : Nat}
    (stored : Stored mem fs dp 0 (direntSize * s) direntSize dp' fs') : DirOk fs' dp' := by
  refine ⟨by rw [stored.shape]; exact ok.isDir, ?_, stored.dense⟩
  have whole := ok.whole
  rw [stored.size]
  simp only [direntSize] at *
  omega

theorem lookup_stored (absent : lookup kmem name fs.blocks dp.din = none) {mem : Mem}
    (named : Names kmem name mem = true)
    (stored : Stored mem fs dp 0 (direntSize * freeSlot fs.blocks dp.din) direntSize dp' fs') :
    lookup kmem name fs'.blocks dp'.din = some (readLE mem 0 2, direntSize * freeSlot fs.blocks dp.din) := by
  have slot := freeSlot_le fs.blocks dp.din
  have inside : freeSlot fs.blocks dp.din < dp'.din.size / direntSize := by
    rw [stored.size]
    simp only [direntSize] at *
    omega
  have here : ∀ i < direntSize, entry fs'.blocks dp'.din (freeSlot fs.blocks dp.din) i = mem i := fun i below => by
    rw [entry_stored stored inside below, if_pos rfl]
  -- no entry before was named `name`
  have before : ∀ k < dp.din.size / direntSize, Names kmem name (entry fs.blocks dp.din k) = false := by
    simp only [lookup, Option.map_eq_none_iff, List.find?_range_eq_none, Bool.not_eq_eq_eq_not,
      Bool.not_true] at absent
    exact absent
  have first : (List.range (dp'.din.size / direntSize)).find? (fun k => Names kmem name (entry fs'.blocks dp'.din k)) =
      some (freeSlot fs.blocks dp.din) := by
    refine List.find?_range_eq_some.mpr ⟨?_, List.mem_range.mpr inside, fun j earlier => ?_⟩
    · rw [Names.congr here, named]
    · have old : ∀ i < direntSize, entry fs'.blocks dp'.din j i = entry fs.blocks dp.din j i := fun i below => by
        rw [entry_stored stored (by omega) below, if_neg (by omega)]
      rw [Names.congr old, before j (by omega)]
      rfl
  simp only [lookup, first, Option.map_some]
  rw [readLE_congr fun i _ upper => here i (by simp only [direntSize]; omega)]

end Link

section Round

variable {fs : State} {dp : Inode}

/-- `dirlookup` of a directory of whole entries with all its blocks never
panics and changes nothing. It returns the number and offset of entry `k`
exactly when entry `k` is in use and named `name` and no entry before it is,
and `0` when no entry is. -/
theorem dirlookup_finds_first (ok : DirOk fs dp) (kmem : Mem) (name : Nat) :
    ∃ found, dirlookup kmem name fs dp = .ok (found, dp, fs) ∧
      (found = none ↔ ∀ k < dp.din.size / direntSize, Names kmem name (entry fs.blocks dp.din k) = false) ∧
      ∀ inum off, found = some (inum, off) ↔
        ∃ k < dp.din.size / direntSize, off = direntSize * k ∧ inum = readLE (entry fs.blocks dp.din k) 0 2 ∧
          Names kmem name (entry fs.blocks dp.din k) = true ∧
          ∀ j < k, Names kmem name (entry fs.blocks dp.din j) = false := by
  refine ⟨lookup kmem name fs.blocks dp.din, ok.dirlookup_eq kmem name, ?_, fun inum off => ?_⟩
  · simp [lookup]
  · constructor
    · intro found
      obtain ⟨k, first, named⟩ := Option.map_eq_some_iff.mp found
      obtain ⟨hit, inside, before⟩ := List.find?_range_eq_some.mp first
      simp only [Prod.mk.injEq] at named
      exact ⟨k, List.mem_range.mp inside, named.2.symm, named.1.symm, hit, fun j earlier => by simpa using before j earlier⟩
    · rintro ⟨k, inside, rfl, rfl, hit, before⟩
      have first : (List.range (dp.din.size / direntSize)).find? (fun j => Names kmem name (entry fs.blocks dp.din j)) =
          some k :=
        List.find?_range_eq_some.mpr ⟨hit, List.mem_range.mpr inside, fun j earlier => by simp [before j earlier]⟩
      simp [lookup, first]

/-- `dirlink` of a name on a sound disk and a sound directory keeps the disk
sound and the directory stored. When it returns 0, the directory is still
sound, `dirlookup` finds the name with the new inode number at the first entry
that was not in use, and every other entry is as it was; it returns `-1` only
when the name was there, the disk has no free block, or the directory is as
large as a file can be. -/
theorem dirlink_then_dirlookup (laid : fs.sb.Laid) (sound : Sound fs fs.dinode) (inode : dp.inum < fs.sb.ninodes)
    (synced : dp.din = fs.dinode dp.inum) (ok : DirOk fs dp) (kmem : Mem) (name inum : Nat) (de : Mem)
    (used : inum ≠ 0) (small : inum < 2 ^ 16) :
    match dirlink kmem name fs dp inum de with
    | .ok (r, dp', fs') =>
        Sound fs' fs'.dinode ∧ fs'.dinode dp.inum = dp'.din ∧
        (r = 0 → DirOk fs' dp' ∧
          dirlookup kmem name fs' dp' = .ok (some (inum, direntSize * freeSlot fs.blocks dp.din), dp', fs') ∧
          ∀ k < dp.din.size / direntSize, k ≠ freeSlot fs.blocks dp.din →
            entry fs'.blocks dp'.din k = entry fs.blocks dp.din k) ∧
        (r ≠ 0 → r = -1 ∧ ((lookup kmem name fs.blocks dp.din).isSome ∨
          (∀ c < fs.sb.size, fs'.used c = true) ∨ dp.din.size = maxFile * bSize))
    | .error _ => True := by
  by_cases found : (lookup kmem name fs.blocks dp.din).isSome
  · rw [ok.dirlink_found inum de found]
    exact ⟨sound, synced.symm, fun zero => absurd zero (by decide), fun _ => ⟨rfl, .inl found⟩⟩
  have absent : lookup kmem name fs.blocks dp.din = none := Option.not_isSome_iff_eq_none.mp found
  obtain ⟨de', linked⟩ := ok.dirlink_free inum de absent
  rw [linked]
  have slot := freeSlot_le fs.blocks dp.din
  have whole := ok.whole
  have fits := ok.size_le
  have ends : direntSize * freeSlot fs.blocks dp.din ≤ dp.din.size := by
    simp only [direntSize] at *
    omega
  by_cases bound : direntSize * freeSlot fs.blocks dp.din + direntSize ≤ maxFile * bSize
  · cases ran : writei (Vm.eitherCopyin ⟨writeLE (strncpy de' 2 kmem name dirSiz) 0 2 inum, [], 0⟩ 0 false)
        fs dp 0 (direntSize * freeSlot fs.blocks dp.din) direntSize with
    | error msg => trivial
    | ok result =>
      obtain ⟨r, dp', fs'⟩ := result
      obtain ⟨m, le, rfl, stored, short⟩ := writei_spec _ 0 laid sound inode synced ok.dense ends bound ran
      simp only [Machine.ok_bind]
      by_cases whole : m = direntSize
      · -- the whole entry was written: the name is found where it went
        subst whole
        obtain ⟨number, named⟩ := names_built kmem name de' used small
        have ok' := ok.stored stored
        rw [if_neg (not_not.mpr rfl)]
        refine ⟨stored.sound, stored.synced, fun _ => ⟨ok', ?_, fun k inside other => ?_⟩,
          fun nonzero => absurd rfl nonzero⟩
        · rw [ok'.dirlookup_eq, lookup_stored absent named stored, number]
        · funext i
          by_cases below : i < direntSize
          · have inside' : k < dp'.din.size / direntSize := by
              rw [stored.size]
              simp only [direntSize] at *
              omega
            rw [entry_stored stored inside' below, if_neg other]
          · rw [entry_past _ _ _ (Nat.not_lt.mp below), entry_past _ _ _ (Nat.not_lt.mp below)]
      · rw [if_pos (by exact_mod_cast whole)]
        exact ⟨stored.sound, stored.synced, fun zero => absurd zero (by decide),
          fun _ => ⟨rfl, .inr (.inl (short (by omega)))⟩⟩
  · -- no room for another entry: `writei` refuses and nothing changes
    have full : dp.din.size = maxFile * bSize := by
      simp only [direntSize, maxFile, nIndirect, nDirect, bSize] at *
      omega
    rw [writei_of_fail _ (by rw [full]; decide) (by decide) fun fits => bound fits.2]
    simp only [Machine.ok_bind, ne_eq, Int.reduceNeg]
    rw [if_pos (by decide)]
    exact ⟨sound, synced.symm, fun zero => absurd zero (by decide), fun _ => ⟨rfl, .inr (.inr full)⟩⟩

end Round

section Empty

/-- The inode of an empty directory with one link. -/
def emptyDir : Dinode := { Dinode.zero with type := tDir, nlink := 1 }

/-- The blank disk with inode 1 an empty directory. -/
def dirFs : State :=
  { blankFs blankLog with
    blocks := Function.update (blankFs blankLog).blocks (iblock Mkfs.sb 1)
      (Dinode.write ((blankFs blankLog).blocks (iblock Mkfs.sb 1)) (dinodeOffset 1) emptyDir) }

/-- Inode 1 of `dirFs`, locked. -/
def dirIp : Inode := ⟨1, 1, true, dirFs.dinode 1⟩

theorem emptyDir_addr (k : Nat) : emptyDir.addr k = 0 := by
  unfold Dinode.addr
  split <;> simp [emptyDir, Dinode.zero]

theorem dirFs_wrote : Wrote (blankFs blankLog) dirFs (iblock (blankFs blankLog).sb 1)
    (Dinode.write ((blankFs blankLog).blocks (iblock (blankFs blankLog).sb 1)) (dinodeOffset 1) emptyDir) :=
  Wrote.of_update _ _ _

theorem dirFs_dinode_one : dirFs.dinode 1 = emptyDir :=
  dirFs_wrote.dinode_stored ⟨by decide, fun k _ => by rw [emptyDir_addr]; decide⟩

/-- No inode of `dirFs` references a block. -/
theorem dirFs_unreferenced {i : Nat} (inode : i < Mkfs.sb.ninodes) (disk : Disk) (s : Slot) (c : Nat) :
    ¬ RefAt disk (dirFs.dinode i) s c := by
  by_cases one : i = 1
  · rw [one, dirFs_dinode_one]
    exact not_refAt_of_addrs emptyDir_addr s c
  · rw [dirFs_wrote.dinode_beside one, blankFs_dinode blankLog inode]
    exact not_refAt_zero disk _ s c

theorem dirFs_sound : Sound dirFs dirFs.dinode :=
  ((blankFs_sound blankLog).wrote_early dirFs_wrote (by decide)).congr fun i inode s c =>
    ⟨fun ref => absurd ref (dirFs_unreferenced inode _ s c),
      fun ref => absurd ref (by rw [blankFs_dinode blankLog inode]; exact not_refAt_zero _ _ s c)⟩

theorem dirIp_ok : DirOk dirFs dirIp :=
  ⟨by rw [dirIp, dirFs_dinode_one]; rfl, by rw [dirIp, dirFs_dinode_one]; rfl,
    fun p _ upper => absurd upper (by rw [dirIp, dirFs_dinode_one]; simp [emptyDir, Dinode.zero])⟩

theorem dirlink_then_dirlookup_empty :
    Mkfs.sb.Laid ∧ Sound dirFs dirFs.dinode ∧ DirOk dirFs dirIp ∧
      match dirlink (fun _ => 97) 0 dirFs dirIp 2 (fun _ => 0) with
      | .ok (r, dp', fs') =>
          Sound fs' fs'.dinode ∧ fs'.dinode 1 = dp'.din ∧
          (r = 0 → DirOk fs' dp' ∧
            dirlookup (fun _ => 97) 0 fs' dp' = .ok (some (2, direntSize * freeSlot dirFs.blocks dirIp.din), dp', fs') ∧
            ∀ k < dirIp.din.size / direntSize, k ≠ freeSlot dirFs.blocks dirIp.din →
              entry fs'.blocks dp'.din k = entry dirFs.blocks dirIp.din k) ∧
          (r ≠ 0 → r = -1 ∧ ((lookup (fun _ => 97) 0 dirFs.blocks dirIp.din).isSome ∨
            (∀ c < dirFs.sb.size, fs'.used c = true) ∨ dirIp.din.size = maxFile * bSize))
      | .error _ => True :=
  ⟨mkfs_sb_laid, dirFs_sound, dirIp_ok,
    dirlink_then_dirlookup mkfs_sb_laid dirFs_sound (by decide) rfl dirIp_ok _ 0 2 _ (by decide) (by decide)⟩

theorem dirlookup_finds_first_empty :
    DirOk dirFs dirIp ∧
      ∃ found, dirlookup (fun _ => 97) 0 dirFs dirIp = .ok (found, dirIp, dirFs) ∧
        (found = none ↔ ∀ k < dirIp.din.size / direntSize, Names (fun _ => 97) 0 (entry dirFs.blocks dirIp.din k) = false) ∧
        ∀ inum off, found = some (inum, off) ↔
          ∃ k < dirIp.din.size / direntSize, off = direntSize * k ∧ inum = readLE (entry dirFs.blocks dirIp.din k) 0 2 ∧
            Names (fun _ => 97) 0 (entry dirFs.blocks dirIp.din k) = true ∧
            ∀ j < k, Names (fun _ => 97) 0 (entry dirFs.blocks dirIp.din j) = false :=
  ⟨dirIp_ok, dirlookup_finds_first dirIp_ok _ 0⟩

end Empty

end Xv6.Fs
