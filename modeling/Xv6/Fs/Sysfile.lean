import Mathlib
import Xv6.Fs.Itable
import Xv6.Fs.Dir

/-!
The directory calls of `kernel/sysfile.c`: `create`, `sys_link` and
`sys_unlink` with `isdirempty`, as calls on the inode table of
`Xv6.Fs.Itable`. `namei` and `nameiparent` are not modelled here: a call is
given the entries they returned, with the reference they took, and the last
path element they left in `name`. `begin_op` and `end_op` around a call are the
table's own events. A call is one step: its sleep-locks on `dp` and `ip` keep
every other call off those inodes, and `iunlock` is left out with them, so
`iunlockput` is `iput`. There is one device.

The kernel writes a directory only through `dirlink` and `sys_unlink`: the
inode layer's `writei` is called on files. Over every run of these calls from a
formed disk whose directories are in shape, every directory keeps whole
entries, every entry names an inode of the disk, and no two entries in use of
one directory have names that `namecmp` finds equal. `create` gives back its
caller's reference to the parent and takes exactly one to the inode it
returns, on every path.
-/

namespace Xv6.Fs

open Bytes
open Machine (Returns returns_ok returns_error returns_pure bind_eq_ok)

section Calls

/-- `namecmp(s, t)`. -/
def namecmp (s : Mem) (p : Nat) (t : Mem) (q : Nat) : Int := strncmp s p t q dirSiz

/-- A string constant of the kernel, at address 0 of a memory of its own. -/
def literal (s : List UInt8) : Mem := bufOf (s ++ [0])

/-- `"."`. -/
def dot : Mem := literal [46]

/-- `".."`. -/
def dotdot : Mem := literal [46, 46]

-- `ran` is what the termination proof reads
set_option linter.unusedVariables false in
/-- The loop of `isdirempty(dp)` from offset `off`. -/
def isdiremptyLoop (fs : State) (dp : Inode) (off : Nat) : Except String (Bool × Inode × State) :=
  if _ : off < dp.din.size then
    match ran : readi (fun _ _ => true) fs dp 0 off direntSize with
    | .error msg => .error msg
    | .ok (r, bytes, dp', fs') =>
        if r ≠ direntSize then .error "isdirempty: readi"
        else if readLE (bufOf bytes) 0 2 ≠ 0 then .ok (false, dp', fs')
        else isdiremptyLoop fs' dp' (off + direntSize)
  else .ok (true, dp, fs)
termination_by dp.din.size - off
decreasing_by
  have := readi_size _ ran
  simp only [direntSize]
  omega

/-- `isdirempty(dp)`: no entry past `.` and `..` in use. -/
def isdirempty (fs : State) (dp : Inode) : Except String (Bool × Inode × State) :=
  isdiremptyLoop fs dp (2 * direntSize)

namespace Sys

/-- `ilock(ip)` of entry `k`. -/
def ilock (s : Sys) (k : Fin nInode) : Except String Sys := do
  let ip ← Fs.ilock s.fs (s.itable.inode k)
  return { s with itable := s.itable.set k ip }

/-- `iput(ip)` of entry `k`: the caller gives its reference back. -/
def iput (s : Sys) (k : Fin nInode) : Except String Sys := do
  let (t, fs) ← Fs.iput s.fs s.itable k
  return { s with fs, itable := t, held := Function.update s.held k (s.held k - 1) }

/-- The caller sets the fields of the locked inode `k` to `din` and calls `iupdate(ip)`. -/
def iupdate (s : Sys) (k : Fin nInode) (din : Dinode) : Except String Sys := do
  let ip := { s.itable.inode k with din }
  let fs ← Fs.iupdate s.fs ip
  return { s with fs, itable := s.itable.set k ip }

/-- `dirlookup(dp, name, &off)` on entry `k`: the entry `iget` gives for the
inode found, and the offset of the directory entry. -/
def dirlookup (s : Sys) (k : Fin nInode) (kmem : Mem) (name : Nat) :
    Except String (Option (Fin nInode × Nat) × Sys) := do
  let (found, dp, fs) ← Fs.dirlookup kmem name s.fs (s.itable.inode k)
  let s := { s with fs, itable := s.itable.set k dp }
  match found with
  | none => return (none, s)
  | some (inum, off) =>
      let (j, t) ← Fs.iget s.itable inum
      return (some (j, off), { s with itable := t, held := Function.update s.held j (s.held j + 1) })

/-- `dirlink(dp, name, inum)` on entry `k`. `Fs.dirlink` is the C function
without the inode table: the inode its lookup finds is taken here and put
back, and when it finds none it goes on from the same lookup. -/
def dirlink (s : Sys) (k : Fin nInode) (kmem : Mem) (name inum : Nat) (de : Mem) : Except String (Int × Sys) := do
  let (found, s') ← s.dirlookup k kmem name
  match found with
  | some (ip, _) => do
      let s' ← s'.iput ip
      return (-1, s')
  | none => do
      let (r, dp, fs) ← Fs.dirlink kmem name s.fs (s.itable.inode k) inum de
      return (r, { s with fs, itable := s.itable.set k dp })

/-- `ialloc(dev, type)`. -/
def ialloc (s : Sys) (type : Int16) : Except String (Option (Fin nInode) × Sys) := do
  let (found, t, fs) ← Fs.ialloc s.fs s.itable type
  match found with
  | none => return (none, { s with fs, itable := t })
  | some k => return (some k, { s with fs, itable := t, held := Function.update s.held k (s.held k + 1) })

/-- `isdirempty(dp)` of entry `k`. -/
def isdirempty (s : Sys) (k : Fin nInode) : Except String (Bool × Sys) := do
  let (empty, dp, fs) ← Fs.isdirempty s.fs (s.itable.inode k)
  return (empty, { s with fs, itable := s.itable.set k dp })

end Sys

/-- `create`'s `fail:`: the new inode `ip` loses its link, and both are put. -/
def createFail (s : Sys) (dp ip : Fin nInode) : Except String (Option (Fin nInode) × Sys) := do
  let s ← s.iupdate ip { (s.itable.inode ip).din with nlink := 0 }
  let s ← s.iput ip
  let s ← s.iput dp
  return (none, s)

/-- `create` from `dirlink(dp, name, ip->inum)` on. -/
def createName (s : Sys) (dp ip : Fin nInode) (kmem : Mem) (name : Nat) (type : Int16) (de : Mem) :
    Except String (Option (Fin nInode) × Sys) := do
  let (r, s) ← s.dirlink dp kmem name (s.itable.inode ip).inum de
  if r < 0 then createFail s dp ip
  else do
    -- success is guaranteed now: `dp` gains the link of the new directory's `..`
    let s ← (if type = tDir then
        s.iupdate dp { (s.itable.inode dp).din with nlink := (s.itable.inode dp).din.nlink + 1 }
      else pure s)
    let s ← s.iput dp
    return (some ip, s)

/-- `create` from the `.` and `..` of a new directory on; `.` takes no link, to
avoid a cyclic count. -/
def createDots (s : Sys) (dp ip : Fin nInode) (kmem : Mem) (name : Nat) (type : Int16) (de : Mem) :
    Except String (Option (Fin nInode) × Sys) :=
  if type = tDir then do
    let (r, s) ← s.dirlink ip dot 0 (s.itable.inode ip).inum de
    if r < 0 then createFail s dp ip
    else do
      let (r, s) ← s.dirlink ip dotdot 0 (s.itable.inode dp).inum de
      if r < 0 then createFail s dp ip
      else createName s dp ip kmem name type de
  else createName s dp ip kmem name type de

/-- `create(path, type, major, minor)` once `nameiparent` has returned the
entry `dp` and left the last element of the path in `name`; `de` is what each
`dirlink`'s local `struct dirent` holds before it is filled. -/
def create (s : Sys) (dp : Fin nInode) (kmem : Mem) (name : Nat) (type major minor : Int16) (de : Mem) :
    Except String (Option (Fin nInode) × Sys) := do
  let s ← s.ilock dp
  let (found, s) ← s.dirlookup dp kmem name
  match found with
  | some (ip, _) => do
      let s ← s.iput dp
      let s ← s.ilock ip
      let t := (s.itable.inode ip).din.type
      if type = tFile ∧ (t = tFile ∨ t = tDevice) then return (some ip, s)
      else do
        let s ← s.iput ip
        return (none, s)
  | none => do
      let (allocated, s) ← s.ialloc type
      match allocated with
      | none => do
          let s ← s.iput dp
          return (none, s)
      | some ip => do
          let s ← s.ilock ip
          let s ← s.iupdate ip { (s.itable.inode ip).din with major, minor, nlink := 1 }
          createDots s dp ip kmem name type de

/-- `sys_unlink`'s `bad:`. -/
def unlinkBad (s : Sys) (dp : Fin nInode) : Except String (Int × Sys) := do
  let s ← s.iput dp
  return (-1, s)

/-- `sys_unlink()` from the removal of the entry at `off` of `dp` naming `ip` on. -/
def unlinkEntry (s : Sys) (dp ip : Fin nInode) (off : Nat) : Except String (Int × Sys) := do
  -- the entry is overwritten with a zeroed `de`
  let (r, dpIp, fs) ← writei (Vm.eitherCopyin ⟨fun _ => 0, [], 0⟩ 0 false) s.fs (s.itable.inode dp) 0 off
    direntSize
  let s := { s with fs, itable := s.itable.set dp dpIp }
  if r ≠ direntSize then .error "unlink: writei"
  else do
    let s ← (if (s.itable.inode ip).din.type = tDir then
        s.iupdate dp { (s.itable.inode dp).din with nlink := (s.itable.inode dp).din.nlink - 1 }
      else pure s)
    let s ← s.iput dp
    let s ← s.iupdate ip { (s.itable.inode ip).din with nlink := (s.itable.inode ip).din.nlink - 1 }
    let s ← s.iput ip
    return (0, s)

/-- `sys_unlink()` once `nameiparent(path, name)` has returned the entry `dp`. -/
def sysUnlink (s : Sys) (dp : Fin nInode) (kmem : Mem) (name : Nat) : Except String (Int × Sys) := do
  let s ← s.ilock dp
  -- `.` and `..` cannot be unlinked
  if namecmp kmem name dot 0 = 0 ∨ namecmp kmem name dotdot 0 = 0 then unlinkBad s dp
  else do
    let (found, s) ← s.dirlookup dp kmem name
    match found with
    | none => unlinkBad s dp
    | some (ip, off) => do
        let s ← s.ilock ip
        if (s.itable.inode ip).din.nlink < 1 then .error "unlink: nlink < 1"
        else do
          let (empty, s) ← (if (s.itable.inode ip).din.type = tDir then s.isdirempty ip else pure (true, s))
          if !empty then do
            let s ← s.iput ip
            unlinkBad s dp
          else unlinkEntry s dp ip off

/-- `sys_link`'s `bad:`: the link taken for the new name is given back. -/
def linkBad (s : Sys) (ip : Fin nInode) : Except String (Int × Sys) := do
  let s ← s.ilock ip
  let s ← s.iupdate ip { (s.itable.inode ip).din with nlink := (s.itable.inode ip).din.nlink - 1 }
  let s ← s.iput ip
  return (-1, s)

/-- `sys_link()` once `namei(old)` has returned `ip` and `nameiparent(new, name)`
returns `dp`; `none` is their `0`. -/
def sysLink (s : Sys) (ip dp : Option (Fin nInode)) (kmem : Mem) (name : Nat) (de : Mem) :
    Except String (Int × Sys) :=
  match ip with
  | none => .ok (-1, s)
  | some ip => do
      let s ← s.ilock ip
      if (s.itable.inode ip).din.type = tDir then do
        let s ← s.iput ip
        return (-1, s)
      else do
        let s ← s.iupdate ip { (s.itable.inode ip).din with nlink := (s.itable.inode ip).din.nlink + 1 }
        match dp with
        | none => linkBad s ip
        | some dp => do
            let s ← s.ilock dp
            let (r, s) ← s.dirlink dp kmem name (s.itable.inode ip).inum de
            if r < 0 then do
              let s ← s.iput dp
              linkBad s ip
            else do
              let s ← s.iput dp
              let s ← s.iput ip
              return (0, s)

end Calls

section System

/-- The calls of the kernel on the file system: the inode layer's, and the
three that change directories, each given the entries its lookups returned. -/
inductive Call where
  | inode (e : Event)
  | create (dp : Fin nInode) (kmem : Mem) (name : Nat) (type major minor : Int16) (de : Mem)
  | link (ip dp : Option (Fin nInode)) (kmem : Mem) (name : Nat) (de : Mem)
  | unlink (dp : Fin nInode) (kmem : Mem) (name : Nat)

/-- One call. `writei` of the inode layer is not called on a directory, and a
directory call is made only with the references its lookups hold. -/
def call (s : Sys) : Call → Except String Sys
  | .inode (.writei k phys src off n) =>
      if (s.itable.inode k).din.type = tDir then .ok s else step s (.writei k phys src off n)
  | .inode e => step s e
  | .create dp kmem name type major minor de =>
      if 0 < s.held dp then do
        let (_, s) ← create s dp kmem name type major minor de
        return s
      else .ok s
  | .link ip dp kmem name de =>
      if (ip.all fun k => 0 < s.held k) ∧ (dp.all fun k => 0 < s.held k) then do
        let (_, s) ← sysLink s ip dp kmem name de
        return s
      else .ok s
  | .unlink dp kmem name =>
      if 0 < s.held dp then do
        let (_, s) ← sysUnlink s dp kmem name
        return s
      else .ok s

abbrev DirReachable (fs : State) (s : Sys) : Prop := Machine.Reachable call (boot fs) s

end System

section Shape

variable {disk disk' : Disk} {d d' : Dinode} {n : Nat} {fs fs' : State}

/-- A directory as `dirlink` and `sys_unlink` keep it, on a disk of `ninodes`
inodes: whole entries, each naming an inode of the disk, and no two in use whose
names `namecmp` finds equal. -/
structure DirShape (disk : Disk) (ninodes : Nat) (d : Dinode) : Prop where
  whole : d.size % direntSize = 0
  inside : ∀ k < d.size / direntSize, readLE (entry disk d k) 0 2 < ninodes
  unique : ∀ a < d.size / direntSize, ∀ b < d.size / direntSize,
    readLE (entry disk d a) 0 2 ≠ 0 → readLE (entry disk d b) 0 2 ≠ 0 →
    StrEq (entry disk d a) 2 (entry disk d b) 2 dirSiz → a = b

/-- Every directory of the disk is in shape. -/
def Dirs (fs : State) : Prop :=
  ∀ i < fs.sb.ninodes, (fs.dinode i).type = tDir → DirShape fs.blocks fs.sb.ninodes (fs.dinode i)

theorem DirShape.empty (empty : d.size = 0) : DirShape disk n d :=
  ⟨by simp [empty], fun k inside => by simp [empty] at inside, fun a inside => by simp [empty] at inside⟩

/-- The entries of a file read its block numbers only. -/
theorem entry_of_addrs (same : d'.addrs = d.addrs) (k : Nat) : entry disk d' k = entry disk d k := by
  have addr : ∀ a, d'.addr a = d.addr a := fun a => by simp only [Dinode.addr, same]
  simp only [entry, fileBytes, fileByte, blockAt, addr]

theorem entry_of_agree (agree : AgreeOn disk disk' d) (dense : Present disk d 0 d.size) {k : Nat}
    (inside : k < d.size / direntSize) : entry disk' d k = entry disk d k := by
  funext i
  by_cases below : i < direntSize
  · rw [entry_apply _ _ _ below, entry_apply _ _ _ below]
    have present := dense (direntSize * k + i) (Nat.zero_le _) (by simp only [direntSize] at *; omega)
    exact fileByte_of_agree agree present.1 present.2
  · rw [entry_past _ _ _ (Nat.not_lt.mp below), entry_past _ _ _ (Nat.not_lt.mp below)]

theorem DirShape.of_entries (shape : DirShape disk n d) (size : d'.size = d.size)
    (same : ∀ k < d.size / direntSize, entry disk' d' k = entry disk d k) : DirShape disk' n d' := by
  refine ⟨size ▸ shape.whole, fun k inside => ?_, fun a inA b inB usedA usedB named => ?_⟩
  · rw [size] at inside
    rw [same k inside]
    exact shape.inside k inside
  · rw [size] at inA inB
    rw [same a inA] at usedA named
    rw [same b inB] at usedB named
    exact shape.unique a inA b inB usedA usedB named

theorem Dirs.frame (dirs : Dirs fs) (formed : Formed fs) (sb : fs'.sb = fs.sb) {i : Nat}
    (self : (fs'.dinode i).type = tDir → DirShape fs'.blocks fs.sb.ninodes (fs'.dinode i))
    (others : ∀ j < fs.sb.ninodes, j ≠ i → fs'.dinode j = fs.dinode j ∧ AgreeOn fs.blocks fs'.blocks (fs.dinode j)) :
    Dirs fs' := by
  intro j inode isDir
  rw [sb] at inode ⊢
  by_cases own : j = i
  · rw [own] at isDir ⊢
    exact self isDir
  · obtain ⟨same, agree⟩ := others j inode own
    rw [same] at isDir ⊢
    exact (dirs j inode isDir).of_entries rfl fun k inside => entry_of_agree agree (formed.dense j inode) inside

theorem StrEq.congr {m₁ m₂ m₁' m₂' : Mem} {p q : Nat} (left : ∀ i < dirSiz, m₁ (p + i) = m₂ (p + i))
    (right : ∀ i < dirSiz, m₁' (q + i) = m₂' (q + i)) (same : StrEq m₁ p m₁' q dirSiz) : StrEq m₂ p m₂' q dirSiz :=
  fun i below before => by
    rw [← left i below, ← right i below]
    exact same i below fun j earlier => by rw [left j (by omega)]; exact before j earlier

/-- Writing the 16 bytes of `mem` as entry `s` of a directory in shape keeps it
in shape when the new entry names an inode of the disk and, in use, has a name
no other entry in use has. -/
theorem DirShape.write {dp dp' : Inode} (shape : DirShape fs.blocks n dp.din) {mem : Mem} {s : Nat}
    (slot : s ≤ dp.din.size / direntSize) (stored : Stored mem fs dp 0 (direntSize * s) direntSize dp' fs')
    (number : readLE mem 0 2 < n)
    (fresh : readLE mem 0 2 ≠ 0 → ∀ b < dp.din.size / direntSize, b ≠ s →
      readLE (entry fs.blocks dp.din b) 0 2 ≠ 0 → ¬ StrEq mem 2 (entry fs.blocks dp.din b) 2 dirSiz) :
    DirShape fs'.blocks n dp'.din := by
  have whole := shape.whole
  have size := stored.size
  -- entry `k` after the write: `mem` at `s`, the old entry elsewhere
  have at_s : ∀ k < dp'.din.size / direntSize, ∀ i < direntSize,
      entry fs'.blocks dp'.din k i = if k = s then mem i else entry fs.blocks dp.din k i :=
    fun k inside i below => entry_stored stored inside below
  have old : ∀ k < dp'.din.size / direntSize, k ≠ s → k < dp.din.size / direntSize := by
    intro k inside other
    rw [size] at inside
    simp only [direntSize] at *
    omega
  have number' : ∀ k < dp'.din.size / direntSize,
      readLE (entry fs'.blocks dp'.din k) 0 2 = if k = s then readLE mem 0 2 else readLE (entry fs.blocks dp.din k) 0 2 := by
    intro k inside
    split
    · exact readLE_congr fun i _ upper => by rw [at_s k inside i (by simp only [direntSize]; omega), if_pos ‹_›]
    · exact readLE_congr fun i _ upper => by rw [at_s k inside i (by simp only [direntSize]; omega), if_neg ‹_›]
  have name : ∀ k < dp'.din.size / direntSize, ∀ i < dirSiz,
      entry fs'.blocks dp'.din k (2 + i) = if k = s then mem (2 + i) else entry fs.blocks dp.din k (2 + i) :=
    fun k inside i below => at_s k inside (2 + i) (by simp only [direntSize, dirSiz] at *; omega)
  refine ⟨?_, fun k inside => ?_, fun a inA b inB usedA usedB named => ?_⟩
  · rw [size]
    simp only [direntSize] at *
    omega
  · rw [number' k inside]
    split
    · exact number
    · exact shape.inside k (old k inside ‹_›)
  · rw [number' a inA] at usedA
    rw [number' b inB] at usedB
    -- the new entry against an old one, either way round, or two old entries
    by_cases hereA : a = s <;> by_cases hereB : b = s
    · rw [hereA, hereB]
    · rw [if_pos hereA] at usedA
      rw [if_neg hereB] at usedB
      refine absurd ?_ (fresh usedA b (old b inB hereB) hereB usedB)
      exact StrEq.congr (fun i below => by rw [name a inA i below, if_pos hereA])
        (fun i below => by rw [name b inB i below, if_neg hereB]) named
    · rw [if_neg hereA] at usedA
      rw [if_pos hereB] at usedB
      refine absurd (StrEq.symm ?_) (fresh usedB a (old a inA hereA) hereA usedA)
      exact StrEq.congr (fun i below => by rw [name a inA i below, if_neg hereA])
        (fun i below => by rw [name b inB i below, if_pos hereB]) named
    · rw [if_neg hereA] at usedA
      rw [if_neg hereB] at usedB
      exact shape.unique a (old a inA hereA) b (old b inB hereB) usedA usedB
        (StrEq.congr (fun i below => by rw [name a inA i below, if_neg hereA])
          (fun i below => by rw [name b inB i below, if_neg hereB]) named)

end Shape

section Whole

variable {fs fs' : State} {ip ip' : Inode} {src off n : Nat}

theorem writeLoop_whole (copyin : Mem → Nat → Nat → Nat → Int × Mem) (inside : off % bSize + n ≤ bSize)
    {tot off' : Nat} (ran : writeLoop copyin fs ip src off 0 n = .ok (tot, off', ip', fs')) : tot = 0 ∨ tot = n := by
  rw [writeLoop] at ran
  split at ran
  · obtain ⟨⟨addr, ip1, fs1⟩, -, rest⟩ := bind_eq_ok ran
    have chunk : min (n - 0) (bSize - off % bSize) = n := by omega
    by_cases zero : addr = 0
    · simp only [zero, ↓reduceIte, Machine.pure_eq_ok, Except.ok.injEq, Prod.mk.injEq] at rest
      exact .inl rest.1.symm
    · simp only [zero, ↓reduceIte, chunk] at rest
      split at rest
      · simp only [Machine.pure_eq_ok, Except.ok.injEq, Prod.mk.injEq] at rest
        exact .inl rest.1.symm
      · obtain ⟨fs2, -, next⟩ := bind_eq_ok rest
        rw [writeLoop, dif_neg (by omega)] at next
        cases next
        exact .inr (by omega)
  · cases ran
    exact .inl rfl

theorem writei_whole (copyin : Mem → Nat → Nat → Nat → Int × Mem) {r : Int} (inside : off % bSize + n ≤ bSize)
    (ran : writei copyin fs ip src off n = .ok (r, ip', fs')) : r = -1 ∨ r = 0 ∨ r = n := by
  unfold writei at ran
  split at ran
  · cases ran
    exact .inl rfl
  split at ran
  · cases ran
    exact .inl rfl
  obtain ⟨⟨tot, off', ip1, fs1⟩, looped, rest⟩ := bind_eq_ok ran
  dsimp only at rest
  obtain ⟨fs2, -, done⟩ := bind_eq_ok rest
  cases done
  rcases writeLoop_whole copyin inside looped with none | whole
  · exact .inr (.inl (by rw [none]; rfl))
  · exact .inr (.inr (by rw [whole]))

theorem entry_stored_none {mem : Mem} (stored : Stored mem fs ip src off 0 ip' fs') (within : off ≤ ip.din.size)
    {k : Nat} (inside : k < ip.din.size / direntSize) : entry fs'.blocks ip'.din k = entry fs.blocks ip.din k := by
  funext i
  by_cases below : i < direntSize
  · have size := stored.size
    rw [entry_apply _ _ _ below, entry_apply _ _ _ below, stored.content _ (by simp only [direntSize] at *; omega),
      if_neg (by omega)]
  · rw [entry_past _ _ _ (Nat.not_lt.mp below), entry_past _ _ _ (Nat.not_lt.mp below)]

end Whole

section Events

variable {s s' : Sys}

theorem dirs_beginOp (dirs : Dirs s.fs) (stepped : step s .beginOp = .ok s') : Dirs s'.fs := by
  simp only [step] at stepped
  split at stepped <;> cases stepped <;> exact dirs

theorem dirs_endOp (dirs : Dirs s.fs) (stepped : step s .endOp = .ok s') : Dirs s'.fs := by
  simp only [step] at stepped
  split at stepped
  · obtain ⟨⟨log, doCommit⟩, -, rest⟩ := bind_eq_ok stepped
    cases rest
    exact dirs
  · cases stepped
    exact dirs

theorem step_fs_of_table (stepped : step s e = .ok s')
    (table : (∃ inum, e = .iget inum) ∨ (∃ k, e = .idup k) ∨ ∃ k, e = .ilock k) : s'.fs = s.fs := by
  rcases table with ⟨inum, rfl⟩ | ⟨k, rfl⟩ | ⟨k, rfl⟩ <;> simp only [step] at stepped <;> split at stepped
  · obtain ⟨⟨k, t⟩, -, rest⟩ := bind_eq_ok stepped
    cases rest
    rfl
  · cases stepped
    rfl
  · cases stepped
    rfl
  · cases stepped
    rfl
  · obtain ⟨ip, -, rest⟩ := bind_eq_ok stepped
    cases rest
    rfl
  · cases stepped
    rfl

theorem dirs_writei (inv : Inv s) (dirs : Dirs s.fs) {k : Fin nInode} {phys : Vm.Phys} {src off n : Nat}
    (file : (s.itable.inode k).din.type ≠ tDir) (stepped : step s (.writei k phys src off n) = .ok s') :
    Dirs s'.fs := by
  simp only [step] at stepped
  split at stepped
  · rename_i guard
    obtain ⟨live, loaded, small⟩ := guard
    obtain ⟨⟨r, ip', fs'⟩, wrote, rest⟩ := bind_eq_ok stepped
    cases rest
    have synced := inv.synced k live loaded
    have inode := inv.inside k live
    by_cases checks : off ≤ (s.itable.inode k).din.size ∧ off + n ≤ maxFile * bSize
    · have dense : Present s.fs.blocks (s.itable.inode k).din 0 (s.itable.inode k).din.size := by
        rw [synced]
        exact inv.formed.dense _ inode
      obtain ⟨m, -, -, stored, -⟩ :=
        writei_spec phys 0 inv.formed.laid inv.formed.sound inode synced dense checks.1 checks.2 wrote
      -- the file keeps its type, which is not a directory's
      refine dirs.frame inv.formed stored.sb (fun isDir => absurd ?_ file) stored.others
      rw [stored.synced, stored.shape] at isDir
      exact isDir
    · rw [writei_of_fail _ (synced ▸ (Dinode.read_fits _ _).size) small checks] at wrote
      cases wrote
      exact dirs
  · cases stepped
    exact dirs

theorem dirs_iput (inv : Inv s) (dirs : Dirs s.fs) {k : Fin nInode} (stepped : step s (.iput k) = .ok s') :
    Dirs s'.fs := by
  simp only [step] at stepped
  split at stepped
  · rename_i live
    obtain ⟨⟨t, fs'⟩, put, rest⟩ := bind_eq_ok stepped
    cases rest
    unfold iput at put
    obtain ⟨⟨ip', fs2⟩, freed, rest⟩ := bind_eq_ok put
    cases rest
    by_cases freeing : (s.itable.inode k).ref = 1 ∧ (s.itable.inode k).valid ∧ (s.itable.inode k).din.nlink = 0
    · obtain ⟨-, -, -, released⟩ := (iputFree_released inv.formed.laid inv.formed.sound (inv.inside k live)
        (inv.synced k live freeing.2.1) freeing).of_ok freed
      refine dirs.frame inv.formed released.sb (fun isDir => absurd ?_ (by decide : (0 : Int16) ≠ tDir))
        released.others
      rw [released.stored] at isDir
      exact isDir
    · rw [iputFree_of_kept freeing] at freed
      cases freed
      exact dirs
  · cases stepped
    exact dirs

theorem dirs_ialloc (inv : Inv s) (dirs : Dirs s.fs) {type : Int16} (stepped : step s (.ialloc type) = .ok s') :
    Dirs s'.fs := by
  simp only [step] at stepped
  obtain ⟨⟨found, t, fs'⟩, allocated, rest⟩ := bind_eq_ok stepped
  have same : s'.fs = fs' := by split at rest <;> cases rest <;> rfl
  rw [same]
  unfold ialloc at allocated
  obtain ⟨⟨found1, fs1⟩, looped, rest1⟩ := bind_eq_ok allocated
  rcases (iallocLoop_returns s.fs type _).of_ok looped with ⟨none1, unchanged, -⟩ | ⟨inum, member, some1, -, w⟩
  · dsimp only at none1 unchanged
    subst none1 unchanged
    cases rest1
    exact dirs
  · dsimp only at some1 w
    subst some1
    obtain ⟨⟨k, t1⟩, -, rest2⟩ := bind_eq_ok rest1
    cases rest2
    have inode : inum < s.fs.sb.ninodes := by
      have := List.mem_range'_1.mp member
      omega
    obtain ⟨self, -, -, others⟩ := Sound.store_empty inv.formed.sound inv.formed.laid inode w
      (Dinode.emptied_fits { Dinode.zero with type }) (fun a => by simp [Dinode.addr, Dinode.zero])
    exact dirs.frame inv.formed w.sb (fun _ => by rw [self]; exact DirShape.empty rfl) others

theorem dirs_step (inv : Inv s) (dirs : Dirs s.fs) {e : Event}
    (files : ∀ k phys src off n, e = .writei k phys src off n → (s.itable.inode k).din.type ≠ tDir)
    (stepped : step s e = .ok s') : Dirs s'.fs := by
  cases e with
  | beginOp => exact dirs_beginOp dirs stepped
  | endOp => exact dirs_endOp dirs stepped
  | iget inum => exact step_fs_of_table stepped (.inl ⟨inum, rfl⟩) ▸ dirs
  | ialloc type => exact dirs_ialloc inv dirs stepped
  | idup k => exact step_fs_of_table stepped (.inr (.inl ⟨k, rfl⟩)) ▸ dirs
  | ilock k => exact step_fs_of_table stepped (.inr (.inr ⟨k, rfl⟩)) ▸ dirs
  | writei k phys src off n => exact dirs_writei inv dirs (files k phys src off n rfl) stepped
  | iput k => exact dirs_iput inv dirs stepped

end Events

section Table

variable {s s' : Sys} {k : Fin nInode}

/-- The invariant of the kernel over the directory calls: the table's, and
every directory in shape. -/
structure DirInv (s : Sys) : Prop where
  inv : Inv s
  dirs : Dirs s.fs

/-- Entry `k` is held by a caller and loaded. -/
def Loaded (s : Sys) (k : Fin nInode) : Prop := 0 < s.held k ∧ (s.itable.inode k).valid = true

/-- Every entry held and loaded in `s` still is in `s'`, for the same inode,
with no fewer references. -/
def Stays (s s' : Sys) : Prop :=
  ∀ j, Loaded s j → Loaded s' j ∧ (s'.itable.inode j).inum = (s.itable.inode j).inum ∧ s.held j ≤ s'.held j

theorem Stays.refl (s : Sys) : Stays s s := fun _ loaded => ⟨loaded, rfl, le_rfl⟩

theorem Stays.trans {s'' : Sys} (first : Stays s s') (second : Stays s' s'') : Stays s s'' := by
  intro j loaded
  obtain ⟨loaded', inum', held'⟩ := first j loaded
  obtain ⟨loaded'', inum'', held''⟩ := second j loaded'
  exact ⟨loaded'', inum''.trans inum', held'.trans held''⟩

theorem Itable.set_inode (t : Itable) (k : Fin nInode) : t.set k (t.inode k) = t := by
  cases t
  simp [Itable.set]

/-- A loaded directory is in shape, as its inode on disk is. -/
theorem DirInv.shape (inv : DirInv s) (loaded : Loaded s k) (isDir : (s.itable.inode k).din.type = tDir) :
    DirShape s.fs.blocks s.fs.sb.ninodes (s.itable.inode k).din := by
  have synced := inv.inv.synced k loaded.1 loaded.2
  rw [synced] at isDir ⊢
  exact inv.dirs _ (inv.inv.inside k loaded.1) isDir

theorem DirInv.dirOk (inv : DirInv s) (loaded : Loaded s k) (isDir : (s.itable.inode k).din.type = tDir) :
    DirOk s.fs (s.itable.inode k) := by
  refine ⟨isDir, (inv.shape loaded isDir).whole, ?_⟩
  rw [inv.inv.synced k loaded.1 loaded.2]
  exact inv.inv.formed.dense _ (inv.inv.inside k loaded.1)

theorem ilock_valid {fs : State} {ip ip' : Inode} (ran : Fs.ilock fs ip = .ok ip') :
    ip'.valid = true ∧ ip'.inum = ip.inum ∧ 0 < ip.ref := by
  unfold Fs.ilock at ran
  dsimp only at ran
  split at ran
  · cases ran
  rename_i referenced
  split at ran
  · rename_i valid
    cases ran
    exact ⟨valid, rfl, by omega⟩
  split at ran
  · cases ran
  · cases ran
    exact ⟨rfl, rfl, by omega⟩

theorem Sys.ilock_step (live : 0 < s.held k) : step s (.ilock k) = s.ilock k := by
  rw [step, if_pos live]
  rfl

theorem DirInv.ilock (inv : DirInv s) (ran : s.ilock k = .ok s') :
    DirInv s' ∧ Stays s s' ∧ Loaded s' k ∧ s'.held = s.held ∧ s'.fs = s.fs ∧
      (s'.itable.inode k).inum = (s.itable.inode k).inum := by
  obtain ⟨ip, locked, rest⟩ := bind_eq_ok ran
  obtain ⟨valid, inum, ref⟩ := ilock_valid locked
  have live : 0 < s.held k := by rw [← inv.inv.refs k]; exact ref
  have inv' := inv_ilock inv.inv (by rw [Sys.ilock_step live]; exact ran)
  cases rest
  refine ⟨⟨inv', inv.dirs⟩, fun j loaded => ?_, ⟨live, by simp [valid]⟩, rfl, rfl, by simp [inum]⟩
  by_cases here : j = k
  · subst here
    exact ⟨⟨loaded.1, by simp [valid]⟩, by simp [inum], le_rfl⟩
  · simp only [Loaded, Itable.set_of_ne _ _ here] at loaded ⊢
    exact ⟨loaded, trivial, le_rfl⟩

theorem Sys.iput_step (live : 0 < s.held k) : step s (.iput k) = s.iput k := by
  rw [step, if_pos live]
  rfl

theorem Sys.iput_of_idle (inv : Inv s) (idle : s.held k = 0) : s.iput k = .ok s := by
  have ref : (s.itable.inode k).ref = 0 := by rw [inv.refs k, idle]
  have kept : ¬ ((s.itable.inode k).ref = 1 ∧ (s.itable.inode k).valid ∧ (s.itable.inode k).din.nlink = 0) :=
    fun freeing => absurd (ref ▸ freeing.1) (by decide)
  have entry : { s.itable.inode k with ref := (s.itable.inode k).ref - 1 } = s.itable.inode k := by
    cases hk : s.itable.inode k
    rw [hk] at ref
    simp only at ref ⊢
    rw [ref]
  unfold Sys.iput Fs.iput
  rw [iputFree_of_kept kept]
  simp only [Machine.ok_bind, Machine.pure_eq_ok, entry, Itable.set_inode, idle]
  rw [show (0 - 1 : Nat) = s.held k by rw [idle], Function.update_eq_self]

theorem DirInv.iput (inv : DirInv s) (ran : s.iput k = .ok s') :
    DirInv s' ∧ s'.held = Function.update s.held k (s.held k - 1) ∧
      ∀ j, Loaded s j → (j ≠ k ∨ 2 ≤ s.held j) → Loaded s' j ∧ (s'.itable.inode j).inum = (s.itable.inode j).inum := by
  rcases Nat.eq_zero_or_pos (s.held k) with idle | live
  · rw [Sys.iput_of_idle inv.inv idle] at ran
    cases ran
    refine ⟨inv, ?_, fun j loaded _ => ⟨loaded, rfl⟩⟩
    rw [idle, show (0 - 1 : Nat) = s.held k by rw [idle], Function.update_eq_self]
  · have stepped : step s (.iput k) = .ok s' := by rw [Sys.iput_step live]; exact ran
    refine ⟨⟨inv_iput inv.inv stepped, dirs_iput inv.inv inv.dirs stepped⟩, ?_, fun j loaded more => ?_⟩
    · obtain ⟨⟨t, fs'⟩, -, rest⟩ := bind_eq_ok ran
      cases rest
      rfl
    obtain ⟨⟨t, fs'⟩, put, rest⟩ := bind_eq_ok ran
    cases rest
    unfold Fs.iput at put
    obtain ⟨⟨ip', fs2⟩, freed, rest⟩ := bind_eq_ok put
    cases rest
    by_cases here : j = k
    · subst here
      -- another reference remains, so the entry is not freed
      have more : 2 ≤ s.held j := more.resolve_left (not_not.mpr rfl)
      have kept : ¬ ((s.itable.inode j).ref = 1 ∧ (s.itable.inode j).valid ∧ (s.itable.inode j).din.nlink = 0) :=
        fun freeing => by rw [inv.inv.refs j] at freeing; omega
      rw [iputFree_of_kept kept] at freed
      cases freed
      refine ⟨⟨?_, ?_⟩, ?_⟩ <;> simp only [Itable.set_self, Function.update_self]
      · omega
      · exact loaded.2
    · simp only [Loaded, Itable.set_of_ne _ _ here, Function.update_of_ne here] at loaded ⊢
      exact ⟨loaded, trivial⟩

theorem DirInv.iput_loaded (inv : DirInv s) (ran : s.iput k = .ok s') {j : Fin nInode} (loaded : Loaded s j)
    (twice : j = k → 2 ≤ s.held k) : Loaded s' j := by
  refine ((inv.iput ran).2.2 j loaded ?_).1
  by_cases same : j = k
  · right
    rw [same]
    exact twice same
  · exact .inl same

theorem refAt_of_addrs {disk : Disk} {d d' : Dinode} (same : d'.addrs = d.addrs) (sl : Slot) (c : Nat) :
    RefAt disk d' sl c ↔ RefAt disk d sl c := by
  have addr : ∀ a, d'.addr a = d.addr a := fun a => by simp only [Dinode.addr, same]
  cases sl <;> simp only [RefAt, slotBlock, blockAt, addr]

theorem DirInv.iupdate (inv : DirInv s) (loaded : Loaded s k) {din : Dinode}
    (same : din = { (s.itable.inode k).din with major := din.major, minor := din.minor, nlink := din.nlink })
    (ran : s.iupdate k din = .ok s') :
    DirInv s' ∧ Stays s s' ∧ s'.held = s.held ∧ s'.itable.inode k = { s.itable.inode k with din } ∧
      s'.fs.dinode (s.itable.inode k).inum = din ∧
      ∀ i, i ≠ (s.itable.inode k).inum → s'.fs.dinode i = s.fs.dinode i := by
  obtain ⟨fs', stored, rest⟩ := bind_eq_ok ran
  cases rest
  have synced := inv.inv.synced k loaded.1 loaded.2
  have inode := inv.inv.inside k loaded.1
  have w := iupdate_wrote stored
  dsimp only at w
  have addrs : din.addrs = (s.fs.dinode (s.itable.inode k).inum).addrs := by rw [same, ← synced]
  have size : din.size = (s.fs.dinode (s.itable.inode k).inum).size := by rw [same, ← synced]
  have addr : ∀ a, din.addr a = (s.fs.dinode (s.itable.inode k).inum).addr a := fun a => by
    simp only [Dinode.addr, addrs]
  have fits : din.Fits := by
    have old : (s.fs.dinode (s.itable.inode k).inum).Fits := Dinode.read_fits _ _
    exact ⟨size ▸ old.size, fun a below => addr a ▸ old.addrs a below⟩
  have early : iblock s.fs.sb (s.itable.inode k).inum < s.fs.sb.dataStart := by
    have := inv.inv.formed.laid.iblock_lt inode
    have := bmapstart_lt_dataStart s.fs.sb
    omega
  obtain ⟨self, sound', -, others⟩ := inv.inv.formed.sound.store_fewer inv.inv.formed.laid inode w fits
    fun sl c ref => (refAt_of_addrs addrs sl c).mp ref
  -- the inode's blocks are where they were, so it is as present as before
  have blocks : ∀ bn, blockAt fs'.blocks din bn = blockAt s.fs.blocks (s.fs.dinode (s.itable.inode k).inum) bn :=
    fun bn => by
      rw [← inv.inv.formed.sound.blockAt_of_early w early inode bn]
      simp only [blockAt, addr]
  have formed : Formed fs' := inv.inv.formed.beside w.sb sound' (fun p lower upper => by
      rw [self, blocks]
      rw [self, size] at upper
      exact inv.inv.formed.dense _ inode p lower upper) others
  have typed : din.type = (s.itable.inode k).din.type := by rw [same]
  have inv' : Inv { s with fs := fs', itable := s.itable.set k { s.itable.inode k with din } } := by
    rw [← Function.update_eq_self k s.held]
    exact inv.inv.change formed w.sb
      (fun j other live' _ => (others _ (inv.inv.inside j live') fun named =>
        other (inv.inv.unique j k live' loaded.1 named)).1)
      (inv.inv.refs k) (fun _ => inode) (fun _ j other live' named => other (inv.inv.unique j k live' loaded.1 named))
      (fun _ _ => self.symm) (fun _ _ => typed ▸ inv.inv.typed k loaded.1 loaded.2)
  have dirs' : Dirs fs' := inv.dirs.frame inv.inv.formed w.sb (fun isDir => by
      rw [self] at isDir ⊢
      have shape := inv.shape loaded (typed ▸ isDir)
      rw [synced] at shape
      exact shape.of_entries size fun j inside => by
        rw [entry_of_addrs addrs]
        exact entry_of_agree (inv.inv.formed.sound.agree_of_early w early inode) (inv.inv.formed.dense _ inode) inside)
    others
  refine ⟨⟨inv', dirs'⟩, fun j loaded' => ?_, rfl, by simp, self, fun i other => ?_⟩
  · by_cases here : j = k
    · subst here
      exact ⟨⟨loaded'.1, by simpa using loaded.2⟩, by simp, le_rfl⟩
    · simp only [Loaded, Itable.set_of_ne _ _ here] at loaded' ⊢
      exact ⟨loaded', trivial, le_rfl⟩
  · by_cases inside : i < s.fs.sb.ninodes
    · exact (others i inside other).1
    · -- past the inodes the superblock counts, `dinode` reads blocks the write missed
      exact w.dinode_beside other

theorem lookup_some {kmem : Mem} {name : Nat} {disk : Disk} {d : Dinode} {inum off : Nat}
    (found : lookup kmem name disk d = some (inum, off)) :
    ∃ j < d.size / direntSize, inum = readLE (entry disk d j) 0 2 ∧ off = direntSize * j ∧
      Names kmem name (entry disk d j) = true := by
  obtain ⟨j, first, named⟩ := Option.map_eq_some_iff.mp found
  obtain ⟨hit, inside, -⟩ := List.find?_range_eq_some.mp first
  simp only [Prod.mk.injEq] at named
  exact ⟨j, List.mem_range.mp inside, named.1.symm, named.2.symm, hit⟩

theorem got_inum {t t' : Itable} {inum : Nat} {j : Fin nInode} (got : Got t inum j t') : (t'.inode j).inum = inum := by
  rcases got with ⟨-, same, rfl⟩ | ⟨-, -, rfl⟩
  · simp [same]
  · simp

theorem stays_of_got (inv : Inv s) {inum : Nat} {j : Fin nInode} {t : Itable} (got : Got s.itable inum j t) :
    Stays s { s with itable := t, held := Function.update s.held j (s.held j + 1) } := by
  intro j' loaded
  by_cases here : j' = j
  · subst here
    -- an entry in use for `inum` takes one more reference; an unused one is not loaded
    rcases got with ⟨-, -, rfl⟩ | ⟨-, unused, rfl⟩
    · exact ⟨⟨by simp, by simpa using loaded.2⟩, by simp, by simp⟩
    · have := inv.refs j'
      have := loaded.1
      omega
  · have entry : t.inode j' = s.itable.inode j' := by
      rcases got with ⟨-, -, rfl⟩ | ⟨-, -, rfl⟩ <;> exact Itable.set_of_ne _ _ here
    simp only [Loaded, entry, Function.update_of_ne here] at loaded ⊢
    exact ⟨loaded, trivial, le_rfl⟩

theorem Sys.iget_step {inum : Nat} (inside : inum < s.fs.sb.ninodes) :
    step s (.iget inum) = (do
      let (j, t) ← iget s.itable inum
      return { s with itable := t, held := Function.update s.held j (s.held j + 1) }) := by
  rw [step, if_pos inside]

theorem DirInv.dirlookup (inv : DirInv s) (loaded : Loaded s k) {kmem : Mem} {name : Nat}
    {found : Option (Fin nInode × Nat)} (ran : s.dirlookup k kmem name = .ok (found, s')) :
    DirInv s' ∧ Stays s s' ∧ s'.fs = s.fs ∧ (s.itable.inode k).din.type = tDir ∧
      (found = none → s' = s ∧ lookup kmem name s.fs.blocks (s.itable.inode k).din = none) ∧
      ∀ j off, found = some (j, off) → s'.held = Function.update s.held j (s.held j + 1) ∧
        lookup kmem name s.fs.blocks (s.itable.inode k).din = some ((s'.itable.inode j).inum, off) := by
  unfold Sys.dirlookup at ran
  obtain ⟨⟨f, dp, fs⟩, looked, rest⟩ := bind_eq_ok ran
  have isDir : (s.itable.inode k).din.type = tDir := by
    by_contra other
    rw [Fs.dirlookup, if_pos other] at looked
    cases looked
  have shape := inv.shape loaded isDir
  rw [(inv.dirOk loaded isDir).dirlookup_eq] at looked
  cases looked
  simp only [Itable.set_inode] at rest
  cases hl : lookup kmem name s.fs.blocks (s.itable.inode k).din with
  | none =>
      rw [hl] at rest
      cases rest
      exact ⟨inv, Stays.refl s, rfl, isDir, fun _ => ⟨rfl, rfl⟩, fun _ _ some => absurd some (by simp)⟩
  | some hit =>
      obtain ⟨inum, off⟩ := hit
      rw [hl] at rest
      obtain ⟨⟨j, t⟩, got, done⟩ := bind_eq_ok rest
      cases done
      obtain ⟨e, inside, number, -, -⟩ := lookup_some hl
      -- the entry found names an inode of the disk, which `iget` may take
      have small : inum < s.fs.sb.ninodes := number ▸ shape.inside e inside
      have stepped : step s (.iget inum) = .ok { s with itable := t, held := Function.update s.held j (s.held j + 1) } := by
        rw [Sys.iget_step small, got]
        rfl
      have result := (iget_returns s.itable inum).of_ok got
      refine ⟨⟨inv_iget inv.inv stepped, inv.dirs⟩, stays_of_got inv.inv result, rfl, isDir,
        fun none => absurd none (by simp), fun j' off' some => ?_⟩
      simp only [Option.some.injEq, Prod.mk.injEq] at some
      obtain ⟨rfl, rfl⟩ := some
      exact ⟨rfl, by rw [got_inum result]⟩

theorem Sys.writei_step (loaded : Loaded s k) {phys : Vm.Phys} {src off n : Nat} (small : n < 2 ^ 32) :
    step s (.writei k phys src off n) = (do
      let (_, ip, fs) ← writei (Vm.eitherCopyin phys 0 false) s.fs (s.itable.inode k) src off n
      return { s with fs, itable := s.itable.set k ip }) := by
  rw [step, if_pos ⟨loaded.1, loaded.2, small⟩]

/-- `writei` of the 16 bytes of `mem` as entry `sl` of a loaded directory,
the way `dirlink` and `sys_unlink` write one: it writes the whole entry or no
byte, and keeps the invariant when the entry names an inode of the disk and,
in use, has a name no other entry in use has. -/
theorem DirInv.writeEntry (inv : DirInv s) (loaded : Loaded s k) (isDir : (s.itable.inode k).din.type = tDir)
    {mem : Mem} {sl : Nat} (slot : sl ≤ (s.itable.inode k).din.size / direntSize)
    (number : readLE mem 0 2 < s.fs.sb.ninodes)
    (fresh : readLE mem 0 2 ≠ 0 → ∀ b < (s.itable.inode k).din.size / direntSize, b ≠ sl →
      readLE (entry s.fs.blocks (s.itable.inode k).din b) 0 2 ≠ 0 →
      ¬ StrEq mem 2 (entry s.fs.blocks (s.itable.inode k).din b) 2 dirSiz)
    {r : Int} {dp' : Inode} {fs' : State}
    (ran : writei (Vm.eitherCopyin ⟨mem, [], 0⟩ 0 false) s.fs (s.itable.inode k) 0 (direntSize * sl) direntSize =
      .ok (r, dp', fs')) :
    DirInv { s with fs := fs', itable := s.itable.set k dp' } ∧ Stays s { s with fs := fs', itable := s.itable.set k dp' } ∧
      (r = direntSize → Stored mem s.fs (s.itable.inode k) 0 (direntSize * sl) direntSize dp' fs') := by
  have stepped : step s (.writei k ⟨mem, [], 0⟩ 0 (direntSize * sl) direntSize) =
      .ok { s with fs := fs', itable := s.itable.set k dp' } := by
    rw [Sys.writei_step loaded (by decide), ran]
    rfl
  have inv' := inv_writei inv.inv stepped
  have shape := inv.shape loaded isDir
  have synced := inv.inv.synced k loaded.1 loaded.2
  have inode := inv.inv.inside k loaded.1
  have dense := (inv.dirOk loaded isDir).dense
  have whole := shape.whole
  have within : direntSize * sl ≤ (s.itable.inode k).din.size := by
    simp only [direntSize] at *
    omega
  -- the entry and the rest of the table as they were, for the entries held
  have stays : dp'.inum = (s.itable.inode k).inum → dp'.valid = (s.itable.inode k).valid →
      Stays s { s with fs := fs', itable := s.itable.set k dp' } := fun inum valid j loaded' => by
    by_cases here : j = k
    · subst here
      exact ⟨⟨loaded'.1, by simpa [valid] using loaded'.2⟩, by simpa using inum, le_rfl⟩
    · simp only [Loaded, Itable.set_of_ne _ _ here] at loaded' ⊢
      exact ⟨loaded', trivial, le_rfl⟩
  by_cases bound : direntSize * sl + direntSize ≤ maxFile * bSize
  · obtain ⟨m, -, rm, stored, -⟩ := writei_spec ⟨mem, [], 0⟩ 0 inv.inv.formed.laid inv.inv.formed.sound inode synced
      dense within bound ran
    have dir : (fs'.dinode (s.itable.inode k).inum).type = tDir := by rw [stored.synced, stored.shape]; exact isDir
    have same : dp'.inum = (s.itable.inode k).inum ∧ dp'.valid = (s.itable.inode k).valid := by
      rw [stored.shape]
      exact ⟨rfl, rfl⟩
    -- an entry never crosses a block, so it is written whole or not at all
    have inBlock : direntSize * sl % bSize + direntSize ≤ bSize := by
      simp only [direntSize, bSize]
      omega
    rcases writei_whole _ inBlock ran with failed | none | whole
    · rw [rm] at failed
      omega
    · have zero : m = 0 := by omega
      subst zero
      refine ⟨⟨inv', inv.dirs.frame inv.inv.formed stored.sb (fun _ => ?_) stored.others⟩, stays same.1 same.2,
        fun full => absurd (rm.symm.trans full) (by decide)⟩
      rw [stored.synced]
      exact shape.of_entries (by rw [stored.size]; omega) fun j inside => entry_stored_none stored within inside
    · have full : m = direntSize := by omega
      subst full
      refine ⟨⟨inv', inv.dirs.frame inv.inv.formed stored.sb (fun _ => ?_) stored.others⟩, stays same.1 same.2,
        fun _ => stored⟩
      rw [stored.synced]
      exact shape.write slot stored number fresh
  · -- no room for the entry: `writei` refuses and nothing changes
    have fits : (s.itable.inode k).din.size < 2 ^ 32 := synced ▸ (Dinode.read_fits _ _).size
    rw [writei_of_fail _ fits (by decide) fun fits => bound fits.2] at ran
    cases ran
    refine ⟨?_, stays rfl rfl, fun full => absurd full (by decide)⟩
    rw [Itable.set_inode]
    exact inv

theorem lookup_none {kmem : Mem} {name : Nat} {disk : Disk} {d : Dinode} (absent : lookup kmem name disk d = none) :
    ∀ b < d.size / direntSize, Names kmem name (entry disk d b) = false := by
  simp only [lookup, Option.map_eq_none_iff, List.find?_range_eq_none, Bool.not_eq_eq_eq_not, Bool.not_true] at absent
  exact absent

theorem built_fresh {kmem : Mem} {name : Nat} {disk : Disk} {d : Dinode} (de : Mem) (inum : Nat)
    (absent : lookup kmem name disk d = none) :
    ∀ b < d.size / direntSize, readLE (entry disk d b) 0 2 ≠ 0 →
      ¬ StrEq (writeLE (strncpy de 2 kmem name dirSiz) 0 2 inum) 2 (entry disk d b) 2 dirSiz := by
  intro b inside used named
  have equal := StrEq.trans (strEq_built kmem name de inum) named
  have hit : Names kmem name (entry disk d b) = true := by
    simp [Names, used, (strncmp_eq_zero_iff _ _ _ _ _).mpr equal]
  rw [lookup_none absent b inside] at hit
  cases hit

theorem DirInv.dirlink (inv : DirInv s) (loaded : Loaded s k) {kmem : Mem} {name inum : Nat} {de : Mem}
    (small : inum < s.fs.sb.ninodes) {r : Int} (ran : s.dirlink k kmem name inum de = .ok (r, s')) :
    DirInv s' ∧ Stays s s' ∧ s'.held = s.held := by
  unfold Sys.dirlink at ran
  obtain ⟨⟨found, s1⟩, looked, rest⟩ := bind_eq_ok ran
  obtain ⟨inv1, stays1, -, isDir, absent, present⟩ := inv.dirlookup loaded looked
  cases found with
  | some hit =>
      -- the name is there: the inode found is taken and put back
      obtain ⟨j, off⟩ := hit
      obtain ⟨held1, -⟩ := present j off rfl
      obtain ⟨s2, put, done⟩ := bind_eq_ok rest
      cases done
      obtain ⟨inv2, held2, loaded2⟩ := inv1.iput put
      have back : s'.held = s.held := by
        rw [held2, held1]
        simp
      refine ⟨inv2, fun j' loaded' => ?_, back⟩
      obtain ⟨loaded1, inum1, -⟩ := stays1 j' loaded'
      have more : j' ≠ j ∨ 2 ≤ s1.held j' := by
        by_cases here : j' = j
        · right
          rw [held1, here, Function.update_self]
          have := loaded'.1
          rw [here] at this
          omega
        · exact .inl here
      obtain ⟨loaded2', inum2⟩ := loaded2 j' loaded1 more
      exact ⟨loaded2', inum2.trans inum1, by rw [back]⟩
  | none =>
      obtain ⟨-, absent⟩ := absent rfl
      obtain ⟨⟨r1, dp1, fs1⟩, linked, done⟩ := bind_eq_ok rest
      cases done
      obtain ⟨de', wrote⟩ := (inv.dirOk loaded isDir).dirlink_free inum de absent
      rw [wrote] at linked
      obtain ⟨⟨r0, dp0, fs0⟩, written, result⟩ := bind_eq_ok linked
      have same : dp1 = dp0 ∧ fs1 = fs0 := by
        dsimp only at result
        split at result <;> cases result <;> exact ⟨rfl, rfl⟩
      obtain ⟨rfl, rfl⟩ := same
      have number : readLE (writeLE (strncpy de' 2 kmem name dirSiz) 0 2 inum) 0 2 < s.fs.sb.ninodes := by
        rw [readLE_writeLE]
        exact lt_of_le_of_lt (Nat.mod_le _ _) small
      obtain ⟨inv', stays', -⟩ := inv.writeEntry loaded isDir (freeSlot_le _ _) number
        (fun _ b inside _ used => built_fresh de' inum absent b inside used) written
      exact ⟨inv', stays', rfl⟩

theorem DirInv.ialloc (inv : DirInv s) {type : Int16} {found : Option (Fin nInode)}
    (ran : s.ialloc type = .ok (found, s')) :
    DirInv s' ∧ Stays s s' ∧ (found = none → s'.held = s.held) ∧
      ∀ j, found = some j → s'.held = Function.update s.held j (s.held j + 1) := by
  unfold Sys.ialloc at ran
  obtain ⟨⟨f, t, fs⟩, allocated, rest⟩ := bind_eq_ok ran
  have stepped : step s (.ialloc type) = .ok s' := by
    rw [step, allocated]
    simp only [Machine.ok_bind]
    cases f <;> cases rest <;> rfl
  refine ⟨⟨inv_ialloc inv.inv stepped, dirs_ialloc inv.inv inv.dirs stepped⟩, ?_⟩
  unfold Fs.ialloc at allocated
  obtain ⟨⟨f1, fs1⟩, -, rest1⟩ := bind_eq_ok allocated
  cases f1 with
  | none =>
      cases rest1
      cases rest
      exact ⟨fun j loaded => ⟨loaded, rfl, le_rfl⟩, fun _ => rfl, fun _ some => absurd some (by simp)⟩
  | some inum =>
      obtain ⟨⟨j, t1⟩, got, rest2⟩ := bind_eq_ok rest1
      cases rest2
      cases rest
      refine ⟨stays_of_got inv.inv ((iget_returns s.itable inum).of_ok got), fun none => absurd none (by simp),
        fun j' some => ?_⟩
      simp only [Option.some.injEq] at some
      rw [some]

theorem DirOk.isdiremptyLoop_eq {fs : State} {dp : Inode} (ok : DirOk fs dp) :
    ∀ j k, k + j = dp.din.size / direntSize →
      isdiremptyLoop fs dp (direntSize * k) =
        .ok ((List.range' k j).all (fun i => readLE (entry fs.blocks dp.din i) 0 2 == 0), dp, fs)
  | 0, k, last => by
      have whole := ok.whole
      rw [isdiremptyLoop, dif_neg (by simp only [direntSize] at *; omega)]
      rfl
  | j + 1, k, more => by
      have inside : k < dp.din.size / direntSize := by omega
      rw [isdiremptyLoop, dif_pos (by have := ok.entry_end inside; simp only [direntSize] at *; omega)]
      split
      · rename_i ran
        rw [ok.readi inside] at ran
        cases ran
      · rename_i r bytes dp' fs' ran
        rw [ok.readi inside] at ran
        simp only [Except.ok.injEq, Prod.mk.injEq] at ran
        obtain ⟨rfl, rfl, rfl, rfl⟩ := ran
        have read : bufOf (fileBytes fs.blocks dp.din (direntSize * k) direntSize) = entry fs.blocks dp.din k := rfl
        rw [if_neg (not_not.mpr rfl), read, List.range'_succ, List.all_cons]
        -- an entry in use ends the loop; one not in use lets it go on
        by_cases used : readLE (entry fs.blocks dp.din k) 0 2 = 0
        · have next := ok.isdiremptyLoop_eq j (k + 1) (by omega)
          rw [Nat.mul_succ] at next
          rw [if_neg (not_not.mpr used), next]
          simp [used]
        · rw [if_pos used]
          simp [used]

theorem DirInv.isdirempty (inv : DirInv s) (loaded : Loaded s k) (isDir : (s.itable.inode k).din.type = tDir)
    {empty : Bool} (ran : s.isdirempty k = .ok (empty, s')) :
    s' = s ∧ (empty = true ↔ ∀ i, 2 ≤ i → i < (s.itable.inode k).din.size / direntSize →
      readLE (entry s.fs.blocks (s.itable.inode k).din i) 0 2 = 0) := by
  have ok := inv.dirOk loaded isDir
  have looped : Fs.isdirempty s.fs (s.itable.inode k) =
      .ok ((List.range' 2 ((s.itable.inode k).din.size / direntSize - 2)).all
        (fun i => readLE (entry s.fs.blocks (s.itable.inode k).din i) 0 2 == 0), s.itable.inode k, s.fs) := by
    by_cases few : 2 ≤ (s.itable.inode k).din.size / direntSize
    · exact ok.isdiremptyLoop_eq _ 2 (by omega)
    · -- fewer than two entries: the loop starts past the end
      have whole := ok.whole
      rw [Fs.isdirempty, isdiremptyLoop, dif_neg (by simp only [direntSize] at *; omega),
        show (s.itable.inode k).din.size / direntSize - 2 = 0 by omega]
      rfl
  unfold Sys.isdirempty at ran
  rw [looped] at ran
  simp only [Machine.ok_bind, Machine.pure_eq_ok, Except.ok.injEq, Prod.mk.injEq, Itable.set_inode] at ran
  obtain ⟨rfl, rfl⟩ := ran
  refine ⟨rfl, ?_⟩
  simp only [List.all_eq_true, List.mem_range'_1, beq_iff_eq]
  constructor
  · intro all i lower upper
    exact all i ⟨lower, by omega⟩
  · intro all i inside
    exact all i inside.1 (by omega)

theorem Sys.ilock_keeps (ran : s.ilock k = .ok s') {j : Fin nInode} (valid : (s.itable.inode j).valid = true) :
    s'.itable.inode j = s.itable.inode j := by
  obtain ⟨ip, locked, rest⟩ := bind_eq_ok ran
  cases rest
  by_cases here : j = k
  · subst here
    unfold Fs.ilock at locked
    split at locked
    · cases locked
    · simp only [Except.ok.injEq] at locked
      subst locked
      simp
  · exact Itable.set_of_ne _ _ here

theorem DirInv.iupdateIf (inv : DirInv s) (loaded : Loaded s k) {c : Prop} [Decidable c] {din : Dinode}
    (same : din = { (s.itable.inode k).din with major := din.major, minor := din.minor, nlink := din.nlink })
    (ran : (if c then s.iupdate k din else pure s) = .ok s') : DirInv s' ∧ Stays s s' ∧ s'.held = s.held := by
  split at ran
  · obtain ⟨inv', stays, held, -⟩ := inv.iupdate loaded same ran
    exact ⟨inv', stays, held⟩
  · cases ran
    exact ⟨inv, Stays.refl s, rfl⟩

theorem DirInv.dirlookup_din (inv : DirInv s) (loaded : Loaded s k) {kmem : Mem} {name : Nat}
    {found : Option (Fin nInode × Nat)} (ran : s.dirlookup k kmem name = .ok (found, s')) :
    (s'.itable.inode k).din = (s.itable.inode k).din := by
  unfold Sys.dirlookup at ran
  obtain ⟨⟨f, dp, fs⟩, looked, rest⟩ := bind_eq_ok ran
  have isDir : (s.itable.inode k).din.type = tDir := by
    by_contra other
    rw [Fs.dirlookup, if_pos other] at looked
    cases looked
  rw [(inv.dirOk loaded isDir).dirlookup_eq] at looked
  cases looked
  simp only [Itable.set_inode] at rest
  cases hl : lookup kmem name s.fs.blocks (s.itable.inode k).din with
  | none =>
      rw [hl] at rest
      cases rest
      rfl
  | some hit =>
      obtain ⟨inum, off⟩ := hit
      rw [hl] at rest
      obtain ⟨⟨j, t⟩, got, done⟩ := bind_eq_ok rest
      cases done
      -- `iget` changes at most the count of an entry in use, or an unused entry
      have result := (iget_returns s.itable inum).of_ok got
      dsimp only at result
      by_cases here : k = j
      · subst here
        rcases result with ⟨-, -, rfl⟩ | ⟨-, unused, -⟩
        · simp
        · have := inv.inv.refs k
          have := loaded.1
          omega
      · rcases result with ⟨-, -, rfl⟩ | ⟨-, -, rfl⟩ <;> simp [Itable.set_of_ne _ _ here]

end Table

section Calls

variable {s s' : Sys} {dp ip : Fin nInode} {kmem : Mem} {name : Nat} {de : Mem}

theorem DirInv.createFail (inv : DirInv s) (loaded : Loaded s ip) {found : Option (Fin nInode)}
    (ran : createFail s dp ip = .ok (found, s')) : DirInv s' := by
  obtain ⟨s1, updated, rest⟩ := bind_eq_ok ran
  obtain ⟨s2, put, rest⟩ := bind_eq_ok rest
  obtain ⟨s3, put', done⟩ := bind_eq_ok rest
  cases done
  exact (((inv.iupdate loaded rfl updated).1.iput put).1.iput put').1

theorem DirInv.createName (inv : DirInv s) (loadedDp : Loaded s dp) (loadedIp : Loaded s ip) {type : Int16}
    {found : Option (Fin nInode)} (ran : createName s dp ip kmem name type de = .ok (found, s')) : DirInv s' := by
  unfold Fs.createName at ran
  obtain ⟨⟨r, s1⟩, linked, rest⟩ := bind_eq_ok ran
  obtain ⟨inv1, stays1, -⟩ := inv.dirlink loadedDp (inv.inv.inside ip loadedIp.1) linked
  dsimp only at rest
  split at rest
  · exact inv1.createFail (stays1 ip loadedIp).1 rest
  · -- the new directory's `..` is a link of `dp`
    obtain ⟨s2, updated, rest⟩ := bind_eq_ok rest
    obtain ⟨s3, put, done⟩ := bind_eq_ok rest
    cases done
    exact ((inv1.iupdateIf (stays1 dp loadedDp).1 rfl updated).1.iput put).1

theorem DirInv.createDots (inv : DirInv s) (loadedDp : Loaded s dp) (loadedIp : Loaded s ip) {type : Int16}
    {found : Option (Fin nInode)} (ran : createDots s dp ip kmem name type de = .ok (found, s')) : DirInv s' := by
  unfold Fs.createDots at ran
  split at ran
  · obtain ⟨⟨r, s1⟩, linked, rest⟩ := bind_eq_ok ran
    obtain ⟨inv1, stays1, -⟩ := inv.dirlink loadedIp (inv.inv.inside ip loadedIp.1) linked
    have ip1 := (stays1 ip loadedIp).1
    have dp1 := (stays1 dp loadedDp).1
    dsimp only at rest
    split at rest
    · exact inv1.createFail ip1 rest
    · obtain ⟨⟨r', s2⟩, linked', rest'⟩ := bind_eq_ok rest
      obtain ⟨inv2, stays2, -⟩ := inv1.dirlink ip1 (inv1.inv.inside dp dp1.1) linked'
      dsimp only at rest'
      split at rest'
      · exact inv2.createFail (stays2 ip ip1).1 rest'
      · exact inv2.createName (stays2 dp dp1).1 (stays2 ip ip1).1 rest'
  · exact inv.createName loadedDp loadedIp ran

theorem DirInv.create (inv : DirInv s) {type major minor : Int16} {found : Option (Fin nInode)}
    (ran : create s dp kmem name type major minor de = .ok (found, s')) : DirInv s' := by
  unfold Fs.create at ran
  obtain ⟨s1, locked, rest⟩ := bind_eq_ok ran
  obtain ⟨inv1, -, loaded1, -⟩ := inv.ilock locked
  obtain ⟨⟨f, s2⟩, looked, rest⟩ := bind_eq_ok rest
  obtain ⟨inv2, stays2, -⟩ := inv1.dirlookup loaded1 looked
  cases f with
  | some hit =>
      -- the name is there: `dp` is put, and the inode found returned or put
      obtain ⟨ip, off⟩ := hit
      obtain ⟨s3, put, rest⟩ := bind_eq_ok rest
      have inv3 := (inv2.iput put).1
      obtain ⟨s4, locked4, rest⟩ := bind_eq_ok rest
      have inv4 := (inv3.ilock locked4).1
      dsimp only at rest
      split at rest
      · cases rest
        exact inv4
      · obtain ⟨s5, put5, done⟩ := bind_eq_ok rest
        cases done
        exact (inv4.iput put5).1
  | none =>
      obtain ⟨⟨allocated, s3⟩, got, rest⟩ := bind_eq_ok rest
      obtain ⟨inv3, stays3, -⟩ := inv2.ialloc got
      cases allocated with
      | none =>
          obtain ⟨s4, put, done⟩ := bind_eq_ok rest
          cases done
          exact (inv3.iput put).1
      | some ip =>
          obtain ⟨s4, locked4, rest⟩ := bind_eq_ok rest
          obtain ⟨inv4, stays4, loaded4, -⟩ := inv3.ilock locked4
          obtain ⟨s5, updated, rest⟩ := bind_eq_ok rest
          obtain ⟨inv5, stays5, -⟩ := inv4.iupdate loaded4 rfl updated
          have dp5 := (stays5 dp (stays4 dp (stays3 dp (stays2 dp loaded1).1).1).1).1
          exact inv5.createDots dp5 (stays5 ip loaded4).1 rest

theorem Sys.ilock_of_loaded (inv : Inv s) (loaded : Loaded s ip) : s.ilock ip = .ok s := by
  have ref : ¬ (s.itable.inode ip).ref < 1 := by
    rw [inv.refs ip]
    have := loaded.1
    omega
  unfold Sys.ilock
  rw [Fs.ilock, if_neg ref, if_pos loaded.2]
  simp only [Machine.ok_bind, Machine.pure_eq_ok, Itable.set_inode]

theorem DirInv.unlinkBad (inv : DirInv s) {r : Int} (ran : unlinkBad s dp = .ok (r, s')) : DirInv s' := by
  obtain ⟨s1, put, done⟩ := bind_eq_ok ran
  cases done
  exact (inv.iput put).1

theorem DirInv.unlinkEntry (inv : DirInv s) (loadedDp : Loaded s dp) (loadedIp : Loaded s ip)
    (isDir : (s.itable.inode dp).din.type = tDir) {e : Nat} (inside : e < (s.itable.inode dp).din.size / direntSize)
    (twice : ip = dp → 2 ≤ s.held dp) {r : Int} (ran : unlinkEntry s dp ip (direntSize * e) = .ok (r, s')) :
    DirInv s' := by
  unfold Fs.unlinkEntry at ran
  obtain ⟨⟨r0, dp1, fs1⟩, written, rest⟩ := bind_eq_ok ran
  have zero : readLE (fun _ => (0 : UInt8)) 0 2 = 0 := rfl
  have some : 0 < s.fs.sb.ninodes := Nat.lt_of_le_of_lt (Nat.zero_le _) (inv.inv.inside dp loadedDp.1)
  obtain ⟨inv1, stays1, -⟩ := inv.writeEntry loadedDp isDir inside.le (by rw [zero]; exact some)
    (fun used => absurd zero used) written
  dsimp only at rest
  split at rest
  · cases rest
  obtain ⟨s2, updated, rest⟩ := bind_eq_ok rest
  obtain ⟨inv2, stays2, held2⟩ := inv1.iupdateIf (stays1 dp loadedDp).1 rfl updated
  obtain ⟨s3, put, rest⟩ := bind_eq_ok rest
  have inv3 := (inv2.iput put).1
  -- `ip` stays loaded: it is another entry, or one more reference to `dp` remains
  have ip3 : Loaded s3 ip :=
    inv2.iput_loaded put (stays2 ip (stays1 ip loadedIp).1).1 fun same => by rw [held2]; exact twice same
  obtain ⟨s4, updated4, rest⟩ := bind_eq_ok rest
  obtain ⟨s5, put5, done⟩ := bind_eq_ok rest
  cases done
  exact ((inv3.iupdate ip3 rfl updated4).1.iput put5).1

theorem DirInv.sysUnlink (inv : DirInv s) {r : Int} (ran : sysUnlink s dp kmem name = .ok (r, s')) : DirInv s' := by
  unfold Fs.sysUnlink at ran
  obtain ⟨s1, locked, rest⟩ := bind_eq_ok ran
  obtain ⟨inv1, -, loaded1, -⟩ := inv.ilock locked
  split at rest
  · exact inv1.unlinkBad rest
  obtain ⟨⟨f, s2⟩, looked, rest⟩ := bind_eq_ok rest
  obtain ⟨inv2, stays2, -, isDir, -, present⟩ := inv1.dirlookup loaded1 looked
  cases f with
  | none => exact inv2.unlinkBad rest
  | some hit =>
      obtain ⟨ip, off⟩ := hit
      obtain ⟨held2, found⟩ := present ip off rfl
      obtain ⟨e, inside, -, rfl, -⟩ := lookup_some found
      dsimp only at rest
      obtain ⟨s3, locked3, rest⟩ := bind_eq_ok rest
      obtain ⟨inv3, stays3, loaded3, held3, -⟩ := inv2.ilock locked3
      have dp2 := (stays2 dp loaded1).1
      have dp3 := (stays3 dp dp2).1
      -- `dp` is as `dirlookup` read it: the lookup and `ilock` leave a loaded entry
      have din3 : (s3.itable.inode dp).din = (s1.itable.inode dp).din := by
        rw [Sys.ilock_keeps locked3 dp2.2]
        exact inv1.dirlookup_din loaded1 looked
      split at rest
      · cases rest
      obtain ⟨⟨empty, s4⟩, checked, next⟩ := bind_eq_ok rest
      have same4 : s4 = s3 := by
        split at checked
        · exact (inv3.isdirempty loaded3 ‹_› checked).1
        · cases checked
          rfl
      subst same4
      split at next
      · obtain ⟨s5, put, rest⟩ := bind_eq_ok next
        exact (inv3.iput put).1.unlinkBad rest
      · refine inv3.unlinkEntry dp3 loaded3 (by rw [din3]; exact isDir) (by rw [din3]; exact inside) (fun same => ?_) next
        rw [held3, held2, ← same, Function.update_self]
        have := loaded1.1
        rw [← same] at this
        omega

theorem DirInv.linkBad (inv : DirInv s) {r : Int} (ran : linkBad s ip = .ok (r, s')) : DirInv s' := by
  unfold Fs.linkBad at ran
  obtain ⟨s1, locked, rest⟩ := bind_eq_ok ran
  obtain ⟨inv1, -, loaded1, -⟩ := inv.ilock locked
  obtain ⟨s2, updated, rest⟩ := bind_eq_ok rest
  obtain ⟨s3, put, done⟩ := bind_eq_ok rest
  cases done
  exact ((inv1.iupdate loaded1 rfl updated).1.iput put).1

theorem DirInv.sysLink (inv : DirInv s) {ip dp : Option (Fin nInode)} {r : Int}
    (ran : sysLink s ip dp kmem name de = .ok (r, s')) : DirInv s' := by
  unfold Fs.sysLink at ran
  cases ip with
  | none =>
      cases ran
      exact inv
  | some ip =>
      dsimp only at ran
      obtain ⟨s1, locked, rest⟩ := bind_eq_ok ran
      obtain ⟨inv1, -, loaded1, -⟩ := inv.ilock locked
      split at rest
      · obtain ⟨s2, put, done⟩ := bind_eq_ok rest
        cases done
        exact (inv1.iput put).1
      obtain ⟨s2, updated, rest⟩ := bind_eq_ok rest
      obtain ⟨inv2, stays2, -⟩ := inv1.iupdate loaded1 rfl updated
      cases dp with
      | none => exact inv2.linkBad rest
      | some dp =>
          dsimp only at rest
          obtain ⟨s3, locked3, rest⟩ := bind_eq_ok rest
          obtain ⟨inv3, stays3, loaded3, -⟩ := inv2.ilock locked3
          have ip3 := (stays3 ip (stays2 ip loaded1).1).1
          obtain ⟨⟨r', s4⟩, linked, rest⟩ := bind_eq_ok rest
          obtain ⟨inv4, -, -⟩ := inv3.dirlink loaded3 (inv3.inv.inside ip ip3.1) linked
          dsimp only at rest
          split at rest
          · obtain ⟨s5, put, rest⟩ := bind_eq_ok rest
            exact (inv4.iput put).1.linkBad rest
          · obtain ⟨s5, put, rest⟩ := bind_eq_ok rest
            obtain ⟨s6, put6, done⟩ := bind_eq_ok rest
            cases done
            exact ((inv4.iput put).1.iput put6).1

end Calls


section Runs

variable {fs : State} {s s' : Sys}

theorem call_inode {e : Event} (files : ∀ k phys src off n, e ≠ .writei k phys src off n) :
    call s (.inode e) = step s e := by
  cases e <;> first | rfl | exact absurd rfl (files _ _ _ _ _)

theorem DirInv.call (inv : DirInv s) {c : Call} (called : call s c = .ok s') : DirInv s' := by
  cases c with
  | inode e =>
      by_cases write : ∃ k phys src off n, e = .writei k phys src off n
      · -- a `writei` of the inode layer is made of files only
        obtain ⟨k, phys, src, off, n, rfl⟩ := write
        rw [Fs.call] at called
        split at called
        · cases called
          exact inv
        · rename_i file
          exact ⟨inv_writei inv.inv called, dirs_writei inv.inv inv.dirs file called⟩
      · simp only [not_exists] at write
        rw [call_inode write] at called
        exact ⟨inv_step inv.inv called,
          dirs_step inv.inv inv.dirs (fun k phys src off n same => absurd same (write k phys src off n)) called⟩
  | create dp kmem name type major minor de =>
      rw [Fs.call] at called
      split at called
      · obtain ⟨⟨found, s1⟩, ran, done⟩ := bind_eq_ok called
        cases done
        exact inv.create ran
      · cases called
        exact inv
  | link ip dp kmem name de =>
      rw [Fs.call] at called
      split at called
      · obtain ⟨⟨r, s1⟩, ran, done⟩ := bind_eq_ok called
        cases done
        exact inv.sysLink ran
      · cases called
        exact inv
  | unlink dp kmem name =>
      rw [Fs.call] at called
      split at called
      · obtain ⟨⟨r, s1⟩, ran, done⟩ := bind_eq_ok called
        cases done
        exact inv.sysUnlink ran
      · cases called
        exact inv

theorem DirReachable.dirInv (formed : Formed fs) (dirs : Dirs fs) (reached : DirReachable fs s) : DirInv s :=
  Machine.Reachable.of_keeps ⟨inv_boot formed, dirs⟩ (fun _ _ _ inv called => inv.call called) reached

/-- Over every run of the kernel's calls on a formed disk whose directories are
in shape (the inode layer's, `writei` of files, and `create`, `sys_link` and
`sys_unlink` with the references their lookups hold), every block stays owned
as the bitmap says, and every directory keeps whole entries, each naming an
inode of the disk, with no two in use whose names `namecmp` finds equal. -/
theorem directories_stay_in_shape (formed : Formed fs) (dirs : Dirs fs) (reached : DirReachable fs s) :
    Sound s.fs s.fs.dinode ∧
      ∀ i < s.fs.sb.ninodes, (s.fs.dinode i).type = tDir →
        (s.fs.dinode i).size % direntSize = 0 ∧
        ∀ a < (s.fs.dinode i).size / direntSize,
          readLE (entry s.fs.blocks (s.fs.dinode i) a) 0 2 < s.fs.sb.ninodes ∧
          ∀ b < (s.fs.dinode i).size / direntSize,
            readLE (entry s.fs.blocks (s.fs.dinode i) a) 0 2 ≠ 0 →
            readLE (entry s.fs.blocks (s.fs.dinode i) b) 0 2 ≠ 0 →
            namecmp (entry s.fs.blocks (s.fs.dinode i) a) 2 (entry s.fs.blocks (s.fs.dinode i) b) 2 = 0 →
            a = b := by
  have inv := DirReachable.dirInv formed dirs reached
  refine ⟨inv.inv.formed.sound, fun i inode isDir => ?_⟩
  have shape := inv.dirs i inode isDir
  refine ⟨shape.whole, fun a below => ⟨shape.inside a below, fun b below' usedA usedB same => ?_⟩⟩
  exact shape.unique a below b below' usedA usedB ((strncmp_eq_zero_iff _ _ _ _ _).mp same)

theorem dirFs_size {i : Nat} (inode : i < Mkfs.sb.ninodes) : (dirFs.dinode i).size = 0 := by
  by_cases one : i = 1
  · rw [one, dirFs_dinode_one]
    rfl
  · rw [dirFs_wrote.dinode_beside one, blankFs_dinode blankLog inode, Dinode.read_zero_size]

theorem dirFs_formed : Formed dirFs :=
  ⟨mkfs_sb_laid, dirFs_sound, fun i inode p _ upper => absurd upper (by rw [dirFs_size inode]; omega)⟩

theorem dirFs_dirs : Dirs dirFs := fun _ inode _ => DirShape.empty (dirFs_size inode)


end Runs


section References

theorem update_succ_apply {α : Type} [DecidableEq α] (h : α → Nat) (a j : α) :
    Function.update h a (h a + 1) j = h j + (if j = a then 1 else 0) := by
  by_cases onA : j = a
  · subst onA
    simp only [Function.update_self, if_true]
  · simp only [Function.update_of_ne onA, onA, if_false, add_zero]

theorem put_once_apply {α : Type} [DecidableEq α] (h : α → Nat) (a j : α) (live : 0 < h a) :
    Function.update h a (h a - 1) j + (if j = a then 1 else 0) = h j := by
  by_cases onA : j = a
  · subst onA
    simp only [Function.update_self, if_true]
    omega
  · simp only [Function.update_of_ne onA, onA, if_false, add_zero]

theorem put_twice_apply {α : Type} [DecidableEq α] (h : α → Nat) (a b j : α) (liveA : 0 < h a)
    (liveB : (if b = a then 1 else 0) < h b) :
    Function.update (Function.update h a (h a - 1)) b (Function.update h a (h a - 1) b - 1) j
      + (if j = b then 1 else 0) + (if j = a then 1 else 0) = h j := by
  by_cases onB : j = b
  · subst onB
    by_cases onA : j = a
    · subst onA
      simp only [Function.update_self, if_true] at liveB ⊢
      omega
    · simp only [onA, if_false, if_true, Function.update_self, Function.update_of_ne onA] at liveB ⊢
      omega
  · by_cases onA : j = a
    · subst onA
      simp only [Function.update_of_ne onB, Function.update_self, if_true, onB, if_false]
      omega
    · simp only [Function.update_of_ne onB, Function.update_of_ne onA, onA, onB, if_false, add_zero]

variable {s s' : Sys} {dp ip : Fin nInode} {kmem : Mem} {name : Nat} {de : Mem}

/-- What a tail of `create` does with the references taken before it: the one
to `dp` is given back, and the one to `ip` too, unless `ip` is returned loaded. -/
def Handed (s s' : Sys) (dp ip : Fin nInode) (found : Option (Fin nInode)) : Prop :=
  (found = some ip ∧ Loaded s' ip ∨ found = none) ∧
    ∀ j, s'.held j + (if j = dp then 1 else 0) + (if found = none ∧ j = ip then 1 else 0) = s.held j

theorem Handed.of_held {s1 : Sys} {found : Option (Fin nInode)} (handed : Handed s1 s' dp ip found)
    (held : s1.held = s.held) : Handed s s' dp ip found :=
  ⟨handed.1, fun j => held ▸ handed.2 j⟩

theorem DirInv.createFail_held (inv : DirInv s) (loaded : Loaded s ip) (live : 0 < s.held dp)
    (twice : ip = dp → 2 ≤ s.held dp) {found : Option (Fin nInode)} (ran : Fs.createFail s dp ip = .ok (found, s')) :
    Handed s s' dp ip found := by
  obtain ⟨s1, updated, rest⟩ := bind_eq_ok ran
  obtain ⟨s2, put, rest⟩ := bind_eq_ok rest
  obtain ⟨s3, put', done⟩ := bind_eq_ok rest
  cases done
  obtain ⟨inv1, -, held1, -⟩ := inv.iupdate loaded rfl updated
  obtain ⟨inv2, held2, -⟩ := inv1.iput put
  have held3 := (inv2.iput put').2.1
  refine ⟨.inr rfl, fun j => ?_⟩
  simp only [true_and]
  rw [held3, held2, held1]
  refine put_twice_apply _ ip dp j loaded.1 ?_
  -- `ip` is put before `dp`: when they are one entry, it holds two references
  split_ifs with same
  · have := twice same.symm
    omega
  · exact live

theorem DirInv.createName_held (inv : DirInv s) (loadedDp : Loaded s dp) (loadedIp : Loaded s ip)
    (twice : ip = dp → 2 ≤ s.held dp) {type : Int16} {found : Option (Fin nInode)}
    (ran : Fs.createName s dp ip kmem name type de = .ok (found, s')) : Handed s s' dp ip found := by
  unfold Fs.createName at ran
  obtain ⟨⟨r, s1⟩, linked, rest⟩ := bind_eq_ok ran
  obtain ⟨inv1, stays1, held1⟩ := inv.dirlink loadedDp (inv.inv.inside ip loadedIp.1) linked
  have ip1 := (stays1 ip loadedIp).1
  dsimp only at rest
  split at rest
  · exact (inv1.createFail_held ip1 (held1 ▸ loadedDp.1) (held1 ▸ twice) rest).of_held held1
  obtain ⟨s2, updated, rest⟩ := bind_eq_ok rest
  obtain ⟨inv2, stays2, held2⟩ := inv1.iupdateIf (stays1 dp loadedDp).1 rfl updated
  obtain ⟨s3, put, done⟩ := bind_eq_ok rest
  cases done
  have held3 := (inv2.iput put).2.1
  -- `ip` stays loaded when `dp` is put: it is another entry, or holds two references
  have ip3 : Loaded s' ip :=
    inv2.iput_loaded put (stays2 ip ip1).1 fun same => by rw [held2, held1]; exact twice same
  refine ⟨.inl ⟨rfl, ip3⟩, fun j => ?_⟩
  simp only [Option.some_ne_none, false_and, if_false, add_zero]
  rw [held3, held2, held1]
  exact put_once_apply _ dp j loadedDp.1

theorem DirInv.createDots_held (inv : DirInv s) (loadedDp : Loaded s dp) (loadedIp : Loaded s ip)
    (twice : ip = dp → 2 ≤ s.held dp) {type : Int16} {found : Option (Fin nInode)}
    (ran : Fs.createDots s dp ip kmem name type de = .ok (found, s')) : Handed s s' dp ip found := by
  unfold Fs.createDots at ran
  split at ran
  · obtain ⟨⟨r, s1⟩, linked, rest⟩ := bind_eq_ok ran
    obtain ⟨inv1, stays1, held1⟩ := inv.dirlink loadedIp (inv.inv.inside ip loadedIp.1) linked
    have ip1 := (stays1 ip loadedIp).1
    have dp1 := (stays1 dp loadedDp).1
    dsimp only at rest
    split at rest
    · exact (inv1.createFail_held ip1 dp1.1 (held1 ▸ twice) rest).of_held held1
    obtain ⟨⟨r', s2⟩, linked', rest'⟩ := bind_eq_ok rest
    obtain ⟨inv2, stays2, held2⟩ := inv1.dirlink ip1 (inv1.inv.inside dp dp1.1) linked'
    have twice2 : ip = dp → 2 ≤ s2.held dp := by rw [held2, held1]; exact twice
    dsimp only at rest'
    split at rest'
    · exact ((inv2.createFail_held (stays2 ip ip1).1 (stays2 dp dp1).1.1 twice2 rest').of_held held2).of_held held1
    · exact ((inv2.createName_held (stays2 dp dp1).1 (stays2 ip ip1).1 twice2 rest').of_held held2).of_held held1
  · exact inv.createName_held loadedDp loadedIp twice ran

theorem ite_some_eq {α : Type} [DecidableEq α] (a b : α) :
    (if some a = some b then 1 else 0 : Nat) = if b = a then 1 else 0 := by
  by_cases same : b = a
  · simp [same]
  · simp [same, Ne.symm same]

/-- `create` on an entry `dp` its caller holds gives that reference back, and
takes exactly one to the inode it returns, which it leaves loaded. -/
theorem DirInv.create_held (inv : DirInv s) (live : 0 < s.held dp) {type major minor : Int16}
    {found : Option (Fin nInode)} (ran : Fs.create s dp kmem name type major minor de = .ok (found, s')) :
    (∀ k, found = some k → Loaded s' k) ∧
      ∀ j, s'.held j + (if j = dp then 1 else 0) = s.held j + (if found = some j then 1 else 0) := by
  unfold Fs.create at ran
  obtain ⟨s1, locked, rest⟩ := bind_eq_ok ran
  obtain ⟨inv1, -, loaded1, held1, -⟩ := inv.ilock locked
  obtain ⟨⟨f, s2⟩, looked, rest⟩ := bind_eq_ok rest
  obtain ⟨inv2, stays2, -, -, absent, present⟩ := inv1.dirlookup loaded1 looked
  have dp2 := (stays2 dp loaded1).1
  cases f with
  | some hit =>
      -- the name is there: `dirlookup` took a reference to the inode found
      obtain ⟨ip, off⟩ := hit
      obtain ⟨held2, -⟩ := present ip off rfl
      obtain ⟨s3, put, rest⟩ := bind_eq_ok rest
      obtain ⟨inv3, held3, -⟩ := inv2.iput put
      obtain ⟨s4, locked4, rest⟩ := bind_eq_ok rest
      obtain ⟨inv4, -, loaded4, held4, -⟩ := inv3.ilock locked4
      have ledger4 : ∀ j, s4.held j + (if j = dp then 1 else 0) = s.held j + (if j = ip then 1 else 0) := by
        intro j
        rw [held4, held3, held2, held1, ← update_succ_apply s.held ip j]
        exact put_once_apply _ dp j (by rw [update_succ_apply]; omega)
      dsimp only at rest
      split at rest
      · cases rest
        refine ⟨fun k returned => ?_, fun j => ?_⟩
        · cases returned
          exact loaded4
        · rw [ite_some_eq]
          exact ledger4 j
      · obtain ⟨s5, put5, done⟩ := bind_eq_ok rest
        cases done
        refine ⟨(fun k returned => by cases returned), fun j => ?_⟩
        have back := put_once_apply s4.held ip j loaded4.1
        rw [← (inv4.iput put5).2.1] at back
        have := ledger4 j
        rw [if_neg (Option.some_ne_none j).symm]
        omega
  | none =>
      have held2 : s2.held = s.held := by rw [(absent rfl).1, held1]
      obtain ⟨⟨allocated, s3⟩, got, rest⟩ := bind_eq_ok rest
      obtain ⟨inv3, stays3, heldNone, heldSome⟩ := inv2.ialloc got
      have dp3 := (stays3 dp dp2).1
      cases allocated with
      | none =>
          obtain ⟨s4, put, done⟩ := bind_eq_ok rest
          cases done
          refine ⟨(fun k returned => by cases returned), fun j => ?_⟩
          have back := put_once_apply s3.held dp j dp3.1
          rw [← (inv3.iput put).2.1, heldNone rfl, held2] at back
          rw [if_neg (Option.some_ne_none j).symm]
          exact back
      | some ip =>
          -- a new inode: `ialloc` took the reference `create` returns
          obtain ⟨s4, locked4, rest⟩ := bind_eq_ok rest
          obtain ⟨inv4, stays4, loaded4, held4, -⟩ := inv3.ilock locked4
          obtain ⟨s5, updated, rest⟩ := bind_eq_ok rest
          obtain ⟨inv5, stays5, held5, -⟩ := inv4.iupdate loaded4 rfl updated
          have taken : ∀ j, s5.held j = s.held j + (if j = ip then 1 else 0) := fun j => by
            rw [held5, held4, heldSome ip rfl, held2, update_succ_apply]
          have twice : ip = dp → 2 ≤ s5.held dp := fun same => by
            rw [taken, if_pos same.symm]
            omega
          obtain ⟨result, ledger⟩ :=
            inv5.createDots_held (stays5 dp (stays4 dp dp3).1).1 (stays5 ip loaded4).1 twice rest
          rcases result with ⟨rfl, loaded⟩ | rfl
          · refine ⟨(fun k returned => by cases returned; exact loaded), fun j => ?_⟩
            have := ledger j
            simp only [Option.some_ne_none, false_and, if_false, add_zero, taken] at this
            rw [ite_some_eq]
            omega
          · refine ⟨(fun k returned => by cases returned), fun j => ?_⟩
            have := ledger j
            simp only [true_and, taken] at this
            rw [if_neg (Option.some_ne_none j).symm]
            omega

/-- From every state the calls reach, `create` on an entry `dp` its caller holds
gives that reference back and takes exactly one to the inode it returns, which
it leaves loaded; when it returns none it keeps no reference. No path of
`create`, its failures included, leaks or drops a reference. -/
theorem create_hands_references (formed : Formed fs) (dirs : Dirs fs) (reached : DirReachable fs s)
    (held : 0 < s.held dp) (type major minor : Int16) :
    Returns (Fs.create s dp kmem name type major minor de)
      (fun r => (∀ k, r.1 = some k → 0 < r.2.held k ∧ (r.2.itable.inode k).valid = true) ∧
        ∀ j, r.2.held j + (if j = dp then 1 else 0) = s.held j + (if r.1 = some j then 1 else 0))
      (fun _ => True) := by
  cases ran : Fs.create s dp kmem name type major minor de with
  | error msg => trivial
  | ok r =>
      obtain ⟨found, s'⟩ := r
      exact (DirReachable.dirInv formed dirs reached).create_held held ran

/-- `dirFs` once its directory, inode 1, has been got into entry `slot0`. -/
def rootSys : Sys :=
  match Machine.run call (boot dirFs) [.inode (.iget 1)] with
  | .ok s => s
  | .error _ => boot dirFs

set_option maxRecDepth 20000 in
theorem rootSys_run : Machine.run call (boot dirFs) [.inode (.iget 1)] = .ok rootSys := by
  rfl

theorem rootSys_reached : DirReachable dirFs rootSys :=
  Machine.Reachable.run .init rootSys_run

set_option maxRecDepth 20000 in
theorem rootSys_held : 0 < rootSys.held slot0 := by
  decide

theorem directories_stay_in_shape_root :
    Formed dirFs ∧ Dirs dirFs ∧ DirReachable dirFs rootSys ∧ Sound rootSys.fs rootSys.fs.dinode ∧
      ∀ i < rootSys.fs.sb.ninodes, (rootSys.fs.dinode i).type = tDir →
        (rootSys.fs.dinode i).size % direntSize = 0 ∧
        ∀ a < (rootSys.fs.dinode i).size / direntSize,
          readLE (entry rootSys.fs.blocks (rootSys.fs.dinode i) a) 0 2 < rootSys.fs.sb.ninodes ∧
          ∀ b < (rootSys.fs.dinode i).size / direntSize,
            readLE (entry rootSys.fs.blocks (rootSys.fs.dinode i) a) 0 2 ≠ 0 →
            readLE (entry rootSys.fs.blocks (rootSys.fs.dinode i) b) 0 2 ≠ 0 →
            namecmp (entry rootSys.fs.blocks (rootSys.fs.dinode i) a) 2
              (entry rootSys.fs.blocks (rootSys.fs.dinode i) b) 2 = 0 →
            a = b := by
  have shape := directories_stay_in_shape dirFs_formed dirFs_dirs rootSys_reached
  exact ⟨dirFs_formed, dirFs_dirs, rootSys_reached, shape⟩

set_option maxRecDepth 20000 in
theorem create_hands_references_root :
    Formed dirFs ∧ Dirs dirFs ∧ DirReachable dirFs rootSys ∧ 0 < rootSys.held slot0 ∧
      Returns (Fs.create rootSys slot0 (fun _ => 97) 0 tFile 0 0 (fun _ => 0))
        (fun r => (∀ k, r.1 = some k → 0 < r.2.held k ∧ (r.2.itable.inode k).valid = true) ∧
          ∀ j, r.2.held j + (if j = slot0 then 1 else 0) = rootSys.held j + (if r.1 = some j then 1 else 0))
        (fun _ => True) := by
  refine ⟨dirFs_formed, dirFs_dirs, rootSys_reached, rootSys_held, ?_⟩
  exact create_hands_references dirFs_formed dirFs_dirs rootSys_reached rootSys_held tFile 0 0

/-- `sys_unlink`'s `bad:` gives back the reference to `dp`. -/
theorem DirInv.unlinkBad_held (inv : DirInv s) (live : 0 < s.held dp) {r : Int}
    (ran : Fs.unlinkBad s dp = .ok (r, s')) : ∀ j, s'.held j + (if j = dp then 1 else 0) = s.held j := by
  obtain ⟨s1, put, done⟩ := bind_eq_ok ran
  cases done
  intro j
  rw [(inv.iput put).2.1]
  exact put_once_apply _ dp j live

theorem DirInv.unlinkEntry_held (inv : DirInv s) (loadedDp : Loaded s dp) (loadedIp : Loaded s ip)
    (isDir : (s.itable.inode dp).din.type = tDir) {e : Nat} (inside : e < (s.itable.inode dp).din.size / direntSize)
    (twice : ip = dp → 2 ≤ s.held dp) {r : Int} (ran : Fs.unlinkEntry s dp ip (direntSize * e) = .ok (r, s')) :
    ∀ j, s'.held j + (if j = ip then 1 else 0) + (if j = dp then 1 else 0) = s.held j := by
  unfold Fs.unlinkEntry at ran
  obtain ⟨⟨r0, dp1, fs1⟩, written, rest⟩ := bind_eq_ok ran
  have zero : readLE (fun _ => (0 : UInt8)) 0 2 = 0 := rfl
  have some : 0 < s.fs.sb.ninodes := Nat.lt_of_le_of_lt (Nat.zero_le _) (inv.inv.inside dp loadedDp.1)
  obtain ⟨inv1, stays1, -⟩ := inv.writeEntry loadedDp isDir inside.le (by rw [zero]; exact some)
    (fun used => absurd zero used) written
  dsimp only at rest
  split at rest
  · cases rest
  obtain ⟨s2, updated, rest⟩ := bind_eq_ok rest
  obtain ⟨inv2, stays2, held2⟩ := inv1.iupdateIf (stays1 dp loadedDp).1 rfl updated
  obtain ⟨s3, put, rest⟩ := bind_eq_ok rest
  obtain ⟨inv3, held3, -⟩ := inv2.iput put
  have ip3 : Loaded s3 ip :=
    inv2.iput_loaded put (stays2 ip (stays1 ip loadedIp).1).1 fun same => by rw [held2]; exact twice same
  obtain ⟨s4, updated4, rest⟩ := bind_eq_ok rest
  obtain ⟨inv4, -, held4, -⟩ := inv3.iupdate ip3 rfl updated4
  obtain ⟨s5, put5, done⟩ := bind_eq_ok rest
  cases done
  intro j
  rw [(inv4.iput put5).2.1, held4, held3, held2]
  -- `dp` is put before `ip`: when they are one entry, it holds two references
  refine put_twice_apply s.held dp ip j loadedDp.1 ?_
  split_ifs with same
  · rw [same]
    have := twice same
    omega
  · exact loadedIp.1

theorem DirInv.sysUnlink_held (inv : DirInv s) (live : 0 < s.held dp) {r : Int}
    (ran : Fs.sysUnlink s dp kmem name = .ok (r, s')) : ∀ j, s'.held j + (if j = dp then 1 else 0) = s.held j := by
  unfold Fs.sysUnlink at ran
  obtain ⟨s1, locked, rest⟩ := bind_eq_ok ran
  obtain ⟨inv1, -, loaded1, held1, -⟩ := inv.ilock locked
  split at rest
  · intro j
    rw [← held1]
    exact inv1.unlinkBad_held loaded1.1 rest j
  obtain ⟨⟨f, s2⟩, looked, rest⟩ := bind_eq_ok rest
  obtain ⟨inv2, stays2, -, isDir, absent, present⟩ := inv1.dirlookup loaded1 looked
  have dp2 := (stays2 dp loaded1).1
  cases f with
  | none =>
      have held2 : s2.held = s.held := by rw [(absent rfl).1, held1]
      intro j
      rw [← held2]
      exact inv2.unlinkBad_held dp2.1 rest j
  | some hit =>
      -- `dirlookup` took a reference to the inode named
      obtain ⟨ip, off⟩ := hit
      obtain ⟨held2, found⟩ := present ip off rfl
      obtain ⟨e, inside, -, rfl, -⟩ := lookup_some found
      dsimp only at rest
      obtain ⟨s3, locked3, rest⟩ := bind_eq_ok rest
      obtain ⟨inv3, stays3, loaded3, held3, -⟩ := inv2.ilock locked3
      have dp3 := (stays3 dp dp2).1
      have din3 : (s3.itable.inode dp).din = (s1.itable.inode dp).din := by
        rw [Sys.ilock_keeps locked3 dp2.2]
        exact inv1.dirlookup_din loaded1 looked
      have taken : ∀ j, s3.held j = s.held j + (if j = ip then 1 else 0) := fun j => by
        rw [held3, held2, held1, update_succ_apply]
      split at rest
      · cases rest
      obtain ⟨⟨empty, s4⟩, checked, next⟩ := bind_eq_ok rest
      have same4 : s4 = s3 := by
        split at checked
        · exact (inv3.isdirempty loaded3 ‹_› checked).1
        · cases checked
          rfl
      rw [same4] at next
      split at next
      · -- a directory not empty: `ip` is put, then `dp`
        obtain ⟨s5, put, rest⟩ := bind_eq_ok next
        have back : ∀ j, s5.held j + (if j = ip then 1 else 0) = s.held j + (if j = ip then 1 else 0) := by
          intro j
          rw [(inv3.iput put).2.1, put_once_apply _ ip j loaded3.1, taken]
        have live5 : 0 < s5.held dp := by
          have := back dp
          omega
        intro j
        have bad := (inv3.iput put).1.unlinkBad_held live5 rest j
        have := back j
        omega
      · intro j
        have twice : ip = dp → 2 ≤ s3.held dp := fun same => by
          rw [taken, if_pos same.symm]
          omega
        have removed := inv3.unlinkEntry_held dp3 loaded3 (by rw [din3]; exact isDir) (by rw [din3]; exact inside)
          twice next j
        rw [taken] at removed
        omega

/-- From every state the calls reach, `sys_unlink` on an entry `dp` its caller
holds gives that reference back and leaves every other reference as it was, on
every path that returns: the name removed, or `-1`. -/
theorem sys_unlink_hands_references (formed : Formed fs) (dirs : Dirs fs) (reached : DirReachable fs s)
    (held : 0 < s.held dp) :
    Returns (Fs.sysUnlink s dp kmem name) (fun r => ∀ j, r.2.held j + (if j = dp then 1 else 0) = s.held j)
      (fun _ => True) := by
  cases ran : Fs.sysUnlink s dp kmem name with
  | error msg => trivial
  | ok r =>
      obtain ⟨r, s'⟩ := r
      exact (DirReachable.dirInv formed dirs reached).sysUnlink_held held ran

set_option maxRecDepth 20000 in
theorem sys_unlink_hands_references_root :
    Formed dirFs ∧ Dirs dirFs ∧ DirReachable dirFs rootSys ∧ 0 < rootSys.held slot0 ∧
      Returns (Fs.sysUnlink rootSys slot0 (fun _ => 97) 0)
        (fun r => ∀ j, r.2.held j + (if j = slot0 then 1 else 0) = rootSys.held j) (fun _ => True) := by
  refine ⟨dirFs_formed, dirFs_dirs, rootSys_reached, rootSys_held, ?_⟩
  exact sys_unlink_hands_references dirFs_formed dirFs_dirs rootSys_reached rootSys_held

end References

end Xv6.Fs
