import Mathlib
import Xv6.Fs.Trunc

/-!
The inode table of `kernel/fs.c`: `iget`, `idup`, `ilock`, `iput` and `ialloc`
over the `NINODE` in-memory inodes of `itable`, and the kernel calling them.
A caller holds references to table entries: `iget`, `idup` and `ialloc` give
it one, and `iput` takes one back, truncating and freeing the inode on disk
when it was the last reference to a loaded inode with no links. In between a
caller loads an entry with `ilock` and writes its file with `writei`, and the
calls run between `begin_op` and `end_op`. `itable.lock` and the inodes'
sleep-locks make each call one step; the calls of different processes
interleave. There is one device, so `dev` is left out.

Over every run from a sound disk, the `ref` of each entry counts the
references its callers hold, no two referenced entries name one inode, a
loaded entry is its inode on disk, and the disk keeps its block ownership.
-/

namespace Xv6.Fs

open Bytes
open Machine (Returns returns_ok returns_error returns_pure bind_eq_ok)

/-- `itable.inode`. -/
structure Itable where
  inode : Fin nInode → Inode

def Itable.set (t : Itable) (k : Fin nInode) (ip : Inode) : Itable := ⟨Function.update t.inode k ip⟩

@[simp] theorem Itable.set_self (t : Itable) (k : Fin nInode) (ip : Inode) : (t.set k ip).inode k = ip := by
  simp [Itable.set]

@[simp] theorem Itable.set_of_ne (t : Itable) {j k : Fin nInode} (ip : Inode) (other : j ≠ k) :
    (t.set k ip).inode j = t.inode j := by
  simp [Itable.set, other]

section Calls

/-- The loop of `iget` over the entries `ks` still to scan: an entry in use for
`inum` takes one more reference; `empty` is the first unused entry seen, which
is recycled for `inum` when no entry is in use for it. -/
def igetLoop (t : Itable) (inum : Nat) (empty : Option (Fin nInode)) :
    List (Fin nInode) → Except String (Fin nInode × Itable)
  | [] =>
      match empty with
      | none => .error "iget: no inodes"
      | some k => .ok (k, t.set k { t.inode k with inum, ref := 1, valid := false })
  | k :: ks =>
      if 0 < (t.inode k).ref ∧ (t.inode k).inum = inum then
        .ok (k, t.set k { t.inode k with ref := (t.inode k).ref + 1 })
      else igetLoop t inum (if empty = none ∧ (t.inode k).ref = 0 then some k else empty) ks

/-- `iget(dev, inum)`. -/
def iget (t : Itable) (inum : Nat) : Except String (Fin nInode × Itable) :=
  igetLoop t inum none (List.finRange nInode)

/-- `idup(ip)`. -/
def idup (t : Itable) (k : Fin nInode) : Itable :=
  t.set k { t.inode k with ref := (t.inode k).ref + 1 }

/-- `iput(ip)` up to `ip->ref--`: the last reference to a loaded inode with no
links truncates it and frees it on disk. -/
def iputFree (fs : State) (ip : Inode) : Except String (Inode × State) :=
  if ip.ref = 1 ∧ ip.valid ∧ ip.din.nlink = 0 then do
    let (ip, fs) ← itrunc fs ip
    let ip := { ip with din := { ip.din with type := 0 } }
    let fs ← iupdate fs ip
    return ({ ip with valid := false }, fs)
  else .ok (ip, fs)

/-- `iput(ip)`. -/
def iput (fs : State) (t : Itable) (k : Fin nInode) : Except String (Itable × State) := do
  let (ip, fs) ← iputFree fs (t.inode k)
  return (t.set k { ip with ref := ip.ref - 1 }, fs)

/-- The loop of `ialloc` over the inode numbers `inums`: the first inode free
on disk is zeroed, given `type` and logged. -/
def iallocLoop (fs : State) (type : Int16) : List Nat → Except String (Option Nat × State)
  | [] => .ok (none, fs)
  | inum :: inums =>
      if (fs.dinode inum).type = 0 then do
        let b := iblock fs.sb inum
        -- `memset(dip, 0, sizeof(*dip))`, `dip->type = type`, `log_write(bp)`
        let fs ← fs.write b (Dinode.write (fs.blocks b) (dinodeOffset inum) { Dinode.zero with type })
        return (some inum, fs)
      else iallocLoop fs type inums

/-- `ialloc(dev, type)` over `inum = 1, ..., sb.ninodes - 1`; `none` after
`ialloc: no inodes`. -/
def ialloc (fs : State) (t : Itable) (type : Int16) : Except String (Option (Fin nInode) × Itable × State) := do
  let (found, fs) ← iallocLoop fs type (List.range' 1 (fs.sb.ninodes - 1))
  match found with
  | none => return (none, t, fs)
  | some inum =>
      let (k, t) ← iget t inum
      return (some k, t, fs)

end Calls

section Specs

variable {fs fs' : State} {ip ip' : Inode} {i : Nat}

/-- What `iget` returns: an entry in use for `inum` with one more reference,
or, when no entry is in use for it, an unused entry recycled for it. -/
def Got (t : Itable) (inum : Nat) (k : Fin nInode) (t' : Itable) : Prop :=
  (0 < (t.inode k).ref ∧ (t.inode k).inum = inum ∧ t' = t.set k { t.inode k with ref := (t.inode k).ref + 1 }) ∨
  ((∀ j, 0 < (t.inode j).ref → (t.inode j).inum ≠ inum) ∧ (t.inode k).ref = 0 ∧
    t' = t.set k { t.inode k with inum, ref := 1, valid := false })

/-- The loop of `iget`, from entries scanned that are not in use for `inum`,
an unused `empty`, and with no `empty` every entry scanned in use. -/
theorem igetLoop_returns (t : Itable) (inum : Nat) (ks : List (Fin nInode)) (empty : Option (Fin nInode))
    (scanned : ∀ j, j ∉ ks → ¬ (0 < (t.inode j).ref ∧ (t.inode j).inum = inum))
    (unused : ∀ e, empty = some e → (t.inode e).ref = 0)
    (full : empty = none → ∀ j, j ∉ ks → 0 < (t.inode j).ref) :
    Returns (igetLoop t inum empty ks) (fun r => Got t inum r.1 r.2)
      (fun msg => msg = "iget: no inodes" ∧ ∀ j, 0 < (t.inode j).ref) := by
  induction ks generalizing empty with
  | nil =>
      cases empty with
      | none => exact ⟨rfl, fun j => full rfl j List.not_mem_nil⟩
      | some e => exact Or.inr ⟨fun j inUse same => scanned j List.not_mem_nil ⟨inUse, same⟩, unused e rfl, rfl⟩
  | cons k ks ih =>
      unfold igetLoop
      split
      · rename_i hit
        exact Or.inl ⟨hit.1, hit.2, rfl⟩
      · rename_i miss
        refine ih _ (fun j notIn => ?_) (fun e chosen => ?_) (fun none j notIn => ?_)
        · by_cases here : j = k
          · rw [here]
            exact miss
          · exact scanned j (by simp [here, notIn])
        · split at chosen
          · rename_i first
            cases chosen
            exact first.2
          · exact unused e chosen
        · -- with still no `empty`, entry `k` was in use
          split at none
          · cases none
          · rename_i notFirst
            by_cases here : j = k
            · rw [here]
              exact Nat.pos_of_ne_zero fun zero => notFirst ⟨none, zero⟩
            · exact full none j (by simp [here, notIn])

theorem iget_returns (t : Itable) (inum : Nat) :
    Returns (iget t inum) (fun r => Got t inum r.1 r.2)
      (fun msg => msg = "iget: no inodes" ∧ ∀ j, 0 < (t.inode j).ref) :=
  igetLoop_returns t inum _ none (fun j notIn => absurd (List.mem_finRange j) notIn)
    (fun _ chosen => absurd chosen.symm (Option.some_ne_none _)) (fun _ j notIn => absurd (List.mem_finRange j) notIn)

theorem ilock_cases (ran : ilock fs ip = .ok ip') :
    ip' = ip ∨ (ip' = { ip with valid := true, din := fs.dinode ip.inum } ∧ (fs.dinode ip.inum).type ≠ 0) := by
  unfold ilock at ran
  dsimp only at ran
  split at ran
  · cases ran
  split at ran
  · cases ran
    exact .inl rfl
  split at ran
  · cases ran
  · rename_i noType
    cases ran
    exact .inr ⟨rfl, noType⟩

theorem iupdate_returns (fs : State) (ip : Inode) :
    Returns (iupdate fs ip)
      (fun fs' => Wrote fs fs' (iblock fs.sb ip.inum)
        (Dinode.write (fs.blocks (iblock fs.sb ip.inum)) (dinodeOffset ip.inum) ip.din)) LogPanic :=
  State.write_returns _ _ _

theorem present_of_agree {disk disk' : Disk} {d : Dinode} {off k : Nat} (present : Present disk d off k)
    (agree : AgreeOn disk disk' d) : Present disk' d off k := fun p lower upper => by
  rw [blockAt_of_agree agree]
  exact present p lower upper

theorem AgreeOn.trans {disk disk' disk'' : Disk} {d : Dinode} (first : AgreeOn disk disk' d)
    (second : AgreeOn disk' disk'' d) : AgreeOn disk disk'' d := fun s b ref => by
  rw [second s b ((refAt_of_agree first s b).mpr ref), first s b ref]

theorem Sound.fewer {view view' : Nat → Dinode} (sound : Sound fs view)
    (fewer : ∀ i < fs.sb.ninodes, ∀ s c, RefAt fs.blocks (view' i) s c → RefAt fs.blocks (view i) s c) :
    Sound fs view' :=
  ⟨fun i inode s c ref => sound.owned i inode s c (fewer i inode s c ref),
    fun i inode j other s t c ref ref' =>
      sound.unique i inode j other s t c (fewer i inode s c ref) (fewer j other t c ref'),
    sound.reserved⟩

theorem Sound.agree_of_early {fs fs' : State} (sound : Sound fs fs.dinode) {b : Nat} {m : Mem}
    (w : Wrote fs fs' b m) (early : b < fs.sb.dataStart) {i : Nat} (inode : i < fs.sb.ninodes) :
    AgreeOn fs.blocks fs'.blocks (fs.dinode i) := fun sl c ref =>
  w.apply_of_ne (by have := (sound.owned i inode sl c ref).1; omega)

/-- Storing inode `i` as a dinode that references no block the inode did not:
the disk stays sound and its bitmap as it was, and every other inode and its
blocks stay. -/
theorem Sound.store_fewer (sound : Sound fs fs.dinode) (laid : fs.sb.Laid) (inode : i < fs.sb.ninodes)
    {d : Dinode} (w : Wrote fs fs' (iblock fs.sb i) (Dinode.write (fs.blocks (iblock fs.sb i)) (dinodeOffset i) d))
    (fits : d.Fits) (fewer : ∀ s c, RefAt fs.blocks d s c → RefAt fs.blocks (fs.dinode i) s c) :
    fs'.dinode i = d ∧ Sound fs' fs'.dinode ∧ (∀ c, fs'.used c = fs.used c) ∧
      ∀ j < fs.sb.ninodes, j ≠ i → fs'.dinode j = fs.dinode j ∧ AgreeOn fs.blocks fs'.blocks (fs.dinode j) := by
  have early : iblock fs.sb i < fs.sb.bmapstart := laid.iblock_lt inode
  have self : fs'.dinode i = d := w.dinode_stored fits
  have used : ∀ c, fs'.used c = fs.used c := fun c =>
    w.used (by have := bmapstart_le_bblock fs.sb c; omega)
  -- the blocks of files are data blocks, after the inode blocks
  have others : ∀ j < fs.sb.ninodes, j ≠ i → fs'.dinode j = fs.dinode j ∧ AgreeOn fs.blocks fs'.blocks (fs.dinode j) :=
    fun j inodeJ other => ⟨w.dinode_beside other,
      sound.agree_of_early w (by have := bmapstart_lt_dataStart fs.sb; omega) inodeJ⟩
  refine ⟨self, (sound.wrote_early w early).fewer fun j inodeJ s c ref => ?_, used, others⟩
  rw [w.sb] at inodeJ
  by_cases own : j = i
  · rw [own, self] at ref
    rw [own]
    -- `d`'s indirect block, if any, is one of the inode's, so the write missed it
    have same : RefAt fs'.blocks d s c ↔ RefAt fs.blocks d s c := by
      by_cases absent : d.addr nDirect = 0
      · exact (refAt_of_absent absent s c).symm
      · have owned := (sound.owned i inode _ _ (fewer .indirect _ ⟨trivial, absent, rfl⟩)).1
        have := bmapstart_lt_dataStart fs.sb
        exact w.refAt (by omega) s c
    exact (sound.refAt_of_early w early inode s c).mpr (fewer s c (same.mp ref))
  · rwa [(others j inodeJ own).1] at ref

theorem Sound.store_empty (sound : Sound fs fs.dinode) (laid : fs.sb.Laid) (inode : i < fs.sb.ninodes)
    {d : Dinode} (w : Wrote fs fs' (iblock fs.sb i) (Dinode.write (fs.blocks (iblock fs.sb i)) (dinodeOffset i) d))
    (fits : d.Fits) (empty : ∀ a, d.addr a = 0) :
    fs'.dinode i = d ∧ Sound fs' fs'.dinode ∧ (∀ c, fs'.used c = fs.used c) ∧
      ∀ j < fs.sb.ninodes, j ≠ i → fs'.dinode j = fs.dinode j ∧ AgreeOn fs.blocks fs'.blocks (fs.dinode j) :=
  sound.store_fewer laid inode w fits fun s c ref => absurd ref (not_refAt_of_addrs empty s c)

/-- What the last `iput` of a loaded inode with no links leaves: the inode free
on disk with no blocks, exactly the bits of its blocks cleared, the disk sound,
and every other inode and its blocks as they were. -/
structure Released (fs : State) (ip : Inode) (fs' : State) : Prop where
  stored : fs'.dinode ip.inum = { ip.din with type := 0, size := 0, addrs := Vector.replicate (nDirect + 1) 0 }
  used : ∀ c < fs.sb.size, fs'.used c = true ↔ fs.used c = true ∧ ∀ s, ¬ RefAt fs.blocks ip.din s c
  sound : Sound fs' fs'.dinode
  others : ∀ i < fs.sb.ninodes, i ≠ ip.inum → fs'.dinode i = fs.dinode i ∧ AgreeOn fs.blocks fs'.blocks (fs.dinode i)
  sb : fs'.sb = fs.sb

theorem iputFree_of_kept (kept : ¬ (ip.ref = 1 ∧ ip.valid ∧ ip.din.nlink = 0)) : iputFree fs ip = .ok (ip, fs) := by
  rw [iputFree, if_neg kept]

theorem iputFree_released (laid : fs.sb.Laid) (sound : Sound fs fs.dinode) (inode : ip.inum < fs.sb.ninodes)
    (synced : ip.din = fs.dinode ip.inum) (freeing : ip.ref = 1 ∧ ip.valid ∧ ip.din.nlink = 0) :
    Returns (iputFree fs ip) (fun r => r.1.inum = ip.inum ∧ r.1.ref = ip.ref ∧ r.1.valid = false ∧ Released fs ip r.2)
      LogPanic := by
  have view : fs.viewWith ip = fs.dinode := by rw [State.viewWith, synced, Function.update_eq_self]
  rw [iputFree, if_pos freeing]
  refine (itrunc_spec laid (view ▸ sound) inode).bind fun r truncated => ?_
  obtain ⟨ip1, fs1⟩ := r
  have shape := truncated.inode
  dsimp only at shape truncated ⊢
  subst shape
  refine (iupdate_returns _ _).bind fun fs2 w => returns_pure ⟨rfl, rfl, rfl, ?_⟩
  -- the emptied inode is stored once more, now free
  have sb1 := truncated.sb
  obtain ⟨self, sound2, used2, others2⟩ := Sound.store_empty truncated.sound (sb1 ▸ laid) (sb1 ▸ inode) w
    (Dinode.emptied_fits { ip.din with type := 0 }) (fun a => by simp [Dinode.addr])
  refine ⟨self, fun c inside => ?_, sound2, fun j inodeJ other => ?_, w.sb.trans sb1⟩
  · rw [used2]
    exact truncated.used c inside
  · obtain ⟨same1, agree1⟩ := truncated.others j inodeJ other
    obtain ⟨same2, agree2⟩ := others2 j (by rw [sb1]; exact inodeJ) other
    rw [same1] at same2 agree2
    exact ⟨same2, agree1.trans agree2⟩

/-- What `ialloc`'s loop returns: no inode, the disk as it was, or the first
inode of `inums` free on disk, zeroed with `type` in its block. -/
theorem iallocLoop_returns (fs : State) (type : Int16) (inums : List Nat) :
    Returns (iallocLoop fs type inums)
      (fun r => (r.1 = none ∧ r.2 = fs ∧ ∀ inum ∈ inums, (fs.dinode inum).type ≠ 0) ∨
        ∃ inum ∈ inums, r.1 = some inum ∧ (fs.dinode inum).type = 0 ∧
        Wrote fs r.2 (iblock fs.sb inum) (Dinode.write (fs.blocks (iblock fs.sb inum)) (dinodeOffset inum)
          { Dinode.zero with type }))
      LogPanic := by
  induction inums with
  | nil => exact Or.inl ⟨rfl, rfl, fun _ member => absurd member List.not_mem_nil⟩
  | cons inum inums ih =>
      unfold iallocLoop
      split
      · rename_i free
        exact (State.write_returns _ _ _).bind fun fs' w =>
          returns_pure (Or.inr ⟨inum, List.mem_cons_self, rfl, free, w⟩)
      · rename_i taken
        refine ih.mono (fun r found => ?_) fun _ panics => panics
        rcases found with ⟨none, same, allTaken⟩ | ⟨inum', member, some, free, w⟩
        · refine Or.inl ⟨none, same, fun inum' member => ?_⟩
          rcases List.mem_cons.mp member with here | later
          · rw [here]
            exact taken
          · exact allTaken inum' later
        · exact Or.inr ⟨inum', List.mem_cons_of_mem _ member, some, free, w⟩

end Specs

section System

/-- The kernel as the table's caller: the file system, the table, and the
number of references callers hold to each entry. -/
structure Sys where
  fs : State
  itable : Itable
  held : Fin nInode → Nat

inductive Event where
  | beginOp
  | endOp
  | iget (inum : Nat)
  | ialloc (type : Int16)
  | idup (k : Fin nInode)
  | ilock (k : Fin nInode)
  | writei (k : Fin nInode) (phys : Vm.Phys) (src off n : Nat)
  | iput (k : Fin nInode)

/-- One call. A caller passes only entries it holds a reference to, asks
`iget` for numbers inside the inode blocks, writes a file from kernel memory
only while it has the inode loaded, and gives `writei` a `uint` count; other
calls are not made. A `begin_op` that would sleep, and an `end_op` outside a
transaction, are not enabled. -/
def step (s : Sys) : Event → Except String Sys
  | .beginOp =>
      match Logging.beginOp s.fs.log with
      | none => .ok s
      | some log => .ok { s with fs := { s.fs with log } }
  | .endOp =>
      if 0 < s.fs.log.outstanding then do
        let (log, doCommit) ← Logging.endOp s.fs.log
        -- `commit` installs what the buffers already hold
        let log := if doCommit then Logging.commitDone log else log
        return { s with fs := { s.fs with log } }
      else .ok s
  | .iget inum =>
      if inum < s.fs.sb.ninodes then do
        let (k, t) ← iget s.itable inum
        return { s with itable := t, held := Function.update s.held k (s.held k + 1) }
      else .ok s
  | .ialloc type => do
      let (found, t, fs) ← ialloc s.fs s.itable type
      match found with
      | none => return { s with fs, itable := t }
      | some k => return { s with fs, itable := t, held := Function.update s.held k (s.held k + 1) }
  | .idup k =>
      if 0 < s.held k then .ok { s with itable := idup s.itable k, held := Function.update s.held k (s.held k + 1) }
      else .ok s
  | .ilock k =>
      if 0 < s.held k then do
        let ip ← ilock s.fs (s.itable.inode k)
        return { s with itable := s.itable.set k ip }
      else .ok s
  | .writei k phys src off n =>
      if 0 < s.held k ∧ (s.itable.inode k).valid ∧ n < 2 ^ 32 then do
        let (_, ip, fs) ← writei (Vm.eitherCopyin phys 0 false) s.fs (s.itable.inode k) src off n
        return { s with fs, itable := s.itable.set k ip }
      else .ok s
  | .iput k =>
      if 0 < s.held k then do
        let (t, fs) ← iput s.fs s.itable k
        return { s with fs, itable := t, held := Function.update s.held k (s.held k - 1) }
      else .ok s

/-- The zeroed table of `iinit` over the disk `fs`. -/
def boot (fs : State) : Sys :=
  { fs, itable := ⟨fun _ => ⟨0, 0, false, Dinode.zero⟩⟩, held := fun _ => 0 }

abbrev Reachable (fs : State) (s : Sys) : Prop := Machine.Reachable step (boot fs) s

/-- A disk the inode layer runs on: laid out, its block ownership sound, and
every file's blocks present up to its size. -/
structure Formed (fs : State) : Prop where
  laid : fs.sb.Laid
  sound : Sound fs fs.dinode
  dense : ∀ i < fs.sb.ninodes, Present fs.blocks (fs.dinode i) 0 (fs.dinode i).size

/-- The invariant of the table over the disk. -/
structure Inv (s : Sys) : Prop where
  formed : Formed s.fs
  refs : ∀ k, (s.itable.inode k).ref = s.held k
  inside : ∀ k, 0 < s.held k → (s.itable.inode k).inum < s.fs.sb.ninodes
  unique : ∀ j k, 0 < s.held j → 0 < s.held k → (s.itable.inode j).inum = (s.itable.inode k).inum → j = k
  synced : ∀ k, 0 < s.held k → (s.itable.inode k).valid →
    (s.itable.inode k).din = s.fs.dinode (s.itable.inode k).inum
  typed : ∀ k, 0 < s.held k → (s.itable.inode k).valid → (s.itable.inode k).din.type ≠ 0

end System

section Invariant

variable {fs fs' : State} {s s' : Sys}

/-- A disk on which inode `i` changed to one whose blocks are present, while
every other inode and its blocks stayed. -/
theorem Formed.beside (formed : Formed fs) {i : Nat} (sb : fs'.sb = fs.sb) (sound : Sound fs' fs'.dinode)
    (self : Present fs'.blocks (fs'.dinode i) 0 (fs'.dinode i).size)
    (others : ∀ j < fs.sb.ninodes, j ≠ i → fs'.dinode j = fs.dinode j ∧ AgreeOn fs.blocks fs'.blocks (fs.dinode j)) :
    Formed fs' := by
  refine ⟨sb ▸ formed.laid, sound, fun j inode => ?_⟩
  rw [sb] at inode
  by_cases own : j = i
  · rw [own]
    exact self
  · obtain ⟨same, agree⟩ := others j inode own
    rw [same]
    exact present_of_agree (formed.dense j inode) agree

theorem Formed.log (formed : Formed fs) (log : Logging.Log) : Formed { fs with log } :=
  ⟨formed.laid, ⟨formed.sound.owned, formed.sound.unique, formed.sound.reserved⟩, formed.dense⟩

theorem Inv.log (inv : Inv s) (log : Logging.Log) : Inv { s with fs := { s.fs with log } } :=
  ⟨inv.formed.log log, inv.refs, inv.inside, inv.unique, inv.synced, inv.typed⟩

/-- A call that changes entry `k` to `ip` and the references held to it to
`h`, and the disk to `fs'` beside the inodes other loaded entries hold, keeps
the invariant when the new entry keeps it. -/
theorem Inv.change (inv : Inv s) {k : Fin nInode} {ip : Inode} {h : Nat} (formed : Formed fs')
    (sb : fs'.sb = s.fs.sb)
    (kept : ∀ j, j ≠ k → 0 < s.held j → (s.itable.inode j).valid →
      fs'.dinode (s.itable.inode j).inum = s.fs.dinode (s.itable.inode j).inum)
    (ref : ip.ref = h) (inside : 0 < h → ip.inum < s.fs.sb.ninodes)
    (unique : 0 < h → ∀ j, j ≠ k → 0 < s.held j → (s.itable.inode j).inum ≠ ip.inum)
    (synced : 0 < h → ip.valid → ip.din = fs'.dinode ip.inum)
    (typed : 0 < h → ip.valid → ip.din.type ≠ 0) :
    Inv { fs := fs', itable := s.itable.set k ip, held := Function.update s.held k h } := by
  have entry : ∀ j, j ≠ k → (s.itable.set k ip).inode j = s.itable.inode j := fun j other =>
    Itable.set_of_ne _ _ other
  have count : ∀ j, j ≠ k → Function.update s.held k h j = s.held j := fun j other =>
    Function.update_of_ne other _ _
  refine ⟨formed, fun j => ?_, fun j live => ?_, fun j j' live live' same => ?_, fun j live loaded => ?_,
    fun j live loaded => ?_⟩ <;> dsimp only at *
  · by_cases here : j = k
    · rw [here, Itable.set_self, Function.update_self, ref]
    · rw [entry j here, count j here, inv.refs j]
  · rw [sb]
    by_cases here : j = k
    · rw [here, Function.update_self] at live
      rw [here, Itable.set_self]
      exact inside live
    · rw [count j here] at live
      rw [entry j here]
      exact inv.inside j live
  · -- two entries in use for one inode: both old, or one is the new entry
    by_cases here : j = k <;> by_cases here' : j' = k
    · rw [here, here']
    · rw [here, Function.update_self] at live
      rw [count j' here'] at live'
      rw [here, Itable.set_self, entry j' here'] at same
      exact absurd same.symm (unique live j' here' live')
    · rw [here', Function.update_self] at live'
      rw [count j here] at live
      rw [here', Itable.set_self, entry j here] at same
      exact absurd same (unique live' j here live)
    · rw [count j here] at live
      rw [count j' here'] at live'
      rw [entry j here, entry j' here'] at same
      exact inv.unique j j' live live' same
  · by_cases here : j = k
    · rw [here, Function.update_self] at live
      rw [here, Itable.set_self] at loaded ⊢
      exact synced live loaded
    · rw [count j here] at live
      rw [entry j here] at loaded ⊢
      rw [kept j here live loaded]
      exact inv.synced j live loaded
  · by_cases here : j = k
    · rw [here, Function.update_self] at live
      rw [here, Itable.set_self] at loaded ⊢
      exact typed live loaded
    · rw [count j here] at live
      rw [entry j here] at loaded ⊢
      exact inv.typed j live loaded

theorem Inv.recount (inv : Inv s) {k : Fin nInode} {ip : Inode} {h : Nat} (live : 0 < s.held k)
    (same : ip = { s.itable.inode k with ref := ip.ref }) (ref : ip.ref = h) :
    Inv { fs := s.fs, itable := s.itable.set k ip, held := Function.update s.held k h } := by
  rw [same]
  exact inv.change inv.formed rfl (fun _ _ _ _ => rfl) ref (fun _ => inv.inside k live)
    (fun _ j other live' named => other (inv.unique j k live' live named)) (fun _ => inv.synced k live)
    (fun _ => inv.typed k live)

end Invariant

section Steps

variable {fs : State} {s s' : Sys}

theorem inv_beginOp (inv : Inv s) (stepped : step s .beginOp = .ok s') : Inv s' := by
  simp only [step] at stepped
  split at stepped
  · cases stepped
    exact inv
  · cases stepped
    exact inv.log _

theorem inv_endOp (inv : Inv s) (stepped : step s .endOp = .ok s') : Inv s' := by
  simp only [step] at stepped
  split at stepped
  · obtain ⟨⟨log, doCommit⟩, -, rest⟩ := bind_eq_ok stepped
    cases rest
    exact inv.log _
  · cases stepped
    exact inv

theorem inv_iget (inv : Inv s) {inum : Nat} (stepped : step s (.iget inum) = .ok s') : Inv s' := by
  simp only [step] at stepped
  split at stepped
  · rename_i inside
    obtain ⟨⟨k, t⟩, got, rest⟩ := bind_eq_ok stepped
    cases rest
    have result := (iget_returns s.itable inum).of_ok got
    dsimp only at result
    rcases result with ⟨inUse, -, rfl⟩ | ⟨missing, unused, rfl⟩
    · -- one more reference to the entry in use for `inum`
      have live : 0 < s.held k := by rw [← inv.refs k]; exact inUse
      exact inv.recount live rfl (by rw [inv.refs k])
    · -- an unused entry recycled for `inum`, not loaded
      refine inv.change inv.formed rfl (fun _ _ _ _ => rfl) (by rw [← inv.refs k, unused]) (fun _ => inside)
        (fun _ j _ live named => missing j (by rw [inv.refs j]; exact live) named)
        (fun _ loaded => absurd loaded Bool.false_ne_true) (fun _ loaded => absurd loaded Bool.false_ne_true)
  · cases stepped
    exact inv

theorem inv_idup (inv : Inv s) {k : Fin nInode} (stepped : step s (.idup k) = .ok s') : Inv s' := by
  simp only [step] at stepped
  split at stepped
  · rename_i live
    cases stepped
    exact inv.recount live rfl (by rw [inv.refs k])
  · cases stepped
    exact inv

theorem inv_ilock (inv : Inv s) {k : Fin nInode} (stepped : step s (.ilock k) = .ok s') : Inv s' := by
  simp only [step] at stepped
  split at stepped
  · rename_i live
    obtain ⟨ip, locked, rest⟩ := bind_eq_ok stepped
    cases rest
    rw [← Function.update_eq_self k s.held]
    rcases ilock_cases locked with rfl | ⟨rfl, typed⟩
    · exact inv.recount live rfl (inv.refs k)
    · -- loaded from disk, where it is allocated
      exact inv.change inv.formed rfl (fun _ _ _ _ => rfl) (inv.refs k) (fun _ => inv.inside k live)
        (fun _ j other live' named => other (inv.unique j k live' live named)) (fun _ _ => rfl) (fun _ _ => typed)
  · cases stepped
    exact inv

theorem inv_writei (inv : Inv s) {k : Fin nInode} {phys : Vm.Phys} {src off n : Nat}
    (stepped : step s (.writei k phys src off n) = .ok s') : Inv s' := by
  simp only [step] at stepped
  split at stepped
  · rename_i guard
    obtain ⟨live, loaded, small⟩ := guard
    obtain ⟨⟨r, ip', fs'⟩, wrote, rest⟩ := bind_eq_ok stepped
    cases rest
    rw [← Function.update_eq_self k s.held]
    have synced := inv.synced k live loaded
    have inode := inv.inside k live
    by_cases checks : off ≤ (s.itable.inode k).din.size ∧ off + n ≤ maxFile * bSize
    · have dense : Present s.fs.blocks (s.itable.inode k).din 0 (s.itable.inode k).din.size := by
        rw [synced]
        exact inv.formed.dense _ inode
      obtain ⟨m, -, -, stored, -⟩ :=
        writei_spec phys 0 inv.formed.laid inv.formed.sound inode synced dense checks.1 checks.2 wrote
      -- `writei` changes the entry's dinode only, and stores it
      have frame : ip'.inum = (s.itable.inode k).inum ∧ ip'.ref = (s.itable.inode k).ref ∧
          ip'.din.type = (s.itable.inode k).din.type := by
        rw [stored.shape]
        exact ⟨rfl, rfl, rfl⟩
      have formed : Formed fs' :=
        inv.formed.beside stored.sb stored.sound (by rw [stored.synced]; exact stored.dense) stored.others
      refine inv.change formed stored.sb
        (fun j other live' _ => (stored.others _ (inv.inside j live') fun named =>
          other (inv.unique j k live' live named)).1)
        (frame.2.1.trans (inv.refs k)) (fun _ => frame.1 ▸ inode)
        (fun _ j other live' named => other (inv.unique j k live' live (named.trans frame.1)))
        (fun _ _ => by rw [frame.1, stored.synced]) (fun _ _ => by rw [frame.2.2]; exact inv.typed k live loaded)
    · -- the checks fail: `writei` returns `-1` and changes nothing
      have fits : (s.itable.inode k).din.size < 2 ^ 32 := synced ▸ (Dinode.read_fits _ _).size
      rw [writei_of_fail _ fits small checks] at wrote
      cases wrote
      exact inv.recount live rfl (inv.refs k)
  · cases stepped
    exact inv

theorem inv_iput (inv : Inv s) {k : Fin nInode} (stepped : step s (.iput k) = .ok s') : Inv s' := by
  simp only [step] at stepped
  split at stepped
  · rename_i live
    obtain ⟨⟨t, fs'⟩, put, rest⟩ := bind_eq_ok stepped
    cases rest
    unfold iput at put
    obtain ⟨⟨ip', fs2⟩, freed, rest⟩ := bind_eq_ok put
    cases rest
    by_cases freeing : (s.itable.inode k).ref = 1 ∧ (s.itable.inode k).valid ∧ (s.itable.inode k).din.nlink = 0
    · -- the last reference: the inode is freed on disk and the entry with it
      have synced := inv.synced k live freeing.2.1
      have inode := inv.inside k live
      obtain ⟨-, refSame, -, released⟩ :=
        (iputFree_released inv.formed.laid inv.formed.sound inode synced freeing).of_ok freed
      have gone : s.held k - 1 = 0 := by rw [← inv.refs k, freeing.1]
      have formed : Formed fs' := inv.formed.beside released.sb released.sound
        (by rw [released.stored]; exact fun p _ upper => absurd upper (by simp)) released.others
      refine inv.change formed released.sb
        (fun j other live' _ => (released.others _ (inv.inside j live') fun named =>
          other (inv.unique j k live' live named)).1)
        (by dsimp only; rw [refSame, freeing.1, gone]) (fun pos => absurd pos (by omega))
        (fun pos => absurd pos (by omega)) (fun pos => absurd pos (by omega)) (fun pos => absurd pos (by omega))
    · rw [iputFree_of_kept freeing] at freed
      cases freed
      exact inv.recount live rfl (by rw [inv.refs k])
  · cases stepped
    exact inv

theorem inv_ialloc (inv : Inv s) {type : Int16} (stepped : step s (.ialloc type) = .ok s') : Inv s' := by
  simp only [step] at stepped
  obtain ⟨⟨found, t, fs'⟩, allocated, rest⟩ := bind_eq_ok stepped
  unfold ialloc at allocated
  obtain ⟨⟨found1, fs1⟩, looped, rest1⟩ := bind_eq_ok allocated
  rcases (iallocLoop_returns s.fs type _).of_ok looped with ⟨none1, same, -⟩ | ⟨inum, member, some1, free, w⟩
  · -- no inode is free: nothing changes
    dsimp only at none1 same
    subst none1 same
    cases rest1
    cases rest
    exact inv
  · dsimp only at some1 w
    subst some1
    obtain ⟨⟨k, t1⟩, got, rest2⟩ := bind_eq_ok rest1
    cases rest2
    cases rest
    have inode : inum < s.fs.sb.ninodes := by
      have := List.mem_range'_1.mp member
      omega
    obtain ⟨self, sound1, -, others1⟩ := Sound.store_empty inv.formed.sound inv.formed.laid inode w
      (Dinode.emptied_fits { Dinode.zero with type }) (fun a => by simp [Dinode.addr, Dinode.zero])
    have formed : Formed fs' := inv.formed.beside w.sb sound1
      (by rw [self]; exact fun p _ upper => absurd upper (by simp [Dinode.zero])) others1
    -- a loaded entry holds an allocated inode, so not the one that was free
    have unloaded : ∀ j, 0 < s.held j → (s.itable.inode j).valid → (s.itable.inode j).inum ≠ inum :=
      fun j live loaded named => inv.typed j live loaded (by rw [inv.synced j live loaded, named]; exact free)
    have kept : ∀ j, j ≠ k → 0 < s.held j → (s.itable.inode j).valid →
        fs'.dinode (s.itable.inode j).inum = s.fs.dinode (s.itable.inode j).inum := fun j _ live loaded =>
      (others1 _ (inv.inside j live) (unloaded j live loaded)).1
    have result := (iget_returns s.itable inum).of_ok got
    dsimp only at result
    rcases result with ⟨inUse, named, rfl⟩ | ⟨missing, unused, rfl⟩
    · have live : 0 < s.held k := by rw [← inv.refs k]; exact inUse
      refine inv.change formed w.sb kept (by dsimp only; rw [inv.refs k]) (fun _ => inv.inside k live)
        (fun _ j other live' named' => other (inv.unique j k live' live named'))
        (fun _ loaded => absurd named (unloaded k live loaded)) (fun _ loaded => absurd named (unloaded k live loaded))
    · refine inv.change formed w.sb kept (by dsimp only; rw [← inv.refs k, unused]) (fun _ => inode)
        (fun _ j _ live named' => missing j (by rw [inv.refs j]; exact live) named')
        (fun _ loaded => absurd loaded Bool.false_ne_true) (fun _ loaded => absurd loaded Bool.false_ne_true)

theorem inv_step (inv : Inv s) {e : Event} (stepped : step s e = .ok s') : Inv s' := by
  cases e with
  | beginOp => exact inv_beginOp inv stepped
  | endOp => exact inv_endOp inv stepped
  | iget inum => exact inv_iget inv stepped
  | ialloc type => exact inv_ialloc inv stepped
  | idup k => exact inv_idup inv stepped
  | ilock k => exact inv_ilock inv stepped
  | writei k phys src off n => exact inv_writei inv stepped
  | iput k => exact inv_iput inv stepped

theorem inv_boot (formed : Formed fs) : Inv (boot fs) :=
  ⟨formed, fun _ => rfl, fun _ live => absurd live (lt_irrefl 0), fun _ _ live => absurd live (lt_irrefl 0),
    fun _ live => absurd live (lt_irrefl 0), fun _ live => absurd live (lt_irrefl 0)⟩

theorem Reachable.inv (formed : Formed fs) (reached : Reachable fs s) : Inv s :=
  Machine.Reachable.of_keeps (inv_boot formed) (fun _ _ _ inv stepped => inv_step inv stepped) reached

end Steps

section Results

variable {fs : State} {s : Sys}

/-- Over every run of the inode layer's calls from a formed disk and the zeroed
table, in any interleaving: each entry's `ref` is the number of references its
callers hold, no two referenced entries name one inode, a referenced entry that
is loaded holds exactly its inode on disk, which is allocated, and block
ownership on disk stays sound. -/
theorem itable_coherent (formed : Formed fs) (reached : Reachable fs s) :
    (∀ k, (s.itable.inode k).ref = s.held k) ∧
    (∀ j k, 0 < (s.itable.inode j).ref → 0 < (s.itable.inode k).ref →
      (s.itable.inode j).inum = (s.itable.inode k).inum → j = k) ∧
    (∀ k, 0 < (s.itable.inode k).ref → (s.itable.inode k).valid →
      (s.itable.inode k).din = s.fs.dinode (s.itable.inode k).inum ∧ (s.itable.inode k).din.type ≠ 0) ∧
    Sound s.fs s.fs.dinode := by
  have inv := Reachable.inv formed reached
  refine ⟨inv.refs, fun j k live live' same => ?_, fun k live loaded => ?_, inv.formed.sound⟩
  · rw [inv.refs] at live live'
    exact inv.unique j k live live' same
  · rw [inv.refs] at live
    exact ⟨inv.synced k live loaded, inv.typed k live loaded⟩

theorem blankFs_formed : Formed (blankFs blankLog) :=
  ⟨mkfs_sb_laid, blankFs_sound _, fun i inode p _ upper =>
    absurd upper (by rw [blankFs_dinode _ inode, Dinode.read_zero_size]; omega)⟩

def slot0 : Fin nInode := ⟨0, by decide⟩

/-- The blank disk after `ialloc(T_FILE)` and `ilock` of the entry it returns,
as `create` has them before it links the new inode. -/
def fileSys : Sys :=
  match Machine.run step (boot (blankFs blankLog)) [.ialloc tFile, .ilock slot0] with
  | .ok s => s
  | .error _ => boot (blankFs blankLog)

set_option maxRecDepth 20000 in
theorem fileSys_run : Machine.run step (boot (blankFs blankLog)) [.ialloc tFile, .ilock slot0] = .ok fileSys := by
  rfl

theorem fileSys_reached : Reachable (blankFs blankLog) fileSys :=
  Machine.Reachable.run .init fileSys_run

set_option maxRecDepth 20000 in
theorem fileSys_entry : (fileSys.itable.inode slot0).ref = 1 ∧ (fileSys.itable.inode slot0).valid = true ∧
    (fileSys.itable.inode slot0).din.nlink = 0 := by
  decide

theorem itable_coherent_file :
    Formed (blankFs blankLog) ∧ Reachable (blankFs blankLog) fileSys ∧
      (∀ k, (fileSys.itable.inode k).ref = fileSys.held k) ∧
      (∀ j k, 0 < (fileSys.itable.inode j).ref → 0 < (fileSys.itable.inode k).ref →
        (fileSys.itable.inode j).inum = (fileSys.itable.inode k).inum → j = k) ∧
      (∀ k, 0 < (fileSys.itable.inode k).ref → (fileSys.itable.inode k).valid →
        (fileSys.itable.inode k).din = fileSys.fs.dinode (fileSys.itable.inode k).inum ∧
          (fileSys.itable.inode k).din.type ≠ 0) ∧
      Sound fileSys.fs fileSys.fs.dinode :=
  ⟨blankFs_formed, fileSys_reached, itable_coherent blankFs_formed fileSys_reached⟩

/-- From any reachable state, `iput` of the last reference to a loaded inode
with no links panics only in `log_write`; otherwise the inode is free on disk,
with size `0` and no blocks, exactly the bits of its blocks are cleared, its
entry has no reference and is not loaded, and every other inode and its blocks
are as they were. -/
theorem iput_frees_unlinked (formed : Formed fs) (reached : Reachable fs s) (k : Fin nInode)
    (last : (s.itable.inode k).ref = 1) (loaded : (s.itable.inode k).valid = true)
    (unlinked : (s.itable.inode k).din.nlink = 0) :
    match step s (.iput k) with
    | .ok s' =>
        s'.fs.dinode (s.itable.inode k).inum =
          { (s.itable.inode k).din with type := 0, size := 0, addrs := Vector.replicate (nDirect + 1) 0 } ∧
        (∀ c < s.fs.sb.size, s'.fs.used c = true ↔
          s.fs.used c = true ∧ ∀ sl, ¬ RefAt s.fs.blocks (s.itable.inode k).din sl c) ∧
        (s'.itable.inode k).ref = 0 ∧ (s'.itable.inode k).valid = false ∧
        ∀ i < s.fs.sb.ninodes, i ≠ (s.itable.inode k).inum →
          s'.fs.dinode i = s.fs.dinode i ∧ AgreeOn s.fs.blocks s'.fs.blocks (s.fs.dinode i)
    | .error msg => LogPanic msg := by
  have inv := Reachable.inv formed reached
  have live : 0 < s.held k := by rw [← inv.refs k, last]; exact Nat.one_pos
  have ret := iputFree_released inv.formed.laid inv.formed.sound (inv.inside k live) (inv.synced k live loaded)
    ⟨last, loaded, unlinked⟩
  cases ran : iputFree s.fs (s.itable.inode k) with
  | error msg =>
      have failed : step s (.iput k) = .error msg := by
        simp only [step, live, ↓reduceIte, iput, ran]
        rfl
      rw [failed]
      exact ret.of_error ran
  | ok r =>
      obtain ⟨ip', fs'⟩ := r
      obtain ⟨-, refSame, unloaded, released⟩ := ret.of_ok ran
      have done : step s (.iput k) =
          .ok ⟨fs', s.itable.set k { ip' with ref := ip'.ref - 1 }, Function.update s.held k (s.held k - 1)⟩ := by
        simp only [step, live, ↓reduceIte, iput, ran]
        rfl
      rw [done]
      dsimp only at refSame unloaded
      refine ⟨released.stored, released.used, ?_, ?_, released.others⟩
      · simp [refSame, last]
      · simp [unloaded]

set_option maxRecDepth 20000 in
theorem iput_frees_unlinked_file :
    Formed (blankFs blankLog) ∧ Reachable (blankFs blankLog) fileSys ∧
      (fileSys.itable.inode slot0).ref = 1 ∧ (fileSys.itable.inode slot0).valid = true ∧
      (fileSys.itable.inode slot0).din.nlink = 0 ∧
      match step fileSys (.iput slot0) with
      | .ok s' =>
          s'.fs.dinode (fileSys.itable.inode slot0).inum =
            { (fileSys.itable.inode slot0).din with type := 0, size := 0, addrs := Vector.replicate (nDirect + 1) 0 } ∧
          (∀ c < fileSys.fs.sb.size, s'.fs.used c = true ↔
            fileSys.fs.used c = true ∧ ∀ sl, ¬ RefAt fileSys.fs.blocks (fileSys.itable.inode slot0).din sl c) ∧
          (s'.itable.inode slot0).ref = 0 ∧ (s'.itable.inode slot0).valid = false ∧
          ∀ i < fileSys.fs.sb.ninodes, i ≠ (fileSys.itable.inode slot0).inum →
            s'.fs.dinode i = fileSys.fs.dinode i ∧ AgreeOn fileSys.fs.blocks s'.fs.blocks (fileSys.fs.dinode i)
      | .error msg => LogPanic msg :=
  ⟨blankFs_formed, fileSys_reached, fileSys_entry.1, fileSys_entry.2.1, fileSys_entry.2.2,
    iput_frees_unlinked blankFs_formed fileSys_reached slot0 fileSys_entry.1 fileSys_entry.2.1 fileSys_entry.2.2⟩

/-- From any reachable state, `ialloc(type)` panics only in `log_write` or
with every table entry referenced. When it returns an entry, the entry is
referenced and names an inode number below `sb.ninodes` that was free on disk
and now holds the zeroed dinode of `type`; no other inode changed; and the entry
is not loaded, so the next `ilock` reads the new inode and not a stale copy of
the one that was freed. When it returns none, every inode from `1` on was
allocated, and nothing changed. -/
theorem ialloc_takes_free_inode (formed : Formed fs) (reached : Reachable fs s) (type : Int16) :
    match ialloc s.fs s.itable type with
    | .ok (some k, t, fs') =>
        0 < (t.inode k).inum ∧ (t.inode k).inum < s.fs.sb.ninodes ∧ (s.fs.dinode (t.inode k).inum).type = 0 ∧
        fs'.dinode (t.inode k).inum = { Dinode.zero with type } ∧
        (∀ i < s.fs.sb.ninodes, i ≠ (t.inode k).inum → fs'.dinode i = s.fs.dinode i) ∧
        0 < (t.inode k).ref ∧ (t.inode k).valid = false
    | .ok (none, t, fs') =>
        t = s.itable ∧ fs' = s.fs ∧ ∀ i, 0 < i → i < s.fs.sb.ninodes → (s.fs.dinode i).type ≠ 0
    | .error msg => LogPanic msg ∨ (msg = "iget: no inodes" ∧ ∀ k, 0 < (s.itable.inode k).ref) := by
  have inv := Reachable.inv formed reached
  have looped := iallocLoop_returns s.fs type (List.range' 1 (s.fs.sb.ninodes - 1))
  cases ran : iallocLoop s.fs type (List.range' 1 (s.fs.sb.ninodes - 1)) with
  | error msg =>
      have failed : ialloc s.fs s.itable type = .error msg := by
        simp only [ialloc, ran]
        rfl
      rw [failed]
      exact .inl (looped.of_error ran)
  | ok r =>
      obtain ⟨found, fs1⟩ := r
      rcases looped.of_ok ran with ⟨none1, same, allTaken⟩ | ⟨inum, member, some1, free, w⟩
      · -- no inode is free
        dsimp only at none1 same allTaken
        subst none1 same
        have done : ialloc s.fs s.itable type = .ok (none, s.itable, s.fs) := by
          simp only [ialloc, ran, Machine.ok_bind]
          rfl
        rw [done]
        refine ⟨rfl, rfl, fun i pos inode => allTaken i (List.mem_range'_1.mpr ⟨pos, by omega⟩)⟩
      · dsimp only at some1 w
        subst some1
        have bounds := List.mem_range'_1.mp member
        have inode : inum < s.fs.sb.ninodes := by omega
        obtain ⟨self, -, -, others1⟩ := Sound.store_empty inv.formed.sound inv.formed.laid inode w
          (Dinode.emptied_fits { Dinode.zero with type }) (fun a => by simp [Dinode.addr, Dinode.zero])
        -- a loaded entry holds an allocated inode, so not the one that was free
        have unloaded : ∀ j, 0 < (s.itable.inode j).ref → (s.itable.inode j).valid → (s.itable.inode j).inum ≠ inum :=
          fun j live loaded named => by
            rw [inv.refs] at live
            exact inv.typed j live loaded (by rw [inv.synced j live loaded, named]; exact free)
        have got := iget_returns s.itable inum
        cases picked : iget s.itable inum with
        | error msg =>
            have failed : ialloc s.fs s.itable type = .error msg := by
              simp only [ialloc, ran, picked, Machine.ok_bind]
              rfl
            rw [failed]
            exact .inr (got.of_error picked)
        | ok r =>
            obtain ⟨k, t⟩ := r
            have done : ialloc s.fs s.itable type = .ok (some k, t, fs1) := by
              simp only [ialloc, ran, picked, Machine.ok_bind]
              rfl
            rw [done]
            have result := got.of_ok picked
            dsimp only at result
            have diskSide : ∀ i < s.fs.sb.ninodes, i ≠ inum → fs1.dinode i = s.fs.dinode i :=
              fun i inodeI other => (others1 i inodeI other).1
            rcases result with ⟨inUse, named, rfl⟩ | ⟨-, -, rfl⟩
            · -- the entry was in use for the free inode, and so not loaded
              dsimp only
              rw [Itable.set_self]
              dsimp only
              rw [named]
              refine ⟨bounds.1, inode, free, self, diskSide, by omega, ?_⟩
              cases loaded : (s.itable.inode k).valid with
              | false => rfl
              | true => exact absurd named (unloaded k inUse loaded)
            · dsimp only
              rw [Itable.set_self]
              exact ⟨bounds.1, inode, free, self, diskSide, Nat.one_pos, rfl⟩

set_option maxRecDepth 20000 in
theorem ialloc_takes_free_inode_file :
    Formed (blankFs blankLog) ∧ Reachable (blankFs blankLog) fileSys ∧
      match ialloc fileSys.fs fileSys.itable tDir with
      | .ok (some k, t, fs') =>
          0 < (t.inode k).inum ∧ (t.inode k).inum < fileSys.fs.sb.ninodes ∧
          (fileSys.fs.dinode (t.inode k).inum).type = 0 ∧
          fs'.dinode (t.inode k).inum = { Dinode.zero with type := tDir } ∧
          (∀ i < fileSys.fs.sb.ninodes, i ≠ (t.inode k).inum → fs'.dinode i = fileSys.fs.dinode i) ∧
          0 < (t.inode k).ref ∧ (t.inode k).valid = false
      | .ok (none, t, fs') =>
          t = fileSys.itable ∧ fs' = fileSys.fs ∧
            ∀ i, 0 < i → i < fileSys.fs.sb.ninodes → (fileSys.fs.dinode i).type ≠ 0
      | .error msg => LogPanic msg ∨ (msg = "iget: no inodes" ∧ ∀ k, 0 < (fileSys.itable.inode k).ref) :=
  ⟨blankFs_formed, fileSys_reached, ialloc_takes_free_inode blankFs_formed fileSys_reached tDir⟩

end Results

end Xv6.Fs
