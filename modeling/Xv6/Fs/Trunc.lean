import Mathlib
import Xv6.Library.Returns
import Xv6.Fs.Write

/-!
`itrunc` against the block-ownership invariant `Sound`. `bfree` of a block
marked in use clears that one bit of the bitmap, and then panics only in
`log_write`. On a `Sound` disk the blocks a file references are marked and
pairwise distinct, so the passes of `itrunc` over the direct blocks, over the
entries of the indirect block and over the indirect block itself free each of
them once: `itrunc` never panics with `freeing free block`, frees exactly the
blocks of the file, and leaves a `Sound` disk whose inode references nothing.
-/

namespace Xv6.Fs

open Bytes Machine

/-- The panics of `log_write`; a block write raises no other. -/
def LogPanic (msg : String) : Prop :=
  msg = "too big a transaction" ∨ msg = "log_write outside of trans"

/-- The blocks inode `d` references at the slots `done`. -/
def Refs (disk : Disk) (d : Dinode) (done : Slot → Prop) (c : Nat) : Prop :=
  ∃ s, done s ∧ RefAt disk d s c

/-- The data slots below `n`. -/
def Slot.Below (n : Nat) : Slot → Prop
  | .data bn => bn < n
  | .indirect => False

/-- `d` with its addresses below `k` zeroed. -/
def Dinode.zeroBelow (d : Dinode) (k : Nat) : Dinode :=
  { d with addrs := Vector.ofFn fun a => if a.val < k then 0 else d.addrs[a] }

/-- `fs'` is `fs` with the bits of the blocks `freed` cleared: only bitmap
blocks differ, and in them only those bits. -/
structure Freed (fs fs' : State) (freed : Nat → Prop) : Prop where
  sb : fs'.sb = fs.sb
  frame : ∀ c, (c < fs.sb.bmapstart ∨ fs.sb.dataStart ≤ c) → fs'.blocks c = fs.blocks c
  used : ∀ c < fs.sb.size, fs'.used c = true ↔ fs.used c = true ∧ ¬ freed c

/-- `itrunc` after its passes over the first `k` addresses of `ip`: those are
zeroed, and the blocks `ip` referenced at the slots `done` are freed. -/
structure Cleared (fs : State) (ip : Inode) (k : Nat) (done : Slot → Prop) (ip1 : Inode) (fs1 : State) :
    Prop where
  inode : ip1 = { ip with din := ip.din.zeroBelow k }
  freed : Freed fs fs1 (Refs fs.blocks ip.din done)

section Slots

variable {disk : Disk} {d : Dinode}

theorem Slot.below_succ (n : Nat) (s : Slot) : Slot.Below (n + 1) s ↔ Slot.Below n s ∨ s = .data n := by
  cases s with
  | data bn =>
      simp only [Slot.Below, Slot.data.injEq]
      omega
  | indirect => simp [Slot.Below]

theorem refAt_data {bn : Nat} (inFile : bn < maxFile) (c : Nat) :
    RefAt disk d (.data bn) c ↔ c ≠ 0 ∧ blockAt disk d bn = c := by
  simp only [RefAt, Slot.Valid, slotBlock, inFile, true_and]

/-- Every slot an inode can reference is a data slot below `MAXFILE` or its indirect block. -/
theorem refs_all (c : Nat) :
    Refs disk d (fun s => Slot.Below maxFile s ∨ s = .indirect) c ↔ Refs disk d (fun _ => True) c := by
  constructor
  · rintro ⟨s, -, ref⟩
    exact ⟨s, trivial, ref⟩
  · rintro ⟨s, -, ref⟩
    refine ⟨s, ?_, ref⟩
    cases s with
    | data bn => exact .inl ref.1
    | indirect => exact .inr rfl

theorem refs_of_absent (absent : d.addr nDirect = 0) (c : Nat) :
    Refs disk d (Slot.Below nDirect) c ↔ Refs disk d (fun _ => True) c := by
  constructor
  · rintro ⟨s, -, ref⟩
    exact ⟨s, trivial, ref⟩
  · rintro ⟨s, -, ref⟩
    refine ⟨s, ?_, ref⟩
    have named := ref.2.2
    cases s with
    | data bn =>
        by_contra late
        simp only [Slot.Below] at late
        simp only [slotBlock, blockAt, late, absent, ↓reduceIte] at named
        exact ref.2.1 named.symm
    | indirect => exact ref.2.1 (named.symm.trans absent)

theorem refs_skip {done : Slot → Prop} {s : Slot} (empty : ∀ c, ¬ RefAt disk d s c) (c : Nat) :
    Refs disk d done c ↔ Refs disk d (fun t => done t ∨ t = s) c := by
  constructor
  · rintro ⟨t, doneT, ref⟩
    exact ⟨t, .inl doneT, ref⟩
  · rintro ⟨t, doneT | rfl, ref⟩
    · exact ⟨t, doneT, ref⟩
    · exact absurd ref (empty c)

theorem refs_add {done : Slot → Prop} {s : Slot} {x : Nat} (ref : RefAt disk d s x) (c : Nat) :
    (Refs disk d done c ∨ c = x) ↔ Refs disk d (fun t => done t ∨ t = s) c := by
  constructor
  · rintro (⟨t, doneT, refT⟩ | rfl)
    · exact ⟨t, .inl doneT, refT⟩
    · exact ⟨s, .inr rfl, ref⟩
  · rintro ⟨t, doneT | rfl, refT⟩
    · exact .inl ⟨t, doneT, refT⟩
    · exact .inr (refT.2.2.symm.trans ref.2.2)

@[simp] theorem Dinode.addr_zeroBelow (d : Dinode) (k a : Nat) :
    (d.zeroBelow k).addr a = if a < k then 0 else d.addr a := by
  unfold Dinode.addr Dinode.zeroBelow
  split <;> simp_all

theorem Dinode.zeroBelow_zero (d : Dinode) : d.zeroBelow 0 = d := by
  unfold Dinode.zeroBelow
  congr
  ext a below
  simp

theorem Dinode.zeroBelow_setAddr (d : Dinode) {k : Nat} (inside : k < nDirect + 1) :
    (d.zeroBelow k).setAddr k 0 = d.zeroBelow (k + 1) := by
  unfold Dinode.setAddr Dinode.zeroBelow
  rw [dif_pos inside]
  congr 1
  ext a below
  simp only [Vector.getElem_set, Vector.getElem_ofFn]
  split_ifs <;> omega

theorem Dinode.zeroBelow_succ (d : Dinode) {k : Nat} (zero : d.addr k = 0) :
    d.zeroBelow k = d.zeroBelow (k + 1) := by
  unfold Dinode.zeroBelow
  congr 1
  ext a below
  simp only [Vector.getElem_ofFn]
  by_cases hit : a = k
  · subst hit
    simp only [Dinode.addr, dif_pos below] at zero
    simp [zero]
  · split_ifs <;> first | rfl | omega

theorem Dinode.zeroBelow_all (d : Dinode) :
    d.zeroBelow (nDirect + 1) = { d with addrs := Vector.replicate (nDirect + 1) 0 } := by
  unfold Dinode.zeroBelow
  refine congrArg (fun addrs => { d with addrs }) ?_
  ext a below
  simp only [Vector.getElem_ofFn, Vector.getElem_replicate, below, ↓reduceIte]

end Slots

section Bfree

variable {fs fs' fs1 : State} {x : Nat} {F : Nat → Prop}

theorem logWrite_returns (log : Logging.Log) (b : Nat) :
    Returns (Logging.logWrite log b) (fun _ => True) LogPanic := by
  unfold Logging.logWrite
  split
  · exact .inl rfl
  · split
    · exact .inr rfl
    · dsimp only
      split <;> trivial

theorem State.write_returns (fs : State) (b : Nat) (data : Mem) :
    Returns (fs.write b data) (fun fs' => Wrote fs fs' b data) LogPanic :=
  (logWrite_returns fs.log b).bind fun _ _ => returns_pure ⟨rfl, rfl⟩

theorem bfree_returns (inUse : fs.used x = true) :
    Returns (bfree fs x)
      (fun fs' => Wrote fs fs' (bblock fs.sb x) (clearBit (fs.blocks (bblock fs.sb x)) (x % bpb))) LogPanic := by
  have marked : isFree (fs.blocks (bblock fs.sb x)) (x % bpb) = false := (isFree_eq_false_iff _ _).mpr inUse
  simp only [bfree, marked, Bool.false_eq_true, ↓reduceIte]
  exact State.write_returns _ _ _

theorem Freed.refl (fs : State) : Freed fs fs fun _ => False :=
  ⟨rfl, fun _ _ => rfl, fun c _ => by simp⟩

theorem Freed.congr {G : Nat → Prop} (freed : Freed fs fs' F) (same : ∀ c, F c ↔ G c) : Freed fs fs' G :=
  ⟨freed.sb, freed.frame, fun c inside => by rw [freed.used c inside, same]⟩

theorem Freed.dinode (freed : Freed fs fs' F) (laid : fs.sb.Laid) {i : Nat} (inode : i < fs.sb.ninodes) :
    fs'.dinode i = fs.dinode i := by
  unfold State.dinode
  rw [freed.sb, freed.frame _ (.inl (laid.iblock_lt inode))]

theorem Freed.free (freed : Freed fs fs1 F) (inside : x < fs.sb.size) (inUse : fs.used x = true) (fresh : ¬ F x) :
    Returns (bfree fs1 x) (fun fs2 => Freed fs fs2 fun c => F c ∨ c = x) LogPanic := by
  have inUse1 : fs1.used x = true := (freed.used x inside).mpr ⟨inUse, fresh⟩
  refine (bfree_returns inUse1).mono (fun fs2 w => ?_) fun _ panic => panic
  have sb1 := freed.sb
  -- the bitmap block of `x` lies between the inodes and the data
  have bitmap := bblock_lt_dataStart inside
  have start := bmapstart_le_bblock fs.sb x
  refine ⟨w.sb.trans sb1, fun c outside => ?_, fun c within => ?_⟩
  · rw [w.apply_of_ne (by rw [sb1]; omega), freed.frame c outside]
  · rw [w.used_clearBit, Bool.and_eq_true, freed.used c within]
    simp only [Bool.not_eq_eq_eq_not, Bool.not_true, decide_eq_false_iff_not, not_or]
    tauto

end Bfree

section Passes

variable {fs fs1 : State} {ip ip1 : Inode} {done : Slot → Prop}

theorem Freed.bfree_slot (sound : Sound fs (fs.viewWith ip)) (inode : ip.inum < fs.sb.ninodes)
    (freed : Freed fs fs1 (Refs fs.blocks ip.din done)) {s : Slot} {x : Nat}
    (ref : RefAt fs.blocks ip.din s x) (todo : ¬ done s) :
    Returns (bfree fs1 x) (fun fs2 => Freed fs fs2 (Refs fs.blocks ip.din fun t => done t ∨ t = s))
      LogPanic := by
  have own : ∀ {t c}, RefAt fs.blocks ip.din t c → RefAt fs.blocks (fs.viewWith ip ip.inum) t c :=
    fun refT => by rw [State.viewWith_self]; exact refT
  obtain ⟨-, inside, inUse⟩ := sound.owned _ inode _ _ (own ref)
  -- one block is referenced at one slot only, so `x` was not freed before
  have fresh : ¬ Refs fs.blocks ip.din done x := by
    rintro ⟨t, doneT, refT⟩
    obtain ⟨-, same⟩ := sound.unique _ inode _ inode _ _ _ (own refT) (own ref)
    exact todo (same ▸ doneT)
  exact (freed.free inside inUse fresh).mono (fun fs2 freed2 => freed2.congr (refs_add ref))
    fun _ panic => panic

theorem Cleared.direct_pass (sound : Sound fs (fs.viewWith ip)) (inode : ip.inum < fs.sb.ninodes) {i : Nat}
    (cleared : Cleared fs ip i (Slot.Below i) ip1 fs1) (direct : i < nDirect) :
    Returns (freeDirect (ip1, fs1) i) (fun acc => Cleared fs ip (i + 1) (Slot.Below (i + 1)) acc.1 acc.2)
      LogPanic := by
  have inFile : i < maxFile := by simp only [maxFile]; omega
  have named : ip1.din.addr i = blockAt fs.blocks ip.din i := by
    rw [cleared.inode, blockAt_of_direct _ _ direct]
    simp
  have next : ∀ c, Refs fs.blocks ip.din (fun t => Slot.Below i t ∨ t = .data i) c ↔
      Refs fs.blocks ip.din (Slot.Below (i + 1)) c := fun c => by
    simp only [Refs, Slot.below_succ]
  unfold Fs.freeDirect
  by_cases absent : ip1.din.addr i = 0
  · -- nothing at address `i`: the pass changes nothing
    rw [if_neg (not_not.mpr absent)]
    have zero : ip.din.addr i = 0 := by rw [named, blockAt_of_direct _ _ direct] at absent; exact absent
    refine ⟨by rw [cleared.inode, Dinode.zeroBelow_succ _ zero], cleared.freed.congr fun c => ?_⟩
    rw [refs_skip fun c ref => ref.2.1 ?_, next]
    rw [← (refAt_data inFile c).mp ref |>.2, ← named, absent]
  · rw [if_pos absent]
    have ref : RefAt fs.blocks ip.din (.data i) (ip1.din.addr i) := by
      rw [refAt_data inFile, named]
      exact ⟨by rw [← named]; exact absent, rfl⟩
    refine (cleared.freed.bfree_slot sound inode ref (by simp [Slot.Below])).bind fun fs2 freed2 => ?_
    refine returns_pure ⟨?_, freed2.congr next⟩
    rw [cleared.inode]
    simp only [Dinode.zeroBelow_setAddr _ (show i < nDirect + 1 by omega)]

theorem itrunc_direct (sound : Sound fs (fs.viewWith ip)) (inode : ip.inum < fs.sb.ninodes) :
    Returns ((List.range nDirect).foldlM freeDirect (ip, fs))
      (fun acc => Cleared fs ip nDirect (Slot.Below nDirect) acc.1 acc.2) LogPanic := by
  refine Returns.foldlM_range (I := fun i (acc : Inode × State) => Cleared fs ip i (Slot.Below i) acc.1 acc.2) nDirect
    (fun i direct acc cleared => cleared.direct_pass sound inode direct) ⟨?_, ?_⟩
  · rw [Dinode.zeroBelow_zero]
  · refine (Freed.refl fs).congr fun c => ⟨False.elim, ?_⟩
    rintro ⟨s, below, -⟩
    cases s <;> simp [Slot.Below] at below

theorem Freed.entry_pass (sound : Sound fs (fs.viewWith ip)) (inode : ip.inum < fs.sb.ninodes) {j : Nat}
    (freed : Freed fs fs1 (Refs fs.blocks ip.din (Slot.Below (nDirect + j))))
    (present : ip.din.addr nDirect ≠ 0) (entry : j < nIndirect) :
    Returns (freeEntry (ip.din.addr nDirect) fs1 j)
      (fun fs2 => Freed fs fs2 (Refs fs.blocks ip.din (Slot.Below (nDirect + (j + 1))))) LogPanic := by
  have inFile : nDirect + j < maxFile := by simp only [maxFile]; omega
  -- the indirect block is a data block, which freeing leaves as it was
  have indirect : RefAt fs.blocks (fs.viewWith ip ip.inum) .indirect (ip.din.addr nDirect) := by
    rw [State.viewWith_self]
    exact ⟨trivial, present, rfl⟩
  have data := (sound.owned _ inode _ _ indirect).1
  have named : readLE (fs1.blocks (ip.din.addr nDirect)) (4 * j) 4 = blockAt fs.blocks ip.din (nDirect + j) := by
    rw [freed.frame _ (.inr data)]
    simp [blockAt, present]
  have next : ∀ c, Refs fs.blocks ip.din (fun t => Slot.Below (nDirect + j) t ∨ t = .data (nDirect + j)) c ↔
      Refs fs.blocks ip.din (Slot.Below (nDirect + (j + 1))) c := fun c => by
    simp only [Refs, ← Nat.add_assoc, Slot.below_succ]
  unfold Fs.freeEntry
  rw [named]
  by_cases absent : blockAt fs.blocks ip.din (nDirect + j) = 0
  · rw [if_neg (not_not.mpr absent)]
    refine freed.congr fun c => ?_
    rw [refs_skip fun c ref => ref.2.1 ?_, next]
    rw [← ((refAt_data inFile c).mp ref).2, absent]
  · rw [if_pos absent]
    have ref : RefAt fs.blocks ip.din (.data (nDirect + j)) (blockAt fs.blocks ip.din (nDirect + j)) :=
      (refAt_data inFile _).mpr ⟨absent, rfl⟩
    exact (freed.bfree_slot sound inode ref (by simp [Slot.Below])).mono
      (fun fs2 freed2 => freed2.congr next) fun _ panic => panic

theorem itrunc_indirect (sound : Sound fs (fs.viewWith ip)) (inode : ip.inum < fs.sb.ninodes)
    (cleared : Cleared fs ip nDirect (Slot.Below nDirect) ip1 fs1) :
    Returns (freeIndirect ip1 fs1) (fun acc => Cleared fs ip (nDirect + 1) (fun _ => True) acc.1 acc.2) LogPanic := by
  have same : ip1.din.addr nDirect = ip.din.addr nDirect := by rw [cleared.inode]; simp
  unfold Fs.freeIndirect
  rw [same]
  by_cases absent : ip.din.addr nDirect = 0
  · rw [if_neg (not_not.mpr absent)]
    refine returns_pure ⟨?_, cleared.freed.congr (refs_of_absent absent)⟩
    rw [cleared.inode, Dinode.zeroBelow_succ _ absent]
  · rw [if_pos absent]
    have entries := Returns.foldlM_range
      (I := fun j fs2 => Freed fs fs2 (Refs fs.blocks ip.din (Slot.Below (nDirect + j)))) nIndirect
      (fun j entry fs2 freed => freed.entry_pass sound inode absent entry) cleared.freed
    refine entries.bind fun fs2 freed2 => ?_
    have ref : RefAt fs.blocks ip.din .indirect (ip.din.addr nDirect) := ⟨trivial, absent, rfl⟩
    refine (freed2.bfree_slot sound inode ref (by simp [Slot.Below])).bind fun fs3 freed3 => ?_
    refine returns_pure ⟨?_, freed3.congr (refs_all (d := ip.din))⟩
    rw [cleared.inode]
    simp only [Dinode.zeroBelow_setAddr _ (show nDirect < nDirect + 1 by omega)]

end Passes

section Release

variable {fs fs' : State} {ip : Inode} {view' : Nat → Dinode}

theorem refAt_viewWith {disk : Disk} {i : Nat} (other : i ≠ ip.inum) (s : Slot) (c : Nat) :
    RefAt disk (fs.viewWith ip i) s c ↔ RefAt disk (fs.dinode i) s c := by
  rw [State.viewWith_of_ne _ _ other]

theorem Sound.release (sound : Sound fs (fs.viewWith ip)) (laid : fs.sb.Laid) (inode : ip.inum < fs.sb.ninodes)
    (sb : fs'.sb = fs.sb)
    (used : ∀ c < fs.sb.size, fs'.used c = true ↔ fs.used c = true ∧ ∀ s, ¬ RefAt fs.blocks ip.din s c)
    (refs : ∀ i < fs.sb.ninodes, ∀ s c, RefAt fs'.blocks (view' i) s c →
      i ≠ ip.inum ∧ RefAt fs.blocks (fs.dinode i) s c) :
    Sound fs' view' := by
  have mine : ∀ {t c}, RefAt fs.blocks ip.din t c → RefAt fs.blocks (fs.viewWith ip ip.inum) t c :=
    fun ref => by rw [State.viewWith_self]; exact ref
  -- a block another inode references is not one of `ip`'s, so it stays marked
  have notMine : ∀ {i}, i < fs.sb.ninodes → i ≠ ip.inum → ∀ {s c}, RefAt fs.blocks (fs.dinode i) s c →
      ∀ t, ¬ RefAt fs.blocks ip.din t c := fun {i} inodeI other {s c} ref t ref' =>
    other (sound.unique _ inodeI _ inode _ _ _ ((refAt_viewWith other _ _).mpr ref) (mine ref')).1
  refine ⟨fun i inodeI s c ref => ?_, fun i inodeI j inodeJ s t c ref ref' => ?_, fun c early => ?_⟩
  · rw [sb] at inodeI ⊢
    obtain ⟨other, old⟩ := refs i inodeI s c ref
    obtain ⟨data, inside, inUse⟩ := sound.owned i inodeI s c ((refAt_viewWith other _ _).mpr old)
    exact ⟨data, inside, (used c inside).mpr ⟨inUse, notMine inodeI other old⟩⟩
  · rw [sb] at inodeI inodeJ
    obtain ⟨otherI, oldI⟩ := refs i inodeI s c ref
    obtain ⟨otherJ, oldJ⟩ := refs j inodeJ t c ref'
    exact sound.unique i inodeI j inodeJ s t c ((refAt_viewWith otherI _ _).mpr oldI)
      ((refAt_viewWith otherJ _ _).mpr oldJ)
  · rw [sb] at early
    have inside : c < fs.sb.size := lt_of_lt_of_le early laid.data
    refine (used c inside).mpr ⟨sound.reserved c early, fun t ref => ?_⟩
    have := (sound.owned _ inode t c (mine ref)).1
    omega

theorem itrunc_returns (sound : Sound fs (fs.viewWith ip)) (inode : ip.inum < fs.sb.ninodes) :
    Returns (itrunc fs ip)
      (fun r => r.1 = { ip with din := { ip.din.zeroBelow (nDirect + 1) with size := 0 } } ∧
        ∃ fs2, Freed fs fs2 (Refs fs.blocks ip.din fun _ => True) ∧ iupdate fs2 r.1 = .ok r.2) LogPanic := by
  unfold itrunc
  refine (itrunc_direct sound inode).bind fun acc cleared => ?_
  obtain ⟨ip1, fs1⟩ := acc
  refine (itrunc_indirect sound inode cleared).bind fun acc cleared2 => ?_
  obtain ⟨ip2, fs2⟩ := acc
  refine (State.write_returns fs2 _ _).self.bind fun fs3 stored => returns_pure ⟨?_, fs2, cleared2.freed, stored.1⟩
  have shape : ip2 = { ip with din := ip.din.zeroBelow (nDirect + 1) } := cleared2.inode
  subst shape
  rfl

end Release

section Truncate

variable {fs : State} {ip : Inode}

theorem Dinode.emptied_fits (d : Dinode) :
    ({ d with size := 0, addrs := Vector.replicate (nDirect + 1) 0 } : Dinode).Fits :=
  ⟨by simp, fun i below => by simp [Dinode.addr, below]⟩

/-- What `itrunc` leaves: the inode emptied and stored, the bits of exactly
its blocks cleared, the disk sound, and every other inode and its blocks as
they were. -/
structure Truncated (fs : State) (ip ip' : Inode) (fs' : State) : Prop where
  inode : ip' = { ip with din := { ip.din with size := 0, addrs := Vector.replicate (nDirect + 1) 0 } }
  stored : fs'.dinode ip.inum = ip'.din
  used : ∀ c < fs.sb.size, fs'.used c = true ↔ fs.used c = true ∧ ∀ s, ¬ RefAt fs.blocks ip.din s c
  sound : Sound fs' fs'.dinode
  others : ∀ i < fs.sb.ninodes, i ≠ ip.inum → fs'.dinode i = fs.dinode i ∧ AgreeOn fs.blocks fs'.blocks (fs.dinode i)
  sb : fs'.sb = fs.sb

theorem itrunc_spec (laid : fs.sb.Laid) (sound : Sound fs (fs.viewWith ip)) (inode : ip.inum < fs.sb.ninodes) :
    Returns (itrunc fs ip) (fun r => Truncated fs ip r.1 r.2) LogPanic := by
  refine (itrunc_returns sound inode).mono (fun r truncated => ?_) fun _ panics => panics
  obtain ⟨ip', fs'⟩ := r
  obtain ⟨shape, fs2, freed, stored⟩ := truncated
  dsimp only at shape stored ⊢
  have emptied : ip' = { ip with din := { ip.din with size := 0, addrs := Vector.replicate (nDirect + 1) 0 } } := by
    rw [shape, Dinode.zeroBelow_all]
  have inum : ip'.inum = ip.inum := by rw [emptied]
  have w := iupdate_wrote stored
  have sb2 := freed.sb
  rw [sb2] at w
  -- `iupdate` writes an inode block, below the bitmap and the data
  have early : iblock fs.sb ip'.inum < fs.sb.bmapstart := by rw [inum]; exact laid.iblock_lt inode
  have usedSame : ∀ c, fs'.used c = fs2.used c := fun c =>
    w.used (by have := bmapstart_le_bblock fs.sb c; rw [sb2]; omega)
  have dataSame : ∀ c, fs.sb.dataStart ≤ c → fs'.blocks c = fs.blocks c := fun c data => by
    have := bmapstart_lt_dataStart fs.sb
    rw [w.apply_of_ne (by omega), freed.frame c (.inr data)]
  have used : ∀ c < fs.sb.size, fs'.used c = true ↔ fs.used c = true ∧ ∀ s, ¬ RefAt fs.blocks ip.din s c :=
    fun c inside => by
      rw [usedSame, freed.used c inside]
      simp [Refs]
  have others : ∀ i < fs.sb.ninodes, i ≠ ip.inum →
      fs'.dinode i = fs.dinode i ∧ AgreeOn fs.blocks fs'.blocks (fs.dinode i) := fun i inodeI other => by
    refine ⟨by rw [iupdate_dinode_other stored (by rw [inum]; exact other), freed.dinode laid inodeI],
      fun s c ref => dataSame c ?_⟩
    exact (sound.owned i inodeI s c ((refAt_viewWith other s c).mpr ref)).1
  have self : fs'.dinode ip.inum = ip'.din := by
    rw [← inum]
    exact iupdate_dinode_self stored (by rw [emptied]; exact Dinode.emptied_fits _)
  refine ⟨emptied, self, used, sound.release laid inode (w.sb.trans sb2) used fun i inodeI s c ref => ?_, others,
    w.sb.trans sb2⟩
  by_cases own : i = ip.inum
  · rw [own, self, emptied] at ref
    exact absurd ref (not_refAt_of_addrs (fun a => by simp [Dinode.addr]) s c)
  · obtain ⟨same, agree⟩ := others i inodeI own
    rw [same, refAt_of_agree agree] at ref
    exact ⟨own, ref⟩

/-- `itrunc` on a sound disk panics only in `log_write`. When it returns, the
inode has no address and size `0` and is stored, exactly the blocks the file
referenced are freed in the bitmap, the disk is sound, and every other inode
and its blocks are as they were. -/
theorem itrunc_frees_file_blocks (laid : fs.sb.Laid) (sound : Sound fs (fs.viewWith ip))
    (inode : ip.inum < fs.sb.ninodes) :
    match itrunc fs ip with
    | .ok (ip', fs') =>
        ip' = { ip with din := { ip.din with size := 0, addrs := Vector.replicate (nDirect + 1) 0 } } ∧
        fs'.dinode ip.inum = ip'.din ∧
        (∀ c < fs.sb.size, fs'.used c = true ↔ fs.used c = true ∧ ∀ s, ¬ RefAt fs.blocks ip.din s c) ∧
        Sound fs' fs'.dinode ∧
        ∀ i < fs.sb.ninodes, i ≠ ip.inum →
          fs'.dinode i = fs.dinode i ∧ AgreeOn fs.blocks fs'.blocks (fs.dinode i)
    | .error msg => LogPanic msg := by
  have ret := itrunc_spec laid sound inode
  cases ran : itrunc fs ip with
  | error msg => exact ret.of_error ran
  | ok r =>
    obtain ⟨ip', fs'⟩ := r
    have truncated : Truncated fs ip ip' fs' := ret.of_ok ran
    exact ⟨truncated.inode, truncated.stored, truncated.used, truncated.sound, truncated.others⟩

theorem blankFs_sound_viewWith : Sound (blankFs blankLog) ((blankFs blankLog).viewWith blankIp) := by
  rw [State.viewWith, show blankIp.din = (blankFs blankLog).dinode blankIp.inum from rfl, Function.update_eq_self]
  exact blankFs_sound _

theorem itrunc_frees_file_blocks_blank :
    Mkfs.sb.Laid ∧ Sound (blankFs blankLog) ((blankFs blankLog).viewWith blankIp) ∧
      match itrunc (blankFs blankLog) blankIp with
      | .ok (ip', fs') =>
          ip' = { blankIp with din := { blankIp.din with size := 0, addrs := Vector.replicate (nDirect + 1) 0 } } ∧
          fs'.dinode 1 = ip'.din ∧
          (∀ c < Mkfs.sb.size, fs'.used c = true ↔
            (blankFs blankLog).used c = true ∧ ∀ s, ¬ RefAt (blankFs blankLog).blocks blankIp.din s c) ∧
          Sound fs' fs'.dinode ∧
          ∀ i < Mkfs.sb.ninodes, i ≠ 1 →
            fs'.dinode i = (blankFs blankLog).dinode i ∧
              AgreeOn (blankFs blankLog).blocks fs'.blocks ((blankFs blankLog).dinode i)
      | .error msg => LogPanic msg :=
  ⟨mkfs_sb_laid, blankFs_sound_viewWith,
    itrunc_frees_file_blocks mkfs_sb_laid blankFs_sound_viewWith (by decide)⟩

end Truncate

end Xv6.Fs
