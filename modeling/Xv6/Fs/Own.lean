import Mathlib
import Xv6.Library.Machine
import Xv6.Fs.Inodes

/-!
Who owns each block of the disk. An inode owns the blocks it references
(`RefAt`). The file system is `Sound` when every referenced block is a data
block marked in use in the free bitmap, no block is referenced twice, and every
block before the data is marked, so that `balloc` hands out only blocks nobody
references. Inodes are read through a `view`: all from disk, or with the inode
being changed taken from its in-memory copy (`State.viewWith`), which is the
authoritative one until `iupdate` stores it.

Each way the inode layer writes a block keeps `Sound`: writing a data block
that is nobody's indirect block, setting a bit in the bitmap, and attaching a
fresh block to an empty slot. `balloc` and `bmap` are specified here by what
they change, so that the loops of `writei` never unfold them.
-/

namespace Xv6.Fs

open Bytes Scan

/-- Inode `i` as its block holds it. -/
def State.dinode (fs : State) (i : Nat) : Dinode :=
  Dinode.read (fs.blocks (iblock fs.sb i)) (dinodeOffset i)

/-- The inodes with `ip` read from memory and the others from disk. -/
def State.viewWith (fs : State) (ip : Inode) : Nat → Dinode :=
  Function.update fs.dinode ip.inum ip.din

/-- Block `b`'s bit in the free bitmap. -/
def State.used (fs : State) (b : Nat) : Bool :=
  bit (fs.blocks (bblock fs.sb b)) (b % bpb)

/-- The first block after the bitmap. -/
def Superblock.dataStart (sb : Superblock) : Nat := sb.bmapstart + sb.size / bpb + 1

/-- The layout `mkfs` writes: the inode blocks end before the bitmap, the data
starts inside the disk, and block numbers fit a `uint`. -/
structure Superblock.Laid (sb : Superblock) : Prop where
  inodes : sb.inodestart + sb.ninodes / ipb < sb.bmapstart
  data : sb.dataStart ≤ sb.size
  fits : sb.size < 2 ^ 32

/-- The block-ownership invariant over the inodes `view` describes. -/
structure Sound (fs : State) (view : Nat → Dinode) : Prop where
  owned : ∀ i < fs.sb.ninodes, ∀ s b, RefAt fs.blocks (view i) s b →
    fs.sb.dataStart ≤ b ∧ b < fs.sb.size ∧ fs.used b = true
  unique : ∀ i < fs.sb.ninodes, ∀ j < fs.sb.ninodes, ∀ s t b,
    RefAt fs.blocks (view i) s b → RefAt fs.blocks (view j) t b → i = j ∧ s = t
  reserved : ∀ b < fs.sb.dataStart, fs.used b = true

/-- `fs'` is `fs` with block `b` holding `m`; the log may differ. -/
structure Wrote (fs fs' : State) (b : Nat) (m : Mem) : Prop where
  sb : fs'.sb = fs.sb
  blocks : fs'.blocks = Function.update fs.blocks b m

section Layout

variable {sb : Superblock}

theorem Superblock.Laid.iblock_lt (laid : sb.Laid) {i : Nat} (inode : i < sb.ninodes) :
    iblock sb i < sb.bmapstart := by
  have := Nat.div_le_div_right (c := ipb) inode.le
  have := laid.inodes
  unfold iblock
  omega

theorem Superblock.Laid.bmapstart_pos (laid : sb.Laid) : 0 < sb.bmapstart :=
  Nat.zero_lt_of_lt laid.inodes

theorem bmapstart_le_bblock (sb : Superblock) (b : Nat) : sb.bmapstart ≤ bblock sb b :=
  Nat.le_add_left _ _

theorem bblock_lt_dataStart {b : Nat} (inside : b < sb.size) : bblock sb b < sb.dataStart := by
  have := Nat.div_le_div_right (c := bpb) inside.le
  unfold bblock Superblock.dataStart
  omega

theorem bmapstart_lt_dataStart (sb : Superblock) : sb.bmapstart < sb.dataStart :=
  Nat.lt_succ_of_le (Nat.le_add_right _ _)

/-- Two blocks share a bit of the bitmap only when they are the same block. -/
theorem eq_of_bblock_eq {b c : Nat} (same : bblock sb b = bblock sb c) (bitSame : b % bpb = c % bpb) :
    b = c := by
  unfold bblock at same
  have := Nat.div_add_mod b bpb
  have := Nat.div_add_mod c bpb
  have quot : b / bpb = c / bpb := by omega
  rw [← Nat.div_add_mod b bpb, ← Nat.div_add_mod c bpb, quot, bitSame]

end Layout

section Wrote

variable {fs fs' : State} {b : Nat} {m : Mem}

theorem State.write_wrote {data : Mem} (ran : fs.write b data = .ok fs') : Wrote fs fs' b data := by
  unfold State.write at ran
  cases logged : Logging.logWrite fs.log b with
  | error msg => simp [logged, bind, Except.bind] at ran
  | ok log =>
      simp only [logged, bind, Except.bind, pure, Except.pure, Except.ok.injEq] at ran
      exact ⟨by rw [← ran], by rw [← ran]⟩

theorem Wrote.of_update (fs : State) (b : Nat) (m : Mem) :
    Wrote fs { fs with blocks := Function.update fs.blocks b m } b m := ⟨rfl, rfl⟩

theorem Wrote.apply_of_ne (w : Wrote fs fs' b m) {c : Nat} (other : c ≠ b) : fs'.blocks c = fs.blocks c := by
  rw [w.blocks, Function.update_of_ne other]

theorem Wrote.apply_self (w : Wrote fs fs' b m) : fs'.blocks b = m := by
  rw [w.blocks, Function.update_self]

theorem Wrote.dinode (w : Wrote fs fs' b m) (laid : fs.sb.Laid) (past : fs.sb.bmapstart ≤ b)
    {i : Nat} (inode : i < fs.sb.ninodes) : fs'.dinode i = fs.dinode i := by
  have before := laid.iblock_lt inode
  unfold State.dinode
  rw [w.sb, w.apply_of_ne (by omega)]

theorem Wrote.used (w : Wrote fs fs' b m) {c : Nat} (other : bblock fs.sb c ≠ b) :
    fs'.used c = fs.used c := by
  unfold State.used
  rw [w.sb, w.apply_of_ne other]

theorem Wrote.used_of_data (w : Wrote fs fs' b m) (data : fs.sb.dataStart ≤ b) {c : Nat}
    (inside : c < fs.sb.size) : fs'.used c = fs.used c :=
  w.used (by have := bblock_lt_dataStart inside; omega)

theorem Wrote.refAt (w : Wrote fs fs' b m) {d : Dinode} (notIndirect : d.addr nDirect ≠ b) (s : Slot)
    (c : Nat) : RefAt fs'.blocks d s c ↔ RefAt fs.blocks d s c :=
  refAt_congr (w.apply_of_ne notIndirect) s c

theorem Wrote.used_bitmap {x : Nat} (w : Wrote fs fs' (bblock fs.sb x) m)
    (others : ∀ j, j ≠ x % bpb → bit m j = bit (fs.blocks (bblock fs.sb x)) j) (c : Nat) :
    fs'.used c = if c = x then bit m (x % bpb) else fs.used c := by
  by_cases same : bblock fs.sb c = bblock fs.sb x
  · unfold State.used
    rw [w.sb, same, w.apply_self]
    by_cases hit : c = x
    · rw [if_pos hit, hit]
    · have differ : c % bpb ≠ x % bpb := fun bitSame => hit (eq_of_bblock_eq same bitSame)
      rw [if_neg hit, others _ differ]
  · have differ : c ≠ x := fun hit => same (hit ▸ rfl)
    rw [w.used same, if_neg differ]

theorem Wrote.used_setBit {x : Nat} (w : Wrote fs fs' (bblock fs.sb x) (setBit (fs.blocks (bblock fs.sb x)) (x % bpb)))
    (c : Nat) : fs'.used c = (fs.used c || decide (c = x)) := by
  rw [w.used_bitmap fun j other => by simp [bit_setBit, Ne.symm other]]
  by_cases hit : c = x
  · simp [hit, bit_setBit]
  · simp [hit]

theorem Wrote.used_clearBit {x : Nat}
    (w : Wrote fs fs' (bblock fs.sb x) (clearBit (fs.blocks (bblock fs.sb x)) (x % bpb))) (c : Nat) :
    fs'.used c = (fs.used c && !decide (c = x)) := by
  rw [w.used_bitmap fun j other => by simp [bit_clearBit, Ne.symm other]]
  by_cases hit : c = x
  · simp [hit, bit_clearBit]
  · simp [hit]

end Wrote

section Sound

variable {fs fs' : State} {view view' : Nat → Dinode}

theorem Sound.unreferenced (sound : Sound fs view) {x : Nat} (free : fs.used x = false) :
    ∀ i < fs.sb.ninodes, ∀ s, ¬ RefAt fs.blocks (view i) s x := fun i inode s ref => by
  simp [(sound.owned i inode s x ref).2.2] at free

theorem Sound.data_of_free (sound : Sound fs view) {x : Nat} (free : fs.used x = false) :
    fs.sb.dataStart ≤ x := by
  by_contra before
  simp [sound.reserved x (by omega)] at free

theorem Sound.indirect_ne (sound : Sound fs view) {i : Nat} (inode : i < fs.sb.ninodes) {b : Nat}
    (nonzero : b ≠ 0) (early : b < fs.sb.dataStart) : (view i).addr nDirect ≠ b := by
  intro same
  have := (sound.owned i inode .indirect b ⟨trivial, nonzero, same⟩).1
  omega

theorem Sound.indirect_ne_data (sound : Sound fs view) {k : Nat} (owner : k < fs.sb.ninodes) {bn b : Nat}
    (ref : RefAt fs.blocks (view k) (.data bn) b) {i : Nat} (inode : i < fs.sb.ninodes) :
    (view i).addr nDirect ≠ b := by
  intro same
  have indirect : RefAt fs.blocks (view i) .indirect b := ⟨trivial, ref.2.1, same⟩
  cases (sound.unique k owner i inode _ _ b ref indirect).2

theorem Sound.congr (sound : Sound fs view)
    (same : ∀ i < fs.sb.ninodes, ∀ s c, RefAt fs.blocks (view' i) s c ↔ RefAt fs.blocks (view i) s c) :
    Sound fs view' :=
  ⟨fun i inode s c ref => sound.owned i inode s c ((same i inode s c).mp ref),
    fun i inode j other s t c ref ref' =>
      sound.unique i inode j other s t c ((same i inode s c).mp ref) ((same j other t c).mp ref'),
    sound.reserved⟩

theorem Sound.wrote_data (sound : Sound fs view) (laid : fs.sb.Laid) {b : Nat} {m : Mem}
    (w : Wrote fs fs' b m) (data : fs.sb.dataStart ≤ b)
    (notIndirect : ∀ i < fs.sb.ninodes, (view i).addr nDirect ≠ b) : Sound fs' view := by
  have refs : ∀ i < fs.sb.ninodes, ∀ s c, RefAt fs'.blocks (view i) s c ↔ RefAt fs.blocks (view i) s c :=
    fun i inode => w.refAt (notIndirect i inode)
  refine ⟨fun i inode s c ref => ?_, fun i inode j other s t c ref ref' => ?_, fun c early => ?_⟩
  · rw [w.sb] at inode ⊢
    obtain ⟨lower, upper, used⟩ := sound.owned i inode s c ((refs i inode s c).mp ref)
    exact ⟨lower, upper, by rw [w.used_of_data data upper, used]⟩
  · rw [w.sb] at inode other
    exact sound.unique i inode j other s t c ((refs i inode s c).mp ref) ((refs j other t c).mp ref')
  · rw [w.sb] at early
    have inside := laid.data
    rw [w.used_of_data data (by omega), sound.reserved c early]

theorem refAt_of_absent {disk disk' : Disk} {d : Dinode} (absent : d.addr nDirect = 0) (s : Slot) (c : Nat) :
    RefAt disk d s c ↔ RefAt disk' d s c := by
  cases s with
  | data bn => simp only [RefAt, slotBlock, blockAt, absent, ↓reduceIte]
  | indirect => rfl

theorem not_refAt_of_addrs {disk : Disk} {d : Dinode} (zero : ∀ a, d.addr a = 0) (s : Slot) (c : Nat) :
    ¬ RefAt disk d s c := by
  intro ref
  apply ref.2.1
  rw [← ref.2.2]
  cases s <;> simp [slotBlock, blockAt, zero]

theorem Sound.refAt_of_early (sound : Sound fs view) {b : Nat} {m : Mem} (w : Wrote fs fs' b m)
    (early : b < fs.sb.bmapstart) {i : Nat} (inode : i < fs.sb.ninodes) (s : Slot) (c : Nat) :
    RefAt fs'.blocks (view i) s c ↔ RefAt fs.blocks (view i) s c := by
  by_cases absent : (view i).addr nDirect = 0
  · exact refAt_of_absent absent s c
  · have := (sound.owned i inode .indirect _ ⟨trivial, absent, rfl⟩).1
    have := bmapstart_lt_dataStart fs.sb
    exact w.refAt (by omega) s c

theorem Sound.wrote_early (sound : Sound fs view) {b : Nat} {m : Mem} (w : Wrote fs fs' b m)
    (early : b < fs.sb.bmapstart) : Sound fs' view := by
  have bits : ∀ c, fs'.used c = fs.used c := fun c =>
    w.used (by have := bmapstart_le_bblock fs.sb c; omega)
  have refs : ∀ {i}, i < fs.sb.ninodes → ∀ s c, RefAt fs'.blocks (view i) s c ↔ RefAt fs.blocks (view i) s c :=
    fun inode => sound.refAt_of_early w early inode
  refine ⟨fun i inode s c ref => ?_, fun i inode j other s t c ref ref' => ?_, fun c early' => ?_⟩
  · rw [w.sb] at inode ⊢
    rw [bits]
    exact sound.owned i inode s c ((refs inode s c).mp ref)
  · rw [w.sb] at inode other
    exact sound.unique i inode j other s t c ((refs inode s c).mp ref) ((refs other t c).mp ref')
  · rw [w.sb] at early'
    rw [bits, sound.reserved c early']

end Sound

section Balloc

variable {fs fs' : State} {view : Nat → Dinode}

theorem used_add {b bi : Nat} (aligned : b % bpb = 0) (below : bi < bpb) :
    fs.used (b + bi) = bit (fs.blocks (bblock fs.sb b)) bi := by
  have quot : (b + bi) / bpb = b / bpb := by simp only [bpb, bSize] at *; omega
  have rem : (b + bi) % bpb = bi := by simp only [bpb, bSize] at *; omega
  simp only [State.used, bblock, quot, rem]

theorem isFree_eq_true_iff (bp : Mem) (bi : Nat) : isFree bp bi = true ↔ bit bp bi = false := by
  rw [← Bool.not_eq_false, isFree_eq_false_iff, Bool.not_eq_true]

/-- The outer loop of `balloc` from bitmap block `b` on, past blocks all in use:
it takes the first block whose bit is clear, or returns `0` having changed
nothing when there is none. -/
theorem ballocFrom_spec {b x : Nat} (aligned : b % bpb = 0)
    (skipped : ∀ c < b, c < fs.sb.size → fs.used c = true) (ran : ballocFrom fs b = .ok (x, fs')) :
    (x = 0 ∧ fs' = fs ∧ ∀ c < fs.sb.size, fs.used c = true) ∨
    (x < fs.sb.size ∧ fs.used x = false ∧ ∃ mid,
      Wrote fs mid (bblock fs.sb x) (setBit (fs.blocks (bblock fs.sb x)) (x % bpb)) ∧
      Wrote mid fs' x fun _ => 0) := by
  induction b using ballocFrom.induct fs with
  | case1 b inside bp bi found =>
      obtain ⟨-, below, free, -⟩ := firstFrom_some found
      rw [ballocFrom_found inside found] at ran
      obtain ⟨mid, marked, rest⟩ := Machine.bind_eq_ok ran
      obtain ⟨zeroedFs, zeroed, done⟩ := Machine.bind_eq_ok rest
      cases done
      have small : bi < bpb := by omega
      have sameBlock : bblock fs.sb (b + bi) = bblock fs.sb b := by
        simp only [bblock, bpb, bSize] at *
        omega
      have bitIndex : (b + bi) % bpb = bi := by simp only [bpb, bSize] at *; omega
      refine .inr ⟨by omega, ?_, mid, ?_, State.write_wrote zeroed⟩
      · rw [used_add aligned small]
        exact (isFree_eq_true_iff _ _).mp free
      · rw [sameBlock, bitIndex]
        exact State.write_wrote marked
  | case2 b inside bp missing ih =>
      have none : firstFrom (isFree (fs.blocks (bblock fs.sb b))) (min bpb (fs.sb.size - b)) 0 = none :=
        missing
      rw [ballocFrom, if_pos inside] at ran
      simp only [none] at ran
      refine ih (by simp only [bpb, bSize] at *; omega) (fun c before within => ?_) ran
      by_cases early : c < b
      · exact skipped c early within
      · -- the scan of this bitmap block found every bit set
        have set := firstFrom_none missing (c - b) (Nat.zero_le _) (by omega)
        rw [isFree_eq_false_iff, ← used_add aligned (by omega), Nat.add_sub_cancel' (by omega)] at set
        exact set
  | case3 b beyond =>
      rw [ballocFrom, if_neg beyond] at ran
      cases ran
      exact .inl ⟨rfl, rfl, fun c within => skipped c (by omega) within⟩

/-- `balloc` took block `x`: a data block no inode referenced, now marked in use
and zeroed, with every other block but its bitmap block as it was. -/
structure Took (fs fs' : State) (view : Nat → Dinode) (x : Nat) : Prop where
  sb : fs'.sb = fs.sb
  data : fs.sb.dataStart ≤ x
  inside : x < fs.sb.size
  fresh : ∀ i < fs.sb.ninodes, ∀ s, ¬ RefAt fs.blocks (view i) s x
  used : ∀ c < fs.sb.size, fs'.used c = (fs.used c || decide (c = x))
  zeroed : fs'.blocks x = fun _ => 0
  frame : ∀ c, c ≠ x → c ≠ bblock fs.sb x → fs'.blocks c = fs.blocks c

/-- `balloc` over a sound file system: it takes a fresh data block, or returns
`0` when every block is in use. -/
theorem balloc_took (sound : Sound fs view) {x : Nat} (ran : balloc fs = .ok (x, fs')) :
    (x = 0 ∧ fs' = fs ∧ ∀ c < fs.sb.size, fs.used c = true) ∨ (x ≠ 0 ∧ Took fs fs' view x) := by
  rcases ballocFrom_spec (by decide) (fun c below => absurd below (Nat.not_lt_zero c)) ran with
    full | ⟨inside, free, mid, marked, zeroed⟩
  · exact .inl full
  have data := sound.data_of_free free
  have early := bblock_lt_dataStart inside
  have positive := bmapstart_lt_dataStart fs.sb
  refine .inr ⟨by omega, zeroed.sb.trans marked.sb, data, inside, sound.unreferenced free,
    fun c within => ?_, zeroed.apply_self, fun c other notBitmap => ?_⟩
  · have bitmap := bblock_lt_dataStart within
    rw [zeroed.used (by rw [marked.sb]; omega), marked.used_setBit]
  · rw [zeroed.apply_of_ne other, marked.apply_of_ne notBitmap]

end Balloc

section Took

variable {fs fs' : State} {view : Nat → Dinode} {x : Nat}

theorem Took.apply_of_data (took : Took fs fs' view x) {c : Nat} (data : fs.sb.dataStart ≤ c)
    (other : c ≠ x) : fs'.blocks c = fs.blocks c :=
  took.frame c other (by have := bblock_lt_dataStart took.inside; omega)

theorem Took.dinode (took : Took fs fs' view x) (laid : fs.sb.Laid) {i : Nat} (inode : i < fs.sb.ninodes) :
    fs'.dinode i = fs.dinode i := by
  have := laid.iblock_lt inode
  have := bmapstart_le_bblock fs.sb x
  have := bmapstart_lt_dataStart fs.sb
  have := took.data
  unfold State.dinode
  rw [took.sb, took.frame _ (by omega) (by omega)]

theorem Took.kept (took : Took fs fs' view x) (sound : Sound fs view) {i : Nat} (inode : i < fs.sb.ninodes)
    {s : Slot} {c : Nat} (ref : RefAt fs.blocks (view i) s c) : fs'.blocks c = fs.blocks c :=
  took.apply_of_data (sound.owned i inode s c ref).1 fun same => took.fresh i inode s (same ▸ ref)

theorem Took.indirect_same (took : Took fs fs' view x) (sound : Sound fs view) (laid : fs.sb.Laid) {i : Nat}
    (inode : i < fs.sb.ninodes) : fs'.blocks ((view i).addr nDirect) = fs.blocks ((view i).addr nDirect) := by
  by_cases absent : (view i).addr nDirect = 0
  · have := laid.bmapstart_pos
    have := bmapstart_le_bblock fs.sb x
    have := took.data
    have := bmapstart_lt_dataStart fs.sb
    rw [absent]
    exact took.frame 0 (by omega) (by omega)
  · exact took.kept sound inode (s := .indirect) ⟨trivial, absent, rfl⟩

theorem Took.refAt (took : Took fs fs' view x) (sound : Sound fs view) (laid : fs.sb.Laid) {i : Nat}
    (inode : i < fs.sb.ninodes) (s : Slot) (c : Nat) : RefAt fs'.blocks (view i) s c ↔ RefAt fs.blocks (view i) s c :=
  refAt_congr (took.indirect_same sound laid inode) s c

theorem Took.sound (took : Took fs fs' view x) (sound : Sound fs view) (laid : fs.sb.Laid) : Sound fs' view := by
  have refs : ∀ {i}, i < fs.sb.ninodes → ∀ s c, RefAt fs'.blocks (view i) s c ↔ RefAt fs.blocks (view i) s c :=
    fun inode => took.refAt sound laid inode
  refine ⟨fun i inode s c ref => ?_, fun i inode j other s t c ref ref' => ?_, fun c early => ?_⟩
  · rw [took.sb] at inode ⊢
    obtain ⟨lower, upper, used⟩ := sound.owned i inode s c ((refs inode s c).mp ref)
    exact ⟨lower, upper, by rw [took.used c upper, used, Bool.true_or]⟩
  · rw [took.sb] at inode other
    exact sound.unique i inode j other s t c ((refs inode s c).mp ref) ((refs other t c).mp ref')
  · rw [took.sb] at early
    have := laid.data
    rw [took.used c (by omega), sound.reserved c early, Bool.true_or]

theorem Took.fresh' (took : Took fs fs' view x) (sound : Sound fs view) (laid : fs.sb.Laid) :
    fs'.used x = true ∧ ∀ i < fs.sb.ninodes, ∀ s, ¬ RefAt fs'.blocks (view i) s x :=
  ⟨by rw [took.used x took.inside]; simp, fun i inode s ref =>
    took.fresh i inode s ((took.refAt sound laid inode s x).mp ref)⟩

end Took

section Attach

variable {fs fs' : State} {view view' : Nat → Dinode}

theorem Sound.attach (sound : Sound fs view) (laid : fs.sb.Laid) (k : Nat) (slot : Slot) {x : Nat}
    (used : fs.used x = true) (data : fs.sb.dataStart ≤ x) (inside : x < fs.sb.size)
    (fresh : ∀ i < fs.sb.ninodes, ∀ s, ¬ RefAt fs.blocks (view i) s x)
    (sb : fs'.sb = fs.sb) (usedSame : ∀ c < fs.sb.size, fs'.used c = fs.used c)
    (refs : ∀ i < fs.sb.ninodes, ∀ s c, RefAt fs'.blocks (view' i) s c →
      RefAt fs.blocks (view i) s c ∨ (i = k ∧ s = slot ∧ c = x)) :
    Sound fs' view' := by
  refine ⟨fun i inode s c ref => ?_, fun i inode j other s t c ref ref' => ?_, fun c early => ?_⟩
  · rw [sb] at inode ⊢
    rcases refs i inode s c ref with old | ⟨-, -, rfl⟩
    · obtain ⟨lower, upper, inUse⟩ := sound.owned i inode s c old
      exact ⟨lower, upper, by rw [usedSame c upper, inUse]⟩
    · exact ⟨data, inside, by rw [usedSame c inside, used]⟩
  · rw [sb] at inode other
    rcases refs i inode s c ref with old | ⟨isK, isSlot, isX⟩ <;>
      rcases refs j other t c ref' with old' | ⟨isK', isSlot', isX'⟩
    · exact sound.unique i inode j other s t c old old'
    · exact absurd (isX' ▸ old) (fresh i inode s)
    · exact absurd (isX ▸ old') (fresh j other t)
    · exact ⟨isK.trans isK'.symm, isSlot.trans isSlot'.symm⟩
  · rw [sb] at early
    have := laid.data
    rw [usedSame c (by omega), sound.reserved c early]

end Attach

section Slots

variable {disk : Disk} {d : Dinode}

theorem Dinode.setAddr_eta (d : Dinode) (i v : Nat) : d.setAddr i v = { d with addrs := (d.setAddr i v).addrs } := by
  unfold Dinode.setAddr
  split <;> rfl

theorem refAt_setAddr_direct {k : Nat} (direct : k < nDirect) (v : Nat) (s : Slot) (c : Nat) :
    RefAt disk (d.setAddr k v) s c ↔ if s = .data k then c ≠ 0 ∧ v = c else RefAt disk d s c := by
  cases s with
  | data bn =>
      have inFile : k < maxFile := by simp only [maxFile]; omega
      simp only [RefAt, slotBlock, Slot.Valid, blockAt_setAddr_direct disk d direct, Slot.data.injEq]
      by_cases same : bn = k
      · subst same
        simp [inFile]
      · simp [same]
  | indirect =>
      have other : nDirect ≠ k := by omega
      simp [RefAt, slotBlock, Slot.Valid, Dinode.addr_setAddr, other]

theorem refAt_setIndirect (absent : d.addr nDirect = 0) {v : Nat} (zero : disk v = fun _ => 0) (s : Slot) (c : Nat) :
    RefAt disk (d.setAddr nDirect v) s c ↔ if s = .indirect then c ≠ 0 ∧ v = c else RefAt disk d s c := by
  cases s with
  | data bn =>
      have before : blockAt disk d bn = if bn < nDirect then d.addr bn else 0 := by
        simp only [blockAt, absent, ↓reduceIte]
      simp only [RefAt, slotBlock, blockAt_setIndirect disk d v zero, before, reduceCtorEq, if_false]
  | indirect => simp [RefAt, slotBlock, Slot.Valid]

theorem refAt_setEntry (present : d.addr nDirect ≠ 0) {j v : Nat} (entry : j < nIndirect) (small : v < 2 ^ 32)
    (s : Slot) (c : Nat) :
    RefAt (Function.update disk (d.addr nDirect) (writeLE (disk (d.addr nDirect)) (4 * j) 4 v)) d s c ↔
      if s = .data (nDirect + j) then c ≠ 0 ∧ v = c else RefAt disk d s c := by
  cases s with
  | data bn =>
      have inFile : nDirect + j < maxFile := by simp only [maxFile]; omega
      simp only [RefAt, slotBlock, Slot.Valid, blockAt_setEntry disk d present j v bn small, Slot.data.injEq]
      by_cases same : bn = nDirect + j
      · subst same
        simp [inFile]
      · simp [same]
  | indirect => simp [RefAt, slotBlock, Slot.Valid]

end Slots

section Mapped

variable {fs fs' : State} {ip ip' : Inode}

@[simp] theorem State.viewWith_self (fs : State) (ip : Inode) : fs.viewWith ip ip.inum = ip.din :=
  Function.update_self _ _ _

theorem State.viewWith_of_ne (fs : State) (ip : Inode) {i : Nat} (other : i ≠ ip.inum) :
    fs.viewWith ip i = fs.dinode i :=
  Function.update_of_ne other _ _

/-- What a call of `bmap` for file block `bn` of `ip` leaves: a sound file
system with `ip'` in memory, an inode changed in its block numbers only, every
inode on disk as it was, every reference there was still there, every block
but `ip`'s indirect block holding what it held, and every file block but `bn`
where it was. -/
structure Mapped (fs : State) (ip : Inode) (bn : Nat) (fs' : State) (ip' : Inode) : Prop where
  sb : fs'.sb = fs.sb
  inode : ip' = { ip with din := { ip.din with addrs := ip'.din.addrs } }
  dinode : ∀ i < fs.sb.ninodes, fs'.dinode i = fs.dinode i
  sound : Sound fs' (fs'.viewWith ip')
  persist : ∀ i < fs.sb.ninodes, ∀ s c, RefAt fs.blocks (fs.viewWith ip i) s c →
    RefAt fs'.blocks (fs'.viewWith ip' i) s c
  kept : ∀ i < fs.sb.ninodes, ∀ s c, RefAt fs.blocks (fs.viewWith ip i) s c →
    (i ≠ ip.inum ∨ s ≠ .indirect) → fs'.blocks c = fs.blocks c
  slots : ∀ bn', bn' ≠ bn → blockAt fs'.blocks ip'.din bn' = blockAt fs.blocks ip.din bn'

theorem Mapped.refl (sound : Sound fs (fs.viewWith ip)) (bn : Nat) : Mapped fs ip bn fs ip :=
  ⟨rfl, rfl, fun _ _ => rfl, sound, fun _ _ _ _ ref => ref, fun _ _ _ _ _ _ => rfl, fun _ _ => rfl⟩

theorem Mapped.inum (mapped : Mapped fs ip bn fs' ip') : ip'.inum = ip.inum := by
  rw [mapped.inode]

theorem Mapped.trans {fs'' : State} {ip'' : Inode} (first : Mapped fs ip bn fs' ip')
    (second : Mapped fs' ip' bn fs'' ip'') : Mapped fs ip bn fs'' ip'' := by
  have sb := first.sb
  refine ⟨second.sb.trans sb, ?_, fun i inode => ?_, second.sound, fun i inode s c ref => ?_,
    fun i inode s c ref notOwn => ?_, fun bn' other => ?_⟩
  · rw [second.inode, first.inode]
  · rw [second.dinode i (sb ▸ inode), first.dinode i inode]
  · exact second.persist i (sb ▸ inode) s c (first.persist i inode s c ref)
  · rw [second.kept i (sb ▸ inode) s c (first.persist i inode s c ref) (first.inum ▸ notOwn),
      first.kept i inode s c ref notOwn]
  · rw [second.slots bn' other, first.slots bn' other]

end Mapped

section Bmap

variable {fs fs1 fs2 : State} {ip : Inode} {x : Nat}

/-- `bmap` stores the block `balloc` took in an empty slot of `ip`, and perhaps
writes `ip`'s indirect block to do so: when the new references of `ip` are its
old ones and `x` in that slot, and the other inodes and blocks are left, the
call is `Mapped`. -/
theorem Took.mapped (took : Took fs fs1 (fs.viewWith ip) x) (sound : Sound fs (fs.viewWith ip))
    (laid : fs.sb.Laid) (inode : ip.inum < fs.sb.ninodes) {din' : Dinode} (slot : Slot) {bn : Nat}
    (shape : din' = { ip.din with addrs := din'.addrs }) (sb : fs2.sb = fs1.sb)
    (dinode : ∀ i < fs.sb.ninodes, fs2.dinode i = fs1.dinode i)
    (usedSame : ∀ c < fs.sb.size, fs2.used c = fs1.used c)
    (empty : ∀ c, ¬ RefAt fs.blocks ip.din slot c)
    (mine : ∀ s c, RefAt fs2.blocks din' s c ↔ if s = slot then c ≠ 0 ∧ x = c else RefAt fs1.blocks ip.din s c)
    (theirs : ∀ i < fs.sb.ninodes, i ≠ ip.inum → ∀ s c,
      RefAt fs2.blocks (fs.dinode i) s c ↔ RefAt fs1.blocks (fs.dinode i) s c)
    (kept : ∀ c, (∃ i < fs.sb.ninodes, ∃ s, RefAt fs1.blocks (fs.viewWith ip i) s c ∧
      (i ≠ ip.inum ∨ s ≠ .indirect)) → fs2.blocks c = fs1.blocks c)
    (slots : ∀ bn', bn' ≠ bn → blockAt fs2.blocks din' bn' = blockAt fs1.blocks ip.din bn') :
    Mapped fs ip bn fs2 { ip with din := din' } := by
  have sb1 := took.sb
  obtain ⟨inUse, fresh⟩ := took.fresh' sound laid
  have before : ∀ {i}, i < fs.sb.ninodes → ∀ s c,
      RefAt fs.blocks (fs.viewWith ip i) s c → RefAt fs1.blocks (fs.viewWith ip i) s c :=
    fun inode s c ref => (took.refAt sound laid inode s c).mpr ref
  -- every inode but `ip` reads the same through both views
  have view : ∀ i < fs.sb.ninodes, i ≠ ip.inum →
      fs2.viewWith { ip with din := din' } i = fs.viewWith ip i := fun i inode other => by
    rw [State.viewWith_of_ne fs2 { ip with din := din' } other, State.viewWith_of_ne fs ip other,
      dinode i inode, took.dinode laid inode]
  refine ⟨sb.trans sb1, by rw [← shape], fun i inode => by rw [dinode i inode, took.dinode laid inode],
    ?_, fun i inode s c ref => ?_, fun i inode s c ref notOwn => ?_, fun bn' other => ?_⟩
  · refine (took.sound sound laid).attach (sb1 ▸ laid) ip.inum slot inUse (sb1 ▸ took.data) (sb1 ▸ took.inside)
      (by rw [sb1]; exact fresh) sb
      (fun c inside => usedSame c (sb1 ▸ inside)) fun i inode s c ref => ?_
    rw [sb1] at inode
    by_cases own : i = ip.inum
    · subst own
      rw [State.viewWith_self] at ref ⊢
      rw [mine] at ref
      split at ref
      · exact .inr ⟨rfl, ‹s = slot›, ref.2.symm⟩
      · exact .inl ref
    · rw [view i inode own] at ref
      rw [State.viewWith_of_ne _ _ own] at ref ⊢
      exact .inl ((theirs i inode own s c).mp ref)
  · have ref1 := before inode s c ref
    by_cases own : i = ip.inum
    · subst own
      rw [State.viewWith_self] at ref ref1 ⊢
      have notSlot : s ≠ slot := fun same => empty c (same ▸ ref)
      rw [mine, if_neg notSlot]
      exact ref1
    · rw [view i inode own, State.viewWith_of_ne _ _ own]
      rw [State.viewWith_of_ne _ _ own] at ref1
      exact (theirs i inode own s c).mpr ref1
  · rw [kept c ⟨i, inode, s, before inode s c ref, notOwn⟩, took.kept sound inode ref]
  · have same := took.indirect_same sound laid inode
    rw [State.viewWith_self] at same
    rw [slots bn' other, blockAt_congr same]

theorem Took.attachDirect (took : Took fs fs1 (fs.viewWith ip) x) (sound : Sound fs (fs.viewWith ip))
    (laid : fs.sb.Laid) (inode : ip.inum < fs.sb.ninodes) {bn : Nat} (direct : bn < nDirect)
    (absent : ip.din.addr bn = 0) : Mapped fs ip bn fs1 { ip with din := ip.din.setAddr bn x } := by
  refine took.mapped sound laid inode (.data bn) (Dinode.setAddr_eta _ _ _) rfl (fun _ _ => rfl)
    (fun _ _ => rfl) (fun c ref => ?_) (refAt_setAddr_direct direct x) (fun _ _ _ _ _ => Iff.rfl)
    (fun _ _ => rfl) (fun bn' other => by rw [blockAt_setAddr_direct _ _ direct, if_neg other])
  have named := ref.2.2
  rw [slotBlock, blockAt_of_direct _ _ direct, absent] at named
  exact ref.2.1 named.symm

theorem Took.attachIndirect (took : Took fs fs1 (fs.viewWith ip) x) (sound : Sound fs (fs.viewWith ip))
    (laid : fs.sb.Laid) (inode : ip.inum < fs.sb.ninodes) (bn : Nat) (absent : ip.din.addr nDirect = 0) :
    Mapped fs ip bn fs1 { ip with din := ip.din.setAddr nDirect x } := by
  refine took.mapped sound laid inode .indirect (Dinode.setAddr_eta _ _ _) rfl (fun _ _ => rfl)
    (fun _ _ => rfl) (fun c ref => ref.2.1 (ref.2.2.symm.trans absent)) (refAt_setIndirect absent took.zeroed)
    (fun _ _ _ _ _ => Iff.rfl) (fun _ _ => rfl) (fun bn' _ => ?_)
  rw [blockAt_setIndirect _ _ _ took.zeroed]
  simp only [blockAt, absent, ↓reduceIte]

theorem Took.attachEntry (took : Took fs fs1 (fs.viewWith ip) x) (sound : Sound fs (fs.viewWith ip))
    (laid : fs.sb.Laid) (inode : ip.inum < fs.sb.ninodes) (present : ip.din.addr nDirect ≠ 0) {j : Nat}
    (entry : j < nIndirect) (empty : readLE (fs.blocks (ip.din.addr nDirect)) (4 * j) 4 = 0)
    (w : Wrote fs1 fs2 (ip.din.addr nDirect) (writeLE (fs1.blocks (ip.din.addr nDirect)) (4 * j) 4 x)) :
    Mapped fs ip (nDirect + j) fs2 ip ∧ blockAt fs2.blocks ip.din (nDirect + j) = x := by
  have sound1 := took.sound sound laid
  have sb1 := took.sb
  have small : x < 2 ^ 32 := lt_trans took.inside laid.fits
  -- the indirect block is `ip`'s own, so no other reference can be to it
  have own : RefAt fs1.blocks (fs.viewWith ip ip.inum) .indirect (ip.din.addr nDirect) := by
    rw [took.refAt sound laid inode, State.viewWith_self]
    exact ⟨trivial, present, rfl⟩
  have data : fs.sb.dataStart ≤ ip.din.addr nDirect := (sound1.owned _ (sb1 ▸ inode) _ _ own).1.trans_eq' (by rw [sb1])
  have blocks : fs2.blocks = Function.update fs1.blocks (ip.din.addr nDirect)
      (writeLE (fs1.blocks (ip.din.addr nDirect)) (4 * j) 4 x) := w.blocks
  have entries : ∀ bn, blockAt fs2.blocks ip.din bn = if bn = nDirect + j then x else blockAt fs1.blocks ip.din bn :=
    fun bn => by rw [blocks, blockAt_setEntry _ _ present j x bn small]
  refine ⟨took.mapped sound laid inode (.data (nDirect + j)) rfl (w.sb) (fun i inode => ?_)
    (fun c inside => ?_) (fun c ref => ?_) (by rw [blocks]; exact refAt_setEntry present entry small)
    (fun i inode other s c => w.refAt ?_ s c) (fun c ⟨i, inode, s, ref, notOwn⟩ => w.apply_of_ne ?_)
    (fun bn' other => by rw [entries, if_neg other]), by rw [entries, if_pos rfl]⟩
  · have := bmapstart_lt_dataStart fs.sb
    exact w.dinode (sb1 ▸ laid) (by rw [sb1]; omega) (by rw [sb1]; exact inode)
  · exact w.used_of_data (by rw [sb1]; exact data) (by rw [sb1]; exact inside)
  · have named := ref.2.2
    simp only [slotBlock, blockAt, show ¬ nDirect + j < nDirect by omega, present, Nat.add_sub_cancel_left,
      empty, ↓reduceIte] at named
    exact ref.2.1 named.symm
  · intro same
    have theirs : RefAt fs1.blocks (fs.viewWith ip i) .indirect (ip.din.addr nDirect) := by
      rw [State.viewWith_of_ne _ _ other]
      exact ⟨trivial, present, same⟩
    exact other (sound1.unique i (sb1 ▸ inode) ip.inum (sb1 ▸ ‹ip.inum < fs.sb.ninodes›) _ _ _ theirs own).1
  · intro same
    rw [same] at ref
    obtain ⟨isOwn, isIndirect⟩ := sound1.unique i (sb1 ▸ inode) ip.inum (sb1 ▸ ‹ip.inum < fs.sb.ninodes›) _ _ _ ref own
    rcases notOwn with notIp | notIndirect
    · exact notIp isOwn
    · exact notIndirect isIndirect

/-- What `bmap(ip, bn)` does over a sound file system: it returns the block
now holding file block `bn`, allocating what was missing, or `0` when it ran out
of blocks, in a `Mapped` state. -/
theorem bmap_spec (sound : Sound fs (fs.viewWith ip)) (laid : fs.sb.Laid) (inode : ip.inum < fs.sb.ninodes)
    {bn addr : Nat} {ip' : Inode} (inFile : bn < maxFile) (ran : bmap fs ip bn = .ok (addr, ip', fs2)) :
    Mapped fs ip bn fs2 ip' ∧ (addr = 0 → ∀ c < fs.sb.size, fs2.used c = true) ∧
      (addr ≠ 0 → blockAt fs2.blocks ip'.din bn = addr) := by
  by_cases direct : bn < nDirect
  · rw [bmap, if_pos direct, addrOrAlloc] at ran
    by_cases absent : ip.din.addr bn = 0
    · rw [if_pos absent] at ran
      obtain ⟨⟨x, fs1⟩, alloc, rest⟩ := Machine.bind_eq_ok ran
      rcases balloc_took sound alloc with ⟨rfl, rfl, full⟩ | ⟨taken, took⟩
      · cases rest
        exact ⟨Mapped.refl sound bn, fun _ => full, fun nonzero => absurd rfl nonzero⟩
      · simp only [taken, ↓reduceIte, Machine.pure_eq_ok, Except.ok.injEq, Prod.mk.injEq] at rest
        obtain ⟨rfl, rfl, rfl⟩ := rest
        refine ⟨took.attachDirect sound laid inode direct absent, fun zero => absurd zero taken, fun _ => ?_⟩
        rw [blockAt_setAddr_direct _ _ direct, if_pos rfl]
    · rw [if_neg absent] at ran
      cases ran
      exact ⟨Mapped.refl sound bn, fun zero => absurd zero absent, fun _ => blockAt_of_direct _ _ direct⟩
  · have entry : bn - nDirect < nIndirect := by simp only [maxFile] at inFile; omega
    have split : bn = nDirect + (bn - nDirect) := by omega
    rw [bmap, if_neg direct, if_pos entry] at ran
    obtain ⟨⟨ind, ip1, fs1⟩, found, rest⟩ := Machine.bind_eq_ok ran
    -- first the indirect block, allocated when missing
    obtain ⟨first, whenMissing, whenFound⟩ : Mapped fs ip bn fs1 ip1 ∧
        (ind = 0 → fs2 = fs1 ∧ ip' = ip1 ∧ addr = 0 ∧ ∀ c < fs.sb.size, fs1.used c = true) ∧
        (ind ≠ 0 → ip1.din.addr nDirect = ind ∧ ip1.inum = ip.inum) := by
      rw [addrOrAlloc] at found
      by_cases absent : ip.din.addr nDirect = 0
      · rw [if_pos absent] at found
        obtain ⟨⟨y, fs0⟩, alloc, made⟩ := Machine.bind_eq_ok found
        rcases balloc_took sound alloc with ⟨rfl, rfl, full⟩ | ⟨taken, took⟩
        · cases made
          simp only [↓reduceIte, Machine.pure_eq_ok, Except.ok.injEq, Prod.mk.injEq] at rest
          exact ⟨Mapped.refl sound bn, fun _ => ⟨rest.2.2.symm, rest.2.1.symm, rest.1.symm, full⟩,
            fun nonzero => absurd rfl nonzero⟩
        · simp only [taken, ↓reduceIte, Machine.pure_eq_ok, Except.ok.injEq, Prod.mk.injEq] at made
          obtain ⟨rfl, rfl, rfl⟩ := made
          exact ⟨took.attachIndirect sound laid inode bn absent, fun zero => absurd zero taken,
            fun _ => ⟨by simp, rfl⟩⟩
      · rw [if_neg absent] at found
        cases found
        exact ⟨Mapped.refl sound bn, fun zero => absurd zero absent, fun _ => ⟨rfl, rfl⟩⟩
    by_cases missing : ind = 0
    · obtain ⟨rfl, rfl, rfl, full⟩ := whenMissing missing
      exact ⟨first, fun _ => full, fun nonzero => absurd rfl nonzero⟩
    simp only [missing, ↓reduceIte] at rest
    obtain ⟨⟨entryAddr, fs3⟩, got, done⟩ := Machine.bind_eq_ok rest
    simp only [Machine.pure_eq_ok, Except.ok.injEq, Prod.mk.injEq] at done
    obtain ⟨rfl, rfl, rfl⟩ := done
    obtain ⟨isInd, sameInum⟩ := whenFound missing
    have laid1 : fs1.sb.Laid := first.sb ▸ laid
    have inode1 : ip1.inum < fs1.sb.ninodes := by rw [sameInum, first.sb]; exact inode
    have sound1' := first.sound
    rw [entryOrAlloc] at got
    by_cases blank : readLE (fs1.blocks ind) (4 * (bn - nDirect)) 4 = 0
    · rw [if_pos blank] at got
      obtain ⟨⟨x, fs4⟩, alloc, stored⟩ := Machine.bind_eq_ok got
      rcases balloc_took sound1' alloc with ⟨rfl, rfl, full⟩ | ⟨taken, took⟩
      · cases stored
        exact ⟨first, fun _ => by rw [first.sb] at full; exact full, fun nonzero => absurd rfl nonzero⟩
      · simp only [taken, ne_eq, not_false_eq_true, ↓reduceIte] at stored
        obtain ⟨fs5, wrote, done⟩ := Machine.bind_eq_ok stored
        simp only [Machine.pure_eq_ok, Except.ok.injEq, Prod.mk.injEq] at done
        obtain ⟨rfl, rfl⟩ := done
        rw [← isInd] at blank wrote
        obtain ⟨second, named⟩ := took.attachEntry sound1' laid1 inode1 (isInd ▸ missing) entry blank
          (State.write_wrote wrote)
        rw [← split] at second named
        exact ⟨first.trans second, fun zero => absurd zero taken, fun _ => named⟩
    · rw [if_neg blank] at got
      cases got
      refine ⟨first, fun zero => absurd zero blank, fun _ => ?_⟩
      rw [split]
      simp only [blockAt, show ¬ nDirect + (bn - nDirect) < nDirect by omega, isInd, missing,
        Nat.add_sub_cancel_left, ↓reduceIte]

end Bmap

section Iupdate

variable {fs fs' : State} {ip : Inode} {view : Nat → Dinode}

theorem dinodeOffset_disjoint {sb : Superblock} {i j : Nat} (sameBlock : iblock sb i = iblock sb j) (other : i ≠ j) :
    dinodeOffset i + dinodeSize ≤ dinodeOffset j ∨ dinodeOffset j + dinodeSize ≤ dinodeOffset i := by
  simp only [iblock, dinodeOffset, ipb, bSize, dinodeSize] at *
  omega

theorem iupdate_wrote (stored : iupdate fs ip = .ok fs') :
    Wrote fs fs' (iblock fs.sb ip.inum) (Dinode.write (fs.blocks (iblock fs.sb ip.inum)) (dinodeOffset ip.inum) ip.din) :=
  State.write_wrote stored

theorem Wrote.dinode_stored {i : Nat} {d : Dinode}
    (w : Wrote fs fs' (iblock fs.sb i) (Dinode.write (fs.blocks (iblock fs.sb i)) (dinodeOffset i) d)) (fits : d.Fits) :
    fs'.dinode i = d := by
  unfold State.dinode
  rw [w.sb, w.apply_self, Dinode.read_write _ _ _ fits]

theorem Wrote.dinode_beside {i : Nat} {d : Dinode}
    (w : Wrote fs fs' (iblock fs.sb i) (Dinode.write (fs.blocks (iblock fs.sb i)) (dinodeOffset i) d)) {j : Nat}
    (other : j ≠ i) : fs'.dinode j = fs.dinode j := by
  unfold State.dinode
  rw [w.sb]
  by_cases sameBlock : iblock fs.sb j = iblock fs.sb i
  · rw [sameBlock, w.apply_self, Dinode.read_write_of_disjoint _ _ _ _ (dinodeOffset_disjoint sameBlock other)]
  · rw [w.apply_of_ne sameBlock]

theorem iupdate_dinode_self (stored : iupdate fs ip = .ok fs') (fits : ip.din.Fits) : fs'.dinode ip.inum = ip.din :=
  (iupdate_wrote stored).dinode_stored fits

theorem iupdate_dinode_other (stored : iupdate fs ip = .ok fs') {i : Nat} (other : i ≠ ip.inum) :
    fs'.dinode i = fs.dinode i :=
  (iupdate_wrote stored).dinode_beside other

theorem Sound.blockAt_of_early (sound : Sound fs view) {b : Nat} {m : Mem} (w : Wrote fs fs' b m)
    (early : b < fs.sb.dataStart) {i : Nat} (inode : i < fs.sb.ninodes) (bn : Nat) :
    blockAt fs'.blocks (view i) bn = blockAt fs.blocks (view i) bn := by
  by_cases absent : (view i).addr nDirect = 0
  · simp only [blockAt, absent, ↓reduceIte]
  · have := (sound.owned i inode .indirect _ ⟨trivial, absent, rfl⟩).1
    exact blockAt_congr (w.apply_of_ne (by omega)) bn

end Iupdate

end Xv6.Fs
