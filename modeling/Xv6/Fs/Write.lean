import Mathlib
import Xv6.Vm.Copy
import Xv6.Fs.Mkfs
import Xv6.Fs.Own

/-!
`writei` over a sound file system, copying from kernel memory (`either_copyin`
with `user_src` clear, whose `memmove` cannot fail). Its loop keeps `Written`:
the file system is sound with the inode in memory, every other file and every
inode on disk is as it was, and the file holds the source's bytes over what has
been written and its old bytes elsewhere. The loop stops short of `n` bytes only
when `balloc` finds every block in use. `iupdate` then stores the inode.
-/

namespace Xv6.Fs

open Bytes

section Chunk

variable {fs1 fs2 : State} {addr : Nat} {data : Mem}

theorem fileByte_wrote (w : Wrote fs1 fs2 addr data) {d : Dinode} (notIndirect : d.addr nDirect ≠ addr)
    (p : Nat) : fileByte fs2.blocks d p =
      if blockAt fs1.blocks d (p / bSize) = addr then data (p % bSize) else fileByte fs1.blocks d p := by
  unfold fileByte
  rw [blockAt_congr (w.apply_of_ne notIndirect)]
  split
  · rename_i hit
    rw [hit, w.apply_self]
  · rename_i miss
    rw [w.apply_of_ne miss]

theorem chunk_iff {o m p : Nat} (inside : o % bSize + m ≤ bSize) :
    (o ≤ p ∧ p < o + m) ↔ (p / bSize = o / bSize ∧ o % bSize ≤ p % bSize ∧ p % bSize < o % bSize + m) := by
  rw [show bSize = 1024 from rfl] at inside ⊢
  omega

end Chunk

section Mapped

variable {fs fs1 : State} {ip ip1 : Inode} {bn : Nat}

theorem Mapped.fileByte (mapped : Mapped fs ip bn fs1 ip1) (inode : ip.inum < fs.sb.ninodes) {p : Nat}
    (other : p / bSize ≠ bn) (within : p / bSize < maxFile) (present : blockAt fs.blocks ip.din (p / bSize) ≠ 0) :
    fileByte fs1.blocks ip1.din p = fileByte fs.blocks ip.din p := by
  have ref : RefAt fs.blocks (fs.viewWith ip ip.inum) (.data (p / bSize)) (blockAt fs.blocks ip.din (p / bSize)) := by
    rw [State.viewWith_self]
    exact ⟨within, present, rfl⟩
  unfold Fs.fileByte
  rw [mapped.slots _ other, mapped.kept _ inode _ _ ref (.inr (by simp))]

theorem Mapped.old_block (mapped : Mapped fs ip bn fs1 ip1) (inode : ip.inum < fs.sb.ninodes)
    (within : bn < maxFile) (present : blockAt fs.blocks ip.din bn ≠ 0) :
    blockAt fs1.blocks ip1.din bn = blockAt fs.blocks ip.din bn ∧
      fs1.blocks (blockAt fs.blocks ip.din bn) = fs.blocks (blockAt fs.blocks ip.din bn) := by
  have ref : RefAt fs.blocks (fs.viewWith ip ip.inum) (.data bn) (blockAt fs.blocks ip.din bn) := by
    rw [State.viewWith_self]
    exact ⟨within, present, rfl⟩
  have after := mapped.persist _ inode _ _ ref
  rw [← mapped.inum, State.viewWith_self] at after
  exact ⟨after.2.2, mapped.kept _ inode _ _ ref (.inr (by simp))⟩

end Mapped

section Loop

variable {mem : Mem} {fs₀ fs fs1 fs2 : State} {ip₀ ip ip1 : Inode} {src off tot : Nat}

/-- `writei`'s loop after `tot` bytes of `mem` from `src` were written at `off`:
the file system is sound with `ip` in memory, the inodes on disk and every
other file are as they were, the file has its blocks up to what it covers now,
and there it holds the source's bytes over `[off, off + tot)` and its old bytes
elsewhere. -/
structure Written (mem : Mem) (fs₀ : State) (ip₀ : Inode) (src off : Nat) (fs : State) (ip : Inode)
    (tot : Nat) : Prop where
  sb : fs.sb = fs₀.sb
  inode : ip = { ip₀ with din := { ip₀.din with addrs := ip.din.addrs } }
  dinode : ∀ i < fs₀.sb.ninodes, fs.dinode i = fs₀.dinode i
  sound : Sound fs (fs.viewWith ip)
  others : ∀ i < fs₀.sb.ninodes, i ≠ ip₀.inum → AgreeOn fs₀.blocks fs.blocks (fs₀.dinode i)
  present : Present fs.blocks ip.din 0 (max ip₀.din.size (off + tot))
  content : ∀ p < max ip₀.din.size (off + tot), fileByte fs.blocks ip.din p =
    if off ≤ p ∧ p < off + tot then mem (src + (p - off)) else fileByte fs₀.blocks ip₀.din p

theorem Written.start (sound : Sound fs (fs.viewWith ip)) (within : off ≤ ip.din.size)
    (present : Present fs.blocks ip.din 0 ip.din.size) : Written mem fs ip src off fs ip 0 := by
  have reach : max ip.din.size (off + 0) = ip.din.size := by omega
  refine ⟨rfl, rfl, fun _ _ => rfl, sound, fun _ _ _ _ _ _ => rfl, by rw [reach]; exact present,
    fun p _ => ?_⟩
  rw [if_neg (by omega)]

theorem Written.inum (written : Written mem fs₀ ip₀ src off fs ip tot) : ip.inum = ip₀.inum := by
  rw [written.inode]

/-- `bmap` in the loop: the file's bytes up to what it covers are where they
were, and the state is still `Written`. -/
theorem Written.bmap (written : Written mem fs₀ ip₀ src off fs ip tot) (laid : fs₀.sb.Laid)
    (inode : ip₀.inum < fs₀.sb.ninodes) {bn addr : Nat} (inFile : bn < maxFile)
    (mapped : bmap fs ip bn = .ok (addr, ip1, fs1)) :
    Written mem fs₀ ip₀ src off fs1 ip1 tot ∧ (addr = 0 → ∀ c < fs₀.sb.size, fs1.used c = true) ∧
      (addr ≠ 0 → blockAt fs1.blocks ip1.din bn = addr) := by
  have laid' : fs.sb.Laid := written.sb ▸ laid
  have inode' : ip.inum < fs.sb.ninodes := by rw [written.inum, written.sb]; exact inode
  obtain ⟨mp, full, named⟩ := bmap_spec written.sound laid' inode' inFile mapped
  -- a byte the file covers keeps its block: `bmap` allocates only past the file
  have keep : ∀ p < max ip₀.din.size (off + tot), blockAt fs1.blocks ip1.din (p / bSize) =
      blockAt fs.blocks ip.din (p / bSize) ∧ fileByte fs1.blocks ip1.din p = fileByte fs.blocks ip.din p := by
    intro p below
    obtain ⟨within, present⟩ := written.present p (Nat.zero_le _) (by omega)
    by_cases hit : p / bSize = bn
    · obtain ⟨same, held⟩ := mp.old_block inode' (hit ▸ within) (hit ▸ present)
      rw [hit]
      refine ⟨same, ?_⟩
      unfold Fs.fileByte
      rw [hit, same, held]
    · exact ⟨mp.slots _ hit, mp.fileByte inode' hit within present⟩
  refine ⟨⟨mp.sb.trans written.sb, ?_, fun i inode => ?_, mp.sound, fun i inode other s c ref => ?_,
    fun p _ upper => ?_, fun p upper => ?_⟩, fun zero => ?_, named⟩
  · have shape := mp.inode
    rw [written.inode] at shape
    exact shape
  · rw [mp.dinode i (by rw [written.sb]; exact inode), written.dinode i inode]
  · have notIp : i ≠ ip.inum := by rw [written.inum]; exact other
    have refFs : RefAt fs.blocks (fs.viewWith ip i) s c := by
      rw [State.viewWith_of_ne _ _ notIp, written.dinode i inode]
      exact (refAt_of_agree (written.others i inode other) s c).mpr ref
    rw [mp.kept i (by rw [written.sb]; exact inode) s c refFs (.inl notIp), written.others i inode other s c ref]
  · rw [(keep p (by omega)).1]
    exact written.present p (Nat.zero_le _) (by omega)
  · rw [(keep p upper).2, written.content p upper]
  · rw [← written.sb]
    exact full zero

theorem Written.chunk (written : Written mem fs₀ ip₀ src off fs1 ip1 tot) (laid : fs₀.sb.Laid)
    (inode : ip₀.inum < fs₀.sb.ninodes) (inFile : (off + tot) / bSize < maxFile) {addr m : Nat}
    (here : blockAt fs1.blocks ip1.din ((off + tot) / bSize) = addr) (found : addr ≠ 0)
    (inside : (off + tot) % bSize + m ≤ bSize)
    (wrote : fs1.write addr (copy (fs1.blocks addr) ((off + tot) % bSize) mem (src + tot) m) = .ok fs2) :
    Written mem fs₀ ip₀ src off fs2 ip1 (tot + m) := by
  have w := State.write_wrote wrote
  have sb1 := written.sb
  have inode1 : ip1.inum < fs1.sb.ninodes := by rw [written.inum, sb1]; exact inode
  have ref : RefAt fs1.blocks (fs1.viewWith ip1 ip1.inum) (.data ((off + tot) / bSize)) addr := by
    rw [State.viewWith_self]
    exact ⟨inFile, found, here⟩
  have data : fs1.sb.dataStart ≤ addr := (written.sound.owned _ inode1 _ _ ref).1
  have notIndirect : ∀ i < fs1.sb.ninodes, (fs1.viewWith ip1 i).addr nDirect ≠ addr :=
    fun i inode => written.sound.indirect_ne_data inode1 ref inode
  have ownIndirect : ip1.din.addr nDirect ≠ addr := by
    simpa using notIndirect _ inode1
  have dinode1 : ∀ i < fs1.sb.ninodes, fs2.dinode i = fs1.dinode i := fun i inode =>
    w.dinode (sb1 ▸ laid) (by have := bmapstart_lt_dataStart fs1.sb; omega) inode
  -- block `addr` is the file's block `(off + tot) / bSize` and no other
  have onlyHere : ∀ q, q < maxFile → blockAt fs1.blocks ip1.din q = addr → q = (off + tot) / bSize := by
    intro q within hit
    have other : RefAt fs1.blocks (fs1.viewWith ip1 ip1.inum) (.data q) addr := by
      rw [State.viewWith_self]
      exact ⟨within, found, hit⟩
    simpa using (written.sound.unique _ inode1 _ inode1 _ _ _ other ref).2
  have sameMap : ∀ q, blockAt fs2.blocks ip1.din q = blockAt fs1.blocks ip1.din q :=
    blockAt_congr (w.apply_of_ne ownIndirect)
  -- bytes past what the file covered are in the chunk's block
  have lateInChunk : ∀ p, max ip₀.din.size (off + tot) ≤ p → p < max ip₀.din.size (off + (tot + m)) →
      off + tot ≤ p ∧ p < off + tot + m := fun p late upper => by omega
  refine ⟨w.sb.trans sb1, written.inode, fun i inode => ?_, ?_, fun i inode other s c ref' => ?_,
    fun p _ upper => ?_, fun p upper => ?_⟩
  · rw [dinode1 i (by rw [sb1]; exact inode), written.dinode i inode]
  · refine (written.sound.wrote_data (sb1 ▸ laid) w data notIndirect).congr fun i inode s c => ?_
    by_cases own : i = ip1.inum
    · rw [own, State.viewWith_self, State.viewWith_self]
    · rw [State.viewWith_of_ne _ _ own, State.viewWith_of_ne _ _ own, dinode1 i (by rw [← w.sb]; exact inode)]
  · -- a block of another file is not the file's block `addr`
    have notIp : i ≠ ip1.inum := by rw [written.inum]; exact other
    have refFs1 : RefAt fs1.blocks (fs1.viewWith ip1 i) s c := by
      rw [State.viewWith_of_ne _ _ notIp, written.dinode i inode]
      exact (refAt_of_agree (written.others i inode other) s c).mpr ref'
    have notAddr : c ≠ addr := fun same => by
      rw [same] at refFs1
      exact notIp (written.sound.unique i (by rw [sb1]; exact inode) _ inode1 _ _ _ refFs1 ref).1
    rw [w.apply_of_ne notAddr, written.others i inode other s c ref']
  · by_cases hit : p / bSize = (off + tot) / bSize
    · rw [sameMap, hit, here]
      exact ⟨inFile, found⟩
    · have before : p < max ip₀.din.size (off + tot) := by
        by_contra late
        exact hit ((chunk_iff inside).mp (lateInChunk p (by omega) (by omega))).1
      rw [sameMap]
      exact written.present p (Nat.zero_le _) (by omega)
  · rw [fileByte_wrote w ownIndirect p]
    by_cases hit : p / bSize = (off + tot) / bSize
    · rw [if_pos (hit ▸ here)]
      simp only [copy]
      by_cases inChunk : (off + tot) % bSize ≤ p % bSize ∧ p % bSize < (off + tot) % bSize + m
      · rw [if_pos inChunk, if_pos ⟨by have := (chunk_iff inside).mpr ⟨hit, inChunk⟩; omega,
          by have := (chunk_iff inside).mpr ⟨hit, inChunk⟩; omega⟩]
        congr 1
        rw [show bSize = 1024 from rfl] at hit inChunk ⊢
        omega
      · -- a byte of the chunk's block outside the chunk, which the file covered already
        have outside : ¬ (off + tot ≤ p ∧ p < off + tot + m) := fun chunk =>
          inChunk ((chunk_iff inside).mp chunk).2
        have before : p < max ip₀.din.size (off + tot) := by
          by_contra late
          exact outside (lateInChunk p (by omega) upper)
        have held : fs1.blocks addr (p % bSize) = fileByte fs1.blocks ip1.din p := by
          unfold Fs.fileByte
          rw [hit, here]
        rw [if_neg inChunk, held, written.content p before]
        congr 1
        simp only [eq_iff_iff]
        omega
    · have before : p < max ip₀.din.size (off + tot) := by
        by_contra late
        exact hit ((chunk_iff inside).mp (lateInChunk p (by omega) upper)).1
      obtain ⟨within, -⟩ := written.present p (Nat.zero_le _) (by omega)
      rw [if_neg (fun same => hit (onlyHere _ within same)), written.content p before]
      congr 1
      simp only [eq_iff_iff]
      constructor
      · rintro ⟨lower, upper⟩
        exact ⟨lower, by omega⟩
      · rintro ⟨lower, upper⟩
        refine ⟨lower, ?_⟩
        by_contra late
        exact hit ((chunk_iff inside).mp ⟨by omega, by omega⟩).1

/-- `writei`'s loop copying from kernel memory, from a `Written` state: it
ends `Written` at the offset it reports, having written every byte asked for or
stopped with every block of the disk in use. -/
theorem writeLoop_written (s : Vm.Phys) (pagetable : Nat) (laid : fs₀.sb.Laid)
    (inode : ip₀.inum < fs₀.sb.ninodes) {n : Nat} (bound : off + n ≤ maxFile * bSize) (fs : State) (ip : Inode)
    (tot : Nat) (written : Written s.mem fs₀ ip₀ src off fs ip tot) (le : tot ≤ n) {tot' off' : Nat}
    {ip' : Inode} {fs' : State}
    (ran : writeLoop (Vm.eitherCopyin s pagetable false) fs ip (src + tot) (off + tot) tot n =
      .ok (tot', off', ip', fs')) :
    Written s.mem fs₀ ip₀ src off fs' ip' tot' ∧ off' = off + tot' ∧ tot' ≤ n ∧
      (tot' < n → ∀ c < fs₀.sb.size, fs'.used c = true) := by
  by_cases more : tot < n
  · rw [writeLoop, dif_pos more] at ran
    have inFile : (off + tot) / bSize < maxFile := by
      rw [show bSize = 1024 from rfl] at bound ⊢
      omega
    obtain ⟨⟨addr, ip1, fs1⟩, mapped, rest⟩ := Machine.bind_eq_ok ran
    obtain ⟨written1, full, named⟩ := written.bmap laid inode inFile mapped
    by_cases zero : addr = 0
    · simp only [zero, ↓reduceIte, Machine.pure_eq_ok, Except.ok.injEq, Prod.mk.injEq] at rest
      obtain ⟨rfl, rfl, rfl, rfl⟩ := rest
      exact ⟨written1, rfl, le, fun _ => full zero⟩
    · -- the copy from kernel memory succeeds, so the chunk is logged and the loop goes on
      simp only [zero, ↓reduceIte, Vm.eitherCopyin, Bool.false_eq_true] at rest
      obtain ⟨fs2, wrote, next⟩ := Machine.bind_eq_ok rest
      have inside : (off + tot) % bSize + min (n - tot) (bSize - (off + tot) % bSize) ≤ bSize := by
        have := Nat.mod_lt (off + tot) (show 0 < bSize by decide)
        omega
      have written2 := written1.chunk laid inode inFile (named zero) zero inside wrote
      rw [Nat.add_assoc src, Nat.add_assoc off] at next
      exact writeLoop_written s pagetable laid inode bound fs2 ip1 _ written2 (by omega) next
  · rw [writeLoop, dif_neg more] at ran
    cases ran
    exact ⟨written, rfl, le, fun less => absurd less more⟩
termination_by n - tot
decreasing_by
  have := chunk_pos more (off + tot)
  omega

end Loop

section Writei

variable {mem : Mem} {fs₀ fs fs' : State} {ip₀ ip ip' : Inode} {src off tot n : Nat}

/-- `iupdate` at the end of `writei` stores the inode with the size the loop
reached: the file system is sound with every inode read from disk, and every
file, this one included, holds what the loop left. -/
theorem Written.iupdate (written : Written mem fs₀ ip₀ src off fs ip tot) (laid : fs₀.sb.Laid)
    (inode : ip₀.inum < fs₀.sb.ninodes) (fits : ip₀.din.Fits) (bound : off + tot ≤ maxFile * bSize)
    (stored : iupdate fs { ip with din := { ip.din with size := max ip₀.din.size (off + tot) } } = .ok fs') :
    Sound fs' fs'.dinode ∧ fs'.dinode ip₀.inum = { ip.din with size := max ip₀.din.size (off + tot) } ∧
      (∀ i < fs₀.sb.ninodes, i ≠ ip₀.inum → fs'.dinode i = fs₀.dinode i ∧ AgreeOn fs₀.blocks fs'.blocks (fs₀.dinode i)) ∧
      Present fs'.blocks ip.din 0 (max ip₀.din.size (off + tot)) ∧
      ∀ p < max ip₀.din.size (off + tot), fileByte fs'.blocks ip.din p = fileByte fs.blocks ip.din p := by
  have w := iupdate_wrote stored
  dsimp only at w
  have sb := written.sb
  have inum := written.inum
  have inode' : ip.inum < fs.sb.ninodes := by rw [inum, sb]; exact inode
  have laid' : fs.sb.Laid := by rw [sb]; exact laid
  have early : iblock fs.sb ip.inum < fs.sb.bmapstart := laid'.iblock_lt inode'
  have early' := bmapstart_lt_dataStart fs.sb
  -- the stored inode fits: its size is below `MAXFILE * BSIZE` and its blocks inside the disk
  have grownFits : ({ ip.din with size := max ip₀.din.size (off + tot) } : Dinode).Fits := by
    refine ⟨?_, fun k below => ?_⟩
    · have := fits.size
      have : maxFile * bSize < 2 ^ 32 := by decide
      show max ip₀.din.size (off + tot) < 2 ^ 32
      omega
    · show ip.din.addr k < 2 ^ 32
      by_cases absent : ip.din.addr k = 0
      · rw [absent]
        decide
      · have ref : RefAt fs.blocks (fs.viewWith ip ip.inum) (if k < nDirect then .data k else .indirect) (ip.din.addr k) := by
          rw [State.viewWith_self]
          split
          · exact ⟨show k < maxFile by simp only [maxFile]; omega, absent, blockAt_of_direct _ _ ‹k < nDirect›⟩
          · exact ⟨trivial, absent, by rw [show k = nDirect by omega]; rfl⟩
        have := (written.sound.owned _ inode' _ _ ref).2.1
        exact lt_trans this laid'.fits
  have self : fs'.dinode ip.inum = { ip.din with size := max ip₀.din.size (off + tot) } :=
    iupdate_dinode_self stored grownFits
  have other : ∀ i, i ≠ ip.inum → fs'.dinode i = fs.dinode i := fun i ne => iupdate_dinode_other stored ne
  -- the file's blocks are data blocks, which `iupdate` does not write
  have sameMap : ∀ bn, blockAt fs'.blocks ip.din bn = blockAt fs.blocks ip.din bn := fun bn => by
    have := written.sound.blockAt_of_early w (by omega) inode' bn
    rwa [State.viewWith_self] at this
  have dataSame : ∀ p < max ip₀.din.size (off + tot), fs'.blocks (blockAt fs.blocks ip.din (p / bSize)) =
      fs.blocks (blockAt fs.blocks ip.din (p / bSize)) := fun p below => by
    obtain ⟨within, present⟩ := written.present p (Nat.zero_le _) (by omega)
    have ref : RefAt fs.blocks (fs.viewWith ip ip.inum) (.data (p / bSize))
        (blockAt fs.blocks ip.din (p / bSize)) := by
      rw [State.viewWith_self]
      exact ⟨within, present, rfl⟩
    have := (written.sound.owned _ inode' _ _ ref).1
    exact w.apply_of_ne (by omega)
  refine ⟨(written.sound.wrote_early w early).congr fun i inode s c => ?_, inum ▸ self,
    fun i inode ne => ⟨?_, fun s c ref => ?_⟩, fun p _ upper => ?_, fun p below => ?_⟩
  · by_cases own : i = ip.inum
    · rw [own, self, State.viewWith_self]
      exact Iff.rfl
    · rw [other i own, State.viewWith_of_ne _ _ own]
  · rw [other i (inum ▸ ne), written.dinode i inode]
  · have notIp : i ≠ ip.inum := by rw [inum]; exact ne
    have refFs : RefAt fs.blocks (fs.viewWith ip i) s c := by
      rw [State.viewWith_of_ne _ _ notIp, written.dinode i inode]
      exact (refAt_of_agree (written.others i inode ne) s c).mpr ref
    have := (written.sound.owned _ (by rw [sb]; exact inode) _ _ refFs).1
    rw [w.apply_of_ne (by omega), written.others i inode ne s c ref]
  · rw [sameMap]
    exact written.present p (Nat.zero_le _) (by omega)
  · unfold Fs.fileByte
    rw [sameMap, dataSame p below]

/-- What a `writei` of `m` bytes of `mem` from `src` at `off` leaves: the inode
on disk is the one returned, with the size grown to cover what was written; the
file system is sound; every other inode and file is as it was; and the file has
its blocks and holds the source's bytes over `[off, off + m)` and its old bytes
elsewhere. -/
structure Stored (mem : Mem) (fs : State) (ip : Inode) (src off m : Nat) (ip' : Inode) (fs' : State) : Prop where
  inum : ip'.inum = ip.inum
  size : ip'.din.size = max ip.din.size (off + m)
  shape : ip' = { ip with din := { ip.din with size := ip'.din.size, addrs := ip'.din.addrs } }
  sound : Sound fs' fs'.dinode
  synced : fs'.dinode ip.inum = ip'.din
  others : ∀ i < fs.sb.ninodes, i ≠ ip.inum → fs'.dinode i = fs.dinode i ∧ AgreeOn fs.blocks fs'.blocks (fs.dinode i)
  dense : Present fs'.blocks ip'.din 0 ip'.din.size
  content : ∀ p < ip'.din.size, fileByte fs'.blocks ip'.din p =
    if off ≤ p ∧ p < off + m then mem (src + (p - off)) else fileByte fs.blocks ip.din p
  sb : fs'.sb = fs.sb

/-- `writei`'s checks: an offset past the end, a `uint` overflow or a write past
`MAXFILE` blocks returns `-1` and changes nothing. -/
theorem writei_of_fail (copyin : Mem → Nat → Nat → Nat → Int × Mem) (fits : ip.din.size < 2 ^ 32)
    (small : n < 2 ^ 32) (fail : ¬ (off ≤ ip.din.size ∧ off + n ≤ maxFile * bSize)) :
    writei copyin fs ip src off n = .ok (-1, ip, fs) := by
  unfold writei
  by_cases past : off > ip.din.size ∨ (off + n) % 2 ^ 32 < off
  · rw [if_pos past]
  · rw [if_neg past, if_pos]
    -- with no wrap, `off + n` is its own remainder
    have wrapped : (off + n) % 2 ^ 32 = off + n := by
      by_contra wrap
      have := Nat.mod_add_div (off + n) (2 ^ 32)
      have : (off + n) / 2 ^ 32 = 1 := by omega
      omega
    omega

theorem writei_of_checks (copyin : Mem → Nat → Nat → Nat → Int × Mem) (within : off ≤ ip.din.size)
    (bound : off + n ≤ maxFile * bSize) :
    writei copyin fs ip src off n = (do
      let (tot, off, ip, fs) ← writeLoop copyin fs ip src off 0 n
      let ip := if off > ip.din.size then { ip with din := { ip.din with size := off } } else ip
      let fs ← iupdate fs ip
      return (tot, ip, fs)) := by
  have small : off + n < 2 ^ 32 := lt_of_le_of_lt bound (by decide)
  rw [writei, if_neg (by rw [Nat.mod_eq_of_lt small]; omega), if_neg (by rw [Nat.mod_eq_of_lt small]; omega)]

/-- `writei` copying `n` bytes from kernel memory, when its checks pass and it
does not panic: it wrote `m ≤ n` bytes, leaving `Stored`, and fewer than `n`
only with every block of the disk in use. -/
theorem writei_spec (s : Vm.Phys) (pagetable : Nat) (laid : fs.sb.Laid) (sound : Sound fs fs.dinode)
    (inode : ip.inum < fs.sb.ninodes) (synced : ip.din = fs.dinode ip.inum)
    (dense : Present fs.blocks ip.din 0 ip.din.size) (within : off ≤ ip.din.size)
    (bound : off + n ≤ maxFile * bSize) {r : Int}
    (ran : writei (Vm.eitherCopyin s pagetable false) fs ip src off n = .ok (r, ip', fs')) :
    ∃ m ≤ n, r = m ∧ Stored s.mem fs ip src off m ip' fs' ∧ (m < n → ∀ c < fs.sb.size, fs'.used c = true) := by
  have fits : ip.din.Fits := synced ▸ Dinode.read_fits _ _
  have view : fs.viewWith ip = fs.dinode := by
    rw [State.viewWith, synced, Function.update_eq_self]
  rw [writei_of_checks _ within bound] at ran
  obtain ⟨⟨tot, off', ip1, fs1⟩, looped, rest⟩ := Machine.bind_eq_ok ran
  have start : Written s.mem fs ip src off fs ip 0 := Written.start (view ▸ sound) within dense
  obtain ⟨written, reached, le, short⟩ :=
    writeLoop_written s pagetable laid inode bound fs ip 0 start (Nat.zero_le _) (by simpa using looped)
  subst reached
  have sameSize : ip1.din.size = ip.din.size := by rw [written.inode]
  -- the inode `writei` stores has the size grown to the end of the write
  have grown : (if off + tot > ip1.din.size then { ip1 with din := { ip1.din with size := off + tot } } else ip1) =
      { ip1 with din := { ip1.din with size := max ip.din.size (off + tot) } } := by
    rw [sameSize]
    split
    · rw [Nat.max_eq_right (by omega)]
    · rw [Nat.max_eq_left (by omega), ← sameSize]
  dsimp only at rest
  rw [grown] at rest
  obtain ⟨fs2, stored, done⟩ := Machine.bind_eq_ok rest
  simp only [Machine.pure_eq_ok, Except.ok.injEq, Prod.mk.injEq] at done
  obtain ⟨rfl, rfl, rfl⟩ := done
  obtain ⟨sound', self, others, present, bytes⟩ :=
    written.iupdate laid inode fits (by omega) stored
  refine ⟨tot, le, rfl, ⟨by rw [written.inum], by simp, by rw [written.inode], sound', self, others, present,
    fun p below => ?_, (iupdate_wrote stored).sb.trans written.sb⟩,
    fun less c inside => ?_⟩
  rotate_left
  · -- `iupdate` writes an inode block, before the bitmap
    have w := iupdate_wrote stored
    dsimp only at w
    have := bmapstart_le_bblock fs1.sb c
    have inode1 : ip1.inum < fs1.sb.ninodes := by rw [written.inum, written.sb]; exact inode
    have := (written.sb ▸ laid : fs1.sb.Laid).iblock_lt inode1
    rw [w.used (by omega)]
    exact short less c inside
  rw [show fileByte fs2.blocks { ip1.din with size := max ip.din.size (off + tot) } p =
    fileByte fs2.blocks ip1.din p from rfl, bytes p below]
  exact written.content p below

end Writei

section Writes

variable {fs : State} {ip : Inode}

/-- A `writei` from kernel memory over a sound file system, at any offset and
for any count, keeps block ownership sound with every inode read from disk,
stores the inode it returns, and leaves every other inode and the blocks of
every other file as they were. -/
theorem writei_keeps_block_ownership (s : Vm.Phys) (pagetable : Nat) (laid : fs.sb.Laid)
    (sound : Sound fs fs.dinode) (inode : ip.inum < fs.sb.ninodes) (synced : ip.din = fs.dinode ip.inum)
    (dense : Present fs.blocks ip.din 0 ip.din.size) (src off n : Nat) (small : n < 2 ^ 32) :
    match writei (Vm.eitherCopyin s pagetable false) fs ip src off n with
    | .ok (_, ip', fs') => Sound fs' fs'.dinode ∧ fs'.dinode ip.inum = ip'.din ∧
        ∀ i < fs.sb.ninodes, i ≠ ip.inum → fs'.dinode i = fs.dinode i ∧ AgreeOn fs.blocks fs'.blocks (fs.dinode i)
    | .error _ => True := by
  by_cases checks : off ≤ ip.din.size ∧ off + n ≤ maxFile * bSize
  · rcases ran : writei (Vm.eitherCopyin s pagetable false) fs ip src off n with _ | ⟨r, ip', fs'⟩
    · trivial
    · obtain ⟨m, -, -, stored, -⟩ := writei_spec s pagetable laid sound inode synced dense checks.1 checks.2 ran
      exact ⟨stored.sound, stored.synced, stored.others⟩
  · have fits : ip.din.size < 2 ^ 32 := synced ▸ (Dinode.read_fits _ _).size
    rw [writei_of_fail _ fits small checks]
    exact ⟨sound, synced.symm, fun i _ _ => ⟨rfl, fun _ _ _ => rfl⟩⟩

/-- A `writei` of `n` bytes from kernel memory at `src` to offset `off` of a
file, when it does not panic and returns `r ≥ 0`: the file's size grows to
cover `[off, off + r)`, `readi` at `off` returns exactly the `r` bytes written
and allocates nothing, every other byte below the new size is the file's old
byte, and `r < n` only when no block of the disk was free. -/
theorem writei_then_readi (s : Vm.Phys) (pagetable : Nat) (laid : fs.sb.Laid)
    (sound : Sound fs fs.dinode) (inode : ip.inum < fs.sb.ninodes) (synced : ip.din = fs.dinode ip.inum)
    (dense : Present fs.blocks ip.din 0 ip.din.size) (src off n : Nat) (small : n < 2 ^ 32) :
    match writei (Vm.eitherCopyin s pagetable false) fs ip src off n with
    | .ok (r, ip', fs') => 0 ≤ r →
        ip'.din.size = max ip.din.size (off + r.toNat) ∧
        (∀ dst, readi (fun _ _ => true) fs' ip' dst off r.toNat =
          .ok (r, (List.range r.toNat).map (fun i => s.mem (src + i)), ip', fs')) ∧
        (∀ p < ip'.din.size, (p < off ∨ off + r.toNat ≤ p) → fileByte fs'.blocks ip'.din p = fileByte fs.blocks ip.din p) ∧
        (r.toNat < n → ∀ c < fs.sb.size, fs'.used c = true)
    | .error _ => True := by
  by_cases checks : off ≤ ip.din.size ∧ off + n ≤ maxFile * bSize
  · rcases ran : writei (Vm.eitherCopyin s pagetable false) fs ip src off n with _ | ⟨r, ip', fs'⟩
    · trivial
    · obtain ⟨m, le, rfl, stored, short⟩ :=
        writei_spec s pagetable laid sound inode synced dense checks.1 checks.2 ran
      intro _
      simp only [Int.toNat_natCast]
      have size := stored.size
      have bytes : fileBytes fs'.blocks ip'.din off m = (List.range m).map fun i => s.mem (src + i) := by
        apply List.map_congr_left
        intro i member
        have below := List.mem_range.mp member
        rw [stored.content (off + i) (by omega), if_pos (by omega), Nat.add_sub_cancel_left]
      refine ⟨size, fun dst => ?_, fun p below outside => ?_, short⟩
      · have count : min m (ip'.din.size - off) = m := by omega
        have room : Present fs'.blocks ip'.din off (min m (ip'.din.size - off)) :=
          fun p lower upper => stored.dense p (Nat.zero_le _) (by omega)
        have limit : maxFile * bSize < 2 ^ 32 := by decide
        rw [readi_present dst off m (by omega) (by omega) room, count, bytes,
          show min (m : Int) ((ip'.din.size : Int) - off) = m by omega]
      · rw [stored.content p below, if_neg (by omega)]
  · have fits : ip.din.size < 2 ^ 32 := synced ▸ (Dinode.read_fits _ _).size
    rw [writei_of_fail _ fits small checks]
    intro negative
    exact absurd negative (by decide)

end Writes

section Blank

/-- The disk `mkfs` writes before its first file: its superblock, the bitmap
marking the blocks before the data, and every other block zero. -/
def blankFs (log : Logging.Log) : State where
  blocks := Function.update (fun _ => Mkfs.zeroes) Mkfs.sb.bmapstart (Mkfs.markUsed Mkfs.zeroes Mkfs.nMeta)
  sb := Mkfs.sb
  log := log

theorem Dinode.read_zero_addr (off k : Nat) : (Dinode.read Mkfs.zeroes off).addr k = 0 := by
  unfold Dinode.addr
  split
  · simp only [Dinode.read, Vector.getElem_ofFn]
    exact readLE_zero_mem _ _
  · rfl

theorem Dinode.read_zero_size (off : Nat) : (Dinode.read Mkfs.zeroes off).size = 0 :=
  readLE_zero_mem _ _

/-- A zeroed inode references no block. -/
theorem not_refAt_zero (disk : Disk) (off : Nat) (s : Slot) (b : Nat) :
    ¬ RefAt disk (Dinode.read Mkfs.zeroes off) s b :=
  not_refAt_of_addrs (Dinode.read_zero_addr off) s b

theorem mkfs_sb_laid : Mkfs.sb.Laid := ⟨by decide, by decide, by decide⟩

theorem blankFs_dinode (log : Logging.Log) {i : Nat} (inode : i < Mkfs.sb.ninodes) :
    (blankFs log).dinode i = Dinode.read Mkfs.zeroes (dinodeOffset i) := by
  have := mkfs_sb_laid.iblock_lt inode
  simp only [State.dinode, blankFs]
  rw [Function.update_of_ne (by omega)]

theorem blankFs_sound (log : Logging.Log) : Sound (blankFs log) (blankFs log).dinode := by
  have marked : ∀ b < 46, bit (Function.update (fun _ => Mkfs.zeroes) Mkfs.sb.bmapstart
      (Mkfs.markUsed Mkfs.zeroes Mkfs.nMeta) (bblock Mkfs.sb b)) (b % bpb) = true := by decide
  have start : Mkfs.sb.dataStart = 46 := by decide
  refine ⟨fun i inode s b ref => ?_, fun i inode _ _ s _ b ref _ => ?_, fun b early => ?_⟩
  · rw [blankFs_dinode log inode] at ref
    exact absurd ref (not_refAt_zero _ _ _ _)
  · rw [blankFs_dinode log inode] at ref
    exact absurd ref (not_refAt_zero _ _ _ _)
  · change b < Mkfs.sb.dataStart at early
    exact marked b (by omega)

/-- A log inside a transaction, with an empty header. -/
def blankLog : Logging.Log := ⟨2, 30, 1, false, ⟨0, fun _ => 0⟩⟩

/-- Inode 1 of the blank disk, loaded. -/
def blankIp : Inode := ⟨1, 1, true, (blankFs blankLog).dinode 1⟩

theorem blankIp_size : blankIp.din.size = 0 := by
  rw [blankIp, blankFs_dinode _ (by decide), Dinode.read_zero_size]

theorem writei_keeps_block_ownership_blank :
    Mkfs.sb.Laid ∧ Sound (blankFs blankLog) (blankFs blankLog).dinode ∧
      match writei (Vm.eitherCopyin ⟨fun _ => 7, [], 0⟩ 0 false) (blankFs blankLog) blankIp 0 0 1500 with
      | .ok (_, ip', fs') => Sound fs' fs'.dinode ∧ fs'.dinode 1 = ip'.din ∧
          ∀ i < Mkfs.sb.ninodes, i ≠ 1 → fs'.dinode i = (blankFs blankLog).dinode i ∧
            AgreeOn (blankFs blankLog).blocks fs'.blocks ((blankFs blankLog).dinode i)
      | .error _ => True :=
  ⟨mkfs_sb_laid, blankFs_sound _,
    writei_keeps_block_ownership _ 0 mkfs_sb_laid (blankFs_sound _) (by decide) rfl
      (fun p _ upper => absurd upper (by rw [blankIp_size]; omega)) 0 0 1500 (by decide)⟩

theorem writei_then_readi_blank :
    Mkfs.sb.Laid ∧ Sound (blankFs blankLog) (blankFs blankLog).dinode ∧
      match writei (Vm.eitherCopyin ⟨fun _ => 7, [], 0⟩ 0 false) (blankFs blankLog) blankIp 0 0 1500 with
      | .ok (r, ip', fs') => 0 ≤ r →
          ip'.din.size = max blankIp.din.size (0 + r.toNat) ∧
          (∀ dst, readi (fun _ _ => true) fs' ip' dst 0 r.toNat =
            .ok (r, (List.range r.toNat).map (fun _ => (7 : UInt8)), ip', fs')) ∧
          (∀ p < ip'.din.size, (p < 0 ∨ 0 + r.toNat ≤ p) →
            fileByte fs'.blocks ip'.din p = fileByte (blankFs blankLog).blocks blankIp.din p) ∧
          (r.toNat < 1500 → ∀ c < Mkfs.sb.size, fs'.used c = true)
      | .error _ => True :=
  ⟨mkfs_sb_laid, blankFs_sound _,
    writei_then_readi _ 0 mkfs_sb_laid (blankFs_sound _) (by decide) rfl
      (fun p _ upper => absurd upper (by rw [blankIp_size]; omega)) 0 0 1500 (by decide)⟩

end Blank

end Xv6.Fs
