import Xv6.Library.Bytes
import Xv6.Library.BlockDev
import Xv6.Log.Transaction

/-!
The on-disk side of `kernel/log.c`: what `commit` and `recover_from_log` write.
Every disk write of the kernel goes through `bwrite`, which `log.c` alone calls
and which writes one whole block and waits for it, so a run of the disk is the
list of `bwrite`s and a crash keeps a prefix of it. Blocks are byte memories;
a block's bytes past `BSIZE` are never read, so `memmove` of `BSIZE` bytes
replaces a block. `struct logheader` sits in block `log.start` as a
little-endian int `n` followed by the ints `block[0..LOGSIZE)`.

Reads inside `commit` and recovery see the disk as written so far, with one
exception: `write_log` copies the cached, pinned buffers of the logged blocks,
whose contents are the parameter `cache`.
-/

namespace Xv6.Logging

open Bytes BlockDev

abbrev Disk := Nat → Mem

/-- A 32-bit `int` read from little-endian bytes. -/
def readInt (m : Mem) (off : Nat) : Int :=
  if readLE m off 4 < 2 ^ 31 then readLE m off 4 else readLE m off 4 - 2 ^ 32

/-- `read_head`. Entries at or past `n` are never read. -/
def readHead (start : Nat) (d : Disk) : LogHeader :=
  { n := (readInt (d start) 0).toNat, block := fun i => readLE (d start) (4 + 4 * i) 4 }

/-- The loop of `write_head` storing `block[0..k)`. -/
def writeEntries (m : Mem) (block : Nat → Nat) : Nat → Mem
  | 0 => m
  | i + 1 => writeLE (writeEntries m block i) (4 + 4 * i) 4 (block i)

/-- The header block `write_head` writes: the block it reads with `n` and
`block[0..n)` stored over it. -/
def headBlock (old : Mem) (lh : LogHeader) : Mem :=
  writeEntries (writeLE old 0 4 lh.n) lh.block lh.n

/-- `write_head()` as one `bwrite` of block `log.start`. -/
def writeHead (start : Nat) (lh : LogHeader) (d : Disk) : Nat × Mem :=
  (start, headBlock (d start) lh)

/-- `write_log()`: the cached contents of each logged block, to its log slot. -/
def writeLog (start : Nat) (lh : LogHeader) (cache : Nat → Mem) : List (Nat × Mem) :=
  (List.range lh.n).map fun tail => (start + tail + 1, cache (lh.block tail))

/-- The `bwrite`s of `install_trans` for the entries `tails`, each copying the log
slot as it is on disk at that moment to the entry's home block. -/
def installTrans (start : Nat) (lh : LogHeader) (d : Disk) : List Nat → List (Nat × Mem)
  | [] => []
  | tail :: rest =>
      (lh.block tail, d (start + tail + 1)) ::
        installTrans start lh (Function.update d (lh.block tail) (d (start + tail + 1))) rest

/-- The `bwrite`s of `commit()` for the header `lh`. -/
def commit (start : Nat) (lh : LogHeader) (cache : Nat → Mem) (d : Disk) : List (Nat × Mem) :=
  if lh.n > 0 then
    let logged := writeLog start lh cache
    let head := writeHead start lh (apply d logged)
    let committed := apply d (logged ++ [head])
    let installed := installTrans start lh committed (List.range lh.n)
    logged ++ head :: installed ++ [writeHead start { lh with n := 0 } (apply committed installed)]
  else []

/-- The `bwrite`s of `recover_from_log()`. -/
def recoverFromLog (start : Nat) (d : Disk) : List (Nat × Mem) :=
  let lh := readHead start d
  let installed := installTrans start lh d (List.range lh.n)
  installed ++ [writeHead start { lh with n := 0 } (apply d installed)]

/-- Boots that crash inside `recover_from_log` after `cuts` writes, then one that
completes it. -/
def recoverAfter (start : Nat) (d : Disk) : List Nat → Disk
  | [] => apply d (recoverFromLog start d)
  | cut :: rest => recoverAfter start (apply d ((recoverFromLog start d).take cut)) rest

/-- Blocks outside the log region `[start, start + size)`. -/
def Home (start size b : Nat) : Prop := b < start ∨ start + size ≤ b

/-- What the header must satisfy for its replay to be meaningful; `log_write`
keeps `n ≤ min(LOGSIZE, log.size - 1)` and the entries distinct, the file
system logs only blocks outside the log, and block numbers are uints. -/
structure Logged (start size : Nat) (lh : LogHeader) : Prop where
  fits : lh.n + 1 ≤ size
  small : lh.n ≤ logSize
  home : ∀ i < lh.n, Home start size (lh.block i)
  distinct : ∀ i < lh.n, ∀ j < lh.n, lh.block i = lh.block j → i = j
  wide : ∀ i < lh.n, lh.block i < 2 ^ 32

section Absorb

theorem absorbIndex_le (lh : LogHeader) (b : Nat) : absorbIndex lh b ≤ lh.n := by
  unfold absorbIndex
  cases found : (List.range lh.n).find? (fun i => lh.block i = b) with
  | none => simp
  | some i =>
      have := List.mem_range.mp (List.mem_of_find?_eq_some found)
      simpa using this.le

theorem absorbIndex_found {lh : LogHeader} {b : Nat} (below : absorbIndex lh b < lh.n) :
    lh.block (absorbIndex lh b) = b := by
  unfold absorbIndex at below ⊢
  cases found : (List.range lh.n).find? (fun i => lh.block i = b) with
  | none =>
      rw [found] at below
      simp at below
  | some i => simpa using List.find?_some found

theorem absorbIndex_fresh {lh : LogHeader} {b : Nat} (last : absorbIndex lh b = lh.n) :
    ∀ i < lh.n, lh.block i ≠ b := by
  unfold absorbIndex at last
  cases found : (List.range lh.n).find? (fun i => lh.block i = b) with
  | none =>
      intro i below same
      have := List.find?_eq_none.mp found i (List.mem_range.mpr below)
      simp [same] at this
  | some i =>
      rw [found] at last
      have := List.mem_range.mp (List.mem_of_find?_eq_some found)
      simp at last
      omega

/-- The header of an empty transaction is replayable. -/
theorem Logged.empty {start size : Nat} (fits : 1 ≤ size) (block : Nat → Nat) :
    Logged start size ⟨0, block⟩ :=
  ⟨fits, Nat.zero_le _, fun _ below => absurd below (Nat.not_lt_zero _),
    fun _ below => absurd below (Nat.not_lt_zero _), fun _ below => absurd below (Nat.not_lt_zero _)⟩

/-- `log_write` of a block outside the log whose number fits a header entry
keeps the header replayable: a new block goes to the end, and a block already
in the transaction is absorbed into its entry. -/
theorem Logged.logWrite {start : Nat} {log log' : Log} (logged : Logged start log.size log.lh) {b : Nat}
    (home : Home start log.size b) (wide : b < 2 ^ 32) (ran : Logging.logWrite log b = .ok log') :
    Logged start log'.size log'.lh := by
  unfold Logging.logWrite at ran
  split at ran
  · cases ran
  rename_i room
  split at ran
  · cases ran
  have le := absorbIndex_le log.lh b
  dsimp only at ran
  split at ran
  · -- a block not yet in the transaction takes the next entry
    rename_i last
    cases ran
    have fresh := absorbIndex_fresh last
    have entry : ∀ i < log.lh.n + 1, Function.update log.lh.block (absorbIndex log.lh b) b i =
        if i = log.lh.n then b else log.lh.block i := by
      intro i _
      rw [Function.update_apply, last]
    refine ⟨by simp only; omega, by simp only; omega, fun i below => ?_, fun i below j below' same => ?_,
      fun i below => ?_⟩
    · simp only at below ⊢
      rw [entry i below]
      split
      · exact home
      · exact logged.home i (by omega)
    · simp only at below below' same
      rw [entry i below, entry j below'] at same
      split at same <;> split at same
      · omega
      · exact absurd same.symm (fresh j (by omega))
      · exact absurd same (fresh i (by omega))
      · exact logged.distinct i (by omega) j (by omega) same
    · simp only at below ⊢
      rw [entry i below]
      split
      · exact wide
      · exact logged.wide i (by omega)
  · -- a block already in the transaction: its entry is rewritten with itself
    rename_i absorbed
    cases ran
    have below : absorbIndex log.lh b < log.lh.n := by omega
    have same : Function.update log.lh.block (absorbIndex log.lh b) b = log.lh.block := by
      funext i
      rw [Function.update_apply]
      split
      · rename_i here
        rw [here, absorbIndex_found below]
      · rfl
    simpa only [same] using logged

theorem logWrite_size {log log' : Log} {b : Nat} (ran : Logging.logWrite log b = .ok log') :
    log'.size = log.size := by
  unfold Logging.logWrite at ran
  split at ran
  · cases ran
  split at ran
  · cases ran
  dsimp only at ran
  split at ran <;> cases ran <;> rfl

/-- What one step of the protocol does to the log: none changes its size,
`log_write` is the only step that adds to the header, and `commit` empties it. -/
theorem step_log {s s' : Sys} {e : Event} (stepped : Logging.step s e = some (.ok s')) :
    s'.log.size = s.log.size ∧
      (s'.log.lh = s.log.lh ∨ (∃ op b, e = .write op b ∧ Logging.logWrite s.log b = .ok s'.log) ∨
        e = .commit ∧ s'.log.lh.n = 0) := by
  cases e with
  | begin op =>
      simp only [Logging.step] at stepped
      split at stepped
      · cases stepped
      unfold beginOp at stepped
      split at stepped
      · cases stepped
      split at stepped
      · cases stepped
      cases stepped
      exact ⟨rfl, .inl rfl⟩
  | write op b =>
      simp only [Logging.step] at stepped
      split at stepped
      · cases written : Logging.logWrite s.log b with
        | error msg =>
            rw [written] at stepped
            cases stepped
        | ok log =>
            rw [written] at stepped
            cases stepped
            exact ⟨logWrite_size written, .inr (.inl ⟨op, b, rfl, written⟩)⟩
      · cases stepped
  | finish op =>
      simp only [Logging.step] at stepped
      split at stepped
      · unfold endOp at stepped
        dsimp only at stepped
        split at stepped
        · cases stepped
        split at stepped <;> cases stepped <;> exact ⟨rfl, .inl rfl⟩
      · cases stepped
  | commit =>
      simp only [Logging.step] at stepped
      split at stepped
      · cases stepped
        exact ⟨rfl, .inr (.inr ⟨rfl, rfl⟩)⟩
      · cases stepped

/-- Every step of the transaction protocol keeps the header replayable, when
the file system logs only blocks outside the log whose numbers fit an entry. -/
theorem Logged.step {start : Nat} {s s' : Sys} (logged : Logged start s.log.size s.log.lh) {e : Event}
    (homes : ∀ op b, e = .write op b → Home start s.log.size b ∧ b < 2 ^ 32)
    (stepped : Logging.step s e = some (.ok s')) : Logged start s'.log.size s'.log.lh := by
  obtain ⟨size, same | ⟨op, b, rfl, written⟩ | ⟨-, empty⟩⟩ := step_log stepped
  · rw [size, same]
    exact logged
  · obtain ⟨home, wide⟩ := homes op b rfl
    exact logged.logWrite home wide written
  · -- `commit` leaves an empty header
    have eta : s'.log.lh = ⟨0, s'.log.lh.block⟩ := by
      rw [← empty]
    rw [eta, size]
    exact Logged.empty (Nat.le_of_add_left_le logged.fits) _

/-- Over every interleaving of the transaction protocol from a replayable
header, in which the file system logs only blocks outside the log whose
numbers fit an entry, every header reached is replayable. -/
theorem log_headers_replayable {start : Nat} {s s' : Sys} (logged : Logged start s.log.size s.log.lh) {events : List Event}
    (homes : ∀ op b, Event.write op b ∈ events → Home start s.log.size b ∧ b < 2 ^ 32)
    (ran : Logging.run s events = some (.ok s')) : Logged start s'.log.size s'.log.lh := by
  induction events generalizing s with
  | nil =>
      cases ran
      exact logged
  | cons e rest ih =>
      simp only [Logging.run] at ran
      split at ran
      · cases ran
      · cases ran
      · rename_i next stepped
        have size : next.log.size = s.log.size := (step_log stepped).1
        refine ih (logged.step (fun op b same => homes op b (same ▸ .head _)) stepped) (fun op b member => ?_) ran
        rw [size]
        exact homes op b (.tail _ member)

/-- One operation that logs block 100 twice, absorbed into one entry, and then block 101. -/
def absorbedWrites : List Event := [.begin 0, .write 0 100, .write 0 100, .write 0 101]

def absorbedSys : Sys :=
  match Logging.run (booted 2) absorbedWrites with
  | some (.ok s) => s
  | _ => booted 2

theorem absorbedSys_run : Logging.run (booted 2) absorbedWrites = some (.ok absorbedSys) := by
  rfl

example : absorbedSys.log.lh.n = 2 := by
  decide

theorem log_headers_replayable_absorbed :
    Logged 2 (booted 2).log.size (booted 2).log.lh ∧
      (∀ op b, Event.write op b ∈ absorbedWrites → Home 2 (booted 2).log.size b ∧ b < 2 ^ 32) ∧
      Logged 2 absorbedSys.log.size absorbedSys.log.lh := by
  have empty : Logged 2 (booted 2).log.size (booted 2).log.lh := Logged.empty (by decide) _
  have homes : ∀ op b, Event.write op b ∈ absorbedWrites → Home 2 (booted 2).log.size b ∧ b < 2 ^ 32 := by
    intro op b member
    simp only [absorbedWrites, List.mem_cons, List.not_mem_nil, or_false, reduceCtorEq, false_or,
      Event.write.injEq] at member
    rcases member with ⟨-, rfl⟩ | ⟨-, rfl⟩ | ⟨-, rfl⟩ <;> exact ⟨.inr (by decide), by decide⟩
  exact ⟨empty, homes, log_headers_replayable empty homes absorbedSys_run⟩

end Absorb

/-- The disk with every block of the transaction replaced by its cached contents. -/
def installed (d : Disk) (lh : LogHeader) (cache : Nat → Mem) : Disk :=
  fun b => if (List.range lh.n).any (fun i => lh.block i = b) then cache b else d b

/-- What a home block holds once the log is replayed: a block the on-disk header
lists reads from its log slot. -/
def replayed (start : Nat) (d : Disk) (b : Nat) : Mem :=
  match (List.range (readHead start d).n).find? (fun i => (readHead start d).block i = b) with
  | some i => d (start + i + 1)
  | none => d b

section Header

theorem readLE_writeEntries (m : Mem) (block : Nat → Nat) (k i : Nat) :
    readLE (writeEntries m block k) (4 + 4 * i) 4 =
      if i < k then block i % 2 ^ 32 else readLE m (4 + 4 * i) 4 := by
  induction k with
  | zero => simp [writeEntries]
  | succ k ih =>
      rw [writeEntries]
      by_cases same : i = k
      · subst same
        rw [readLE_writeLE]
        simp
      · rw [readLE_writeLE_of_disjoint _ _ _ _ _ _ (by omega), ih]
        simp only [show i < k + 1 ↔ i < k by omega]

theorem readLE_writeEntries_count (m : Mem) (block : Nat → Nat) (k : Nat) :
    readLE (writeEntries m block k) 0 4 = readLE m 0 4 := by
  induction k with
  | zero => rfl
  | succ k ih => rw [writeEntries, readLE_writeLE_of_disjoint _ _ _ _ _ _ (by omega), ih]

/-- `read_head` returns the count `write_head` stored. -/
theorem readHead_count (start : Nat) (d : Disk) (old : Mem) (lh : LogHeader)
    (atStart : d start = headBlock old lh) (small : lh.n ≤ logSize) :
    (readHead start d).n = lh.n := by
  have stored : readLE (d start) 0 4 = lh.n := by
    rw [atStart, headBlock, readLE_writeEntries_count, readLE_writeLE_of_lt]
    unfold logSize maxOpBlocks at small
    omega
  have positive : readInt (d start) 0 = lh.n := by
    unfold readInt
    rw [stored, if_pos (by unfold logSize maxOpBlocks at small; omega)]
  simp [readHead, positive]

theorem readHead_block (start : Nat) (d : Disk) (old : Mem) (lh : LogHeader)
    (atStart : d start = headBlock old lh) (i : Nat) (listed : i < lh.n)
    (wide : lh.block i < 2 ^ 32) : (readHead start d).block i = lh.block i := by
  simp only [readHead, atStart, headBlock, readLE_writeEntries, if_pos listed]
  exact Nat.mod_eq_of_lt wide

theorem readHead_cleared (start : Nat) (d : Disk) (old : Mem) (lh : LogHeader)
    (atStart : d start = headBlock old { lh with n := 0 }) : (readHead start d).n = 0 :=
  readHead_count start d old { lh with n := 0 } atStart (Nat.zero_le _)

end Header

section Install

theorem installTrans_fst (start : Nat) (lh : LogHeader) (d : Disk) (tails : List Nat) :
    (installTrans start lh d tails).map Prod.fst = tails.map lh.block := by
  induction tails generalizing d with
  | nil => rfl
  | cons tail rest ih => simp [installTrans, ih]

theorem installTrans_take (start : Nat) (lh : LogHeader) (d : Disk) (tails : List Nat) (c : Nat) :
    (installTrans start lh d tails).take c = installTrans start lh d (tails.take c) := by
  induction tails generalizing d c with
  | nil => simp [installTrans]
  | cons tail rest ih =>
      cases c with
      | zero => rfl
      | succ c => simp [installTrans, ih]

theorem installTrans_writes (start : Nat) (lh : LogHeader) (d : Disk) (tails : List Nat)
    (w : Nat × Mem) (mem : w ∈ installTrans start lh d tails) : ∃ t ∈ tails, w.1 = lh.block t := by
  have named : w.1 ∈ (installTrans start lh d tails).map Prod.fst := List.mem_map_of_mem mem
  rw [installTrans_fst] at named
  obtain ⟨t, listed, same⟩ := List.mem_map.mp named
  exact ⟨t, listed, same.symm⟩

theorem slot_not_home {start size : Nat} {lh : LogHeader} (logged : Logged start size lh)
    {i b : Nat} (below : i < lh.n) (home : Home start size b) : start + i + 1 ≠ b := by
  have := logged.fits
  unfold Home at home
  omega

theorem apply_installTrans {start size : Nat} {lh : LogHeader} (logged : Logged start size lh)
    (d : Disk) (tails : List Nat) (below : ∀ t ∈ tails, t < lh.n) (nodup : tails.Nodup)
    (b : Nat) :
    apply d (installTrans start lh d tails) b =
      match tails.find? (fun i => lh.block i = b) with
      | some i => d (start + i + 1)
      | none => d b := by
  induction tails generalizing d with
  | nil => rfl
  | cons tail rest ih =>
      have tailBelow := below tail (.head _)
      have fresh : tail ∉ rest := (List.nodup_cons.mp nodup).1
      rw [installTrans, apply_cons,
        ih _ (fun t mem => below t (.tail _ mem)) (List.nodup_cons.mp nodup).2]
      by_cases hit : lh.block tail = b
      · have notLater : rest.find? (fun i => lh.block i = b) = none := by
          rw [List.find?_eq_none]
          intro i mem same
          have : i = tail := logged.distinct i (below i (.tail _ mem)) tail tailBelow
            (by simpa [hit] using same)
          exact fresh (this ▸ mem)
        simp [notLater, hit]
      · rw [List.find?_cons_of_neg (by simpa using hit)]
        split
        · rename_i i found
          have later := below i (.tail _ (List.mem_of_find?_eq_some found))
          have slotApart : lh.block tail ≠ start + i + 1 :=
            (slot_not_home logged later (logged.home tail tailBelow)).symm
          exact Function.update_of_ne slotApart.symm _ _
        · exact Function.update_of_ne (Ne.symm hit) _ _

theorem installTrans_keeps_head {start size : Nat} {lh : LogHeader} (logged : Logged start size lh)
    (d : Disk) (tails : List Nat) (below : ∀ t ∈ tails, t < lh.n) :
    apply d (installTrans start lh d tails) start = d start := by
  apply apply_of_unwritten
  intro w mem
  obtain ⟨t, listed, named⟩ := installTrans_writes start lh d tails w mem
  have home := logged.home t (below t listed)
  have := logged.fits
  unfold Home at home
  omega

theorem installTrans_keeps_slot {start size : Nat} {lh : LogHeader} (logged : Logged start size lh)
    (d : Disk) (tails : List Nat) (below : ∀ t ∈ tails, t < lh.n) (i : Nat) (slot : i < lh.n) :
    apply d (installTrans start lh d tails) (start + i + 1) = d (start + i + 1) := by
  apply apply_of_unwritten
  intro w mem
  obtain ⟨t, listed, named⟩ := installTrans_writes start lh d tails w mem
  rw [named]
  exact (slot_not_home logged slot (logged.home t (below t listed))).symm

end Install

section Recovery

theorem readHead_congr (start : Nat) {d d' : Disk} (same : d start = d' start) :
    readHead start d = readHead start d' := by
  simp [readHead, same]

theorem logged_empty {start size : Nat} {lh : LogHeader} (positive : 1 ≤ size) (empty : lh.n = 0) :
    Logged start size lh where
  fits := by omega
  small := by simp [empty]
  home := by simp [empty]
  distinct := by simp [empty]
  wide := by simp [empty]

theorem replayed_of_clean (start : Nat) (d : Disk) (b : Nat) (clean : (readHead start d).n = 0) :
    replayed start d b = d b := by
  simp [replayed, clean]

theorem replayed_installTrans {start size : Nat} (d : Disk)
    (logged : Logged start size (readHead start d)) (c : Nat) (within : c ≤ (readHead start d).n) :
    readHead start (apply d (installTrans start (readHead start d) d (List.range c))) =
        readHead start d ∧
      ∀ b, Home start size b →
        replayed start (apply d (installTrans start (readHead start d) d (List.range c))) b =
          replayed start d b := by
  have below : ∀ t ∈ List.range c, t < (readHead start d).n :=
    fun t mem => lt_of_lt_of_le (List.mem_range.mp mem) within
  have sameHead := readHead_congr start (installTrans_keeps_head logged d _ below)
  refine ⟨sameHead, fun b home => ?_⟩
  unfold replayed
  rw [sameHead]
  split
  · rename_i i found
    exact installTrans_keeps_slot logged d _ below i
      (List.mem_range.mp (List.mem_of_find?_eq_some found))
  · rename_i unlisted
    have notInstalled : (List.range c).find? (fun i => (readHead start d).block i = b) = none := by
      rw [List.find?_eq_none] at unlisted ⊢
      intro i mem
      exact unlisted i (List.mem_range.mpr (below i mem))
    rw [apply_installTrans logged d _ below List.nodup_range, notInstalled]

theorem recover_interrupted {start size : Nat} (d : Disk) (logged : Logged start size (readHead start d))
    (c : Nat) :
    Logged start size (readHead start (apply d ((recoverFromLog start d).take c))) ∧
      ∀ b, Home start size b →
        replayed start (apply d ((recoverFromLog start d).take c)) b = replayed start d b := by
  have below : ∀ t ∈ List.range (readHead start d).n, t < (readHead start d).n :=
    fun t mem => List.mem_range.mp mem
  have length : (installTrans start (readHead start d) d (List.range (readHead start d).n)).length =
      (readHead start d).n := by
    simpa using congrArg List.length
      (installTrans_fst start (readHead start d) d (List.range (readHead start d).n))
  unfold recoverFromLog
  rw [apply_take_append, length]
  split
  · rename_i within
    rw [installTrans_take, List.take_range, Nat.min_eq_left within]
    obtain ⟨sameHead, sameReplay⟩ := replayed_installTrans d logged c within
    exact ⟨by rw [sameHead]; exact logged, sameReplay⟩
  · rename_i beyond
    rw [List.take_of_length_le (by simp only [List.length_singleton]; omega)]
    set before := apply d (installTrans start (readHead start d) d
      (List.range (readHead start d).n)) with beforeDef
    have cleared : (readHead start (apply before [writeHead start
        { readHead start d with n := 0 } before])).n = 0 :=
      readHead_cleared start _ (before start) (readHead start d) (by simp [writeHead])
    refine ⟨logged_empty (by have := logged.fits; omega) cleared, fun b home => ?_⟩
    have notHead : b ≠ start := by have := logged.fits; unfold Home at home; omega
    rw [replayed_of_clean start _ b cleared, apply_cons, apply_nil]
    simp only [writeHead]
    rw [Function.update_of_ne notHead, beforeDef, apply_installTrans logged d _ below List.nodup_range]
    rfl

theorem recover_clears (start : Nat) (d : Disk) :
    (readHead start (apply d (recoverFromLog start d))).n = 0 := by
  unfold recoverFromLog
  rw [apply_append, apply_cons, apply_nil]
  exact readHead_cleared start _ _ (readHead start d) (Function.update_self _ _ _)

theorem recover_complete {start size : Nat} (d : Disk) (logged : Logged start size (readHead start d))
    (b : Nat) (home : Home start size b) :
    apply d (recoverFromLog start d) b = replayed start d b := by
  have whole := (recover_interrupted d logged (recoverFromLog start d).length).2 b home
  rw [List.take_length, replayed_of_clean start _ b (recover_clears start d)] at whole
  exact whole

theorem recoverAfter_home {start size : Nat} (cuts : List Nat) (d : Disk)
    (logged : Logged start size (readHead start d)) (b : Nat) (home : Home start size b) :
    recoverAfter start d cuts b = replayed start d b := by
  induction cuts generalizing d with
  | nil => exact recover_complete d logged b home
  | cons cut rest ih =>
      obtain ⟨stillLogged, sameReplay⟩ := recover_interrupted d logged cut
      rw [recoverAfter, ih _ stillLogged, sameReplay b home]

end Recovery

section Commit

theorem apply_slots (d : Disk) (start m i : Nat) (v : Nat → Mem) :
    apply d ((List.range m).map fun t => (start + t + 1, v t)) (start + i + 1) =
      if i < m then v i else d (start + i + 1) := by
  induction m with
  | zero => simp
  | succ m ih =>
      rw [List.range_succ, List.map_append, apply_append, List.map_singleton, apply_cons, apply_nil]
      by_cases same : i = m
      · subst same
        simp
      · rw [Function.update_of_ne (by omega), ih]
        simp only [show i < m + 1 ↔ i < m by omega]

theorem writeLog_writes (start : Nat) (lh : LogHeader) (cache : Nat → Mem) (w : Nat × Mem)
    (mem : w ∈ writeLog start lh cache) : ∃ t < lh.n, w.1 = start + t + 1 := by
  obtain ⟨t, listed, rfl⟩ := List.mem_map.mp mem
  exact ⟨t, List.mem_range.mp listed, rfl⟩

theorem logged_congr {start size : Nat} {lh lh' : LogHeader} (logged : Logged start size lh)
    (count : lh'.n = lh.n) (entries : ∀ i < lh.n, lh'.block i = lh.block i) :
    Logged start size lh' where
  fits := count ▸ logged.fits
  small := count ▸ logged.small
  home := fun i below => entries i (count ▸ below) ▸ logged.home i (count ▸ below)
  distinct := fun i hi j hj same => logged.distinct i (count ▸ hi) j (count ▸ hj)
    (by rw [← entries i (count ▸ hi), ← entries j (count ▸ hj), same])
  wide := fun i below => entries i (count ▸ below) ▸ logged.wide i (count ▸ below)

theorem installTrans_congr (start : Nat) {lh lh' : LogHeader} (d : Disk) (tails : List Nat)
    (entries : ∀ t ∈ tails, lh'.block t = lh.block t) :
    installTrans start lh' d tails = installTrans start lh d tails := by
  induction tails generalizing d with
  | nil => rfl
  | cons tail rest ih =>
      simp only [installTrans, entries tail (.head _)]
      rw [ih _ fun t mem => entries t (.tail _ mem)]

theorem find?_congr_below (n : Nat) (p q : Nat → Bool) (same : ∀ i < n, p i = q i) :
    (List.range n).find? p = (List.range n).find? q := by
  apply List.find?_congr
  intro i mem
  exact same i (List.mem_range.mp mem)

theorem writeLog_keeps {start size : Nat} {lh : LogHeader} (logged : Logged start size lh)
    (cache : Nat → Mem) (d : Disk) (k b : Nat) (notSlot : b = start ∨ Home start size b) :
    apply d ((writeLog start lh cache).take k) b = d b := by
  apply apply_of_unwritten
  intro w mem
  obtain ⟨t, below, named⟩ := writeLog_writes start lh cache w (List.mem_of_mem_take mem)
  have := logged.fits
  unfold Home at notSlot
  omega

theorem committed_replay {start size : Nat} {lh : LogHeader} (logged : Logged start size lh)
    (cache : Nat → Mem) (d : Disk) :
    let committed := apply d (writeLog start lh cache ++ [writeHead start lh (apply d (writeLog start lh cache))])
    Logged start size (readHead start committed) ∧
      (∀ i < lh.n, (readHead start committed).block i = lh.block i) ∧
      ∀ b, Home start size b → replayed start committed b = installed d lh cache b := by
  intro committed
  have atStart : committed start = headBlock (apply d (writeLog start lh cache) start) lh := by
    simp [committed, apply_append, writeHead]
  have count := readHead_count start committed _ lh atStart logged.small
  have entries : ∀ i < lh.n, (readHead start committed).block i = lh.block i :=
    fun i below => readHead_block start committed _ lh atStart i below (logged.wide i below)
  refine ⟨logged_congr logged count entries, entries, fun b home => ?_⟩
  have notHead : b ≠ start := by have := logged.fits; unfold Home at home; omega
  have slotValue : ∀ i < lh.n, committed (start + i + 1) = cache (lh.block i) := by
    intro i below
    simp only [committed, apply_append, apply_cons, apply_nil, writeHead]
    rw [Function.update_of_ne (by omega), writeLog, apply_slots, if_pos below]
  unfold replayed installed
  rw [count, find?_congr_below lh.n _ (fun i => decide (lh.block i = b))
    (fun i below => by rw [entries i below])]
  split
  · rename_i i found
    have listed := List.mem_range.mp (List.mem_of_find?_eq_some found)
    have named : lh.block i = b := by simpa using List.find?_some found
    have anyListed : (List.range lh.n).any (fun i => decide (lh.block i = b)) = true :=
      List.any_eq_true.mpr ⟨i, List.mem_range.mpr listed, by simp [named]⟩
    rw [slotValue i listed, named, if_pos anyListed]
  · rename_i unlisted
    have noneListed : (List.range lh.n).any (fun i => decide (lh.block i = b)) = false := by
      rw [List.any_eq_false]
      intro i mem
      simpa using List.find?_eq_none.mp unlisted i mem
    rw [if_neg (by simp [noneListed])]
    simp only [committed, apply_append, apply_cons, apply_nil, writeHead]
    rw [Function.update_of_ne notHead]
    simpa using writeLog_keeps logged cache d (writeLog start lh cache).length b (.inr home)

theorem commit_eq {start size : Nat} {lh : LogHeader} (logged : Logged start size lh)
    (cache : Nat → Mem) (d : Disk) (nonempty : 0 < lh.n) :
    commit start lh cache d =
      writeLog start lh cache ++ writeHead start lh (apply d (writeLog start lh cache)) ::
        recoverFromLog start (apply d (writeLog start lh cache ++
          [writeHead start lh (apply d (writeLog start lh cache))])) := by
  obtain ⟨_, entries, _⟩ := committed_replay logged cache d
  have atStart : apply d (writeLog start lh cache ++
      [writeHead start lh (apply d (writeLog start lh cache))]) start =
        headBlock (apply d (writeLog start lh cache) start) lh := by
    simp [apply_append, writeHead]
  have count := readHead_count start _ _ lh atStart logged.small
  unfold commit recoverFromLog
  dsimp only
  rw [if_pos nonempty, count, installTrans_congr start _ _
    (fun t mem => entries t (List.mem_range.mp mem))]
  simp only [List.cons_append, List.append_assoc]
  rfl

theorem commit_crash {start size : Nat} {lh : LogHeader} (logged : Logged start size lh)
    (cache : Nat → Mem) (d : Disk) (clean : (readHead start d).n = 0) (k : Nat) :
    Logged start size (readHead start (apply d ((commit start lh cache d).take k))) ∧
      ∀ b, Home start size b → replayed start (apply d ((commit start lh cache d).take k)) b =
        if k ≤ lh.n then d b else installed d lh cache b := by
  have positive : 1 ≤ size := by have := logged.fits; omega
  by_cases empty : lh.n = 0
  · have nothing : commit start lh cache d = [] := by simp [commit, empty]
    rw [nothing, List.take_nil, apply_nil]
    refine ⟨logged_empty positive clean, fun b home => ?_⟩
    rw [replayed_of_clean start d b clean]
    split
    · rfl
    · simp [installed, empty]
  · have length : (writeLog start lh cache).length = lh.n := by simp [writeLog]
    rw [commit_eq logged cache d (Nat.pos_of_ne_zero empty), apply_take_append, length]
    split
    · rename_i before
      have sameHead := readHead_congr start (writeLog_keeps logged cache d k start (.inl rfl))
      refine ⟨logged_empty positive (sameHead ▸ clean), fun b home => ?_⟩
      rw [replayed_of_clean start _ b (sameHead ▸ clean)]
      exact writeLog_keeps logged cache d k b (.inr home)
    · rename_i after
      obtain ⟨committedLogged, _, committedReplay⟩ := committed_replay logged cache d
      obtain ⟨j, past⟩ : ∃ j, k - lh.n = j + 1 := ⟨k - lh.n - 1, by omega⟩
      rw [past, List.take_succ_cons, apply_cons]
      rw [← apply_snoc]
      obtain ⟨stillLogged, sameReplay⟩ := recover_interrupted _ committedLogged j
      exact ⟨stillLogged, fun b home => (sameReplay b home).trans (committedReplay b home)⟩

theorem commit_complete {start size : Nat} {lh : LogHeader} (logged : Logged start size lh)
    (cache : Nat → Mem) (d : Disk) (clean : (readHead start d).n = 0) :
    (readHead start (apply d (commit start lh cache d))).n = 0 ∧
      ∀ b, Home start size b → apply d (commit start lh cache d) b = installed d lh cache b := by
  by_cases empty : lh.n = 0
  · have nothing : commit start lh cache d = [] := by simp [commit, empty]
    rw [nothing, apply_nil]
    exact ⟨clean, fun b _ => by simp [installed, empty]⟩
  · obtain ⟨committedLogged, _, committedReplay⟩ := committed_replay logged cache d
    rw [commit_eq logged cache d (Nat.pos_of_ne_zero empty), apply_append, apply_cons, ← apply_snoc]
    exact ⟨recover_clears start _,
      fun b home => (recover_complete _ committedLogged b home).trans (committedReplay b home)⟩

end Commit

/-- The disk after each transaction of `txs` commits in turn. -/
def commitAll (start : Nat) (d : Disk) : List (LogHeader × (Nat → Mem)) → Disk
  | [] => d
  | tx :: rest => commitAll start (apply d (commit start tx.1 tx.2 d)) rest

theorem commitAll_clean {start size : Nat} (d : Disk) (txs : List (LogHeader × (Nat → Mem)))
    (clean : (readHead start d).n = 0) (logged : ∀ tx ∈ txs, Logged start size tx.1) :
    (readHead start (commitAll start d txs)).n = 0 := by
  induction txs generalizing d with
  | nil => exact clean
  | cons tx rest ih =>
      exact ih _ (commit_complete (logged tx (.head _)) tx.2 d clean).1
        (fun tx' mem => logged tx' (.tail _ mem))

/-- Crash atomicity of the log. Take a disk whose on-disk header is clear, as
`mkfs`, every completed recovery and every completed commit leave it, and a
transaction whose header `log_write` built. Crash after any number of the
`bwrite`s of `commit`, then boot any number of times crashing inside
`recover_from_log`, then boot once more to the end of it: every block outside
the log holds its contents from before the transaction, or every one holds its
contents with the whole transaction installed. -/
theorem log_commit_crash_atomic (start size : Nat) (lh : LogHeader) (cache : Nat → Mem) (d : Disk)
    (clean : (readHead start d).n = 0) (logged : Logged start size lh) (k : Nat) (cuts : List Nat) :
    (∀ b, Home start size b →
        recoverAfter start (apply d ((commit start lh cache d).take k)) cuts b = d b) ∨
      (∀ b, Home start size b →
        recoverAfter start (apply d ((commit start lh cache d).take k)) cuts b =
          installed d lh cache b) := by
  obtain ⟨crashLogged, crashReplay⟩ := commit_crash logged cache d clean k
  by_cases early : k ≤ lh.n
  · left
    intro b home
    rw [recoverAfter_home cuts _ crashLogged b home, crashReplay b home, if_pos early]
  · right
    intro b home
    rw [recoverAfter_home cuts _ crashLogged b home, crashReplay b home, if_neg early]

/-- The log over whole runs. Boot on any disk and let `recover_from_log` finish, commit any
sequence of transactions, and crash anywhere inside the commit of one more; then
crash any number of times inside recovery before a boot completes it. The home
blocks are then either exactly as before that transaction or exactly as after
it: no proper part of it is ever visible. -/
theorem log_crash_atomic (start size : Nat) (d : Disk) (txs : List (LogHeader × (Nat → Mem))) (committed : ∀ tx ∈ txs, Logged start size tx.1)
    (lh : LogHeader) (cache : Nat → Mem) (logged : Logged start size lh) (k : Nat) (cuts : List Nat) :
    let before := commitAll start (apply d (recoverFromLog start d)) txs
    (∀ b, Home start size b →
        recoverAfter start (apply before ((commit start lh cache before).take k)) cuts b = before b) ∨
      (∀ b, Home start size b →
        recoverAfter start (apply before ((commit start lh cache before).take k)) cuts b =
          installed before lh cache b) := by
  intro before
  have clean : (readHead start before).n = 0 :=
    commitAll_clean _ txs (recover_clears start d) committed
  exact log_commit_crash_atomic start size lh cache before clean logged k cuts

/-- The log of the `mkfs` layout (`logstart = 2`, `nlog = LOGSIZE`) on a zeroed
disk: one block logged, a crash after the header write, one crash after the
first write of recovery. -/
theorem log_crash_atomic_one_block :
    let d : Disk := fun _ _ => 0
    let lh : LogHeader := ⟨1, fun _ => 100⟩
    let before := commitAll 2 (apply d (recoverFromLog 2 d)) []
    Logged 2 logSize lh ∧
      ((∀ b, Home 2 logSize b →
          recoverAfter 2 (apply before ((commit 2 lh (fun _ _ => 7) before).take 2)) [1] b =
            before b) ∨
        (∀ b, Home 2 logSize b →
          recoverAfter 2 (apply before ((commit 2 lh (fun _ _ => 7) before).take 2)) [1] b =
            installed before lh (fun _ _ => 7) b)) := by
  intro d lh before
  have logged : Logged 2 logSize lh :=
    { fits := by decide
      small := by decide
      home := fun i _ => by simp [Home, lh, logSize, maxOpBlocks]
      distinct := fun i hi j hj _ => by simp [lh] at hi hj; omega
      wide := fun i _ => by simp [lh] }
  exact ⟨logged, log_crash_atomic 2 logSize d [] (by simp) lh (fun _ _ => 7) logged 2 [1]⟩

end Xv6.Logging
