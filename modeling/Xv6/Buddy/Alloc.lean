import Mathlib
import Xv6.Library.Bytes
import Xv6.Library.Scan
import Xv6.Library.Machine

/-!
The buddy allocator of `kernel/buddy.c`, with the lists of `kernel/list.c`.
It manages `[bd_base, bd_base + HEAP_SIZE)`: at size `k` it sees `NBLK(k)`
blocks of `BLK_SIZE(k)` bytes, each with a bit in the size's `alloc` array
and, from size 1 on, one in its `split` array, and it keeps the free blocks of
each size on a circular list.

The bit arrays lie in memory one after another, behind the `bd_sizes` array,
so a bit index past the end of one array reads the next one: the model keeps
each array as its address in one memory `mem`, and `bit_isset(array, index)`
reads bit `index` counted from byte `array`. A free list is the list of the
block addresses on it, front first: `lst_push` adds at the front, `lst_pop`
takes the front, and `lst_remove(e)` unlinks `e` from whichever list it is on.
Addresses are at or above `bd_base` in every call the allocator makes, so the
`int` and pointer arithmetic is on naturals.
-/

namespace Xv6.Buddy

open Bytes Scan

/-- `LEAF_SIZE`. -/
def leafSize : Nat := 16

/-- `BLK_SIZE(k)`. -/
def blkSize (k : Nat) : Nat := 2 ^ k * leafSize

/-- `NBLK(k)`, with `MAXSIZE = nsizes - 1`. -/
def nblk (nsizes k : Nat) : Nat := 2 ^ (nsizes - 1 - k)

/-- `ROUNDUP(n, sz)`, for `n ≥ 1`. -/
def roundup (n sz : Nat) : Nat := ((n - 1) / sz + 1) * sz

/-- `struct sz_info`: the free list and the addresses of the two bit arrays. -/
structure SzInfo where
  free : List Nat
  alloc : Nat
  split : Nat

/-- The allocator's globals `nsizes`, `bd_base` and `bd_sizes`, and the memory
that holds the bit arrays. -/
structure State where
  nsizes : Nat
  base : Nat
  sizes : Nat → SzInfo
  mem : Mem

/-- `HEAP_SIZE`, that is `BLK_SIZE(MAXSIZE)`. -/
def State.heapSize (s : State) : Nat := blkSize (s.nsizes - 1)

section Bits

/-- `bit_isset(array, index)`. -/
def bitIsset (mem : Mem) (array index : Nat) : Bool := bit mem (8 * array + index)

/-- `bit_set(array, index)`. -/
def bitSet (mem : Mem) (array index : Nat) : Mem := setBit mem (8 * array + index)

/-- `bit_clear(array, index)`. -/
def bitClear (mem : Mem) (array index : Nat) : Mem := clearBit mem (8 * array + index)

/-- `bit_isset(bd_sizes[k].alloc, bi)`. -/
def isAlloc (s : State) (k bi : Nat) : Bool := bitIsset s.mem (s.sizes k).alloc bi

/-- `bit_isset(bd_sizes[k].split, bi)`. -/
def isSplit (s : State) (k bi : Nat) : Bool := bitIsset s.mem (s.sizes k).split bi

/-- `bit_set(bd_sizes[k].alloc, bi)`. -/
def setAlloc (s : State) (k bi : Nat) : State := { s with mem := bitSet s.mem (s.sizes k).alloc bi }

/-- `bit_clear(bd_sizes[k].alloc, bi)`. -/
def clearAlloc (s : State) (k bi : Nat) : State := { s with mem := bitClear s.mem (s.sizes k).alloc bi }

/-- `bit_set(bd_sizes[k].split, bi)`. -/
def setSplit (s : State) (k bi : Nat) : State := { s with mem := bitSet s.mem (s.sizes k).split bi }

/-- `bit_clear(bd_sizes[k].split, bi)`. -/
def clearSplit (s : State) (k bi : Nat) : State := { s with mem := bitClear s.mem (s.sizes k).split bi }

end Bits

section Lists

/-- `lst_push(&bd_sizes[k].free, p)`. -/
def lstPush (s : State) (k p : Nat) : State :=
  { s with sizes := Function.update s.sizes k { s.sizes k with free := p :: (s.sizes k).free } }

/-- `lst_pop(&bd_sizes[k].free)`. -/
def lstPop (s : State) (k : Nat) : Except String (Nat × State) :=
  match (s.sizes k).free with
  | [] => .error "lst_pop"
  | p :: rest => .ok (p, { s with sizes := Function.update s.sizes k { s.sizes k with free := rest } })

/-- `lst_remove(e)`: `e` leaves the list it is on. -/
def lstRemove (s : State) (e : Nat) : State :=
  { s with sizes := fun k => { s.sizes k with free := (s.sizes k).free.erase e } }

end Lists

section Index

/-- `blk_index(k, p)`. -/
def blkIndex (s : State) (k p : Nat) : Nat := (p - s.base) / blkSize k

/-- `addr(k, bi)`. -/
def addr (s : State) (k bi : Nat) : Nat := s.base + bi * blkSize k

/-- `blk_index_next(k, p)`: the first block at size `k` not containing `p`. -/
def blkIndexNext (s : State) (k p : Nat) : Nat :=
  if (p - s.base) % blkSize k ≠ 0 then (p - s.base) / blkSize k + 1 else (p - s.base) / blkSize k

/-- The loop of `_log2(n)`, `k` passes made. It halves `n` each pass, so it
makes fewer than `n` passes: `bound` starts at `n` and never runs out. -/
def log2Loop : (bound k n : Nat) → Nat
  | 0, k, _ => k
  | bound + 1, k, n => if n > 1 then log2Loop bound (k + 1) (n >>> 1) else k

/-- `_log2(n)`. -/
def log2 (n : Nat) : Nat := log2Loop n 0 n

/-- The loop of `firstk(n)`: `size` is a `uint64`, so it doubles modulo `2^64`.
`none` when the loop has not stopped within `fuel` passes. -/
def firstkLoop (n : Nat) : (fuel k size : Nat) → Option Nat
  | 0, _, _ => none
  | fuel + 1, k, size => if size < n then firstkLoop n fuel (k + 1) (size * 2 % 2 ^ 64) else some k

/-- `firstk(n)`, its loop given `fuel` passes. -/
def firstk (fuel n : Nat) : Option Nat := firstkLoop n fuel 0 leafSize

end Index

section Malloc

/-- The split loop of `bd_malloc`: block `p`, taken at size `k`, is split down
to size `fk`, each buddy going onto the free list one size below. -/
def splitDown (fk p : Nat) : (k : Nat) → State → State
  | 0, s => s
  | k + 1, s =>
      if fk < k + 1 then
        let q := p + blkSize k
        let s := setSplit s (k + 1) (blkIndex s (k + 1) p)
        let s := setAlloc s k (blkIndex s k p)
        splitDown fk p k (lstPush s k q)
      else s

/-- `bd_malloc` from the size `fk = firstk(nbytes)` on. -/
def mallocFrom (s : State) (fk : Nat) : Except String (Nat × State) :=
  match firstFrom (fun k => !(s.sizes k).free.isEmpty) s.nsizes fk with
  | none => .ok (0, s)
  | some k => do
      let (p, s) ← lstPop s k
      let s := setAlloc s k (blkIndex s k p)
      return (p, splitDown fk p k s)

/-- `bd_malloc(nbytes)`, `firstk`'s loop given `fuel` passes. -/
def bdMalloc (fuel : Nat) (s : State) (nbytes : Nat) : Option (Except String (Nat × State)) :=
  (firstk fuel nbytes).map (mallocFrom s)

end Malloc

section Free

/-- `size(p)`: the first `k` whose size-`k+1` block holding `p` is split. At
`k = nsizes - 1` the loop reads `bd_sizes[nsizes]`, past the array; the model
reads `sizes nsizes` there. -/
def size (s : State) (p : Nat) : Nat :=
  (firstFrom (fun k => isSplit s (k + 1) (blkIndex s (k + 1) p)) s.nsizes 0).getD 0

/-- The merge loop of `bd_free`: `p` is freed at size `k` and merged with its
buddy while that buddy is free and `k < MAXSIZE`. Returns the state, the block
and the size it is pushed at. -/
def mergeUp (s : State) (p k : Nat) : State × Nat × Nat :=
  if k < s.nsizes - 1 then
    let bi := blkIndex s k p
    let buddy := if bi % 2 = 0 then bi + 1 else bi - 1
    let s := clearAlloc s k bi
    if isAlloc s k buddy then (s, p, k)
    else
      let q := addr s k buddy
      let s := lstRemove s q
      let p := if buddy % 2 = 0 then q else p
      mergeUp (clearSplit s (k + 1) (blkIndex s (k + 1) p)) p (k + 1)
  else (s, p, k)
termination_by s.nsizes - 1 - k
decreasing_by
  simp only [clearSplit, lstRemove, clearAlloc]
  omega

/-- `bd_free(p)`. -/
def bdFree (s : State) (p : Nat) : State :=
  let (s, p, k) := mergeUp s p (size s p)
  lstPush s k p

end Free

section Init

/-- One block of `bd_mark`'s inner loop at size `k`. -/
def markBlock (k : Nat) (s : State) (bi : Nat) : State :=
  let s := if k > 0 then setSplit s k bi else s
  setAlloc s k bi

/-- `bd_mark(start, stop)`: at every size, the blocks from the one holding
`start` up to the first not holding `stop - 1` are marked allocated, and split
above size 0. -/
def bdMark (s : State) (start stop : Nat) : Except String State :=
  if start % leafSize ≠ 0 ∨ stop % leafSize ≠ 0 then .error "bd_mark"
  else .ok ((List.range s.nsizes).foldl (fun s k =>
    let bi := blkIndex s k start
    (List.range' bi (blkIndexNext s k stop - bi)).foldl (markBlock k) s) s)

/-- `bd_initfree_pair(k, bi)`: when exactly one of `bi` and its buddy is
allocated, the other goes onto the free list. Returns the bytes freed. -/
def initfreePair (s : State) (k bi : Nat) : Nat × State :=
  let buddy := if bi % 2 = 0 then bi + 1 else bi - 1
  if isAlloc s k bi ≠ isAlloc s k buddy then
    if isAlloc s k bi then (blkSize k, lstPush s k (addr s k buddy))
    else (blkSize k, lstPush s k (addr s k bi))
  else (0, s)

/-- `bd_initfree(bd_left, bd_right)`: the pairs at the two edges of every size
below `MAXSIZE`. -/
def initfree (s : State) (bdLeft bdRight : Nat) : Nat × State :=
  (List.range (s.nsizes - 1)).foldl (fun (free, s) k =>
    let left := blkIndexNext s k bdLeft
    let right := blkIndex s k bdRight
    let (f, s) := initfreePair s k left
    if right ≤ left then (free + f, s)
    else
      let (g, s) := initfreePair s k right
      (free + f + g, s)) (0, s)

/-- The bytes of one size's bit array, `ROUNDUP(NBLK(k), 8) / 8`. -/
def arrayBytes (nsizes k : Nat) : Nat := roundup (nblk nsizes k) 8 / 8

/-- The first loop of `bd_init`: size `k` gets an empty free list and a
cleared `alloc` array at `p`. -/
def layoutAlloc (nsizes : Nat) (start : Nat × (Nat → SzInfo) × Mem) : Nat × (Nat → SzInfo) × Mem :=
  (List.range nsizes).foldl (fun (p, sizes, mem) k =>
    let sz := arrayBytes nsizes k
    (p + sz, Function.update sizes k { sizes k with free := [], alloc := p }, fill mem p sz 0)) start

/-- The second loop of `bd_init`: size `k ≥ 1` gets a cleared `split` array at `p`. -/
def layoutSplit (nsizes : Nat) (start : Nat × (Nat → SzInfo) × Mem) : Nat × (Nat → SzInfo) × Mem :=
  (List.range' 1 (nsizes - 1)).foldl (fun (p, sizes, mem) k =>
    let sz := arrayBytes nsizes k
    (p + sz, Function.update sizes k { sizes k with split := p }, fill mem p sz 0)) start

/-- `sizeof(Sz_info)`: a `struct list` of two pointers, and two pointers. -/
def szInfoBytes : Nat := 32

/-- `bd_init(base, end)` up to its last check: the allocator, the bytes
`bd_initfree` put on the free lists, `meta` and `unavailable`. -/
def bdInitLists (mem : Mem) (base endAddr : Nat) : Except String (State × Nat × Nat × Nat) := do
  let p := roundup base leafSize
  let bdBase := p
  let nsizes := log2 ((endAddr - p) / leafSize) + 1
  let nsizes := if endAddr - p > blkSize (nsizes - 1) then nsizes + 1 else nsizes
  -- `bd_sizes` sits at `p`, cleared; the bit arrays follow it
  let mem := fill mem p (szInfoBytes * nsizes) 0
  let (p, sizes, mem) := layoutAlloc nsizes (p + szInfoBytes * nsizes, fun _ => ⟨[], 0, 0⟩, mem)
  let (p, sizes, mem) := layoutSplit nsizes (p, sizes, mem)
  let p := roundup p leafSize
  let s : State := { nsizes, base := bdBase, sizes, mem }
  -- `bd_mark_data_structures(p)`
  let metaBytes := p - bdBase
  let s ← bdMark s bdBase p
  -- `bd_mark_unavailable(end, p)`
  let unavailable := blkSize (nsizes - 1) - (endAddr - bdBase)
  let unavailable := if unavailable > 0 then roundup unavailable leafSize else unavailable
  let bdEnd := bdBase + blkSize (nsizes - 1) - unavailable
  let s ← bdMark s bdEnd (bdBase + blkSize (nsizes - 1))
  let (free, s) := initfree s p bdEnd
  return (s, free, metaBytes, unavailable)

/-- `bd_init(base, end)`. -/
def bdInit (mem : Mem) (base endAddr : Nat) : Except String State := do
  let (s, free, metaBytes, unavailable) ← bdInitLists mem base endAddr
  if free ≠ s.heapSize - metaBytes - unavailable then .error "bd_init: free mem"
  else return s

/-- `bd_init` panics when the bytes `bd_initfree` freed are not
`HEAP_SIZE - meta - unavailable`. -/
theorem bdInit_panics_of_lists {mem : Mem} {base endAddr free metaBytes unavailable : Nat} {s : State}
    (lists : bdInitLists mem base endAddr = .ok (s, free, metaBytes, unavailable))
    (miscounted : free ≠ s.heapSize - metaBytes - unavailable) :
    bdInit mem base endAddr = .error "bd_init: free mem" := by
  rw [bdInit, lists]
  simp only [bind, Except.bind]
  rw [if_pos miscounted]

/-- `bd_init(0x1000, 0x2000)` on cleared memory, a heap of exactly 4096 bytes,
so `bd_end` is the heap's end and `right` at size `k` is `NBLK(k)`, one past
the last block. `bd_initfree_pair(k, right)` reads the bits of blocks
`NBLK(k)` and `NBLK(k) + 1`, which lie in the next size's `alloc` array; at
sizes 4 and 5 they differ, and the blocks at `0x1000 + 4352` and
`0x1000 + 4608`, past the heap's end, go onto the free lists. 4464 bytes are
counted free where `HEAP_SIZE - meta - unavailable` is 3696, and `bd_init`
panics. -/
theorem exactHeap_frees_outside :
    ∃ s, bdInitLists (fun _ => 0) 0x1000 0x2000 = .ok (s, 4464, 400, 0) ∧
      s.heapSize = 4096 ∧ (s.sizes 4).free = [0x1000 + 4352] ∧
      (s.sizes 5).free = [0x1000 + 4608, 0x1000 + 512] ∧
      bdInit (fun _ => 0) 0x1000 0x2000 = .error "bd_init: free mem" := by
  have computed : (bdInitLists (fun _ => 0) 0x1000 0x2000).map
      (fun r => (r.1.nsizes, (r.1.sizes 4).free, (r.1.sizes 5).free, r.2)) =
        .ok (9, [0x1000 + 4352], [0x1000 + 4608, 0x1000 + 512], 4464, 400, 0) := by
    decide
  obtain ⟨⟨s, free, metaBytes, unavailable⟩, lists, read⟩ := Machine.map_eq_ok computed
  simp only [Prod.mk.injEq] at read
  obtain ⟨nsizes, free4, free5, rfl, rfl, rfl⟩ := read
  have heap : s.heapSize = 4096 := by
    rw [State.heapSize, nsizes]
    rfl
  exact ⟨s, lists, heap, free4, free5, bdInit_panics_of_lists lists (by rw [heap]; decide)⟩

set_option maxRecDepth 8000 in
/-- `bd_init(0x1008, 0x3010)` on cleared memory: `bd_base` is rounded up to
`0x1010`, and the 8192 bytes from there are again exactly `HEAP_SIZE`. The
right-hand pairs at sizes 5 and 6 read the bits of the next sizes' arrays,
and the blocks at `bd_base + 8704` and `bd_base + 9216`, past the heap's end,
go onto the free lists; 9200 bytes are counted free where the heap has 7664
past the metadata, and `bd_init` panics. -/
theorem powerHeap_frees_outside :
    ∃ s, bdInitLists (fun _ => 0) 0x1008 0x3010 = .ok (s, 9200, 528, 0) ∧
      s.heapSize = 8192 ∧ (s.sizes 5).free = [0x1010 + 8704] ∧
      (s.sizes 6).free = [0x1010 + 9216, 0x1010 + 1024] ∧
      bdInit (fun _ => 0) 0x1008 0x3010 = .error "bd_init: free mem" := by
  have computed : (bdInitLists (fun _ => 0) 0x1008 0x3010).map
      (fun r => (r.1.nsizes, (r.1.sizes 5).free, (r.1.sizes 6).free, r.2)) =
        .ok (10, [0x1010 + 8704], [0x1010 + 9216, 0x1010 + 1024], 9200, 528, 0) := by
    decide
  obtain ⟨⟨s, free, metaBytes, unavailable⟩, lists, read⟩ := Machine.map_eq_ok computed
  simp only [Prod.mk.injEq] at read
  obtain ⟨nsizes, free5, free6, rfl, rfl, rfl⟩ := read
  have heap : s.heapSize = 8192 := by
    rw [State.heapSize, nsizes]
    rfl
  exact ⟨s, lists, heap, free5, free6, bdInit_panics_of_lists lists (by rw [heap]; decide)⟩

end Init

/-! `firstk(n)` doubles a `uint64` from `LEAF_SIZE`: past `2^63` it wraps to 0
and stays there. For a request above `2^63` every size it reaches is below the
request, so the loop never stops, and `bd_malloc` hangs holding the lock. -/

section Firstk

/-- The sizes `firstk`'s loop can hold: 0, or a power of two up to `2^63`. -/
def Doubled (size : Nat) : Prop := size = 0 ∨ ∃ j ≤ 63, size = 2 ^ j

theorem doubled_leafSize : Doubled leafSize := Or.inr ⟨4, by decide, rfl⟩

theorem Doubled.step {size : Nat} (doubled : Doubled size) : Doubled (size * 2 % 2 ^ 64) := by
  rcases doubled with rfl | ⟨j, small, rfl⟩
  · exact Or.inl rfl
  · by_cases top : j = 63
    -- `2^63 * 2` wraps to 0
    · subst top
      exact Or.inl (by norm_num)
    · refine Or.inr ⟨j + 1, by omega, ?_⟩
      have fits : 2 ^ (j + 1) < 2 ^ 64 := Nat.pow_lt_pow_right (by decide) (by omega)
      rw [← pow_succ, Nat.mod_eq_of_lt fits]

theorem Doubled.lt {size n : Nat} (doubled : Doubled size) (huge : 2 ^ 63 < n) : size < n := by
  rcases doubled with rfl | ⟨j, small, rfl⟩
  · omega
  · exact Nat.lt_of_le_of_lt (Nat.pow_le_pow_right (by decide) small) huge

/-- Above `2^63`, `firstk`'s loop does not stop within any number of passes. -/
theorem firstkLoop_stuck {n : Nat} (huge : 2 ^ 63 < n) :
    ∀ (fuel k size : Nat), Doubled size → firstkLoop n fuel k size = none
  | 0, _, _, _ => rfl
  | fuel + 1, k, size, doubled => by
    rw [firstkLoop, if_pos (doubled.lt huge)]
    exact firstkLoop_stuck huge fuel (k + 1) _ doubled.step

theorem bdMalloc_hangs (s : State) {nbytes : Nat} (huge : 2 ^ 63 < nbytes) (fuel : Nat) :
    bdMalloc fuel s nbytes = none := by
  rw [bdMalloc, firstk, firstkLoop_stuck huge fuel 0 leafSize doubled_leafSize, Option.map_none]

theorem bdMalloc_hangs_max :
    2 ^ 63 < 2 ^ 64 - 1 ∧
      bdMalloc 4096 ⟨9, 0x1000, fun _ => ⟨[], 0, 0⟩, fun _ => 0⟩ (2 ^ 64 - 1) = none :=
  ⟨by decide, bdMalloc_hangs ⟨9, 0x1000, fun _ => ⟨[], 0, 0⟩, fun _ => 0⟩ (by decide) 4096⟩

end Firstk

end Xv6.Buddy
