import Mathlib
import Xv6.Buddy.Rep
import Xv6.Library.Dyadic

/-!
`bd_init` builds a represented tree whenever it does not panic.

Its two loops lay the `alloc` arrays of sizes `0 .. nsizes-1` and then the
`split` arrays of sizes `1 .. nsizes-1` end to end, each cleared, so the bits in
range are distinct and all clear (`bdLayout`). `bd_mark` then sets the bits of
every block that meets the metadata `[bd_base, p)` or the tail
`[bd_end, bd_base + HEAP_SIZE)` (`Marked`), and the tree reads off those marks:
a marked block is reserved at size 0 and split above it, an unmarked block with
a marked parent is free, and the rest are inside (`initTree`).

The free blocks are the dyadic pieces of `[p, bd_end)`: at each size at most
the left piece and the right piece. `bd_initfree` pushes them, but in two
cases it pushes more: the same block twice when the two pieces are one block,
and blocks read off bits past the end of an array when `bd_end` is the heap's
end. Every push counts its bytes, and the pieces alone add up to
`HEAP_SIZE - meta - unavailable`; so when `bd_init`'s check passes, nothing
more was pushed, and the lists hold exactly the free blocks.

The leaves outside `[p, bd_end)` are marked and so reserved, the metadata lies
below `p`, and `bd_end` is at most `end` (`bdInit_guarded`).
-/

namespace Xv6.Buddy

open Bytes DyadicCut

section Layout

/-- One pass of a loop that lays arrays end to end: size `k`'s array of
`width k` bytes goes at `p`, cleared, and `place` records it in `sizes k`. -/
def layStep (width : Nat → Nat) (place : SzInfo → Nat → SzInfo) (acc : Nat × (Nat → SzInfo) × Mem) (k : Nat) :
    Nat × (Nat → SzInfo) × Mem :=
  (acc.1 + width k, Function.update acc.2.1 k (place (acc.2.1 k) acc.1), fill acc.2.2 acc.1 (width k) 0)

theorem fill_zero_len (m : Mem) (p : Nat) : fill m p 0 0 = m := by
  funext i
  simp [fill]

theorem fill_fill (m : Mem) (p a b : Nat) : fill (fill m p a 0) (p + a) b 0 = fill m p (a + b) 0 := by
  funext i
  simp only [fill]
  split_ifs <;> first | rfl | omega

/-- The loop over sizes `a .. a+n-1`: the arrays lie end to end from `p`, the
whole stretch is cleared, and size `k`'s array starts after those of the sizes
before it. -/
theorem layStep_range' (width : Nat → Nat) (place : SzInfo → Nat → SzInfo) (a p : Nat) (sizes : Nat → SzInfo)
    (mem : Mem) :
    ∀ n, (List.range' a n).foldl (layStep width place) (p, sizes, mem) =
      (p + ∑ i ∈ Finset.range n, width (a + i),
        fun k => if a ≤ k ∧ k < a + n then place (sizes k) (p + ∑ i ∈ Finset.range (k - a), width (a + i))
          else sizes k,
        fill mem p (∑ i ∈ Finset.range n, width (a + i)) 0)
  | 0 => by
      refine Prod.ext (by simp) (Prod.ext (funext fun k => ?_) (by simp [fill_zero_len]))
      simp
  | n + 1 => by
      rw [List.range'_concat, List.foldl_append, layStep_range' width place a p sizes mem n]
      simp only [List.foldl_cons, List.foldl_nil, layStep, Finset.sum_range_succ]
      refine Prod.ext (by simp [Nat.add_assoc]) (Prod.ext ?_ (by simp [fill_fill]))
      funext k
      simp only [Function.update_apply]
      by_cases last : k = a + n
      · subst last
        simp
      · by_cases before : a ≤ k ∧ k < a + n
        · simp [last, before, show a ≤ k ∧ k < a + (n + 1) by omega]
        · simp [last, before, show ¬(a ≤ k ∧ k < a + (n + 1)) by omega]

/-- Array `m` of the stretch `bd_init` lays out: the `alloc` array of size `m`
for `m < N`, then the `split` array of size `m + 1 - N`. -/
def arrayWidth (N m : Nat) : Nat := arrayBytes N (if m < N then m else m + 1 - N)

/-- Where array `m` starts, the stretch starting at `S`. -/
def arrayAt (S N m : Nat) : Nat := S + ∑ i ∈ Finset.range m, arrayWidth N i

theorem arrayAt_succ (S N m : Nat) : arrayAt S N (m + 1) = arrayAt S N m + arrayWidth N m := by
  rw [arrayAt, arrayAt, Finset.sum_range_succ, Nat.add_assoc]

/-- The stretch past the `alloc` arrays: the `split` arrays of sizes `1 ..`. -/
theorem arrayAt_split (S N j : Nat) :
    arrayAt S N (N + j) = arrayAt S N N + ∑ i ∈ Finset.range j, arrayBytes N (1 + i) := by
  rw [arrayAt, arrayAt, Finset.sum_range_add, ← Nat.add_assoc]
  congr 1
  refine Finset.sum_congr rfl fun i _ => ?_
  simp only [arrayWidth, if_neg (show ¬(N + i < N) by omega)]
  congr 1
  omega

theorem arrayAt_alloc (S N : Nat) {k : Nat} (hk : k ≤ N) :
    arrayAt S N k = S + ∑ i ∈ Finset.range k, arrayBytes N i := by
  rw [arrayAt]
  congr 1
  refine Finset.sum_congr rfl fun i member => ?_
  simp only [arrayWidth, if_pos (show i < N by simp at member; omega)]

/-- The size table `bd_init`'s two loops leave, the arrays laid from `S`. -/
def laidSizes (S N k : Nat) : SzInfo :=
  if 0 < k ∧ k < N then ⟨[], arrayAt S N k, arrayAt S N (N + (k - 1))⟩
  else if k < N then ⟨[], arrayAt S N k, 0⟩ else ⟨[], 0, 0⟩

@[simp] theorem laidSizes_free (S N k : Nat) : (laidSizes S N k).free = [] := by
  unfold laidSizes
  split_ifs <;> rfl

theorem laidSizes_alloc (S N : Nat) {k : Nat} (hk : k < N) : (laidSizes S N k).alloc = arrayAt S N k := by
  unfold laidSizes
  split_ifs <;> rfl

theorem laidSizes_split (S N : Nat) {k : Nat} (pos : 0 < k) (hk : k < N) :
    (laidSizes S N k).split = arrayAt S N (N + (k - 1)) := by
  rw [laidSizes, if_pos ⟨pos, hk⟩]

/-- `bd_init`'s two loops: where the arrays go, and the memory they clear. -/
theorem bdLayout (N S : Nat) (mem : Mem) :
    layoutSplit N (layoutAlloc N (S, fun _ => ⟨[], 0, 0⟩, mem)) =
      (arrayAt S N (N + (N - 1)), laidSizes S N, fill mem S (arrayAt S N (N + (N - 1)) - S) 0) := by
  have alloc : layoutAlloc N (S, fun _ => ⟨[], 0, 0⟩, mem) =
      (List.range' 0 N).foldl (layStep (arrayBytes N) fun e p => { e with free := [], alloc := p })
        (S, fun _ => ⟨[], 0, 0⟩, mem) := by
    rw [layoutAlloc, List.range_eq_range']
    exact List.foldl_ext _ _ _ fun ⟨p, sizes, mem⟩ k _ => rfl
  have split : ∀ start, layoutSplit N start =
      (List.range' 1 (N - 1)).foldl (layStep (arrayBytes N) fun e p => { e with split := p }) start := fun start =>
    List.foldl_ext _ _ _ fun ⟨p, sizes, mem⟩ k _ => rfl
  rw [alloc, split, layStep_range', layStep_range']
  simp only [zero_add, Nat.sub_zero, fill_fill]
  have allocEnd : S + ∑ i ∈ Finset.range N, arrayBytes N i = arrayAt S N N := (arrayAt_alloc S N le_rfl).symm
  have whole : arrayAt S N N + ∑ i ∈ Finset.range (N - 1), arrayBytes N (1 + i) = arrayAt S N (N + (N - 1)) :=
    (arrayAt_split S N (N - 1)).symm
  refine Prod.ext ?_ (Prod.ext ?_ ?_)
  · simp only [allocEnd, whole]
  · funext k
    unfold laidSizes
    by_cases pos : 0 < k ∧ k < N
    · simp [pos, show 1 ≤ k ∧ k < 1 + (N - 1) by omega, arrayAt_alloc S N (show k ≤ N by omega), allocEnd,
        arrayAt_split S N (k - 1)]
    · by_cases low : k < N
      · obtain rfl : k = 0 := by omega
        simp [low, arrayAt_alloc S N low.le]
      · simp [low, show ¬(1 ≤ k ∧ k < 1 + (N - 1)) by omega]
  · have total : ∑ i ∈ Finset.range N, arrayBytes N i + ∑ i ∈ Finset.range (N - 1), arrayBytes N (1 + i) =
        arrayAt S N (N + (N - 1)) - S := by
      rw [← whole, ← allocEnd]
      omega
    rw [total]

end Layout

section Laid

/-- The allocator as `bd_init` has laid it out, before it marks a block: its
bit arrays apart and cleared, its free lists empty. -/
structure Laid (s : State) : Prop where
  layout : Layout s
  alloc : ∀ k < s.nsizes, ∀ bi < nblk s.nsizes k, isAlloc s k bi = false
  split : ∀ k < s.nsizes, 0 < k → ∀ bi < nblk s.nsizes k, isSplit s k bi = false
  empty : ∀ k, (s.sizes k).free = []

/-- `ROUNDUP(NBLK(k), 8) / 8` bytes hold a bit for every block. -/
theorem nblk_le_bits (N k : Nat) : nblk N k ≤ 8 * arrayBytes N k := by
  have pos : 0 < nblk N k := Nat.two_pow_pos _
  simp only [arrayBytes, roundup]
  omega

theorem arrayWidth_alloc {N k : Nat} (hk : k < N) : arrayWidth N k = arrayBytes N k := by
  rw [arrayWidth, if_pos hk]

theorem arrayWidth_split {N k : Nat} (pos : 0 < k) : arrayWidth N (N + (k - 1)) = arrayBytes N k := by
  rw [arrayWidth, if_neg (by omega)]
  congr 1
  omega

theorem arrayAt_inj {S N m m' i i' : Nat} (inside : i < 8 * arrayWidth N m) (inside' : i' < 8 * arrayWidth N m')
    (same : 8 * arrayAt S N m + i = 8 * arrayAt S N m' + i') : m = m' ∧ i = i' :=
  consecutive_inj (fun m => 8 * arrayAt S N m) (fun m => 8 * arrayWidth N m)
    (fun m => by rw [arrayAt_succ, Nat.mul_add]) inside inside' same

theorem bit_fill_zero (m : Mem) {off n i : Nat} (inside : off ≤ i / 8 ∧ i / 8 < off + n) :
    bit (fill m off n 0) i = false := by
  simp [bit, fill, inside]

theorem bit_laid (mem : Mem) {S N m i : Nat} (hm : m < N + (N - 1)) (inside : i < 8 * arrayWidth N m) :
    bit (fill mem S (arrayAt S N (N + (N - 1)) - S) 0) (8 * arrayAt S N m + i) = false := by
  have within : arrayAt S N (m + 1) ≤ arrayAt S N (N + (N - 1)) :=
    consecutive_mono (arrayAt S N) (arrayWidth N) (arrayAt_succ S N) hm
  have first : S ≤ arrayAt S N m := Nat.le_add_right S _
  rw [arrayAt_succ] at within
  apply bit_fill_zero
  omega

theorem laid (N B S : Nat) (mem : Mem) :
    Laid ⟨N, B, laidSizes S N, fill mem S (arrayAt S N (N + (N - 1)) - S) 0⟩ := by
  -- the alloc array of size `k` is array `k`, its split array is array `N + (k - 1)`
  have allocPos_at : ∀ {k bi} {m : Mem}, k < N → allocPos ⟨N, B, laidSizes S N, m⟩ k bi = 8 * arrayAt S N k + bi :=
    fun hk => by rw [allocPos, laidSizes_alloc S N hk]
  have splitPos_at : ∀ {k bi} {m : Mem}, 0 < k → k < N →
      splitPos ⟨N, B, laidSizes S N, m⟩ k bi = 8 * arrayAt S N (N + (k - 1)) + bi :=
    fun pos hk => by rw [splitPos, laidSizes_split S N pos hk]
  have allocFits : ∀ {k bi}, k < N → bi < nblk N k → bi < 8 * arrayWidth N k := fun {k _} hk range => by
    rw [arrayWidth_alloc hk]
    exact lt_of_lt_of_le range (nblk_le_bits N k)
  have splitFits : ∀ {k bi}, 0 < k → bi < nblk N k → bi < 8 * arrayWidth N (N + (k - 1)) := fun {k _} pos range => by
    rw [arrayWidth_split pos]
    exact lt_of_lt_of_le range (nblk_le_bits N k)
  refine ⟨⟨?_, ?_, ?_⟩, ?_, ?_, fun k => laidSizes_free S N k⟩
  · intro k k' bi bi' (hk : k < N) (hk' : k' < N) range range' same
    rw [allocPos_at hk, allocPos_at hk'] at same
    exact (arrayAt_inj (allocFits hk range) (allocFits hk' range') same).1
  · intro k k' bi bi' pos (hk : k < N) pos' (hk' : k' < N) range range' same
    rw [splitPos_at pos hk, splitPos_at pos' hk'] at same
    have := (arrayAt_inj (splitFits pos range) (splitFits pos' range') same).1
    omega
  · intro k k' bi bi' (hk : k < N) pos' (hk' : k' < N) range range' same
    rw [allocPos_at hk, splitPos_at pos' hk'] at same
    have := (arrayAt_inj (allocFits hk range) (splitFits pos' range') same).1
    omega
  · intro k (hk : k < N) bi range
    rw [isAlloc_eq, allocPos_at hk]
    exact bit_laid mem (by omega) (allocFits hk range)
  · intro k (hk : k < N) pos bi range
    rw [isSplit_eq, splitPos_at pos hk]
    exact bit_laid mem (by omega) (splitFits pos range)

end Laid

section Mark

/-- Bit `x` is one that marking block `bi` of size `k` sets: its `alloc` bit,
and above size 0 its `split` bit. -/
def MarkHits (s : State) (k bi x : Nat) : Prop := x = allocPos s k bi ∨ (0 < k ∧ x = splitPos s k bi)

theorem markHits_congr {s s' : State} (same : s'.sizes = s.sizes) {k bi x : Nat} :
    MarkHits s' k bi x ↔ MarkHits s k bi x := by
  simp only [MarkHits, allocPos, splitPos, same]

theorem markBlock_eq (k : Nat) (s : State) (bi : Nat) :
    markBlock k s bi = { s with
      mem := (if 0 < k then setBit (setBit s.mem (splitPos s k bi)) (allocPos s k bi)
        else setBit s.mem (allocPos s k bi)) } := by
  unfold markBlock
  split_ifs <;> rfl

theorem bit_markBlock (k : Nat) (s : State) (bi x : Nat) :
    bit (markBlock k s bi).mem x = true ↔ bit s.mem x = true ∨ MarkHits s k bi x := by
  rw [markBlock_eq, MarkHits]
  by_cases pos : 0 < k
  · simp only [pos, if_true, bit_setBit, Bool.or_eq_true, decide_eq_true_eq, true_and]
    constructor
    · rintro ((set | split) | alloc) <;> simp_all
    · rintro (set | alloc | split) <;> simp_all
  · simp only [pos, if_false, bit_setBit, Bool.or_eq_true, decide_eq_true_eq, false_and, or_false]
    constructor
    · rintro (set | alloc) <;> simp_all
    · rintro (set | alloc) <;> simp_all

/-- The inner loop of `bd_mark` over the blocks `bis` of size `k`: only bits
change, and a bit is set after it when it was before or one of the blocks
sets it. -/
theorem markBlocks (k : Nat) : ∀ (bis : List Nat) (s : State), ∃ mem',
    bis.foldl (markBlock k) s = { s with mem := mem' } ∧
      ∀ x, bit mem' x = true ↔ bit s.mem x = true ∨ ∃ bi ∈ bis, MarkHits s k bi x
  | [], s => ⟨s.mem, rfl, fun x => by simp⟩
  | bi :: bis, s => by
      obtain ⟨mem', run, bits⟩ := markBlocks k bis (markBlock k s bi)
      have sizes : (markBlock k s bi).sizes = s.sizes := by rw [markBlock_eq]
      refine ⟨mem', by rw [List.foldl_cons, run, markBlock_eq], fun x => ?_⟩
      simp only [bits, bit_markBlock, markHits_congr sizes, List.exists_mem_cons_iff, or_assoc]

/-- The outer loop of `bd_mark` over the sizes `ks`: only bits change, and a
bit is set after it when it was before or a block of one of the sizes, between
the one holding `start` and the first not holding `stop - 1`, sets it. The
blocks of each size are read off `bd_base`, which marking keeps. -/
theorem markSizes (start stop : Nat) : ∀ (ks : List Nat) (s : State), ∃ mem',
    ks.foldl (fun s k => (List.range' (blkIndex s k start) (blkIndexNext s k stop - blkIndex s k start)).foldl
      (markBlock k) s) s = { s with mem := mem' } ∧ ∀ x, bit mem' x = true ↔ bit s.mem x = true ∨
        ∃ k ∈ ks, ∃ bi ∈ List.range' (blkIndex s k start) (blkIndexNext s k stop - blkIndex s k start),
          MarkHits s k bi x
  | [], s => ⟨s.mem, rfl, fun x => by simp⟩
  | k :: ks, s => by
      obtain ⟨mem₁, run₁, bits₁⟩ := markBlocks k
        (List.range' (blkIndex s k start) (blkIndexNext s k stop - blkIndex s k start)) s
      obtain ⟨mem₂, run₂, bits₂⟩ := markSizes start stop ks { s with mem := mem₁ }
      refine ⟨mem₂, by rw [List.foldl_cons, run₁, run₂], fun x => ?_⟩
      simp only [bits₂, bits₁, markHits_congr (show ({ s with mem := mem₁ } : State).sizes = s.sizes from rfl),
        List.exists_mem_cons_iff, or_assoc]
      rfl

/-- `bd_mark(start, stop)` when it does not panic: only bits change, and a bit
is set after it when it was before or it is one of the bits of a block
between the one holding `start` and the first not holding `stop - 1`. -/
theorem bdMark_bits {s s' : State} {start stop : Nat} (marked : bdMark s start stop = .ok s') :
    ∃ mem', s' = { s with mem := mem' } ∧ ∀ x, bit mem' x = true ↔ bit s.mem x = true ∨
      ∃ k < s.nsizes, ∃ bi, blkIndex s k start ≤ bi ∧ bi < blkIndexNext s k stop ∧ MarkHits s k bi x := by
  unfold bdMark at marked
  split_ifs at marked
  obtain ⟨mem', run, bits⟩ := markSizes start stop (List.range s.nsizes) s
  refine ⟨mem', (Except.ok.inj marked).symm.trans run, fun x => ?_⟩
  simp only [bits, List.mem_range, List.mem_range'_1]
  constructor
  · rintro (set | ⟨k, hk, bi, ⟨lower, upper⟩, hit⟩)
    · exact .inl set
    · exact .inr ⟨k, hk, bi, lower, by omega, hit⟩
  · rintro (set | ⟨k, hk, bi, lower, upper, hit⟩)
    · exact .inl set
    · exact .inr ⟨k, hk, bi, ⟨lower, by omega⟩, hit⟩

theorem bdMark_nsizes {s s' : State} {start stop : Nat} (marked : bdMark s start stop = .ok s') :
    s'.nsizes = s.nsizes := by
  obtain ⟨mem', rfl, -⟩ := bdMark_bits marked
  rfl

theorem bdMark_base {s s' : State} {start stop : Nat} (marked : bdMark s start stop = .ok s') :
    s'.base = s.base := by
  obtain ⟨mem', rfl, -⟩ := bdMark_bits marked
  rfl

theorem bdMark_sizes {s s' : State} {start stop : Nat} (marked : bdMark s start stop = .ok s') :
    s'.sizes = s.sizes := by
  obtain ⟨mem', rfl, -⟩ := bdMark_bits marked
  rfl

theorem blkIndex_base (s : State) (k : Nat) : blkIndex s k s.base = 0 := by
  simp [blkIndex]

theorem blkIndexNext_eq (s : State) (k p : Nat) :
    blkIndexNext s k p = (p - s.base + blkSize k - 1) / blkSize k :=
  ceil_eq (p - s.base) (blkSize_pos k)

theorem nblk_mul_blkSize {N k : Nat} (hk : k < N) : nblk N k * blkSize k = blkSize (N - 1) := by
  have whole := blkSize_add k (N - 1 - k)
  rw [show k + (N - 1 - k) = N - 1 by omega] at whole
  rw [whole, nblk, Nat.mul_comm]

theorem blkIndexNext_top (s : State) {k : Nat} (hk : k < s.nsizes) :
    blkIndexNext s k (s.base + s.heapSize) = nblk s.nsizes k := by
  rw [blkIndexNext, State.heapSize, Nat.add_sub_cancel_left, ← nblk_mul_blkSize hk]
  simp [Nat.mul_div_cancel _ (blkSize_pos k)]

theorem Layout.markHits_inj {s : State} (layout : Layout s) {k k' bi bi' x : Nat} (hk : k < s.nsizes)
    (hk' : k' < s.nsizes) (range : bi < nblk s.nsizes k) (range' : bi' < nblk s.nsizes k')
    (own : MarkHits s k bi x) (other : MarkHits s k' bi' x) : k' = k ∧ bi' = bi := by
  rcases own with rfl | ⟨pos, rfl⟩ <;> rcases other with same | ⟨pos', same⟩
  · exact ((layout.allocPos_eq_iff hk hk' range range').mp same).imp Eq.symm Eq.symm
  · exact absurd same (layout.apart hk pos' hk' range range')
  · exact absurd same.symm (layout.apart hk' pos hk range' range)
  · exact ((layout.splitPos_eq_iff hk hk' range range' pos pos').mp same).imp Eq.symm Eq.symm

theorem before_left_of_overflow {s : State} {P k k' bi bi' : Nat} (hk : k < s.nsizes) (hk' : k' < s.nsizes)
    (range : bi < nblk s.nsizes k) (beyond : nblk s.nsizes k' ≤ bi') (upper : bi' < blkIndexNext s k' P) :
    bi < blkIndexNext s k P := by
  rw [blkIndexNext_eq] at upper ⊢
  have heap : nblk s.nsizes k' * blkSize k' < P - s.base := (lt_ceil_iff (blkSize_pos k')).mp (by omega)
  rw [nblk_mul_blkSize hk', ← nblk_mul_blkSize hk] at heap
  exact lt_trans range ((lt_ceil_iff (blkSize_pos k)).mpr heap)

end Mark

section Marked

/-- Block `bi` lies before `left` or at or past `right`. With `left` the first
block clear of the metadata and `right` the block holding `bd_end`, these are
the blocks `bd_init` marks. -/
def Marked (left right bi : Nat) : Prop := bi < left ∨ right ≤ bi

instance (left right bi : Nat) : Decidable (Marked left right bi) := inferInstanceAs (Decidable (_ ∨ _))

/-- A leaf that starts before `p` or ends past `bd_end` is marked. -/
theorem marked_leaf (s : State) {P E b : Nat} (outside : addr s 0 b < P ∨ E < addr s 0 b + blkSize 0) :
    Marked (blkIndexNext s 0 P) (blkIndex s 0 E) b := by
  have pos := blkSize_pos 0
  rw [Marked, blkIndexNext_eq, blkIndex]
  rw [addr] at outside
  rcases outside with before | past
  · exact .inl ((lt_ceil_iff pos).mpr (by omega))
  · exact .inr (Nat.lt_succ_iff.mp ((Nat.div_lt_iff_lt_mul pos).mpr (by rw [Nat.succ_mul]; omega)))

/-- `bd_init`'s two calls of `bd_mark`, `[bd_base, p)` and then
`[bd_end, bd_base + HEAP_SIZE)`: only bits change, and a bit of a block in
range is set exactly when the block is marked. Marks past the end of an array
happen only when the metadata outgrows the heap, and then every block is
marked anyway. -/
theorem marked_bits {s₁ s₂ s₃ : State} {P E : Nat} (laid : Laid s₁)
    (first : bdMark s₁ s₁.base P = .ok s₂) (second : bdMark s₂ E (s₁.base + s₁.heapSize) = .ok s₃) :
    ∃ mem', s₃ = { s₁ with mem := mem' } ∧ ∀ k < s₁.nsizes, ∀ bi < nblk s₁.nsizes k, ∀ x, MarkHits s₁ k bi x →
      (bit mem' x = true ↔ Marked (blkIndexNext s₁ k P) (blkIndex s₁ k E) bi) := by
  obtain ⟨mem₂, rfl, bits₂⟩ := bdMark_bits first
  obtain ⟨mem₃, rfl, bits₃⟩ := bdMark_bits second
  refine ⟨mem₃, rfl, fun k hk bi range x own => ?_⟩
  have clear : bit s₁.mem x = false := by
    rcases own with rfl | ⟨pos, rfl⟩
    · exact laid.alloc k hk bi range
    · exact laid.split k hk pos bi range
  -- the second call sees the sizes, `bd_base` and `nsizes` of the first
  have same : ({ s₁ with mem := mem₂ } : State).sizes = s₁.sizes := rfl
  have top : ∀ {j}, j < s₁.nsizes →
      blkIndexNext ({ s₁ with mem := mem₂ } : State) j (s₁.base + s₁.heapSize) = nblk s₁.nsizes j :=
    fun hj => blkIndexNext_top _ hj
  simp only [bits₃, bits₂, clear, markHits_congr same, Bool.false_eq_true, false_or]
  constructor
  · rintro (⟨k', hk', bi', -, upper, hit⟩ | ⟨k', hk', bi', lower, upper, hit⟩)
    · by_cases inside : bi' < nblk s₁.nsizes k'
      · obtain ⟨rfl, rfl⟩ := laid.layout.markHits_inj hk hk' range inside own hit
        exact .inl upper
      · exact .inl (before_left_of_overflow hk hk' range (not_lt.mp inside) upper)
    · have inside : bi' < nblk s₁.nsizes k' := by rwa [top hk'] at upper
      obtain ⟨rfl, rfl⟩ := laid.layout.markHits_inj hk hk' range inside own hit
      exact .inr lower
  · rintro (before | past)
    · exact .inl ⟨k, hk, bi, by rw [blkIndex_base]; omega, before, own⟩
    · exact .inr ⟨k, hk, bi, past, by rw [top hk]; exact range, own⟩

end Marked

section Initfree

/-- The allocator with size `k`'s free list replaced by `lists k`, at every size. -/
def State.withLists (s : State) (lists : Nat → List Nat) : State :=
  { s with sizes := fun k => { s.sizes k with free := lists k } }

/-- What `bd_initfree_pair(k, bi)` puts on size `k`'s list: whichever of `bi`
and its buddy is clear, when exactly one of them is allocated. -/
def pairFree (s : State) (k bi : Nat) : List Nat :=
  if isAlloc s k bi ≠ isAlloc s k (buddy bi) then
    [if isAlloc s k bi then addr s k (buddy bi) else addr s k bi]
  else []

/-- What `bd_initfree` pushes at size `k`, front first: the pair at `right`,
pushed last, and only when `right` lies past `left`. -/
def levelFree (s : State) (k left right : Nat) : List Nat :=
  (if right ≤ left then [] else pairFree s k right) ++ pairFree s k left

/-- One pass of `bd_initfree`'s loop, at size `k`. -/
def initfreeStep (bdLeft bdRight : Nat) (acc : Nat × State) (k : Nat) : Nat × State :=
  let left := blkIndexNext acc.2 k bdLeft
  let right := blkIndex acc.2 k bdRight
  let (f, s) := initfreePair acc.2 k left
  if right ≤ left then (acc.1 + f, s)
  else
    let (g, s) := initfreePair s k right
    (acc.1 + f + g, s)

theorem initfree_eq_foldl (s : State) (bdLeft bdRight : Nat) :
    initfree s bdLeft bdRight = (List.range (s.nsizes - 1)).foldl (initfreeStep bdLeft bdRight) (0, s) :=
  List.foldl_ext _ _ _ fun ⟨_, _⟩ _ _ => rfl

variable {s : State} {lists : Nat → List Nat}

@[simp] theorem withLists_nsizes : (s.withLists lists).nsizes = s.nsizes := rfl
@[simp] theorem withLists_base : (s.withLists lists).base = s.base := rfl
@[simp] theorem withLists_mem : (s.withLists lists).mem = s.mem := rfl
@[simp] theorem withLists_alloc (k : Nat) : ((s.withLists lists).sizes k).alloc = (s.sizes k).alloc := rfl
@[simp] theorem withLists_split (k : Nat) : ((s.withLists lists).sizes k).split = (s.sizes k).split := rfl
@[simp] theorem withLists_free (k : Nat) : ((s.withLists lists).sizes k).free = lists k := rfl
@[simp] theorem withLists_blkIndex (k p : Nat) : blkIndex (s.withLists lists) k p = blkIndex s k p := rfl
@[simp] theorem withLists_blkIndexNext (k p : Nat) : blkIndexNext (s.withLists lists) k p = blkIndexNext s k p :=
  rfl
@[simp] theorem withLists_addr (k bi : Nat) : addr (s.withLists lists) k bi = addr s k bi := rfl
@[simp] theorem pairFree_withLists (k bi : Nat) : pairFree (s.withLists lists) k bi = pairFree s k bi := rfl

theorem withLists_self : s.withLists (fun k => (s.sizes k).free) = s := rfl

theorem withFree_withLists (k : Nat) (l : List Nat) :
    (s.withLists lists).withFree k l = s.withLists (Function.update lists k l) := by
  simp only [State.withFree, State.withLists]
  congr 1
  funext j
  by_cases here : j = k
  · subst here
    simp
  · simp [here]

theorem initfreePair_withLists (k bi : Nat) :
    initfreePair (s.withLists lists) k bi =
      (blkSize k * (pairFree s k bi).length, s.withLists (Function.update lists k (pairFree s k bi ++ lists k))) := by
  rw [← @pairFree_withLists s lists k bi]
  unfold initfreePair pairFree buddy
  split_ifs <;> simp_all [lstPush_eq, withFree_withLists]

theorem initfreeStep_withLists (bdLeft bdRight free k : Nat) :
    initfreeStep bdLeft bdRight (free, s.withLists lists) k =
      (free + blkSize k * (levelFree s k (blkIndexNext s k bdLeft) (blkIndex s k bdRight)).length,
        s.withLists (Function.update lists k
          (levelFree s k (blkIndexNext s k bdLeft) (blkIndex s k bdRight) ++ lists k))) := by
  simp only [initfreeStep, withLists_blkIndexNext, withLists_blkIndex, initfreePair_withLists]
  split_ifs with skip
  · simp [levelFree, skip]
  · simp only [levelFree, skip, if_false, Function.update_idem, Function.update_self,
      List.length_append, List.append_assoc, Nat.mul_add]
    refine Prod.ext ?_ rfl
    ring

/-- `bd_initfree`'s loop over the sizes below `n`: each pushes its
`levelFree`, and the bytes counted are those of the blocks pushed. -/
theorem initfree_range (s : State) (bdLeft bdRight : Nat) : ∀ n,
    (List.range n).foldl (initfreeStep bdLeft bdRight) (0, s) =
      (∑ k ∈ Finset.range n, blkSize k * (levelFree s k (blkIndexNext s k bdLeft) (blkIndex s k bdRight)).length,
        s.withLists fun k =>
          if k < n then levelFree s k (blkIndexNext s k bdLeft) (blkIndex s k bdRight) ++ (s.sizes k).free
          else (s.sizes k).free)
  | 0 => by simp [withLists_self]
  | n + 1 => by
      rw [List.range_succ, List.foldl_append, initfree_range s bdLeft bdRight n, List.foldl_cons, List.foldl_nil,
        initfreeStep_withLists, Finset.sum_range_succ]
      congr 2
      funext k
      by_cases here : k = n
      · subst here
        simp
      · by_cases below : k < n
        · simp [here, below, show k < n + 1 by omega]
        · simp [here, below, show ¬(k < n + 1) by omega]

theorem initfree_eq (s : State) (bdLeft bdRight : Nat) :
    initfree s bdLeft bdRight =
      (∑ k ∈ Finset.range (s.nsizes - 1),
          blkSize k * (levelFree s k (blkIndexNext s k bdLeft) (blkIndex s k bdRight)).length,
        s.withLists fun k =>
          if k < s.nsizes - 1 then levelFree s k (blkIndexNext s k bdLeft) (blkIndex s k bdRight) ++ (s.sizes k).free
          else (s.sizes k).free) := by
  rw [initfree_eq_foldl, initfree_range]

end Initfree

section Level

/-- The free blocks of size `k` when the blocks before `left` and from `right`
on are marked: the block at `left` when `left` is odd, and the block before
`right` when `right` is odd, front first as `bd_initfree` pushes them. -/
def edgeFree (s : State) (k left right : Nat) : List Nat :=
  (if left < right ∧ right % 2 = 1 then [addr s k (right - 1)] else []) ++
    (if left < right ∧ left % 2 = 1 then [addr s k left] else [])

theorem edgeFree_length (s : State) (k left right : Nat) : (edgeFree s k left right).length = edges left right := by
  unfold edgeFree edges
  split_ifs <;> simp <;> omega

theorem edgeFree_nodup (s : State) (k left right : Nat) : (edgeFree s k left right).Nodup := by
  unfold edgeFree
  split_ifs with atRight atLeft <;> simp
  -- the two edge pieces differ: `left` is odd and so is `right`, the block after `right - 1`
  intro same
  have := addr_inj s same
  omega

/-- The edge pieces are the clear blocks whose parent is marked. -/
theorem mem_edgeFree (s : State) {k left right n : Nat} (fits : right ≤ n) (a : Nat) :
    a ∈ edgeFree s k left right ↔
      ∃ bi < n, (¬Marked left right bi ∧ Marked ((left + 1) / 2) (right / 2) (bi / 2)) ∧ a = addr s k bi := by
  unfold edgeFree Marked
  constructor
  · intro member
    simp only [List.mem_append, List.mem_ite_nil_right, List.mem_singleton] at member
    rcases member with ⟨⟨lower, odd⟩, rfl⟩ | ⟨⟨lower, odd⟩, rfl⟩
    · exact ⟨right - 1, by omega, by omega, rfl⟩
    · exact ⟨left, by omega, by omega, rfl⟩
  · rintro ⟨bi, -, edge, rfl⟩
    -- a clear block with a marked parent is the first or the last clear block, and odd there
    have which : (left < right ∧ right % 2 = 1 ∧ bi = right - 1) ∨ (left < right ∧ left % 2 = 1 ∧ bi = left) := by
      omega
    rcases which with ⟨lower, odd, rfl⟩ | ⟨lower, odd, rfl⟩
    · simp [lower, odd]
    · simp [lower, odd]

variable {s : State} {k left right : Nat}
  (bits : ∀ bi < nblk s.nsizes k, isAlloc s k bi = decide (Marked left right bi)) (below : k + 1 < s.nsizes)
include bits below

theorem pairFree_in {bi : Nat} (range : bi < nblk s.nsizes k) :
    pairFree s k bi =
      if ¬Marked left right bi ∧ Marked left right (buddy bi) then [addr s k bi]
      else if Marked left right bi ∧ ¬Marked left right (buddy bi) then [addr s k (buddy bi)] else [] := by
  have range' : buddy bi < nblk s.nsizes k := @buddy_lt (s.nsizes - 1) k bi (by omega) range
  unfold pairFree
  rw [bits bi range, bits (buddy bi) range']
  by_cases marked : Marked left right bi <;> by_cases marked' : Marked left right (buddy bi) <;> simp [marked, marked']

/-- The pair at `left`, in range: the block at `left` is pushed when it is the
first clear block and its buddy before it is marked, or when it is the only
clear block and its buddy after it is marked. -/
theorem pairFree_left (inside : left < nblk s.nsizes k) :
    pairFree s k left =
      if (left % 2 = 1 ∧ left < right) ∨ (left % 2 = 0 ∧ right = left + 1) then [addr s k left] else [] := by
  rw [pairFree_in bits below inside]
  unfold buddy Marked
  split_ifs <;> first | rfl | omega

theorem pairFree_right (lower : left < right) (inside : right < nblk s.nsizes k) :
    pairFree s k right = if right % 2 = 1 then [addr s k (right - 1)] else [] := by
  rw [pairFree_in bits below inside]
  unfold buddy Marked
  split_ifs <;> first | rfl | omega

/-- `bd_initfree` pushes the edge pieces of size `k`, after blocks of its own:
the block at `left` a second time when `right = left + 1` with `left` even, and
whatever the bits past the end of the array make it push when `left` or
`right` lies there. -/
theorem levelFree_eq (fits : right ≤ nblk s.nsizes k) :
    ∃ extra, levelFree s k left right = extra ++ edgeFree s k left right := by
  have even : nblk s.nsizes k % 2 = 0 := by
    rw [nblk_succ below]
    omega
  by_cases inside : left < nblk s.nsizes k
  · have leftPair := pairFree_left bits below inside
    by_cases skip : right ≤ left
    · refine ⟨[], ?_⟩
      simp [levelFree, skip, leftPair, edgeFree, show ¬(left < right) by omega,
        show ¬(left % 2 = 0 ∧ right = left + 1) by omega]
    · rcases Nat.lt_or_ge right (nblk s.nsizes k) with rightInside | rightTop
      · have rightPair := pairFree_right bits below (by omega) rightInside
        by_cases twice : left % 2 = 0 ∧ right = left + 1
        · obtain ⟨evenLeft, rfl⟩ := twice
          refine ⟨[addr s k left], ?_⟩
          simp [levelFree, leftPair, rightPair, edgeFree, evenLeft, Nat.add_mod]
        · refine ⟨[], ?_⟩
          simp only [levelFree, skip, if_false, leftPair, rightPair, edgeFree, twice, or_false,
            show left < right by omega, true_and, and_true, List.nil_append]
      · -- `right` is `NBLK(k)`: its pair lies past the end of the array
        refine ⟨pairFree s k right, ?_⟩
        simp [levelFree, skip, leftPair, edgeFree, show left < right by omega, show right % 2 = 0 by omega,
          show ¬(left % 2 = 0 ∧ right = left + 1) by omega]
  · -- `left` lies past the end of the array, and no block of size `k` is clear
    refine ⟨pairFree s k left, ?_⟩
    simp [levelFree, show right ≤ left by omega, edgeFree, show ¬(left < right) by omega]

theorem edges_le_levelFree (fits : right ≤ nblk s.nsizes k) : edges left right ≤ (levelFree s k left right).length := by
  obtain ⟨extra, pushed⟩ := levelFree_eq bits below fits
  rw [pushed, List.length_append, edgeFree_length]
  omega

theorem levelFree_of_length (fits : right ≤ nblk s.nsizes k)
    (exact : (levelFree s k left right).length = edges left right) :
    levelFree s k left right = edgeFree s k left right := by
  obtain ⟨extra, pushed⟩ := levelFree_eq bits below fits
  rw [pushed, List.length_append, edgeFree_length] at exact
  rw [pushed, List.eq_nil_of_length_eq_zero (by omega : extra.length = 0), List.nil_append]

end Level

section Count

theorem blkIndexNext_succ (s : State) (k p : Nat) : blkIndexNext s (k + 1) p = (blkIndexNext s k p + 1) / 2 := by
  rw [blkIndexNext_eq, blkIndexNext_eq, ceil_halve _ (blkSize_pos k), blkSize_add k 1, pow_one]

theorem blkIndex_succ (s : State) (k p : Nat) : blkIndex s (k + 1) p = blkIndex s k p / 2 := by
  rw [blkIndex, blkIndex, blkSize_add k 1, pow_one, Nat.div_div_eq_div_mul]

theorem blkIndexNext_pos (s : State) {p : Nat} (metaFirst : s.base < p) (k : Nat) : 0 < blkIndexNext s k p := by
  rw [blkIndexNext_eq]
  exact (lt_ceil_iff (blkSize_pos k)).mpr (by omega)

theorem blkIndex_le_nblk (s : State) {e k : Nat} (fits : e - s.base ≤ s.heapSize) (hk : k < s.nsizes) :
    blkIndex s k e ≤ nblk s.nsizes k := by
  rw [blkIndex, State.heapSize, ← nblk_mul_blkSize hk] at *
  exact Nat.div_le_of_le_mul (by rw [Nat.mul_comm]; exact fits)

theorem edges_sum (s : State) {p e : Nat} (hN : 0 < s.nsizes) (metaFirst : s.base < p)
    (meta16 : (p - s.base) % leafSize = 0) (tail16 : (e - s.base) % leafSize = 0) (fits : e - s.base ≤ s.heapSize) :
    ∑ k ∈ Finset.range (s.nsizes - 1), blkSize k * edges (blkIndexNext s k p) (blkIndex s k e) =
      (e - s.base) - (p - s.base) := by
  have telescope := edges_telescope (fun k => blkIndexNext s k p) (fun k => blkIndex s k e)
    (fun k => blkIndexNext_succ s k p) (fun k => blkIndex_succ s k e) (s.nsizes - 1)
  -- at `MAXSIZE` the root meets the metadata, and no span is left over
  have top : blkIndex s (s.nsizes - 1) e ≤ blkIndexNext s (s.nsizes - 1) p := by
    have one : blkIndex s (s.nsizes - 1) e ≤ 1 := by
      simpa [nblk] using blkIndex_le_nblk s fits (show s.nsizes - 1 < s.nsizes by omega)
    have pos := blkIndexNext_pos s metaFirst (s.nsizes - 1)
    omega
  simp only [Nat.sub_eq_zero_of_le top, mul_zero, add_zero] at telescope
  have units : ∀ k, blkSize k * edges (blkIndexNext s k p) (blkIndex s k e) =
      leafSize * (2 ^ k * edges (blkIndexNext s k p) (blkIndex s k e)) := fun k => by
    rw [blkSize]
    ring
  rw [Finset.sum_congr rfl fun k _ => units k, ← Finset.mul_sum, telescope]
  simp only [blkIndexNext_eq, blkIndex, blkSize, pow_zero, one_mul, leafSize] at meta16 tail16 ⊢
  omega

end Count

section Tree

/-- The tree `bd_init` leaves when the blocks before `left k` and from
`right k` on are marked at each size `k`: a marked block is reserved at size 0
and split above it, a clear block with a marked parent is free, and the rest
lie inside free blocks. -/
def initTree (left right : Nat → Nat) : Tree := fun k bi =>
  if Marked (left k) (right k) bi then (if k = 0 then .reserved else .split)
  else if Marked (left (k + 1)) (right (k + 1)) (bi / 2) then .free else .inside

variable {left right : Nat → Nat} {k bi : Nat}

theorem initTree_taken : (initTree left right k bi).taken = decide (Marked (left k) (right k) bi) := by
  unfold initTree
  split_ifs <;> simp_all [Status.taken]

theorem initTree_split (pos : 0 < k) : initTree left right k bi = .split ↔ Marked (left k) (right k) bi := by
  unfold initTree
  split_ifs <;> simp_all

theorem initTree_free :
    initTree left right k bi = .free ↔
      ¬Marked (left k) (right k) bi ∧ Marked (left (k + 1)) (right (k + 1)) (bi / 2) := by
  unfold initTree
  split_ifs <;> simp_all

theorem initTree_ne_held (k bi : Nat) : initTree left right k bi ≠ .held := by
  unfold initTree
  split_ifs <;> simp

theorem initTree_reserved (marked : Marked (left 0) (right 0) bi) : initTree left right 0 bi = .reserved := by
  unfold initTree
  rw [if_pos marked, if_pos rfl]

variable (up : ∀ k, left (k + 1) = (left k + 1) / 2) (down : ∀ k, right (k + 1) = right k / 2)
include up down

/-- The parent of a marked block is marked. -/
theorem marked_parent (marked : Marked (left k) (right k) bi) : Marked (left (k + 1)) (right (k + 1)) (bi / 2) := by
  unfold Marked at *
  rw [up, down]
  omega

theorem initTree_shaped {top : Nat} (root : 0 < left top) : Shaped top (initTree left right) := by
  constructor
  · unfold initTree
    rw [if_pos (.inl root)]
    split_ifs <;> simp
  · intro k _ bi _
    have up' := @marked_parent left right k bi up down
    unfold initTree
    split_ifs <;> simp_all

end Tree

section Build

variable {s : State} {P E : Nat}

/-- `bd_initfree` after the marks: when the bytes it counts are those of
`[p, bd_end)`, each size below `MAXSIZE` got exactly its edge pieces, and the
allocator represents the tree of marked, free and inside blocks. -/
theorem rep_of_marked (layout : Layout s) (hN : 0 < s.nsizes) (empty : ∀ k, (s.sizes k).free = [])
    (alloc : ∀ k < s.nsizes, ∀ bi < nblk s.nsizes k,
      isAlloc s k bi = decide (Marked (blkIndexNext s k P) (blkIndex s k E) bi))
    (split : ∀ k < s.nsizes, 0 < k → ∀ bi < nblk s.nsizes k,
      isSplit s k bi = decide (Marked (blkIndexNext s k P) (blkIndex s k E) bi))
    (metaFirst : s.base < P) (meta16 : (P - s.base) % leafSize = 0) (tail16 : (E - s.base) % leafSize = 0)
    (fits : E - s.base ≤ s.heapSize) (counted : (initfree s P E).1 = (E - s.base) - (P - s.base)) :
    Rep (initfree s P E).2 (initTree (fun k => blkIndexNext s k P) (fun k => blkIndex s k E)) := by
  -- the count forces each size to have pushed its edge pieces and nothing more
  have exact : ∀ k < s.nsizes - 1, levelFree s k (blkIndexNext s k P) (blkIndex s k E) =
      edgeFree s k (blkIndexNext s k P) (blkIndex s k E) := by
    have le : ∀ k ∈ Finset.range (s.nsizes - 1), blkSize k * edges (blkIndexNext s k P) (blkIndex s k E) ≤
        blkSize k * (levelFree s k (blkIndexNext s k P) (blkIndex s k E)).length := fun k member => by
      have hk := Finset.mem_range.mp member
      exact Nat.mul_le_mul_left _
        (edges_le_levelFree (alloc k (by omega)) (by omega) (blkIndex_le_nblk s fits (by omega)))
    rw [initfree_eq, ← edges_sum s hN metaFirst meta16 tail16 fits] at counted
    have each := (Finset.sum_eq_sum_iff_of_le le).mp counted.symm
    intro k hk
    exact levelFree_of_length (alloc k (by omega)) (by omega) (blkIndex_le_nblk s fits (by omega))
      (Nat.eq_of_mul_eq_mul_left (blkSize_pos k) (each k (Finset.mem_range.mpr hk))).symm
  have up := fun k => blkIndexNext_succ s k P
  have down := fun k => blkIndex_succ s k E
  rw [initfree_eq]
  refine ⟨layout.congr rfl fun k => ⟨rfl, rfl⟩, initTree_shaped up down (blkIndexNext_pos s metaFirst _), ?_,
    ⟨?_, ?_⟩, ⟨?_, ?_⟩⟩
  · simp [initTree, Marked, blkIndexNext_pos s metaFirst 0]
  · intro k hk bi range
    rw [initTree_taken]
    exact alloc k hk bi range
  · intro k hk pos bi range
    exact (split k hk pos bi range).trans
      (decide_eq_decide.mpr (@initTree_split (fun k => blkIndexNext s k P) (fun k => blkIndex s k E) k bi pos).symm)
  · intro k hk
    simp only [withLists_free, empty, List.append_nil]
    split_ifs with below
    · rw [exact k below]
      exact edgeFree_nodup s k _ _
    · exact List.nodup_nil
  · intro k hk a
    simp only [withLists_free, withLists_nsizes, withLists_addr, empty, List.append_nil, initTree_free, up, down]
    split_ifs with below
    · rw [exact k below, mem_edgeFree s (blkIndex_le_nblk s fits hk)]
    · -- the only block of size `MAXSIZE` is the root, which meets the metadata
      have root : nblk s.nsizes k = 1 := by simp [nblk, show s.nsizes - 1 - k = 0 by omega]
      have marked := blkIndexNext_pos s metaFirst k
      simp only [List.not_mem_nil, false_iff, root]
      rintro ⟨bi, range, ⟨clear, -⟩, -⟩
      exact clear (.inl (by omega))

/-- `bd_init` from the laid allocator on: when both marks go through and the
bytes counted are those of `[p, bd_end)`, the allocator represents a tree with
no held block, in which every leaf outside `[p, bd_end)` is reserved. -/
theorem rep_of_laid {s₁ s₂ s₃ : State} (laid : Laid s₁) (hN : 0 < s₁.nsizes) (metaFirst : s₁.base < P)
    (meta16 : (P - s₁.base) % leafSize = 0) (tail16 : (E - s₁.base) % leafSize = 0)
    (fits : E - s₁.base ≤ s₁.heapSize) (first : bdMark s₁ s₁.base P = .ok s₂)
    (second : bdMark s₂ E (s₁.base + s₁.heapSize) = .ok s₃)
    (counted : (initfree s₃ P E).1 = (E - s₁.base) - (P - s₁.base)) :
    ∃ t, Rep (initfree s₃ P E).2 t ∧ (∀ j c, t j c ≠ .held) ∧
      ∀ b, addr s₁ 0 b < P ∨ E < addr s₁ 0 b + blkSize 0 → t 0 b = .reserved := by
  obtain ⟨mem', rfl, marks⟩ := marked_bits laid first second
  have decided : ∀ k < s₁.nsizes, ∀ bi < nblk s₁.nsizes k, ∀ x, MarkHits s₁ k bi x →
      bit mem' x = decide (Marked (blkIndexNext s₁ k P) (blkIndex s₁ k E) bi) := fun k hk bi range x own =>
    Bool.eq_iff_iff.mpr ((marks k hk bi range x own).trans decide_eq_true_iff.symm)
  exact ⟨_, rep_of_marked (laid.layout.congr rfl fun k => ⟨rfl, rfl⟩) hN laid.empty
    (fun k hk bi range => decided k hk bi range _ (.inl rfl))
    (fun k hk pos bi range => decided k hk bi range _ (.inr ⟨pos, rfl⟩)) metaFirst meta16 tail16 fits counted,
    initTree_ne_held, fun b outside => initTree_reserved (marked_leaf s₁ outside)⟩

end Build

section Meta

/-- The allocator's metadata lies below `P`: the `Sz_info` table at `bd_base`,
the `alloc` array of every size and the `split` array of every size above 0. -/
def MetaBelow (s : State) (P : Nat) : Prop :=
  s.base + szInfoBytes * s.nsizes ≤ P ∧
    ∀ k < s.nsizes, (s.sizes k).alloc + arrayBytes s.nsizes k ≤ P ∧
      (0 < k → (s.sizes k).split + arrayBytes s.nsizes k ≤ P)

theorem MetaBelow.mono {s : State} {P P' : Nat} (below : MetaBelow s P) (le : P ≤ P') : MetaBelow s P' :=
  ⟨by have := below.1; omega, fun k hk => ⟨by have := (below.2 k hk).1; omega,
    fun pos => by have := (below.2 k hk).2 pos; omega⟩⟩

/-- The metadata reads only `bd_base`, `nsizes` and the arrays' places. -/
theorem MetaBelow.congr {s s' : State} {P : Nat} (below : MetaBelow s P) (base : s'.base = s.base)
    (nsizes : s'.nsizes = s.nsizes)
    (arrays : ∀ k, (s'.sizes k).alloc = (s.sizes k).alloc ∧ (s'.sizes k).split = (s.sizes k).split) :
    MetaBelow s' P := by
  simp only [MetaBelow, base, nsizes, (arrays _).1, (arrays _).2]
  exact below

theorem metaBelow_laid (N B : Nat) (m : Mem) :
    MetaBelow ⟨N, B, laidSizes (B + szInfoBytes * N) N, m⟩ (arrayAt (B + szInfoBytes * N) N (N + (N - 1))) := by
  set S := B + szInfoBytes * N
  -- array `m` ends where array `m + 1` starts, at or before the end of the last
  have ends : ∀ {m}, m < N + (N - 1) → arrayAt S N m + arrayWidth N m ≤ arrayAt S N (N + (N - 1)) := fun lt => by
    rw [← arrayAt_succ]
    exact consecutive_mono (arrayAt S N) (arrayWidth N) (arrayAt_succ S N) lt
  refine ⟨Nat.le_add_right S _, fun k (hk : k < N) => ⟨?_, fun pos => ?_⟩⟩
  · show (laidSizes S N k).alloc + arrayBytes N k ≤ _
    rw [laidSizes_alloc S N hk, ← arrayWidth_alloc hk]
    exact ends (by omega)
  · show (laidSizes S N k).split + arrayBytes N k ≤ _
    rw [laidSizes_split S N pos hk, ← arrayWidth_split pos]
    exact ends (by omega)

end Meta

/-- `bd_init(base, end)`, when it returns: the allocator represents a tree in
which no block is held and every leaf outside `[p, bd_end)` is reserved, with
the metadata below `p` and `bd_end` at most `end`, or at most `p` when `end`
lies below `bd_base`. -/
theorem bdInit_guarded {mem : Mem} {base endAddr : Nat} {s : State} (ok : bdInit mem base endAddr = .ok s) :
    ∃ t P E, Rep s t ∧ (∀ j c, t j c ≠ .held) ∧
      (∀ b, addr s 0 b < P ∨ E < addr s 0 b + blkSize 0 → t 0 b = .reserved) ∧ MetaBelow s P ∧
      (E ≤ endAddr ∨ E ≤ P) := by
  obtain ⟨⟨s', free, metaBytes, unav⟩, lists, check⟩ := Machine.bind_eq_ok ok
  -- the check at the end of `bd_init`
  have checked : free = s'.heapSize - metaBytes - unav ∧ s' = s := by
    dsimp only at check
    -- the panic branch cannot return
    split_ifs at check with differ
    cases check
    exact ⟨not_not.mp differ, rfl⟩
  obtain ⟨counted, rfl⟩ := checked
  -- the two layout loops
  rw [bdInitLists] at lists
  split at lists
  rename_i p sizes m laidAlloc
  split at lists
  rename_i p' sizes' m' laidSplit
  rw [← laidAlloc, bdLayout] at laidSplit
  simp only [Prod.mk.injEq] at laidSplit
  obtain ⟨rfl, rfl, rfl⟩ := laidSplit
  -- the two marks and `bd_initfree`
  obtain ⟨s₂, first, rest⟩ := Machine.bind_eq_ok lists
  obtain ⟨s₃, second, rest⟩ := Machine.bind_eq_ok rest
  simp only [Machine.pure_eq_ok, Except.ok.injEq, Prod.mk.injEq] at rest
  obtain ⟨rfl, rfl, rfl, rfl⟩ := rest
  -- `bd_base`, `nsizes`, `p`, `HEAP_SIZE` and `unavailable` as `bd_init` computes them
  set B := roundup base leafSize with hB
  set N₀ := log2 ((endAddr - B) / leafSize) + 1
  set N := if endAddr - B > blkSize (N₀ - 1) then N₀ + 1 else N₀ with hN
  set S := B + szInfoBytes * N with hS
  set P := roundup (arrayAt S N (N + (N - 1))) leafSize with hP
  set H := blkSize (N - 1) with hH
  set U := if H - (endAddr - B) > 0 then roundup (H - (endAddr - B)) leafSize else H - (endAddr - B) with hU
  have hNpos : 0 < N := by
    rw [hN]
    split_ifs <;> omega
  have hB16 : B % 16 = 0 := Nat.mul_mod_left _ _
  have hP16 : P % 16 = 0 := Nat.mul_mod_left _ _
  have hH16 : H % 16 = 0 := Nat.mul_mod_left _ _
  have arrays : S ≤ arrayAt S N (N + (N - 1)) := Nat.le_add_right _ _
  have rounded : arrayAt S N (N + (N - 1)) ≤ P := by
    rw [hP, roundup, leafSize]
    omega
  -- `unavailable` is rounded up to a multiple of `LEAF_SIZE`, still within the heap, and covers the part past `end`
  have unavFits : U ≤ H ∧ U % 16 = 0 ∧ H - (endAddr - B) ≤ U := by
    rw [hU]
    split_ifs with some
    · rw [roundup, leafSize]
      omega
    · omega
  have heap : (initfree s₃ P (B + H - U)).2.heapSize = H := by
    rw [State.heapSize, initfree_eq, withLists_nsizes, bdMark_nsizes second, bdMark_nsizes first]
  rw [heap] at counted
  -- `bd_initfree` and the marks keep `bd_base`, `nsizes` and the arrays' places
  have frame : (initfree s₃ P (B + H - U)).2.base = B ∧ (initfree s₃ P (B + H - U)).2.nsizes = N ∧
      ∀ k, ((initfree s₃ P (B + H - U)).2.sizes k).alloc = (laidSizes S N k).alloc ∧
        ((initfree s₃ P (B + H - U)).2.sizes k).split = (laidSizes S N k).split := by
    simp only [initfree_eq, withLists_base, withLists_nsizes, withLists_alloc, withLists_split, bdMark_base second,
      bdMark_base first, bdMark_nsizes second, bdMark_nsizes first, bdMark_sizes second, bdMark_sizes first,
      and_self, implies_true]
  obtain ⟨baseEq, nsizesEq, arraysEq⟩ := frame
  clear_value B N₀ N S P U
  rw [szInfoBytes] at hS
  have metaFirst : B < P := by omega
  have meta16 : (P - B) % 16 = 0 := by omega
  have tail16 : (B + H - U - B) % 16 = 0 := by omega
  have fits : B + H - U - B ≤ H := by omega
  have exact : (initfree s₃ P (B + H - U)).1 = (B + H - U - B) - (P - B) := by omega
  obtain ⟨t, rep, noHeld, reserved⟩ :=
    rep_of_laid (laid N B S (fill mem B (szInfoBytes * N) 0)) hNpos metaFirst meta16 tail16 fits first second exact
  refine ⟨t, P, B + H - U, rep, noHeld, fun b outside => reserved b (by simpa only [addr, baseEq] using outside),
    ?_, by omega⟩
  have laidMeta := metaBelow_laid N B (fill mem B (szInfoBytes * N) 0)
  rw [szInfoBytes, ← hS] at laidMeta
  exact (laidMeta.mono rounded).congr baseEq nsizesEq arraysEq

theorem bdInit_rep {mem : Mem} {base endAddr : Nat} {s : State} (ok : bdInit mem base endAddr = .ok s) :
    ∃ t, Rep s t ∧ ∀ j c, t j c ≠ .held := by
  obtain ⟨t, -, -, rep, noHeld, -⟩ := bdInit_guarded ok
  exact ⟨t, rep, noHeld⟩

end Xv6.Buddy
