import Mathlib
import Xv6.Buddy.Alloc
import Xv6.Buddy.Tree

/-!
The allocator's bits and lists represent a tree of blocks (`Rep`): a block's
`alloc` bit is set when it is held, reserved or split, its `split` bit when it
is split, and the free list of each size holds the addresses of that size's
free blocks, once each. For the bits to mean that, the arrays must not overlap
(`Layout`).

`bd_malloc` and `bd_free` keep the representation. Popping a free block marks
it held (`Rep.take`); each pass of the split loop halves a held block
(`Rep.halve`); each pass of the merge loop either frees the block (`Rep.settle`)
or joins it with its free buddy (`Rep.join`). Over a represented tree,
`size(p)` of a held block stops at the block's size, at the first split bit
above it (`Rep.size_held`).
-/

namespace Xv6.Buddy

open Bytes Scan

section Fields

variable (s : State) (k bi p e : Nat)

@[simp] theorem setAlloc_nsizes : (setAlloc s k bi).nsizes = s.nsizes := rfl
@[simp] theorem setAlloc_base : (setAlloc s k bi).base = s.base := rfl
@[simp] theorem setAlloc_sizes : (setAlloc s k bi).sizes = s.sizes := rfl
@[simp] theorem clearAlloc_nsizes : (clearAlloc s k bi).nsizes = s.nsizes := rfl
@[simp] theorem clearAlloc_base : (clearAlloc s k bi).base = s.base := rfl
@[simp] theorem clearAlloc_sizes : (clearAlloc s k bi).sizes = s.sizes := rfl
@[simp] theorem setSplit_nsizes : (setSplit s k bi).nsizes = s.nsizes := rfl
@[simp] theorem setSplit_base : (setSplit s k bi).base = s.base := rfl
@[simp] theorem setSplit_sizes : (setSplit s k bi).sizes = s.sizes := rfl
@[simp] theorem clearSplit_nsizes : (clearSplit s k bi).nsizes = s.nsizes := rfl
@[simp] theorem clearSplit_base : (clearSplit s k bi).base = s.base := rfl
@[simp] theorem clearSplit_sizes : (clearSplit s k bi).sizes = s.sizes := rfl

@[simp] theorem lstRemove_nsizes : (lstRemove s e).nsizes = s.nsizes := rfl
@[simp] theorem lstRemove_base : (lstRemove s e).base = s.base := rfl
@[simp] theorem lstRemove_mem : (lstRemove s e).mem = s.mem := rfl

/-- The state with size `k`'s free list replaced by `l`: what `lst_push` and
`lst_pop` leave. -/
def State.withFree (s : State) (k : Nat) (l : List Nat) : State :=
  { s with sizes := Function.update s.sizes k { s.sizes k with free := l } }

variable (l : List Nat) (j : Nat)

@[simp] theorem withFree_nsizes : (s.withFree k l).nsizes = s.nsizes := rfl
@[simp] theorem withFree_base : (s.withFree k l).base = s.base := rfl
@[simp] theorem withFree_mem : (s.withFree k l).mem = s.mem := rfl

@[simp] theorem withFree_alloc : ((s.withFree k l).sizes j).alloc = (s.sizes j).alloc := by
  by_cases here : j = k <;> simp [State.withFree, here]

@[simp] theorem withFree_split : ((s.withFree k l).sizes j).split = (s.sizes j).split := by
  by_cases here : j = k <;> simp [State.withFree, here]

theorem withFree_free : ((s.withFree k l).sizes j).free = if j = k then l else (s.sizes j).free := by
  by_cases here : j = k <;> simp [State.withFree, here]

theorem lstPush_eq : lstPush s k p = s.withFree k (p :: (s.sizes k).free) := rfl

@[simp] theorem lstPush_nsizes : (lstPush s k p).nsizes = s.nsizes := rfl
@[simp] theorem lstPush_base : (lstPush s k p).base = s.base := rfl
@[simp] theorem lstPush_mem : (lstPush s k p).mem = s.mem := rfl
@[simp] theorem lstPush_addr (c : Nat) : addr (lstPush s k p) j c = addr s j c := rfl

@[simp] theorem lstPush_alloc : ((lstPush s k p).sizes j).alloc = (s.sizes j).alloc := by
  rw [lstPush_eq, withFree_alloc]

@[simp] theorem lstPush_split : ((lstPush s k p).sizes j).split = (s.sizes j).split := by
  rw [lstPush_eq, withFree_split]

@[simp] theorem withFree_addr (c : Nat) : addr (s.withFree k l) j c = addr s j c := rfl
@[simp] theorem withFree_blkIndex (a : Nat) : blkIndex (s.withFree k l) j a = blkIndex s j a := rfl
@[simp] theorem lstRemove_blkIndex (a : Nat) : blkIndex (lstRemove s e) j a = blkIndex s j a := rfl
@[simp] theorem setAlloc_blkIndex (a : Nat) : blkIndex (setAlloc s k bi) j a = blkIndex s j a := rfl
@[simp] theorem clearAlloc_blkIndex (a : Nat) : blkIndex (clearAlloc s k bi) j a = blkIndex s j a := rfl
@[simp] theorem setSplit_blkIndex (a : Nat) : blkIndex (setSplit s k bi) j a = blkIndex s j a := rfl
@[simp] theorem lstRemove_addr (c : Nat) : addr (lstRemove s e) j c = addr s j c := rfl
@[simp] theorem setAlloc_addr (c : Nat) : addr (setAlloc s k bi) j c = addr s j c := rfl
@[simp] theorem clearAlloc_addr (c : Nat) : addr (clearAlloc s k bi) j c = addr s j c := rfl
@[simp] theorem setSplit_addr (c : Nat) : addr (setSplit s k bi) j c = addr s j c := rfl
@[simp] theorem clearSplit_addr (c : Nat) : addr (clearSplit s k bi) j c = addr s j c := rfl

@[simp] theorem lstRemove_alloc : ((lstRemove s e).sizes j).alloc = (s.sizes j).alloc := rfl
@[simp] theorem lstRemove_split : ((lstRemove s e).sizes j).split = (s.sizes j).split := rfl
@[simp] theorem lstRemove_free : ((lstRemove s e).sizes j).free = (s.sizes j).free.erase e := rfl

/-- `lst_pop` of a list with a front. -/
theorem lstPop_cons {rest : List Nat} (front : (s.sizes k).free = p :: rest) :
    lstPop s k = .ok (p, s.withFree k rest) := by
  simp only [lstPop, front, State.withFree]

end Fields

section Positions

/-- Where bit `bi` of size `k`'s `alloc` array lies in memory. -/
def allocPos (s : State) (k bi : Nat) : Nat := 8 * (s.sizes k).alloc + bi

/-- Where bit `bi` of size `k`'s `split` array lies in memory. -/
def splitPos (s : State) (k bi : Nat) : Nat := 8 * (s.sizes k).split + bi

variable {s : State} {k bi : Nat}

theorem isAlloc_eq : isAlloc s k bi = bit s.mem (allocPos s k bi) := rfl
theorem isSplit_eq : isSplit s k bi = bit s.mem (splitPos s k bi) := rfl
theorem setAlloc_mem : (setAlloc s k bi).mem = setBit s.mem (allocPos s k bi) := rfl
theorem clearAlloc_mem : (clearAlloc s k bi).mem = clearBit s.mem (allocPos s k bi) := rfl
theorem setSplit_mem : (setSplit s k bi).mem = setBit s.mem (splitPos s k bi) := rfl
theorem clearSplit_mem : (clearSplit s k bi).mem = clearBit s.mem (splitPos s k bi) := rfl

/-- The bits in range, `alloc` below `nsizes` and `split` from size 1, each at a
place of its own. -/
structure Layout (s : State) : Prop where
  alloc_inj : ∀ {k k' bi bi' : Nat}, k < s.nsizes → k' < s.nsizes → bi < nblk s.nsizes k →
    bi' < nblk s.nsizes k' → allocPos s k bi = allocPos s k' bi' → k = k'
  split_inj : ∀ {k k' bi bi' : Nat}, 0 < k → k < s.nsizes → 0 < k' → k' < s.nsizes →
    bi < nblk s.nsizes k → bi' < nblk s.nsizes k' → splitPos s k bi = splitPos s k' bi' → k = k'
  apart : ∀ {k k' bi bi' : Nat}, k < s.nsizes → 0 < k' → k' < s.nsizes → bi < nblk s.nsizes k →
    bi' < nblk s.nsizes k' → allocPos s k bi ≠ splitPos s k' bi'

/-- Only the arrays' places and `nsizes` matter to the layout. -/
theorem Layout.congr {s' : State} (layout : Layout s) (nsizes : s'.nsizes = s.nsizes)
    (arrays : ∀ k, (s'.sizes k).alloc = (s.sizes k).alloc ∧ (s'.sizes k).split = (s.sizes k).split) :
    Layout s' := by
  have alloc : ∀ k bi, allocPos s' k bi = allocPos s k bi := fun k bi => by simp [allocPos, (arrays k).1]
  have split : ∀ k bi, splitPos s' k bi = splitPos s k bi := fun k bi => by simp [splitPos, (arrays k).2]
  refine ⟨?_, ?_, ?_⟩
  · intro k k' bi bi' hk hk' range range' same
    rw [nsizes] at *
    rw [alloc, alloc] at same
    exact layout.alloc_inj hk hk' range range' same
  · intro k k' bi bi' pos hk pos' hk' range range' same
    rw [nsizes] at *
    rw [split, split] at same
    exact layout.split_inj pos hk pos' hk' range range' same
  · intro k k' bi bi' hk pos' hk' range range'
    rw [nsizes] at *
    rw [alloc, split]
    exact layout.apart hk pos' hk' range range'

variable (layout : Layout s) {k' bi' : Nat} (hk : k < s.nsizes) (hk' : k' < s.nsizes)
  (range : bi < nblk s.nsizes k) (range' : bi' < nblk s.nsizes k')
include layout hk hk' range range'

theorem Layout.allocPos_eq_iff : allocPos s k bi = allocPos s k' bi' ↔ k = k' ∧ bi = bi' := by
  constructor
  · intro same
    have level := layout.alloc_inj hk hk' range range' same
    subst level
    exact ⟨rfl, by simpa [allocPos] using same⟩
  · rintro ⟨rfl, rfl⟩
    rfl

theorem Layout.splitPos_eq_iff (pos : 0 < k) (pos' : 0 < k') :
    splitPos s k bi = splitPos s k' bi' ↔ k = k' ∧ bi = bi' := by
  constructor
  · intro same
    have level := layout.split_inj pos hk pos' hk' range range' same
    subst level
    exact ⟨rfl, by simpa [splitPos] using same⟩
  · rintro ⟨rfl, rfl⟩
    rfl

theorem isAlloc_setAlloc :
    isAlloc (setAlloc s k bi) k' bi' = (isAlloc s k' bi' || decide (k = k' ∧ bi = bi')) := by
  show bit (setBit s.mem (allocPos s k bi)) (allocPos s k' bi') = (bit s.mem (allocPos s k' bi') || _)
  simp only [bit_setBit, layout.allocPos_eq_iff hk hk' range range']

theorem isAlloc_clearAlloc :
    isAlloc (clearAlloc s k bi) k' bi' = (isAlloc s k' bi' && !decide (k = k' ∧ bi = bi')) := by
  show bit (clearBit s.mem (allocPos s k bi)) (allocPos s k' bi') = (bit s.mem (allocPos s k' bi') && _)
  simp only [bit_clearBit, layout.allocPos_eq_iff hk hk' range range']

theorem isSplit_setSplit (pos : 0 < k) (pos' : 0 < k') :
    isSplit (setSplit s k bi) k' bi' = (isSplit s k' bi' || decide (k = k' ∧ bi = bi')) := by
  show bit (setBit s.mem (splitPos s k bi)) (splitPos s k' bi') = (bit s.mem (splitPos s k' bi') || _)
  simp only [bit_setBit, layout.splitPos_eq_iff hk hk' range range' pos pos']

theorem isSplit_clearSplit (pos : 0 < k) (pos' : 0 < k') :
    isSplit (clearSplit s k bi) k' bi' = (isSplit s k' bi' && !decide (k = k' ∧ bi = bi')) := by
  show bit (clearBit s.mem (splitPos s k bi)) (splitPos s k' bi') = (bit s.mem (splitPos s k' bi') && _)
  simp only [bit_clearBit, layout.splitPos_eq_iff hk hk' range range' pos pos']

theorem isSplit_setAlloc (pos' : 0 < k') : isSplit (setAlloc s k bi) k' bi' = isSplit s k' bi' := by
  show bit (setBit s.mem (allocPos s k bi)) (splitPos s k' bi') = bit s.mem (splitPos s k' bi')
  simp [bit_setBit, layout.apart hk pos' hk' range range']

theorem isSplit_clearAlloc (pos' : 0 < k') : isSplit (clearAlloc s k bi) k' bi' = isSplit s k' bi' := by
  show bit (clearBit s.mem (allocPos s k bi)) (splitPos s k' bi') = bit s.mem (splitPos s k' bi')
  simp [bit_clearBit, layout.apart hk pos' hk' range range']

theorem isAlloc_setSplit (pos : 0 < k) : isAlloc (setSplit s k bi) k' bi' = isAlloc s k' bi' := by
  show bit (setBit s.mem (splitPos s k bi)) (allocPos s k' bi') = bit s.mem (allocPos s k' bi')
  simp [bit_setBit, Ne.symm (layout.apart hk' pos hk range' range)]

theorem isAlloc_clearSplit (pos : 0 < k) : isAlloc (clearSplit s k bi) k' bi' = isAlloc s k' bi' := by
  show bit (clearBit s.mem (splitPos s k bi)) (allocPos s k' bi') = bit s.mem (allocPos s k' bi')
  simp [bit_clearBit, Ne.symm (layout.apart hk' pos hk range' range)]

end Positions

section Index

theorem blkSize_pos (k : Nat) : 0 < blkSize k := by
  simp [blkSize, leafSize]

theorem blkSize_add (k d : Nat) : blkSize (k + d) = blkSize k * 2 ^ d := by
  simp only [blkSize, pow_add]
  ring

variable (s : State)

@[simp] theorem blkIndex_addr (k bi : Nat) : blkIndex s k (addr s k bi) = bi := by
  simp [blkIndex, addr, Nat.mul_div_cancel _ (blkSize_pos k)]

theorem blkIndex_addr_above (k bi d : Nat) : blkIndex s (k + d) (addr s k bi) = bi / 2 ^ d := by
  rw [blkIndex, addr, Nat.add_sub_cancel_left, blkSize_add, ← Nat.div_div_eq_div_mul,
    Nat.mul_div_cancel _ (blkSize_pos k)]

theorem addr_scale (k bi d : Nat) : addr s (k + d) bi = addr s k (bi * 2 ^ d) := by
  simp only [addr, blkSize_add]
  ring

theorem addr_inj {k bi bi' : Nat} (same : addr s k bi = addr s k bi') : bi = bi' :=
  Nat.eq_of_mul_eq_mul_right (blkSize_pos k) (Nat.add_left_cancel same)

theorem addr_eq_addr {k bi k' bi' : Nat} (same : addr s k bi = addr s k' bi') : bi * 2 ^ k = bi' * 2 ^ k' := by
  have scaled := Nat.add_left_cancel same
  simp only [blkSize, leafSize, ← mul_assoc] at scaled
  omega

theorem addr_pos {k bi : Nat} (pos : 0 < bi) : 0 < addr s k bi := by
  have := blkSize_pos k
  simp only [addr]
  nlinarith

theorem addr_upper (k b : Nat) : addr s (k + 1) b + blkSize k = addr s k (2 * b + 1) := by
  rw [addr_scale s k b 1]
  simp only [addr]
  ring

theorem addr_half (k bi : Nat) :
    (if buddy bi % 2 = 0 then addr s k (buddy bi) else addr s k bi) = addr s (k + 1) (bi / 2) := by
  rw [addr_scale s k (bi / 2) 1]
  unfold buddy
  split_ifs with even odd <;> congr 1 <;> omega

end Index

/-- Every bit in range agrees with the tree: `alloc` set when the block is held,
reserved or split, `split` set when it is split. -/
structure Bits (s : State) (t : Tree) : Prop where
  alloc : ∀ k < s.nsizes, ∀ bi < nblk s.nsizes k, isAlloc s k bi = (t k bi).taken
  split : ∀ k < s.nsizes, 0 < k → ∀ bi < nblk s.nsizes k, isSplit s k bi = decide (t k bi = .split)

/-- Size `k`'s free list holds the free blocks of size `k`, each once. -/
structure Lists (s : State) (t : Tree) : Prop where
  nodup : ∀ k < s.nsizes, (s.sizes k).free.Nodup
  free : ∀ k < s.nsizes, ∀ a, a ∈ (s.sizes k).free ↔ ∃ bi < nblk s.nsizes k, t k bi = .free ∧ a = addr s k bi

/-- The allocator represents the tree `t`, whose leaf 0 (the start of the
metadata) is reserved. -/
structure Rep (s : State) (t : Tree) : Prop where
  layout : Layout s
  shaped : Shaped (s.nsizes - 1) t
  first : t 0 0 = .reserved
  bits : Bits s t
  lists : Lists s t

section Bits

variable {s : State} {t : Tree} {k b : Nat} {v : Status}

/-- Bits read only the memory and the arrays' places. -/
theorem Bits.congr {s' : State} (bits : Bits s t) (nsizes : s'.nsizes = s.nsizes) (mem : s'.mem = s.mem)
    (arrays : ∀ k, (s'.sizes k).alloc = (s.sizes k).alloc ∧ (s'.sizes k).split = (s.sizes k).split) :
    Bits s' t := by
  constructor
  · intro k hk b range
    rw [nsizes] at hk range
    simp only [isAlloc, bitIsset, mem, (arrays k).1]
    exact bits.alloc k hk b range
  · intro k hk pos b range
    rw [nsizes] at hk range
    simp only [isSplit, bitIsset, mem, (arrays k).2]
    exact bits.split k hk pos b range

theorem Bits.alloc_set (bits : Bits s t) (taken : v.taken = (t k b).taken) :
    ∀ k' < s.nsizes, ∀ b' < nblk s.nsizes k', isAlloc s k' b' = (t.set k b v k' b').taken := by
  intro k' hk' b' range'
  by_cases here : k' = k ∧ b' = b
  · obtain ⟨rfl, rfl⟩ := here
    rw [Tree.set_self, taken]
    exact bits.alloc k' hk' b' range'
  · rw [Tree.set_of_ne _ _ (by tauto)]
    exact bits.alloc k' hk' b' range'

theorem Bits.split_set (bits : Bits s t) (split : v = .split ↔ t k b = .split) :
    ∀ k' < s.nsizes, 0 < k' → ∀ b' < nblk s.nsizes k', isSplit s k' b' = decide (t.set k b v k' b' = .split) := by
  intro k' hk' pos' b' range'
  by_cases here : k' = k ∧ b' = b
  · obtain ⟨rfl, rfl⟩ := here
    rw [Tree.set_self, bits.split k' hk' pos' b' range']
    simp [split]
  · rw [Tree.set_of_ne _ _ (by tauto)]
    exact bits.split k' hk' pos' b' range'

theorem Bits.set_same (bits : Bits s t) (taken : v.taken = (t k b).taken) (split : v = .split ↔ t k b = .split) :
    Bits s (t.set k b v) :=
  ⟨bits.alloc_set taken, bits.split_set split⟩

variable (layout : Layout s) (hk : k < s.nsizes) (range : b < nblk s.nsizes k)
include layout hk range

theorem Bits.setAlloc (bits : Bits s t) (now : v.taken = true)
    (split : v = .split ↔ t k b = .split) : Bits (setAlloc s k b) (t.set k b v) := by
  constructor
  · intro k' hk' b' range'
    rw [isAlloc_setAlloc layout hk hk' range range', bits.alloc k' hk' b' range']
    by_cases here : k = k' ∧ b = b'
    · obtain ⟨rfl, rfl⟩ := here
      simp [now]
    · rw [Tree.set_of_ne _ _ (by tauto)]
      simp [here]
  · intro k' hk' pos' b' range'
    rw [isSplit_setAlloc layout hk hk' range range' pos']
    exact bits.split_set split k' hk' pos' b' range'

theorem Bits.clearAlloc (bits : Bits s t) (now : v.taken = false)
    (split : v = .split ↔ t k b = .split) : Bits (clearAlloc s k b) (t.set k b v) := by
  constructor
  · intro k' hk' b' range'
    rw [isAlloc_clearAlloc layout hk hk' range range', bits.alloc k' hk' b' range']
    by_cases here : k = k' ∧ b = b'
    · obtain ⟨rfl, rfl⟩ := here
      simp [now]
    · rw [Tree.set_of_ne _ _ (by tauto)]
      simp [here]
  · intro k' hk' pos' b' range'
    rw [isSplit_clearAlloc layout hk hk' range range' pos']
    exact bits.split_set split k' hk' pos' b' range'

theorem Bits.setSplit (bits : Bits s t) (pos : 0 < k) (held : t k b = .held) :
    Bits (setSplit s k b) (t.set k b .split) := by
  constructor
  · intro k' hk' b' range'
    rw [isAlloc_setSplit layout hk hk' range range' pos]
    exact bits.alloc_set (by simp [held, Status.taken]) k' hk' b' range'
  · intro k' hk' pos' b' range'
    rw [isSplit_setSplit layout hk hk' range range' pos pos', bits.split k' hk' pos' b' range']
    by_cases here : k = k' ∧ b = b'
    · obtain ⟨rfl, rfl⟩ := here
      simp
    · rw [Tree.set_of_ne _ _ (by tauto)]
      simp [here]

theorem Bits.clearSplit (bits : Bits s t) (pos : 0 < k) (split : t k b = .split) :
    Bits (clearSplit s k b) (t.set k b .held) := by
  constructor
  · intro k' hk' b' range'
    rw [isAlloc_clearSplit layout hk hk' range range' pos]
    exact bits.alloc_set (by simp [split, Status.taken]) k' hk' b' range'
  · intro k' hk' pos' b' range'
    rw [isSplit_clearSplit layout hk hk' range range' pos pos', bits.split k' hk' pos' b' range']
    by_cases here : k = k' ∧ b = b'
    · obtain ⟨rfl, rfl⟩ := here
      simp [split]
    · rw [Tree.set_of_ne _ _ (by tauto)]
      simp [here]

end Bits

section Lists

variable {s : State} {t t' : Tree} {k b : Nat} {v : Status}

theorem Lists.congr {s' : State} (lists : Lists s t) (nsizes : s'.nsizes = s.nsizes) (base : s'.base = s.base)
    (free : ∀ k, (s'.sizes k).free = (s.sizes k).free) : Lists s' t := by
  have addrs : ∀ k b, addr s' k b = addr s k b := fun k b => by simp [addr, base]
  constructor
  · intro k hk
    rw [free]
    exact lists.nodup k (nsizes ▸ hk)
  · intro k hk a
    rw [free, nsizes]
    simp only [addrs]
    exact lists.free k (nsizes ▸ hk) a

theorem Lists.of_free_iff (lists : Lists s t) (same : ∀ j c, t' j c = .free ↔ t j c = .free) : Lists s t' :=
  ⟨lists.nodup, fun k hk a => by simp only [lists.free k hk a, same]⟩

theorem Lists.set_other (lists : Lists s t) (was : t k b ≠ .free) (now : v ≠ .free) : Lists s (t.set k b v) := by
  refine lists.of_free_iff fun j c => ?_
  by_cases here : j = k ∧ c = b
  · obtain ⟨rfl, rfl⟩ := here
    simp [was, now]
  · rw [Tree.set_of_ne _ _ (by tauto)]

theorem Lists.pop (lists : Lists s t) (hk : k < s.nsizes) {rest : List Nat} (front : (s.sizes k).free = addr s k b :: rest)
    (now : v ≠ .free) : Lists (s.withFree k rest) (t.set k b v) := by
  have nodup := lists.nodup k hk
  rw [front, List.nodup_cons] at nodup
  constructor
  · intro j hj
    rw [withFree_free]
    split_ifs with here
    · exact nodup.2
    · exact lists.nodup j hj
  · intro j hj a
    rw [withFree_free]
    split_ifs with here
    · subst here
      constructor
      · intro member
        obtain ⟨c, range, free, rfl⟩ := (lists.free j hj a).mp (front ▸ List.mem_cons_of_mem _ member)
        have other : c ≠ b := fun same => nodup.1 (same ▸ member)
        exact ⟨c, range, by rw [Tree.set_of_ne _ _ (Or.inr other)]; exact free, rfl⟩
      · rintro ⟨c, range, free, rfl⟩
        have other : c ≠ b := fun same => now (by rw [same, Tree.set_self] at free; exact free)
        rw [Tree.set_of_ne _ _ (Or.inr other)] at free
        have member := (lists.free j hj _).mpr ⟨c, range, free, rfl⟩
        rw [front, List.mem_cons] at member
        exact member.resolve_left fun same => other (addr_inj s same)
    · simp only [withFree_nsizes, withFree_addr] at *
      rw [lists.free j hj a]
      constructor <;> rintro ⟨c, range, free, rfl⟩ <;> refine ⟨c, range, ?_, rfl⟩
      · rwa [Tree.set_of_ne _ _ (Or.inl here)]
      · rwa [Tree.set_of_ne _ _ (Or.inl here)] at free

theorem Lists.push (lists : Lists s t) (hk : k < s.nsizes) (range : b < nblk s.nsizes k) (was : t k b ≠ .free) :
    Lists (lstPush s k (addr s k b)) (t.set k b .free) := by
  have fresh : addr s k b ∉ (s.sizes k).free := fun member => by
    obtain ⟨c, _, free, same⟩ := (lists.free k hk _).mp member
    rw [addr_inj s same] at was
    exact was free
  rw [lstPush_eq]
  constructor
  · intro j hj
    rw [withFree_free]
    split_ifs with here
    · exact List.nodup_cons.mpr ⟨fresh, lists.nodup k hk⟩
    · exact lists.nodup j hj
  · intro j hj a
    rw [withFree_free]
    simp only [withFree_nsizes, withFree_addr] at *
    split_ifs with here
    · subst here
      rw [List.mem_cons, lists.free j hj a]
      constructor
      · rintro (rfl | ⟨c, range', free, rfl⟩)
        · exact ⟨b, range, by simp, rfl⟩
        · have other : c ≠ b := fun same => was (same ▸ free)
          exact ⟨c, range', by rw [Tree.set_of_ne _ _ (Or.inr other)]; exact free, rfl⟩
      · rintro ⟨c, range', free, rfl⟩
        by_cases same : c = b
        · exact Or.inl (by rw [same])
        · rw [Tree.set_of_ne _ _ (Or.inr same)] at free
          exact Or.inr ⟨c, range', free, rfl⟩
    · rw [lists.free j hj a]
      constructor <;> rintro ⟨c, range', free, rfl⟩ <;> refine ⟨c, range', ?_, rfl⟩
      · rwa [Tree.set_of_ne _ _ (Or.inl here)]
      · rwa [Tree.set_of_ne _ _ (Or.inl here)] at free

theorem Lists.remove (lists : Lists s t) (hk : k < s.nsizes) (free : t k b = .free) (now : v ≠ .free)
    (alone : ∀ j < s.nsizes, ∀ c < nblk s.nsizes j, t j c = .free → addr s j c = addr s k b → j = k) :
    Lists (lstRemove s (addr s k b)) (t.set k b v) := by
  constructor
  · intro j hj
    exact (lists.nodup j hj).erase _
  · intro j hj a
    simp only [lstRemove_free, lstRemove_nsizes, lstRemove_addr] at *
    rw [(lists.nodup j hj).mem_erase_iff, lists.free j hj a]
    constructor
    · rintro ⟨apart, c, range, free', rfl⟩
      have other : ¬(j = k ∧ c = b) := by
        rintro ⟨rfl, rfl⟩
        exact apart rfl
      exact ⟨c, range, by rw [Tree.set_of_ne _ _ (by tauto)]; exact free', rfl⟩
    · rintro ⟨c, range, free', rfl⟩
      have other : ¬(j = k ∧ c = b) := by
        rintro ⟨rfl, rfl⟩
        exact now (by simpa using free')
      rw [Tree.set_of_ne _ _ (by tauto)] at free'
      refine ⟨fun same => ?_, c, range, free', rfl⟩
      have level := alone j hj c range free' same
      subst level
      exact other ⟨rfl, addr_inj s same⟩

end Lists

section Steps

variable {s : State} {t : Tree} {k bi : Nat}

theorem nblk_succ (below : k + 1 < s.nsizes) : nblk s.nsizes k = nblk s.nsizes (k + 1) * 2 :=
  @pow_sub_succ (s.nsizes - 1) k (by omega)

theorem Rep.take (rep : Rep s t) (hk : k < s.nsizes) {p : Nat} {rest : List Nat}
    (front : (s.sizes k).free = p :: rest) :
    ∃ bi < nblk s.nsizes k, t k bi = .free ∧ p = addr s k bi ∧
      Rep (setAlloc (s.withFree k rest) k bi) (t.set k bi .held) := by
  obtain ⟨bi, range, free, rfl⟩ := (rep.lists.free k hk p).mp (by rw [front]; exact List.mem_cons_self ..)
  refine ⟨bi, range, free, rfl, ?_⟩
  have layout : Layout (s.withFree k rest) := rep.layout.congr rfl (fun j => by simp)
  have bits : Bits (s.withFree k rest) t := rep.bits.congr rfl rfl (fun j => by simp)
  have lists := rep.lists.pop hk front (v := .held) (by decide)
  refine ⟨layout.congr rfl (fun j => by simp), ?_, ?_, bits.setAlloc layout hk range rfl (by simp [free]),
    lists.congr rfl rfl (fun j => rfl)⟩
  · exact rep.shaped.set_open range (by rw [free]; decide) (by rw [free]; decide) (by decide) (by decide)
  · exact Tree.set_keeps _ _ rep.first (by rw [free]; decide)

theorem Rep.halve (rep : Rep s t) (below : k + 1 < s.nsizes) {b : Nat} (range : b < nblk s.nsizes (k + 1))
    (held : t (k + 1) b = .held) :
    Rep (lstPush (setAlloc (setSplit s (k + 1) b) k (2 * b)) k (addr s k (2 * b + 1)))
      (((t.set (k + 1) b .split).set k (2 * b) .held).set k (2 * b + 1) .free) := by
  have hk : k < s.nsizes := Nat.lt_of_succ_lt below
  have double : 2 ^ (s.nsizes - 1 - k) = 2 ^ (s.nsizes - 1 - (k + 1)) * 2 := nblk_succ below
  have range' : b < 2 ^ (s.nsizes - 1 - (k + 1)) := range
  have lower : 2 * b < nblk s.nsizes k := by simp only [nblk]; omega
  have upper : 2 * b + 1 < nblk s.nsizes k := by simp only [nblk]; omega
  -- both halves lay inside the held block
  have half : ∀ c, c / 2 = b → t k c = .inside := fun c parent =>
    rep.shaped.inside_of_parent (by omega) (by omega) (by rw [parent, held]; decide)
  have lowerIn := half (2 * b) (by omega)
  have upperIn := half (2 * b + 1) (by omega)
  have layout₁ : Layout (setSplit s (k + 1) b) := rep.layout.congr rfl (fun j => by simp)
  have layout₂ : Layout (setAlloc (setSplit s (k + 1) b) k (2 * b)) := rep.layout.congr rfl (fun j => by simp)
  -- the bits: split the block, hold the lower half; the upper half's bits stay clear
  have bits₁ := rep.bits.setSplit rep.layout below range (by omega) held
  have bits₂ := bits₁.setAlloc layout₁ hk lower (v := .held) rfl
    (by rw [Tree.set_of_ne _ _ (by omega), lowerIn]; decide)
  have bits := bits₂.set_same (k := k) (b := 2 * b + 1) (v := .free)
    (by rw [Tree.set_of_ne _ _ (by omega), Tree.set_of_ne _ _ (by omega), upperIn]; rfl)
    (by rw [Tree.set_of_ne _ _ (by omega), Tree.set_of_ne _ _ (by omega), upperIn]; decide)
  -- the lists: only the upper half is new on them
  have lists₂ : Lists (setAlloc (setSplit s (k + 1) b) k (2 * b)) t := rep.lists.congr rfl rfl (fun j => rfl)
  have lists₃ := (lists₂.set_other (k := k + 1) (b := b) (v := .split) (by rw [held]; decide)
    (by decide)).set_other (k := k) (b := 2 * b) (v := .held)
    (by rw [Tree.set_of_ne _ _ (by omega), lowerIn]; decide) (by decide)
  have lists := lists₃.push hk upper
    (by rw [Tree.set_of_ne _ _ (by omega), Tree.set_of_ne _ _ (by omega), upperIn]; decide)
  refine ⟨layout₂.congr rfl (fun j => by simp), rep.shaped.halve (by omega) range held, ?_,
    bits.congr rfl rfl (fun j => by simp), by simpa using lists⟩
  refine Tree.set_keeps _ _ (Tree.set_keeps _ _ (Tree.set_keeps _ _ rep.first (by rw [held]; decide)) ?_) ?_
  · rw [Tree.set_of_ne _ _ (by omega), lowerIn]
    decide
  · rw [Tree.set_of_ne _ _ (by omega), Tree.set_of_ne _ _ (by omega), upperIn]
    decide

theorem Rep.settle (rep : Rep s t) (hk : k < s.nsizes) (range : bi < nblk s.nsizes k) (held : t k bi = .held) :
    Rep (lstPush (clearAlloc s k bi) k (addr s k bi)) (t.set k bi .free) := by
  have bits := rep.bits.clearAlloc rep.layout hk range (v := .free) rfl (by simp [held])
  have lists : Lists (clearAlloc s k bi) t := rep.lists.congr rfl rfl (fun j => rfl)
  refine ⟨rep.layout.congr rfl (fun j => by simp), ?_, Tree.set_keeps _ _ rep.first (by rw [held]; decide),
    bits.congr rfl rfl (fun j => by simp), by simpa using lists.push hk range (by rw [held]; decide)⟩
  exact rep.shaped.set_open range (by rw [held]; decide) (by rw [held]; decide) (by decide) (by decide)

/-- A pass of `bd_free`'s merge loop that goes on: the held block's `alloc` bit
is cleared, its free buddy leaves the lists, and the parent's `split` bit is
cleared, so the two halves are inside the parent, now held. -/
theorem Rep.join (rep : Rep s t) (below : k + 1 < s.nsizes) (range : bi < nblk s.nsizes k)
    (held : t k bi = .held) (free : t k (buddy bi) = .free) :
    Rep (clearSplit (lstRemove (clearAlloc s k bi) (addr s k (buddy bi))) (k + 1) (bi / 2))
      (((t.set k bi .inside).set k (buddy bi) .inside).set (k + 1) (bi / 2) .held) := by
  have hk : k < s.nsizes := Nat.lt_of_succ_lt below
  have range' : bi < 2 ^ (s.nsizes - 1 - k) := range
  have half : bi / 2 < nblk s.nsizes (k + 1) := half_lt (by omega) range'
  have other : buddy bi < nblk s.nsizes k := buddy_lt (by omega) range'
  have ne := buddy_ne bi
  have parent := rep.shaped.parent_split (by omega) range' (by rw [held]; decide)
  have layout₁ : Layout (lstRemove (clearAlloc s k bi) (addr s k (buddy bi))) :=
    rep.layout.congr rfl (fun j => by simp)
  -- the bits: clear the block's `alloc` bit and the parent's `split` bit
  have bits₁ := (rep.bits.clearAlloc rep.layout hk range (v := .inside) rfl (by simp [held])).set_same
    (k := k) (b := buddy bi) (v := .inside) (by rw [Tree.set_of_ne _ _ (by omega), free]; rfl)
    (by rw [Tree.set_of_ne _ _ (by omega), free]; decide)
  have bits := (show Bits (lstRemove (clearAlloc s k bi) (addr s k (buddy bi))) _ from bits₁.congr rfl rfl
    (fun j => by simp)).clearSplit layout₁ below half (by omega)
    (by rw [Tree.set_of_ne _ _ (by omega), Tree.set_of_ne _ _ (by omega), parent])
  -- the lists: the buddy leaves them; it is the only free block that starts where it does
  have alone : ∀ j < s.nsizes, ∀ c < nblk s.nsizes j, t.set k bi .inside j c = .free →
      addr s j c = addr s k (buddy bi) → j = k := by
    intro j hj c crange free' same
    have c_ne : ¬(j = k ∧ c = bi) := by
      rintro ⟨rfl, rfl⟩
      simp at free'
    rw [Tree.set_of_ne _ _ (by tauto)] at free'
    have start := addr_eq_addr s same
    rcases Nat.lt_trichotomy j k with lower | rfl | upper
    · have inside := rep.shaped.same_start (by omega) lower crange start (by rw [free]; decide)
      rw [inside] at free'
      cases free'
    · rfl
    · have inside := rep.shaped.same_start (by omega) upper other start.symm (by rw [free']; decide)
      rw [inside] at free
      cases free
  have lists₁ := ((show Lists (clearAlloc s k bi) t from rep.lists.congr rfl rfl fun j => rfl).set_other (k := k) (b := bi)
    (v := .inside) (by rw [held]; decide) (by decide)).remove hk (k := k) (b := buddy bi)
    (by rw [Tree.set_of_ne _ _ (by omega), free]) (v := .inside) (by decide) (by simpa using alone)
  have lists := (show Lists (clearSplit (lstRemove (clearAlloc s k bi) (addr s k (buddy bi))) (k + 1) (bi / 2)) _
    from lists₁.congr rfl rfl fun j => rfl).set_other (k := k + 1) (b := bi / 2) (v := .held)
    (by rw [Tree.set_of_ne _ _ (by omega), Tree.set_of_ne _ _ (by omega), parent]; decide) (by decide)
  refine ⟨layout₁.congr rfl (fun j => by simp), ?_, ?_, bits, by simpa using lists⟩
  · exact rep.shaped.join (by omega) range' parent ⟨by rw [held]; decide, by rw [held]; decide⟩
      ⟨by rw [free]; decide, by rw [free]; decide⟩
  · refine Tree.set_keeps _ _ (Tree.set_keeps _ _ (Tree.set_keeps _ _ rep.first (by rw [held]; decide)) ?_) ?_
    · rw [Tree.set_of_ne _ _ (by omega), free]
      decide
    · rw [Tree.set_of_ne _ _ (by omega), Tree.set_of_ne _ _ (by omega), parent]
      decide

end Steps

section Loops

/-! The loops of `bd_malloc` and `bd_free`, one pass at a time. -/

theorem splitDown_stop (s : State) {fk p k : Nat} (done : k ≤ fk) : splitDown fk p k s = s := by
  cases k with
  | zero => rfl
  | succ k => rw [splitDown, if_neg (by omega)]

theorem splitDown_step (s : State) {fk k : Nat} (b : Nat) (more : fk < k + 1) :
    splitDown fk (addr s (k + 1) b) (k + 1) s =
      splitDown fk (addr s k (2 * b)) k
        (lstPush (setAlloc (setSplit s (k + 1) b) k (2 * b)) k (addr s k (2 * b + 1))) := by
  have lowerHalf : addr s (k + 1) b = addr s k (2 * b) := by
    rw [addr_scale s k b 1]
    ring_nf
  rw [splitDown, if_pos more]
  simp only [addr_upper, blkIndex_addr, setSplit_blkIndex]
  rw [lowerHalf, blkIndex_addr]

theorem splitDown_nsizes (fk p : Nat) : ∀ k (s : State), (splitDown fk p k s).nsizes = s.nsizes
  | 0, _ => rfl
  | k + 1, s => by
      rw [splitDown]
      split_ifs
      · rw [splitDown_nsizes fk p k]
        rfl
      · rfl

theorem splitDown_base (fk p : Nat) : ∀ k (s : State), (splitDown fk p k s).base = s.base
  | 0, _ => rfl
  | k + 1, s => by
      rw [splitDown]
      split_ifs
      · rw [splitDown_base fk p k]
        rfl
      · rfl

theorem mergeUp_top (s : State) (p k : Nat) (atTop : s.nsizes - 1 ≤ k) : mergeUp s p k = (s, p, k) := by
  rw [mergeUp, if_neg (by omega)]

theorem mergeUp_stop (s : State) {k bi : Nat} (below : k < s.nsizes - 1)
    (taken : isAlloc (clearAlloc s k bi) k (buddy bi) = true) :
    mergeUp s (addr s k bi) k = (clearAlloc s k bi, addr s k bi, k) := by
  rw [mergeUp, if_pos below]
  simp only [blkIndex_addr]
  exact if_pos taken

theorem mergeUp_join (s : State) {k bi : Nat} (below : k < s.nsizes - 1)
    (free : isAlloc (clearAlloc s k bi) k (buddy bi) = false) :
    mergeUp s (addr s k bi) k =
      mergeUp (clearSplit (lstRemove (clearAlloc s k bi) (addr s k (buddy bi))) (k + 1) (bi / 2))
        (addr s (k + 1) (bi / 2)) (k + 1) := by
  rw [mergeUp, if_pos below]
  simp only [blkIndex_addr]
  refine (if_neg (by simp [buddy] at free ⊢; simp [free])).trans ?_
  simp only [clearAlloc_addr]
  rw [show (if (if bi % 2 = 0 then bi + 1 else bi - 1) % 2 = 0 then addr s k (if bi % 2 = 0 then bi + 1 else bi - 1)
      else addr s k bi) = addr s (k + 1) (bi / 2) from addr_half s k bi]
  simp only [lstRemove_blkIndex, clearAlloc_blkIndex, blkIndex_addr]
  rfl

end Loops

end Xv6.Buddy
