import Mathlib
import Xv6.Library.Bytes
import Xv6.Vm.Riscv

/-!
Physical memory, the page allocator of `kernel/kalloc.c`, and `walk` and
`walkaddr` of `kernel/vm.c`. Memory is one byte memory, so page-table pages,
user pages and free pages are all bytes of it and a write to one can reach
another exactly as in C. The free list is kept as the list of its pages, first
page first; the `next` pointer `kfree` stores in a free page is not modelled.

A page table is read through `tablePage`, the root and the pages its valid
entries lead to, by position. `Tree` says its table pages are distinct pages;
`Table` adds that the free list is a list of distinct free pages that are not
among them, which is what `walk` needs to allocate.
-/

namespace Xv6.Vm

open Bytes

/-- Physical memory and `kmem.freelist`. `kend` is the linker's `end`, the
first address after the kernel. -/
structure Phys where
  mem : Mem
  freelist : List Nat
  kend : Nat

/-- `kalloc()`: the first free page, filled with junk; `none` is its `0`. -/
def kalloc (s : Phys) : Option (Nat × Phys) :=
  match s.freelist with
  | [] => none
  | r :: rest => some (r, { s with mem := fill s.mem r pgSize 5, freelist := rest })

/-- `kfree(pa)`. -/
def kfree (s : Phys) (pa : Nat) : Except String Phys :=
  if pa % pgSize ≠ 0 ∨ pa < s.kend ∨ pa ≥ phyStop then .error "kfree"
  else .ok { s with mem := fill s.mem pa pgSize 1, freelist := pa :: s.freelist }

theorem kfree_ok {s s' : Phys} {pa : Nat} (ok : kfree s pa = .ok s') :
    pa % pgSize = 0 ∧ s.kend ≤ pa ∧ pa < phyStop ∧
      s' = { s with mem := fill s.mem pa pgSize 1, freelist := pa :: s.freelist } := by
  unfold kfree at ok
  split_ifs at ok with bad
  cases ok
  exact ⟨by omega, by omega, by omega, rfl⟩

/-- The loop of `walk` from `level` down to 0, at table page `pagetable`: a
valid entry leads one level down; an invalid one gets a zeroed page from
`kalloc` when `alloc` is set. `none` is `walk`'s `0`. -/
def walkFrom (va : Nat) (alloc : Bool) : Nat → Nat → Phys → Option Nat × Phys
  | 0, pagetable, s => (some (pagetable + 8 * px 0 va), s)
  | level + 1, pagetable, s =>
      let pte := pagetable + 8 * px (level + 1) va
      if flagSet (readLE s.mem pte 8) pteV then
        walkFrom va alloc level (pte2pa (readLE s.mem pte 8)) s
      else if !alloc then (none, s)
      else
        match kalloc s with
        | none => (none, s)
        | some (page, s) =>
            let mem := writeLE (fill s.mem page pgSize 0) pte 8 (pa2pte page ||| pteV)
            walkFrom va alloc level page { s with mem }

/-- `walk(pagetable, va, alloc)`: the address of the leaf entry of `va`. -/
def walk (s : Phys) (pagetable va : Nat) (alloc : Bool) : Except String (Option Nat × Phys) :=
  if va ≥ maxVa then .error "walk" else .ok (walkFrom va alloc 2 pagetable s)

/-- `walkaddr(pagetable, va)`: the user page `va` is mapped to, or `0`. -/
def walkaddr (s : Phys) (pagetable va : Nat) : Nat :=
  if va ≥ maxVa then 0
  else
    match walk s pagetable va false with
    | .ok (some pte, _) =>
        if !flagSet (readLE s.mem pte 8) pteV then 0
        else if !flagSet (readLE s.mem pte 8) pteU then 0
        else pte2pa (readLE s.mem pte 8)
    | _ => 0

/-- Entry `i` of the table page at `t`. -/
def entry (mem : Mem) (t i : Nat) : Nat := readLE mem (t + 8 * i) 8

/-- The page that entry `i` of `t` leads to, when it is valid. -/
def next (mem : Mem) (t i : Nat) : Option Nat :=
  if flagSet (entry mem t i) pteV then some (pte2pa (entry mem t i)) else none

/-- Where `walk(pt, va, 0)` finds the leaf entry of `va`. -/
def leafSlot (mem : Mem) (pt va : Nat) : Option Nat := do
  let mid ← next mem pt (px 2 va)
  let low ← next mem mid (px 1 va)
  return low + 8 * px 0 va

/-- The valid leaf entry of `va`. -/
def leafPte (mem : Mem) (pt va : Nat) : Option Nat :=
  match leafSlot mem pt va with
  | none => none
  | some slot => if flagSet (readLE mem slot 8) pteV then some (readLE mem slot 8) else none

/-- The page table as a finite map from page numbers below `MAXVA / PGSIZE` to
the physical page and the flags of their mapping. -/
def pageMap (mem : Mem) (pt vpn : Nat) : Option (Nat × Nat) :=
  if vpn < maxVa / pgSize then
    (leafPte mem pt (vpn * pgSize)).map fun pte => (pte2pa pte, pteFlags pte)
  else none

/-- A position in the three-level tree: the root, the page of root entry `i`,
or the page of entry `j` of that. -/
inductive Pos where
  | root
  | mid (i : Nat)
  | low (i j : Nat)
  deriving DecidableEq

/-- The table page at a position, if the entries on the way are valid. -/
def tablePage (mem : Mem) (pt : Nat) : Pos → Option Nat
  | .root => some pt
  | .mid i => if i < 512 then next mem pt i else none
  | .low i j => if i < 512 ∧ j < 512 then (next mem pt i).bind (next mem · j) else none

/-- `p` is one of the table pages of `pt`. -/
def IsTable (mem : Mem) (pt p : Nat) : Prop := ∃ q, tablePage mem pt q = some p

/-- The table pages of `pt` form a tree: the root is a page and no page serves
at two positions. -/
structure Tree (mem : Mem) (pt : Nat) : Prop where
  aligned : pt % pgSize = 0
  distinct : ∀ q q' p, tablePage mem pt q = some p → tablePage mem pt q' = some p → q = q'

/-- The free list is a list of distinct whole pages of RAM below `PHYSTOP`, as
`kfree` checks. -/
structure Free (s : Phys) : Prop where
  nodup : s.freelist.Nodup
  freePage : ∀ p ∈ s.freelist, p % pgSize = 0 ∧ p < phyStop

/-- What holds of every page table the kernel builds, with the free list
beside it: no free page is a table page. -/
structure Table (s : Phys) (pt : Nat) : Prop extends Tree s.mem pt, Free s where
  freeApart : ∀ p ∈ s.freelist, ¬ IsTable s.mem pt p

section Pages

variable {mem : Mem}

theorem tablePage_aligned {pt : Nat} (aligned : pt % pgSize = 0) :
    ∀ q p, tablePage mem pt q = some p → p % pgSize = 0
  | .root, p, found => by
      cases found
      exact aligned
  | .mid i, p, found => by
      simp only [tablePage, next] at found
      split_ifs at found
      cases found
      exact pte2pa_aligned _
  | .low i j, p, found => by
      simp only [tablePage] at found
      split_ifs at found
      obtain ⟨mid, -, found⟩ := Option.bind_eq_some_iff.mp found
      simp only [next] at found
      split_ifs at found
      cases found
      exact pte2pa_aligned _

/-- The eight bytes of an entry of one page lie outside every other page. -/
theorem slot_apart {t p i : Nat} (pageT : t % pgSize = 0) (pageP : p % pgSize = 0) (other : t ≠ p)
    (index : i < 512) : t + 8 * i + 8 ≤ p ∨ p + pgSize ≤ t + 8 * i := by
  rw [pgSize] at pageT pageP ⊢
  omega

theorem slots_apart {t t' i j : Nat} (pageT : t % pgSize = 0) (pageT' : t' % pgSize = 0)
    (index : i < 512) (index' : j < 512) (other : t ≠ t' ∨ i ≠ j) :
    t + 8 * i + 8 ≤ t' + 8 * j ∨ t' + 8 * j + 8 ≤ t + 8 * i := by
  rw [pgSize] at pageT pageT'
  omega

theorem entry_fill_of_ne (b : UInt8) {t p i : Nat} (pageT : t % pgSize = 0) (pageP : p % pgSize = 0)
    (other : t ≠ p) (index : i < 512) : entry (fill mem p pgSize b) t i = entry mem t i := by
  apply readLE_congr
  intro k lower upper
  have := slot_apart pageT pageP other index
  simp only [fill]
  rw [if_neg (by omega)]

theorem entry_fill_zero {p i : Nat} (index : i < 512) : entry (fill mem p pgSize 0) p i = 0 :=
  readLE_fill_zero _ _ _ _ _ (by rw [pgSize]; omega)

theorem entry_writeLE_of_ne (v : Nat) {t t' i j : Nat} (pageT : t % pgSize = 0)
    (pageT' : t' % pgSize = 0) (index : i < 512) (index' : j < 512) (other : t ≠ t' ∨ i ≠ j) :
    entry (writeLE mem (t + 8 * i) 8 v) t' j = entry mem t' j :=
  readLE_writeLE_of_disjoint _ _ _ _ _ _ (slots_apart pageT' pageT index' index (by tauto))

theorem entry_writeLE_self (v t i : Nat) : entry (writeLE mem (t + 8 * i) 8 v) t i = v % 2 ^ 64 :=
  readLE_writeLE _ _ _ _

end Pages

section Lookup

variable {mem mem' : Mem} {pt : Nat}

theorem walk_of_not_alloc {s : Phys} {va : Nat} (below : va < maxVa) :
    walk s pt va false = .ok (leafSlot s.mem pt va, s) := by
  simp only [walk, if_neg (Nat.not_le.mpr below), walkFrom, leafSlot, next, entry]
  by_cases mid : flagSet (readLE s.mem (pt + 8 * px 2 va) 8) pteV
  · by_cases low : flagSet (readLE s.mem (pte2pa (readLE s.mem (pt + 8 * px 2 va) 8) + 8 * px 1 va) 8) pteV
    · simp [mid, low]
    · simp [mid, low]
  · simp [mid]

theorem leafSlot_eq (va : Nat) :
    leafSlot mem pt va = (tablePage mem pt (.low (px 2 va) (px 1 va))).map (· + 8 * px 0 va) := by
  simp only [leafSlot, tablePage, px_lt, and_self, if_true]
  cases next mem pt (px 2 va) with
  | none => rfl
  | some mid => cases low : next mem mid (px 1 va) <;> simp [low]

theorem leafSlot_some {va slot : Nat} (found : leafSlot mem pt va = some slot) :
    ∃ low, tablePage mem pt (.low (px 2 va) (px 1 va)) = some low ∧ slot = low + 8 * px 0 va := by
  rw [leafSlot_eq] at found
  obtain ⟨low, here, rfl⟩ := Option.map_eq_some_iff.mp found
  exact ⟨low, here, rfl⟩

theorem leafSlot_injective (table : Tree mem pt) {va va' slot : Nat} (below : va < maxVa)
    (below' : va' < maxVa) (found : leafSlot mem pt va = some slot)
    (found' : leafSlot mem pt va' = some slot) : va / pgSize = va' / pgSize := by
  obtain ⟨low, here, rfl⟩ := leafSlot_some found
  obtain ⟨low', here', same⟩ := leafSlot_some found'
  have aligned := tablePage_aligned table.aligned _ _ here
  have aligned' := tablePage_aligned table.aligned _ _ here'
  have index := px_lt 0 va
  have index' := px_lt 0 va'
  have samePage : low = low' ∧ px 0 va = px 0 va' := by
    rw [pgSize] at aligned aligned'
    omega
  rw [samePage.1] at here
  obtain ⟨same2, same1⟩ := Pos.low.inj (table.distinct _ _ _ here here')
  exact page_eq_of_px below below' same2 same1 samePage.2

theorem leafPte_of_page_eq {va va' : Nat} (same : va / pgSize = va' / pgSize) :
    leafPte mem pt va = leafPte mem pt va' := by
  simp only [leafPte, leafSlot_eq, px_of_page_eq same]


/-- `mem'` holds the bytes of `mem` in every table page of `pt`. -/
def SameTables (mem mem' : Mem) (pt : Nat) : Prop :=
  ∀ p, IsTable mem pt p → ∀ k < pgSize, mem' (p + k) = mem (p + k)

theorem entry_of_sameTables (same : SameTables mem mem' pt) {t i : Nat} (table : IsTable mem pt t)
    (index : i < 512) : entry mem' t i = entry mem t i := by
  apply readLE_congr
  intro a lower upper
  have := same t table (a - t) (by rw [pgSize]; omega)
  rwa [Nat.add_sub_cancel' (by omega)] at this

theorem next_of_sameTables (same : SameTables mem mem' pt) {t i : Nat} (table : IsTable mem pt t)
    (index : i < 512) : next mem' t i = next mem t i := by
  simp only [next, entry_of_sameTables same table index]

/-- `mem'` has the entries of `mem` in the root and the middle pages of `pt`,
the only entries `tablePage` reads. -/
def SameUpper (mem mem' : Mem) (pt : Nat) : Prop :=
  ∀ q t, tablePage mem pt q = some t → (∀ a b, q ≠ .low a b) → ∀ j < 512, entry mem' t j = entry mem t j

theorem tablePage_of_sameUpper (same : SameUpper mem mem' pt) (q : Pos) :
    tablePage mem' pt q = tablePage mem pt q := by
  have root {i : Nat} (index : i < 512) : next mem' pt i = next mem pt i := by
    simp only [next, same .root pt rfl (by simp) i index]
  cases q with
  | root => rfl
  | mid i =>
      simp only [tablePage]
      split_ifs with index
      · exact root index
      · rfl
  | low i j =>
      simp only [tablePage]
      split_ifs with index
      · rw [root index.1]
        cases found : next mem pt i with
        | none => simp only [Option.bind_none]
        | some mid =>
            have atMid : tablePage mem pt (.mid i) = some mid := by simp [tablePage, index.1, found]
            simp only [Option.bind_some, next, same (.mid i) mid atMid (by simp) j index.2]
      · rfl

theorem sameUpper_of_sameTables (same : SameTables mem mem' pt) : SameUpper mem mem' pt :=
  fun _ _ found _ _ index => entry_of_sameTables same ⟨_, found⟩ index

theorem tablePage_of_sameTables (same : SameTables mem mem' pt) (q : Pos) :
    tablePage mem' pt q = tablePage mem pt q :=
  tablePage_of_sameUpper (sameUpper_of_sameTables same) q

theorem isTable_of_sameTables (same : SameTables mem mem' pt) (p : Nat) :
    IsTable mem' pt p ↔ IsTable mem pt p := by
  simp only [IsTable, tablePage_of_sameTables same]

theorem leafPte_of_sameTables (same : SameTables mem mem' pt) (va : Nat) :
    leafPte mem' pt va = leafPte mem pt va := by
  have slot : leafSlot mem' pt va = leafSlot mem pt va := by
    rw [leafSlot_eq, leafSlot_eq, tablePage_of_sameTables same]
  unfold leafPte
  rw [slot]
  cases found : leafSlot mem pt va with
  | none => rfl
  | some slot =>
      obtain ⟨low, here, rfl⟩ := leafSlot_some found
      have read := entry_of_sameTables same ⟨_, here⟩ (px_lt 0 va)
      simp only [entry] at read
      simp only [read]

theorem sameTables_trans {mem'' : Mem} (first : SameTables mem mem' pt) (second : SameTables mem' mem'' pt) :
    SameTables mem mem'' pt := by
  intro p table k small
  rw [second p ((isTable_of_sameTables first p).mpr table) k small]
  exact first p table k small

theorem Tree.of_sameUpper (table : Tree mem pt) (same : SameUpper mem mem' pt) : Tree mem' pt where
  aligned := table.aligned
  distinct q q' p := by
    simp only [tablePage_of_sameUpper same]
    exact table.distinct q q' p

theorem Table.of_sameUpper {s : Phys} (table : Table s pt) {mem' : Mem} (same : SameUpper s.mem mem' pt) :
    Table { s with mem := mem' } pt where
  toTree := table.toTree.of_sameUpper same
  nodup := table.nodup
  freePage := table.freePage
  freeApart p free := by
    simp only [IsTable, tablePage_of_sameUpper same]
    exact table.freeApart p free

theorem Table.of_sameTables {s : Phys} (table : Table s pt) {mem' : Mem} (same : SameTables s.mem mem' pt) :
    Table { s with mem := mem' } pt :=
  table.of_sameUpper (sameUpper_of_sameTables same)

/-- A memory changed only outside the table pages keeps them. -/
theorem sameTables_of_outside (outside : ∀ a, mem' a ≠ mem a → ∀ p, IsTable mem pt p → a < p ∨ p + pgSize ≤ a) :
    SameTables mem mem' pt := by
  intro p table k small
  by_contra differ
  have := outside (p + k) differ p table
  omega

theorem sameTables_of_inside {pt p : Nat} (table : Tree mem pt) (aligned : p % pgSize = 0)
    (notTable : ¬ IsTable mem pt p) (inside : ∀ a, mem' a ≠ mem a → p ≤ a ∧ a < p + pgSize) :
    SameTables mem mem' pt := by
  apply sameTables_of_outside
  intro a changed t isTable
  obtain ⟨q, found⟩ := isTable
  have pageT := tablePage_aligned table.aligned q t found
  have other : t ≠ p := fun same => notTable ⟨q, same ▸ found⟩
  have within := inside a changed
  rw [pgSize] at pageT aligned within ⊢
  omega

theorem sameTables_fill {pt p : Nat} (table : Tree mem pt) (aligned : p % pgSize = 0)
    (notTable : ¬ IsTable mem pt p) (b : UInt8) : SameTables mem (fill mem p pgSize b) pt := by
  apply sameTables_of_inside table aligned notTable
  intro a changed
  by_contra outside
  simp only [fill] at changed
  rw [if_neg outside] at changed
  exact changed rfl

end Lookup

section Leaf

variable {s : Phys} {pt va slot : Nat}

theorem sameUpper_setLeaf (table : Tree s.mem pt) (found : leafSlot s.mem pt va = some slot) (v : Nat) :
    SameUpper s.mem (writeLE s.mem slot 8 v) pt := by
  obtain ⟨low, lowFound, rfl⟩ := leafSlot_some found
  intro q t upper inner j index
  have lowNe : low ≠ t := fun same => inner _ _ (table.distinct _ _ _ upper (same ▸ lowFound))
  exact entry_writeLE_of_ne v (tablePage_aligned table.aligned _ _ lowFound)
    (tablePage_aligned table.aligned _ _ upper) (px_lt 0 va) index (.inl lowNe)

theorem leafSlot_setLeaf (table : Tree s.mem pt) (found : leafSlot s.mem pt va = some slot) (v va' : Nat) :
    leafSlot (writeLE s.mem slot 8 v) pt va' = leafSlot s.mem pt va' := by
  rw [leafSlot_eq, leafSlot_eq, tablePage_of_sameUpper (sameUpper_setLeaf table found v)]

theorem leafPte_setLeaf (table : Tree s.mem pt) (below : va < maxVa) (found : leafSlot s.mem pt va = some slot)
    (v : Nat) {va' : Nat} (below' : va' < maxVa) :
    leafPte (writeLE s.mem slot 8 v) pt va' =
      if va' / pgSize = va / pgSize then (if flagSet (v % 2 ^ 64) pteV then some (v % 2 ^ 64) else none)
      else leafPte s.mem pt va' := by
  unfold leafPte
  rw [leafSlot_setLeaf table found v va']
  by_cases samePage : va' / pgSize = va / pgSize
  · have here : leafSlot s.mem pt va' = some slot := by
      rw [← found, leafSlot_eq, leafSlot_eq, px_of_page_eq samePage 2, px_of_page_eq samePage 1,
        px_of_page_eq samePage 0]
    simp only [here, readLE_writeLE, if_pos samePage, show (256 : Nat) ^ 8 = 2 ^ 64 from rfl]
  · rw [if_neg samePage]
    cases found' : leafSlot s.mem pt va' with
    | none => rfl
    | some slot' =>
        have differ : slot' ≠ slot := fun same =>
          samePage (leafSlot_injective table below' below found' (same ▸ found))
        obtain ⟨low, lowFound, rfl⟩ := leafSlot_some found
        obtain ⟨low', lowFound', rfl⟩ := leafSlot_some found'
        have other : low' ≠ low ∨ px 0 va' ≠ px 0 va :=
          not_and_or.mp fun same => differ (by rw [same.1, same.2])
        have apart := slots_apart (tablePage_aligned table.aligned _ _ lowFound')
          (tablePage_aligned table.aligned _ _ lowFound) (px_lt 0 va') (px_lt 0 va) other
        simp only [readLE_writeLE_of_disjoint _ _ _ _ _ _ apart]

theorem table_setLeaf (table : Table s pt) (found : leafSlot s.mem pt va = some slot) (v : Nat) :
    Table { s with mem := writeLE s.mem slot 8 v } pt :=
  table.of_sameUpper (sameUpper_setLeaf table.toTree found v)

theorem table_setLeaf' (table : Tree s.mem pt) (found : leafSlot s.mem pt va = some slot) (v : Nat) :
    Tree (writeLE s.mem slot 8 v) pt :=
  table.of_sameUpper (sameUpper_setLeaf table found v)

theorem isTable_setLeaf (table : Tree s.mem pt) (found : leafSlot s.mem pt va = some slot) (v p : Nat) :
    IsTable (writeLE s.mem slot 8 v) pt p ↔ IsTable s.mem pt p := by
  simp only [IsTable, tablePage_of_sameUpper (sameUpper_setLeaf table found v)]

theorem setLeaf_written (found : leafSlot s.mem pt va = some slot) (v a : Nat)
    (changed : writeLE s.mem slot 8 v a ≠ s.mem a) :
    ∃ p, IsTable s.mem pt p ∧ p ≤ a ∧ a < p + pgSize := by
  obtain ⟨low, lowFound, rfl⟩ := leafSlot_some found
  have inSlot : low + 8 * px 0 va ≤ a ∧ a < low + 8 * px 0 va + 8 := by
    by_contra outside
    exact changed (writeLE_of_outside _ _ _ _ _ (by omega))
  have index := px_lt 0 va
  exact ⟨low, ⟨_, lowFound⟩, by omega, by rw [pgSize]; omega⟩

end Leaf

end Xv6.Vm
