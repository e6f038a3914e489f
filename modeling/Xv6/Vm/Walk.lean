import Mathlib
import Xv6.Vm.PageTable

/-!
`walk` with `alloc` set. One step takes a page off the free list, zeroes it and
links it under an invalid entry (`linked`); the tree then has the new page at
one new position and is unchanged elsewhere (`tablePage_linked`). A whole
`walk` is a chain of such steps (`Grows`): the tree stays well formed, no
mapping changes, only table pages are written, and the slot returned is the
leaf slot of the address (`walkFrom_alloc`).
-/

namespace Xv6.Vm

open Bytes

/-- The position below `q` through entry `i`. -/
def Pos.child : Pos → Nat → Pos
  | .root, i => .mid i
  | .mid i, j => .low i j
  | .low i j, _ => .low i j

/-- A middle position is the child of the root only. -/
theorem Pos.mid_eq_child {q : Pos} {k i : Nat} : Pos.mid k = q.child i ↔ Pos.root = q ∧ k = i := by
  cases q <;> simp [Pos.child]

theorem Pos.low_eq_child {q : Pos} {k l i : Nat} (inner : ∀ a b, q ≠ .low a b) :
    Pos.low k l = q.child i ↔ Pos.mid k = q ∧ l = i := by
  cases q with
  | root => simp [Pos.child]
  | mid i0 => simp [Pos.child]
  | low a b => exact absurd rfl (inner a b)

theorem Pos.ne_child {q : Pos} {i : Nat} (inner : ∀ a b, q ≠ .low a b) : q ≠ q.child i := by
  cases q with
  | root => simp [Pos.child]
  | mid i0 => simp [Pos.child]
  | low a b => exact absurd rfl (inner a b)

section Grow

/-! One step of `walk` with `alloc`: a page from `kalloc`, zeroed, becomes the
page of an invalid entry `i` of the table page `t` at position `q`. -/

variable {s : Phys} {pt t i page : Nat} {q : Pos} {rest : List Nat}

theorem link_entry {page : Nat} (low : page < phyStop) (aligned : page % pgSize = 0) :
    (pa2pte page ||| pteV) % 2 ^ 64 = pa2pte page ||| pteV ∧
      flagSet (pa2pte page ||| pteV) pteV = true ∧ pte2pa (pa2pte page ||| pteV) = page := by
  have one : pteV < 1024 := by decide
  have bound := phyStop_lt
  refine ⟨?_, ?_, pte2pa_pa2pte aligned (by omega) one⟩
  · rw [pa2pte_or page one, show pteV = 1 from rfl]
    omega
  · exact (flagSet_pa2pte one (show 0 < 10 by decide)).trans (by decide)

/-- The memory after the step. -/
def linked (mem : Mem) (t i page : Nat) : Mem :=
  writeLE (fill (fill mem page pgSize 5) page pgSize 0) (t + 8 * i) 8 (pa2pte page ||| pteV)

theorem linked_apply (mem : Mem) (t i page a : Nat) (outside : a < page ∨ page + pgSize ≤ a)
    (outside' : a < t + 8 * i ∨ t + 8 * i + 8 ≤ a) : linked mem t i page a = mem a := by
  rw [linked, writeLE_of_outside _ _ _ _ _ outside']
  simp only [fill]
  rw [if_neg (by omega), if_neg (by omega)]

/-- After the step, entry `i` of `t` leads to `page`, `page` leads nowhere, and
every other entry of a table page is as before. -/
theorem next_linked (table : Table s pt) (free : s.freelist = page :: rest)
    (found : tablePage s.mem pt q = some t) (index : i < 512) {t' j : Nat}
    (old : IsTable s.mem pt t' ∨ t' = page) (index' : j < 512) :
    next (linked s.mem t i page) t' j =
      if t' = t ∧ j = i then some page else if t' = page then none else next s.mem t' j := by
  obtain ⟨aligned, low⟩ := table.freePage page (by simp [free])
  have fresh := table.freeApart page (by simp [free])
  have pageT := tablePage_aligned table.aligned q t found
  obtain ⟨wide, valid, back⟩ := link_entry low aligned
  have pageT' : t' % pgSize = 0 := by
    rcases old with ⟨q', found'⟩ | rfl
    · exact tablePage_aligned table.aligned q' t' found'
    · exact aligned
  by_cases here : t' = t ∧ j = i
  · obtain ⟨rfl, rfl⟩ := here
    simp only [next, linked, entry_writeLE_self, wide, valid, back, and_self, if_true]
  · rw [if_neg here, next, next, linked, entry_writeLE_of_ne _ pageT pageT' index index'
      ((not_and_or.mp here).imp Ne.symm Ne.symm)]
    by_cases isPage : t' = page
    · subst isPage
      rw [if_pos rfl, entry_fill_zero index']
      simp [flagSet]
    · rw [if_neg isPage, entry_fill_of_ne _ pageT' aligned isPage index',
        entry_fill_of_ne _ pageT' aligned isPage index']

theorem eq_iff_at (table : Table s pt) (found : tablePage s.mem pt q = some t) {q' : Pos} {t' : Nat}
    (found' : tablePage s.mem pt q' = some t') : t' = t ↔ q' = q := by
  constructor
  · rintro rfl
    exact table.distinct _ _ _ found' found
  · rintro rfl
    rw [found] at found'
    exact (Option.some.inj found').symm

theorem tablePage_child (found : tablePage s.mem pt q = some t) (inner : ∀ a b, q ≠ .low a b)
    (index : i < 512) : tablePage s.mem pt (q.child i) = next s.mem t i := by
  cases q with
  | root =>
      cases found
      simp [Pos.child, tablePage, index]
  | mid i0 =>
      simp only [tablePage] at found
      split_ifs at found with index0
      simp [Pos.child, tablePage, index0, index, found]
  | low a b => exact absurd rfl (inner a b)

section Linked

variable (table : Table s pt) (free : s.freelist = page :: rest) (found : tablePage s.mem pt q = some t)
  (inner : ∀ a b, q ≠ .low a b) (index : i < 512) (invalid : next s.mem t i = none)
include table free found inner index invalid

omit inner invalid in
theorem tablePage_linked_mid (k : Nat) :
    tablePage (linked s.mem t i page) pt (.mid k) =
      if Pos.mid k = q.child i then some page else tablePage s.mem pt (.mid k) := by
  have fresh := table.freeApart page (by simp [free])
  have root : IsTable s.mem pt pt := ⟨.root, rfl⟩
  have rootNe : pt ≠ page := fun same => fresh (same ▸ root)
  simp only [tablePage]
  by_cases kIndex : k < 512
  · rw [if_pos kIndex, if_pos kIndex, next_linked table free found index (.inl root) kIndex,
      if_neg rootNe]
    apply if_congr _ rfl rfl
    rw [eq_iff_at table found (show tablePage s.mem pt .root = some pt from rfl), Pos.mid_eq_child]
  · have notChild : Pos.mid k ≠ q.child i := fun same => kIndex ((Pos.mid_eq_child.mp same).2 ▸ index)
    rw [if_neg kIndex, if_neg notChild, if_neg kIndex]

omit inner in
theorem tablePage_linked_low_of_root (k l : Nat) (kl : k < 512 ∧ l < 512) (onRoot : pt = t ∧ k = i) :
    tablePage (linked s.mem t i page) pt (.low k l) = none ∧ tablePage s.mem pt (.low k l) = none := by
  have fresh := table.freeApart page (by simp [free])
  have rootNe : pt ≠ page := fun same => fresh (same ▸ ⟨.root, rfl⟩)
  obtain ⟨rfl, rfl⟩ := onRoot
  have pageNe : ¬ (page = pt ∧ l = k) := fun same => rootNe same.1.symm
  simp only [tablePage, if_pos kl]
  rw [next_linked table free found index (.inl ⟨.root, rfl⟩) kl.1, if_pos ⟨rfl, rfl⟩, Option.bind_some,
    next_linked table free found index (.inr rfl) kl.2, if_neg pageNe, if_pos rfl, invalid,
    Option.bind_none]
  exact ⟨rfl, rfl⟩

theorem tablePage_linked_low (k l : Nat) :
    tablePage (linked s.mem t i page) pt (.low k l) =
      if Pos.low k l = q.child i then some page else tablePage s.mem pt (.low k l) := by
  have fresh := table.freeApart page (by simp [free])
  have root : IsTable s.mem pt pt := ⟨.root, rfl⟩
  have rootNe : pt ≠ page := fun same => fresh (same ▸ root)
  by_cases kl : k < 512 ∧ l < 512
  · by_cases onRoot : pt = t ∧ k = i
    · obtain ⟨after, before⟩ := tablePage_linked_low_of_root table free found index invalid k l kl onRoot
      have isRoot : q = .root :=
        ((eq_iff_at table found (show tablePage s.mem pt .root = some pt from rfl)).mp onRoot.1).symm
      rw [after, before, isRoot, if_neg (by simp [Pos.child])]
    · simp only [tablePage, if_pos kl]
      rw [next_linked table free found index (.inl root) kl.1, if_neg rootNe, if_neg onRoot]
      cases midFound : next s.mem pt k with
      | none =>
          -- `q` would be the middle position `k`, which has no table page
          have notChild : Pos.low k l ≠ q.child i := fun same => by
            obtain ⟨rfl, -⟩ := (Pos.low_eq_child inner).mp same
            simp [tablePage, kl.1, midFound] at found
          rw [if_neg notChild]
          simp only [Option.bind_none]
      | some t1 =>
          have found1 : tablePage s.mem pt (.mid k) = some t1 := by
            simp only [tablePage, if_pos kl.1, midFound]
          have t1Ne : t1 ≠ page := fun same => fresh ⟨_, same ▸ found1⟩
          rw [Option.bind_some, Option.bind_some,
            next_linked table free found index (.inl ⟨_, found1⟩) kl.2, if_neg t1Ne]
          apply if_congr _ rfl rfl
          rw [eq_iff_at table found found1, Pos.low_eq_child inner]
  · -- the child's indices are those of a table page and `i`, both in range
    have notChild : Pos.low k l ≠ q.child i := fun same => by
      obtain ⟨rfl, rfl⟩ := (Pos.low_eq_child inner).mp same
      simp only [tablePage] at found
      split_ifs at found with index0
      exact kl ⟨index0, index⟩
    simp only [tablePage]
    rw [if_neg kl, if_neg notChild, if_neg kl]

theorem tablePage_linked (q' : Pos) :
    tablePage (linked s.mem t i page) pt q' =
      if q' = q.child i then some page else tablePage s.mem pt q' := by
  cases q' with
  | root =>
      have notChild : Pos.root ≠ q.child i := by cases q <;> simp [Pos.child]
      rw [if_neg notChild]
      rfl
  | mid k => exact tablePage_linked_mid table free found index k
  | low k l => exact tablePage_linked_low table free found inner index invalid k l

end Linked

theorem entry_linked_of_ne (table : Table s pt) (free : s.freelist = page :: rest)
    (found : tablePage s.mem pt q = some t) (index : i < 512) {t' j : Nat} (old : IsTable s.mem pt t')
    (index' : j < 512) (other : t' ≠ t ∨ j ≠ i) : entry (linked s.mem t i page) t' j = entry s.mem t' j := by
  obtain ⟨aligned, -⟩ := table.freePage page (by simp [free])
  have fresh := table.freeApart page (by simp [free])
  have pageT := tablePage_aligned table.aligned q t found
  obtain ⟨q', found'⟩ := old
  have pageT' := tablePage_aligned table.aligned q' t' found'
  have t'Ne : t' ≠ page := fun same => fresh ⟨q', same ▸ found'⟩
  rw [linked, entry_writeLE_of_ne _ pageT pageT' index index' (other.imp Ne.symm Ne.symm),
    entry_fill_of_ne _ pageT' aligned t'Ne index', entry_fill_of_ne _ pageT' aligned t'Ne index']

section Linked'

variable (table : Table s pt) (free : s.freelist = page :: rest) (found : tablePage s.mem pt q = some t)
  (inner : ∀ a b, q ≠ .low a b) (index : i < 512) (invalid : next s.mem t i = none)
include table free found inner index invalid

theorem table_linked : Table { s with mem := linked s.mem t i page, freelist := rest } pt := by
  have fresh := table.freeApart page (by simp [free])
  have nodup : (page :: rest).Nodup := free ▸ table.nodup
  have linked := tablePage_linked table free found inner index invalid
  refine ⟨⟨table.aligned, ?_⟩, ⟨(List.nodup_cons.mp nodup).2, ?_⟩, ?_⟩
  · intro q1 q2 p found1 found2
    simp only [linked] at found1 found2
    split_ifs at found1 found2 with child1 child2 child2
    · rw [child1, child2]
    · cases found1
      exact absurd ⟨q2, found2⟩ fresh
    · cases found2
      exact absurd ⟨q1, found1⟩ fresh
    · exact table.distinct q1 q2 p found1 found2
  · intro p member
    exact table.freePage p (by rw [free]; exact List.mem_cons_of_mem _ member)
  · rintro p member ⟨q', found'⟩
    simp only [linked] at found'
    split_ifs at found'
    · cases found'
      exact (List.nodup_cons.mp nodup).1 member
    · exact table.freeApart p (by rw [free]; exact List.mem_cons_of_mem _ member) ⟨q', found'⟩

theorem leafPte_linked (va : Nat) : leafPte (linked s.mem t i page) pt va = leafPte s.mem pt va := by
  have fresh := table.freeApart page (by simp [free])
  have tNe : t ≠ page := fun same => fresh ⟨q, same ▸ found⟩
  unfold leafPte
  rw [leafSlot_eq, leafSlot_eq, tablePage_linked table free found inner index invalid]
  split_ifs with isChild
  · have before : tablePage s.mem pt (.low (px 2 va) (px 1 va)) = none := by
      rw [isChild, tablePage_child found inner index, invalid]
    have nothing := next_linked table free found index (.inr rfl) (px_lt 0 va)
    rw [if_neg (fun same => tNe same.1.symm), if_pos rfl] at nothing
    have leafInvalid : flagSet (readLE (linked s.mem t i page) (page + 8 * px 0 va) 8) pteV = false := by
      cases valid : flagSet (readLE (linked s.mem t i page) (page + 8 * px 0 va) 8) pteV with
      | false => rfl
      | true => simp [next, entry, valid] at nothing
    simp [before, leafInvalid]
  · cases low : tablePage s.mem pt (.low (px 2 va) (px 1 va)) with
    | none => rfl
    | some t0 =>
        have t0Ne : t0 ≠ t := fun same => by
          have := (eq_iff_at table found low).mp same
          exact inner _ _ this.symm
        have same := entry_linked_of_ne table free found index ⟨_, low⟩ (px_lt 0 va) (.inl t0Ne)
        simp only [entry] at same
        simp only [Option.map_some, same]

theorem linked_written (a : Nat) (changed : linked s.mem t i page a ≠ s.mem a) :
    ∃ p, IsTable (linked s.mem t i page) pt p ∧ p ≤ a ∧ a < p + pgSize := by
  have linked := tablePage_linked table free found inner index invalid
  by_cases inPage : page ≤ a ∧ a < page + pgSize
  · exact ⟨page, ⟨q.child i, by rw [linked, if_pos rfl]⟩, inPage⟩
  · have inSlot : t + 8 * i ≤ a ∧ a < t + 8 * i + 8 := by
      by_contra outside
      exact changed (linked_apply _ _ _ _ _ (by omega) (by omega))
    have notChild : q ≠ q.child i := Pos.ne_child inner
    refine ⟨t, ⟨q, by rw [linked, if_neg notChild, found]⟩, by omega, ?_⟩
    rw [pgSize]
    omega

end Linked'

/-- `s'` is `s` after the page table `pt` was extended: still a `Table`, every
table page still one, the pages taken off the free list now table pages and no
other page a new one, and only bytes of table pages written. -/
structure Extends (pt : Nat) (s s' : Phys) : Prop where
  table : Table s' pt
  tables : ∀ p, IsTable s.mem pt p → IsTable s'.mem pt p
  taken : ∃ k, s'.freelist = s.freelist.drop k ∧ ∀ p ∈ s.freelist.take k, IsTable s'.mem pt p
  grown : ∀ p, IsTable s'.mem pt p → IsTable s.mem pt p ∨ p ∈ s.freelist
  written : ∀ a, s'.mem a ≠ s.mem a → ∃ p, IsTable s'.mem pt p ∧ p ≤ a ∧ a < p + pgSize
  kend : s'.kend = s.kend

/-- `walk` grew the tree: an extension that changed no mapping. -/
structure Grows (pt : Nat) (s s' : Phys) : Prop extends Extends pt s s' where
  leafPte : ∀ va, leafPte s'.mem pt va = leafPte s.mem pt va

theorem Extends.refl (table : Table s pt) : Extends pt s s where
  table := table
  tables _ := id
  taken := ⟨0, by simp, by simp⟩
  grown _ table := .inl table
  written _ same := absurd rfl same
  kend := rfl

theorem Extends.trans {s' s'' : Phys} (first : Extends pt s s') (second : Extends pt s' s'') :
    Extends pt s s'' where
  table := second.table
  tables p old := second.tables p (first.tables p old)
  taken := by
    obtain ⟨k, freelist, taken⟩ := first.taken
    obtain ⟨k', freelist', taken'⟩ := second.taken
    refine ⟨k + k', by rw [freelist', freelist, List.drop_drop], ?_⟩
    intro p member
    rw [List.take_add, List.mem_append] at member
    rcases member with early | late
    · exact second.tables p (taken p early)
    · exact taken' p (by rwa [freelist])
  grown p table := by
    rcases second.grown p table with old | free
    · exact first.grown p old
    · obtain ⟨k, freelist, -⟩ := first.taken
      rw [freelist] at free
      exact .inr (List.mem_of_mem_drop free)
  written a changed := by
    by_cases later : s''.mem a ≠ s'.mem a
    · exact second.written a later
    · obtain ⟨p, table, inside⟩ := first.written a (by rwa [← not_not.mp later])
      exact ⟨p, second.tables p table, inside⟩
  kend := second.kend.trans first.kend

theorem Grows.refl (table : Table s pt) : Grows pt s s :=
  { Extends.refl table with leafPte := fun _ => rfl }

theorem Grows.trans {s' s'' : Phys} (first : Grows pt s s') (second : Grows pt s' s'') : Grows pt s s'' :=
  { first.toExtends.trans second.toExtends with
    leafPte := fun va => (second.leafPte va).trans (first.leafPte va) }

/-- Writing a leaf slot extends the table without growing it. -/
theorem extends_setLeaf (table : Table s pt) {va slot : Nat} (found : leafSlot s.mem pt va = some slot)
    (v : Nat) : Extends pt s { s with mem := writeLE s.mem slot 8 v } where
  table := table_setLeaf table found v
  tables p old := (isTable_setLeaf table.toTree found v p).mpr old
  taken := ⟨0, by simp, by simp⟩
  grown p isTable := .inl ((isTable_setLeaf table.toTree found v p).mp isTable)
  written a changed := by
    obtain ⟨p, isTable, inside⟩ := setLeaf_written found v a changed
    exact ⟨p, (isTable_setLeaf table.toTree found v p).mpr isTable, inside⟩
  kend := rfl

theorem grows_linked (table : Table s pt) (free : s.freelist = page :: rest)
    (found : tablePage s.mem pt q = some t) (inner : ∀ a b, q ≠ .low a b) (index : i < 512)
    (invalid : next s.mem t i = none) :
    Grows pt s { s with mem := linked s.mem t i page, freelist := rest } where
  table := table_linked table free found inner index invalid
  leafPte := leafPte_linked table free found inner index invalid
  tables p old := by
    obtain ⟨q', found'⟩ := old
    have fresh := table.freeApart page (by simp [free])
    have notChild : q' ≠ q.child i := by
      rintro rfl
      rw [tablePage_child found inner index, invalid] at found'
      cases found'
    exact ⟨q', by simp only [tablePage_linked table free found inner index invalid, if_neg notChild, found']⟩
  taken := ⟨1, by simp [free], by
    intro p member
    simp only [free, List.take_succ_cons, List.take_zero, List.mem_singleton] at member
    subst member
    exact ⟨q.child i, by rw [tablePage_linked table free found inner index invalid, if_pos rfl]⟩⟩
  grown p isTable := by
    obtain ⟨q', found'⟩ := isTable
    rw [tablePage_linked table free found inner index invalid] at found'
    split_ifs at found' with child
    · cases found'
      exact .inr (by simp [free])
    · exact .inl ⟨q', found'⟩
  written := linked_written table free found inner index invalid
  kend := rfl

end Grow
/-- Where `walk` stands for `va` at `level`. -/
def Pos.along (va : Nat) : Nat → Pos
  | 0 => .low (px 2 va) (px 1 va)
  | 1 => .mid (px 2 va)
  | _ => .root

theorem along_child (va : Nat) {level : Nat} (inside : level + 1 ≤ 2) :
    (Pos.along va (level + 1)).child (px (level + 1) va) = Pos.along va level := by
  rcases level with _ | _ | level
  · rfl
  · rfl
  · omega

theorem along_inner (va level a b : Nat) : Pos.along va (level + 1) ≠ .low a b := by
  rcases level with _ | _ | level <;> simp [Pos.along]

/-- `walk` with `alloc` from the table page at `level`: the tree only grows, the
slot it returns is the leaf slot of `va`, it takes at most `level` pages, and
it returns `0` only when the free list held fewer pages than it needed. -/
theorem walkFrom_alloc {va : Nat} (level : Nat) (inside : level ≤ 2) {s : Phys} {t : Nat}
    (table : Table s pt) (found : tablePage s.mem pt (Pos.along va level) = some t) :
    Grows pt s (walkFrom va true level t s).2 ∧
      (∀ slot, (walkFrom va true level t s).1 = some slot →
        leafSlot (walkFrom va true level t s).2.mem pt va = some slot) ∧
      s.freelist.length ≤ (walkFrom va true level t s).2.freelist.length + level ∧
      ((walkFrom va true level t s).1 = none →
        (walkFrom va true level t s).2.freelist = [] ∧ s.freelist.length < level) := by
  induction level generalizing s t with
  | zero =>
      refine ⟨Grows.refl table, ?_, by simp [walkFrom], by simp [walkFrom]⟩
      intro slot returned
      simp only [walkFrom, Option.some.injEq] at returned
      rw [leafSlot_eq, ← returned]
      simp only [Pos.along] at found
      simp [walkFrom, found]
  | succ level ih =>
      have child := along_child va inside
      have inner := along_inner va level
      have index := px_lt (level + 1) va
      by_cases valid : flagSet (entry s.mem t (px (level + 1) va)) pteV
      · -- the entry leads one level down: nothing is allocated here
        have step : walkFrom va true (level + 1) t s =
            walkFrom va true level (pte2pa (entry s.mem t (px (level + 1) va))) s := by
          simp only [walkFrom]
          rw [entry] at valid
          rw [if_pos valid]
          rfl
        have found' : tablePage s.mem pt (Pos.along va level) = some (pte2pa (entry s.mem t (px (level + 1) va))) := by
          rw [← child, tablePage_child found inner index, next, if_pos valid]
        rw [step]
        obtain ⟨grows, slot, count, ranOut⟩ := ih (by omega) table found'
        exact ⟨grows, slot, by omega, fun none => ⟨(ranOut none).1, by have := (ranOut none).2; omega⟩⟩
      · have invalid : next s.mem t (px (level + 1) va) = none := by simp [next, valid]
        cases free : s.freelist with
        | nil =>
            have step : walkFrom va true (level + 1) t s = (none, s) := by
              simp only [walkFrom, kalloc, free]
              rw [entry] at valid
              rw [if_neg valid]
              rfl
            rw [step]
            exact ⟨Grows.refl table, by simp, by simp [free], fun _ => ⟨free, by simp⟩⟩
        | cons page rest =>
            -- `kalloc` succeeds: the page is linked in and `walk` goes on from it
            have step : walkFrom va true (level + 1) t s =
                walkFrom va true level page
                  { s with mem := linked s.mem t (px (level + 1) va) page, freelist := rest } := by
              simp only [walkFrom, kalloc, free]
              rw [entry] at valid
              rw [if_neg valid]
              rfl
            have grows := grows_linked table free found inner index invalid
            have found' : tablePage (linked s.mem t (px (level + 1) va) page) pt (Pos.along va level) = some page := by
              rw [tablePage_linked table free found inner index invalid, if_pos child.symm]
            obtain ⟨grows', slot, count, ranOut⟩ := ih (by omega) grows.table found'
            rw [step]
            refine ⟨grows.trans grows', slot, ?_, fun none => ⟨(ranOut none).1, ?_⟩⟩
            · simp only [List.length_cons] at count ⊢
              omega
            · have := (ranOut none).2
              simp only [List.length_cons] at this ⊢
              omega

theorem walk_alloc {s s' : Phys} {va : Nat} {r : Option Nat} (table : Table s pt)
    (walked : walk s pt va true = .ok (r, s')) :
    va < maxVa ∧ Grows pt s s' ∧ (∀ slot, r = some slot → leafSlot s'.mem pt va = some slot) ∧
      s.freelist.length ≤ s'.freelist.length + 2 ∧ (r = none → s'.freelist = [] ∧ s.freelist.length < 2) := by
  unfold walk at walked
  split_ifs at walked with above
  have result : walkFrom va true 2 pt s = (r, s') := Except.ok.inj walked
  obtain ⟨grows, slot, count, ranOut⟩ :=
    walkFrom_alloc 2 le_rfl table (show tablePage s.mem pt .root = some pt from rfl)
  rw [result] at grows slot count ranOut
  exact ⟨Nat.lt_of_not_le above, grows, slot, count, ranOut⟩

end Xv6.Vm
