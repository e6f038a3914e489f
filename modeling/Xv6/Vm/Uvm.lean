import Mathlib
import Xv6.Vm.Copy

/-!
`uvmalloc`, `uvmdealloc` and `uvmcopy` of `kernel/vm.c`: growing, shrinking
and copying a process's user memory, with the cleanup each does when `kalloc`
or `mappages` fails.

`AddrSpace s pt sz` is the invariant of a process page table of size `sz`:
every page below `sz` is mapped, by a leaf, to a page of RAM that is neither a
table page nor free and that no other such page shares; nothing else below the
trapframe is mapped, and only pages below `sz` carry `PTE_U`. Its pages and the
free pages are distinct pages of RAM, so `sz` never exceeds `PHYSTOP`; that is
what keeps `uvmalloc`'s loop from reaching the trapframe, where `mappages`
would panic, before `kalloc` runs out.
-/

namespace Xv6.Vm

open Bytes

/-- `uvmdealloc(pagetable, oldsz, newsz)`: the new size, after freeing the
pages from `PGROUNDUP(newsz)` to `PGROUNDUP(oldsz)`. -/
def uvmdealloc (s : Phys) (pagetable oldsz newsz : Nat) : Except String (Nat × Phys) :=
  if newsz ≥ oldsz then .ok (oldsz, s)
  else if pgRoundUp newsz < pgRoundUp oldsz then
    -- `int npages`: the low 32 bits, sign-extended again as `uvmunmap`'s `uint64`
    let npages := (pgRoundUp oldsz - pgRoundUp newsz) / pgSize % 2 ^ 32
    let npages := if npages < 2 ^ 31 then npages else npages + (2 ^ 64 - 2 ^ 32)
    do
      let s ← uvmunmap s pagetable (pgRoundUp newsz) npages true
      return (newsz, s)
  else .ok (newsz, s)

/-- The loop of `uvmalloc` from `a`; `oldsz` is the rounded size it frees back
to when `kalloc` or `mappages` fails. -/
def uvmallocLoop (pagetable oldsz newsz xperm a : Nat) (s : Phys) : Except String (Nat × Phys) :=
  if a < newsz then
    match kalloc s with
    | none => do
        let (_, s) ← uvmdealloc s pagetable a oldsz
        return (0, s)
    | some (mem, s) =>
        let s := { s with mem := fill s.mem mem pgSize 0 }
        match mappages s pagetable a pgSize mem (pteR ||| pteU ||| xperm) with
        | .error msg => .error msg
        | .ok (0, s) => uvmallocLoop pagetable oldsz newsz xperm (a + pgSize) s
        | .ok (_, s) => do
            let s ← kfree s mem
            let (_, s) ← uvmdealloc s pagetable a oldsz
            return (0, s)
  else .ok (newsz, s)
termination_by newsz - a
decreasing_by
  rw [pgSize]
  omega

/-- `uvmalloc(pagetable, oldsz, newsz, xperm)`: the new size, or `0` on failure. -/
def uvmalloc (s : Phys) (pagetable oldsz newsz xperm : Nat) : Except String (Nat × Phys) :=
  if newsz < oldsz then .ok (oldsz, s)
  else uvmallocLoop pagetable (pgRoundUp oldsz) newsz xperm (pgRoundUp oldsz) s

/-- The `err` exit of `uvmcopy`: unmap and free the `i / PGSIZE` pages copied. -/
def uvmcopyErr (new i : Nat) (s : Phys) : Except String (Int × Phys) := do
  let s ← uvmunmap s new 0 (i / pgSize) true
  return (-1, s)

/-- The loop of `uvmcopy(old, new, sz)` from `i`. -/
def uvmcopyLoop (old new sz i : Nat) (s : Phys) : Except String (Int × Phys) :=
  if i < sz then
    match walk s old i false with
    | .error msg => .error msg
    | .ok (none, _) => .error "uvmcopy: pte should exist"
    | .ok (some pte, _) =>
        if !flagSet (readLE s.mem pte 8) pteV then .error "uvmcopy: page not present"
        else
          let pa := pte2pa (readLE s.mem pte 8)
          let flags := pteFlags (readLE s.mem pte 8)
          match kalloc s with
          | none => uvmcopyErr new i s
          | some (mem, s) =>
              let s := { s with mem := copy s.mem mem s.mem pa pgSize }
              match mappages s new i pgSize mem flags with
              | .error msg => .error msg
              | .ok (0, s) => uvmcopyLoop old new sz (i + pgSize) s
              | .ok (_, s) => do
                  let s ← kfree s mem
                  uvmcopyErr new i s
  else .ok (0, s)
termination_by sz - i
decreasing_by
  rw [pgSize]
  omega

def uvmcopy (s : Phys) (old new sz : Nat) : Except String (Int × Phys) :=
  uvmcopyLoop old new sz 0 s

/-- The invariant of a process page table `pt` of size `sz`, with the free
list beside it. -/
structure AddrSpace (s : Phys) (pt sz : Nat) : Prop extends Table s pt where
  kendPos : 0 < s.kend
  freeRam : ∀ p ∈ s.freelist, s.kend ≤ p
  below : ∀ vpn, vpn * pgSize < sz → (pageMap s.mem pt vpn).isSome
  above : ∀ vpn, sz ≤ vpn * pgSize → vpn * pgSize < trapframe → pageMap s.mem pt vpn = none
  data : ∀ vpn pa flags, vpn * pgSize < sz → pageMap s.mem pt vpn = some (pa, flags) →
    flags ≠ pteV ∧ s.kend ≤ pa ∧ pa < phyStop ∧ ¬ IsTable s.mem pt pa ∧ pa ∉ s.freelist
  unshared : ∀ vpn vpn' pa flags flags', vpn * pgSize < sz → vpn' * pgSize < sz →
    pageMap s.mem pt vpn = some (pa, flags) → pageMap s.mem pt vpn' = some (pa, flags') → vpn = vpn'
  user : ∀ vpn pa flags, pageMap s.mem pt vpn = some (pa, flags) → flagSet flags pteU → vpn * pgSize < sz

section Space

variable {s : Phys} {pt sz : Nat}

theorem phyStop_eq : phyStop = 0x88000000 := by decide

/-- A size within RAM rounds up to a page without wrapping. -/
theorem pgRoundUp_of_le {sz : Nat} (small : sz ≤ phyStop) : pgRoundUp sz = (sz + pgSize - 1) / pgSize * pgSize :=
  pgRoundUp_eq (by rw [phyStop_eq] at small; simp only [pgSize]; omega)

theorem AddrSpace.userPages (space : AddrSpace s pt sz) : UserPages s.mem pt where
  toTree := space.toTree
  notTable va pa found := by
    obtain ⟨flags, mapped, user⟩ := userPage_some found
    exact (space.data _ _ _ (space.user _ _ _ mapped user) mapped).2.2.2.1
  unshared va va' pa found found' := by
    obtain ⟨flags, mapped, user⟩ := userPage_some found
    obtain ⟨flags', mapped', user'⟩ := userPage_some found'
    exact space.unshared _ _ _ _ _ (space.user _ _ _ mapped user) (space.user _ _ _ mapped' user') mapped mapped'
  nonzero va pa found := by
    obtain ⟨flags, mapped, user⟩ := userPage_some found
    have := (space.data _ _ _ (space.user _ _ _ mapped user) mapped).2.1
    have := space.kendPos
    omega

theorem pageMap_aligned {mem : Mem} {vpn pa flags : Nat} (mapped : pageMap mem pt vpn = some (pa, flags)) :
    pa % pgSize = 0 := by
  unfold pageMap at mapped
  split_ifs at mapped
  obtain ⟨pte, -, same⟩ := Option.map_eq_some_iff.mp mapped
  rw [← (Prod.mk.inj same).1]
  exact pte2pa_aligned pte

/-- The page below `sz` at `vpn`. -/
def dataPage (s : Phys) (pt vpn : Nat) : Nat := ((pageMap s.mem pt vpn).map Prod.fst).getD 0

theorem pageMap_dataPage (space : AddrSpace s pt sz) {vpn : Nat} (inside : vpn * pgSize < sz) :
    ∃ flags, pageMap s.mem pt vpn = some (dataPage s pt vpn, flags) := by
  obtain ⟨⟨pa, flags⟩, mapped⟩ := Option.isSome_iff_exists.mp (space.below vpn inside)
  exact ⟨flags, by simp [dataPage, mapped]⟩

/-- The pages below `sz` and the free pages are distinct pages of RAM, so
there are at most `PHYSTOP / PGSIZE` of them. -/
theorem AddrSpace.pages_le (space : AddrSpace s pt sz) :
    (sz + pgSize - 1) / pgSize + s.freelist.length ≤ phyStop / pgSize := by
  have inside {vpn : Nat} (lt : vpn < (sz + pgSize - 1) / pgSize) : vpn * pgSize < sz := by
    simp only [pgSize] at lt ⊢
    omega
  let pages := (List.range ((sz + pgSize - 1) / pgSize)).map (dataPage s pt) ++ s.freelist
  have ram (p : Nat) (member : p ∈ pages) : p % pgSize = 0 ∧ p < phyStop := by
    rcases List.mem_append.mp member with data | free
    · obtain ⟨vpn, lt, rfl⟩ := List.mem_map.mp data
      obtain ⟨flags, mapped⟩ := pageMap_dataPage space (inside (List.mem_range.mp lt))
      exact ⟨pageMap_aligned mapped, (space.data _ _ _ (inside (List.mem_range.mp lt)) mapped).2.2.1⟩
    · exact space.freePage p free
  have nodup : pages.Nodup := by
    refine List.Nodup.append (List.Nodup.map_on ?_ List.nodup_range) space.nodup ?_
    · intro vpn lt vpn' lt' same
      obtain ⟨flags, mapped⟩ := pageMap_dataPage space (inside (List.mem_range.mp lt))
      obtain ⟨flags', mapped'⟩ := pageMap_dataPage space (inside (List.mem_range.mp lt'))
      rw [← same] at mapped'
      exact space.unshared _ _ _ _ _ (inside (List.mem_range.mp lt)) (inside (List.mem_range.mp lt'))
        mapped mapped'
    · intro p data free
      obtain ⟨vpn, lt, rfl⟩ := List.mem_map.mp data
      obtain ⟨flags, mapped⟩ := pageMap_dataPage space (inside (List.mem_range.mp lt))
      exact (space.data _ _ _ (inside (List.mem_range.mp lt)) mapped).2.2.2.2 free
  -- page numbers of distinct pages are distinct, and all lie below `PHYSTOP / PGSIZE`
  have numbers : (pages.map (· / pgSize)).Nodup := by
    refine List.Nodup.map_on (fun p member p' member' same => ?_) nodup
    have := (ram p member).1
    have := (ram p' member').1
    simp only [pgSize] at *
    omega
  have within : pages.map (· / pgSize) ⊆ List.range (phyStop / pgSize) := by
    intro n member
    obtain ⟨p, inPages, rfl⟩ := List.mem_map.mp member
    have := ram p inPages
    rw [List.mem_range]
    rw [phyStop_eq] at this ⊢
    simp only [pgSize] at this ⊢
    omega
  have count := (numbers.subperm within).length_le
  simpa [pages] using count

theorem uvmcreate_addrSpace {s' : Phys} {pagetable : Nat} (free : Free s) (kendPos : 0 < s.kend)
    (freeRam : ∀ p ∈ s.freelist, s.kend ≤ p) (created : uvmcreate s = some (pagetable, s')) :
    AddrSpace s' pagetable 0 := by
  obtain ⟨table, empty, rest⟩ := uvmcreate_table free created
  have kend : s'.kend = s.kend := by
    obtain ⟨rest, -, rfl⟩ := uvmcreate_eq created
    rfl
  refine ⟨table, kend ▸ kendPos, fun p member => ?_, fun vpn inside => absurd inside (Nat.not_lt_zero _),
    fun vpn _ _ => empty vpn, fun vpn _ _ inside => absurd inside (Nat.not_lt_zero _),
    fun _ _ _ _ _ inside => absurd inside (Nat.not_lt_zero _), fun vpn pa flags mapped => ?_⟩
  · rw [rest] at member
    exact kend ▸ freeRam p (List.mem_of_mem_tail member)
  · rw [empty] at mapped
    cases mapped

end Space

section Freeing

variable {s : Phys} {pt : Nat}

theorem leafPte_some {mem : Mem} {va pte : Nat} (found : leafPte mem pt va = some pte) :
    ∃ slot, leafSlot mem pt va = some slot ∧ flagSet (readLE mem slot 8) pteV ∧ readLE mem slot 8 = pte := by
  unfold leafPte at found
  split at found
  · cases found
  · rename_i slot here
    split_ifs at found with valid
    exact ⟨slot, here, valid, Option.some.inj found⟩

theorem kfree_eq {pa : Nat} (aligned : pa % pgSize = 0) (low : s.kend ≤ pa) (ram : pa < phyStop) :
    kfree s pa = .ok { s with mem := fill s.mem pa pgSize 1, freelist := pa :: s.freelist } := by
  rw [kfree, if_neg (by omega)]

theorem Table.kfree (table : Table s pt) {pa : Nat} (aligned : pa % pgSize = 0) (ram : pa < phyStop)
    (notFree : pa ∉ s.freelist) (notTable : ¬ IsTable s.mem pt pa) :
    Table { s with mem := fill s.mem pa pgSize 1, freelist := pa :: s.freelist } pt := by
  have same := sameTables_fill table.toTree aligned notTable 1
  have filled := table.of_sameTables same
  refine ⟨filled.toTree, ⟨List.nodup_cons.mpr ⟨notFree, table.nodup⟩, ?_⟩, ?_⟩
  · intro p member
    rcases List.mem_cons.mp member with rfl | free
    · exact ⟨aligned, ram⟩
    · exact table.freePage p free
  · intro p member
    rw [isTable_of_sameTables same]
    rcases List.mem_cons.mp member with rfl | free
    · exact notTable
    · exact table.freeApart p free

/-- The pages `uvmunmap`'s loop frees, from `a` below `stop`: each mapped by a
leaf to a page of RAM that is neither free nor a table page, no two the same. -/
structure Freeable (pt stop a : Nat) (s : Phys) : Prop where
  leaf : ∀ va, a ≤ va → va < stop → ∃ pte, va < maxVa ∧ leafPte s.mem pt va = some pte ∧
    pteFlags pte ≠ pteV ∧ s.kend ≤ pte2pa pte ∧ pte2pa pte < phyStop ∧ ¬ IsTable s.mem pt (pte2pa pte) ∧
    pte2pa pte ∉ s.freelist
  unshared : ∀ va va' pte pte', a ≤ va → va < stop → a ≤ va' → va' < stop → leafPte s.mem pt va = some pte →
    leafPte s.mem pt va' = some pte' → pte2pa pte = pte2pa pte' → va / pgSize = va' / pgSize

/-- One pass of `uvmunmap`'s loop over a freeable page: the page goes onto the
free list and its entry is cleared; the other pages stay freeable. -/
theorem uvmunmapLoop_freeStep (table : Table s pt) {stop a : Nat} (aligned : a % pgSize = 0)
    (freeable : Freeable pt stop a s) (more : a < stop) :
    ∃ pte s3, leafPte s.mem pt a = some pte ∧
      uvmunmapLoop pt stop true a s = uvmunmapLoop pt stop true (a + pgSize) s3 ∧
      Table s3 pt ∧ Freeable pt stop (a + pgSize) s3 ∧ s3.kend = s.kend ∧
      s3.freelist = pte2pa pte :: s.freelist ∧ (∀ p, IsTable s3.mem pt p ↔ IsTable s.mem pt p) ∧
      (∀ va, a + pgSize ≤ va → va < maxVa → leafPte s3.mem pt va = leafPte s.mem pt va) ∧
      (∀ b, s3.mem b ≠ s.mem b →
        (pte2pa pte ≤ b ∧ b < pte2pa pte + pgSize) ∨ ∃ p, IsTable s.mem pt p ∧ p ≤ b ∧ b < p + pgSize) := by
  obtain ⟨pte, below, mapped, isLeaf, low, ram, notTable, notFree⟩ := freeable.leaf a le_rfl more
  obtain ⟨slot, found, valid, read⟩ := leafPte_some mapped
  have alignedPa := pte2pa_aligned pte
  obtain ⟨s2, freed2⟩ : ∃ s2, kfree s (pte2pa pte) = .ok s2 := ⟨_, kfree_eq alignedPa low ram⟩
  obtain ⟨-, -, -, s2eq⟩ := kfree_ok freed2
  have table2 : Table s2 pt := by
    rw [s2eq]
    exact table.kfree alignedPa ram notFree notTable
  have mem2 : s2.mem = fill s.mem (pte2pa pte) pgSize 1 := by rw [s2eq]
  have kend2 : s2.kend = s.kend := by rw [s2eq]
  have free3 : s2.freelist = pte2pa pte :: s.freelist := by rw [s2eq]
  have same : SameTables s.mem s2.mem pt := by
    rw [mem2]
    exact sameTables_fill table.toTree alignedPa notTable 1
  have found2 : leafSlot s2.mem pt a = some slot := by
    rw [leafSlot_eq, tablePage_of_sameTables same, ← leafSlot_eq, found]
  have later (va : Nat) (lower : a + pgSize ≤ va) : va / pgSize ≠ a / pgSize := by
    simp only [pgSize] at aligned lower ⊢
    omega
  have leaf3 (va : Nat) (lower : a + pgSize ≤ va) (below' : va < maxVa) :
      leafPte (writeLE s2.mem slot 8 0) pt va = leafPte s.mem pt va := by
    rw [leafPte_setLeaf table2.toTree below found2 0 below', if_neg (later va lower),
      leafPte_of_sameTables same]
  have tables3 (p : Nat) : IsTable (writeLE s2.mem slot 8 0) pt p ↔ IsTable s.mem pt p := by
    rw [isTable_setLeaf table2.toTree found2, isTable_of_sameTables same]
  refine ⟨pte, { s2 with mem := writeLE s2.mem slot 8 0 }, mapped, ?_, table_setLeaf table2 found2 0, ?_,
    kend2, free3, tables3, leaf3, fun b changed => ?_⟩
  · have validPte : flagSet pte pteV = true := by
      rw [← read]
      exact valid
    rw [uvmunmapLoop, if_pos more, walk_of_not_alloc below]
    simp only [found, read, validPte, Bool.not_true, Bool.false_eq_true, if_false, if_neg isLeaf, if_true, freed2]
  · refine ⟨fun va lower upper => ?_, fun va va' pte' pte'' lower upper lower' upper' mapped' mapped'' => ?_⟩
    · obtain ⟨pte', below', mapped', isLeaf', low', ram', notTable', notFree'⟩ :=
        freeable.leaf va (by omega) upper
      have other : pte2pa pte' ≠ pte2pa pte := fun same' =>
        later va lower (freeable.unshared va a _ _ (by omega) upper le_rfl more mapped' mapped same')
      refine ⟨pte', below', by rw [leaf3 va lower below']; exact mapped', isLeaf', by rw [kend2]; exact low', ram',
        by rwa [tables3], ?_⟩
      show pte2pa pte' ∉ s2.freelist
      rw [free3, List.mem_cons, not_or]
      exact ⟨other, notFree'⟩
    · obtain ⟨-, below', -⟩ := freeable.leaf va (by omega) upper
      obtain ⟨-, below'', -⟩ := freeable.leaf va' (by omega) upper'
      rw [leaf3 va lower below'] at mapped'
      rw [leaf3 va' lower' below''] at mapped''
      exact freeable.unshared va va' _ _ (by omega) upper (by omega) upper' mapped' mapped''
  · by_cases inSlot : writeLE s2.mem slot 8 0 b ≠ s2.mem b
    · obtain ⟨p, isTable, inside⟩ := setLeaf_written found2 0 b inSlot
      exact .inr ⟨p, (isTable_of_sameTables same p).mp isTable, inside⟩
    · have filled : s2.mem b ≠ s.mem b := by
        rw [← not_not.mp inSlot]
        exact changed
      left
      by_contra outside
      rw [mem2] at filled
      simp only [fill, if_neg outside] at filled
      exact filled rfl

/-- Over freeable pages, the loop of `uvmunmap` with `do_free` returns; the
table pages stay, the pages freed are those of the range, and only they and
table pages are written. -/
theorem uvmunmapLoop_frees {s : Phys} (table : Table s pt) {stop a : Nat} (aligned : a % pgSize = 0)
    (freeable : Freeable pt stop a s) :
    ∃ s', uvmunmapLoop pt stop true a s = .ok s' ∧ Table s' pt ∧ s'.kend = s.kend ∧
      (∀ p, IsTable s'.mem pt p ↔ IsTable s.mem pt p) ∧
      (∀ p, p ∈ s'.freelist ↔ p ∈ s.freelist ∨
        ∃ va pte, a ≤ va ∧ va < stop ∧ leafPte s.mem pt va = some pte ∧ pte2pa pte = p) ∧
      (∀ b, s'.mem b ≠ s.mem b → ∃ p, (p ∈ s'.freelist ∨ IsTable s.mem pt p) ∧ p ≤ b ∧ b < p + pgSize) := by
  by_cases more : a < stop
  · obtain ⟨pte, s3, mapped, step, table3, freeable3, kend3, free3, tables3, leaf3, written3⟩ :=
      uvmunmapLoop_freeStep table aligned freeable more
    have aligned' : (a + pgSize) % pgSize = 0 := by
      simp only [pgSize] at aligned ⊢
      omega
    obtain ⟨s', ok, table', kend, tables, freed, written⟩ := uvmunmapLoop_frees table3 aligned' freeable3
    refine ⟨s', step ▸ ok, table', kend.trans kend3, fun p => (tables p).trans (tables3 p), fun p => ?_,
      fun b changed => ?_⟩
    · rw [freed p, free3]
      constructor
      · rintro (free | ⟨va, pte', lower, upper, mapped', rfl⟩)
        · rcases List.mem_cons.mp free with rfl | free
          · exact .inr ⟨a, _, le_rfl, more, mapped, rfl⟩
          · exact .inl free
        · obtain ⟨-, below', -⟩ := freeable.leaf va (by omega) upper
          rw [leaf3 va lower below'] at mapped'
          exact .inr ⟨va, pte', by omega, upper, mapped', rfl⟩
      · rintro (free | ⟨va, pte', lower, upper, mapped', rfl⟩)
        · exact .inl (List.mem_cons_of_mem _ free)
        · by_cases first : a + pgSize ≤ va
          · obtain ⟨-, below', -⟩ := freeable.leaf va (by omega) upper
            exact .inr ⟨va, pte', first, upper, by rw [leaf3 va first below']; exact mapped', rfl⟩
          · -- `va` is on the page of `a`, whose page went first onto the free list
            have samePage : va / pgSize = a / pgSize := by
              simp only [pgSize] at aligned first lower ⊢
              omega
            rw [leafPte_of_page_eq samePage, mapped, Option.some.injEq] at mapped'
            exact .inl (by rw [← mapped']; exact List.mem_cons_self)
    · by_cases late : s'.mem b ≠ s3.mem b
      · obtain ⟨p, place, inside⟩ := written b late
        exact ⟨p, place.imp_right (tables3 p).mp, inside⟩
      · rcases written3 b (by rwa [← not_not.mp late]) with inPage | ⟨p, isTable, inside⟩
        · exact ⟨pte2pa pte, .inl ((freed _).mpr (.inl (by rw [free3]; exact List.mem_cons_self))), inPage⟩
        · exact ⟨p, .inr isTable, inside⟩
  · refine ⟨s, by rw [uvmunmapLoop, if_neg more], table, rfl, fun _ => Iff.rfl, fun p => ?_,
      fun _ changed => absurd rfl changed⟩
    constructor
    · exact .inl
    · rintro (free | ⟨va, pte, lower, upper, -⟩)
      · exact free
      · omega
termination_by stop - a
decreasing_by
  rw [pgSize]
  omega

end Freeing

section Shrink

variable {s : Phys} {pt sz : Nat}

theorem pageMap_leafPte {mem : Mem} {va : Nat} (below : va < maxVa) :
    pageMap mem pt (va / pgSize) = (leafPte mem pt va).map fun pte => (pte2pa pte, pteFlags pte) := by
  have inside : va / pgSize < maxVa / pgSize := by
    simp only [pgSize, maxVa_eq] at below ⊢
    omega
  rw [pageMap_below inside, leafPte_of_page_eq (Nat.mul_div_cancel _ (by decide))]

theorem AddrSpace.size_le (space : AddrSpace s pt sz) : sz ≤ phyStop := by
  have := space.pages_le
  rw [phyStop_eq] at this ⊢
  simp only [pgSize] at this
  omega

/-- Unmapping the pages from `newsz` up keeps the invariant at `newsz`: the
entries of those pages are cleared, their pages are free, and no page of the
rest is among them. -/
theorem AddrSpace.unmapped (space : AddrSpace s pt sz) {newsz : Nat} (shrink : newsz ≤ sz) {s' : Phys}
    (table : Table s' pt) (kend : s'.kend = s.kend) (tables : ∀ p, IsTable s'.mem pt p ↔ IsTable s.mem pt p)
    (freed : ∀ p, p ∈ s'.freelist ↔ p ∈ s.freelist ∨
      ∃ vpn flags, newsz ≤ vpn * pgSize ∧ vpn * pgSize < sz ∧ pageMap s.mem pt vpn = some (p, flags))
    (entries : ∀ vpn, pageMap s'.mem pt vpn =
      if newsz ≤ vpn * pgSize ∧ vpn * pgSize < sz then none else pageMap s.mem pt vpn) :
    AddrSpace s' pt newsz where
  toTable := table
  kendPos := kend ▸ space.kendPos
  freeRam p member := by
    rw [kend]
    rcases (freed p).mp member with free | ⟨vpn, flags, -, inside, mapped⟩
    · exact space.freeRam p free
    · exact (space.data vpn p flags inside mapped).2.1
  below vpn inside := by
    rw [entries, if_neg (by omega)]
    exact space.below vpn (by omega)
  above vpn lower upper := by
    rw [entries]
    split_ifs with cleared
    · rfl
    · exact space.above vpn (by omega) upper
  data vpn pa flags inside mapped := by
    rw [entries, if_neg (by omega)] at mapped
    obtain ⟨leaf, low, ram, notTable, notFree⟩ := space.data vpn pa flags (by omega) mapped
    refine ⟨leaf, kend ▸ low, ram, by rwa [tables], fun member => ?_⟩
    rcases (freed pa).mp member with free | ⟨vpn', flags', lower, inside', mapped'⟩
    · exact notFree free
    · have := space.unshared vpn vpn' pa flags flags' (by omega) inside' mapped mapped'
      subst this
      omega
  unshared vpn vpn' pa flags flags' inside inside' mapped mapped' := by
    rw [entries, if_neg (by omega)] at mapped mapped'
    exact space.unshared vpn vpn' pa flags flags' (by omega) (by omega) mapped mapped'
  user vpn pa flags mapped isUser := by
    rw [entries] at mapped
    split_ifs at mapped with cleared
    have := space.user vpn pa flags mapped isUser
    omega

/-- `uvmunmap` with `do_free` of the pages from `PGROUNDUP(newsz)` to
`PGROUNDUP(sz)` returns, and unmaps and frees exactly the pages from `newsz`
up; the invariant holds at `newsz`. -/
theorem AddrSpace.unmap (space : AddrSpace s pt sz) {newsz : Nat} (shrink : newsz ≤ sz) :
    ∃ s', uvmunmap s pt (pgRoundUp newsz) ((pgRoundUp sz - pgRoundUp newsz) / pgSize) true = .ok s' ∧
      AddrSpace s' pt newsz ∧
      (∀ vpn, pageMap s'.mem pt vpn =
        if newsz ≤ vpn * pgSize ∧ vpn * pgSize < sz then none else pageMap s.mem pt vpn) ∧
      (∀ p, p ∈ s'.freelist ↔ p ∈ s.freelist ∨
        ∃ vpn flags, newsz ≤ vpn * pgSize ∧ vpn * pgSize < sz ∧ pageMap s.mem pt vpn = some (p, flags)) ∧
      (∀ p, IsTable s'.mem pt p ↔ IsTable s.mem pt p) ∧ s'.kend = s.kend ∧
      (∀ b, s'.mem b ≠ s.mem b → ∃ p, (p ∈ s'.freelist ∨ IsTable s.mem pt p) ∧ p ≤ b ∧ b < p + pgSize) := by
  have small := space.size_le
  have phyStopLt : phyStop < maxVa := by rw [phyStop_eq, maxVa_eq]; decide
  have roundNew : pgRoundUp newsz = (newsz + pgSize - 1) / pgSize * pgSize := pgRoundUp_of_le (by omega)
  have roundOld : pgRoundUp sz = (sz + pgSize - 1) / pgSize * pgSize := pgRoundUp_of_le small
  -- the range in addresses is the range in page numbers
  have range (va : Nat) : (pgRoundUp newsz ≤ va ∧ va < pgRoundUp sz) ↔
      (newsz ≤ va / pgSize * pgSize ∧ va / pgSize * pgSize < sz) := by
    rw [roundNew, roundOld]
    simp only [pgSize]
    omega
  have stop : (pgRoundUp newsz + (pgRoundUp sz - pgRoundUp newsz) / pgSize * pgSize) % 2 ^ 64 = pgRoundUp sz := by
    rw [roundNew, roundOld]
    rw [phyStop_eq] at small
    simp only [pgSize]
    omega
  have aligned : pgRoundUp newsz % pgSize = 0 := by
    rw [roundNew]
    exact Nat.mul_mod_left _ _
  -- every page of the range is a data page of the invariant
  have page {va : Nat} (lower : pgRoundUp newsz ≤ va) (upper : va < pgRoundUp sz) :
      ∃ pte, va < maxVa ∧ leafPte s.mem pt va = some pte ∧ pageMap s.mem pt (va / pgSize) = some (pte2pa pte, pteFlags pte) := by
    have inside := ((range va).mp ⟨lower, upper⟩).2
    have below : va < maxVa := by
      rw [roundOld] at upper
      rw [phyStop_eq] at small
      rw [maxVa_eq]
      simp only [pgSize] at upper
      omega
    obtain ⟨⟨pa, flags⟩, mapped⟩ := Option.isSome_iff_exists.mp (space.below _ inside)
    rw [pageMap_leafPte below] at mapped
    obtain ⟨pte, found, same⟩ := Option.map_eq_some_iff.mp mapped
    exact ⟨pte, below, found, by rw [pageMap_leafPte below, found]; rfl⟩
  have freeable : Freeable pt (pgRoundUp sz) (pgRoundUp newsz) s := by
    refine ⟨fun va lower upper => ?_, fun va va' pte pte' lower upper lower' upper' found found' same => ?_⟩
    · obtain ⟨pte, below, found, mapped⟩ := page lower upper
      obtain ⟨leaf, low, ram, notTable, notFree⟩ := space.data _ _ _ ((range va).mp ⟨lower, upper⟩).2 mapped
      exact ⟨pte, below, found, leaf, low, ram, notTable, notFree⟩
    · obtain ⟨q, -, found1, mapped⟩ := page lower upper
      obtain ⟨q', -, found1', mapped'⟩ := page lower' upper'
      rw [found] at found1
      rw [found'] at found1'
      cases found1
      cases found1'
      rw [same] at mapped
      exact space.unshared _ _ _ _ _ ((range va).mp ⟨lower, upper⟩).2 ((range va').mp ⟨lower', upper'⟩).2
        mapped mapped'
  obtain ⟨s', ok, table', kend, tables, freed, written⟩ := uvmunmapLoop_frees space.toTable aligned freeable
  have unmapped : uvmunmap s pt (pgRoundUp newsz) ((pgRoundUp sz - pgRoundUp newsz) / pgSize) true = .ok s' := by
    rw [uvmunmap, if_neg (by omega), stop]
    exact ok
  have word : pgRoundUp newsz + (pgRoundUp sz - pgRoundUp newsz) / pgSize * pgSize < 2 ^ 64 := by
    rw [roundNew, roundOld]
    rw [phyStop_eq] at small
    simp only [pgSize]
    omega
  have pageRange (vpn : Nat) : (pgRoundUp newsz / pgSize ≤ vpn ∧
      vpn < pgRoundUp newsz / pgSize + (pgRoundUp sz - pgRoundUp newsz) / pgSize) ↔
      (newsz ≤ vpn * pgSize ∧ vpn * pgSize < sz) := by
    rw [roundNew, roundOld]
    simp only [pgSize]
    omega
  have entries := (uvmunmap_spec space.toTree word (fun _ vpn pa flags lower upper mapped =>
    (space.data vpn pa flags ((pageRange vpn).mp ⟨lower, upper⟩).2 mapped).2.2.2.1) unmapped).2
  have entries' (vpn : Nat) : pageMap s'.mem pt vpn =
      if newsz ≤ vpn * pgSize ∧ vpn * pgSize < sz then none else pageMap s.mem pt vpn := by
    rw [entries vpn]
    exact if_congr (pageRange vpn) rfl rfl
  have freed' (p : Nat) : p ∈ s'.freelist ↔ p ∈ s.freelist ∨
      ∃ vpn flags, newsz ≤ vpn * pgSize ∧ vpn * pgSize < sz ∧ pageMap s.mem pt vpn = some (p, flags) := by
    rw [freed p]
    refine or_congr Iff.rfl ⟨?_, ?_⟩
    · rintro ⟨va, pte, lower, upper, found, rfl⟩
      obtain ⟨q, -, found', mapped⟩ := page lower upper
      rw [found] at found'
      cases found'
      exact ⟨va / pgSize, pteFlags pte, ((range va).mp ⟨lower, upper⟩).1, ((range va).mp ⟨lower, upper⟩).2, mapped⟩
    · rintro ⟨vpn, flags, lower, upper, mapped⟩
      have back : vpn * pgSize / pgSize = vpn := Nat.mul_div_cancel vpn (by decide)
      obtain ⟨lower', upper'⟩ := (range (vpn * pgSize)).mpr (by rw [back]; exact ⟨lower, upper⟩)
      obtain ⟨pte, -, found, mapped'⟩ := page lower' upper'
      rw [back, mapped, Option.some.injEq, Prod.mk.injEq] at mapped'
      exact ⟨vpn * pgSize, pte, lower', upper', found, mapped'.1.symm⟩
  exact ⟨s', unmapped, space.unmapped shrink table' kend tables freed' entries', entries', freed', tables, kend, written⟩

theorem uvmdealloc_spec (space : AddrSpace s pt sz) {newsz : Nat} (shrink : newsz < sz) :
    ∃ s', uvmdealloc s pt sz newsz = .ok (newsz, s') ∧ AddrSpace s' pt newsz ∧
      (∀ vpn, pageMap s'.mem pt vpn =
        if newsz ≤ vpn * pgSize ∧ vpn * pgSize < sz then none else pageMap s.mem pt vpn) ∧
      (∀ p, p ∈ s'.freelist ↔ p ∈ s.freelist ∨
        ∃ vpn flags, newsz ≤ vpn * pgSize ∧ vpn * pgSize < sz ∧ pageMap s.mem pt vpn = some (p, flags)) ∧
      (∀ p, IsTable s'.mem pt p ↔ IsTable s.mem pt p) ∧ s'.kend = s.kend ∧
      (∀ b, s'.mem b ≠ s.mem b → ∃ p, (p ∈ s'.freelist ∨ IsTable s.mem pt p) ∧ p ≤ b ∧ b < p + pgSize) := by
  have small := space.size_le
  have roundNew : pgRoundUp newsz = (newsz + pgSize - 1) / pgSize * pgSize := pgRoundUp_of_le (by omega)
  have roundOld : pgRoundUp sz = (sz + pgSize - 1) / pgSize * pgSize := pgRoundUp_of_le small
  rw [uvmdealloc, if_neg (by omega)]
  by_cases fewer : pgRoundUp newsz < pgRoundUp sz
  · -- `npages` is below `2 ^ 31`, so the `int` keeps it
    have npages : (pgRoundUp sz - pgRoundUp newsz) / pgSize < 2 ^ 31 := by
      rw [roundNew, roundOld]
      rw [phyStop_eq] at small
      simp only [pgSize]
      omega
    obtain ⟨s', unmapped, rest⟩ := space.unmap shrink.le
    refine ⟨s', ?_, rest⟩
    rw [if_pos fewer, Nat.mod_eq_of_lt (by omega)]
    dsimp only
    rw [if_pos npages, unmapped]
    rfl
  · -- `newsz` and `sz` round to the same page: there is nothing to unmap
    have empty (vpn : Nat) : ¬ (newsz ≤ vpn * pgSize ∧ vpn * pgSize < sz) := by
      rw [roundNew, roundOld] at fewer
      simp only [pgSize] at fewer ⊢
      omega
    have freed (p : Nat) : p ∈ s.freelist ↔ p ∈ s.freelist ∨
        ∃ vpn flags, newsz ≤ vpn * pgSize ∧ vpn * pgSize < sz ∧ pageMap s.mem pt vpn = some (p, flags) := by
      refine ⟨.inl, fun found => ?_⟩
      rcases found with free | ⟨vpn, _, lower, upper, _⟩
      · exact free
      · exact absurd ⟨lower, upper⟩ (empty vpn)
    have entries (vpn : Nat) : pageMap s.mem pt vpn =
        if newsz ≤ vpn * pgSize ∧ vpn * pgSize < sz then none else pageMap s.mem pt vpn := by
      rw [if_neg (empty vpn)]
    exact ⟨s, by rw [if_neg fewer], space.unmapped shrink.le space.toTable rfl (fun _ => Iff.rfl) freed entries,
      entries, freed, fun _ => Iff.rfl, rfl, fun _ changed => absurd rfl changed⟩

end Shrink

section Takes

variable {s s' s'' : Phys} {pt : Nat}

/-- `s'` took pages off `s`'s free list and wrote only pages that were free or
table pages of `pt` in `s`; no table page was lost. The loops of `uvmalloc` and
`uvmcopy` move from state to state this way. -/
structure Takes (pt : Nat) (s s' : Phys) : Prop where
  kend : s'.kend = s.kend
  taken : ∀ p ∈ s'.freelist, p ∈ s.freelist
  tables : ∀ p, IsTable s'.mem pt p → IsTable s.mem pt p ∨ p ∈ s.freelist
  kept : ∀ p, IsTable s.mem pt p → IsTable s'.mem pt p
  written : ∀ b, s'.mem b ≠ s.mem b → ∃ p, (p ∈ s.freelist ∨ IsTable s.mem pt p) ∧ p ≤ b ∧ b < p + pgSize

theorem Takes.refl (s : Phys) (pt : Nat) : Takes pt s s where
  kend := rfl
  taken _ := id
  tables _ := .inl
  kept _ := id
  written _ same := absurd rfl same

theorem Takes.trans (first : Takes pt s s') (second : Takes pt s' s'') : Takes pt s s'' where
  kend := second.kend.trans first.kend
  taken p member := first.taken p (second.taken p member)
  tables p isTable := by
    rcases second.tables p isTable with old | free
    · exact first.tables p old
    · exact .inr (first.taken p free)
  kept p isTable := second.kept p (first.kept p isTable)
  written b changed := by
    by_cases late : s''.mem b ≠ s'.mem b
    · obtain ⟨p, place, inside⟩ := second.written b late
      rcases place with free | isTable
      · exact ⟨p, .inl (first.taken p free), inside⟩
      · exact ⟨p, (first.tables p isTable).symm, inside⟩
    · exact first.written b (by rwa [← not_not.mp late])

theorem Extends.takes (grown : Extends pt s s') : Takes pt s s' where
  kend := grown.kend
  taken p member := by
    obtain ⟨k, freelist, -⟩ := grown.taken
    rw [freelist] at member
    exact List.mem_of_mem_drop member
  tables := grown.grown
  kept := grown.tables
  written b changed := by
    obtain ⟨p, isTable, inside⟩ := grown.written b changed
    exact ⟨p, (grown.grown p isTable).symm, inside⟩

/-- Freeing pages that came off `s`'s free list, without touching the tables,
keeps `Takes` from `s`: the cleanup paths of the allocation loops. -/
theorem Takes.release (taking : Takes pt s s') (kend : s''.kend = s'.kend)
    (taken : ∀ p ∈ s''.freelist, p ∈ s.freelist) (tables : ∀ p, IsTable s''.mem pt p ↔ IsTable s'.mem pt p)
    (written : ∀ b, s''.mem b ≠ s'.mem b → ∃ p, (p ∈ s''.freelist ∨ IsTable s'.mem pt p) ∧ p ≤ b ∧ b < p + pgSize) :
    Takes pt s s'' where
  kend := kend.trans taking.kend
  taken := taken
  tables p isTable := taking.tables p ((tables p).mp isTable)
  kept p isTable := (tables p).mpr (taking.kept p isTable)
  written b changed := by
    by_cases late : s''.mem b ≠ s'.mem b
    · obtain ⟨p, place, inside⟩ := written b late
      rcases place with free | isTable
      · exact ⟨p, .inl (taken p free), inside⟩
      · exact ⟨p, (taking.tables p isTable).symm, inside⟩
    · exact taking.written b (by rwa [← not_not.mp late])

theorem Extends.free_or_table (grown : Extends pt s s') {p : Nat} (free : p ∈ s.freelist) :
    p ∈ s'.freelist ∨ IsTable s'.mem pt p := by
  obtain ⟨k, freelist, taken⟩ := grown.taken
  rw [← List.take_append_drop k s.freelist, List.mem_append] at free
  rcases free with early | late
  · exact .inr (taken p early)
  · exact .inl (freelist ▸ late)

theorem takes_of_inside (table : Tree s.mem pt) {p : Nat} (aligned : p % pgSize = 0) (free : p ∈ s.freelist)
    (notTable : ¬ IsTable s.mem pt p) (kend : s'.kend = s.kend) (taken : ∀ q ∈ s'.freelist, q ∈ s.freelist)
    (inside : ∀ b, s'.mem b ≠ s.mem b → p ≤ b ∧ b < p + pgSize) : Takes pt s s' := by
  have same := sameTables_of_inside table aligned notTable inside
  exact ⟨kend, taken, fun q isTable => .inl ((isTable_of_sameTables same q).mp isTable),
    fun q isTable => (isTable_of_sameTables same q).mpr isTable,
    fun b changed => ⟨p, .inl free, inside b changed⟩⟩

theorem page_eq_of_mem {p q b : Nat} (alignedP : p % pgSize = 0) (alignedQ : q % pgSize = 0)
    (inP : p ≤ b ∧ b < p + pgSize) (inQ : q ≤ b ∧ b < q + pgSize) : p = q := by
  rw [pgSize] at alignedP alignedQ inP inQ
  omega

theorem Takes.untouched (taking : Takes pt s s') (table : Table s pt) {pa : Nat} (aligned : pa % pgSize = 0)
    (notFree : pa ∉ s.freelist) (notTable : ¬ IsTable s.mem pt pa) {i : Nat} (inside : i < pgSize) :
    s'.mem (pa + i) = s.mem (pa + i) := by
  by_contra changed
  obtain ⟨p, place, within⟩ := taking.written _ changed
  have alignedP : p % pgSize = 0 := by
    rcases place with free | ⟨q, found⟩
    · exact (table.freePage p free).1
    · exact tablePage_aligned table.aligned q p found
  obtain rfl : p = pa := page_eq_of_mem alignedP aligned within (by omega)
  rcases place with free | isTable
  · exact notFree free
  · exact notTable isTable

end Takes

section Grow

variable {s : Phys} {pt : Nat}

/-- `mappages` of one unmapped page below `MAXVA` never panics: it maps the
page and returns `0`, or it returns `-1` having used up the free list without
changing a mapping. -/
theorem mappages_page (table : Table s pt) {a pa perm : Nat} (aligned : a % pgSize = 0) (below : a < maxVa)
    (unmapped : pageMap s.mem pt (a / pgSize) = none) (alignedPa : pa % pgSize = 0) (small : pa < 2 ^ 56)
    (flags : perm < 1024) :
    ∃ r s', mappages s pt a pgSize pa perm = .ok (r, s') ∧
      ((r = 0 ∧ Extends pt s s' ∧
        ∀ vpn, pageMap s'.mem pt vpn = if vpn = a / pgSize then some (pa, perm ||| pteV) else pageMap s.mem pt vpn) ∨
       (r = -1 ∧ Grows pt s s' ∧ s'.freelist = [])) := by
  have last : (a + pgSize - pgSize) % 2 ^ 64 = a := by
    rw [Nat.add_sub_cancel, Nat.mod_eq_of_lt (by rw [maxVa_eq] at below; omega)]
  rw [mappages, if_neg (by omega), if_neg (by decide), if_neg (by decide), last, mappagesLoop]
  split
  · rename_i msg walked
    rw [walk, if_neg (by omega)] at walked
    cases walked
  · rename_i s1 walked
    obtain ⟨-, grows, -, -, ranOut⟩ := walk_alloc table walked
    exact ⟨-1, s1, rfl, .inr ⟨rfl, grows, (ranOut rfl).1⟩⟩
  · rename_i pte s1 walked
    obtain ⟨-, grows, slot, -, -⟩ := walk_alloc table walked
    have here := slot pte rfl
    have free : flagSet (readLE s1.mem pte 8) pteV = false := by
      rw [pageMap_leafPte below, Option.map_eq_none_iff, ← grows.leafPte a] at unmapped
      cases valid : flagSet (readLE s1.mem pte 8) pteV with
      | false => rfl
      | true => simp [leafPte, here, valid] at unmapped
    rw [if_neg (by simp [free]), if_pos rfl]
    refine ⟨0, _, rfl, .inl ⟨rfl, grows.toExtends.trans (extends_setLeaf grows.table here _), fun vpn => ?_⟩⟩
    have flagsLow : perm ||| pteV < 1024 := Nat.or_lt_two_pow (n := 10) flags (by decide)
    obtain ⟨back, backFlags⟩ := decode_mapped alignedPa small flagsLow
    by_cases inside : vpn < maxVa / pgSize
    · have below' : vpn * pgSize < maxVa := by
        simp only [pgSize, maxVa_eq] at inside ⊢
        omega
      have page : vpn * pgSize / pgSize = vpn := Nat.mul_div_cancel vpn (by decide)
      rw [pageMap_below inside, pageMap_below inside, leafPte_setLeaf grows.table.toTree below here _ below',
        page, grows.leafPte, Nat.or_assoc]
      by_cases same : vpn = a / pgSize
      · rw [if_pos same, if_pos same, ← Nat.or_assoc, flagSet_mapped, if_pos rfl, Option.map_some,
          Nat.or_assoc, back, backFlags]
      · rw [if_neg same, if_neg same]
    · have other : vpn ≠ a / pgSize := by
        simp only [pgSize, maxVa_eq] at inside below ⊢
        omega
      rw [pageMap_above inside, pageMap_above inside, if_neg other]

theorem pageMap_of_leafPte {mem mem' : Mem} (same : ∀ va, leafPte mem' pt va = leafPte mem pt va) (vpn : Nat) :
    pageMap mem' pt vpn = pageMap mem pt vpn := by
  simp only [pageMap, same]

theorem phyStop_lt_trapframe : phyStop < trapframe := by decide

theorem top_page {a : Nat} (aligned : a % pgSize = 0) : a / pgSize * pgSize = a :=
  Nat.div_mul_cancel (Nat.dvd_of_mod_eq_zero aligned)

theorem ne_top_of_lt {a vpn : Nat} (aligned : a % pgSize = 0) (below : vpn * pgSize < a) : vpn ≠ a / pgSize := by
  rintro rfl
  rw [top_page aligned] at below
  exact Nat.lt_irrefl a below

theorem ne_top_of_le {a vpn : Nat} (above : a + pgSize ≤ vpn * pgSize) : vpn ≠ a / pgSize := by
  rintro rfl
  have := Nat.div_mul_le_self a pgSize
  simp only [pgSize] at above this
  omega

theorem lt_of_ne_top {a vpn : Nat} (aligned : a % pgSize = 0) (inside : vpn * pgSize < a + pgSize)
    (other : vpn ≠ a / pgSize) : vpn * pgSize < a := by
  simp only [pgSize] at aligned inside other ⊢
  omega

theorem flags_ne_pteV (xperm : Nat) : pteR ||| pteU ||| xperm ||| pteV ≠ pteV := by
  intro same
  have bit := congrArg (Nat.testBit · 1) same
  have read : pteR.testBit 1 = true := by decide
  have valid : pteV.testBit 1 = false := by decide
  simp [Nat.testBit_or, read, valid] at bit

theorem AddrSpace.resize {sz sz' : Nat} (space : AddrSpace s pt sz)
    (same : ∀ vpn, vpn * pgSize < sz ↔ vpn * pgSize < sz') : AddrSpace s pt sz' where
  toTable := space.toTable
  kendPos := space.kendPos
  freeRam := space.freeRam
  below vpn inside := space.below vpn ((same vpn).mpr inside)
  above vpn lower upper :=
    space.above vpn (Nat.le_of_not_lt fun inside => absurd ((same vpn).mp inside) (Nat.not_lt.mpr lower)) upper
  data vpn pa flags inside := space.data vpn pa flags ((same vpn).mpr inside)
  unshared vpn vpn' pa flags flags' inside inside' :=
    space.unshared vpn vpn' pa flags flags' ((same vpn).mpr inside) ((same vpn').mpr inside')
  user vpn pa flags mapped isUser := (same vpn).mp (space.user vpn pa flags mapped isUser)

theorem lt_pgRoundUp_iff {sz : Nat} (small : sz ≤ phyStop) (vpn : Nat) :
    vpn * pgSize < pgRoundUp sz ↔ vpn * pgSize < sz := by
  rw [pgRoundUp_of_le small]
  simp only [pgSize]
  omega

theorem AddrSpace.room {a pa : Nat} {rest : List Nat} (space : AddrSpace s pt a) (aligned : a % pgSize = 0)
    (free : s.freelist = pa :: rest) : a + pgSize ≤ phyStop := by
  have count := space.pages_le
  rw [free, List.length_cons] at count
  rw [phyStop_eq] at count ⊢
  simp only [pgSize] at count aligned ⊢
  omega

theorem AddrSpace.grow {a : Nat} (space : AddrSpace s pt a) (aligned : a % pgSize = 0) {s' : Phys}
    (taking : Takes pt s s') (table : Table s' pt) {pa flags : Nat} (free : pa ∈ s.freelist)
    (notFree : pa ∉ s'.freelist) (notTable : ¬ IsTable s'.mem pt pa) (leaf : flags ≠ pteV)
    (entries : ∀ vpn, pageMap s'.mem pt vpn =
      if vpn = a / pgSize then some (pa, flags) else pageMap s.mem pt vpn) :
    AddrSpace s' pt (a + pgSize) where
  toTable := table
  kendPos := taking.kend ▸ space.kendPos
  freeRam p member := taking.kend ▸ space.freeRam p (taking.taken p member)
  below vpn inside := by
    rw [entries]
    split_ifs with top
    · rfl
    · exact space.below vpn (lt_of_ne_top aligned inside top)
  above vpn lower upper := by
    rw [entries, if_neg (ne_top_of_le lower)]
    exact space.above vpn (by omega) upper
  data vpn pa' flags' inside mapped := by
    rw [entries] at mapped
    split_ifs at mapped with top
    · obtain ⟨rfl, rfl⟩ := Prod.mk.inj (Option.some.inj mapped)
      exact ⟨leaf, taking.kend ▸ space.freeRam _ free, (space.freePage _ free).2, notTable, notFree⟩
    · obtain ⟨leaf', low, ram, notTable', notFree'⟩ := space.data vpn pa' flags' (lt_of_ne_top aligned inside top) mapped
      refine ⟨leaf', taking.kend ▸ low, ram, fun isTable => ?_, fun member => notFree' (taking.taken _ member)⟩
      rcases taking.tables _ isTable with old | free'
      · exact notTable' old
      · exact notFree' free'
  unshared vpn vpn' q flags1 flags2 inside inside' mapped mapped' := by
    rw [entries] at mapped mapped'
    by_cases top : vpn = a / pgSize <;> by_cases top' : vpn' = a / pgSize
    · exact top.trans top'.symm
    · rw [if_pos top] at mapped
      rw [if_neg top'] at mapped'
      cases mapped
      exact absurd free (space.data vpn' _ _ (lt_of_ne_top aligned inside' top') mapped').2.2.2.2
    · rw [if_neg top] at mapped
      rw [if_pos top'] at mapped'
      cases mapped'
      exact absurd free (space.data vpn _ _ (lt_of_ne_top aligned inside top) mapped).2.2.2.2
    · rw [if_neg top] at mapped
      rw [if_neg top'] at mapped'
      exact space.unshared vpn vpn' q flags1 flags2 (lt_of_ne_top aligned inside top)
        (lt_of_ne_top aligned inside' top') mapped mapped'
  user vpn q flags' mapped isUser := by
    rw [entries] at mapped
    split_ifs at mapped with top
    · rw [top, top_page aligned]
      exact Nat.lt_add_of_pos_right (by decide)
    · have := space.user vpn q flags' mapped isUser
      omega

theorem AddrSpace.keep {sz : Nat} (space : AddrSpace s pt sz) {s' : Phys} (taking : Takes pt s s')
    (table : Table s' pt) (same : ∀ vpn, pageMap s'.mem pt vpn = pageMap s.mem pt vpn) : AddrSpace s' pt sz where
  toTable := table
  kendPos := by
    rw [taking.kend]
    exact space.kendPos
  freeRam p member := by
    rw [taking.kend]
    exact space.freeRam p (taking.taken p member)
  below vpn inside := by
    rw [same]
    exact space.below vpn inside
  above vpn lower upper := by
    rw [same]
    exact space.above vpn lower upper
  data vpn pa flags inside mapped := by
    rw [same] at mapped
    obtain ⟨leaf, low, ram, notTable, notFree⟩ := space.data vpn pa flags inside mapped
    rw [taking.kend]
    exact ⟨leaf, low, ram, fun isTable => (taking.tables _ isTable).elim notTable notFree,
      fun member => notFree (taking.taken _ member)⟩
  unshared vpn vpn' pa flags flags' inside inside' mapped mapped' := by
    rw [same] at mapped mapped'
    exact space.unshared vpn vpn' pa flags flags' inside inside' mapped mapped'
  user vpn pa flags mapped isUser := by
    rw [same] at mapped
    exact space.user vpn pa flags mapped isUser

/-- `s2` is `s` with the page `pa` at the head of the free list taken off it and
written, as `kalloc` and the `memset` or `memmove` after it leave it. -/
structure TookPage (pt pa : Nat) (s s2 : Phys) : Prop where
  table : Table s2 pt
  takes : Takes pt s s2
  same : SameTables s.mem s2.mem pt
  free : s.freelist = pa :: s2.freelist

theorem tookPage {pa : Nat} {rest : List Nat} (table : Table s pt) (free : s.freelist = pa :: rest) {s2 : Phys}
    (inside : ∀ b, s2.mem b ≠ s.mem b → pa ≤ b ∧ b < pa + pgSize) (free2 : s2.freelist = rest)
    (kend2 : s2.kend = s.kend) : TookPage pt pa s s2 := by
  have member : pa ∈ s.freelist := free ▸ List.mem_cons_self
  have aligned := (table.freePage pa member).1
  have notTable := table.freeApart pa member
  have later {q : Nat} (m : q ∈ s2.freelist) : q ∈ s.freelist := free ▸ List.mem_cons_of_mem _ (free2 ▸ m)
  have same := sameTables_of_inside table.toTree aligned notTable inside
  refine ⟨⟨table.toTree.of_sameUpper (sameUpper_of_sameTables same),
    ⟨free2 ▸ (List.nodup_cons.mp (free ▸ table.nodup)).2, fun q m => table.freePage q (later m)⟩,
    fun q m isTable => table.freeApart q (later m) ((isTable_of_sameTables same q).mp isTable)⟩,
    takes_of_inside table.toTree aligned member notTable kend2 (fun q m => later m) inside, same, free2 ▸ free⟩

theorem TookPage.notFree {pa : Nat} {s2 : Phys} (took : TookPage pt pa s s2) (table : Table s pt) :
    pa ∉ s2.freelist :=
  (List.nodup_cons.mp (took.free ▸ table.nodup)).1

/-- The page taken is not a table page after the tree grows: it was neither a
table page nor left on the free list the tree grew from. -/
theorem TookPage.notTable {pa : Nat} {s2 s3 : Phys} (took : TookPage pt pa s s2) (table : Table s pt)
    (grows : Extends pt s2 s3) : ¬ IsTable s3.mem pt pa := fun isTable => by
  rcases grows.grown pa isTable with old | free
  · exact table.freeApart pa (took.free ▸ List.mem_cons_self) ((isTable_of_sameTables took.same pa).mp old)
  · exact took.notFree table free

/-- Every page of `s0`'s free list is still free, a table page, or mapped at a
page number in `range`: where the pages an allocation loop took went. -/
def Accounted (pt : Nat) (s0 s : Phys) (range : Nat → Prop) : Prop :=
  ∀ p ∈ s0.freelist, p ∈ s.freelist ∨ IsTable s.mem pt p ∨
    ∃ vpn flags, range vpn ∧ pageMap s.mem pt vpn = some (p, flags)

/-- `s4` is `s` after a pass that took a page and gave it back: `mappages` ran
out of pages and `kfree` returned the one `kalloc` took. -/
structure Refunded (pt : Nat) (s s4 : Phys) : Prop extends Takes pt s s4 where
  table : Table s4 pt
  entries : ∀ vpn, pageMap s4.mem pt vpn = pageMap s.mem pt vpn
  returned : ∀ p ∈ s.freelist, p ∈ s4.freelist ∨ IsTable s4.mem pt p

theorem refunded {pa : Nat} {s2 s3 : Phys} (table : Table s pt) (took : TookPage pt pa s s2)
    (grows : Grows pt s2 s3) (ranOut : s3.freelist = []) :
    Refunded pt s { s3 with mem := fill s3.mem pa pgSize 1, freelist := pa :: s3.freelist } := by
  have member : pa ∈ s.freelist := took.free ▸ List.mem_cons_self
  have alignedPa := (table.freePage pa member).1
  have taking3 : Takes pt s s3 := took.takes.trans grows.takes
  have notTable3 := took.notTable table grows.toExtends
  have same4 := sameTables_fill grows.table.toTree alignedPa notTable3 1
  have tables4 (p : Nat) : IsTable (fill s3.mem pa pgSize 1) pt p ↔ IsTable s3.mem pt p :=
    isTable_of_sameTables same4 p
  refine ⟨⟨taking3.kend, fun p m => ?_, fun p isTable => taking3.tables p ((tables4 p).mp isTable),
      fun p isTable => (tables4 p).mpr (taking3.kept p isTable), fun b changed => ?_⟩,
    grows.table.kfree alignedPa (table.freePage pa member).2 (by rw [ranOut]; exact List.not_mem_nil) notTable3,
    fun vpn => ?_, fun p free => ?_⟩
  · rw [ranOut, List.mem_singleton] at m
    exact m ▸ member
  · by_cases filled : pa ≤ b ∧ b < pa + pgSize
    · exact ⟨pa, .inl member, filled⟩
    · simp only [fill, if_neg filled] at changed
      exact taking3.written b changed
  · rw [pageMap_of_leafPte (leafPte_of_sameTables same4), pageMap_of_leafPte grows.leafPte,
      pageMap_of_leafPte (leafPte_of_sameTables took.same)]
  · rw [took.free, List.mem_cons] at free
    rcases free with rfl | later
    · exact .inl List.mem_cons_self
    · rcases grows.free_or_table later with free3 | isTable
      · rw [ranOut] at free3
        exact absurd free3 List.not_mem_nil
      · exact .inr ((tables4 p).mpr isTable)

section Accounting

variable {s0 s4 : Phys} {range range' : Nat → Prop}

/-- A pass that maps the page it took at `top` keeps every page accounted for,
over a range that grows by `top`. -/
theorem Accounted.map {pa top flags : Nat} {s2 s3 : Phys} (accounted : Accounted pt s0 s range)
    (took : TookPage pt pa s s2) (grows : Extends pt s2 s3) (taking : Takes pt s s3)
    (entries : ∀ vpn, pageMap s3.mem pt vpn = if vpn = top then some (pa, flags) else pageMap s.mem pt vpn)
    (wider : ∀ vpn, range vpn → range' vpn ∧ vpn ≠ top) (topIn : range' top) : Accounted pt s0 s3 range' := by
  intro p free0
  rcases accounted p free0 with free | isTable | ⟨vpn, flags', inRange, mapped⟩
  · rw [took.free, List.mem_cons] at free
    rcases free with rfl | later
    · exact .inr (.inr ⟨top, flags, topIn, by rw [entries, if_pos rfl]⟩)
    · exact (grows.free_or_table later).imp_right .inl
  · exact .inr (.inl (taking.kept p isTable))
  · obtain ⟨inRange', other⟩ := wider vpn inRange
    exact .inr (.inr ⟨vpn, flags', inRange', by rw [entries, if_neg other]; exact mapped⟩)

theorem Accounted.refund (accounted : Accounted pt s0 s range) (refunded : Refunded pt s s4) :
    Accounted pt s0 s4 range := by
  intro p free0
  rcases accounted p free0 with free | isTable | ⟨vpn, flags, inRange, mapped⟩
  · exact (refunded.returned p free).imp_right .inl
  · exact .inr (.inl (refunded.kept p isTable))
  · exact .inr (.inr ⟨vpn, flags, inRange, (refunded.entries vpn).trans mapped⟩)

end Accounting

/-- What `uvmalloc`'s loop has done to `s0` when it reaches `a`: the invariant
holds at `a`; each page from `base` to `a` is mapped `PTE_R | PTE_U | xperm |
PTE_V` to a zeroed page taken off `s0`'s free list, and no other mapping
changed; a page taken off the free list is a table page or one of those. -/
structure Grown (pt base xperm : Nat) (s0 : Phys) (a : Nat) (s : Phys) : Prop extends Takes pt s0 s where
  space : AddrSpace s pt a
  entries : ∀ vpn, ¬ (base ≤ vpn * pgSize ∧ vpn * pgSize < a) → pageMap s.mem pt vpn = pageMap s0.mem pt vpn
  fresh : ∀ vpn, base ≤ vpn * pgSize → vpn * pgSize < a → ∃ pa,
    pageMap s.mem pt vpn = some (pa, pteR ||| pteU ||| xperm ||| pteV) ∧ pa ∈ s0.freelist ∧
      ∀ i < pgSize, s.mem (pa + i) = 0
  accounted : Accounted pt s0 s fun vpn => base ≤ vpn * pgSize ∧ vpn * pgSize < a

/-- What `uvmalloc`'s cleanup leaves of `s0`: the invariant at `base`, every
mapping as it was, and every page of `s0`'s free list free again or a table
page. -/
structure Undone (pt base : Nat) (s0 s : Phys) : Prop extends Takes pt s0 s where
  space : AddrSpace s pt base
  entries : ∀ vpn, pageMap s.mem pt vpn = pageMap s0.mem pt vpn
  returned : ∀ p ∈ s0.freelist, p ∈ s.freelist ∨ IsTable s.mem pt p

variable {s0 : Phys} {base xperm : Nat}

theorem Grown.start (space : AddrSpace s0 pt base) : Grown pt base xperm s0 base s0 :=
  { Takes.refl s0 pt with
    space := space
    entries := fun _ _ => rfl
    fresh := fun _ lower upper => absurd upper (Nat.not_lt.mpr lower)
    accounted := fun _ free => .inl free }

theorem Grown.resize {a a' : Nat} (grown : Grown pt base xperm s0 a s)
    (same : ∀ vpn, vpn * pgSize < a ↔ vpn * pgSize < a') : Grown pt base xperm s0 a' s :=
  { grown.toTakes with
    space := grown.space.resize same
    entries := fun vpn outside => grown.entries vpn fun ⟨lower, upper⟩ => outside ⟨lower, (same vpn).mp upper⟩
    fresh := fun vpn lower upper => grown.fresh vpn lower ((same vpn).mpr upper)
    accounted := fun p free => (grown.accounted p free).imp_right (Or.imp_right
      fun ⟨vpn, flags, ⟨lower, upper⟩, mapped⟩ => ⟨vpn, flags, ⟨lower, (same vpn).mp upper⟩, mapped⟩) }

/-- One pass of `uvmalloc`'s loop that maps its page: `kalloc` took `pa`, the
page was zeroed, and `mappages` mapped it at `a`. -/
theorem Grown.next {a pa : Nat} {s2 s3 : Phys} (grown : Grown pt base xperm s0 a s) (aligned : a % pgSize = 0)
    (lower : base ≤ a) (took : TookPage pt pa s s2) (zero : ∀ i < pgSize, s2.mem (pa + i) = 0)
    (grows : Extends pt s2 s3)
    (entries3 : ∀ vpn, pageMap s3.mem pt vpn =
      if vpn = a / pgSize then some (pa, pteR ||| pteU ||| xperm ||| pteV) else pageMap s2.mem pt vpn) :
    Grown pt base xperm s0 (a + pgSize) s3 := by
  have table := grown.space.toTable
  have member : pa ∈ s.freelist := took.free ▸ List.mem_cons_self
  have alignedPa := (table.freePage pa member).1
  have notRest := took.notFree table
  have taking : Takes pt s s3 := took.takes.trans grows.takes
  have notTable3 := took.notTable table grows
  have entries (vpn : Nat) : pageMap s3.mem pt vpn =
      if vpn = a / pgSize then some (pa, pteR ||| pteU ||| xperm ||| pteV) else pageMap s.mem pt vpn := by
    rw [entries3, pageMap_of_leafPte (leafPte_of_sameTables took.same)]
  have topIn : base ≤ a / pgSize * pgSize ∧ a / pgSize * pgSize < a + pgSize := by
    rw [top_page aligned]
    exact ⟨lower, Nat.lt_add_of_pos_right (by decide)⟩
  refine { grown.toTakes.trans taking with
    space := grown.space.grow aligned taking grows.table member (fun m => notRest (grows.takes.taken pa m))
      notTable3 (flags_ne_pteV xperm) entries
    entries := fun vpn outside => ?_
    fresh := fun vpn lower' upper => ?_
    accounted := grown.accounted.map took grows taking entries
      (fun vpn ⟨lower', upper⟩ => ⟨⟨lower', by omega⟩, ne_top_of_lt aligned upper⟩) topIn }
  · have other : vpn ≠ a / pgSize := by
      rintro rfl
      exact outside topIn
    rw [entries, if_neg other]
    exact grown.entries vpn fun ⟨lower', upper⟩ => outside ⟨lower', by omega⟩
  · by_cases top : vpn = a / pgSize
    · refine ⟨pa, by rw [entries, if_pos top], grown.taken pa member, fun i inside => ?_⟩
      rw [grows.takes.untouched took.table alignedPa notRest
        (fun isTable => notTable3 (grows.tables pa isTable)) inside]
      exact zero i inside
    · have below := lt_of_ne_top aligned upper top
      obtain ⟨q, mapped, fromFree, zeroQ⟩ := grown.fresh vpn lower' below
      obtain ⟨-, -, -, notTableQ, notFreeQ⟩ := grown.space.data vpn q _ below mapped
      refine ⟨q, by rw [entries, if_neg top]; exact mapped, fromFree, fun i inside => ?_⟩
      rw [taking.untouched table (pageMap_aligned mapped) notFreeQ notTableQ inside]
      exact zeroQ i inside

theorem Grown.refund {a : Nat} {s4 : Phys} (grown : Grown pt base xperm s0 a s) (refunded : Refunded pt s s4) :
    Grown pt base xperm s0 a s4 := by
  refine { grown.toTakes.trans refunded.toTakes with
    space := grown.space.keep refunded.toTakes refunded.table refunded.entries
    entries := fun vpn outside => (refunded.entries vpn).trans (grown.entries vpn outside)
    fresh := fun vpn lower upper => ?_
    accounted := grown.accounted.refund refunded }
  obtain ⟨q, mapped, fromFree, zero⟩ := grown.fresh vpn lower upper
  obtain ⟨-, -, -, notTableQ, notFreeQ⟩ := grown.space.data vpn q _ upper mapped
  refine ⟨q, (refunded.entries vpn).trans mapped, fromFree, fun i inside => ?_⟩
  rw [refunded.untouched grown.space.toTable (pageMap_aligned mapped) notFreeQ notTableQ inside]
  exact zero i inside

theorem Grown.undo {a : Nat} (grown : Grown pt base xperm s0 a s) (start : AddrSpace s0 pt base) (lower : base ≤ a) :
    ∃ s', uvmdealloc s pt a base = .ok (base, s') ∧ Undone pt base s0 s' := by
  by_cases same : a = base
  · subst same
    refine ⟨s, by rw [uvmdealloc, if_pos le_rfl], { grown.toTakes with
      space := grown.space
      entries := fun vpn => grown.entries vpn fun ⟨lower, upper⟩ => absurd upper (Nat.not_lt.mpr lower)
      returned := fun p free => ?_ }⟩
    rcases grown.accounted p free with free | isTable | ⟨vpn, _, ⟨lower, upper⟩, _⟩
    · exact .inl free
    · exact .inr isTable
    · exact absurd upper (Nat.not_lt.mpr lower)
  · obtain ⟨s', dealloc, space', entries', freed', tables', kend', written'⟩ :=
      uvmdealloc_spec grown.space (Nat.lt_of_le_of_ne lower (Ne.symm same))
    have size := grown.space.size_le
    have taken (p : Nat) (member : p ∈ s'.freelist) : p ∈ s0.freelist := by
      rcases (freed' p).mp member with free | ⟨vpn, flags, lower', upper, mapped⟩
      · exact grown.taken p free
      · obtain ⟨q, mapped', fromFree, -⟩ := grown.fresh vpn lower' upper
        rw [mapped, Option.some.injEq, Prod.mk.injEq] at mapped'
        exact mapped'.1 ▸ fromFree
    refine ⟨s', dealloc, ⟨grown.toTakes.release kend' taken tables' written', space', fun vpn => ?_,
      fun p free => ?_⟩⟩
    · rw [entries' vpn]
      split_ifs with range
      · exact (start.above vpn range.1 (lt_trans range.2 (lt_of_le_of_lt size phyStop_lt_trapframe))).symm
      · exact grown.entries vpn range
    · rcases grown.accounted p free with free | isTable | ⟨vpn, flags, ⟨lower', upper⟩, mapped⟩
      · exact .inl ((freed' p).mpr (.inl free))
      · exact .inr ((tables' p).mpr isTable)
      · exact .inl ((freed' p).mpr (.inr ⟨vpn, flags, lower', upper, mapped⟩))

theorem uvmallocLoop_step {a newsz : Nat} (grown : Grown pt base xperm s0 a s) (start : AddrSpace s0 pt base)
    (perm : xperm < 1024) (aligned : a % pgSize = 0) (lower : base ≤ a) (more : a < newsz) :
    (∃ s', uvmallocLoop pt base newsz xperm a s = .ok (0, s') ∧ Undone pt base s0 s') ∨
    (∃ s', uvmallocLoop pt base newsz xperm a s = uvmallocLoop pt base newsz xperm (a + pgSize) s' ∧
      Grown pt base xperm s0 (a + pgSize) s') := by
  rw [uvmallocLoop, if_pos more]
  cases free : s.freelist with
  | nil =>
      obtain ⟨s', dealloc, undone⟩ := grown.undo start lower
      simp only [kalloc, free, dealloc]
      exact .inl ⟨s', rfl, undone⟩
  | cons pa rest =>
      simp only [kalloc, free]
      have table := grown.space.toTable
      have member : pa ∈ s.freelist := free ▸ List.mem_cons_self
      have alignedPa := (table.freePage pa member).1
      have ram := (table.freePage pa member).2
      have took : TookPage pt pa s { mem := fill (fill s.mem pa pgSize 5) pa pgSize 0, freelist := rest, kend := s.kend } :=
        tookPage table free (fun b changed => by
          by_contra outside
          simp only [fill, if_neg outside] at changed
          exact changed rfl) rfl rfl
      have zero (i : Nat) (inside : i < pgSize) : fill (fill s.mem pa pgSize 5) pa pgSize 0 (pa + i) = 0 := by
        simp only [fill]
        rw [if_pos ⟨by omega, by omega⟩]
      -- a free page is left, so page `a` lies below `PHYSTOP` and the trapframe
      have room := grown.space.room aligned free
      have below : a < maxVa := by
        rw [phyStop_eq] at room
        rw [maxVa_eq]
        omega
      have unmapped : pageMap (fill (fill s.mem pa pgSize 5) pa pgSize 0) pt (a / pgSize) = none := by
        rw [pageMap_of_leafPte (leafPte_of_sameTables took.same)]
        refine grown.space.above _ (by rw [top_page aligned]) ?_
        rw [top_page aligned]
        exact lt_of_lt_of_le (Nat.lt_of_lt_of_le (Nat.lt_add_of_pos_right (by decide)) room) phyStop_lt_trapframe.le
      have flags : pteR ||| pteU ||| xperm < 1024 := Nat.or_lt_two_pow (n := 10) (by decide) perm
      obtain ⟨r, s3, mapped, result⟩ :=
        mappages_page took.table aligned below unmapped alignedPa (lt_trans ram phyStop_lt) flags
      rw [mapped]
      rcases result with ⟨rfl, grows, entries3⟩ | ⟨rfl, grows, ranOut⟩
      · refine .inr ⟨s3, ?_, grown.next aligned lower took zero grows entries3⟩
        simp only
      · obtain ⟨s5, dealloc, undone⟩ := (grown.refund (refunded table took grows ranOut)).undo start lower
        have low : s3.kend ≤ pa := by
          rw [grows.kend]
          exact grown.space.freeRam pa member
        refine .inl ⟨s5, ?_, undone⟩
        simp only [kfree_eq alignedPa low ram]
        show (uvmdealloc _ pt a base >>= fun x => pure (0, x.2)) = _
        rw [dealloc]
        rfl

/-- `uvmalloc`'s loop from `a` returns: `newsz` with every page up to `newsz`
mapped, or `0` with everything undone. `tight` says no page boundary lies in
`[newsz, a)`, so that stopping at `a` is stopping at `newsz`. -/
theorem uvmallocLoop_spec (start : AddrSpace s0 pt base) (perm : xperm < 1024) {newsz a : Nat} {s : Phys}
    (aligned : a % pgSize = 0) (lower : base ≤ a) (tight : ∀ vpn, newsz ≤ vpn * pgSize → a ≤ vpn * pgSize)
    (grown : Grown pt base xperm s0 a s) :
    ∃ r s', uvmallocLoop pt base newsz xperm a s = .ok (r, s') ∧
      ((r = newsz ∧ Grown pt base xperm s0 newsz s') ∨ (r = 0 ∧ Undone pt base s0 s')) := by
  by_cases more : a < newsz
  · rcases uvmallocLoop_step grown start perm aligned lower more with ⟨s', ok, undone⟩ | ⟨s', step, grown'⟩
    · exact ⟨0, s', ok, .inr ⟨rfl, undone⟩⟩
    · have aligned' : (a + pgSize) % pgSize = 0 := by
        simp only [pgSize] at aligned ⊢
        omega
      -- the next boundary at or above `newsz` is still at or above `a + PGSIZE`
      have tight' (vpn : Nat) (above : newsz ≤ vpn * pgSize) : a + pgSize ≤ vpn * pgSize := by
        have := tight vpn above
        simp only [pgSize] at aligned this above ⊢
        omega
      rw [step]
      exact uvmallocLoop_spec start perm aligned' (by omega) tight' grown'
  · rw [uvmallocLoop, if_neg more]
    refine ⟨newsz, s, rfl, .inl ⟨rfl, grown.resize fun vpn => ⟨fun below => ?_, fun below => by omega⟩⟩⟩
    by_contra above
    exact absurd (tight vpn (Nat.le_of_not_lt above)) (Nat.not_le.mpr below)
termination_by newsz - a
decreasing_by
  rw [pgSize]
  omega

/-- `uvmalloc` from a size with the invariant to a larger one returns: `newsz`
with the pages from `PGROUNDUP(oldsz)` mapped, or `0` with every mapping as
before. -/
theorem uvmalloc_spec {oldsz newsz : Nat} (space : AddrSpace s pt oldsz) (grow : oldsz ≤ newsz)
    (perm : xperm < 1024) :
    ∃ r s', uvmalloc s pt oldsz newsz xperm = .ok (r, s') ∧
      ((r = newsz ∧ Grown pt (pgRoundUp oldsz) xperm s newsz s') ∨ (r = 0 ∧ Undone pt (pgRoundUp oldsz) s s')) := by
  have small := space.size_le
  have round : pgRoundUp oldsz = (oldsz + pgSize - 1) / pgSize * pgSize := pgRoundUp_of_le small
  have start : AddrSpace s pt (pgRoundUp oldsz) := space.resize fun vpn => (lt_pgRoundUp_iff small vpn).symm
  have aligned : pgRoundUp oldsz % pgSize = 0 := by
    rw [round]
    exact Nat.mul_mod_left _ _
  have tight (vpn : Nat) (above : newsz ≤ vpn * pgSize) : pgRoundUp oldsz ≤ vpn * pgSize := by
    rw [round]
    simp only [pgSize] at above ⊢
    omega
  rw [uvmalloc, if_neg (Nat.not_lt.mpr grow)]
  exact uvmallocLoop_spec start perm aligned le_rfl tight (Grown.start start)

end Grow

end Xv6.Vm
