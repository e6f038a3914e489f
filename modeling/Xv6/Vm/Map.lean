import Mathlib
import Xv6.Vm.Walk

/-!
`mappages`, `uvmunmap` and `uvmcreate` of `kernel/vm.c`, and the page table
read as a finite map (`pageMap`). A successful `mappages` sets exactly the
entries of its range and a successful `uvmunmap` clears exactly the entries of
its range; everything else the map says is unchanged.

The loop of `mappages` ends at `a == last`; it cannot run past `MAXVA`, where
`walk` panics, which is what makes it terminate. The loop of `uvmunmap` runs
while `a < va + npages*PGSIZE`, the bound computed in 64 bits.
-/

namespace Xv6.Vm

open Bytes

/-- The loop of `mappages`: map `a` to `pa`, until `a` is `last`. -/
def mappagesLoop (pagetable last perm a pa : Nat) (s : Phys) : Except String (Int × Phys) :=
  match walked : walk s pagetable a true with
  | .error msg => .error msg
  | .ok (none, s) => .ok (-1, s)
  | .ok (some pte, s) =>
      if flagSet (readLE s.mem pte 8) pteV then .error "mappages: remap"
      else
        let s := { s with mem := writeLE s.mem pte 8 (pa2pte pa ||| perm ||| pteV) }
        if a = last then .ok (0, s)
        else mappagesLoop pagetable last perm (a + pgSize) (pa + pgSize) s
termination_by maxVa - a
decreasing_by
  have below : a < maxVa := by
    unfold walk at walked
    split_ifs at walked with above
    omega
  rw [pgSize]
  omega

/-- `mappages(pagetable, va, size, pa, perm)`. -/
def mappages (s : Phys) (pagetable va size pa perm : Nat) : Except String (Int × Phys) :=
  if va % pgSize ≠ 0 then .error "mappages: va not aligned"
  else if size % pgSize ≠ 0 then .error "mappages: size not aligned"
  else if size = 0 then .error "mappages: size"
  else mappagesLoop pagetable ((va + size - pgSize) % 2 ^ 64) perm va pa s

/-- The loop of `uvmunmap`, while `a` is below `stop`. -/
def uvmunmapLoop (pagetable stop : Nat) (doFree : Bool) (a : Nat) (s : Phys) : Except String Phys :=
  if a < stop then
    match walk s pagetable a false with
    | .error msg => .error msg
    | .ok (none, _) => .error "uvmunmap: walk"
    | .ok (some pte, s) =>
        if !flagSet (readLE s.mem pte 8) pteV then .error "uvmunmap: not mapped"
        else if pteFlags (readLE s.mem pte 8) = pteV then .error "uvmunmap: not a leaf"
        else
          let freed := if doFree then kfree s (pte2pa (readLE s.mem pte 8)) else .ok s
          match freed with
          | .error msg => .error msg
          | .ok s => uvmunmapLoop pagetable stop doFree (a + pgSize) { s with mem := writeLE s.mem pte 8 0 }
  else .ok s
termination_by stop - a
decreasing_by
  rw [pgSize]
  omega

/-- `uvmunmap(pagetable, va, npages, do_free)`. -/
def uvmunmap (s : Phys) (pagetable va npages : Nat) (doFree : Bool) : Except String Phys :=
  if va % pgSize ≠ 0 then .error "uvmunmap: not aligned"
  else uvmunmapLoop pagetable ((va + npages * pgSize) % 2 ^ 64) doFree va s

/-- `uvmcreate()`: an empty page table, `none` when `kalloc` fails. -/
def uvmcreate (s : Phys) : Option (Nat × Phys) :=
  match kalloc s with
  | none => none
  | some (pagetable, s) => some (pagetable, { s with mem := fill s.mem pagetable pgSize 0 })

section Entries

/-- The entry `mappages` writes is valid. -/
theorem flagSet_mapped (x : Nat) : flagSet ((x ||| pteV) % 2 ^ 64) pteV = true := by
  rw [show pteV = 1 <<< 0 from rfl, flagSet_iff, Nat.testBit_mod_two_pow, Nat.testBit_or]
  simp

end Entries

section Mappages

variable {pt : Nat}

/-- The loop of `mappages` that returns `0` ends at `last` below `MAXVA`, has
only extended the table, and has set the entry of every page from `a` to
`last`, the page `k` pages after `a` to `pa + k*PGSIZE`. -/
theorem mappagesLoop_spec {s s' : Phys} (table : Table s pt) {last perm a pa : Nat}
    (aligned : a % pgSize = 0) (ok : mappagesLoop pt last perm a pa s = .ok (0, s')) :
    a ≤ last ∧ last < maxVa ∧ Extends pt s s' ∧
      ∀ va, va < maxVa → leafPte s'.mem pt va =
        if a / pgSize ≤ va / pgSize ∧ va / pgSize ≤ last / pgSize then
          some ((pa2pte (pa + (va / pgSize * pgSize - a)) ||| perm ||| pteV) % 2 ^ 64)
        else leafPte s.mem pt va := by
  -- an address on `a`'s page is mapped at offset `0` of `pa`'s page, `a` being aligned
  have first (va : Nat) (samePage : va / pgSize = a / pgSize) : va / pgSize * pgSize - a = 0 := by
    rw [samePage]
    rw [pgSize] at aligned ⊢
    omega
  rw [mappagesLoop] at ok
  split at ok
  · cases ok
  · simp at ok
  · rename_i pte s1 walked
    obtain ⟨below, grows, slot, -, -⟩ := walk_alloc table walked
    have here := slot pte rfl
    split at ok
    · cases ok
    · have written := extends_setLeaf grows.table here (pa2pte pa ||| perm ||| pteV)
      have leaf (va : Nat) (below' : va < maxVa) :=
        leafPte_setLeaf grows.table.toTree below here (pa2pte pa ||| perm ||| pteV) below'
      split at ok
      · rename_i atLast
        cases ok
        refine ⟨atLast.le, atLast ▸ below, grows.toExtends.trans written, ?_⟩
        intro va below'
        rw [leaf va below', flagSet_mapped, if_pos rfl, grows.leafPte]
        by_cases samePage : va / pgSize = a / pgSize
        · rw [if_pos samePage, if_pos ⟨samePage.ge, atLast ▸ samePage.le⟩, first va samePage, Nat.add_zero]
        · rw [if_neg samePage, if_neg (by rw [← atLast]; omega)]
      · rename_i notLast
        have aligned' : (a + pgSize) % pgSize = 0 := by
          rw [pgSize] at aligned ⊢
          omega
        obtain ⟨order, bound, rest, entries⟩ := mappagesLoop_spec written.table aligned' ok
        refine ⟨by omega, bound, (grows.toExtends.trans written).trans rest, ?_⟩
        intro va below'
        rw [entries va below', leaf va below', flagSet_mapped, if_pos rfl, grows.leafPte]
        have next : (a + pgSize) / pgSize = a / pgSize + 1 := by
          rw [pgSize] at aligned ⊢
          omega
        by_cases samePage : va / pgSize = a / pgSize
        · have upTo : va / pgSize ≤ last / pgSize := by
            rw [samePage]
            exact Nat.div_le_div_right (by omega)
          rw [if_neg (by omega), if_pos samePage, if_pos ⟨samePage.ge, upTo⟩, first va samePage, Nat.add_zero]
        · by_cases later : (a + pgSize) / pgSize ≤ va / pgSize ∧ va / pgSize ≤ last / pgSize
          · have offset : pa + pgSize + (va / pgSize * pgSize - (a + pgSize)) =
                pa + (va / pgSize * pgSize - a) := by
              rw [pgSize] at aligned next later ⊢
              omega
            rw [if_pos later, if_pos (by omega), offset]
          · rw [if_neg later, if_neg samePage, if_neg (by omega)]
termination_by maxVa - a
decreasing_by
  rw [pgSize]
  omega

theorem mappagesLoop_ok {s : Phys} (table : Table s pt) {last perm a pa : Nat}
    (aligned : a % pgSize = 0) (order : a ≤ last) (steps : (last - a) % pgSize = 0) (bound : last < maxVa)
    (unmapped : ∀ va, a ≤ va → va ≤ last → leafPte s.mem pt va = none)
    (enough : 2 * ((last - a) / pgSize + 1) ≤ s.freelist.length) :
    ∃ s', mappagesLoop pt last perm a pa s = .ok (0, s') := by
  rw [mappagesLoop]
  split
  · rename_i msg walked
    rw [walk, if_neg (by omega)] at walked
    cases walked
  · rename_i s1 walked
    obtain ⟨-, -, -, -, ranOut⟩ := walk_alloc table walked
    have := (ranOut rfl).2
    generalize (last - a) / pgSize = n at enough
    omega
  · rename_i pte s1 walked
    obtain ⟨below, grows, slot, count, -⟩ := walk_alloc table walked
    have here := slot pte rfl
    have free : flagSet (readLE s1.mem pte 8) pteV = false := by
      have none := unmapped a le_rfl order
      rw [← grows.leafPte a] at none
      cases valid : flagSet (readLE s1.mem pte 8) pteV with
      | false => rfl
      | true => simp [leafPte, here, valid] at none
    rw [if_neg (by simp [free])]
    split
    · exact ⟨_, rfl⟩
    · rename_i notLast
      have written := extends_setLeaf grows.table here (pa2pte pa ||| perm ||| pteV)
      have aligned' : (a + pgSize) % pgSize = 0 := by
        rw [pgSize] at aligned ⊢
        omega
      have next : last - (a + pgSize) = last - a - pgSize := by omega
      have more : pgSize ≤ last - a := by
        rw [pgSize] at steps ⊢
        omega
      refine mappagesLoop_ok written.table aligned' (by omega) (by rw [next, pgSize] at *; omega) bound ?_ ?_
      · intro va lower upper
        rw [leafPte_setLeaf grows.table.toTree below here _ (by omega), if_neg, grows.leafPte]
        · exact unmapped va (by omega) upper
        · rw [pgSize] at aligned lower ⊢
          omega
      · have fewer : (last - (a + pgSize)) / pgSize + 1 = (last - a) / pgSize := by
          rw [next, pgSize] at *
          omega
        simp only [fewer] at *
        have := Nat.div_pos more (by decide : 0 < pgSize)
        show 2 * ((last - a) / pgSize) ≤ s1.freelist.length
        omega
termination_by maxVa - a
decreasing_by
  rw [pgSize]
  omega

end Mappages

section Uvmunmap

variable {pt : Nat}

theorem sameTables_freed {s s2 : Phys} (table : Tree s.mem pt) {doFree : Bool} {pa : Nat}
    (owned : doFree = true → ¬ IsTable s.mem pt pa)
    (freed : (if doFree then kfree s pa else .ok s) = .ok s2) : SameTables s.mem s2.mem pt := by
  cases doFree with
  | false =>
      cases freed
      intro p _ k _
      rfl
  | true =>
      obtain ⟨aligned, -, -, rfl⟩ := kfree_ok freed
      exact sameTables_fill table aligned (owned rfl) 1

theorem uvmunmapLoop_step {s s' : Phys} {stop a : Nat} {doFree : Bool} (more : a < stop)
    (ok : uvmunmapLoop pt stop doFree a s = .ok s') :
    ∃ pte s2, a < maxVa ∧ leafSlot s.mem pt a = some pte ∧ flagSet (readLE s.mem pte 8) pteV = true ∧
      (if doFree then kfree s (pte2pa (readLE s.mem pte 8)) else .ok s) = .ok s2 ∧
      uvmunmapLoop pt stop doFree (a + pgSize) { s2 with mem := writeLE s2.mem pte 8 0 } = .ok s' := by
  rw [uvmunmapLoop, if_pos more] at ok
  by_cases below : a < maxVa
  · rw [walk_of_not_alloc below] at ok
    cases found : leafSlot s.mem pt a with
    | none => simp [found] at ok
    | some pte =>
        simp only [found] at ok
        by_cases invalid : (!flagSet (readLE s.mem pte 8) pteV) = true
        · rw [if_pos invalid] at ok
          cases ok
        rw [if_neg invalid] at ok
        by_cases notLeaf : pteFlags (readLE s.mem pte 8) = pteV
        · rw [if_pos notLeaf] at ok
          cases ok
        rw [if_neg notLeaf] at ok
        generalize freedEq : (if doFree then kfree s (pte2pa (readLE s.mem pte 8)) else Except.ok s) = freed at ok
        cases freed with
        | error msg => cases ok
        | ok s2 => exact ⟨pte, s2, below, rfl, by simpa using invalid, freedEq, ok⟩
  · rw [walk, if_pos (Nat.le_of_not_lt below)] at ok
    cases ok

/-- The loop of `uvmunmap` that returns clears the entry of every page from
`a` below `stop` and no other, provided each page it frees is not a table
page. -/
theorem uvmunmapLoop_spec {s s' : Phys} (table : Tree s.mem pt) {stop a : Nat} {doFree : Bool}
    (aligned : a % pgSize = 0)
    (owned : doFree = true → ∀ va pte, a ≤ va → va < stop → va < maxVa → leafPte s.mem pt va = some pte →
      ¬ IsTable s.mem pt (pte2pa pte))
    (ok : uvmunmapLoop pt stop doFree a s = .ok s') :
    Tree s'.mem pt ∧ ∀ va, va < maxVa → leafPte s'.mem pt va =
      if a ≤ va / pgSize * pgSize ∧ va / pgSize * pgSize < stop then none else leafPte s.mem pt va := by
  by_cases more : a < stop
  · obtain ⟨pte, s2, below, found, valid, freedEq, rest⟩ := uvmunmapLoop_step more ok
    have mapped : leafPte s.mem pt a = some (readLE s.mem pte 8) := by
      simp [leafPte, found, valid]
    have same := sameTables_freed table (fun isFree => owned isFree a _ le_rfl more below mapped) freedEq
    have table2 : Tree s2.mem pt := table.of_sameUpper (sameUpper_of_sameTables same)
    have found2 : leafSlot s2.mem pt a = some pte := by
      rw [leafSlot_eq, tablePage_of_sameTables same, ← leafSlot_eq, found]
    have leaf (va : Nat) (below' : va < maxVa) := leafPte_setLeaf table2 below found2 0 below'
    have cleared : flagSet (0 % 2 ^ 64) pteV = false := by decide
    have aligned' : (a + pgSize) % pgSize = 0 := by
      rw [pgSize] at aligned ⊢
      omega
    have later (va : Nat) (lower : a + pgSize ≤ va) : va / pgSize ≠ a / pgSize := by
      rw [pgSize] at aligned lower ⊢
      omega
    have owned' : doFree = true → ∀ va pte', a + pgSize ≤ va → va < stop → va < maxVa →
        leafPte (writeLE s2.mem pte 8 0) pt va = some pte' →
        ¬ IsTable (writeLE s2.mem pte 8 0) pt (pte2pa pte') := by
      intro isFree va pte' lower upper below' mapped'
      rw [leaf va below', if_neg (later va lower), leafPte_of_sameTables same] at mapped'
      rw [isTable_setLeaf table2 found2, isTable_of_sameTables same]
      exact owned isFree va pte' (by omega) upper below' mapped'
    have table3 : Tree ({ s2 with mem := writeLE s2.mem pte 8 0 } : Phys).mem pt :=
      table_setLeaf' table2 found2 0
    obtain ⟨tree', entries⟩ := uvmunmapLoop_spec table3 aligned' owned' rest
    refine ⟨tree', fun va below' => ?_⟩
    rw [entries va below', leaf va below', cleared, leafPte_of_sameTables same]
    by_cases samePage : va / pgSize = a / pgSize
    · have inRange : a ≤ va / pgSize * pgSize ∧ va / pgSize * pgSize < stop := by
        rw [samePage]
        rw [pgSize] at aligned ⊢
        omega
      have notLater : ¬ (a + pgSize ≤ va / pgSize * pgSize ∧ va / pgSize * pgSize < stop) := by
        rw [samePage]
        rw [pgSize] at aligned ⊢
        omega
      rw [if_neg notLater, if_pos samePage, if_pos inRange]
      rfl
    · have iff : (a + pgSize ≤ va / pgSize * pgSize ∧ va / pgSize * pgSize < stop) ↔
          (a ≤ va / pgSize * pgSize ∧ va / pgSize * pgSize < stop) := by
        rw [pgSize] at aligned samePage ⊢
        omega
      rw [if_neg samePage]
      exact if_congr iff rfl rfl
  · rw [uvmunmapLoop, if_neg more] at ok
    cases ok
    refine ⟨table, fun va _ => ?_⟩
    rw [if_neg (by omega)]
termination_by stop - a
decreasing_by
  rw [pgSize]
  omega

end Uvmunmap

section Spec

variable {pt : Nat}

theorem decode_mapped {x flags : Nat} (aligned : x % pgSize = 0) (small : x < 2 ^ 56) (low : flags < 1024) :
    pte2pa ((pa2pte x ||| flags) % 2 ^ 64) = x ∧ pteFlags ((pa2pte x ||| flags) % 2 ^ 64) = flags := by
  have fits : pa2pte x ||| flags < 2 ^ 64 := by
    rw [pa2pte_or x low]
    omega
  rw [Nat.mod_eq_of_lt fits]
  exact ⟨pte2pa_pa2pte aligned small low, pteFlags_pa2pte low⟩

theorem pageMap_below {mem : Mem} {vpn : Nat} (inside : vpn < maxVa / pgSize) :
    pageMap mem pt vpn = (leafPte mem pt (vpn * pgSize)).map fun pte => (pte2pa pte, pteFlags pte) :=
  if_pos inside

theorem pageMap_above {mem : Mem} {vpn : Nat} (outside : ¬ vpn < maxVa / pgSize) : pageMap mem pt vpn = none :=
  if_neg outside

theorem mappages_spec {s s' : Phys} (table : Table s pt) {va size pa perm : Nat}
    (word : size < 2 ^ 64) (alignedPa : pa % pgSize = 0) (physical : pa + size ≤ 2 ^ 56) (flags : perm < 1024)
    (ok : mappages s pt va size pa perm = .ok (0, s')) :
    Table s' pt ∧ ∀ vpn, pageMap s'.mem pt vpn =
      if va / pgSize ≤ vpn ∧ vpn < (va + size) / pgSize then some (pa + (vpn * pgSize - va), perm ||| pteV)
      else pageMap s.mem pt vpn := by
  unfold mappages at ok
  split_ifs at ok with badVa badSize empty
  have alignedVa : va % pgSize = 0 := by omega
  obtain ⟨order, bound, grown, entries⟩ := mappagesLoop_spec table alignedVa ok
  -- `last` is computed in 64 bits; the loop reaching it rules the wrap out
  have noWrap : va + size - pgSize < 2 ^ 64 := by
    by_contra wrap
    have wrapped : (va + size - pgSize) % 2 ^ 64 = va + size - pgSize - 2 ^ 64 := by
      rw [Nat.mod_eq_sub_mod (by omega), Nat.mod_eq_of_lt (by omega)]
    rw [wrapped] at order
    omega
  rw [Nat.mod_eq_of_lt noWrap] at entries bound order
  have lastPage : (va + size - pgSize) / pgSize + 1 = (va + size) / pgSize := by
    simp only [pgSize] at alignedVa badSize empty ⊢
    omega
  have flagsLow : perm ||| pteV < 1024 := Nat.or_lt_two_pow (n := 10) flags (by decide)
  refine ⟨grown.table, fun vpn => ?_⟩
  by_cases inside : vpn < maxVa / pgSize
  · have below : vpn * pgSize < maxVa := by
      simp only [pgSize, maxVa_eq] at inside ⊢
      omega
    have page : vpn * pgSize / pgSize = vpn := Nat.mul_div_cancel vpn (by decide)
    rw [pageMap_below inside, pageMap_below inside, entries _ below, page]
    by_cases range : va / pgSize ≤ vpn ∧ vpn < (va + size) / pgSize
    · have offset : (vpn * pgSize - va) % pgSize = 0 ∧ vpn * pgSize - va < size := by
        simp only [pgSize] at alignedVa range badSize ⊢
        omega
      have alignedX : (pa + (vpn * pgSize - va)) % pgSize = 0 := by
        simp only [pgSize] at alignedPa offset ⊢
        omega
      obtain ⟨back, backFlags⟩ := decode_mapped alignedX (by omega) flagsLow
      rw [if_pos ⟨range.1, by omega⟩, if_pos range, Nat.or_assoc]
      simp only [Option.map_some, back, backFlags]
    · rw [if_neg (by omega), if_neg range]
  · have outside : ¬ (va / pgSize ≤ vpn ∧ vpn < (va + size) / pgSize) := by
      simp only [pgSize, maxVa_eq] at inside lastPage bound ⊢
      omega
    rw [pageMap_above inside, pageMap_above inside, if_neg outside]

theorem mappages_ok {s : Phys} (table : Table s pt) {va size pa perm : Nat}
    (alignedVa : va % pgSize = 0) (alignedSize : size % pgSize = 0) (nonempty : 0 < size)
    (bound : va + size ≤ maxVa)
    (unmapped : ∀ vpn, va / pgSize ≤ vpn → vpn < (va + size) / pgSize → pageMap s.mem pt vpn = none)
    (enough : 2 * (size / pgSize) ≤ s.freelist.length) :
    ∃ s', mappages s pt va size pa perm = .ok (0, s') := by
  have maxVaLt : maxVa < 2 ^ 64 := by rw [maxVa_eq]; decide
  have noWrap : (va + size - pgSize) % 2 ^ 64 = va + size - pgSize := Nat.mod_eq_of_lt (by omega)
  rw [mappages, if_neg (by omega), if_neg (by omega), if_neg (by omega), noWrap]
  have pages : (va + size - pgSize - va) / pgSize + 1 = size / pgSize := by
    simp only [pgSize] at alignedSize nonempty ⊢
    omega
  have order : va ≤ va + size - pgSize := by
    simp only [pgSize] at alignedSize nonempty ⊢
    omega
  have steps : (va + size - pgSize - va) % pgSize = 0 := by
    simp only [pgSize] at alignedSize ⊢
    omega
  have last : va + size - pgSize < maxVa := by
    simp only [pgSize] at nonempty ⊢
    omega
  refine mappagesLoop_ok table alignedVa order steps last ?_ (by rw [pages]; exact enough)
  intro a lower upper
  have inside : a / pgSize < maxVa / pgSize := by
    simp only [pgSize, maxVa_eq] at last upper ⊢
    omega
  have inRange : a / pgSize < (va + size) / pgSize := by
    simp only [pgSize] at upper alignedSize nonempty ⊢
    omega
  have none := unmapped (a / pgSize) (Nat.div_le_div_right lower) inRange
  rw [pageMap_below inside, Option.map_eq_none_iff,
    leafPte_of_page_eq (Nat.mul_div_cancel _ (by decide))] at none
  exact none

/-- A `uvmunmap` that returns clears the entries of its `npages` pages and no
other, when the bound `va + npages*PGSIZE` fits in 64 bits and each page it
frees is not a table page. -/
theorem uvmunmap_spec {s s' : Phys} (table : Tree s.mem pt) {va npages : Nat} {doFree : Bool}
    (word : va + npages * pgSize < 2 ^ 64)
    (owned : doFree = true → ∀ vpn pa flags, va / pgSize ≤ vpn → vpn < va / pgSize + npages →
      pageMap s.mem pt vpn = some (pa, flags) → ¬ IsTable s.mem pt pa)
    (ok : uvmunmap s pt va npages doFree = .ok s') :
    Tree s'.mem pt ∧ ∀ vpn, pageMap s'.mem pt vpn =
      if va / pgSize ≤ vpn ∧ vpn < va / pgSize + npages then none else pageMap s.mem pt vpn := by
  unfold uvmunmap at ok
  split_ifs at ok with bad
  have alignedVa : va % pgSize = 0 := by omega
  rw [Nat.mod_eq_of_lt word] at ok
  have owned' : doFree = true → ∀ va' pte, va ≤ va' → va' < va + npages * pgSize → va' < maxVa →
      leafPte s.mem pt va' = some pte → ¬ IsTable s.mem pt (pte2pa pte) := by
    intro isFree va' pte lower upper below mapped
    have inside : va' / pgSize < maxVa / pgSize := by
      simp only [pgSize, maxVa_eq] at below ⊢
      omega
    have atPage : pageMap s.mem pt (va' / pgSize) = some (pte2pa pte, pteFlags pte) := by
      rw [pageMap_below inside, leafPte_of_page_eq (Nat.mul_div_cancel _ (by decide)), mapped]
      rfl
    refine owned isFree _ _ _ (Nat.div_le_div_right lower) ?_ atPage
    simp only [pgSize] at alignedVa upper ⊢
    omega
  obtain ⟨tree', entries⟩ := uvmunmapLoop_spec table alignedVa owned' ok
  refine ⟨tree', fun vpn => ?_⟩
  by_cases inside : vpn < maxVa / pgSize
  · have below : vpn * pgSize < maxVa := by
      simp only [pgSize, maxVa_eq] at inside ⊢
      omega
    have page : vpn * pgSize / pgSize = vpn := Nat.mul_div_cancel vpn (by decide)
    rw [pageMap_below inside, pageMap_below inside, entries _ below, page]
    have iff : (va ≤ vpn * pgSize ∧ vpn * pgSize < va + npages * pgSize) ↔
        (va / pgSize ≤ vpn ∧ vpn < va / pgSize + npages) := by
      simp only [pgSize] at alignedVa ⊢
      omega
    by_cases range : va / pgSize ≤ vpn ∧ vpn < va / pgSize + npages
    · rw [if_pos (iff.mpr range), if_pos range]
      rfl
    · rw [if_neg (mt iff.mp range), if_neg range]
  · rw [pageMap_above inside, pageMap_above inside]
    split_ifs <;> rfl

theorem walkaddr_eq (s : Phys) (pt va : Nat) :
    walkaddr s pt va = match pageMap s.mem pt (va / pgSize) with
      | some (pa, flags) => if flagSet flags pteU then pa else 0
      | none => 0 := by
  unfold walkaddr
  by_cases below : va < maxVa
  · have inside : va / pgSize < maxVa / pgSize := by
      simp only [pgSize, maxVa_eq] at below ⊢
      omega
    rw [if_neg (Nat.not_le.mpr below), walk_of_not_alloc below, pageMap_below inside,
      leafPte_of_page_eq (Nat.mul_div_cancel _ (by decide))]
    unfold leafPte
    cases found : leafSlot s.mem pt va with
    | none => rfl
    | some slot =>
        by_cases valid : flagSet (readLE s.mem slot 8) pteV
        · have flags : flagSet (pteFlags (readLE s.mem slot 8)) pteU = flagSet (readLE s.mem slot 8) pteU :=
            flagSet_pteFlags _ (show 4 < 10 by decide)
          by_cases user : flagSet (readLE s.mem slot 8) pteU
          · simp [valid, flags, user]
          · simp [valid, flags, user]
        · simp [valid]
  · rw [if_pos (Nat.le_of_not_lt below), pageMap_above]
    simp only [pgSize, maxVa_eq] at below ⊢
    omega

theorem uvmcreate_eq {s s' : Phys} {pagetable : Nat} (created : uvmcreate s = some (pagetable, s')) :
    ∃ rest, s.freelist = pagetable :: rest ∧
      s' = { s with mem := fill (fill s.mem pagetable pgSize 5) pagetable pgSize 0, freelist := rest } := by
  unfold uvmcreate kalloc at created
  cases list : s.freelist with
  | nil => simp [list] at created
  | cons page rest =>
      simp only [list, Option.some.injEq, Prod.mk.injEq] at created
      obtain ⟨rfl, rfl⟩ := created
      exact ⟨rest, rfl, rfl⟩

theorem next_cleared (mem : Mem) (page : Nat) {i : Nat} (index : i < 512) :
    next (fill mem page pgSize 0) page i = none := by
  simp [next, entry_fill_zero index, flagSet]

theorem tablePage_cleared {mem : Mem} {page p : Nat} {q : Pos} (found : tablePage (fill mem page pgSize 0) page q = some p) :
    q = .root ∧ p = page := by
  cases q with
  | root => exact ⟨rfl, (Option.some.inj found).symm⟩
  | mid i =>
      simp only [tablePage] at found
      split_ifs at found with index
      simp [next_cleared mem page index] at found
  | low i j =>
      simp only [tablePage] at found
      split_ifs at found with index
      simp [next_cleared mem page index.1] at found

theorem uvmcreate_table {s s' : Phys} {pagetable : Nat} (free : Free s)
    (created : uvmcreate s = some (pagetable, s')) :
    Table s' pagetable ∧ (∀ vpn, pageMap s'.mem pagetable vpn = none) ∧ s'.freelist = s.freelist.tail := by
  obtain ⟨rest, list, rfl⟩ := uvmcreate_eq created
  have nodup : (pagetable :: rest).Nodup := list ▸ free.nodup
  have onList (p : Nat) (member : p ∈ rest) := free.freePage p (by rw [list]; exact List.mem_cons_of_mem _ member)
  have aligned := (free.freePage pagetable (by simp [list])).1
  refine ⟨⟨⟨aligned, ?_⟩, ⟨(List.nodup_cons.mp nodup).2, onList⟩, ?_⟩, ?_, by simp [list]⟩
  · intro q q' p found found'
    rw [(tablePage_cleared found).1, (tablePage_cleared found').1]
  · rintro p member ⟨q, found⟩
    rw [(tablePage_cleared found).2] at member
    exact (List.nodup_cons.mp nodup).1 member
  · intro vpn
    unfold pageMap leafPte
    rw [leafSlot_eq]
    split_ifs
    · simp [tablePage, px_lt, next_cleared _ pagetable (px_lt 2 (vpn * pgSize))]
    · rfl

theorem uvmcreate_isTable {s s' : Phys} {pagetable : Nat} (created : uvmcreate s = some (pagetable, s'))
    (p : Nat) : IsTable s'.mem pagetable p ↔ p = pagetable := by
  obtain ⟨rest, -, rfl⟩ := uvmcreate_eq created
  constructor
  · rintro ⟨q, found⟩
    exact (tablePage_cleared found).2
  · rintro rfl
    exact ⟨.root, rfl⟩

end Spec

section Refinement

/-- Read as a finite map from page numbers below `MAXVA / PGSIZE` to a page and
flags, every page table the kernel builds behaves as `vm.c` says: `uvmcreate`
makes one that maps nothing; `walk` without `alloc` changes nothing and
returns the one leaf slot of the page; a `mappages` that returns `0` adds the
entries of its range and changes no other; a `uvmunmap` that returns removes
the entries of its pages and no other; `walkaddr` returns the page of a
mapping with `PTE_V` and `PTE_U` and `0` for anything else; and the entry
encoding reads back. -/
theorem pagetable_refines_pageMap :
    (∀ (s s' : Phys) (pt : Nat), Free s → uvmcreate s = some (pt, s') →
      Table s' pt ∧ ∀ vpn, pageMap s'.mem pt vpn = none) ∧
    (∀ (s : Phys) (pt va : Nat), va < maxVa → walk s pt va false = .ok (leafSlot s.mem pt va, s)) ∧
    (∀ (mem : Mem) (pt va va' slot : Nat), Tree mem pt → va < maxVa → va' < maxVa →
      leafSlot mem pt va = some slot → leafSlot mem pt va' = some slot → va / pgSize = va' / pgSize) ∧
    (∀ (s s' : Phys) (pt va size pa perm : Nat), Table s pt → size < 2 ^ 64 → pa % pgSize = 0 →
      pa + size ≤ 2 ^ 56 → perm < 1024 → mappages s pt va size pa perm = .ok (0, s') →
      Table s' pt ∧ ∀ vpn, pageMap s'.mem pt vpn =
        if va / pgSize ≤ vpn ∧ vpn < (va + size) / pgSize then some (pa + (vpn * pgSize - va), perm ||| pteV)
        else pageMap s.mem pt vpn) ∧
    (∀ (s s' : Phys) (pt va npages : Nat) (doFree : Bool), Tree s.mem pt → va + npages * pgSize < 2 ^ 64 →
      (doFree = true → ∀ vpn pa flags, va / pgSize ≤ vpn → vpn < va / pgSize + npages →
        pageMap s.mem pt vpn = some (pa, flags) → ¬ IsTable s.mem pt pa) →
      uvmunmap s pt va npages doFree = .ok s' →
      Tree s'.mem pt ∧ ∀ vpn, pageMap s'.mem pt vpn =
        if va / pgSize ≤ vpn ∧ vpn < va / pgSize + npages then none else pageMap s.mem pt vpn) ∧
    (∀ (s : Phys) (pt va : Nat), walkaddr s pt va = match pageMap s.mem pt (va / pgSize) with
      | some (pa, flags) => if flagSet flags pteU then pa else 0
      | none => 0) ∧
    (∀ pa flags, pa % pgSize = 0 → pa < 2 ^ 56 → flags < 1024 → pte2pa (pa2pte pa ||| flags) = pa) :=
  ⟨fun _ _ _ free created => ⟨(uvmcreate_table free created).1, (uvmcreate_table free created).2.1⟩,
    fun _ _ _ below => walk_of_not_alloc below,
    fun _ _ _ _ _ tree below below' found found' => leafSlot_injective tree below below' found found',
    fun _ _ _ _ _ _ _ table word aligned physical flags ok => mappages_spec table word aligned physical flags ok,
    fun _ _ _ _ _ _ tree word owned ok => uvmunmap_spec tree word owned ok,
    walkaddr_eq,
    fun _ _ aligned small low => pte2pa_pa2pte aligned small low⟩

/-- A fresh page table from a free list of three pages, with one user page
mapped by `mappages`. -/
theorem pagetable_refines_pageMap_fresh :
    ∃ s1 s2 : Phys,
      uvmcreate ⟨fun _ => 0, [0x80001000, 0x80002000, 0x80003000], 0x80000000⟩ = some (0x80001000, s1) ∧
      mappages s1 0x80001000 0 pgSize 0x80003000 (pteR ||| pteW ||| pteU) = .ok (0, s2) ∧
      pageMap s2.mem 0x80001000 0 = some (0x80003000, pteR ||| pteW ||| pteU ||| pteV) := by
  obtain ⟨s1, created⟩ : ∃ s1, uvmcreate ⟨fun _ => 0, [0x80001000, 0x80002000, 0x80003000], 0x80000000⟩ =
      some (0x80001000, s1) := ⟨_, rfl⟩
  obtain ⟨made, mapsNothing⟩ := pagetable_refines_pageMap.1 _ _ _ ⟨by decide, by decide⟩ created
  have tail := (uvmcreate_table ⟨by decide, by decide⟩ created).2.2
  obtain ⟨s2, ok⟩ : ∃ s2, mappages s1 0x80001000 0 pgSize 0x80003000 (pteR ||| pteW ||| pteU) = .ok (0, s2) :=
    mappages_ok made (by decide) (by decide) (by decide) (by decide) (fun vpn _ _ => mapsNothing vpn)
      (by rw [tail]; decide)
  refine ⟨s1, s2, created, ok, ?_⟩
  have mapped := (pagetable_refines_pageMap.2.2.2.1 _ _ _ _ _ _ _ made (by decide) (by decide) (by decide)
    (by decide) ok).2 0
  rw [mapped, if_pos (by decide)]
  rfl

end Refinement

end Xv6.Vm
