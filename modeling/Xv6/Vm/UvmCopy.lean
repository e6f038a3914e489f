import Mathlib
import Xv6.Vm.Uvm

/-!
`uvmcopy(old, new, sz)` of `kernel/vm.c`, with which `fork` copies the parent's
memory into the child's page table, and what the error paths of `uvmalloc`
and `uvmcopy` leave behind.

The loop writes only pages it takes off the free list and table pages of
`new`. `Apart` is what `fork` provides: `new`'s table pages are neither table
pages of `old` nor pages `old` maps, so those writes never reach `old`'s
tables or the pages the loop copies from.
-/

namespace Xv6.Vm

open Bytes

/-- `new`'s table pages are apart from `old`'s table pages and from the pages
`old` maps below `sz`. -/
structure Apart (s : Phys) (old new sz : Nat) : Prop where
  tables : ∀ p, IsTable s.mem new p → ¬ IsTable s.mem old p
  data : ∀ vpn pa flags, vpn * pgSize < sz → pageMap s.mem old vpn = some (pa, flags) → ¬ IsTable s.mem new pa

/-- Where `fork` calls `uvmcopy`: the parent's table `old` of size `sz`, the
child's empty table `new`, apart from each other. -/
structure Forkable (s : Phys) (old new sz : Nat) : Prop extends Apart s old new sz where
  source : AddrSpace s old sz
  target : AddrSpace s new 0

/-- What `uvmcopy`'s loop has done to `s0` when it reaches `i`: every page
below `i` that `old` maps is mapped in `new`, with the same flags, to a page
taken off `s0`'s free list that holds the same bytes. -/
structure Copied (old new : Nat) (s0 : Phys) (i : Nat) (s : Phys) : Prop extends Takes new s0 s where
  space : AddrSpace s new i
  copies : ∀ vpn, vpn * pgSize < i → ∃ pa pa' flags, pageMap s0.mem old vpn = some (pa, flags) ∧
    pageMap s.mem new vpn = some (pa', flags) ∧ pa' ∈ s0.freelist ∧ ∀ k < pgSize, s.mem (pa' + k) = s0.mem (pa + k)
  accounted : Accounted new s0 s fun vpn => vpn * pgSize < i

/-- What `uvmcopy`'s error exit leaves of `s0`: `new` maps nothing below the
trapframe, and every page of `s0`'s free list is free again or a table page of
`new`. -/
structure Wiped (new : Nat) (s0 s : Phys) : Prop extends Takes new s0 s where
  space : AddrSpace s new 0
  returned : ∀ p ∈ s0.freelist, p ∈ s.freelist ∨ IsTable s.mem new p

section Source

variable {s0 s : Phys} {old new sz : Nat}

/-- What the loop writes never reaches `old`'s tables. -/
theorem Takes.sameTables_source (taking : Takes new s0 s) (fork : Forkable s0 old new sz) :
    SameTables s0.mem s.mem old := by
  apply sameTables_of_outside
  intro b changed p isTable
  obtain ⟨q, place, inside⟩ := taking.written b changed
  have alignedP : p % pgSize = 0 := by
    obtain ⟨pos, found⟩ := isTable
    exact tablePage_aligned fork.source.aligned pos p found
  have alignedQ : q % pgSize = 0 := by
    rcases place with free | ⟨pos, found⟩
    · exact (fork.target.freePage q free).1
    · exact tablePage_aligned fork.target.aligned pos q found
  have other : q ≠ p := by
    rintro rfl
    rcases place with free | isNew
    · exact fork.source.freeApart q free isTable
    · exact fork.tables q isNew isTable
  rw [pgSize] at alignedP alignedQ inside ⊢
  omega

theorem Takes.source_pageMap (taking : Takes new s0 s) (fork : Forkable s0 old new sz) (vpn : Nat) :
    pageMap s.mem old vpn = pageMap s0.mem old vpn :=
  pageMap_of_leafPte (leafPte_of_sameTables (taking.sameTables_source fork)) vpn

theorem Takes.source_bytes (taking : Takes new s0 s) (fork : Forkable s0 old new sz) {vpn pa flags : Nat}
    (inside : vpn * pgSize < sz) (mapped : pageMap s0.mem old vpn = some (pa, flags)) {k : Nat}
    (within : k < pgSize) : s.mem (pa + k) = s0.mem (pa + k) :=
  taking.untouched fork.target.toTable (pageMap_aligned mapped) (fork.source.data vpn pa flags inside mapped).2.2.2.2
    (fork.data vpn pa flags inside mapped) within

end Source

section Loop

variable {s0 s : Phys} {old new sz : Nat}

theorem Copied.start (space : AddrSpace s0 new 0) : Copied old new s0 0 s0 :=
  { Takes.refl s0 new with
    space := space
    copies := fun _ inside => absurd inside (Nat.not_lt_zero _)
    accounted := fun _ free => .inl free }

theorem Copied.resize {i i' : Nat} (copied : Copied old new s0 i s)
    (same : ∀ vpn, vpn * pgSize < i ↔ vpn * pgSize < i') : Copied old new s0 i' s :=
  { copied.toTakes with
    space := copied.space.resize same
    copies := fun vpn inside => copied.copies vpn ((same vpn).mpr inside)
    accounted := fun p free => (copied.accounted p free).imp_right (Or.imp_right
      fun ⟨vpn, flags, inside, mapped⟩ => ⟨vpn, flags, (same vpn).mp inside, mapped⟩) }

/-- One pass of `uvmcopy`'s loop that maps its copy: `kalloc` took `mem`, the
page of `old` at `i` was copied into it, and `mappages` mapped it at `i` in
`new` with `old`'s flags. -/
theorem Copied.next {i mem pa flags : Nat} {s2 s3 : Phys} (copied : Copied old new s0 i s)
    (aligned : i % pgSize = 0) (took : TookPage new mem s s2) (bytes : ∀ k < pgSize, s2.mem (mem + k) = s0.mem (pa + k))
    (mappedOld : pageMap s0.mem old (i / pgSize) = some (pa, flags)) (leaf : flags ≠ pteV)
    (grows : Extends new s2 s3)
    (entries3 : ∀ vpn, pageMap s3.mem new vpn = if vpn = i / pgSize then some (mem, flags) else pageMap s2.mem new vpn) :
    Copied old new s0 (i + pgSize) s3 := by
  have table := copied.space.toTable
  have member : mem ∈ s.freelist := took.free ▸ List.mem_cons_self
  have alignedMem := (table.freePage mem member).1
  have notRest := took.notFree table
  have taking : Takes new s s3 := took.takes.trans grows.takes
  have notTable3 := took.notTable table grows
  have entries (vpn : Nat) : pageMap s3.mem new vpn =
      if vpn = i / pgSize then some (mem, flags) else pageMap s.mem new vpn := by
    rw [entries3, pageMap_of_leafPte (leafPte_of_sameTables took.same)]
  have topIn : i / pgSize * pgSize < i + pgSize := by
    rw [top_page aligned]
    exact Nat.lt_add_of_pos_right (by decide)
  refine { copied.toTakes.trans taking with
    space := copied.space.grow aligned taking grows.table member (fun m => notRest (grows.takes.taken mem m))
      notTable3 leaf entries
    copies := fun vpn below => ?_
    accounted := copied.accounted.map took grows taking entries
      (fun vpn below => ⟨by omega, ne_top_of_lt aligned below⟩) topIn }
  by_cases top : vpn = i / pgSize
  · refine ⟨pa, mem, flags, top ▸ mappedOld, by rw [entries, if_pos top], copied.taken mem member,
      fun k within => ?_⟩
    rw [grows.takes.untouched took.table alignedMem notRest
      (fun isTable => notTable3 (grows.tables mem isTable)) within]
    exact bytes k within
  · have below' := lt_of_ne_top aligned below top
    obtain ⟨q, q', flags', mappedQ, mappedQ', fromFree, same⟩ := copied.copies vpn below'
    obtain ⟨-, -, -, notTableQ, notFreeQ⟩ := copied.space.data vpn q' flags' below' mappedQ'
    refine ⟨q, q', flags', mappedQ, by rw [entries, if_neg top]; exact mappedQ', fromFree, fun k within => ?_⟩
    rw [taking.untouched table (pageMap_aligned mappedQ') notFreeQ notTableQ within]
    exact same k within

theorem Copied.refund {i : Nat} {s4 : Phys} (copied : Copied old new s0 i s) (refunded : Refunded new s s4) :
    Copied old new s0 i s4 := by
  refine { copied.toTakes.trans refunded.toTakes with
    space := copied.space.keep refunded.toTakes refunded.table refunded.entries
    copies := fun vpn below => ?_
    accounted := copied.accounted.refund refunded }
  obtain ⟨q, q', flags, mappedQ, mappedQ', fromFree, same⟩ := copied.copies vpn below
  obtain ⟨-, -, -, notTableQ, notFreeQ⟩ := copied.space.data vpn q' flags below mappedQ'
  refine ⟨q, q', flags, mappedQ, (refunded.entries vpn).trans mappedQ', fromFree, fun k within => ?_⟩
  rw [refunded.untouched copied.space.toTable (pageMap_aligned mappedQ') notFreeQ notTableQ within]
  exact same k within

theorem Copied.wipe {i : Nat} (copied : Copied old new s0 i s) (aligned : i % pgSize = 0) :
    ∃ s', uvmcopyErr new i s = .ok (-1, s') ∧ Wiped new s0 s' := by
  have small := copied.space.size_le
  obtain ⟨s', unmapped, space', -, freed', tables', kend', written'⟩ := copied.space.unmap (Nat.zero_le i)
  have round : pgRoundUp i = i := by
    rw [pgRoundUp_of_le small]
    simp only [pgSize] at aligned ⊢
    omega
  rw [show pgRoundUp 0 = 0 by decide, round, Nat.sub_zero] at unmapped
  have taken (p : Nat) (member : p ∈ s'.freelist) : p ∈ s0.freelist := by
    rcases (freed' p).mp member with free | ⟨vpn, flags, -, below, mapped⟩
    · exact copied.taken p free
    · obtain ⟨q, q', flags', -, mapped', fromFree, -⟩ := copied.copies vpn below
      rw [mapped, Option.some.injEq, Prod.mk.injEq] at mapped'
      exact mapped'.1 ▸ fromFree
  refine ⟨s', by rw [uvmcopyErr, unmapped]; rfl,
    { copied.toTakes.release kend' taken tables' written' with
      space := space'
      returned := fun p free => ?_ }⟩
  rcases copied.accounted p free with free | isTable | ⟨vpn, flags, below, mapped⟩
  · exact .inl ((freed' p).mpr (.inl free))
  · exact .inr ((tables' p).mpr isTable)
  · exact .inl ((freed' p).mpr (.inr ⟨vpn, flags, Nat.zero_le _, below, mapped⟩))

theorem or_pteV_of_valid {x : Nat} (valid : flagSet x pteV = true) : x ||| pteV = x := by
  rw [show pteV = 1 <<< 0 from rfl, flagSet_iff] at valid
  rw [show pteV = 1 <<< 0 from rfl]
  apply Nat.eq_of_testBit_eq
  intro j
  rw [Nat.testBit_or]
  cases j with
  | zero => simp [valid]
  | succ j => simp [Nat.testBit_succ]

theorem uvmcopyLoop_step {i : Nat} (fork : Forkable s0 old new sz) (copied : Copied old new s0 i s)
    (aligned : i % pgSize = 0) (more : i < sz) :
    (∃ s', uvmcopyLoop old new sz i s = .ok (-1, s') ∧ Wiped new s0 s') ∨
    (∃ s', uvmcopyLoop old new sz i s = uvmcopyLoop old new sz (i + pgSize) s' ∧
      Copied old new s0 (i + pgSize) s') := by
  have small := fork.source.size_le
  have below : i < maxVa := by
    rw [phyStop_eq] at small
    rw [maxVa_eq]
    omega
  have inside : i / pgSize * pgSize < sz := by
    rw [top_page aligned]
    exact more
  -- `old` maps page `i`, and its leaf is where it was in `s0`
  obtain ⟨⟨pa, flags⟩, mappedOld⟩ := Option.isSome_iff_exists.mp (fork.source.below _ inside)
  obtain ⟨leaf, -, -, -, notFreeOld⟩ := fork.source.data _ _ _ inside mappedOld
  have mappedNow := (copied.source_pageMap fork (i / pgSize)).trans mappedOld
  rw [pageMap_leafPte below] at mappedNow
  obtain ⟨pte, found, decoded⟩ := Option.map_eq_some_iff.mp mappedNow
  obtain ⟨rfl, rfl⟩ := Prod.mk.inj decoded
  obtain ⟨slot, here, valid, read⟩ := leafPte_some found
  rw [read] at valid
  rw [uvmcopyLoop, if_pos more, walk_of_not_alloc below, here]
  simp only [read, valid, Bool.not_true, Bool.false_eq_true, if_false]
  cases free : s.freelist with
  | nil =>
      obtain ⟨s', err, wiped⟩ := copied.wipe aligned
      simp only [kalloc, free, err]
      exact .inl ⟨s', rfl, wiped⟩
  | cons mem rest =>
      simp only [kalloc, free]
      have table := copied.space.toTable
      have member : mem ∈ s.freelist := free ▸ List.mem_cons_self
      have alignedMem := (table.freePage mem member).1
      have ram := (table.freePage mem member).2
      have took : TookPage new mem s
          { mem := copy (fill s.mem mem pgSize 5) mem (fill s.mem mem pgSize 5) (pte2pa pte) pgSize,
            freelist := rest, kend := s.kend } :=
        tookPage table free (fun b changed => by
          by_contra outside
          simp only [copy, fill, if_neg outside] at changed
          exact changed rfl) rfl rfl
      -- the page copied from is not the page `kalloc` took: that one was free
      have apartPage (k : Nat) (within : k < pgSize) :
          ¬ (mem ≤ pte2pa pte + k ∧ pte2pa pte + k < mem + pgSize) := by
        intro overlap
        have same := page_eq_of_mem alignedMem (pte2pa_aligned pte) overlap ⟨by omega, by omega⟩
        exact notFreeOld (same ▸ copied.taken mem member)
      have bytes (k : Nat) (within : k < pgSize) :
          copy (fill s.mem mem pgSize 5) mem (fill s.mem mem pgSize 5) (pte2pa pte) pgSize (mem + k) =
            s0.mem (pte2pa pte + k) := by
        simp only [copy, fill]
        rw [if_pos ⟨by omega, by omega⟩, Nat.add_sub_cancel_left, if_neg (apartPage k within)]
        exact copied.source_bytes fork inside mappedOld within
      have unmapped : pageMap (copy (fill s.mem mem pgSize 5) mem (fill s.mem mem pgSize 5) (pte2pa pte) pgSize)
          new (i / pgSize) = none := by
        rw [pageMap_of_leafPte (leafPte_of_sameTables took.same)]
        refine copied.space.above _ (by rw [top_page aligned]) ?_
        rw [top_page aligned]
        exact lt_of_lt_of_le (lt_of_lt_of_le more small) phyStop_lt_trapframe.le
      have flagsLow : pteFlags pte < 1024 := by
        rw [pteFlags_eq]
        exact Nat.mod_lt _ (by decide)
      have flagsValid : flagSet (pteFlags pte) pteV = true := by
        rw [show pteV = 1 <<< 0 from rfl, flagSet_pteFlags pte (by decide)]
        exact valid
      obtain ⟨r, s3, mapped, result⟩ :=
        mappages_page took.table aligned below unmapped alignedMem (lt_trans ram phyStop_lt) flagsLow
      rw [mapped]
      rcases result with ⟨rfl, grows, entries3⟩ | ⟨rfl, grows, ranOut⟩
      · rw [or_pteV_of_valid flagsValid] at entries3
        refine .inr ⟨s3, ?_, copied.next aligned took bytes mappedOld leaf grows entries3⟩
        simp only
      · obtain ⟨s5, err, wiped⟩ := (copied.refund (refunded table took grows ranOut)).wipe aligned
        have low : s3.kend ≤ mem := by
          rw [grows.kend]
          exact copied.space.freeRam mem member
        refine .inl ⟨s5, ?_, wiped⟩
        simp only [kfree_eq alignedMem low ram]
        exact err

theorem uvmcopyLoop_spec (fork : Forkable s0 old new sz) {i : Nat} {s : Phys} (aligned : i % pgSize = 0)
    (tight : ∀ vpn, sz ≤ vpn * pgSize → i ≤ vpn * pgSize) (copied : Copied old new s0 i s) :
    ∃ r s', uvmcopyLoop old new sz i s = .ok (r, s') ∧
      ((r = 0 ∧ Copied old new s0 sz s') ∨ (r = -1 ∧ Wiped new s0 s')) := by
  by_cases more : i < sz
  · rcases uvmcopyLoop_step fork copied aligned more with ⟨s', ok, wiped⟩ | ⟨s', step, copied'⟩
    · exact ⟨-1, s', ok, .inr ⟨rfl, wiped⟩⟩
    · have aligned' : (i + pgSize) % pgSize = 0 := by
        simp only [pgSize] at aligned ⊢
        omega
      have tight' (vpn : Nat) (above : sz ≤ vpn * pgSize) : i + pgSize ≤ vpn * pgSize := by
        have := tight vpn above
        simp only [pgSize] at aligned this above ⊢
        omega
      rw [step]
      exact uvmcopyLoop_spec fork aligned' tight' copied'
  · rw [uvmcopyLoop, if_neg more]
    refine ⟨0, s, rfl, .inl ⟨rfl, copied.resize fun vpn => ⟨fun below => ?_, fun below => by omega⟩⟩⟩
    by_contra above
    exact absurd (tight vpn (Nat.le_of_not_lt above)) (Nat.not_le.mpr below)
termination_by sz - i
decreasing_by
  rw [pgSize]
  omega

/-- `uvmcopy` where `fork` calls it returns: `0` with every page of `old`
below `sz` copied into `new`, or `-1` with `new` mapping nothing below the
trapframe. -/
theorem uvmcopy_spec (fork : Forkable s0 old new sz) :
    ∃ r s', uvmcopy s0 old new sz = .ok (r, s') ∧
      ((r = 0 ∧ Copied old new s0 sz s') ∨ (r = -1 ∧ Wiped new s0 s')) :=
  uvmcopyLoop_spec fork (Nat.zero_mod _) (fun _ _ => Nat.zero_le _) (Copied.start fork.target)

end Loop

section ErrorPaths

theorem uvmcreate_tookPage {s s' : Phys} {pt pagetable : Nat} (table : Table s pt)
    (created : uvmcreate s = some (pagetable, s')) : TookPage pt pagetable s s' := by
  obtain ⟨rest, list, rfl⟩ := uvmcreate_eq created
  exact tookPage table list (fun b changed => by
    by_contra outside
    simp only [fill, if_neg outside] at changed
    exact changed rfl) rfl rfl

/-- For a page table with the address-space invariant and `oldsz ≤ newsz`,
`uvmalloc` never panics and writes only pages that were free or table pages.
It returns `newsz`, with every page from `PGROUNDUP(oldsz)` to `newsz` newly
mapped `PTE_R | PTE_U | xperm | PTE_V` to a zeroed page that was free and every
other mapping as it was, or `0`, with every mapping as it was and every page
it took free again unless it became a table page. Where `fork` calls
`uvmcopy`, it never panics and leaves `old`'s mappings and their bytes as they
were; it returns `0` with every page of `old` below `sz` mapped in `new`, with
the same flags, to a page that was free and holds the same bytes, or `-1` with
nothing of `new` mapped below `sz` and every page it took free again unless it
became a table page of `new`. -/
theorem alloc_error_paths_keep_mappings :
    (∀ (s : Phys) (pt oldsz newsz xperm : Nat), AddrSpace s pt oldsz → oldsz ≤ newsz → xperm < 1024 →
      ∃ r s', uvmalloc s pt oldsz newsz xperm = .ok (r, s') ∧
        (∀ b, s'.mem b ≠ s.mem b → ∃ p, (p ∈ s.freelist ∨ IsTable s.mem pt p) ∧ p ≤ b ∧ b < p + pgSize) ∧
        ((r = newsz ∧ AddrSpace s' pt newsz ∧
          (∀ vpn, pgRoundUp oldsz ≤ vpn * pgSize → vpn * pgSize < newsz → ∃ pa,
            pageMap s'.mem pt vpn = some (pa, pteR ||| pteU ||| xperm ||| pteV) ∧ pa ∈ s.freelist ∧
              ∀ i < pgSize, s'.mem (pa + i) = 0) ∧
          (∀ vpn, ¬ (pgRoundUp oldsz ≤ vpn * pgSize ∧ vpn * pgSize < newsz) →
            pageMap s'.mem pt vpn = pageMap s.mem pt vpn)) ∨
         (r = 0 ∧ AddrSpace s' pt oldsz ∧ (∀ vpn, pageMap s'.mem pt vpn = pageMap s.mem pt vpn) ∧
          ∀ p ∈ s.freelist, p ∈ s'.freelist ∨ IsTable s'.mem pt p))) ∧
    (∀ (s : Phys) (old new sz : Nat), AddrSpace s old sz → AddrSpace s new 0 → Apart s old new sz →
      ∃ r s', uvmcopy s old new sz = .ok (r, s') ∧
        (∀ vpn, pageMap s'.mem old vpn = pageMap s.mem old vpn) ∧
        (∀ vpn pa flags, vpn * pgSize < sz → pageMap s.mem old vpn = some (pa, flags) →
          ∀ k < pgSize, s'.mem (pa + k) = s.mem (pa + k)) ∧
        ((r = 0 ∧ AddrSpace s' new sz ∧ ∀ vpn, vpn * pgSize < sz → ∃ pa pa' flags,
            pageMap s.mem old vpn = some (pa, flags) ∧ pageMap s'.mem new vpn = some (pa', flags) ∧
            pa' ∈ s.freelist ∧ ∀ k < pgSize, s'.mem (pa' + k) = s.mem (pa + k)) ∨
         (r = -1 ∧ (∀ vpn, vpn * pgSize < sz → pageMap s'.mem new vpn = none) ∧
          ∀ p ∈ s.freelist, p ∈ s'.freelist ∨ IsTable s'.mem new p))) := by
  refine ⟨fun s pt oldsz newsz xperm space grow perm => ?_, fun s old new sz source target apart => ?_⟩
  · obtain ⟨r, s', ok, result⟩ := uvmalloc_spec space grow perm
    have written : ∀ b, s'.mem b ≠ s.mem b → ∃ p, (p ∈ s.freelist ∨ IsTable s.mem pt p) ∧ p ≤ b ∧ b < p + pgSize := by
      rcases result with ⟨-, grown⟩ | ⟨-, undone⟩
      · exact grown.written
      · exact undone.written
    refine ⟨r, s', ok, written, ?_⟩
    rcases result with ⟨rfl, grown⟩ | ⟨rfl, undone⟩
    · exact .inl ⟨rfl, grown.space, grown.fresh, grown.entries⟩
    · exact .inr ⟨rfl, undone.space.resize (lt_pgRoundUp_iff space.size_le), undone.entries, undone.returned⟩
  · have fork : Forkable s old new sz := { apart with source := source, target := target }
    obtain ⟨r, s', ok, result⟩ := uvmcopy_spec fork
    have taking : Takes new s s' := by
      rcases result with ⟨-, copied⟩ | ⟨-, wiped⟩
      · exact copied.toTakes
      · exact wiped.toTakes
    refine ⟨r, s', ok, taking.source_pageMap fork,
      fun vpn pa flags inside mapped k within => taking.source_bytes fork inside mapped within, ?_⟩
    rcases result with ⟨rfl, copied⟩ | ⟨rfl, wiped⟩
    · exact .inl ⟨rfl, copied.space, copied.copies⟩
    · refine .inr ⟨rfl, fun vpn below => wiped.space.above vpn (Nat.zero_le _) ?_, wiped.returned⟩
      exact lt_of_lt_of_le (lt_of_lt_of_le below source.size_le) phyStop_lt_trapframe.le

/-- Two fresh page tables made by `uvmcreate` from three free pages meet the
hypotheses: `uvmalloc` of one page into the second and `uvmcopy` of the
first's empty image into the second both return. -/
theorem alloc_error_paths_keep_mappings_fresh :
    ∃ s1 s2 : Phys, uvmcreate ⟨fun _ => 0, [0x80001000, 0x80002000, 0x80003000], 0x80000000⟩ =
        some (0x80001000, s1) ∧ uvmcreate s1 = some (0x80002000, s2) ∧
      (∃ r s', uvmalloc s2 0x80002000 0 4096 0 = .ok (r, s') ∧ (r = 4096 ∨ r = 0)) ∧
      ∃ r s', uvmcopy s2 0x80001000 0x80002000 0 = .ok (r, s') := by
  obtain ⟨s1, created1⟩ : ∃ s1, uvmcreate ⟨fun _ => 0, [0x80001000, 0x80002000, 0x80003000], 0x80000000⟩ =
      some (0x80001000, s1) := ⟨_, rfl⟩
  have free : Free ⟨fun _ => 0, [0x80001000, 0x80002000, 0x80003000], 0x80000000⟩ := ⟨by decide, by decide⟩
  have space1 := uvmcreate_addrSpace free (by decide) (by decide) created1
  obtain ⟨s2, created2⟩ : ∃ s2, uvmcreate s1 = some (0x80002000, s2) := by
    unfold uvmcreate kalloc
    rw [(uvmcreate_table free created1).2.2]
    exact ⟨_, rfl⟩
  have space2 := uvmcreate_addrSpace space1.toFree space1.kendPos space1.freeRam created2
  -- the second `uvmcreate` wrote only its own page, so the first table keeps its invariant
  have took := uvmcreate_tookPage space1.toTable created2
  have space1' : AddrSpace s2 0x80001000 0 :=
    space1.keep took.takes took.table (pageMap_of_leafPte (leafPte_of_sameTables took.same))
  have apart : Apart s2 0x80001000 0x80002000 0 := by
    refine ⟨fun p isNew isOld => ?_, fun _ _ _ inside => absurd inside (Nat.not_lt_zero _)⟩
    have onNew := (uvmcreate_isTable created2 p).mp isNew
    have onOld := (uvmcreate_isTable created1 p).mp ((isTable_of_sameTables took.same p).mp isOld)
    rw [onNew] at onOld
    exact absurd onOld (by decide)
  obtain ⟨r, s', ok, -, result⟩ :=
    alloc_error_paths_keep_mappings.1 s2 0x80002000 0 4096 0 space2 (by decide) (by decide)
  obtain ⟨r', s'', ok', -⟩ := alloc_error_paths_keep_mappings.2 s2 0x80001000 0x80002000 0 space1' space2 apart
  exact ⟨s1, s2, created1, created2, ⟨r, s', ok, result.imp (fun grown => grown.1) (fun undone => undone.1)⟩,
    r', s'', ok'⟩

end ErrorPaths

end Xv6.Vm
