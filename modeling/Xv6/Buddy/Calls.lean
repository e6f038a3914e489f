import Mathlib
import Xv6.Buddy.Rep

/-!
What `bd_malloc`, `bd_free` and `size` do to a represented tree, one call at a
time. `bd_malloc` holds exactly one more block, of the size asked for, which
was free or inside a free block (`Rep.mallocFrom`); `bd_free` of a held block
holds exactly one block fewer (`Rep.bdFree`); and `size` of a held block
returns its size, reading only split bits of sizes up to the one above it
(`Rep.size_held`). Neither call changes a reserved block (`Reserves`).
-/

namespace Xv6.Buddy

open Bytes Scan

variable {s : State} {t : Tree}

/-- `bd_malloc`'s split loop from the held block `b` of size `k` down to size
`fk`: the block of size `fk` at its start is held in the end, and it is the
only block the loop left held in place of `b`. The induction is on `k`, one
halving per pass. -/
theorem Rep.splitDown {fk : Nat} :
    ∀ (k : Nat) {s : State} {t : Tree} {b : Nat}, Rep s t → fk ≤ k → k < s.nsizes → b < nblk s.nsizes k →
      t k b = .held →
      ∃ t', Rep (splitDown fk (addr s k b) k s) t' ∧ Reserves t t' ∧
        ∀ j c, t' j c = .held ↔ (t j c = .held ∧ ¬(j = k ∧ c = b)) ∨ (j = fk ∧ c = b * 2 ^ (k - fk))
  | 0, s, t, b, rep, low, _, _, held => by
      obtain rfl : fk = 0 := by omega
      refine ⟨t, by rwa [splitDown_stop s (le_refl 0)], Reserves.refl t, fun j c => ?_⟩
      by_cases here : j = 0 ∧ c = b
      · obtain ⟨rfl, rfl⟩ := here
        simp [held]
      · simp [here]
  | k + 1, s, t, b, rep, low, hk, range, held => by
      rcases Nat.lt_or_ge fk (k + 1) with more | done
      · have double : 2 ^ (s.nsizes - 1 - k) = 2 ^ (s.nsizes - 1 - (k + 1)) * 2 := nblk_succ hk
        have range' : b < 2 ^ (s.nsizes - 1 - (k + 1)) := range
        have upperIn : t k (2 * b + 1) = .inside :=
          rep.shaped.inside_of_parent (by omega) (by omega) (by rw [show (2 * b + 1) / 2 = b by omega, held]; decide)
        -- the lower half was inside, so it was neither held nor reserved before
        have lowerIn : t k (2 * b) = .inside :=
          rep.shaped.inside_of_parent (by omega) (by omega) (by rw [show 2 * b / 2 = b by omega, held]; decide)
        have halved := rep.halve hk range held
        have lower : 2 * b < nblk s.nsizes k := by simp only [nblk]; omega
        obtain ⟨t', rep', kept, heldIff⟩ := @Rep.splitDown fk k _ _ _ halved (by omega) (Nat.lt_of_succ_lt hk)
          lower (by rw [Tree.set_of_ne _ _ (by omega), Tree.set_self])
        rw [splitDown_step s b more]
        simp only [lstPush_addr, setAlloc_addr, setSplit_addr] at rep'
        refine ⟨t', rep', (reserves_halve held (by rw [lowerIn]; decide) (by rw [upperIn]; decide)).trans kept,
          fun j c => ?_⟩
        have scale : 2 * b * 2 ^ (k - fk) = b * 2 ^ (k + 1 - fk) := by
          rw [show k + 1 - fk = k - fk + 1 by omega, pow_succ]
          ring
        rw [heldIff, held_halve (by rw [upperIn]; decide), scale]
        by_cases here : j = k ∧ c = 2 * b
        · obtain ⟨rfl, rfl⟩ := here
          simp [lowerIn]
        · simp only [here, or_false, not_false_eq_true, and_true]
      · obtain rfl : fk = k + 1 := by omega
        refine ⟨t, by rwa [splitDown_stop s (le_refl _)], Reserves.refl t, fun j c => ?_⟩
        by_cases here : j = k + 1 ∧ c = b
        · obtain ⟨rfl, rfl⟩ := here
          simp [held]
        · simp [here]

/-- `bd_malloc` from the size `fk = firstk(nbytes)` on: either it finds no free
block and changes nothing, or it returns the start of a block of size `fk` that
was free or inside a free block, and holds it, besides what was held before. -/
theorem Rep.mallocFrom (rep : Rep s t) {fk p : Nat} {s' : State} (ran : mallocFrom s fk = .ok (p, s')) :
    s'.nsizes = s.nsizes ∧ s'.base = s.base ∧ ∃ t', Rep s' t' ∧ Reserves t t' ∧
      ((p = 0 ∧ ∀ j c, t' j c = .held ↔ t j c = .held) ∨
        (0 < p ∧ fk < s.nsizes ∧ ∃ c < nblk s.nsizes fk, p = addr s fk c ∧ t fk c ≠ .held ∧
          ∀ j c', t' j c' = .held ↔ t j c' = .held ∨ (j = fk ∧ c' = c))) := by
  unfold Buddy.mallocFrom at ran
  cases found : firstFrom (fun k => !(s.sizes k).free.isEmpty) s.nsizes fk with
  | none =>
      rw [found] at ran
      cases ran
      exact ⟨rfl, rfl, t, rep, Reserves.refl t, .inl ⟨rfl, fun _ _ => Iff.rfl⟩⟩
  | some k =>
      rw [found] at ran
      obtain ⟨lower, hk, nonempty, -⟩ := firstFrom_some found
      obtain ⟨p₀, rest, front⟩ : ∃ p₀ rest, (s.sizes k).free = p₀ :: rest := by
        cases list : (s.sizes k).free with
        | nil => simp [list] at nonempty
        | cons p₀ rest => exact ⟨p₀, rest, rfl⟩
      obtain ⟨bi, range, free, rfl, taken⟩ := rep.take hk front
      dsimp only at ran
      rw [lstPop_cons s k _ front] at ran
      simp only [Machine.ok_bind, withFree_blkIndex, blkIndex_addr, Machine.pure_eq_ok, Except.ok.injEq,
        Prod.mk.injEq] at ran
      obtain ⟨rfl, rfl⟩ := ran
      obtain ⟨t', rep', kept, heldIff⟩ := @Rep.splitDown fk k _ _ _ taken lower hk range (Tree.set_self _ _ _ _)
      have range' : bi < 2 ^ (s.nsizes - 1 - k) := range
      have pos : 0 < bi := rep.shaped.index_pos (k := k) rep.first (by omega) (by rw [free]; decide)
        (by rw [free]; decide)
      refine ⟨by rw [splitDown_nsizes]; rfl, by rw [splitDown_base]; rfl, t', rep',
        (reserves_set .held (by rw [free]; decide)).trans kept, .inr ⟨addr_pos s pos, by omega, bi * 2 ^ (k - fk), mul_pow_lt lower (by omega) range', ?_, ?_, ?_⟩⟩
      · rw [← addr_scale s fk bi (k - fk), Nat.add_sub_cancel' lower]
      · -- the block at `fk` is the free block itself, or inside it
        rcases Nat.eq_or_lt_of_le lower with rfl | below
        · simp [free]
        · rw [rep.shaped.inside_below (by omega) (by rw [free]; decide) below
            (mul_pow_lt lower (by omega) range') (Nat.mul_div_cancel _ (Nat.two_pow_pos _))]
          decide
      · intro j c
        rw [heldIff, held_set_other (by rw [free]; decide)]

/-- `size(p)` of a held block `b` of size `k`: the block's parent is split and
no block of size `1..k` holding `p` is, so the loop stops at `k`, below
`MAXSIZE`, having read `bd_sizes[j + 1]` only for `j ≤ k`. -/
theorem Rep.size_held (rep : Rep s t) {k b : Nat} (hk : k < s.nsizes) (range : b < nblk s.nsizes k)
    (held : t k b = .held) :
    k + 1 < s.nsizes ∧ isSplit s (k + 1) (blkIndex s (k + 1) (addr s k b)) = true ∧
      (∀ j < k, isSplit s (j + 1) (blkIndex s (j + 1) (addr s k b)) = false) ∧ size s (addr s k b) = k := by
  have range' : b < 2 ^ (s.nsizes - 1 - k) := range
  have below : k < s.nsizes - 1 := rep.shaped.held_lt rep.first (by omega) range' held
  have parent : isSplit s (k + 1) (blkIndex s (k + 1) (addr s k b)) = true := by
    rw [blkIndex_addr_above s k b 1, pow_one, rep.bits.split (k + 1) (by omega) (by omega) (b / 2)
      (half_lt below range'), rep.shaped.parent_split below range' (by rw [held]; decide)]
    rfl
  -- the blocks of sizes `j + 1 ≤ k` holding `p` are the block itself or lie inside it
  have clear : ∀ j < k, isSplit s (j + 1) (blkIndex s (j + 1) (addr s k b)) = false := by
    intro j lower
    have start : addr s k b = addr s (j + 1) (b * 2 ^ (k - (j + 1))) := by
      rw [← addr_scale, Nat.add_sub_cancel' lower]
    have inRange := mul_pow_lt (Nat.succ_le_of_lt lower) (by omega) range'
    rw [start, blkIndex_addr, rep.bits.split (j + 1) (by omega) (by omega) _ inRange]
    rcases Nat.eq_or_lt_of_le (Nat.succ_le_of_lt lower) with same | inside
    · subst same
      simp [held]
    · rw [rep.shaped.inside_below (by omega) (by rw [held]; decide) inside inRange
        (Nat.mul_div_cancel _ (Nat.two_pow_pos _))]
      decide
  refine ⟨by omega, parent, clear, ?_⟩
  rw [size, firstFrom_eq_some (Nat.zero_le k) (by omega) parent fun j _ lower => clear j lower]
  rfl

/-- `bd_free`'s merge loop from the held block `b` of size `k`: the block,
joined with each free buddy the loop finds, ends where the final `lst_push`
puts it, free, and no other block changes whether it is held. The induction is
on the sizes left above `k`, one join per pass. -/
theorem Rep.mergeUp :
    ∀ (n : Nat) {s : State} {t : Tree} {k b : Nat}, s.nsizes - 1 - k = n → Rep s t → k < s.nsizes →
      b < nblk s.nsizes k → t k b = .held →
      ∃ s' p' k' t', mergeUp s (addr s k b) k = (s', p', k') ∧ Rep (lstPush s' k' p') t' ∧ Reserves t t' ∧
        s'.nsizes = s.nsizes ∧ s'.base = s.base ∧ ∀ j c, t' j c = .held ↔ t j c = .held ∧ ¬(j = k ∧ c = b)
  | 0, s, t, k, b, left, rep, hk, range, held => by
      have below := rep.shaped.held_lt rep.first (by omega) range held
      omega
  | n + 1, s, t, k, b, left, rep, hk, range, held => by
      have range' : b < 2 ^ (s.nsizes - 1 - k) := range
      have below : k < s.nsizes - 1 := rep.shaped.held_lt rep.first (by omega) range' held
      have parent := rep.shaped.parent_split below range' (by rw [held]; decide)
      have other := buddy_lt below range'
      -- the buddy's parent is split, so the buddy is not inside, and its `alloc` bit says whether it is free
      have buddyOut : t k (buddy b) ≠ .inside := fun inside =>
        (rep.shaped.child k below (buddy b) other).mp inside (by rw [buddy_div_two, parent])
      have readBuddy : isAlloc (clearAlloc s k b) k (buddy b) = (t k (buddy b)).taken := by
        rw [isAlloc_clearAlloc rep.layout hk hk range other, rep.bits.alloc k hk _ other]
        simp [(buddy_ne b).symm]
      cases taken : (t k (buddy b)).taken with
      | true =>
          refine ⟨clearAlloc s k b, addr s k b, k, t.set k b .free, mergeUp_stop s below (readBuddy.trans taken),
            rep.settle hk range held, reserves_set .free (by rw [held]; decide), rfl, rfl, fun j c => ?_⟩
          by_cases here : j = k ∧ c = b
          · obtain ⟨rfl, rfl⟩ := here
            simp
          · rw [Tree.set_of_ne _ _ (by tauto)]
            simp [here]
      | false =>
          have free : t k (buddy b) = .free := by
            cases status : t k (buddy b) <;> simp_all [Status.taken]
          have joined := rep.join (by omega) range held free
          obtain ⟨s', p', k', t', run, rep', kept, nsizes, base, heldIff⟩ :=
            Rep.mergeUp n (by simp; omega) joined (by simp; omega) (half_lt below range') (Tree.set_self _ _ _ _)
          have joinKeeps := reserves_join (t := t) (by rw [held]; decide) (by rw [free]; decide) (by rw [parent]; decide)
          refine ⟨s', p', k', t', ?_, rep', joinKeeps.trans kept, by simpa using nsizes, by simpa using base, fun j c => ?_⟩
          · rw [mergeUp_join s below (readBuddy.trans taken)]
            simpa using run
          · rw [heldIff, held_join (by rw [free]; decide)]
            -- the parent was split, so it was not held before
            by_cases up : j = k + 1 ∧ c = b / 2
            · obtain ⟨rfl, rfl⟩ := up
              simp [parent]
            · simp [up]

theorem Rep.bdFree (rep : Rep s t) {k b : Nat} (hk : k < s.nsizes) (range : b < nblk s.nsizes k)
    (held : t k b = .held) :
    (bdFree s (addr s k b)).nsizes = s.nsizes ∧ (bdFree s (addr s k b)).base = s.base ∧
      ∃ t', Rep (bdFree s (addr s k b)) t' ∧ Reserves t t' ∧ ∀ j c, t' j c = .held ↔ t j c = .held ∧ ¬(j = k ∧ c = b) := by
  obtain ⟨s', p', k', t', run, rep', kept, nsizes, base, heldIff⟩ := Rep.mergeUp _ rfl rep hk range held
  have sized := (rep.size_held hk range held).2.2.2
  simp only [Buddy.bdFree, sized, run]
  exact ⟨by simpa using nsizes, by simpa using base, t', rep', kept, heldIff⟩

end Xv6.Buddy
