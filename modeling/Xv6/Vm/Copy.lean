import Mathlib
import Xv6.String
import Xv6.Vm.Map

/-!
`copyout`, `copyin` and `copyinstr` of `kernel/vm.c`, `fetchstr` and
`argstr` of `kernel/syscall.c`, and `either_copyin` of `kernel/proc.c`. The kernel side of a copy is a buffer of its
own (`src` or `dst` with an offset for the moving pointer), apart from the
pages user code can reach; the user side is read and written in physical
memory through the page table, one page per iteration.

User code sees memory through `userPage`. A process page table keeps
`UserPages`: its user pages are none of its table pages, no two user pages
share a physical page, and none is page `0`, which `walkaddr` uses for failure.
-/

namespace Xv6.Vm

open Bytes

/-- The loop of `copyout(pagetable, dstva, src, len)`, with `src` at offset `off`. -/
def copyoutLoop (pagetable : Nat) (src : Mem) (off dstva len : Nat) (s : Phys) : Except String (Int × Phys) :=
  if len > 0 then
    let va0 := pgRoundDown dstva
    if va0 ≥ maxVa then .ok (-1, s)
    else
      match walk s pagetable va0 false with
      | .error e => .error e
      | .ok (none, _) => .ok (-1, s)
      | .ok (some pte, _) =>
          if !flagSet (readLE s.mem pte 8) pteV || !flagSet (readLE s.mem pte 8) pteU ||
              !flagSet (readLE s.mem pte 8) pteW then .ok (-1, s)
          else
            let pa0 := pte2pa (readLE s.mem pte 8)
            let n := min (pgSize - (dstva - va0)) len
            copyoutLoop pagetable src (off + n) (va0 + pgSize) (len - n)
              { s with mem := copy s.mem (pa0 + (dstva - va0)) src off n }
  else .ok (0, s)
termination_by len
decreasing_by
  have := sub_pgRoundDown_lt dstva
  omega

def copyout (s : Phys) (pagetable dstva : Nat) (src : Mem) (len : Nat) : Except String (Int × Phys) :=
  copyoutLoop pagetable src 0 dstva len s

/-- The loop of `copyin(pagetable, dst, srcva, len)`, with `dst` at offset `off`. -/
def copyinLoop (s : Phys) (pagetable : Nat) (dst : Mem) (off srcva len : Nat) : Int × Mem :=
  if len > 0 then
    let va0 := pgRoundDown srcva
    let pa0 := walkaddr s pagetable va0
    if pa0 = 0 then (-1, dst)
    else
      let n := min (pgSize - (srcva - va0)) len
      copyinLoop s pagetable (copy dst off s.mem (pa0 + (srcva - va0)) n) (off + n) (va0 + pgSize) (len - n)
  else (0, dst)
termination_by len
decreasing_by
  have := sub_pgRoundDown_lt srcva
  omega

def copyin (s : Phys) (pagetable : Nat) (dst : Mem) (srcva len : Nat) : Int × Mem :=
  copyinLoop s pagetable dst 0 srcva len

/-- `either_copyin(dst, user_src, src, len)` of `kernel/proc.c` into a kernel
buffer at `off`: `copyin` through the process's page table, or `memmove` from
kernel memory. -/
def eitherCopyin (s : Phys) (pagetable : Nat) (userSrc : Bool) (dst : Mem) (off src len : Nat) :
    Int × Mem :=
  if userSrc then copyinLoop s pagetable dst off src len
  else (0, copy dst off s.mem src len)

/-- The inner loop of `copyinstr`: at most `n` bytes from physical address `p`
to `dst` at `off`, ending after a NUL, which it reports as `got_null`. -/
def copyinstrPage (mem : Mem) (p : Nat) (dst : Mem) (off : Nat) : Nat → Bool × Mem
  | 0 => (false, dst)
  | n + 1 =>
      if mem p = 0 then (true, Function.update dst off 0)
      else copyinstrPage mem (p + 1) (Function.update dst off (mem p)) (off + 1) n

/-- The loop of `copyinstr(pagetable, dst, srcva, max)`, with `dst` at offset `off`. -/
def copyinstrLoop (s : Phys) (pagetable : Nat) (dst : Mem) (off srcva max : Nat) : Int × Mem :=
  if max > 0 then
    let va0 := pgRoundDown srcva
    let pa0 := walkaddr s pagetable va0
    if pa0 = 0 then (-1, dst)
    else
      let n := min (pgSize - (srcva - va0)) max
      match copyinstrPage s.mem (pa0 + (srcva - va0)) dst off n with
      | (true, dst) => (0, dst)
      | (false, dst) => copyinstrLoop s pagetable dst (off + n) (va0 + pgSize) (max - n)
  else (-1, dst)
termination_by max
decreasing_by
  have := sub_pgRoundDown_lt srcva
  omega

def copyinstr (s : Phys) (pagetable : Nat) (dst : Mem) (srcva max : Nat) : Int × Mem :=
  copyinstrLoop s pagetable dst 0 srcva max

/-- `fetchstr(addr, buf, max)` for the process with page table `pagetable`. -/
def fetchstr (s : Phys) (pagetable addr : Nat) (buf : Mem) (max : Nat) : Int × Mem :=
  match copyinstr s pagetable buf addr max with
  | (r, buf) => if r < 0 then (-1, buf) else (strlen buf 0 max, buf)

/-- `argraw(n)`: argument register `a n` of the trapframe. -/
def argraw (a : Nat → Nat) (n : Nat) : Except String Nat :=
  if n ≤ 5 then .ok (a n) else .error "argraw"

/-- `argstr(n, buf, max)`: `argaddr` then `fetchstr`. -/
def argstr (s : Phys) (pagetable : Nat) (a : Nat → Nat) (n : Nat) (buf : Mem) (max : Nat) :
    Except String (Int × Mem) := do
  let addr ← argraw a n
  return fetchstr s pagetable addr buf max

/-- The bytes a copy loop moves in its pass at `va` with `len` left: the rest of
the page, at most `len`. -/
def chunk (va len : Nat) : Nat := min (pgSize - va % pgSize) len

/-- The physical page behind user address `va` when its mapping has `PTE_U`
and, for a `write`, `PTE_W`. `pageMap` maps only pages below `MAXVA`, and only
through entries with `PTE_V`. -/
def userPage (mem : Mem) (pt : Nat) (write : Bool) (va : Nat) : Option Nat :=
  match pageMap mem pt (va / pgSize) with
  | some (pa, flags) => if flagSet flags pteU && (!write || flagSet flags pteW) then some pa else none
  | none => none

/-- The byte user code reads at `va`, behind a mapping with `PTE_U`. -/
def userByte (mem : Mem) (pt va : Nat) : Option UInt8 :=
  (userPage mem pt false va).map fun pa => mem (pa + va % pgSize)

/-- User memory holds a string of length `k` at `va`: `k` bytes user code can
read, none of them NUL, then a NUL it can read. -/
def UserString (mem : Mem) (pt va k : Nat) : Prop :=
  (∀ i < k, ∃ b, userByte mem pt (va + i) = some b ∧ b ≠ 0) ∧ userByte mem pt (va + k) = some 0

/-- What every process page table keeps about the pages user code can reach. -/
structure UserPages (mem : Mem) (pt : Nat) : Prop extends Tree mem pt where
  notTable : ∀ va pa, userPage mem pt false va = some pa → ¬ IsTable mem pt pa
  unshared : ∀ va va' pa, userPage mem pt false va = some pa → userPage mem pt false va' = some pa →
    va / pgSize = va' / pgSize
  nonzero : ∀ va pa, userPage mem pt false va = some pa → pa ≠ 0

section Chunks

variable {va len : Nat}

theorem chunk_pos (more : 0 < len) : 0 < chunk va len := by
  have := Nat.mod_lt va (show 0 < pgSize by decide)
  simp only [chunk]
  omega

theorem chunk_le : chunk va len ≤ len := Nat.min_le_right _ _

theorem chunk_fits : va % pgSize + chunk va len ≤ pgSize := by
  have := Nat.mod_lt va (show 0 < pgSize by decide)
  simp only [chunk]
  omega

/-- The first pass stays in the page of `va`. -/
theorem chunk_head {i : Nat} (inside : i < chunk va len) :
    (va + i) / pgSize = va / pgSize ∧ (va + i) % pgSize = va % pgSize + i := by
  have fits : va % pgSize + chunk va len ≤ pgSize := chunk_fits
  have split := Nat.mod_add_div va pgSize
  simp only [pgSize] at fits split ⊢
  omega

theorem chunk_next (short : chunk va len < len) : pgRoundDown va + pgSize = va + chunk va len := by
  have split := Nat.mod_add_div va pgSize
  have := Nat.mod_lt va (show 0 < pgSize by decide)
  simp only [chunk, pgRoundDown] at short ⊢
  simp only [pgSize] at split this short ⊢
  omega

theorem chunk_rest {i : Nat} (later : chunk va len ≤ i) (inside : i < len) :
    va + i = pgRoundDown va + pgSize + (i - chunk va len) := by
  have := chunk_next (show chunk va len < len by omega)
  omega

theorem forall_chunks {P : Nat → Prop} (first : ∀ i < chunk va len, P (va + i)) :
    (∀ i < len, P (va + i)) ↔ ∀ j < len - chunk va len, P (pgRoundDown va + pgSize + j) := by
  constructor
  · intro all j inside
    have := all (chunk va len + j) (by omega)
    rwa [chunk_rest (show chunk va len ≤ chunk va len + j by omega) (by omega), Nat.add_sub_cancel_left] at this
  · intro all i inside
    by_cases head : i < chunk va len
    · exact first i head
    · rw [chunk_rest (show chunk va len ≤ i by omega) inside]
      exact all _ (by omega)

theorem chunk_later (j : Nat) : va / pgSize < (pgRoundDown va + pgSize + j) / pgSize := by
  simp only [pgRoundDown, pgSize]
  omega

end Chunks

section UserView

variable {mem mem' : Mem} {pt : Nat}

theorem userPage_of_page_eq {write : Bool} {va va' : Nat} (same : va / pgSize = va' / pgSize) :
    userPage mem pt write va = userPage mem pt write va' := by
  rw [userPage, userPage, same]

theorem userPage_above {write : Bool} {va : Nat} (above : ¬ va < maxVa) : userPage mem pt write va = none := by
  have outside : ¬ va / pgSize < maxVa / pgSize := by
    simp only [pgSize, maxVa_eq] at above ⊢
    omega
  rw [userPage, pageMap_above outside]

theorem userPage_eq {write : Bool} {va : Nat} (below : va < maxVa) :
    userPage mem pt write va = (leafPte mem pt (pgRoundDown va)).bind fun pte =>
      if flagSet pte pteU && (!write || flagSet pte pteW) then some (pte2pa pte) else none := by
  have inside : va / pgSize < maxVa / pgSize := by
    simp only [pgSize, maxVa_eq] at below ⊢
    omega
  rw [userPage, pageMap_below inside, ← pgRoundDown]
  cases leafPte mem pt (pgRoundDown va) with
  | none => rfl
  | some pte =>
      have user : flagSet (pteFlags pte) pteU = flagSet pte pteU := flagSet_pteFlags pte (by decide)
      have writable : flagSet (pteFlags pte) pteW = flagSet pte pteW := flagSet_pteFlags pte (by decide)
      simp only [Option.map_some, Option.bind_some, user, writable]

theorem userPage_write {va pa : Nat} (found : userPage mem pt true va = some pa) :
    userPage mem pt false va = some pa := by
  unfold userPage at found ⊢
  split at found
  · split_ifs at found with ok
    simp only [Bool.and_eq_true] at ok
    simp [ok.1, found]
  · cases found

theorem userPage_some {write : Bool} {va pa : Nat} (found : userPage mem pt write va = some pa) :
    ∃ flags, pageMap mem pt (va / pgSize) = some (pa, flags) ∧ flagSet flags pteU := by
  unfold userPage at found
  split at found
  · rename_i pa' flags mapped
    split_ifs at found with ok
    cases found
    simp only [Bool.and_eq_true] at ok
    exact ⟨flags, mapped, ok.1⟩
  · cases found

theorem userPage_aligned {write : Bool} {va pa : Nat} (found : userPage mem pt write va = some pa) :
    pa % pgSize = 0 := by
  unfold userPage pageMap at found
  split_ifs at found with inside
  cases leaf : leafPte mem pt (va / pgSize * pgSize) with
  | none => simp [leaf] at found
  | some pte =>
      simp only [leaf, Option.map_some] at found
      split_ifs at found
      cases found
      exact pte2pa_aligned pte

theorem userPage_of_sameTables (same : SameTables mem mem' pt) (write : Bool) (va : Nat) :
    userPage mem' pt write va = userPage mem pt write va := by
  simp only [userPage, pageMap, leafPte_of_sameTables same]

theorem UserPages.of_sameTables (user : UserPages mem pt) (same : SameTables mem mem' pt) :
    UserPages mem' pt where
  toTree := user.toTree.of_sameUpper (sameUpper_of_sameTables same)
  notTable va pa := by
    rw [userPage_of_sameTables same, isTable_of_sameTables same]
    exact user.notTable va pa
  unshared va va' pa := by
    rw [userPage_of_sameTables same, userPage_of_sameTables same]
    exact user.unshared va va' pa
  nonzero va pa := by
    rw [userPage_of_sameTables same]
    exact user.nonzero va pa

theorem walkaddr_userPage (s : Phys) (pt va : Nat) : walkaddr s pt va = (userPage s.mem pt false va).getD 0 := by
  rw [walkaddr_eq, userPage]
  cases pageMap s.mem pt (va / pgSize) with
  | none => rfl
  | some entry =>
      obtain ⟨pa, flags⟩ := entry
      by_cases user : flagSet flags pteU <;> simp [user]

theorem userByte_head {va len pa i : Nat} (found : userPage mem pt false va = some pa)
    (head : i < chunk va len) : userByte mem pt (va + i) = some (mem (pa + va % pgSize + i)) := by
  obtain ⟨samePage, offset⟩ := chunk_head head
  rw [userByte, userPage_of_page_eq samePage, found, Option.map_some, offset, Nat.add_assoc]

theorem userString_unique {va k k' : Nat} (string : UserString mem pt va k) (string' : UserString mem pt va k') :
    k = k' := by
  by_contra differ
  rcases Nat.lt_or_gt_of_ne differ with short | long
  · obtain ⟨b, byte, nonzero⟩ := string'.1 k short
    rw [string.2, Option.some.injEq] at byte
    exact nonzero byte.symm
  · obtain ⟨b, byte, nonzero⟩ := string.1 k' long
    rw [string'.2, Option.some.injEq] at byte
    exact nonzero byte.symm

theorem userString_first {va k : Nat} (string : UserString mem pt va k) : (userByte mem pt va).isSome := by
  rcases Nat.eq_zero_or_pos k with rfl | long
  · simpa using congrArg Option.isSome string.2
  · obtain ⟨b, byte, -⟩ := string.1 0 long
    simpa using congrArg Option.isSome byte

theorem userString_shift {va n k : Nat} (first : ∀ i < n, ∃ b, userByte mem pt (va + i) = some b ∧ b ≠ 0) :
    UserString mem pt va k ↔ n ≤ k ∧ UserString mem pt (va + n) (k - n) := by
  constructor
  · intro string
    have long : n ≤ k := by
      by_contra short
      obtain ⟨b, byte, nonzero⟩ := first k (by omega)
      rw [string.2, Option.some.injEq] at byte
      exact nonzero byte.symm
    refine ⟨long, fun j inside => ?_, ?_⟩
    · rw [Nat.add_assoc]
      exact string.1 _ (by omega)
    · rw [Nat.add_assoc, Nat.add_sub_cancel' long]
      exact string.2
  · rintro ⟨long, rest, nul⟩
    refine ⟨fun i inside => ?_, ?_⟩
    · by_cases head : i < n
      · exact first i head
      · have := rest (i - n) (by omega)
        rwa [Nat.add_assoc, Nat.add_sub_cancel' (by omega)] at this
    · rwa [Nat.add_assoc, Nat.add_sub_cancel' long] at nul

end UserView

theorem base_eq_of_add_eq {pa pa' x y : Nat} (aligned : pa % pgSize = 0) (aligned' : pa' % pgSize = 0)
    (small : x < pgSize) (small' : y < pgSize) (same : pa + x = pa' + y) : pa = pa' := by
  simp only [pgSize] at aligned aligned' small small'
  omega

section Steps

variable {pt : Nat}

theorem copyoutLoop_step (src : Mem) (off : Nat) {dstva len : Nat} (s : Phys) (more : 0 < len) :
    copyoutLoop pt src off dstva len s =
      match userPage s.mem pt true dstva with
      | none => .ok (-1, s)
      | some pa =>
          copyoutLoop pt src (off + chunk dstva len) (pgRoundDown dstva + pgSize) (len - chunk dstva len)
            { s with mem := copy s.mem (pa + dstva % pgSize) src off (chunk dstva len) } := by
  rw [copyoutLoop, if_pos more]
  dsimp only
  rw [sub_pgRoundDown, ← chunk]
  by_cases below : pgRoundDown dstva < maxVa
  · have below' : dstva < maxVa := by
      have := sub_pgRoundDown_lt dstva
      simp only [pgRoundDown, pgSize, maxVa_eq] at below this ⊢
      omega
    rw [if_neg (Nat.not_le.mpr below), walk_of_not_alloc below, userPage_eq below']
    unfold leafPte
    cases leafSlot s.mem pt (pgRoundDown dstva) with
    | none => rfl
    | some slot =>
        by_cases valid : flagSet (readLE s.mem slot 8) pteV
        · by_cases user : flagSet (readLE s.mem slot 8) pteU <;>
            by_cases writable : flagSet (readLE s.mem slot 8) pteW <;> simp [valid, user, writable]
        · simp [valid]
  · have above : ¬ dstva < maxVa := fun below' => below (lt_of_le_of_lt (pgRoundDown_le dstva) below')
    rw [if_pos (Nat.le_of_not_lt below), userPage_above above]

theorem copyinLoop_step (s : Phys) (dst : Mem) (off : Nat) {srcva len : Nat} (more : 0 < len)
    (nonzero : ∀ pa, userPage s.mem pt false srcva = some pa → pa ≠ 0) :
    copyinLoop s pt dst off srcva len =
      match userPage s.mem pt false srcva with
      | none => (-1, dst)
      | some pa =>
          copyinLoop s pt (copy dst off s.mem (pa + srcva % pgSize) (chunk srcva len))
            (off + chunk srcva len) (pgRoundDown srcva + pgSize) (len - chunk srcva len) := by
  rw [copyinLoop, if_pos more]
  dsimp only
  rw [sub_pgRoundDown, ← chunk, walkaddr_userPage, userPage_of_page_eq (pgRoundDown_div srcva)]
  cases found : userPage s.mem pt false srcva with
  | none => rfl
  | some pa => simp [nonzero pa found]

theorem copyinstrPage_eq (mem : Mem) (p : Nat) (dst : Mem) (off n : Nat) :
    copyinstrPage mem p dst off n =
      (decide (strlen mem p n < n), copy dst off mem p (min (strlen mem p n + 1) n)) := by
  induction n generalizing p dst off with
  | zero =>
      simp only [copyinstrPage, strlen, Nat.lt_irrefl, decide_false, Nat.min_zero]
      congr
      funext a
      simp [copy]
  | succ n ih =>
      rw [copyinstrPage, strlen]
      by_cases nul : mem p = 0
      · rw [if_pos nul, if_pos nul]
        simp only [Nat.zero_add, Nat.zero_lt_succ, decide_true, Nat.min_eq_left (Nat.succ_le_succ (Nat.zero_le n))]
        congr
        funext a
        by_cases here : a = off
        · subst here
          simp [copy, nul]
        · simp only [copy, Function.update_of_ne here]
          rw [if_neg (by omega)]
      · rw [if_neg nul, if_neg nul, ih]
        simp only [Nat.add_lt_add_iff_right, Prod.mk.injEq, true_and]
        funext a
        by_cases here : a = off
        · subst here
          simp [copy]
        · simp only [copy, Function.update_of_ne here]
          by_cases inside : off + 1 ≤ a ∧ a < off + 1 + min (strlen mem (p + 1) n + 1) n
          · rw [if_pos inside, if_pos (by omega)]
            congr 1
            omega
          · rw [if_neg inside, if_neg (by omega)]

theorem copyinstrLoop_step (s : Phys) (dst : Mem) (off : Nat) {srcva max : Nat} (more : 0 < max)
    (nonzero : ∀ pa, userPage s.mem pt false srcva = some pa → pa ≠ 0) :
    copyinstrLoop s pt dst off srcva max =
      match userPage s.mem pt false srcva with
      | none => (-1, dst)
      | some pa =>
          match copyinstrPage s.mem (pa + srcva % pgSize) dst off (chunk srcva max) with
          | (true, dst) => (0, dst)
          | (false, dst) =>
              copyinstrLoop s pt dst (off + chunk srcva max) (pgRoundDown srcva + pgSize) (max - chunk srcva max) := by
  rw [copyinstrLoop, if_pos more]
  dsimp only
  rw [sub_pgRoundDown, ← chunk, walkaddr_userPage, userPage_of_page_eq (pgRoundDown_div srcva)]
  cases found : userPage s.mem pt false srcva with
  | none => rfl
  | some pa => simp [nonzero pa found]

end Steps

/-- What a run of `copyout`'s loop from `s` to `s'` keeps and changes: the free
list and the table pages stay, and a byte changes only at the physical address
of a user address of the range whose page is mapped for writing. -/
structure CopiedOut (pt dstva len : Nat) (s s' : Phys) : Prop where
  freelist : s'.freelist = s.freelist
  kend : s'.kend = s.kend
  tables : SameTables s.mem s'.mem pt
  written : ∀ a, s'.mem a ≠ s.mem a → ∃ i pa, i < len ∧ userPage s.mem pt true (dstva + i) = some pa ∧
    a = pa + (dstva + i) % pgSize

section Copyout

variable {pt : Nat}

theorem CopiedOut.refl (s : Phys) (dstva len : Nat) : CopiedOut pt dstva len s s :=
  ⟨rfl, rfl, fun _ _ _ _ => rfl, fun _ changed => absurd rfl changed⟩

/-- `copyout`'s loop never panics; it returns `0` exactly when every page of
the range is mapped for writing, and then each user byte of the range holds
its byte of `src`. -/
theorem copyoutLoop_spec (src : Mem) {s : Phys} (user : UserPages s.mem pt) (off dstva len : Nat) :
    ∃ r s', copyoutLoop pt src off dstva len s = .ok (r, s') ∧ CopiedOut pt dstva len s s' ∧
      (r = 0 ↔ ∀ i < len, (userPage s.mem pt true (dstva + i)).isSome) ∧ (r ≠ 0 → r = -1) ∧
      (r = 0 → ∀ i pa, i < len → userPage s.mem pt true (dstva + i) = some pa →
        s'.mem (pa + (dstva + i) % pgSize) = src (off + i)) := by
  induction len using Nat.strong_induction_on generalizing off dstva s with
  | _ len ih =>
  rcases Nat.eq_zero_or_pos len with rfl | more
  · exact ⟨0, s, by rw [copyoutLoop, if_neg (by omega)], CopiedOut.refl s dstva 0, by simp, by simp, by simp⟩
  rw [copyoutLoop_step src off s more]
  cases found : userPage s.mem pt true dstva with
  | none =>
      refine ⟨-1, s, rfl, CopiedOut.refl s dstva len, ?_, fun _ => rfl, by simp⟩
      simp only [show (-1 : Int) ≠ 0 by decide, false_iff, not_forall]
      exact ⟨0, more, by simp [found]⟩
  | some pa =>
      -- the pass writes the rest of the page of `dstva`, inside the user page `pa`
      have fits : dstva % pgSize + chunk dstva len ≤ pgSize := chunk_fits
      have aligned := userPage_aligned found
      have inPage (a : Nat) (changed : copy s.mem (pa + dstva % pgSize) src off (chunk dstva len) a ≠ s.mem a) :
          pa + dstva % pgSize ≤ a ∧ a < pa + dstva % pgSize + chunk dstva len := by
        by_contra outside
        simp only [copy, if_neg outside] at changed
        exact changed rfl
      have same : SameTables s.mem (copy s.mem (pa + dstva % pgSize) src off (chunk dstva len)) pt :=
        sameTables_of_inside user.toTree aligned (user.notTable _ _ (userPage_write found))
          fun a changed => by have := inPage a changed; omega
      have view (write : Bool) (va : Nat) := userPage_of_sameTables same write va
      obtain ⟨r, s', ok, copied, result, failed, bytes⟩ :=
        ih (len - chunk dstva len) (by have : 0 < chunk dstva len := chunk_pos more; omega)
          (s := { s with mem := copy s.mem (pa + dstva % pgSize) src off (chunk dstva len) })
          (user.of_sameTables same) (off + chunk dstva len) (pgRoundDown dstva + pgSize)
      refine ⟨r, s', ok, ⟨copied.freelist, copied.kend, sameTables_trans same copied.tables, ?_⟩, ?_, failed, ?_⟩
      · intro a changed
        by_cases later : s'.mem a ≠ (copy s.mem (pa + dstva % pgSize) src off (chunk dstva len)) a
        · obtain ⟨j, pa', inside, found', rfl⟩ := copied.written a later
          have shift : dstva + (chunk dstva len + j) = pgRoundDown dstva + pgSize + j := by
            rw [chunk_rest (show chunk dstva len ≤ chunk dstva len + j by omega) (by omega), Nat.add_sub_cancel_left]
          refine ⟨chunk dstva len + j, pa', by omega, by rwa [shift, ← view], by rw [shift]⟩
        · have first := inPage a (by rwa [not_not.mp later] at changed)
          have head := chunk_head (show a - (pa + dstva % pgSize) < chunk dstva len by omega)
          refine ⟨a - (pa + dstva % pgSize), pa, by have : chunk dstva len ≤ len := chunk_le; omega, ?_, ?_⟩
          · rw [userPage_of_page_eq head.1, found]
          · rw [head.2]
            omega
      · have first (i : Nat) (head : i < chunk dstva len) : (userPage s.mem pt true (dstva + i)).isSome := by
          rw [userPage_of_page_eq (chunk_head head).1, found]
          rfl
        rw [result, forall_chunks (P := fun va => (userPage s.mem pt true va).isSome) first]
        simp only [view]
      · intro zero i pa' inside found'
        by_cases first : i < chunk dstva len
        · obtain ⟨samePage, offset⟩ := chunk_head first
          rw [userPage_of_page_eq samePage, found, Option.some.injEq] at found'
          subst found'
          -- the rest of the loop writes only other pages, which `unshared` keeps apart from `pa`
          have untouched : s'.mem (pa + (dstva + i) % pgSize) =
              copy s.mem (pa + dstva % pgSize) src off (chunk dstva len) (pa + (dstva + i) % pgSize) := by
            by_contra later
            obtain ⟨j, pa'', -, found'', same⟩ := copied.written _ later
            rw [view] at found''
            have base := base_eq_of_add_eq aligned (userPage_aligned found'') (by omega)
              (Nat.mod_lt _ (by decide)) same
            subst base
            have := user.unshared _ _ _ (userPage_write found) (userPage_write found'')
            have : dstva / pgSize < (pgRoundDown dstva + pgSize + j) / pgSize := chunk_later j
            omega
          rw [untouched, offset]
          simp only [copy]
          rw [if_pos (by omega)]
          congr 2
          omega
        · have := bytes zero (i - chunk dstva len) pa' (by omega) (by rwa [view, ← chunk_rest (show chunk dstva len ≤ i by omega) inside])
          rwa [← chunk_rest (show chunk dstva len ≤ i by omega) inside, Nat.add_assoc, Nat.add_sub_cancel' (by omega)] at this

end Copyout

section Copyin

variable {pt : Nat} {s : Phys}

/-- `copyin`'s loop returns `0` exactly when every page of the range is mapped
for user code, and then `dst` holds the user bytes of the range; it writes
nothing outside `[off, off + len)`. -/
theorem copyinLoop_spec (nonzero : ∀ va pa, userPage s.mem pt false va = some pa → pa ≠ 0)
    {dst dst' : Mem} {off srcva len : Nat} {r : Int} (ran : copyinLoop s pt dst off srcva len = (r, dst')) :
    (r = 0 ↔ ∀ i < len, (userPage s.mem pt false (srcva + i)).isSome) ∧ (r ≠ 0 → r = -1) ∧
      (∀ a, dst' a ≠ dst a → off ≤ a ∧ a < off + len) ∧
      (r = 0 → ∀ i < len, userByte s.mem pt (srcva + i) = some (dst' (off + i))) := by
  induction len using Nat.strong_induction_on generalizing dst off srcva with
  | _ len ih =>
  rcases Nat.eq_zero_or_pos len with rfl | more
  · rw [copyinLoop, if_neg (by omega), Prod.mk.injEq] at ran
    obtain ⟨rfl, rfl⟩ := ran
    exact ⟨by simp, by simp, fun _ changed => absurd rfl changed, by simp⟩
  rw [copyinLoop_step s dst off more (nonzero srcva)] at ran
  cases found : userPage s.mem pt false srcva with
  | none =>
      rw [found, Prod.mk.injEq] at ran
      obtain ⟨rfl, rfl⟩ := ran
      refine ⟨?_, fun _ => rfl, fun _ changed => absurd rfl changed, by simp⟩
      simp only [show (-1 : Int) ≠ 0 by decide, false_iff, not_forall]
      exact ⟨0, more, by simp [found]⟩
  | some pa =>
      rw [found] at ran
      have fits : srcva % pgSize + chunk srcva len ≤ pgSize := chunk_fits
      obtain ⟨result, failed, changes, bytes⟩ :=
        ih (len - chunk srcva len) (by have : 0 < chunk srcva len := chunk_pos more; omega) ran
      have first (i : Nat) (head : i < chunk srcva len) : (userPage s.mem pt false (srcva + i)).isSome := by
        rw [userPage_of_page_eq (chunk_head head).1, found]
        rfl
      refine ⟨by rw [result, forall_chunks (P := fun va => (userPage s.mem pt false va).isSome) first], failed, ?_, ?_⟩
      · intro a changed
        by_cases later : dst' a ≠ copy dst off s.mem (pa + srcva % pgSize) (chunk srcva len) a
        · have := changes a later
          omega
        · rw [not_not.mp later] at changed
          simp only [copy] at changed
          split_ifs at changed with inside
          · have : chunk srcva len ≤ len := chunk_le
            omega
          · exact absurd rfl changed
      · intro zero i inside
        by_cases head : i < chunk srcva len
        · obtain ⟨samePage, offset⟩ := chunk_head head
          -- the rest of the loop writes only from `off + chunk srcva len` on
          have untouched : dst' (off + i) = copy dst off s.mem (pa + srcva % pgSize) (chunk srcva len) (off + i) := by
            by_contra later
            have := changes _ later
            omega
          rw [untouched, userByte, userPage_of_page_eq samePage, found, offset]
          simp only [copy, Option.map_some]
          rw [if_pos (by omega)]
          congr 2
          omega
        · have := bytes zero (i - chunk srcva len) (by omega)
          rwa [← chunk_rest (show chunk srcva len ≤ i by omega) inside, Nat.add_assoc,
            Nat.add_sub_cancel' (by omega)] at this

/-- `copyin`'s loop reads user memory only through the pages of its range
mapped for user code: a memory with the same user pages and the same bytes
there gives the same result. -/
theorem copyinLoop_reads {t : Phys} (nonzero : ∀ va pa, userPage s.mem pt false va = some pa → pa ≠ 0)
    (view : ∀ va, userPage t.mem pt false va = userPage s.mem pt false va) (dst : Mem) (off srcva len : Nat)
    (agree : ∀ i pa, i < len → userPage s.mem pt false (srcva + i) = some pa →
      t.mem (pa + (srcva + i) % pgSize) = s.mem (pa + (srcva + i) % pgSize)) :
    copyinLoop t pt dst off srcva len = copyinLoop s pt dst off srcva len := by
  induction len using Nat.strong_induction_on generalizing dst off srcva with
  | _ len ih =>
  rcases Nat.eq_zero_or_pos len with rfl | more
  · rw [copyinLoop, copyinLoop, if_neg (by omega), if_neg (by omega)]
  have nonzero' (pa : Nat) (found : userPage t.mem pt false srcva = some pa) : pa ≠ 0 :=
    nonzero srcva pa (by rwa [view] at found)
  rw [copyinLoop_step t dst off more nonzero', copyinLoop_step s dst off more (nonzero srcva), view]
  cases found : userPage s.mem pt false srcva with
  | none => rfl
  | some pa =>
      have fits : srcva % pgSize + chunk srcva len ≤ pgSize := chunk_fits
      -- the pass reads the same bytes of `pa` from both memories
      have chunkSame : copy dst off t.mem (pa + srcva % pgSize) (chunk srcva len) =
          copy dst off s.mem (pa + srcva % pgSize) (chunk srcva len) := by
        funext a
        simp only [copy]
        split_ifs with inside
        · have head := chunk_head (show a - off < chunk srcva len by omega)
          have := agree (a - off) pa (by have : chunk srcva len ≤ len := chunk_le; omega)
            (by rw [userPage_of_page_eq head.1, found])
          rwa [head.2, ← Nat.add_assoc] at this
        · rfl
      dsimp only
      rw [chunkSame]
      refine ih _ (by have : 0 < chunk srcva len := chunk_pos more; omega) _ _ _ fun j pa' inside found' => ?_
      have shift : srcva + (chunk srcva len + j) = pgRoundDown srcva + pgSize + j := by
        rw [chunk_rest (show chunk srcva len ≤ chunk srcva len + j by omega) (by omega), Nat.add_sub_cancel_left]
      have := agree (chunk srcva len + j) pa' (by omega) (by rwa [shift])
      rwa [shift] at this

/-- `copyinstr`'s loop returns `0` exactly when user memory holds a string
shorter than `max` at `srcva`, and then `dst` holds it with its NUL; it writes
nothing outside `[off, off + max)`. -/
theorem copyinstrLoop_spec (nonzero : ∀ va pa, userPage s.mem pt false va = some pa → pa ≠ 0)
    {dst dst' : Mem} {off srcva max : Nat} {r : Int} (ran : copyinstrLoop s pt dst off srcva max = (r, dst')) :
    (r = 0 ∨ r = -1) ∧ (r = 0 ↔ ∃ k < max, UserString s.mem pt srcva k) ∧
      (∀ k, UserString s.mem pt srcva k → k < max → ∀ i ≤ k, userByte s.mem pt (srcva + i) = some (dst' (off + i))) ∧
      (∀ a, dst' a ≠ dst a → off ≤ a ∧ a < off + max) := by
  induction max using Nat.strong_induction_on generalizing dst off srcva with
  | _ max ih =>
  rcases Nat.eq_zero_or_pos max with rfl | more
  · rw [copyinstrLoop, if_neg (by omega), Prod.mk.injEq] at ran
    obtain ⟨rfl, rfl⟩ := ran
    exact ⟨.inr rfl, by simp, fun k _ short => absurd short (by omega), fun _ changed => absurd rfl changed⟩
  rw [copyinstrLoop_step s dst off more (nonzero srcva)] at ran
  cases found : userPage s.mem pt false srcva with
  | none =>
      rw [found, Prod.mk.injEq] at ran
      obtain ⟨rfl, rfl⟩ := ran
      -- the first byte of a string would have to be readable
      have noString (k : Nat) (string : UserString s.mem pt srcva k) : False := by
        simpa [userByte, found] using userString_first string
      exact ⟨.inr rfl, by simpa using fun k _ => noString k, fun k string => absurd string (noString k),
        fun _ changed => absurd rfl changed⟩
  | some pa =>
      rw [found] at ran
      dsimp only at ran
      rw [copyinstrPage_eq] at ran
      have bound := strlen_le s.mem (pa + srcva % pgSize) (chunk srcva max)
      obtain ⟨before, nul⟩ := strlen_spec s.mem (pa + srcva % pgSize) (chunk srcva max)
      have chunkLe : chunk srcva max ≤ max := chunk_le
      -- the bytes of the first pass, as user code reads them
      have byte (i : Nat) (head : i < chunk srcva max) :
          userByte s.mem pt (srcva + i) = some (s.mem (pa + srcva % pgSize + i)) :=
        userByte_head found head
      by_cases ends : strlen s.mem (pa + srcva % pgSize) (chunk srcva max) < chunk srcva max
      · rw [decide_eq_true ends, Nat.min_eq_left ends, Prod.mk.injEq] at ran
        obtain ⟨rfl, rfl⟩ := ran
        -- the string ends in this page, at `strlen`
        have string : UserString s.mem pt srcva (strlen s.mem (pa + srcva % pgSize) (chunk srcva max)) := by
          refine ⟨fun i inside => ⟨_, byte i (by omega), before i inside⟩, ?_⟩
          rw [byte _ ends, nul ends]
        refine ⟨.inl rfl, by simpa using ⟨_, by omega, string⟩, fun k string' short i inside => ?_,
          fun a changed => ?_⟩
        · rw [← userString_unique string string'] at inside
          rw [byte i (by omega)]
          simp only [copy]
          rw [if_pos (by omega), Nat.add_sub_cancel_left]
        · simp only [copy] at changed
          split_ifs at changed with inside
          · omega
          · exact absurd rfl changed
      · have full : strlen s.mem (pa + srcva % pgSize) (chunk srcva max) = chunk srcva max := by omega
        rw [decide_eq_false ends, full, Nat.min_eq_right (Nat.le_succ _)] at ran
        dsimp only at ran
        obtain ⟨either, result, bytes, changes⟩ := ih _ (by have : 0 < chunk srcva max := chunk_pos more; omega) ran
        have first (i : Nat) (head : i < chunk srcva max) :
            ∃ b, userByte s.mem pt (srcva + i) = some b ∧ b ≠ 0 :=
          ⟨_, byte i head, before i (by omega)⟩
        -- a string at `srcva` is a string of the rest of the loop, one pass shorter
        have shift (k : Nat) (short : k < max) :
            UserString s.mem pt srcva k ↔ chunk srcva max ≤ k ∧
              UserString s.mem pt (pgRoundDown srcva + pgSize) (k - chunk srcva max) := by
          rw [userString_shift first]
          constructor
          · rintro ⟨long, rest⟩
            rw [chunk_next (show chunk srcva max < max by omega)]
            exact ⟨long, rest⟩
          · rintro ⟨long, rest⟩
            rw [chunk_next (show chunk srcva max < max by omega)] at rest
            exact ⟨long, rest⟩
        refine ⟨either, ?_, fun k string short i inside => ?_, fun a changed => ?_⟩
        · rw [result]
          constructor
          · rintro ⟨k, short, string⟩
            refine ⟨chunk srcva max + k, by omega, (shift _ (by omega)).mpr ⟨by omega, ?_⟩⟩
            rwa [Nat.add_sub_cancel_left]
          · rintro ⟨k, short, string⟩
            obtain ⟨long, rest⟩ := (shift k short).mp string
            exact ⟨k - chunk srcva max, by omega, rest⟩
        · obtain ⟨long, rest⟩ := (shift k short).mp string
          by_cases head : i < chunk srcva max
          · -- the rest of the loop writes only from `off + chunk srcva max` on
            have untouched : dst' (off + i) = copy dst off s.mem (pa + srcva % pgSize) (chunk srcva max) (off + i) := by
              by_contra later
              have := changes _ later
              omega
            rw [untouched, byte i head]
            simp only [copy]
            rw [if_pos (by omega), Nat.add_sub_cancel_left]
          · have := bytes _ rest (by omega) (i - chunk srcva max) (by omega)
            rwa [← chunk_rest (show chunk srcva max ≤ i by omega) (by omega), Nat.add_assoc,
              Nat.add_sub_cancel' (by omega)] at this
        · by_cases later : dst' a ≠ copy dst off s.mem (pa + srcva % pgSize) (chunk srcva max) a
          · have := changes a later
            omega
          · rw [not_not.mp later] at changed
            simp only [copy] at changed
            split_ifs at changed with inside
            · omega
            · exact absurd rfl changed

/-- `fetchstr` writes only inside its buffer of `max` bytes, fails exactly when
user memory holds no string shorter than `max` at `addr`, and otherwise returns
the string's length with the string in the buffer. -/
theorem fetchstr_spec (user : UserPages s.mem pt) {addr max : Nat} {buf buf' : Mem} {r : Int}
    (fetched : fetchstr s pt addr buf max = (r, buf')) :
    (∀ a, buf' a ≠ buf a → a < max) ∧ (r = -1 ↔ ∀ k, UserString s.mem pt addr k → max ≤ k) ∧
      (∀ k, UserString s.mem pt addr k → k < max →
        r = k ∧ ∀ i ≤ k, userByte s.mem pt (addr + i) = some (buf' i)) := by
  unfold fetchstr copyinstr at fetched
  generalize ran : copyinstrLoop s pt buf 0 addr max = out at fetched
  obtain ⟨r0, d⟩ := out
  obtain ⟨either, result, bytes, changes⟩ := copyinstrLoop_spec user.nonzero ran
  dsimp only at fetched
  have inside (a : Nat) (changed : d a ≠ buf a) : a < max := by
    have := changes a changed
    omega
  by_cases failed : r0 < 0
  · rw [if_pos failed, Prod.mk.injEq] at fetched
    obtain ⟨rfl, rfl⟩ := fetched
    -- a failed `copyinstr` found no string shorter than `max`
    have none : ¬ ∃ k < max, UserString s.mem pt addr k := fun found => by
      have := result.mpr found
      omega
    refine ⟨inside, ⟨fun _ k string => ?_, fun _ => rfl⟩, fun k string short => absurd ⟨k, short, string⟩ none⟩
    by_contra short
    exact none ⟨k, by omega, string⟩
  · rw [if_neg failed, Prod.mk.injEq] at fetched
    obtain ⟨rfl, rfl⟩ := fetched
    have zero : r0 = 0 := by omega
    obtain ⟨k, short, string⟩ := result.mp zero
    have read (i : Nat) (upto : i ≤ k) : userByte s.mem pt (addr + i) = some (d i) := by
      simpa using bytes k string short i upto
    -- the buffer holds the string with its NUL, so `strlen` stops at `k`
    have length : strlen d 0 max = k := by
      refine strlen_eq (by omega) (fun i below => ?_) (fun _ => ?_)
      · obtain ⟨b, byte, nonzero⟩ := string.1 i below
        rw [read i (by omega), Option.some.injEq] at byte
        simpa [byte] using nonzero
      · have := string.2
        rw [read k (by omega), Option.some.injEq] at this
        simpa using this
    refine ⟨inside, ?_, fun k' string' short' => ?_⟩
    · rw [length]
      constructor
      · intro negative
        omega
      · intro long
        exact absurd (long k string) (by omega)
    · rw [← userString_unique string string', length]
      exact ⟨rfl, read⟩

theorem uvmcreate_userPages {s s' : Phys} {pagetable : Nat} (free : Free s)
    (created : uvmcreate s = some (pagetable, s')) : UserPages s'.mem pagetable := by
  obtain ⟨table, empty, -⟩ := uvmcreate_table free created
  have none (write : Bool) (va : Nat) : userPage s'.mem pagetable write va = none := by
    rw [userPage, empty]
  exact ⟨table.toTree, fun va pa => by simp [none], fun va _ pa => by simp [none], fun va pa => by simp [none]⟩

end Copyin

section UserAccess

/-- Over a page table that keeps `UserPages`, for every address and length:
`copyout` returns `0` or `-1`, `0` exactly when every page of the range is
below `MAXVA` and mapped with `PTE_V`, `PTE_U` and `PTE_W`, and then user code
reads `src` there; whatever it returns, it wrote only bytes of such pages, at
the addresses of the range. `copyin` returns `0` exactly when every page of the
range is mapped with `PTE_V` and `PTE_U`, and then `dst` holds what user code
reads there; it writes nothing past `len`, and its result depends only on the
bytes of those pages. -/
theorem user_copy_access_control :
    (∀ (s : Phys) (pt dstva : Nat) (src : Mem) (len : Nat), UserPages s.mem pt →
      ∃ r s', copyout s pt dstva src len = .ok (r, s') ∧ (r = 0 ∨ r = -1) ∧
        (r = 0 ↔ ∀ i < len, (userPage s.mem pt true (dstva + i)).isSome) ∧
        (r = 0 → ∀ i < len, userByte s'.mem pt (dstva + i) = some (src i)) ∧
        (∀ a, s'.mem a ≠ s.mem a → ∃ i pa, i < len ∧ userPage s.mem pt true (dstva + i) = some pa ∧
          a = pa + (dstva + i) % pgSize)) ∧
    (∀ (s : Phys) (pt : Nat) (dst : Mem) (srcva len : Nat) (r : Int) (dst' : Mem), UserPages s.mem pt →
      copyin s pt dst srcva len = (r, dst') → (r = 0 ∨ r = -1) ∧
        (r = 0 ↔ ∀ i < len, (userPage s.mem pt false (srcva + i)).isSome) ∧
        (r = 0 → ∀ i < len, userByte s.mem pt (srcva + i) = some (dst' i)) ∧
        (∀ a, dst' a ≠ dst a → a < len)) ∧
    (∀ (s t : Phys) (pt : Nat) (dst : Mem) (srcva len : Nat), UserPages s.mem pt →
      (∀ va, userPage t.mem pt false va = userPage s.mem pt false va) →
      (∀ i pa, i < len → userPage s.mem pt false (srcva + i) = some pa →
        t.mem (pa + (srcva + i) % pgSize) = s.mem (pa + (srcva + i) % pgSize)) →
      copyin t pt dst srcva len = copyin s pt dst srcva len) := by
  refine ⟨fun s pt dstva src len user => ?_, fun s pt dst srcva len r dst' user ran => ?_,
    fun s t pt dst srcva len user view agree => copyinLoop_reads user.nonzero view dst 0 srcva len agree⟩
  · obtain ⟨r, s', ok, copied, result, failed, bytes⟩ := copyoutLoop_spec src user 0 dstva len
    refine ⟨r, s', ok, ?_, result, fun zero i inside => ?_, fun a changed => copied.written a changed⟩
    · by_cases zero : r = 0
      · exact .inl zero
      · exact .inr (failed zero)
    · obtain ⟨pa, found⟩ := Option.isSome_iff_exists.mp (result.mp zero i inside)
      have byte := bytes zero i pa inside found
      rw [Nat.zero_add] at byte
      rw [userByte, userPage_of_sameTables copied.tables, userPage_write found, Option.map_some, byte]
  · obtain ⟨result, failed, changes, bytes⟩ := copyinLoop_spec user.nonzero ran
    refine ⟨?_, result, fun zero i inside => by simpa using bytes zero i inside, fun a changed => ?_⟩
    · by_cases zero : r = 0
      · exact .inl zero
      · exact .inr (failed zero)
    · have := changes a changed
      omega

/-- On a fresh page table, which maps nothing, `copyout` and `copyin` of one
byte at address `0` fail. -/
theorem user_copy_access_control_fresh :
    ∃ s1 s2 : Phys, uvmcreate ⟨fun _ => 0, [0x80001000], 0x80000000⟩ = some (0x80001000, s1) ∧
      copyout s1 0x80001000 0 (fun _ => 7) 1 = .ok (-1, s2) ∧ (copyin s1 0x80001000 (fun _ => 0) 0 1).1 = -1 := by
  obtain ⟨s1, created⟩ : ∃ s1, uvmcreate ⟨fun _ => 0, [0x80001000], 0x80000000⟩ = some (0x80001000, s1) :=
    ⟨_, rfl⟩
  have free : Free ⟨fun _ => 0, [0x80001000], 0x80000000⟩ := ⟨by decide, by decide⟩
  have user := uvmcreate_userPages free created
  have unmapped (write : Bool) : userPage s1.mem 0x80001000 write 0 = none := by
    rw [userPage, (uvmcreate_table free created).2.1]
  obtain ⟨r, s2, ok, either, result, -, -⟩ := user_copy_access_control.1 s1 0x80001000 0 (fun _ => 7) 1 user
  have failed : r ≠ 0 := fun zero => by simpa [unmapped] using result.mp zero 0 (by decide)
  refine ⟨s1, s2, created, by rwa [← either.resolve_left failed], ?_⟩
  obtain ⟨either', result', -, -⟩ := user_copy_access_control.2.1 s1 0x80001000 (fun _ => 0) 0 1 _ _ user rfl
  exact either'.resolve_left fun zero => by simpa [unmapped] using result'.mp zero 0 (by decide)

/-- Over a page table that keeps `UserPages`, for every `srcva` and `max`:
`copyinstr` returns `0` exactly when user memory holds at `srcva` a string of
some length `k < max` (readable bytes other than NUL, then a readable NUL), and
then `dst[0..k]` holds it with its NUL; it never writes past `max` bytes. So
`fetchstr`, and `argstr` on any argument register, stay inside a buffer of
`max` bytes, return the string's length, and fail on every string of length
`max` or more. -/
theorem copyinstr_bounded :
    (∀ (s : Phys) (pt : Nat) (dst : Mem) (srcva max : Nat) (r : Int) (dst' : Mem), UserPages s.mem pt →
      copyinstr s pt dst srcva max = (r, dst') → (r = 0 ∨ r = -1) ∧
        (r = 0 ↔ ∃ k < max, UserString s.mem pt srcva k) ∧
        (∀ k, UserString s.mem pt srcva k → k < max → ∀ i ≤ k, userByte s.mem pt (srcva + i) = some (dst' i)) ∧
        (∀ a, dst' a ≠ dst a → a < max)) ∧
    (∀ (s : Phys) (pt addr : Nat) (buf : Mem) (max : Nat) (r : Int) (buf' : Mem), UserPages s.mem pt →
      fetchstr s pt addr buf max = (r, buf') →
        (∀ a, buf' a ≠ buf a → a < max) ∧ (r = -1 ↔ ∀ k, UserString s.mem pt addr k → max ≤ k) ∧
        (∀ k, UserString s.mem pt addr k → k < max →
          r = k ∧ ∀ i ≤ k, userByte s.mem pt (addr + i) = some (buf' i))) ∧
    (∀ (s : Phys) (pt : Nat) (a : Nat → Nat) (n : Nat) (buf : Mem) (max : Nat) (r : Int) (buf' : Mem),
      UserPages s.mem pt → argstr s pt a n buf max = .ok (r, buf') →
        n ≤ 5 ∧ (∀ b, buf' b ≠ buf b → b < max) ∧ (r = -1 ↔ ∀ k, UserString s.mem pt (a n) k → max ≤ k)) := by
  refine ⟨fun s pt dst srcva max r dst' user ran => ?_, fun s pt addr buf max r buf' user fetched =>
    fetchstr_spec user fetched, fun s pt a n buf max r buf' user got => ?_⟩
  · obtain ⟨either, result, bytes, changes⟩ := copyinstrLoop_spec user.nonzero ran
    refine ⟨either, result, fun k string short i upto => by simpa using bytes k string short i upto,
      fun a changed => ?_⟩
    have := changes a changed
    omega
  · unfold argstr argraw at got
    by_cases register : n ≤ 5
    · rw [if_pos register] at got
      obtain ⟨inside, rejects, -⟩ := fetchstr_spec user (show fetchstr s pt (a n) buf max = (r, buf') from
        Except.ok.inj got)
      exact ⟨register, inside, rejects⟩
    · rw [if_neg register] at got
      cases got

/-- On a fresh page table, which maps nothing, `copyinstr` of at most 128
bytes at address `0` fails and writes nothing. -/
theorem copyinstr_bounded_fresh :
    ∃ s1 : Phys, uvmcreate ⟨fun _ => 0, [0x80001000], 0x80000000⟩ = some (0x80001000, s1) ∧
      ∃ dst', copyinstr s1 0x80001000 (fun _ => 9) 0 128 = (-1, dst') ∧ ∀ a, 128 ≤ a → dst' a = 9 := by
  obtain ⟨s1, created⟩ : ∃ s1, uvmcreate ⟨fun _ => 0, [0x80001000], 0x80000000⟩ = some (0x80001000, s1) :=
    ⟨_, rfl⟩
  have free : Free ⟨fun _ => 0, [0x80001000], 0x80000000⟩ := ⟨by decide, by decide⟩
  have user := uvmcreate_userPages free created
  have unmapped : userByte s1.mem 0x80001000 0 = none := by
    rw [userByte, userPage, (uvmcreate_table free created).2.1]
    rfl
  generalize ran : copyinstr s1 0x80001000 (fun _ => 9) 0 128 = out
  obtain ⟨r, dst'⟩ := out
  obtain ⟨either, result, -, changes⟩ := copyinstr_bounded.1 s1 0x80001000 (fun _ => 9) 0 128 r dst' user ran
  have failed : r ≠ 0 := fun zero => by
    obtain ⟨k, -, string⟩ := result.mp zero
    simpa [unmapped] using userString_first string
  refine ⟨s1, created, dst', by rw [ran, either.resolve_left failed], fun a big => ?_⟩
  by_contra differ
  have := changes a differ
  omega

end UserAccess

end Xv6.Vm
