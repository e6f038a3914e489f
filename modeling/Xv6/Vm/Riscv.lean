import Mathlib

/-!
The Sv39 definitions of `kernel/riscv.h` and the address constants of
`kernel/memlayout.h`. Addresses and page-table entries are `uint64`s, kept
here as `Nat`s; `PTE2PA` is the one macro whose shifts can leave 64 bits, so
it keeps its `% 2 ^ 64`, and `PGROUNDUP` keeps the wrap of its addition.
`PGROUNDDOWN(a)` masks the low twelve bits, which for a 64-bit `a` is
`a / PGSIZE * PGSIZE`.
-/

namespace Xv6.Vm

def pgSize : Nat := 4096
def pgShift : Nat := 12

def pgRoundUp (sz : Nat) : Nat := (sz + pgSize - 1) % 2 ^ 64 / pgSize * pgSize
def pgRoundDown (a : Nat) : Nat := a / pgSize * pgSize

def pteV : Nat := 1 <<< 0
def pteR : Nat := 1 <<< 1
def pteW : Nat := 1 <<< 2
def pteX : Nat := 1 <<< 3
def pteU : Nat := 1 <<< 4

/-- `(*pte & flag) != 0`. -/
def flagSet (pte flag : Nat) : Bool := pte &&& flag != 0

def pa2pte (pa : Nat) : Nat := (pa >>> 12) <<< 10
def pte2pa (pte : Nat) : Nat := ((pte >>> 10) <<< 12) % 2 ^ 64
def pteFlags (pte : Nat) : Nat := pte &&& 0x3FF

def pxMask : Nat := 0x1FF
def pxShift (level : Nat) : Nat := pgShift + 9 * level
def px (level va : Nat) : Nat := (va >>> pxShift level) &&& pxMask

def maxVa : Nat := 1 <<< (9 + 9 + 9 + 12 - 1)

def kernBase : Nat := 0x80000000
def phyStop : Nat := kernBase + 128 * 1024 * 1024
def trampoline : Nat := maxVa - pgSize
def trapframe : Nat := trampoline - pgSize

section Encoding

theorem phyStop_lt : phyStop < 2 ^ 56 := by decide

theorem maxVa_eq : maxVa = 2 ^ 38 := by decide

theorem pgRoundDown_le (a : Nat) : pgRoundDown a ≤ a := Nat.div_mul_le_self a pgSize

theorem pgRoundDown_aligned (a : Nat) : pgRoundDown a % pgSize = 0 := Nat.mul_mod_left _ _

theorem sub_pgRoundDown_lt (a : Nat) : a - pgRoundDown a < pgSize := by
  have := Nat.mod_add_div a pgSize
  simp only [pgRoundDown, pgSize] at this ⊢
  omega

theorem sub_pgRoundDown (a : Nat) : a - pgRoundDown a = a % pgSize := by
  rw [pgRoundDown, Nat.sub_eq_of_eq_add]
  exact (Nat.mod_add_div' a pgSize).symm

theorem pgRoundDown_div (a : Nat) : pgRoundDown a / pgSize = a / pgSize :=
  Nat.mul_div_cancel _ (by decide)

/-- Without the wrap, `PGROUNDUP` is the least page boundary at or above `sz`. -/
theorem pgRoundUp_eq {sz : Nat} (small : sz + pgSize - 1 < 2 ^ 64) :
    pgRoundUp sz = (sz + pgSize - 1) / pgSize * pgSize := by
  rw [pgRoundUp, Nat.mod_eq_of_lt small]

theorem pa2pte_eq (pa : Nat) : pa2pte pa = pa / 4096 * 1024 := by
  simp [pa2pte, Nat.shiftLeft_eq, Nat.shiftRight_eq_div_pow]

theorem pte2pa_eq (pte : Nat) : pte2pa pte = pte / 1024 * 4096 % 2 ^ 64 := by
  simp [pte2pa, Nat.shiftLeft_eq, Nat.shiftRight_eq_div_pow]

theorem pte2pa_aligned (pte : Nat) : pte2pa pte % pgSize = 0 := by
  rw [pte2pa_eq, pgSize]
  omega

theorem pteFlags_eq (pte : Nat) : pteFlags pte = pte % 1024 := by
  simpa [pteFlags] using Nat.and_two_pow_sub_one_eq_mod pte 10

theorem pa2pte_or (pa : Nat) {flags : Nat} (low : flags < 1024) :
    pa2pte pa ||| flags = pa / 4096 * 1024 + flags := by
  have := Nat.shiftLeft_add_eq_or_of_lt (i := 10) (b := flags) (by simpa using low) (pa / 4096)
  rw [pa2pte_eq]
  simpa [Nat.shiftLeft_eq] using this.symm

theorem pte2pa_pa2pte {pa flags : Nat} (aligned : pa % pgSize = 0) (small : pa < 2 ^ 56)
    (low : flags < 1024) : pte2pa (pa2pte pa ||| flags) = pa := by
  rw [pa2pte_or pa low, pte2pa_eq]
  rw [pgSize] at aligned
  omega

theorem pteFlags_pa2pte {pa flags : Nat} (low : flags < 1024) :
    pteFlags (pa2pte pa ||| flags) = flags := by
  rw [pa2pte_or pa low, pteFlags_eq]
  omega

theorem flagSet_iff (pte k : Nat) : flagSet pte (1 <<< k) = pte.testBit k := by
  rw [flagSet, Nat.one_shiftLeft, Nat.and_two_pow]
  cases pte.testBit k <;> simp

theorem flagSet_pa2pte {pa flags k : Nat} (low : flags < 1024) (bit : k < 10) :
    flagSet (pa2pte pa ||| flags) (1 <<< k) = flagSet flags (1 <<< k) := by
  rw [flagSet_iff, flagSet_iff, pa2pte_or pa low, Nat.mul_comm, show 1024 = 2 ^ 10 from rfl,
    Nat.testBit_two_pow_mul_add _ (by simpa using low), if_pos bit]

theorem flagSet_pteFlags (pte : Nat) {k : Nat} (bit : k < 10) :
    flagSet (pteFlags pte) (1 <<< k) = flagSet pte (1 <<< k) := by
  rw [flagSet_iff, flagSet_iff, pteFlags_eq, show 1024 = 2 ^ 10 from rfl, Nat.testBit_mod_two_pow]
  simp [bit]

theorem px_eq (level va : Nat) : px level va = va / 2 ^ (12 + 9 * level) % 512 := by
  simpa [px, pxShift, pgShift, pxMask, Nat.shiftRight_eq_div_pow] using
    Nat.and_two_pow_sub_one_eq_mod (va / 2 ^ (12 + 9 * level)) 9

theorem px_lt (level va : Nat) : px level va < 512 := by
  rw [px_eq]
  exact Nat.mod_lt _ (by decide)

theorem page_eq_of_px {va va' : Nat} (below : va < maxVa) (below' : va' < maxVa)
    (same2 : px 2 va = px 2 va') (same1 : px 1 va = px 1 va') (same0 : px 0 va = px 0 va') :
    va / pgSize = va' / pgSize := by
  simp only [px_eq] at same2 same1 same0
  simp only [maxVa, pgSize] at below below' ⊢
  norm_num at below below' same2 same1 same0 ⊢
  omega

theorem px_of_page_eq {va va' : Nat} (same : va / pgSize = va' / pgSize) (level : Nat) :
    px level va = px level va' := by
  have split (a : Nat) : a / 2 ^ (12 + 9 * level) = a / pgSize / 2 ^ (9 * level) := by
    rw [pgSize, Nat.div_div_eq_div_mul, show 4096 = 2 ^ 12 from rfl, ← pow_add]
  rw [px_eq, px_eq, split, split, same]

end Encoding

end Xv6.Vm
