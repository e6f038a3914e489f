import Mathlib
import Xv6.Printf
import Xv6.Library.Machine

/-!
`user/umalloc.c`: the allocator of Kernighan and Ritchie (The C Programming
Language, 2nd ed., section 8.7) that user programs link, over the memory that
`sbrk` gives the process.

A `Header` is `union header`'s `s`: a pointer and a `uint` size counted in
units of `sizeof(Header)`, 16 bytes. The memory the allocator reads and writes
is its headers, kept by address; the static `base` is at address `base`. What a
program stores in the blocks it holds is not modelled. `sbrk` is the system
call: `sys_sbrk` returns the old size after `growproc(n)`, whose `uvmalloc`
fails when `kalloc` has no page left (`grant` says whether it has one), which
is always so past the 128 MB of physical memory below `PHYSTOP`, and whose
`uvmdealloc` shrinks the process for a negative `n`.

The loops of `free` and `malloc` walk the free list until a test holds, on a
corrupted list possibly never; `fuel` bounds their steps and running out of it
is an error. A program that calls `malloc` and `free` is `step`: it asks for at
most `2^30` bytes and frees only what it holds.

`malloc(nbytes)` for `nbytes` close to `2^32` asks `sbrk` for `nu * 16` bytes
through an `int`, which keeps the low 32 bits: for `0xffffffff` that is 16
bytes, and the block `malloc` hands back lies beyond the new end of the
process (`malloc_outside_sbrk`).
-/

namespace Xv6.Umalloc

open Printf (signed)

/-- `sizeof(Header)`: a pointer and a `uint`, padded to the alignment of `long`. -/
def hdrSize : Nat := 16

/-- `PHYSTOP - KERNBASE`: no process holds more than 128 MB. -/
def physLimit : Nat := 128 * 1024 * 1024

/-- `union header`'s `s`: the next free block and the size in units. -/
structure Header where
  ptr : Nat
  size : Nat
  deriving DecidableEq, Repr

/-- What `umalloc.c` reads and writes: the header at each address, `freep`
(0 for NULL), and the size of the process, which `sbrk` moves. -/
structure Heap where
  hdr : Nat → Header
  freep : Nat
  sz : Nat

/-- `a->s.ptr = v`. -/
def Heap.setPtr (h : Heap) (a v : Nat) : Heap :=
  { h with hdr := Function.update h.hdr a { h.hdr a with ptr := v } }

/-- `a->s.size = v`, a `uint`. -/
def Heap.setSize (h : Heap) (a v : Nat) : Heap :=
  { h with hdr := Function.update h.hdr a { h.hdr a with size := v % 2 ^ 32 } }

section Model

/-- The search loop of `free` for the block at `bp`, from `p`:
`for(p = freep; !(bp > p && bp < p->s.ptr); p = p->s.ptr)
   if(p >= p->s.ptr && (bp > p || bp < p->s.ptr)) break;` -/
def freeLoop (hdr : Nat → Header) (bp : Nat) : Nat → Nat → Option Nat
  | 0, _ => none
  | fuel + 1, p =>
      if bp > p ∧ bp < (hdr p).ptr then some p
      else if p ≥ (hdr p).ptr ∧ (bp > p ∨ bp < (hdr p).ptr) then some p
      else freeLoop hdr bp fuel (hdr p).ptr

/-- `free(ap)`, with `bp = (Header*)ap - 1`. -/
def free (fuel : Nat) (h : Heap) (ap : Nat) : Except String Heap :=
  let bp := ap - hdrSize
  match freeLoop h.hdr bp fuel h.freep with
  | none => .error "free: the search for the place of bp does not stop"
  | some p =>
      -- join the free block above, or point to it
      let h := if bp + hdrSize * (h.hdr bp).size = (h.hdr p).ptr then
          let h := h.setSize bp ((h.hdr bp).size + (h.hdr (h.hdr p).ptr).size)
          h.setPtr bp (h.hdr (h.hdr p).ptr).ptr
        else h.setPtr bp (h.hdr p).ptr
      -- join the free block below, or be pointed to from it
      let h := if p + hdrSize * (h.hdr p).size = bp then
          let h := h.setSize p ((h.hdr p).size + (h.hdr bp).size)
          h.setPtr p (h.hdr bp).ptr
        else h.setPtr p bp
      .ok { h with freep := p }

/-- `sbrk(n)` through `sys_sbrk` and `growproc(n)`: what it returns (the old
size, or -1 as a `uint64`) and the new size of the process. -/
def sbrk (grant : Bool) (sz : Nat) (n : Int) : Nat × Nat :=
  if 0 < n then
    -- `uvmalloc(pagetable, sz, sz + n, PTE_W)`, which returns 0 when `kalloc` fails
    if grant = true ∧ sz + n.toNat ≤ physLimit then (sz, sz + n.toNat) else (2 ^ 64 - 1, sz)
  else if n < 0 then
    -- `uvmdealloc(pagetable, sz, sz + n)`, `sz + n` a `uint64`, shrinks only below `sz`
    let newsz := (sz + (n % 2 ^ 64).toNat) % 2 ^ 64
    (sz, if newsz ≥ sz then sz else newsz)
  else (sz, sz)

/-- The `int` parameter of `sbrk` given `nu * sizeof(Header)`, a 64-bit product. -/
def sbrkArg (nu : Nat) : Int := signed 32 (nu * hdrSize)

/-- `morecore(nu)`: what it returns (0 for NULL) and the heap after it. -/
def morecore (grant : Bool) (fuel : Nat) (h : Heap) (nu : Nat) : Except String (Nat × Heap) :=
  let nu := if nu < 4096 then 4096 else nu
  let grown := sbrk grant h.sz (sbrkArg nu)
  let h := { h with sz := grown.2 }
  if grown.1 = 2 ^ 64 - 1 then .ok (0, h)
  else do
    let h ← free fuel (h.setSize grown.1 nu) (grown.1 + hdrSize)
    return (h.freep, h)

/-- `nunits = (nbytes + sizeof(Header) - 1)/sizeof(Header) + 1`: a 64-bit sum, stored in a `uint`. -/
def nunitsOf (nbytes : Nat) : Nat := ((nbytes + hdrSize - 1) / hdrSize + 1) % 2 ^ 32

/-- The branch of `malloc`'s loop that takes block `p`, of at least `nunits`,
from after `prevp`: all of it, or its tail. It returns `p + 1` and sets
`freep = prevp`. -/
def carve (h : Heap) (nunits prevp p : Nat) : Nat × Heap :=
  if (h.hdr p).size = nunits then
    let h := h.setPtr prevp (h.hdr p).ptr
    (p + hdrSize, { h with freep := prevp })
  else
    let h := h.setSize p ((h.hdr p).size - nunits)
    let p := p + hdrSize * (h.hdr p).size
    let h := h.setSize p nunits
    (p + hdrSize, { h with freep := prevp })

/-- The loop of `malloc` at `prevp` and `p = prevp->s.ptr`. -/
def mallocLoop (grant : Bool) (nunits : Nat) : Nat → Heap → Nat → Nat → Except String (Nat × Heap)
  | 0, _, _, _ => .error "malloc: the search for a block does not stop"
  | fuel + 1, h, prevp, p =>
      if (h.hdr p).size ≥ nunits then .ok (carve h nunits prevp p)
      else if p = h.freep then
        match morecore grant fuel h nunits with
        | .ok (p, h) => if p = 0 then .ok (0, h) else mallocLoop grant nunits fuel h p (h.hdr p).ptr
        | .error e => .error e
      else mallocLoop grant nunits fuel h p (h.hdr p).ptr

/-- `malloc(nbytes)`: the first call makes `base` the free list. -/
def malloc (base fuel : Nat) (grant : Bool) (h : Heap) (nbytes : Nat) : Except String (Nat × Heap) :=
  let h := if h.freep = 0 then { (h.setPtr base base).setSize base 0 with freep := base } else h
  mallocLoop grant (nunitsOf nbytes) fuel h h.freep (h.hdr h.freep).ptr

end Model

/-! A program using the allocator. -/

section Client

/-- Fuel for one call: a heap inside `physLimit` bytes has fewer blocks than
`physLimit / sizeof(Header)`, and `malloc` walks the free list at most twice,
around one `morecore`. -/
def loopBound : Nat := 2 * (physLimit / hdrSize) + 8

inductive Call where
  | malloc (nbytes : Nat) (grant : Bool)
  | free (ap : Nat)

/-- The heap, and the blocks the program holds: what `malloc` returned and it
has not freed. -/
structure Client where
  heap : Heap
  live : List Nat

/-- A program asks for at most `2^30` bytes and frees only what it holds; a call
outside that stops its run. -/
def step (base : Nat) (c : Client) : Call → Except String Client
  | .malloc nbytes grant =>
      if nbytes ≤ 2 ^ 30 then do
        let (p, heap) ← malloc base loopBound grant c.heap nbytes
        return { heap, live := if p = 0 then c.live else p :: c.live }
      else .error "program: a request above 2^30 bytes"
  | .free ap =>
      if ap ∈ c.live then do
        let heap ← free loopBound c.heap ap
        return { heap, live := c.live.erase ap }
      else .error "program: free of a block it does not hold"

/-- Before the first `malloc`: `freep` is 0 and the process ends at `start`. -/
def init (start : Nat) (hdr : Nat → Header) : Client := ⟨⟨hdr, 0, start⟩, []⟩

abbrev Reachable (base start : Nat) (hdr : Nat → Header) (c : Client) : Prop :=
  Machine.Reachable (step base) (init start hdr) c

end Client

section Heap

variable (h : Heap) (a v : Nat)

/-- `p->s.ptr` for every `p`. -/
def Heap.next : Nat → Nat := fun p => (h.hdr p).ptr

/-- The bytes of the block at `p`. -/
def Heap.len : Nat → Nat := fun p => hdrSize * (h.hdr p).size

@[simp] theorem Heap.setPtr_freep : (h.setPtr a v).freep = h.freep := rfl
@[simp] theorem Heap.setPtr_sz : (h.setPtr a v).sz = h.sz := rfl
@[simp] theorem Heap.setSize_freep : (h.setSize a v).freep = h.freep := rfl
@[simp] theorem Heap.setSize_sz : (h.setSize a v).sz = h.sz := rfl

@[simp] theorem Heap.setPtr_size (b : Nat) : ((h.setPtr a v).hdr b).size = (h.hdr b).size := by
  by_cases same : b = a
  · subst same
    simp [Heap.setPtr]
  · simp [Heap.setPtr, same]

@[simp] theorem Heap.setSize_ptr (b : Nat) : ((h.setSize a v).hdr b).ptr = (h.hdr b).ptr := by
  by_cases same : b = a
  · subst same
    simp [Heap.setSize]
  · simp [Heap.setSize, same]

@[simp] theorem Heap.setPtr_ptr_self : ((h.setPtr a v).hdr a).ptr = v := by simp [Heap.setPtr]

@[simp] theorem Heap.setSize_size_self : ((h.setSize a v).hdr a).size = v % 2 ^ 32 := by simp [Heap.setSize]

theorem Heap.setPtr_ptr_of_ne {b : Nat} (other : b ≠ a) : ((h.setPtr a v).hdr b).ptr = (h.hdr b).ptr := by
  simp [Heap.setPtr, other]

theorem Heap.setSize_size_of_ne {b : Nat} (other : b ≠ a) : ((h.setSize a v).hdr b).size = (h.hdr b).size := by
  simp [Heap.setSize, other]

theorem Heap.next_setPtr : (h.setPtr a v).next = Function.update h.next a v := by
  funext b
  by_cases same : b = a
  · subst same
    simp [Heap.next]
  · simp [Heap.next, Heap.setPtr_ptr_of_ne h a v same, same]

@[simp] theorem Heap.next_setSize : (h.setSize a v).next = h.next := by
  funext b
  simp [Heap.next]

@[simp] theorem Heap.len_setPtr : (h.setPtr a v).len = h.len := by
  funext b
  simp [Heap.len]

theorem Heap.len_setSize : (h.setSize a v).len = Function.update h.len a (hdrSize * (v % 2 ^ 32)) := by
  funext b
  by_cases same : b = a
  · subst same
    simp [Heap.len]
  · simp [Heap.len, Heap.setSize_size_of_ne h a v same, same]

end Heap

section Steps

variable {grant : Bool} {nunits fuel : Nat} {h h' : Heap} {prevp p : Nat}

theorem freeLoop_stop {hdr : Nat → Header} {bp : Nat}
    (stops : bp > p ∧ bp < (hdr p).ptr ∨ p ≥ (hdr p).ptr ∧ (bp > p ∨ bp < (hdr p).ptr)) :
    freeLoop hdr bp (fuel + 1) p = some p := by
  rcases stops with inside | wrapped
  · rw [freeLoop, if_pos inside]
  · by_cases inside : bp > p ∧ bp < (hdr p).ptr
    · rw [freeLoop, if_pos inside]
    · rw [freeLoop, if_neg inside, if_pos wrapped]

theorem freeLoop_skip {hdr : Nat → Header} {bp : Nat}
    (goes : ¬ (bp > p ∧ bp < (hdr p).ptr ∨ p ≥ (hdr p).ptr ∧ (bp > p ∨ bp < (hdr p).ptr))) :
    freeLoop hdr bp (fuel + 1) p = freeLoop hdr bp fuel (hdr p).ptr := by
  rw [not_or] at goes
  rw [freeLoop, if_neg goes.1, if_neg goes.2]

theorem mallocLoop_fit (fits : nunits ≤ (h.hdr p).size) :
    mallocLoop grant nunits (fuel + 1) h prevp p = .ok (carve h nunits prevp p) := by
  rw [mallocLoop, if_pos fits]

/-- A block of exactly `nunits` leaves the free list whole. -/
theorem carve_whole (whole : (h.hdr p).size = nunits) :
    carve h nunits prevp p = (p + hdrSize, { h.setPtr prevp (h.hdr p).ptr with freep := prevp }) := by
  rw [carve, if_pos whole]

theorem carve_tail (more : (h.hdr p).size ≠ nunits) :
    carve h nunits prevp p = (p + hdrSize * (((h.hdr p).size - nunits) % 2 ^ 32) + hdrSize,
      { (h.setSize p ((h.hdr p).size - nunits)).setSize (p + hdrSize * (((h.hdr p).size - nunits) % 2 ^ 32))
        nunits with freep := prevp }) := by
  simp only [carve, if_neg more, Heap.setSize_size_self]

theorem mallocLoop_skip (short : (h.hdr p).size < nunits) (other : p ≠ h.freep) :
    mallocLoop grant nunits (fuel + 1) h prevp p = mallocLoop grant nunits fuel h p (h.hdr p).ptr := by
  rw [mallocLoop, if_neg (by omega), if_neg other]

theorem mallocLoop_more {q : Nat} (short : (h.hdr p).size < nunits) (wrapped : p = h.freep)
    (grown : morecore grant fuel h nunits = .ok (q, h')) (nonzero : q ≠ 0) :
    mallocLoop grant nunits (fuel + 1) h prevp p = mallocLoop grant nunits fuel h' q (h'.hdr q).ptr := by
  rw [mallocLoop, if_neg (by omega), if_pos wrapped, grown]
  simp only [nonzero, if_false]

theorem mallocLoop_no_core (short : (h.hdr p).size < nunits) (wrapped : p = h.freep)
    (failed : morecore grant fuel h nunits = .ok (0, h')) :
    mallocLoop grant nunits (fuel + 1) h prevp p = .ok (0, h') := by
  rw [mallocLoop, if_neg (by omega), if_pos wrapped, failed]
  simp

theorem sbrk_granted {sz : Nat} {n : Int} (pos : 0 < n) (granted : grant = true) (room : sz + n.toNat ≤ physLimit) :
    sbrk grant sz n = (sz, sz + n.toNat) := by
  rw [sbrk, if_pos pos, if_pos ⟨granted, room⟩]

theorem sbrk_refused {sz : Nat} {n : Int} (pos : 0 < n) (refused : ¬ (grant = true ∧ sz + n.toNat ≤ physLimit)) :
    sbrk grant sz n = (2 ^ 64 - 1, sz) := by
  rw [sbrk, if_pos pos, if_neg refused]

theorem morecore_grown {nu q sz : Nat} (grown : sbrk grant h.sz (sbrkArg (if nu < 4096 then 4096 else nu)) = (q, sz))
    (ok : q ≠ 2 ^ 64 - 1) (freed : free fuel ({ h with sz }.setSize q (if nu < 4096 then 4096 else nu)) (q + hdrSize) = .ok h') :
    morecore grant fuel h nu = .ok (h'.freep, h') := by
  simp only [morecore, grown, ok, if_false, freed]
  rfl

theorem morecore_failed {nu sz : Nat}
    (failed : sbrk grant h.sz (sbrkArg (if nu < 4096 then 4096 else nu)) = (2 ^ 64 - 1, sz)) :
    morecore grant fuel h nu = .ok (0, { h with sz }) := by
  simp only [morecore, failed, if_true]

theorem malloc_started {base nbytes : Nat} (started : h.freep ≠ 0) :
    malloc base fuel grant h nbytes = mallocLoop grant (nunitsOf nbytes) fuel h h.freep (h.hdr h.freep).ptr := by
  rw [malloc, if_neg started]

theorem malloc_first {base nbytes : Nat} (fresh : h.freep = 0) :
    malloc base fuel grant h nbytes =
      mallocLoop grant (nunitsOf nbytes) fuel { (h.setPtr base base).setSize base 0 with freep := base } base
        (((h.setPtr base base).setSize base 0).hdr base).ptr := by
  rw [malloc, if_pos fresh]

theorem nunitsOf_of_le {nbytes : Nat} (small : nbytes ≤ 2 ^ 30) :
    nunitsOf nbytes = (nbytes + hdrSize - 1) / hdrSize + 1 := by
  rw [nunitsOf, Nat.mod_eq_of_lt]
  simp only [hdrSize]
  omega

theorem sbrkArg_of_lt {nu : Nat} (fits : nu * hdrSize < 2 ^ 31) : sbrkArg nu = ((nu * hdrSize : Nat) : Int) := by
  have inside : nu * hdrSize % 2 ^ 32 = nu * hdrSize := Nat.mod_eq_of_lt (by omega)
  rw [sbrkArg, Printf.signed, inside, if_pos fits]

end Steps

section Truncation

theorem nunitsOf_max : nunitsOf (2 ^ 32 - 1) = 2 ^ 28 + 1 := by decide

theorem sbrkArg_truncated : sbrkArg (2 ^ 28 + 1) = 16 := by decide

theorem sbrkArg_negative : sbrkArg (nunitsOf (2 ^ 31)) < 0 := by decide

/-- `malloc(0xffffffff)` as the first call of a process: `morecore` asks `sbrk`
for 16 bytes, and `malloc` returns the new end of the process, none of the
`2^32 - 1` bytes it promises inside what `sbrk` granted. A request of `2^31`
bytes gives `sbrk` a negative increment. -/
theorem malloc_outside_sbrk (base fuel : Nat) (h : Heap) (fresh : h.freep = 0) (nonzero : 0 < base)
    (below : base < h.sz) (room : h.sz + hdrSize ≤ physLimit) :
    sbrkArg (nunitsOf (2 ^ 32 - 1)) = 16 ∧ sbrkArg (nunitsOf (2 ^ 31)) < 0 ∧
      ∃ h', malloc base (fuel + 2) true h (2 ^ 32 - 1) = .ok (h.sz + hdrSize, h') ∧ h'.sz = h.sz + hdrSize := by
  refine ⟨by rw [nunitsOf_max, sbrkArg_truncated], sbrkArg_negative, ?_⟩
  have big : ¬ 2 ^ 28 + 1 < 4096 := by decide
  have apart : h.sz ≠ base := by omega
  -- the first call makes `base` a free list of one block of size 0
  obtain ⟨h₀, h₀_def⟩ : ∃ h₀ : Heap, h₀ = { (h.setPtr base base).setSize base 0 with freep := base } := ⟨_, rfl⟩
  have baseLink : (h₀.hdr base).ptr = base := by simp [h₀_def]
  have baseSize : (h₀.hdr base).size = 0 := by simp [h₀_def]
  -- `sbrk` grows the process by 16 bytes only, and `morecore` frees a block of `2^28 + 1` units there
  have grows : sbrk true h₀.sz (sbrkArg (if 2 ^ 28 + 1 < 4096 then 4096 else 2 ^ 28 + 1)) = (h.sz, h.sz + hdrSize) := by
    have sz₀ : h₀.sz = h.sz := by rw [h₀_def]; rfl
    rw [if_neg big, sbrkArg_truncated, sbrk, if_pos (by decide), sz₀, if_pos ⟨rfl, room⟩]
    rfl
  obtain ⟨h₁, h₁_def⟩ : ∃ h₁ : Heap, h₁ = { h₀ with sz := h.sz + hdrSize }.setSize h.sz (2 ^ 28 + 1) := ⟨_, rfl⟩
  have freep₁ : h₁.freep = base := by simp [h₁_def, h₀_def]
  have link₁ : (h₁.hdr base).ptr = base := by simp [h₁_def, baseLink]
  have found : freeLoop h₁.hdr h.sz (fuel + 1) base = some base :=
    freeLoop_stop (Or.inr ⟨by rw [link₁], Or.inl below⟩)
  have upper : ¬ h.sz + hdrSize * (h₁.hdr h.sz).size = base := by omega
  have lower : ¬ base + hdrSize * ((h₁.setPtr h.sz base).hdr base).size = h.sz := by
    simp only [Heap.setPtr_size, h₁_def, Heap.setSize_size_of_ne _ _ _ apart.symm, baseSize]
    omega
  obtain ⟨h₂, h₂_def⟩ : ∃ h₂ : Heap, h₂ = { (h₁.setPtr h.sz base).setPtr base h.sz with freep := base } := ⟨_, rfl⟩
  have freed : free (fuel + 1) h₁ (h.sz + hdrSize) = .ok h₂ := by
    rw [free]
    simp only [Nat.add_sub_cancel, freep₁, found, upper, lower, if_false, link₁, h₂_def]
  have small : h.sz ≠ 2 ^ 64 - 1 := by
    simp only [physLimit, hdrSize] at room
    omega
  have cored : morecore true (fuel + 1) h₀ (2 ^ 28 + 1) = .ok (h₂.freep, h₂) :=
    morecore_grown grows small (by rw [if_neg big, ← h₁_def]; exact freed)
  -- back in the loop, the block at `h.sz` is taken whole
  have fits : 2 ^ 28 + 1 ≤ (h₂.hdr h.sz).size := by
    simp [h₂_def, h₁_def]
  have link₂ : (h₂.hdr h₂.freep).ptr = h.sz := by simp [h₂_def]
  have ran : malloc base (fuel + 2) true h (2 ^ 32 - 1) = .ok (carve h₂ (2 ^ 28 + 1) base h.sz) := by
    rw [malloc, if_pos fresh, nunitsOf_max, ← h₀_def]
    have freep₀ : h₀.freep = base := by rw [h₀_def]
    rw [freep₀, baseLink, mallocLoop_more (by rw [baseSize]; decide) freep₀.symm cored (by simp [h₂_def]; omega),
      link₂, mallocLoop_fit fits]
    simp [h₂_def]
  have whole : (h₂.hdr h.sz).size = 2 ^ 28 + 1 := by simp [h₂_def, h₁_def]
  rw [carve_whole whole] at ran
  exact ⟨_, ran, by simp [h₂_def, h₁_def]⟩

theorem malloc_outside_sbrk_first :
    sbrkArg (nunitsOf (2 ^ 32 - 1)) = 16 ∧ sbrkArg (nunitsOf (2 ^ 31)) < 0 ∧
      ∃ h', malloc 0x1000 2 true ⟨fun _ => ⟨0, 0⟩, 0, 0x4000⟩ (2 ^ 32 - 1) = .ok (0x4000 + hdrSize, h') ∧
        h'.sz = 0x4000 + hdrSize :=
  malloc_outside_sbrk 0x1000 0 ⟨fun _ => ⟨0, 0⟩, 0, 0x4000⟩ rfl (by decide) (by decide) (by decide)

end Truncation

end Xv6.Umalloc
