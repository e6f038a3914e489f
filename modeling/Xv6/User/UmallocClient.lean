import Mathlib
import Xv6.User.UmallocShape

/-!
`malloc` on a heap of `Shape`, and the programs that call it. The loop of
`malloc` walks the free list from `freep` and takes the first block large
enough (`mallocLoop_scan`), whole or its tail (`Shape.carve_shape`); when it
comes back to `freep` without one it asks `morecore` for more, whose `free`
makes a block large enough (`Shape.loop_more`). Either way the heap keeps its
shape, so the representation invariant holds in every reachable state of a
program that keeps to its side of the contract (`umalloc_free_list`).
-/

namespace Xv6.Umalloc

open FreeList

section Scan

variable {grant : Bool} {nunits : Nat} {h : Heap}

/-- The tests at which `malloc`'s loop stops walking at `p`: a block large
enough, or back at `freep`. -/
def MallocStops (h : Heap) (nunits p : Nat) : Prop := nunits ≤ (h.hdr p).size ∨ p = h.freep

/-- `malloc`'s loop goes past the blocks at which it does not stop. -/
theorem mallocLoop_walk : ∀ (k fuel prevp : Nat), (∀ j < k, ¬ MallocStops h nunits (h.next^[j + 1] prevp)) →
    mallocLoop grant nunits (fuel + k) h prevp (h.next prevp) =
      mallocLoop grant nunits fuel h (h.next^[k] prevp) (h.next^[k + 1] prevp)
  | 0, _, _, _ => rfl
  | k + 1, fuel, prevp, skipped => by
      have here : ¬ MallocStops h nunits (h.next prevp) := skipped 0 (by omega)
      rw [MallocStops, not_or, not_le] at here
      rw [show fuel + (k + 1) = fuel + k + 1 by omega, mallocLoop_skip here.1 here.2]
      have later : ∀ j < k, ¬ MallocStops h nunits (h.next^[j + 1] (h.next prevp)) := fun j below => by
        simpa [Function.iterate_succ_apply] using skipped (j + 1) (by omega)
      rw [Function.iterate_succ_apply, Function.iterate_succ_apply]
      exact mallocLoop_walk k fuel (h.next prevp) later

/-- `malloc`'s loop from `freep` on a circuit of free blocks: it takes the
first block large enough, from the block before it, or comes back to `freep`
once around the circuit when no block is large enough. -/
theorem mallocLoop_scan (grant : Bool) (nunits : Nat) {base fuel : Nat} {F : List Nat} (circuit : Circuit h.next base F)
    (nodup : (base :: F).Nodup) (onRing : h.freep ∈ base :: F) (enough : (base :: F).length ≤ fuel) :
    (∃ prevp ∈ base :: F, nunits ≤ (h.hdr (h.next prevp)).size ∧
        mallocLoop grant nunits fuel h h.freep (h.hdr h.freep).ptr = .ok (carve h nunits prevp (h.next prevp))) ∨
      ((∀ x ∈ base :: F, (h.hdr x).size < nunits) ∧ ∃ prevp,
        mallocLoop grant nunits fuel h h.freep (h.hdr h.freep).ptr =
          mallocLoop grant nunits (fuel - (base :: F).length + 1) h prevp h.freep) := by
  classical
  rw [show (h.hdr h.freep).ptr = h.next h.freep from rfl]
  have back : h.next^[(base :: F).length - 1 + 1] h.freep = h.freep := by
    rw [Nat.sub_add_cancel (by simp)]
    exact circuit.iterate_length onRing
  have found : ∃ k, MallocStops h nunits (h.next^[k + 1] h.freep) := ⟨_, Or.inr back⟩
  have first : ∀ j < Nat.find found, ¬ MallocStops h nunits (h.next^[j + 1] h.freep) :=
    fun j lt => Nat.find_min found lt
  have stops := Nat.find_spec found
  have atMost : Nat.find found ≤ (base :: F).length - 1 := Nat.find_min' found (Or.inr back)
  generalize Nat.find found = k at first stops atMost
  have pos : 0 < (base :: F).length := List.length_pos_of_mem onRing
  obtain ⟨rest, split⟩ : ∃ rest, fuel = rest + 1 + k := ⟨fuel - k - 1, by omega⟩
  rw [split, mallocLoop_walk k (rest + 1) h.freep first]
  by_cases fits : nunits ≤ (h.hdr (h.next^[k + 1] h.freep)).size
  · -- the walk stopped at a block large enough
    rw [Function.iterate_succ_apply'] at fits ⊢
    exact Or.inl ⟨_, circuit.iterate_mem onRing k, fits, mallocLoop_fit fits⟩
  · -- it stopped at `freep`: once around the circuit, past every block
    have atFreep : h.next^[k + 1] h.freep = h.freep := stops.resolve_left fits
    have whole : k + 1 = (base :: F).length := by
      by_contra short
      exact circuit.iterate_ne nodup onRing (by omega) (by omega) atFreep
    refine Or.inr ⟨fun x mem => ?_, h.next^[k] h.freep, ?_⟩
    · obtain ⟨j, below, rfl⟩ := circuit.reach onRing mem
      cases j with
      | zero =>
          rw [Function.iterate_zero_apply]
          rw [atFreep] at fits
          omega
      | succ j =>
          have skipped := first j (by omega)
          rw [MallocStops, not_or, not_le] at skipped
          exact skipped.1
    · rw [atFreep, show rest + 1 + k - (base :: F).length + 1 = rest + 1 by omega]

end Scan

/-! What `malloc` makes of the block it takes: the whole of it, or its tail. -/

section Carve

variable {base start : Nat} {h : Heap} {blocks pre post : List (Nat × Bool)} {nunits prevp p : Nat}

theorem Shape.ring_at (shape : Shape base start h (pre ++ (p, true) :: post)) {l₁ : List Nat}
    (last : base :: frees pre = l₁ ++ [prevp]) :
    Linked h.next (l₁ ++ prevp :: p :: (frees post ++ [base])) ∧ (l₁ ++ prevp :: p :: frees post).Nodup := by
  have circuit := shape.circuit
  have nodup := shape.ring_nodup
  simp only [frees_append, frees_cons_free] at circuit nodup
  rw [Circuit, ← List.cons_append, last] at circuit
  rw [← List.cons_append, last] at nodup
  simp only [List.append_assoc, List.cons_append] at circuit nodup
  exact ⟨circuit, nodup⟩

theorem Shape.prev_place (shape : Shape base start h (pre ++ (p, true) :: post))
    (onRing : prevp ∈ base :: frees (pre ++ (p, true) :: post)) (link : h.next prevp = p) :
    ∃ l₁, base :: frees pre = l₁ ++ [prevp] := by
  obtain ⟨l₁, x, last⟩ : ∃ l₁ x, base :: frees pre = l₁ ++ [x] :=
    ⟨_, _, (List.dropLast_append_getLast (List.cons_ne_nil _ _)).symm⟩
  have before : h.next x = p := (linked_append_cons_cons.mp (shape.ring_at last).1).2.1
  have xOn : x ∈ base :: frees (pre ++ (p, true) :: post) := by
    rw [frees_append, ← List.cons_append, last]
    simp
  -- a node of the free list has one predecessor
  have same := shape.circuit.next_inj shape.ring_nodup onRing xOn (link.trans before.symm)
  exact ⟨l₁, same ▸ last⟩

theorem Shape.take_whole (shape : Shape base start h (pre ++ (p, true) :: post)) {l₁ : List Nat}
    (last : base :: frees pre = l₁ ++ [prevp]) :
    Shape base start { h.setPtr prevp (h.hdr p).ptr with freep := prevp } (pre ++ (p, false) :: post) := by
  obtain ⟨linked, nodup⟩ := shape.ring_at last
  obtain ⟨r, l₂, wrap⟩ : ∃ r l₂, frees post ++ [base] = r :: l₂ := List.exists_cons_of_ne_nil (by simp)
  have rest : (r :: l₂).dropLast = frees post := by rw [← wrap, List.dropLast_concat]
  rw [wrap] at linked
  have link : h.next p = r := (linked_cons_cons.mp (linked_append_cons_cons.mp linked).2.2).1
  have prevOnce := (List.nodup_cons.mp (List.nodup_middle.mp nodup)).1
  refine ⟨shape.nonzero, shape.low, shape.limit, ?_, apart_held shape.apart, ?_, by simp [shape.baseSize], ?_⟩
  · rw [Heap.len_freep, Heap.len_setPtr]
    simpa using shape.tiles
  · have erased := linked.erase ⟨fun mem => prevOnce (List.mem_append_left _ mem),
      fun mem => prevOnce (by simp [rest ▸ mem])⟩
    have reshaped : base :: frees (pre ++ (p, false) :: post) ++ [base] = l₁ ++ prevp :: r :: l₂ := by
      rw [← wrap, frees_append, frees_cons_held, ← List.cons_append, last]
      simp only [List.append_assoc, List.cons_append, List.nil_append]
    rw [Circuit, reshaped, Heap.next_freep, Heap.next_setPtr, show (h.hdr p).ptr = r from link]
    exact erased
  · rw [frees_append, frees_cons_held, ← List.cons_append, last]
    simp

theorem Shape.take_tail (shape : Shape base start h (pre ++ (p, true) :: post))
    (onRing : prevp ∈ base :: frees (pre ++ (p, true) :: post)) (pos : 0 < nunits) (more : nunits < (h.hdr p).size) :
    Shape base start { (h.setSize p ((h.hdr p).size - nunits)).setSize (p + hdrSize * ((h.hdr p).size - nunits))
      nunits with freep := prevp } (pre ++ (p, true) :: (p + hdrSize * ((h.hdr p).size - nunits), false) :: post) := by
  have small := shape.size_lt (a := p) (by simp)
  obtain ⟨before, -⟩ := shape.sorted_around
  obtain ⟨-, -, rest⟩ := shape.around
  set tail := p + hdrSize * ((h.hdr p).size - nunits) with tail_def
  set cut := Function.update (Function.update h.len p (hdrSize * ((h.hdr p).size - nunits))) tail
    (hdrSize * nunits) with cut_def
  have lens : ({ (h.setSize p ((h.hdr p).size - nunits)).setSize tail nunits with freep := prevp } : Heap).len =
      cut := by
    simp only [hdrSize, physLimit] at small
    rw [Heap.len_freep, Heap.len_setSize, Heap.len_setSize, Nat.mod_eq_of_lt (by omega),
      Nat.mod_eq_of_lt (by omega)]
  -- the head keeps `size - nunits` units, the tail starts right after them
  have pTail : p ≠ tail := by simp only [tail_def, hdrSize]; omega
  have lenP : cut p = hdrSize * ((h.hdr p).size - nunits) := by simp [cut_def, Function.update_of_ne pTail]
  have lenTail : cut tail = hdrSize * nunits := by simp [cut_def]
  have tailAt : p + cut p = tail := by rw [lenP]
  have beyond : ∀ y ∈ post.map (·.1), tail < y := fun y mem => by
    have := (rest.bounds y mem).1
    simp only [tail_def, Heap.len, hdrSize] at this ⊢
    omega
  have tiles := shape.tiles
  simp only [List.map_append, List.map_cons] at tiles
  have split : Tiles cut start h.sz (pre.map (·.1) ++ p :: (p + cut p) :: post.map (·.1)) :=
    tiles.split (by rw [lenP]; simp only [hdrSize]; omega)
    (by rw [tailAt, lenTail]; simp only [hdrSize]; omega)
    (by rw [tailAt, lenP, lenTail, ← Nat.mul_add, Nat.sub_add_cancel more.le]; rfl)
    fun x mem => by
      have apart : x ≠ p ∧ x ≠ tail := by
        rcases List.mem_append.mp mem with inPre | inPost
        · have := before x inPre
          omega
        · have := beyond x inPost
          omega
      rw [cut_def, Function.update_of_ne apart.2, Function.update_of_ne apart.1]
  rw [tailAt] at split
  have baseP : base ≠ p := ne_of_lt (shape.base_lt (by simp))
  have baseTail : base ≠ tail := by
    have := shape.base_lt (a := p) (by simp)
    omega
  refine ⟨shape.nonzero, shape.low, shape.limit, ?_, ?_, ?_, ?_, ?_⟩
  · rw [lens]
    simpa using split
  · have chain : ((pre ++ [(p, true)]) ++ post).IsChain NotBothFree := by simpa using shape.apart
    simpa using apart_insert_held (a := tail) chain
  · rw [Heap.next_freep, Heap.next_setSize, Heap.next_setSize]
    simpa using shape.circuit
  · simp [Heap.setSize_size_of_ne _ _ _ baseTail, Heap.setSize_size_of_ne _ _ _ baseP, shape.baseSize]
  · simpa using onRing

/-- `malloc` takes block `p = prevp->s.ptr`, of at least `nunits` units: the
heap keeps its shape, with one held block more, of `nunits` units, whose
pointer `carve` returns. -/
theorem Shape.carve_shape (shape : Shape base start h blocks) (onRing : prevp ∈ base :: frees blocks)
    (pos : 0 < nunits) (fits : nunits ≤ (h.hdr (h.next prevp)).size) :
    ∃ a h' blocks', carve h nunits prevp (h.next prevp) = (a + hdrSize, h') ∧ Shape base start h' blocks' ∧
      h'.sz = h.sz ∧ (lives blocks').Perm ((a + hdrSize) :: lives blocks) ∧ (h'.hdr a).size = nunits := by
  obtain ⟨p, link⟩ : ∃ p, h.next prevp = p := ⟨_, rfl⟩
  rw [link] at fits ⊢
  -- `p` is a free block: it is on the free list, and not `base`, which has no units
  have pOn : p ∈ base :: frees blocks := link ▸ by simpa using shape.circuit.iterate_mem onRing 1
  have notBase : p ≠ base := fun same => by
    rw [same, shape.baseSize] at fits
    omega
  have pFree : (p, true) ∈ blocks := mem_frees.mp ((List.mem_cons.mp pOn).resolve_left notBase)
  obtain ⟨pre, post, rfl⟩ := List.append_of_mem pFree
  obtain ⟨l₁, last⟩ := shape.prev_place onRing link
  rcases Nat.lt_or_ge nunits (h.hdr p).size with more | atMost
  · have small := shape.size_lt (a := p) (by simp)
    have units : ((h.hdr p).size - nunits) % 2 ^ 32 = (h.hdr p).size - nunits := by
      simp only [hdrSize, physLimit] at small
      exact Nat.mod_eq_of_lt (by omega)
    rw [carve_tail (ne_of_gt more), units]
    refine ⟨_, _, _, rfl, shape.take_tail onRing pos more, by simp, by simp, ?_⟩
    simp only [hdrSize, physLimit] at small
    simp only [Heap.setSize_size_self]
    exact Nat.mod_eq_of_lt (by omega)
  · have whole : (h.hdr p).size = nunits := by omega
    rw [carve_whole whole]
    exact ⟨p, _, _, rfl, shape.take_whole last, by simp, by simp, by simp [whole]⟩

end Carve

/-! `morecore`, and the loop of `malloc` as a whole. -/

section More

variable {base start : Nat} {h : Heap} {blocks : List (Nat × Bool)} {fuel nunits : Nat}

theorem Shape.freep_pos (shape : Shape base start h blocks) : 0 < h.freep := by
  rcases List.mem_cons.mp shape.freep with same | inside
  · rw [same]
    exact shape.nonzero
  · have := shape.base_lt (mem_map_of_mem_frees inside)
    omega

theorem Shape.extend (shape : Shape base start h blocks) (nu : Nat) (pos : 0 < nu) (small : nu < 2 ^ 32)
    (room : h.sz + hdrSize * nu ≤ physLimit) :
    Shape base start ({ h with sz := h.sz + hdrSize * nu }.setSize h.sz nu) (blocks ++ [(h.sz, false)]) := by
  have below : ∀ x ∈ blocks.map (·.1), x ≠ h.sz := fun x mem => by
    have := shape.bounds mem
    have := shape.tiles.pos x mem
    omega
  have lens : ({ h with sz := h.sz + hdrSize * nu }.setSize h.sz nu).len =
      Function.update h.len h.sz (hdrSize * nu) := by
    rw [Heap.len_setSize, Heap.len_sz, Nat.mod_eq_of_lt small]
  have extended : Tiles (Function.update h.len h.sz (hdrSize * nu)) start
      (h.sz + Function.update h.len h.sz (hdrSize * nu) h.sz) (blocks.map (·.1) ++ [h.sz]) :=
    shape.tiles.extend (by simp only [Function.update_self, hdrSize]; omega)
      fun x mem => Function.update_of_ne (below x mem) _ _
  have baseEnd : base ≠ h.sz := by
    have := shape.low
    have := shape.tiles.le
    simp only [hdrSize] at *
    omega
  refine ⟨shape.nonzero, shape.low, room, ?_, ?_, ?_, ?_, ?_⟩
  · rw [lens]
    simpa using extended
  · have chain : (blocks ++ []).IsChain NotBothFree := by simpa using shape.apart
    simpa using apart_insert_held (a := h.sz) chain
  · rw [Heap.next_setSize, Heap.next_sz]
    simpa using shape.circuit
  · rw [Heap.setSize_size_of_ne _ _ _ baseEnd]
    exact shape.baseSize
  · simpa using shape.freep

/-- `morecore` on a heap of `Shape`, for at most `2^26 + 1` units: `sbrk`
refuses and nothing changes, or the new memory is freed into the heap, which
then has a free block of at least `nunits` units. -/
theorem Shape.morecore_shape (shape : Shape base start h blocks) (grant : Bool) (pos : 0 < nunits) (small : nunits ≤ 2 ^ 26 + 1)
    (enough : physLimit / hdrSize + 1 ≤ fuel) :
    morecore grant fuel h nunits = .ok (0, h) ∨
      ∃ h' blocks', morecore grant fuel h nunits = .ok (h'.freep, h') ∧ Shape base start h' blocks' ∧
        lives blocks' = lives blocks ∧ ∃ a ∈ frees blocks', nunits ≤ (h'.hdr a).size := by
  -- `morecore` asks for at least 4096 units, which are fewer than `2^31` bytes
  obtain ⟨nu, nu_def⟩ : ∃ nu, nu = if nunits < 4096 then 4096 else nunits := ⟨_, rfl⟩
  have atLeast : nunits ≤ nu := by split at nu_def <;> omega
  have atMost : nu ≤ 2 ^ 26 + 1 := by split at nu_def <;> omega
  have arg : sbrkArg nu = ((nu * hdrSize : Nat) : Int) := sbrkArg_of_lt (by simp only [hdrSize]; omega)
  have positive : (0 : Int) < ((nu * hdrSize : Nat) : Int) := by simp only [hdrSize]; omega
  have bytes : (((nu * hdrSize : Nat) : Int)).toNat = hdrSize * nu := by rw [Int.toNat_natCast, Nat.mul_comm]
  by_cases granted : grant = true ∧ h.sz + hdrSize * nu ≤ physLimit
  · have grows : sbrk grant h.sz (sbrkArg nu) = (h.sz, h.sz + hdrSize * nu) := by
      rw [arg, sbrk_granted positive granted.1 (by rw [bytes]; exact granted.2), bytes]
    have extended := shape.extend nu (by omega) (by omega) granted.2
    obtain ⟨h', blocks', freed, shape', -, lives', a, aFree, grew⟩ :=
      extended.free_shape (le_trans extended.ring_length enough)
    have notMax : h.sz ≠ 2 ^ 64 - 1 := by
      have := shape.limit
      simp only [physLimit] at this
      omega
    refine Or.inr ⟨h', blocks', morecore_grown (by rw [← nu_def]; exact grows) notMax (by rw [← nu_def]; exact freed),
      shape', by simpa using lives', a, aFree, ?_⟩
    have units : nu % 2 ^ 32 = nu := Nat.mod_eq_of_lt (by omega)
    simp only [Heap.setSize_size_self, units] at grew
    omega
  · have refused : sbrk grant h.sz (sbrkArg nu) = (2 ^ 64 - 1, h.sz) := by
      rw [arg, sbrk_refused positive (by rw [bytes]; exact granted)]
    exact Or.inl (morecore_failed (by rw [← nu_def]; exact refused))

theorem Shape.loop_fits (shape : Shape base start h blocks) (grant : Bool) (pos : 0 < nunits)
    (enough : physLimit / hdrSize + 1 ≤ fuel) (large : ∃ a ∈ frees blocks, nunits ≤ (h.hdr a).size) :
    ∃ a h' blocks', mallocLoop grant nunits fuel h h.freep (h.hdr h.freep).ptr = .ok (a + hdrSize, h') ∧
      Shape base start h' blocks' ∧ h'.sz = h.sz ∧ (lives blocks').Perm ((a + hdrSize) :: lives blocks) ∧
      (h'.hdr a).size = nunits := by
  rcases mallocLoop_scan grant nunits shape.circuit shape.ring_nodup shape.freep
      (le_trans shape.ring_length enough) with ⟨prevp, onRing, fits, ran⟩ | ⟨short, -⟩
  · obtain ⟨a, h', blocks', carved, shape', sz', lives', size'⟩ := shape.carve_shape onRing pos fits
    exact ⟨a, h', blocks', by rw [ran, carved], shape', sz', lives', size'⟩
  · obtain ⟨a, mem, fits⟩ := large
    have := short a (List.mem_cons_of_mem base mem)
    omega

theorem Shape.loop_more (shape : Shape base start h blocks) (grant : Bool) (pos : 0 < nunits) (small : nunits ≤ 2 ^ 26 + 1)
    (enough : 2 * (physLimit / hdrSize + 1) ≤ fuel) (short : ∀ x ∈ base :: frees blocks, (h.hdr x).size < nunits) :
    mallocLoop grant nunits fuel h h.freep (h.hdr h.freep).ptr = .ok (0, h) ∨
      ∃ a h' blocks', mallocLoop grant nunits fuel h h.freep (h.hdr h.freep).ptr = .ok (a + hdrSize, h') ∧
        Shape base start h' blocks' ∧ (lives blocks').Perm ((a + hdrSize) :: lives blocks) ∧
        (h'.hdr a).size = nunits := by
  have ring := shape.ring_length
  have ringFuel : (base :: frees blocks).length ≤ fuel := by omega
  rcases mallocLoop_scan grant nunits shape.circuit shape.ring_nodup shape.freep ringFuel with ⟨prevp, onRing, fits, -⟩ | ⟨-, prevp, walked⟩
  · have := short _ (by simpa using shape.circuit.iterate_mem onRing 1)
    omega
  · -- back at `freep`, too small: `morecore`, with the fuel the walk left
    obtain ⟨rest, left⟩ : ∃ rest, fuel - (base :: frees blocks).length = rest := ⟨_, rfl⟩
    have restFuel : physLimit / hdrSize + 1 ≤ rest := by omega
    have freepShort := short _ shape.freep
    rw [walked, left]
    rcases shape.morecore_shape grant pos small restFuel with
      failed | ⟨h', blocks', grown, shape', lives', large⟩
    · exact Or.inl (mallocLoop_no_core freepShort rfl failed)
    · rw [mallocLoop_more freepShort rfl grown (Nat.pos_iff_ne_zero.mp shape'.freep_pos)]
      obtain ⟨a, h'', blocks'', ran, shape'', -, lives'', size''⟩ := shape'.loop_fits grant pos restFuel large
      exact Or.inr ⟨a, h'', blocks'', ran, shape'', lives' ▸ lives'', size''⟩

/-- `malloc`'s loop on a heap of `Shape`, for at most `2^26 + 1` units: it
returns, the heap keeps its shape, and what it returns is 0, with the held
blocks as they were, or the pointer of a new held block of `nunits` units. -/
theorem Shape.malloc_loop (shape : Shape base start h blocks) (grant : Bool) (pos : 0 < nunits) (small : nunits ≤ 2 ^ 26 + 1)
    (enough : 2 * (physLimit / hdrSize + 1) ≤ fuel) :
    ∃ q h' blocks', mallocLoop grant nunits fuel h h.freep (h.hdr h.freep).ptr = .ok (q, h') ∧
      Shape base start h' blocks' ∧
      (q = 0 ∧ lives blocks' = lives blocks ∨
        ∃ a, q = a + hdrSize ∧ (lives blocks').Perm (q :: lives blocks) ∧ (h'.hdr a).size = nunits) := by
  by_cases large : ∃ a ∈ frees blocks, nunits ≤ (h.hdr a).size
  · have fuelEnough : physLimit / hdrSize + 1 ≤ fuel := by omega
    obtain ⟨a, h', blocks', ran, shape', -, lives', size'⟩ := shape.loop_fits grant pos fuelEnough large
    exact ⟨_, h', blocks', ran, shape', Or.inr ⟨a, rfl, lives', size'⟩⟩
  · have short : ∀ x ∈ base :: frees blocks, (h.hdr x).size < nunits := by
      intro x mem
      rcases List.mem_cons.mp mem with same | inside
      · rw [same, shape.baseSize]
        exact pos
      · exact Nat.lt_of_not_le fun fits => large ⟨x, inside, fits⟩
    rcases shape.loop_more grant pos small enough short with ran | ⟨a, h', blocks', ran, shape', lives', size'⟩
    · exact ⟨0, h, blocks, ran, shape, Or.inl ⟨rfl, rfl⟩⟩
    · exact ⟨_, h', blocks', ran, shape', Or.inr ⟨a, rfl, lives', size'⟩⟩

theorem Shape.first (nonzero : 0 < base) (low : base + hdrSize ≤ start) (room : start ≤ physLimit)
    (atStart : h.sz = start) : Shape base start { (h.setPtr base base).setSize base 0 with freep := base } [] := by
  refine ⟨nonzero, low, by simpa [atStart], by simp [atStart], List.isChain_nil, ?_, by simp, by simp⟩
  simp [Circuit, Heap.next]

end More

/-! A program that calls `malloc` and `free`. -/

section Client

variable {base start : Nat} {c : Client}

/-- What holds in every reachable state of a program: before the first
`malloc` nothing is held and the process ends at `start`; after it the heap
has a `Shape` whose held blocks are those the program holds. -/
def Inv (base start : Nat) (c : Client) : Prop :=
  (c.heap.freep = 0 ∧ c.live = [] ∧ c.heap.sz = start) ∨
    ∃ blocks, Shape base start c.heap blocks ∧ c.live.Perm (lives blocks)

/-- For at most `2^30` bytes `malloc` looks for at least one and at most
`2^26 + 1` units. -/
theorem nunitsOf_bounds {nbytes : Nat} (small : nbytes ≤ 2 ^ 30) :
    0 < nunitsOf nbytes ∧ nunitsOf nbytes ≤ 2 ^ 26 + 1 := by
  rw [nunitsOf_of_le small]
  simp only [hdrSize]
  omega

theorem loopBound_enough : 2 * (physLimit / hdrSize + 1) ≤ loopBound := by
  simp only [loopBound]
  omega

theorem frees_append_lives_perm {blocks : List (Nat × Bool)} :
    (frees blocks ++ (lives blocks).map (· - hdrSize)).Perm (blocks.map (·.1)) := by
  have split := (List.filter_append_perm (·.2) blocks).map (·.1)
  simpa [frees, lives, Function.comp_def] using split

/-- `free` of a pointer the program holds, in a state of `Inv`: it returns, the
heap keeps a `Shape` whose held blocks are the others, the process keeps its
size, and the freed units are inside a free block. -/
theorem Inv.free_shape (inv : Inv base start c) {ap : Nat} (held : ap ∈ c.live) :
    ∃ h' blocks', free loopBound c.heap ap = .ok h' ∧ Shape base start h' blocks' ∧ h'.sz = c.heap.sz ∧
      (lives blocks').Perm (c.live.erase ap) ∧
      ∃ a ∈ frees blocks', (c.heap.hdr (ap - hdrSize)).size ≤ (h'.hdr a).size := by
  rcases inv with ⟨-, none, -⟩ | ⟨blocks, shape, perm⟩
  · rw [none] at held
    cases held
  · obtain ⟨bp, mem, rfl⟩ := mem_lives.mp (perm.subset held)
    obtain ⟨pre, post, rfl⟩ := List.append_of_mem mem
    have enough : (base :: frees (pre ++ (bp, false) :: post)).length ≤ loopBound := by
      have := shape.ring_length
      have := loopBound_enough
      omega
    obtain ⟨h', blocks', freed, shape', sz', lives', grew⟩ := shape.free_shape enough
    -- the program holds `bp` once: no held block before it has its address
    have notPre : bp + hdrSize ∉ lives pre := fun mem => by
      obtain ⟨x, inPre, same⟩ := mem_lives.mp mem
      have := shape.around.1 x (List.mem_map_of_mem (f := (·.1)) inPre)
      omega
    have erased : (lives (pre ++ (bp, false) :: post)).erase (bp + hdrSize) = lives pre ++ lives post := by
      rw [lives_append, lives_cons_held, List.erase_append_right _ notPre, List.erase_cons_head]
    refine ⟨h', blocks', freed, shape', sz', ?_, by simpa using grew⟩
    rw [lives', ← erased]
    exact (perm.erase _).symm

/-- What `Inv` says of the layout: before the first `malloc` nothing is held;
after it the free list is a circuit from `base` in increasing address order,
no two free blocks are neighbours, and the free and the held blocks lie
between `start` and the end of the process, no two of them overlapping. -/
theorem Inv.layout (inv : Inv base start c) :
    c.heap.freep = 0 ∧ c.live = [] ∨
      ∃ free : List Nat, Circuit c.heap.next base free ∧ c.heap.freep ∈ base :: free ∧
        (base :: free).Pairwise (· < ·) ∧ (∀ a ∈ free, ∀ b ∈ free, a < b → a + c.heap.len a < b) ∧
        (∀ x ∈ free ++ c.live.map (· - hdrSize), start ≤ x ∧ x + c.heap.len x ≤ c.heap.sz) ∧
        (free ++ c.live.map (· - hdrSize)).Pairwise (fun x y => x + c.heap.len x ≤ y ∨ y + c.heap.len y ≤ x) := by
  rcases inv with ⟨fresh, none, -⟩ | ⟨blocks, shape, held⟩
  · exact Or.inl ⟨fresh, none⟩
  · -- the free blocks and the held ones are the blocks of the tiling, in another order
    have perm : (frees blocks ++ c.live.map (· - hdrSize)).Perm (blocks.map (·.1)) :=
      ((held.map _).append_left _).trans frees_append_lives_perm
    have disjoint : (blocks.map (·.1)).Pairwise (fun x y => x + c.heap.len x ≤ y ∨ y + c.heap.len y ≤ x) :=
      shape.tiles.sorted.imp_of_mem fun memA memB lt => Or.inl (shape.tiles.apart _ memA _ memB lt)
    refine Or.inr ⟨frees blocks, shape.circuit, shape.freep, shape.ring_sorted,
      fun a memA b memB lt => shape.frees_apart memA memB lt, fun x mem => shape.bounds (perm.subset mem), ?_⟩
    exact (List.Perm.pairwise_iff Or.symm perm).mpr disjoint

section Contract

variable (nonzero : 0 < base) (low : base + hdrSize ≤ start) (room : start ≤ physLimit)
include nonzero low room

/-- `malloc` of at most `2^30` bytes in a state of `Inv`: it returns, the heap
keeps a `Shape`, and a pointer other than 0 is that of a new held block of
`nunitsOf nbytes` units. -/
theorem Inv.malloc_shape (inv : Inv base start c) {nbytes : Nat} (small : nbytes ≤ 2 ^ 30) (grant : Bool) :
    ∃ q h' blocks', malloc base loopBound grant c.heap nbytes = .ok (q, h') ∧ Shape base start h' blocks' ∧
      (q = 0 ∧ (lives blocks').Perm c.live ∨
        ∃ a, q = a + hdrSize ∧ (lives blocks').Perm (q :: c.live) ∧ (h'.hdr a).size = nunitsOf nbytes) := by
  obtain ⟨pos, fewer⟩ := nunitsOf_bounds small
  rcases inv with ⟨fresh, none, atStart⟩ | ⟨blocks, shape, held⟩
  · -- the first call makes `base` the free list
    obtain ⟨q, h', blocks', ran, shape', result⟩ :=
      (Shape.first (h := c.heap) nonzero low room atStart).malloc_loop grant pos fewer loopBound_enough
    refine ⟨q, h', blocks', by rw [malloc_first fresh]; exact ran, shape', ?_⟩
    rw [none]
    simpa using result
  · obtain ⟨q, h', blocks', ran, shape', result⟩ := shape.malloc_loop grant pos fewer loopBound_enough
    refine ⟨q, h', blocks', by rw [malloc_started (Nat.pos_iff_ne_zero.mp shape.freep_pos)]; exact ran, shape', ?_⟩
    rcases result with ⟨rfl, same⟩ | ⟨a, rfl, more, size⟩
    · exact Or.inl ⟨rfl, by rw [same]; exact held.symm⟩
    · exact Or.inr ⟨a, rfl, more.trans (held.symm.cons _), size⟩

theorem inv_keeps : Machine.Keeps (step base) (Inv base start) := by
  intro c call c' inv stepped
  cases call with
  | malloc nbytes grant =>
      by_cases small : nbytes ≤ 2 ^ 30
      · rw [step, if_pos small] at stepped
        obtain ⟨⟨q, heap⟩, ran, returned⟩ := Machine.bind_eq_ok stepped
        obtain ⟨q', h', blocks', ran', shape', result⟩ := inv.malloc_shape nonzero low room small grant
        rw [ran'] at ran
        cases ran
        cases returned
        refine Or.inr ⟨blocks', shape', ?_⟩
        rcases result with ⟨rfl, same⟩ | ⟨a, rfl, more, -⟩
        · simpa using same.symm
        · simpa [hdrSize] using more.symm
      · rw [step, if_neg small] at stepped
        cases stepped
  | free ap =>
      by_cases held : ap ∈ c.live
      · rw [step, if_pos held] at stepped
        obtain ⟨heap, freed, returned⟩ := Machine.bind_eq_ok stepped
        obtain ⟨h', blocks', freed', shape', -, lives', -⟩ := inv.free_shape held
        rw [freed'] at freed
        cases freed
        cases returned
        exact Or.inr ⟨blocks', shape', lives'.symm⟩
      · rw [step, if_neg held] at stepped
        cases stepped

end Contract

end Client

end Xv6.Umalloc
