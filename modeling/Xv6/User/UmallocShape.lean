import Mathlib
import Xv6.Library.FreeList
import Xv6.User.Umalloc

/-!
The representation invariant of `umalloc.c`. After the first `malloc`, the
memory from where the process ended before it (`start`) to where it ends now
is cut into blocks, each free or held by the program; the free ones, no two of
them neighbours, are the free list after `base`, in address order (`Shape`).
`free` of a held block keeps this shape (`Shape.free_shape`); `malloc` is in
`Xv6.User.UmallocClient`.
-/

namespace Xv6.Umalloc

open FreeList

/-- The free blocks of `blocks`, in address order. -/
def frees (blocks : List (Nat × Bool)) : List Nat := (blocks.filter (·.2)).map (·.1)

/-- The pointers `malloc` returned for the held blocks of `blocks`. -/
def lives (blocks : List (Nat × Bool)) : List Nat := (blocks.filter (!·.2)).map (·.1 + hdrSize)

/-- At most one of two blocks is free. -/
def NotBothFree (x y : Nat × Bool) : Prop := ¬ (x.2 = true ∧ y.2 = true)

/-- The test at which the search loop of `free` stops at `p`. -/
def FreeStops (hdr : Nat → Header) (bp p : Nat) : Prop :=
  bp > p ∧ bp < (hdr p).ptr ∨ p ≥ (hdr p).ptr ∧ (bp > p ∨ bp < (hdr p).ptr)

/-- The heap after the first `malloc`, cut into `blocks` (address, free) from
`start` to the end of the process: a tiling whose free blocks, no two of them
neighbours, are the free list after `base`, with `base` of size 0 below them. -/
structure Shape (base start : Nat) (h : Heap) (blocks : List (Nat × Bool)) : Prop where
  nonzero : 0 < base
  low : base + hdrSize ≤ start
  limit : h.sz ≤ physLimit
  tiles : Tiles h.len start h.sz (blocks.map (·.1))
  apart : blocks.IsChain NotBothFree
  circuit : Circuit h.next base (frees blocks)
  baseSize : (h.hdr base).size = 0
  freep : h.freep ∈ base :: frees blocks

section Lists

variable {l l₁ l₂ : List (Nat × Bool)} {a : Nat}

@[simp] theorem frees_nil : frees [] = [] := rfl
@[simp] theorem frees_append : frees (l₁ ++ l₂) = frees l₁ ++ frees l₂ := by simp [frees]
@[simp] theorem frees_cons_free : frees ((a, true) :: l) = a :: frees l := by simp [frees]
@[simp] theorem frees_cons_held : frees ((a, false) :: l) = frees l := by simp [frees]
@[simp] theorem lives_nil : lives [] = [] := rfl
@[simp] theorem lives_append : lives (l₁ ++ l₂) = lives l₁ ++ lives l₂ := by simp [lives]
@[simp] theorem lives_cons_free : lives ((a, true) :: l) = lives l := by simp [lives]
@[simp] theorem lives_cons_held : lives ((a, false) :: l) = (a + hdrSize) :: lives l := by simp [lives]

theorem mem_frees : a ∈ frees l ↔ (a, true) ∈ l := by simp [frees]

theorem mem_lives {p : Nat} : p ∈ lives l ↔ ∃ a, (a, false) ∈ l ∧ a + hdrSize = p := by simp [lives]

theorem frees_sublist : (frees l).Sublist (l.map (·.1)) := List.filter_sublist.map _

theorem lives_sublist : (lives l).Sublist (l.map fun x => x.1 + hdrSize) :=
  List.filter_sublist.map _

/-- Consecutive blocks of a chain are related. -/
theorem isChain_middle {R : Nat × Bool → Nat × Bool → Prop} {x y : Nat × Bool}
    (chain : (l₁ ++ x :: y :: l₂).IsChain R) : R x y :=
  (List.isChain_cons_cons.mp (List.isChain_append.mp chain).2.1).1

theorem apart_held {f : Bool} (chain : (l₁ ++ (a, f) :: l₂).IsChain NotBothFree) :
    (l₁ ++ (a, false) :: l₂).IsChain NotBothFree := by
  obtain ⟨before, after, -⟩ := List.isChain_append.mp chain
  refine List.isChain_append.mpr ⟨before, ?_, fun x _ z first => ?_⟩
  · cases l₂ with
    | nil => exact List.isChain_singleton _
    | cons z l₂ => exact List.isChain_cons_cons.mpr ⟨by simp [NotBothFree], (List.isChain_cons_cons.mp after).2⟩
  · simp only [List.head?_cons, Option.mem_def, Option.some.injEq] at first
    subst first
    simp [NotBothFree]

theorem apart_insert_held (chain : (l₁ ++ l₂).IsChain NotBothFree) :
    (l₁ ++ (a, false) :: l₂).IsChain NotBothFree := by
  obtain ⟨before, after, -⟩ := List.isChain_append.mp chain
  refine List.isChain_append.mpr ⟨before, ?_, fun x _ z first => ?_⟩
  · cases l₂ with
    | nil => exact List.isChain_singleton _
    | cons z l₂ => exact List.isChain_cons_cons.mpr ⟨by simp [NotBothFree], after⟩
  · simp only [List.head?_cons, Option.mem_def, Option.some.injEq] at first
    subst first
    simp [NotBothFree]

end Lists

section Shape

variable {base start : Nat} {h : Heap} {blocks : List (Nat × Bool)}

theorem Shape.bounds (shape : Shape base start h blocks) {a : Nat} (mem : a ∈ blocks.map (·.1)) :
    start ≤ a ∧ a + h.len a ≤ h.sz :=
  shape.tiles.bounds a mem

theorem Shape.size_lt (shape : Shape base start h blocks) {a : Nat} (mem : a ∈ blocks.map (·.1)) :
    hdrSize * (h.hdr a).size ≤ physLimit := by
  have := shape.bounds mem
  have := shape.limit
  simp only [Heap.len] at *
  omega

theorem Shape.base_lt (shape : Shape base start h blocks) {a : Nat} (mem : a ∈ blocks.map (·.1)) : base < a := by
  have := (shape.bounds mem).1
  have := shape.low
  simp only [hdrSize] at *
  omega

theorem mem_map_of_mem_frees {a : Nat} (mem : a ∈ frees blocks) : a ∈ blocks.map (·.1) :=
  frees_sublist.subset mem

theorem Shape.ring_sorted (shape : Shape base start h blocks) : (base :: frees blocks).Pairwise (· < ·) :=
  List.Pairwise.cons (fun _ mem => shape.base_lt (mem_map_of_mem_frees mem))
    (shape.tiles.sorted.sublist frees_sublist)

theorem Shape.ring_nodup (shape : Shape base start h blocks) : (base :: frees blocks).Nodup :=
  shape.ring_sorted.imp ne_of_lt

theorem Shape.blocks_nodup (shape : Shape base start h blocks) : (blocks.map (·.1)).Nodup :=
  shape.tiles.nodup

theorem Shape.ring_length (shape : Shape base start h blocks) :
    (base :: frees blocks).length ≤ physLimit / hdrSize + 1 := by
  have least : ∀ a ∈ blocks.map (·.1), hdrSize ≤ h.len a := fun a mem => by
    have := shape.tiles.pos a mem
    simp only [Heap.len, hdrSize] at this ⊢
    omega
  have counted := shape.tiles.length_mul_le least
  have fewer : (frees blocks).length ≤ (blocks.map (·.1)).length := frees_sublist.length_le
  have := shape.limit
  rw [List.length_map] at counted fewer
  rw [List.length_cons]
  simp only [hdrSize, physLimit] at counted this ⊢
  omega

theorem Shape.adjacent (shape : Shape base start h blocks) {a b : Nat} {f g : Bool} (memA : (a, f) ∈ blocks)
    (memB : (b, g) ∈ blocks) (touch : a + h.len a = b) : ∃ l₁ l₂, blocks = l₁ ++ (a, f) :: (b, g) :: l₂ := by
  have addrA : a ∈ blocks.map (·.1) := List.mem_map_of_mem (f := (·.1)) memA
  have addrB : a + h.len a ∈ blocks.map (·.1) := touch ▸ List.mem_map_of_mem (f := (·.1)) memB
  obtain ⟨l₁, l₂, split⟩ := shape.tiles.adjacent a addrA addrB
  have unique := List.inj_on_of_nodup_map shape.blocks_nodup
  obtain ⟨L₁, R, rfl, -, rest⟩ := List.map_eq_append_iff.mp split
  obtain ⟨x, R', rfl, isA, rest'⟩ := List.map_eq_cons_iff.mp rest
  obtain ⟨y, L₂, rfl, isB, -⟩ := List.map_eq_cons_iff.mp rest'
  -- addresses are unique, so the two blocks are `(a, f)` and `(b, g)`
  have xA : x = (a, f) := unique (by simp) memA isA
  have yB : y = (b, g) := unique (by simp) memB (isB.trans touch)
  exact ⟨L₁, L₂, by rw [xA, yB]⟩

theorem Shape.frees_apart (shape : Shape base start h blocks) {a b : Nat} (memA : a ∈ frees blocks)
    (memB : b ∈ frees blocks) (lt : a < b) : a + h.len a < b := by
  have le := shape.tiles.apart a (mem_map_of_mem_frees memA) b (mem_map_of_mem_frees memB) lt
  refine lt_of_le_of_ne le fun touch => ?_
  obtain ⟨l₁, l₂, split⟩ := shape.adjacent (mem_frees.mp memA) (mem_frees.mp memB) touch
  have both := isChain_middle (split ▸ shape.apart)
  exact both ⟨rfl, rfl⟩

end Shape

section Search

variable {base start : Nat} {h : Heap} {bp : Nat}

theorem freeLoop_walk : ∀ (k fuel p : Nat), (∀ j < k, ¬ FreeStops h.hdr bp (h.next^[j] p)) →
    freeLoop h.hdr bp (fuel + k) p = freeLoop h.hdr bp fuel (h.next^[k] p)
  | 0, _, _, _ => rfl
  | k + 1, fuel, p, skipped => by
      have here : ¬ FreeStops h.hdr bp p := skipped 0 (by omega)
      rw [show fuel + (k + 1) = fuel + k + 1 by omega, freeLoop_skip here]
      have later : ∀ j < k, ¬ FreeStops h.hdr bp (h.next^[j] (h.next p)) := fun j below => by
        simpa [Function.iterate_succ_apply] using skipped (j + 1) (by omega)
      exact freeLoop_walk k fuel (h.next p) later

theorem freeLoop_circuit {F : List Nat} {u v fuel : Nat} (circuit : Circuit h.next base F) (fromU : u ∈ base :: F)
    (toV : v ∈ base :: F) (stops : FreeStops h.hdr bp v) (only : ∀ x ∈ base :: F, FreeStops h.hdr bp x → x = v)
    (enough : (base :: F).length ≤ fuel) : freeLoop h.hdr bp fuel u = some v := by
  classical
  obtain ⟨j, below, reached⟩ := circuit.reach fromU toV
  have found : ∃ k, FreeStops h.hdr bp (h.next^[k] u) := ⟨j, reached ▸ stops⟩
  have first : ∀ i < Nat.find found, ¬ FreeStops h.hdr bp (h.next^[i] u) := fun i lt => Nat.find_min found lt
  have atMost : Nat.find found ≤ j := Nat.find_min' found (reached ▸ stops)
  have isV : h.next^[Nat.find found] u = v := only _ (circuit.iterate_mem fromU _) (Nat.find_spec found)
  obtain ⟨rest, split⟩ : ∃ rest, fuel = rest + 1 + Nat.find found := ⟨fuel - Nat.find found - 1, by omega⟩
  rw [split, freeLoop_walk _ _ u first, freeLoop_stop (Nat.find_spec found), isV]

variable {pre post : List (Nat × Bool)}

theorem Shape.around {f : Bool} (shape : Shape base start h (pre ++ (bp, f) :: post)) :
    (∀ y ∈ pre.map (·.1), y < bp) ∧ 0 < h.len bp ∧ Tiles h.len (bp + h.len bp) h.sz (post.map (·.1)) := by
  have tiles := shape.tiles
  have sorted := tiles.sorted
  simp only [List.map_append, List.map_cons] at tiles sorted
  obtain ⟨mid, -, rfl, pos, rest⟩ := tiles_append.mp tiles
  exact ⟨fun y mem => (List.pairwise_append.mp sorted).2.2 y mem bp List.mem_cons_self, pos, rest⟩

theorem Shape.free_place (shape : Shape base start h (pre ++ (bp, false) :: post)) {l₁ : List Nat} {p : Nat}
    (last : base :: frees pre = l₁ ++ [p]) :
    FreeStops h.hdr bp p ∧ ∀ x ∈ base :: frees (pre ++ (bp, false) :: post), FreeStops h.hdr bp x → x = p := by
  obtain ⟨before, pos, after⟩ := shape.around
  have baseBp : base < bp := shape.base_lt (by simp)
  have sorted := shape.ring_sorted
  have circuit := shape.circuit
  simp only [frees_append, frees_cons_held] at sorted circuit
  rw [Circuit, ← List.cons_append, last, List.append_assoc] at circuit
  -- the free blocks before `bp` lie below it, those after it above its end
  have belowBp : ∀ y ∈ l₁ ++ [p], y < bp := by
    rw [← last]
    intro y mem
    rcases List.mem_cons.mp mem with rfl | inside
    · exact baseBp
    · exact before y (mem_map_of_mem_frees inside)
  have aboveBp : ∀ y ∈ frees post, bp < y := fun y mem => by
    have := (after.bounds y (mem_map_of_mem_frees mem)).1
    omega
  have sortedPre : (l₁ ++ [p]).Pairwise (· < ·) := by
    rw [← last]
    exact sorted.sublist (List.cons_sublist_cons.mpr (List.sublist_append_left _ _))
  have sortedPost : (frees post ++ [base]).Pairwise fun x y => x < y ∨ y = base := by
    refine List.pairwise_append.mpr ⟨?_, by simp, fun x _ y mem => Or.inr (List.mem_singleton.mp mem)⟩
    exact ((sorted.sublist (List.sublist_cons_self _ _)).sublist (List.sublist_append_right _ _)).imp Or.inl
  obtain ⟨linkedPre, linkedPost, link⟩ := List.isChain_append.mp circuit
  have pBelow : p < bp := belowBp p (by simp)
  have baseLe : base ≤ p := by
    have pMem : p ∈ base :: frees pre := by rw [last]; simp
    rcases List.mem_cons.mp pMem with same | inside
    · exact le_of_eq same.symm
    · exact le_of_lt (shape.base_lt (by simp [mem_map_of_mem_frees inside]))
  refine ⟨?_, fun x mem stopped => ?_⟩
  · -- the search stops at `p`: below `bp`, with the next free block above it or the wrap to `base`
    show bp > p ∧ bp < h.next p ∨ p ≥ h.next p ∧ (bp > p ∨ bp < h.next p)
    cases hpost : frees post with
    | nil =>
        have wraps : h.next p = base := by simpa [hpost] using link
        exact Or.inr ⟨wraps ▸ baseLe, Or.inl pBelow⟩
    | cons y ys =>
        have onward : h.next p = y := by simpa [hpost] using link
        exact Or.inl ⟨pBelow, onward ▸ aboveBp y (by simp [hpost])⟩
  · -- anywhere else the next node is on the same side of `bp`, and not behind it
    change bp > x ∧ bp < h.next x ∨ x ≥ h.next x ∧ (bp > x ∨ bp < h.next x) at stopped
    simp only [frees_append, frees_cons_held, ← List.cons_append, last, List.mem_append,
      List.mem_singleton] at mem
    rcases mem with (early | rfl) | late
    · have onward := Linked.next_rel linkedPre sortedPre x (by rw [List.dropLast_concat]; exact early)
      have := belowBp _ onward.1
      omega
    · rfl
    · have onward := Linked.next_rel linkedPost sortedPost x (by rw [List.dropLast_concat]; exact late)
      have := aboveBp x late
      omega

end Search

/-! What `free` writes once its search has stopped at `p`: one lemma for each
of its two joins done or not. -/

section FreeWrites

variable {h : Heap} {bp fuel p : Nat} (found : freeLoop h.hdr bp fuel h.freep = some p)
include found

theorem free_eq_link (upper : ¬ bp + hdrSize * (h.hdr bp).size = (h.hdr p).ptr)
    (lower : ¬ p + hdrSize * (h.hdr p).size = bp) :
    free fuel h (bp + hdrSize) = .ok { (h.setPtr bp (h.hdr p).ptr).setPtr p bp with freep := p } := by
  simp only [free, Nat.add_sub_cancel, found, upper, if_false, Heap.setPtr_size, lower]

theorem free_eq_join_upper (apart : p ≠ bp) (upper : bp + hdrSize * (h.hdr bp).size = (h.hdr p).ptr)
    (lower : ¬ p + hdrSize * (h.hdr p).size = bp) :
    free fuel h (bp + hdrSize) = .ok { ((h.setSize bp ((h.hdr bp).size + (h.hdr (h.hdr p).ptr).size)).setPtr bp
      (h.hdr (h.hdr p).ptr).ptr).setPtr p bp with freep := p } := by
  simp only [free, Nat.add_sub_cancel, found, upper, if_true, Heap.setPtr_size, Heap.setSize_ptr,
    Heap.setSize_size_of_ne _ _ _ apart, lower, if_false]

theorem free_eq_join_lower (upper : ¬ bp + hdrSize * (h.hdr bp).size = (h.hdr p).ptr)
    (lower : p + hdrSize * (h.hdr p).size = bp) :
    free fuel h (bp + hdrSize) = .ok { ((h.setPtr bp (h.hdr p).ptr).setSize p ((h.hdr p).size + (h.hdr bp).size)).setPtr
      p (h.hdr p).ptr with freep := p } := by
  simp only [free, Nat.add_sub_cancel, found, upper, if_false, Heap.setPtr_size, lower, if_true,
    Heap.setSize_ptr, Heap.setPtr_ptr_self]

theorem free_eq_join_both (apart : p ≠ bp) (upper : bp + hdrSize * (h.hdr bp).size = (h.hdr p).ptr)
    (lower : p + hdrSize * (h.hdr p).size = bp) :
    free fuel h (bp + hdrSize) = .ok { ((((h.setSize bp ((h.hdr bp).size + (h.hdr (h.hdr p).ptr).size)).setPtr bp
      (h.hdr (h.hdr p).ptr).ptr).setSize p ((h.hdr p).size + ((h.hdr bp).size + (h.hdr (h.hdr p).ptr).size) % 2 ^ 32)).setPtr
      p (h.hdr (h.hdr p).ptr).ptr) with freep := p } := by
  simp only [free, Nat.add_sub_cancel, found, upper, if_true, Heap.setPtr_size, Heap.setSize_ptr,
    Heap.setSize_size_of_ne _ _ _ apart, lower, Heap.setSize_size_self, Heap.setPtr_ptr_self]

end FreeWrites

section Freeing

variable {base start : Nat} {h : Heap} {pre post : List (Nat × Bool)} {bp : Nat}

@[simp] theorem Heap.next_freep (q : Nat) : ({ h with freep := q } : Heap).next = h.next := rfl
@[simp] theorem Heap.len_freep (q : Nat) : ({ h with freep := q } : Heap).len = h.len := rfl
@[simp] theorem Heap.next_sz (n : Nat) : ({ h with sz := n } : Heap).next = h.next := rfl
@[simp] theorem Heap.len_sz (n : Nat) : ({ h with sz := n } : Heap).len = h.len := rfl

theorem apart_between {l₁ l₂ : List (Nat × Bool)} {x : Nat} (before : l₁.IsChain NotBothFree)
    (after : l₂.IsChain NotBothFree) (heldBefore : ∀ y ∈ l₁.getLast?, y.2 = false)
    (heldAfter : ∀ y ∈ l₂.head?, y.2 = false) : (l₁ ++ (x, true) :: l₂).IsChain NotBothFree := by
  refine List.isChain_append.mpr ⟨before, ?_, fun y last z first => ?_⟩
  · cases l₂ with
    | nil => exact List.isChain_singleton _
    | cons z l₂ =>
        refine List.isChain_cons_cons.mpr ⟨fun both => ?_, after⟩
        simp [heldAfter z (by simp)] at both
  · simp only [List.head?_cons, Option.mem_def, Option.some.injEq] at first
    subst first
    simp [NotBothFree, heldBefore y last]

theorem Shape.ring_around (shape : Shape base start h (pre ++ (bp, false) :: post)) {l₁ : List Nat} {p : Nat}
    (last : base :: frees pre = l₁ ++ [p]) :
    Linked h.next (l₁ ++ p :: (frees post ++ [base])) ∧ (l₁ ++ p :: frees post).Nodup ∧
      bp ∉ l₁ ++ p :: frees post ∧ p < bp := by
  have circuit := shape.circuit
  have nodup := shape.ring_nodup
  have blocksNodup := shape.blocks_nodup
  simp only [frees_append, frees_cons_held] at circuit nodup
  rw [Circuit, ← List.cons_append, last] at circuit
  rw [← List.cons_append, last] at nodup
  simp only [List.append_assoc, List.singleton_append] at circuit nodup
  simp only [List.map_append, List.map_cons] at blocksNodup
  have notPre : bp ∉ pre.map (·.1) := fun mem => (List.nodup_middle.mp blocksNodup |> List.nodup_cons.mp).1
    (List.mem_append_left _ mem)
  have notPost : bp ∉ post.map (·.1) := fun mem => (List.nodup_middle.mp blocksNodup |> List.nodup_cons.mp).1
    (List.mem_append_right _ mem)
  have baseBp : base < bp := shape.base_lt (by simp)
  refine ⟨circuit, nodup, fun mem => ?_, ?_⟩
  · rw [← List.singleton_append, ← List.append_assoc, ← last, List.cons_append, List.mem_cons, List.mem_append] at mem
    rcases mem with same | inPre | inPost
    · omega
    · exact notPre (mem_map_of_mem_frees inPre)
    · exact notPost (mem_map_of_mem_frees inPost)
  · have pMem : p ∈ base :: frees pre := by rw [last]; simp
    rcases List.mem_cons.mp pMem with same | inside
    · omega
    · exact shape.around.1 p (mem_map_of_mem_frees inside)

theorem Shape.free_link (shape : Shape base start h (pre ++ (bp, false) :: post)) {l₁ : List Nat} {p : Nat}
    (last : base :: frees pre = l₁ ++ [p]) (heldBefore : ∀ y ∈ pre.getLast?, y.2 = false)
    (heldAfter : ∀ y ∈ post.head?, y.2 = false) :
    Shape base start { (h.setPtr bp (h.hdr p).ptr).setPtr p bp with freep := p } (pre ++ (bp, true) :: post) ∧
      (h.hdr bp).size ≤ (({ (h.setPtr bp (h.hdr p).ptr).setPtr p bp with freep := p } : Heap).hdr bp).size := by
  obtain ⟨linked, nodup, fresh, pBelow⟩ := shape.ring_around last
  obtain ⟨chainPre, chainRest, -⟩ := List.isChain_append.mp shape.apart
  obtain ⟨q, l₂, wrap⟩ : ∃ q l₂, frees post ++ [base] = q :: l₂ := List.exists_cons_of_ne_nil (by simp)
  have rest : (q :: l₂).dropLast = frees post := by rw [← wrap, List.dropLast_concat]
  rw [wrap] at linked
  have link : h.next p = q := (linked_append_cons_cons.mp linked).2.1
  have pOnce := List.nodup_middle.mp nodup
  refine ⟨⟨shape.nonzero, shape.low, shape.limit, ?_, apart_between chainPre chainRest.tail heldBefore heldAfter,
    ?_, by simp [shape.baseSize], ?_⟩, by simp⟩
  · rw [Heap.len_freep, Heap.len_setPtr, Heap.len_setPtr]
    simpa using shape.tiles
  · have inserted := linked.insert (b := bp) (ne_of_gt pBelow)
      ⟨fun mem => (List.nodup_cons.mp pOnce).1 (List.mem_append_left _ mem),
        fun mem => (List.nodup_cons.mp pOnce).1 (List.mem_append_right _ (rest ▸ mem))⟩
      ⟨fun mem => fresh (List.mem_append_left _ mem), fun mem => fresh (by simp [rest ▸ mem])⟩
    have reshaped : base :: frees (pre ++ (bp, true) :: post) ++ [base] = l₁ ++ p :: bp :: q :: l₂ := by
      rw [← wrap, frees_append, frees_cons_free, ← List.cons_append, last]
      simp only [List.append_assoc, List.cons_append, List.nil_append]
    rw [Circuit, reshaped, Heap.next_freep, Heap.next_setPtr, Heap.next_setPtr, show (h.hdr p).ptr = q from link]
    exact inserted
  · rw [frees_append, frees_cons_free, ← List.cons_append, last]
    simp

theorem Shape.neighbours {blocks : List (Nat × Bool)} {a b : Nat} {f g : Bool}
    (shape : Shape base start h blocks) (l₁ l₂ : List (Nat × Bool)) (split : blocks = l₁ ++ (a, f) :: (b, g) :: l₂) :
    b = a + h.len a ∧ b + h.len b ≤ h.sz := by
  have tiles := shape.tiles
  rw [split, List.map_append] at tiles
  obtain ⟨mid, -, rfl, -, next, -, rest⟩ := tiles_append.mp tiles
  exact ⟨next, rest.le⟩

theorem Shape.free_join_upper {c : Nat} (shape : Shape base start h (pre ++ (bp, false) :: (c, true) :: post))
    {l₁ : List Nat} {p : Nat} (last : base :: frees pre = l₁ ++ [p]) (heldBefore : ∀ y ∈ pre.getLast?, y.2 = false) :
    Shape base start { ((h.setSize bp ((h.hdr bp).size + (h.hdr c).size)).setPtr bp (h.hdr c).ptr).setPtr p bp with
      freep := p } (pre ++ (bp, true) :: post) ∧
      (h.hdr bp).size ≤ (({ ((h.setSize bp ((h.hdr bp).size + (h.hdr c).size)).setPtr bp (h.hdr c).ptr).setPtr p bp with
        freep := p } : Heap).hdr bp).size := by
  obtain ⟨linked, nodup, fresh, pBelow⟩ := shape.ring_around last
  obtain ⟨chainPre, chainRest, -⟩ := List.isChain_append.mp shape.apart
  obtain ⟨r, l₂, wrap⟩ : ∃ r l₂, frees post ++ [base] = r :: l₂ := List.exists_cons_of_ne_nil (by simp)
  have rest : (r :: l₂).dropLast = frees post := by rw [← wrap, List.dropLast_concat]
  simp only [frees_cons_free, List.cons_append] at linked nodup fresh
  rw [wrap] at linked
  have link : h.next c = r := (linked_cons_cons.mp (linked_append_cons_cons.mp linked).2.2).1
  have pOnce := (List.nodup_cons.mp (List.nodup_middle.mp nodup)).1
  obtain ⟨adjacent, ends⟩ := shape.neighbours pre post rfl
  have sum : (h.hdr bp).size + (h.hdr c).size < 2 ^ 32 := by
    have := shape.limit
    simp only [Heap.len, hdrSize, physLimit] at adjacent ends this
    omega
  have bpOnce : bp ∉ pre.map (·.1) ++ post.map (·.1) := by
    have := shape.blocks_nodup
    simp only [List.map_append, List.map_cons] at this
    exact fun mem => (List.nodup_cons.mp (List.nodup_middle.mp this)).1 (by simp at mem ⊢; tauto)
  refine ⟨⟨shape.nonzero, shape.low, shape.limit, ?_, ?_, ?_, ?_, ?_⟩, ?_⟩
  · -- `bp` and `c` become one block
    rw [Heap.len_freep, Heap.len_setPtr, Heap.len_setPtr, Heap.len_setSize, Nat.mod_eq_of_lt sum]
    have tiles := shape.tiles
    simp only [List.map_append, List.map_cons] at tiles ⊢
    refine tiles.merge (by simp [Heap.len, Nat.mul_add]) fun x mem => ?_
    exact Function.update_of_ne (fun (same : x = bp) => bpOnce (same ▸ mem)) _ _
  · refine apart_between chainPre chainRest.tail.tail heldBefore fun y first => ?_
    cases post with
    | nil => cases first
    | cons z post =>
        simp only [List.head?_cons, Option.mem_def, Option.some.injEq] at first
        subst first
        have both := (List.isChain_cons_cons.mp chainRest.tail).1
        simpa [NotBothFree] using both
  · have replaced := linked.replace (b := bp) (ne_of_gt pBelow)
      ⟨fun mem => pOnce (List.mem_append_left _ mem), fun mem => pOnce (by simp [rest ▸ mem])⟩
      ⟨fun mem => fresh (List.mem_append_left _ mem), fun mem => fresh (by simp [rest ▸ mem])⟩
    have reshaped : base :: frees (pre ++ (bp, true) :: post) ++ [base] = l₁ ++ p :: bp :: r :: l₂ := by
      rw [← wrap, frees_append, frees_cons_free, ← List.cons_append, last]
      simp only [List.append_assoc, List.cons_append, List.nil_append]
    rw [Circuit, reshaped, Heap.next_freep, Heap.next_setPtr, Heap.next_setPtr, Heap.next_setSize,
      show (h.hdr c).ptr = r from link]
    exact replaced
  · have baseBp : base ≠ bp := ne_of_lt (shape.base_lt (by simp))
    simp [Heap.setSize_size_of_ne _ _ _ baseBp, shape.baseSize]
  · rw [frees_append, frees_cons_free, ← List.cons_append, last]
    simp
  · have grows : (h.hdr bp).size ≤ ((h.hdr bp).size + (h.hdr c).size) % 2 ^ 32 := by
      rw [Nat.mod_eq_of_lt sum]
      omega
    simpa using grows

theorem held_before {x : Nat × Bool} (chain : (pre ++ [x]).IsChain NotBothFree) (free : x.2 = true) :
    ∀ y ∈ pre.getLast?, y.2 = false := by
  intro y last
  have link := (List.isChain_append.mp chain).2.2 y last x (by simp)
  simpa [NotBothFree, free] using link

theorem held_after {x : Nat × Bool} (chain : (x :: post).IsChain NotBothFree) (free : x.2 = true) :
    ∀ y ∈ post.head?, y.2 = false := by
  intro y first
  cases post with
  | nil => cases first
  | cons z post =>
      simp only [List.head?_cons, Option.mem_def, Option.some.injEq] at first
      subst first
      simpa [NotBothFree, free] using (List.isChain_cons_cons.mp chain).1

theorem Shape.free_join_lower {a : Nat} (shape : Shape base start h ((pre ++ [(a, true)]) ++ (bp, false) :: post))
    (heldAfter : ∀ y ∈ post.head?, y.2 = false) :
    Shape base start { ((h.setPtr bp (h.hdr a).ptr).setSize a ((h.hdr a).size + (h.hdr bp).size)).setPtr a
      (h.hdr a).ptr with freep := a } (pre ++ (a, true) :: post) ∧
      (h.hdr bp).size ≤ (({ ((h.setPtr bp (h.hdr a).ptr).setSize a ((h.hdr a).size + (h.hdr bp).size)).setPtr a
        (h.hdr a).ptr with freep := a } : Heap).hdr a).size := by
  have last : base :: frees (pre ++ [(a, true)]) = (base :: frees pre) ++ [a] := by simp
  obtain ⟨-, -, fresh, -⟩ := shape.ring_around last
  obtain ⟨chainPre, chainRest, -⟩ := List.isChain_append.mp shape.apart
  obtain ⟨adjacent, ends⟩ := shape.neighbours pre post (a := a) (b := bp) (f := true) (g := false)
    (by simp)
  have sum : (h.hdr a).size + (h.hdr bp).size < 2 ^ 32 := by
    have := shape.limit
    simp only [Heap.len, hdrSize, physLimit] at adjacent ends this
    omega
  have aOnce : a ∉ pre.map (·.1) ++ post.map (·.1) := by
    have := shape.blocks_nodup
    simp only [List.map_append, List.map_cons, List.append_assoc, List.singleton_append] at this
    exact fun mem => (List.nodup_cons.mp (List.nodup_middle.mp this)).1 (by simp at mem ⊢; tauto)
  have aBase : base ≠ a := ne_of_lt (shape.base_lt (by simp))
  have bpBase : base ≠ bp := ne_of_lt (shape.base_lt (by simp))
  refine ⟨⟨shape.nonzero, shape.low, shape.limit, ?_, ?_, ?_, ?_, ?_⟩, ?_⟩
  · -- `a` and `bp` become one block
    rw [Heap.len_freep, Heap.len_setPtr, Heap.len_setSize, Heap.len_setPtr, Nat.mod_eq_of_lt sum]
    have tiles := shape.tiles
    simp only [List.map_append, List.map_cons, List.append_assoc, List.singleton_append] at tiles ⊢
    refine tiles.merge (by simp [Heap.len, Nat.mul_add]) fun x mem => ?_
    exact Function.update_of_ne (fun (same : x = a) => aOnce (same ▸ mem)) _ _
  · exact apart_between chainPre.left_of_append chainRest.tail (held_before chainPre rfl) heldAfter
  · -- the free list has the same nodes, and only `bp`, not on it, points elsewhere
    have circuit := shape.circuit
    have sameList : frees (pre ++ (a, true) :: post) = frees ((pre ++ [(a, true)]) ++ (bp, false) :: post) := by simp
    rw [Circuit, sameList]
    refine circuit.frame fun x mem => ?_
    rw [Heap.next_freep, Heap.next_setPtr, Heap.next_setSize, Heap.next_setPtr]
    by_cases same : x = a
    · subst same
      simp [Heap.next]
    · have notBp : x ≠ bp := by
        rintro rfl
        rw [List.dropLast_concat] at mem
        apply fresh
        simpa using mem
      rw [Function.update_of_ne same, Function.update_of_ne notBp]
  · simp [Heap.setSize_size_of_ne _ _ _ aBase, shape.baseSize]
  · simp
  · have grows : (h.hdr bp).size ≤ ((h.hdr a).size + (h.hdr bp).size) % 2 ^ 32 := by
      rw [Nat.mod_eq_of_lt sum]
      omega
    simpa using grows

theorem Shape.free_join_both {a c : Nat}
    (shape : Shape base start h ((pre ++ [(a, true)]) ++ (bp, false) :: (c, true) :: post)) :
    Shape base start { ((((h.setSize bp ((h.hdr bp).size + (h.hdr c).size)).setPtr bp (h.hdr c).ptr).setSize a
      ((h.hdr a).size + ((h.hdr bp).size + (h.hdr c).size) % 2 ^ 32)).setPtr a (h.hdr c).ptr) with freep := a }
      (pre ++ (a, true) :: post) ∧
      (h.hdr bp).size ≤ (({ ((((h.setSize bp ((h.hdr bp).size + (h.hdr c).size)).setPtr bp (h.hdr c).ptr).setSize a
        ((h.hdr a).size + ((h.hdr bp).size + (h.hdr c).size) % 2 ^ 32)).setPtr a (h.hdr c).ptr) with freep := a } :
        Heap).hdr a).size := by
  have last : base :: frees (pre ++ [(a, true)]) = (base :: frees pre) ++ [a] := by simp
  obtain ⟨linked, nodup, fresh, -⟩ := shape.ring_around last
  obtain ⟨chainPre, chainRest, -⟩ := List.isChain_append.mp shape.apart
  obtain ⟨r, l₂, wrap⟩ : ∃ r l₂, frees post ++ [base] = r :: l₂ := List.exists_cons_of_ne_nil (by simp)
  have rest : (r :: l₂).dropLast = frees post := by rw [← wrap, List.dropLast_concat]
  generalize ring : base :: frees pre = l₁ at linked nodup fresh
  simp only [frees_cons_free, List.cons_append] at linked nodup fresh
  rw [wrap] at linked
  have link : h.next c = r := (linked_cons_cons.mp (linked_append_cons_cons.mp linked).2.2).1
  have aOnce := (List.nodup_cons.mp (List.nodup_middle.mp nodup)).1
  obtain ⟨adjacentBp, -⟩ := shape.neighbours pre ((c, true) :: post) (a := a) (b := bp) (f := true)
    (g := false) (by simp)
  obtain ⟨adjacentC, ends⟩ := shape.neighbours (pre ++ [(a, true)]) post (a := bp) (b := c) (f := false)
    (g := true) rfl
  have sum : (h.hdr a).size + ((h.hdr bp).size + (h.hdr c).size) < 2 ^ 32 := by
    have := shape.limit
    simp only [Heap.len, hdrSize, physLimit] at adjacentBp adjacentC ends this
    omega
  -- the blocks in address order: those of `pre`, `a`, `bp`, `c`, those of `post`
  have sorted := shape.tiles.sorted
  simp only [List.map_append, List.map_cons, List.append_assoc, List.singleton_append] at sorted
  obtain ⟨-, sortedRest, preBelow⟩ := List.pairwise_append.mp sorted
  have aBp : a < bp := List.rel_of_pairwise_cons sortedRest (by simp)
  have bpC : bp < c := List.rel_of_pairwise_cons sortedRest.of_cons (by simp)
  have postAbove : ∀ x ∈ post.map (·.1), c < x := fun x mem =>
    List.rel_of_pairwise_cons sortedRest.of_cons.of_cons mem
  have aBase : base ≠ a := ne_of_lt (shape.base_lt (by simp))
  have bpBase : base ≠ bp := ne_of_lt (shape.base_lt (by simp))
  refine ⟨⟨shape.nonzero, shape.low, shape.limit, ?_, ?_, ?_, ?_, ?_⟩, ?_⟩
  · -- `bp` and `c` become one block, then `a` and that one
    have lens : ({ ((((h.setSize bp ((h.hdr bp).size + (h.hdr c).size)).setPtr bp (h.hdr c).ptr).setSize a
        ((h.hdr a).size + ((h.hdr bp).size + (h.hdr c).size) % 2 ^ 32)).setPtr a (h.hdr c).ptr) with freep := a } :
        Heap).len = Function.update (Function.update h.len bp (h.len bp + h.len c)) a
          (h.len a + (h.len bp + h.len c)) := by
      rw [Heap.len_freep, Heap.len_setPtr, Heap.len_setSize, Heap.len_setPtr, Heap.len_setSize,
        Nat.mod_eq_of_lt (by omega), Nat.mod_eq_of_lt sum]
      simp [Heap.len, Nat.mul_add]
    have tiles := shape.tiles
    simp only [List.map_append, List.map_cons, List.append_assoc, List.singleton_append] at tiles
    have first : Tiles (Function.update h.len bp (h.len bp + h.len c)) start h.sz
        ((pre.map (·.1) ++ [a]) ++ bp :: post.map (·.1)) :=
      (show Tiles h.len start h.sz ((pre.map (·.1) ++ [a]) ++ bp :: c :: post.map (·.1)) by
        simpa using tiles).merge (by simp) fun x mem => by
          have : x ≠ bp := by
            simp only [List.mem_append, List.mem_singleton] at mem
            rcases mem with (inPre | rfl) | inPost
            · exact ne_of_lt (lt_trans (preBelow x inPre a List.mem_cons_self) aBp)
            · exact ne_of_lt aBp
            · exact ne_of_gt (lt_trans bpC (postAbove x inPost))
          exact Function.update_of_ne this _ _
    have second : Tiles (Function.update (Function.update h.len bp (h.len bp + h.len c)) a
        (h.len a + (h.len bp + h.len c))) start h.sz (pre.map (·.1) ++ a :: post.map (·.1)) :=
      (show Tiles (Function.update h.len bp (h.len bp + h.len c)) start h.sz
        (pre.map (·.1) ++ a :: bp :: post.map (·.1)) by simpa using first).merge
        (by simp [Function.update_of_ne (ne_of_lt aBp)]) fun x mem => by
          have : x ≠ a := by
            simp only [List.mem_append] at mem
            rcases mem with inPre | inPost
            · exact ne_of_lt (preBelow x inPre a List.mem_cons_self)
            · exact ne_of_gt (lt_trans (lt_trans aBp bpC) (postAbove x inPost))
          exact Function.update_of_ne this _ _
    rw [lens]
    simpa using second
  · exact apart_between chainPre.left_of_append chainRest.tail.tail (held_before chainPre rfl)
      (held_after chainRest.tail rfl)
  · -- `c` leaves the free list; `bp`, not on it, points past `c` too
    have erased := linked.erase (p := a) ⟨fun mem => aOnce (List.mem_append_left _ mem),
      fun mem => aOnce (by simp [rest ▸ mem])⟩
    have reshaped : base :: frees (pre ++ (a, true) :: post) ++ [base] = l₁ ++ a :: r :: l₂ := by
      rw [← wrap, frees_append, frees_cons_free, ← List.cons_append, ring]
      simp only [List.append_assoc, List.cons_append]
    rw [Circuit, reshaped]
    refine erased.frame fun x mem => ?_
    rw [Heap.next_freep, Heap.next_setPtr, Heap.next_setSize, Heap.next_setPtr, Heap.next_setSize,
      show (h.hdr c).ptr = r from link]
    by_cases same : x = a
    · subst same
      simp
    · have notBp : x ≠ bp := by
        rintro rfl
        rw [List.dropLast_append_cons, List.dropLast_cons_cons, rest] at mem
        apply fresh
        simp only [List.mem_append, List.mem_cons] at mem ⊢
        tauto
      rw [Function.update_of_ne same, Function.update_of_ne same, Function.update_of_ne notBp]
  · simp [Heap.setSize_size_of_ne _ _ _ aBase, Heap.setSize_size_of_ne _ _ _ bpBase, shape.baseSize]
  · simp
  · have grows : (h.hdr bp).size ≤ ((h.hdr a).size + ((h.hdr bp).size + (h.hdr c).size) % 2 ^ 32) % 2 ^ 32 := by
      rw [Nat.mod_eq_of_lt (by omega : (h.hdr bp).size + (h.hdr c).size < 2 ^ 32), Nat.mod_eq_of_lt sum]
      omega
    simpa using grows

theorem last_eq {l l' : List Nat} {x y : Nat} (same : l ++ [x] = l' ++ [y]) : x = y ∧ l = l' := by
  obtain ⟨front, back⟩ := List.append_inj' same rfl
  exact ⟨List.singleton_inj.mp back, front⟩

theorem Shape.sorted_around {x : Nat} {f : Bool} (shape : Shape base start h (pre ++ (x, f) :: post)) :
    (∀ y ∈ pre.map (·.1), y < x) ∧ ∀ y ∈ post.map (·.1), x < y := by
  have sorted := shape.tiles.sorted
  simp only [List.map_append, List.map_cons] at sorted
  obtain ⟨-, after, before⟩ := List.pairwise_append.mp sorted
  exact ⟨fun y mem => before y mem x List.mem_cons_self, fun y mem => List.rel_of_pairwise_cons after mem⟩

theorem Shape.upper_cases (shape : Shape base start h (pre ++ (bp, false) :: post)) {l₁ : List Nat} {p : Nat}
    (last : base :: frees pre = l₁ ++ [p]) :
    (∃ post', post = (bp + h.len bp, true) :: post' ∧ (h.hdr p).ptr = bp + h.len bp) ∨
      (¬ bp + hdrSize * (h.hdr bp).size = (h.hdr p).ptr ∧ ∀ y ∈ post.head?, y.2 = false) := by
  obtain ⟨linked, -, -, -⟩ := shape.ring_around last
  have baseBp : base < bp := shape.base_lt (by simp)
  cases post with
  | nil =>
      have link : h.next p = base := (linked_append_cons_cons.mp linked).2.1
      exact Or.inr ⟨fun same => by simp only [Heap.next] at link; omega, by simp⟩
  | cons next post =>
      obtain ⟨c, g⟩ := next
      obtain ⟨adjacent, -⟩ := shape.neighbours pre post rfl
      cases g with
      | true =>
          simp only [frees_cons_free, List.cons_append] at linked
          have link : h.next p = c := (linked_append_cons_cons.mp linked).2.1
          exact Or.inl ⟨post, by rw [adjacent], by rw [← adjacent]; exact link⟩
      | false =>
          simp only [frees_cons_held] at linked
          obtain ⟨q, l₂, wrap⟩ : ∃ q l₂, frees post ++ [base] = q :: l₂ := List.exists_cons_of_ne_nil (by simp)
          rw [wrap] at linked
          have link : h.next p = q := (linked_append_cons_cons.mp linked).2.1
          have beyond : q = base ∨ c < q := by
            have mem : q ∈ frees post ++ [base] := by rw [wrap]; exact List.mem_cons_self
            rcases List.mem_append.mp mem with inPost | isBase
            · have shifted : Shape base start h ((pre ++ [(bp, false)]) ++ (c, false) :: post) := by
                simpa using shape
              exact Or.inr (shifted.sorted_around.2 q (mem_map_of_mem_frees inPost))
            · exact Or.inl (List.mem_singleton.mp isBase)
          refine Or.inr ⟨fun same => ?_, by simp⟩
          simp only [Heap.next, Heap.len] at link adjacent
          rcases beyond with isBase | above <;> omega

theorem Shape.lower_cases (shape : Shape base start h (pre ++ (bp, false) :: post)) {l₁ : List Nat} {p : Nat}
    (last : base :: frees pre = l₁ ++ [p]) :
    (∃ pre', pre = pre' ++ [(p, true)] ∧ p + hdrSize * (h.hdr p).size = bp) ∨
      (¬ p + hdrSize * (h.hdr p).size = bp ∧ ∀ y ∈ pre.getLast?, y.2 = false) := by
  have baseBp : base < bp := shape.base_lt (by simp)
  -- `base` has no bytes, so it never joins
  have notBase : p = base → ¬ p + hdrSize * (h.hdr p).size = bp := by
    rintro rfl same
    rw [shape.baseSize] at same
    omega
  rcases List.eq_nil_or_concat pre with rfl | ⟨pre', ⟨a, g⟩, split⟩
  · have isBase : p = base := (last_eq (l := []) (x := base) (by simpa using last)).1.symm
    exact Or.inr ⟨notBase isBase, by simp⟩
  · rw [List.concat_eq_append] at split
    subst split
    obtain ⟨adjacent, -⟩ := shape.neighbours pre' post (a := a) (b := bp) (f := g) (g := false)
      (by simp)
    cases g with
    | true =>
        have isA : a = p := (last_eq (l := base :: frees pre') (x := a) (by simpa using last)).1
        subst isA
        exact Or.inl ⟨pre', rfl, by simp only [Heap.len] at adjacent; omega⟩
    | false =>
        refine Or.inr ⟨fun same => ?_, by simp⟩
        have pMem : p ∈ base :: frees pre' := by
          have : base :: frees pre' = l₁ ++ [p] := by simpa using last
          rw [this]
          simp
        rcases List.mem_cons.mp pMem with isBase | inside
        · exact notBase isBase same
        · -- a held block `a` lies between `p` and `bp`
          have shifted : Shape base start h (pre' ++ (a, false) :: (bp, false) :: post) := by simpa using shape
          have around := shifted.sorted_around
          have pA := around.1 p (mem_map_of_mem_frees inside)
          have aBp := around.2 bp (by simp)
          have ends := shape.tiles.apart p (by simp [mem_map_of_mem_frees inside]) a (by simp) pA
          simp only [Heap.len] at ends adjacent
          omega

/-- `free` of a held block `bp`: its search stops at the last free block before
`bp`, or at `base`, and the heap keeps its shape, with `bp` no longer held and
its bytes inside a free block. -/
theorem Shape.free_shape (shape : Shape base start h (pre ++ (bp, false) :: post)) {fuel : Nat}
    (enough : (base :: frees (pre ++ (bp, false) :: post)).length ≤ fuel) :
    ∃ h' blocks', free fuel h (bp + hdrSize) = .ok h' ∧ Shape base start h' blocks' ∧ h'.sz = h.sz ∧
      lives blocks' = lives pre ++ lives post ∧ ∃ a ∈ frees blocks', (h.hdr bp).size ≤ (h'.hdr a).size := by
  obtain ⟨l₁, p, last⟩ : ∃ l₁ p, base :: frees pre = l₁ ++ [p] :=
    ⟨_, _, (List.dropLast_append_getLast (List.cons_ne_nil _ _)).symm⟩
  obtain ⟨stops, only⟩ := shape.free_place last
  have onRing : p ∈ base :: frees (pre ++ (bp, false) :: post) := by
    have : p ∈ base :: frees pre := by rw [last]; simp
    rw [frees_append, ← List.cons_append]
    exact List.mem_append_left _ this
  have found := freeLoop_circuit shape.circuit shape.freep onRing stops only enough
  have pBp : p ≠ bp := ne_of_lt (shape.ring_around last).2.2.2
  -- which of the two joins `free` makes is which neighbours of `bp` are free
  rcases shape.lower_cases last with ⟨pre', rfl, lower⟩ | ⟨lower, heldBefore⟩ <;>
    rcases shape.upper_cases last with ⟨post', rfl, upper⟩ | ⟨upper, heldAfter⟩
  · have written := free_eq_join_both found pBp upper.symm lower
    rw [upper] at written
    obtain ⟨shape', grows⟩ := shape.free_join_both
    exact ⟨_, _, written, shape', by simp, by simp, p, by simp, grows⟩
  · obtain ⟨shape', grows⟩ := shape.free_join_lower heldAfter
    exact ⟨_, _, free_eq_join_lower found upper lower, shape', by simp, by simp, p, by simp, grows⟩
  · have written := free_eq_join_upper found pBp upper.symm lower
    rw [upper] at written
    obtain ⟨shape', grows⟩ := shape.free_join_upper last heldBefore
    exact ⟨_, _, written, shape', by simp, by simp, bp, by simp, grows⟩
  · obtain ⟨shape', grows⟩ := shape.free_link last heldBefore heldAfter
    exact ⟨_, _, free_eq_link found upper lower, shape', by simp, by simp, bp, by simp, grows⟩

end Freeing

end Xv6.Umalloc
