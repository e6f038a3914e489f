import Mathlib

/-!
The two structures a first-fit allocator in the style of Kernighan and Ritchie
keeps in the memory it manages, over any addresses and sizes:

* `Tiles len lo hi bs`: the blocks `bs`, in address order, cut `[lo, hi)` into
  consecutive pieces, block `a` covering the `len a > 0` bytes from `a`;
* `Circuit next head xs`: `next` leads from `head` through the nodes `xs` and
  back to `head`, as a circular singly linked list with a sentinel does.

Splicing a node in after another, replacing the node after one, and taking it
out act on the list of nodes as list operations do (`Linked.insert`,
`Linked.replace`, `Linked.erase`), and a walk along `next` from any node of a
circuit meets each of its nodes within its length (`Circuit.reach`). Merging
two neighbouring blocks, cutting one in two, and adding one at the end keep a
tiling (`Tiles.merge`, `Tiles.split`, `Tiles.extend`).
-/

namespace FreeList

section Linked

variable {ν : Type} {next next' : ν → ν}

/-- `next` leads from each node of `l` to the one after it. -/
def Linked (next : ν → ν) (l : List ν) : Prop := l.IsChain fun a b => next a = b

@[simp] theorem linked_nil : Linked next [] := List.isChain_nil

@[simp] theorem linked_singleton (a : ν) : Linked next [a] := List.isChain_singleton a

@[simp] theorem linked_cons_cons {a b : ν} {l : List ν} :
    Linked next (a :: b :: l) ↔ next a = b ∧ Linked next (b :: l) := List.isChain_cons_cons

theorem linked_append_cons_cons {l₁ l₂ : List ν} {t u : ν} :
    Linked next (l₁ ++ t :: u :: l₂) ↔ Linked next (l₁ ++ [t]) ∧ next t = u ∧ Linked next (u :: l₂) := by
  rw [show l₁ ++ t :: u :: l₂ = (l₁ ++ [t]) ++ u :: l₂ by simp, Linked, List.isChain_append]
  simp only [List.getLast?_concat, List.head?_cons, Option.mem_def, Option.some.injEq, forall_eq']
  exact ⟨fun ⟨before, after, link⟩ => ⟨before, link, after⟩, fun ⟨before, link, after⟩ => ⟨before, after, link⟩⟩

/-- A list stays linked under a `next` that agrees on its nodes but the last. -/
theorem Linked.frame : ∀ {l : List ν}, Linked next l → (∀ x ∈ l.dropLast, next' x = next x) → Linked next' l
  | [], _, _ => linked_nil
  | [a], _, _ => linked_singleton a
  | a :: b :: l, linked, same => by
      rw [linked_cons_cons] at linked ⊢
      refine ⟨(same a (by simp)).trans linked.1, linked.2.frame fun x mem => same x ?_⟩
      rw [List.dropLast_cons_cons]
      exact List.mem_cons_of_mem a mem

theorem Linked.next_rel {R : ν → ν → Prop} : ∀ {l : List ν}, Linked next l → l.Pairwise R →
    ∀ x ∈ l.dropLast, next x ∈ l ∧ R x (next x)
  | [], _, _, x, mem => absurd mem (by simp)
  | [_], _, _, x, mem => absurd mem (by simp)
  | a :: b :: l, linked, ordered, x, mem => by
      rw [linked_cons_cons] at linked
      rw [List.dropLast_cons_cons, List.mem_cons] at mem
      rcases mem with rfl | later
      · rw [linked.1]
        exact ⟨by simp, List.rel_of_pairwise_cons ordered List.mem_cons_self⟩
      · obtain ⟨inside, rel⟩ := linked.2.next_rel ordered.of_cons x later
        exact ⟨List.mem_cons_of_mem a inside, rel⟩

section Splice

variable [DecidableEq ν] {l₁ l₂ : List ν} {p q b : ν}

theorem frame_front (linked : Linked next (l₁ ++ [p])) (notP : p ∉ l₁) (notB : b ∉ l₁) (v w : ν) :
    Linked (Function.update (Function.update next b v) p w) (l₁ ++ [p]) := by
  refine linked.frame fun x mem => ?_
  rw [List.dropLast_concat] at mem
  have xp : x ≠ p := fun same => notP (same ▸ mem)
  have xb : x ≠ b := fun same => notB (same ▸ mem)
  rw [Function.update_of_ne xp, Function.update_of_ne xb]

theorem frame_back (linked : Linked next (q :: l₂)) (notP : p ∉ (q :: l₂).dropLast)
    (notB : b ∉ (q :: l₂).dropLast) (v w : ν) :
    Linked (Function.update (Function.update next b v) p w) (q :: l₂) := by
  refine linked.frame fun x mem => ?_
  have xp : x ≠ p := fun same => notP (same ▸ mem)
  have xb : x ≠ b := fun same => notB (same ▸ mem)
  rw [Function.update_of_ne xp, Function.update_of_ne xb]

theorem Linked.insert (linked : Linked next (l₁ ++ p :: q :: l₂)) (apart : b ≠ p)
    (notP : p ∉ l₁ ∧ p ∉ (q :: l₂).dropLast) (notB : b ∉ l₁ ∧ b ∉ (q :: l₂).dropLast) :
    Linked (Function.update (Function.update next b q) p b) (l₁ ++ p :: b :: q :: l₂) := by
  obtain ⟨before, -, after⟩ := linked_append_cons_cons.mp linked
  rw [linked_append_cons_cons, linked_cons_cons]
  refine ⟨frame_front before notP.1 notB.1 q b, by simp, ?_, frame_back after notP.2 notB.2 q b⟩
  rw [Function.update_of_ne apart, Function.update_self]

theorem Linked.replace {c r : ν} (linked : Linked next (l₁ ++ p :: c :: r :: l₂)) (apart : b ≠ p)
    (notP : p ∉ l₁ ∧ p ∉ (r :: l₂).dropLast) (notB : b ∉ l₁ ∧ b ∉ (r :: l₂).dropLast) :
    Linked (Function.update (Function.update next b r) p b) (l₁ ++ p :: b :: r :: l₂) := by
  obtain ⟨before, -, after⟩ := linked_append_cons_cons.mp linked
  rw [linked_cons_cons] at after
  rw [linked_append_cons_cons, linked_cons_cons]
  refine ⟨frame_front before notP.1 notB.1 r b, by simp, ?_, frame_back after.2 notP.2 notB.2 r b⟩
  rw [Function.update_of_ne apart, Function.update_self]

theorem Linked.erase {c r : ν} (linked : Linked next (l₁ ++ p :: c :: r :: l₂))
    (notP : p ∉ l₁ ∧ p ∉ (r :: l₂).dropLast) :
    Linked (Function.update next p r) (l₁ ++ p :: r :: l₂) := by
  obtain ⟨before, -, after⟩ := linked_append_cons_cons.mp linked
  rw [linked_cons_cons] at after
  rw [linked_append_cons_cons]
  refine ⟨before.frame fun x mem => ?_, by simp, after.2.frame fun x mem => ?_⟩
  · rw [List.dropLast_concat] at mem
    exact Function.update_of_ne (fun (same : x = p) => notP.1 (same ▸ mem)) _ _
  · exact Function.update_of_ne (fun (same : x = p) => notP.2 (same ▸ mem)) _ _

end Splice

end Linked

section Circuit

variable {ν : Type} {next : ν → ν} {head : ν} {xs : List ν}

/-- `next` leads from `head` through `xs` and back to `head`. -/
def Circuit (next : ν → ν) (head : ν) (xs : List ν) : Prop := Linked next (head :: xs ++ [head])

/-- Around a circuit, `next` moves one place on, from the last node to the first. -/
theorem Circuit.next_getElem (circuit : Circuit next head xs) (i : Nat) (below : i < (head :: xs).length) :
    next (head :: xs)[i] = getElem (head :: xs) ((i + 1) % (head :: xs).length) (Nat.mod_lt _ (by simp)) := by
  have step := List.isChain_iff_getElem.mp circuit i (by simp at below ⊢; omega)
  by_cases inner : i + 1 < (head :: xs).length
  · simp only [Nat.mod_eq_of_lt inner]
    rw [List.getElem_append_left below, List.getElem_append_left inner] at step
    exact step
  · have last : i + 1 = (head :: xs).length := by omega
    simp only [last, Nat.mod_self]
    rw [List.getElem_append_left below] at step
    simpa [last] using step

theorem Circuit.iterate (circuit : Circuit next head xs) (i : Nat) (below : i < (head :: xs).length) (j : Nat) :
    next^[j] (head :: xs)[i] = getElem (head :: xs) ((i + j) % (head :: xs).length) (Nat.mod_lt _ (by simp)) := by
  induction j with
  | zero =>
      simp only [Function.iterate_zero, id_eq, Nat.add_zero]
      congr 1
      exact (Nat.mod_eq_of_lt below).symm
  | succ j ih =>
      rw [Function.iterate_succ_apply', ih, circuit.next_getElem _ (Nat.mod_lt _ (by simp))]
      congr 1
      rw [Nat.add_mod, Nat.mod_mod, ← Nat.add_mod, Nat.add_assoc]

theorem Circuit.iterate_mem (circuit : Circuit next head xs) {u : ν} (onIt : u ∈ head :: xs) (j : Nat) :
    next^[j] u ∈ head :: xs := by
  obtain ⟨i, below, rfl⟩ := List.getElem_of_mem onIt
  rw [circuit.iterate i below]
  exact List.getElem_mem _

theorem Circuit.reach (circuit : Circuit next head xs) {u v : ν} (fromU : u ∈ head :: xs)
    (toV : v ∈ head :: xs) : ∃ j < (head :: xs).length, next^[j] u = v := by
  obtain ⟨i, below, rfl⟩ := List.getElem_of_mem fromU
  obtain ⟨m, belowM, rfl⟩ := List.getElem_of_mem toV
  set n := (head :: xs).length
  refine ⟨(m + n - i) % n, Nat.mod_lt _ (by simp [n]), ?_⟩
  rw [circuit.iterate i below]
  congr 1
  rw [Nat.add_mod_mod, show i + (m + n - i) = m + n by omega, Nat.add_mod_right, Nat.mod_eq_of_lt belowM]

theorem Circuit.iterate_length (circuit : Circuit next head xs) {u : ν} (onIt : u ∈ head :: xs) :
    next^[(head :: xs).length] u = u := by
  obtain ⟨i, below, rfl⟩ := List.getElem_of_mem onIt
  rw [circuit.iterate i below]
  congr 1
  rw [Nat.add_mod_right, Nat.mod_eq_of_lt below]

theorem Circuit.iterate_ne (circuit : Circuit next head xs) (nodup : (head :: xs).Nodup) {u : ν}
    (onIt : u ∈ head :: xs) {j : Nat} (pos : 0 < j) (short : j < (head :: xs).length) : next^[j] u ≠ u := by
  obtain ⟨i, below, rfl⟩ := List.getElem_of_mem onIt
  rw [circuit.iterate i below, Ne, nodup.getElem_inj_iff]
  intro back
  have turn : i + j ≡ i + 0 [MOD (head :: xs).length] := by
    rw [Nat.ModEq, Nat.add_zero, Nat.mod_eq_of_lt below]
    exact back
  have := (Nat.ModEq.add_left_cancel' i turn).eq_of_lt_of_lt short (by omega)
  omega

theorem Circuit.next_inj (circuit : Circuit next head xs) (nodup : (head :: xs).Nodup) {u v : ν}
    (onU : u ∈ head :: xs) (onV : v ∈ head :: xs) (same : next u = next v) : u = v := by
  obtain ⟨i, belowI, rfl⟩ := List.getElem_of_mem onU
  obtain ⟨m, belowM, rfl⟩ := List.getElem_of_mem onV
  rw [circuit.next_getElem i belowI, circuit.next_getElem m belowM, nodup.getElem_inj_iff] at same
  rw [nodup.getElem_inj_iff]
  exact (Nat.ModEq.add_right_cancel' 1 same).eq_of_lt_of_lt belowI belowM

end Circuit

section Tiles

variable {len len' : Nat → Nat}

/-- The blocks `bs` cut `[lo, hi)` into consecutive pieces: each starts where
the one before it ends, and none is empty. -/
def Tiles (len : Nat → Nat) : Nat → Nat → List Nat → Prop
  | lo, hi, [] => lo = hi
  | lo, hi, a :: bs => a = lo ∧ 0 < len a ∧ Tiles len (a + len a) hi bs

@[simp] theorem tiles_nil {lo hi : Nat} : Tiles len lo hi [] ↔ lo = hi := Iff.rfl

@[simp] theorem tiles_cons {lo hi a : Nat} {bs : List Nat} :
    Tiles len lo hi (a :: bs) ↔ a = lo ∧ 0 < len a ∧ Tiles len (a + len a) hi bs := Iff.rfl

theorem tiles_append {lo hi : Nat} : ∀ {l₁ l₂ : List Nat},
    Tiles len lo hi (l₁ ++ l₂) ↔ ∃ mid, Tiles len lo mid l₁ ∧ Tiles len mid hi l₂
  | [], l₂ => by simp
  | a :: l₁, l₂ => by
      rw [List.cons_append, tiles_cons, tiles_append]
      constructor
      · rintro ⟨rfl, pos, mid, first, second⟩
        exact ⟨mid, ⟨rfl, pos, first⟩, second⟩
      · rintro ⟨mid, ⟨rfl, pos, first⟩, second⟩
        exact ⟨rfl, pos, mid, first, second⟩

/-- A tiling reads `len` only at its blocks. -/
theorem Tiles.frame : ∀ {lo hi : Nat} {bs : List Nat}, Tiles len lo hi bs → (∀ a ∈ bs, len' a = len a) →
    Tiles len' lo hi bs
  | _, _, [], tiles, _ => tiles
  | _, _, a :: bs, ⟨rfl, pos, rest⟩, same => by
      have here := same a List.mem_cons_self
      refine ⟨rfl, here ▸ pos, ?_⟩
      rw [here]
      exact rest.frame fun b mem => same b (List.mem_cons_of_mem a mem)

theorem Tiles.le : ∀ {lo hi : Nat} {bs : List Nat}, Tiles len lo hi bs → lo ≤ hi
  | _, _, [], tiles => le_of_eq tiles
  | _, _, _ :: _, ⟨rfl, _, rest⟩ => le_trans (Nat.le_add_right _ _) rest.le

theorem Tiles.bounds : ∀ {lo hi : Nat} {bs : List Nat}, Tiles len lo hi bs → ∀ a ∈ bs, lo ≤ a ∧ a + len a ≤ hi
  | _, _, [], _, _, mem => absurd mem List.not_mem_nil
  | _, _, b :: bs, ⟨rfl, _, rest⟩, a, mem => by
      rcases List.mem_cons.mp mem with rfl | later
      · exact ⟨le_refl _, rest.le⟩
      · have := rest.bounds a later
        omega

theorem Tiles.pos : ∀ {lo hi : Nat} {bs : List Nat}, Tiles len lo hi bs → ∀ a ∈ bs, 0 < len a
  | _, _, [], _, _, mem => absurd mem List.not_mem_nil
  | _, _, _ :: _, ⟨rfl, pos, rest⟩, a, mem => by
      rcases List.mem_cons.mp mem with rfl | later
      · exact pos
      · exact rest.pos a later

theorem Tiles.apart : ∀ {lo hi : Nat} {bs : List Nat}, Tiles len lo hi bs →
    ∀ a ∈ bs, ∀ b ∈ bs, a < b → a + len a ≤ b
  | _, _, [], _, _, mem, _, _, _ => absurd mem List.not_mem_nil
  | _, _, c :: bs, ⟨rfl, pos, rest⟩, a, memA, b, memB, lt => by
      rcases List.mem_cons.mp memA with rfl | laterA
      · rcases List.mem_cons.mp memB with rfl | laterB
        · exact absurd lt (lt_irrefl _)
        · exact (rest.bounds b laterB).1
      · rcases List.mem_cons.mp memB with rfl | laterB
        · have := rest.bounds a laterA
          omega
        · exact rest.apart a laterA b laterB lt

theorem Tiles.sorted : ∀ {lo hi : Nat} {bs : List Nat}, Tiles len lo hi bs → bs.Pairwise (· < ·)
  | _, _, [], _ => List.Pairwise.nil
  | _, _, _ :: bs, ⟨rfl, pos, rest⟩ => by
      refine List.Pairwise.cons (fun b mem => ?_) rest.sorted
      have := (rest.bounds b mem).1
      omega

theorem Tiles.nodup {lo hi : Nat} {bs : List Nat} (tiles : Tiles len lo hi bs) : bs.Nodup :=
  tiles.sorted.imp ne_of_lt

theorem Tiles.length_mul_le : ∀ {lo hi : Nat} {bs : List Nat} {k : Nat}, Tiles len lo hi bs →
    (∀ a ∈ bs, k ≤ len a) → bs.length * k ≤ hi - lo
  | _, _, [], _, _, _ => by simp
  | _, _, a :: bs, k, ⟨rfl, _, rest⟩, least => by
      have here := least a List.mem_cons_self
      have more := rest.length_mul_le fun b mem => least b (List.mem_cons_of_mem a mem)
      have := rest.le
      rw [List.length_cons, Nat.succ_mul]
      omega

theorem Tiles.adjacent : ∀ {lo hi : Nat} {bs : List Nat}, Tiles len lo hi bs → ∀ a ∈ bs, a + len a ∈ bs →
    ∃ l₁ l₂, bs = l₁ ++ a :: (a + len a) :: l₂
  | _, _, [], _, _, mem, _ => absurd mem List.not_mem_nil
  | _, _, c :: bs, ⟨rfl, pos, rest⟩, a, memA, memB => by
      rcases List.mem_cons.mp memA with rfl | later
      · cases bs with
        | nil =>
            simp only [List.mem_singleton] at memB
            omega
        | cons d bs => exact ⟨[], bs, by rw [rest.1]; rfl⟩
      · have inRest : a + len a ∈ bs := by
          rcases List.mem_cons.mp memB with same | inside
          · have := (rest.bounds a later).1
            omega
          · exact inside
        obtain ⟨l₁, l₂, split⟩ := rest.adjacent a later inRest
        exact ⟨c :: l₁, l₂, by rw [split]; rfl⟩

theorem Tiles.merge {lo hi a b : Nat} {l₁ l₂ : List Nat} (tiles : Tiles len lo hi (l₁ ++ a :: b :: l₂))
    (merged : len' a = len a + len b) (same : ∀ x ∈ l₁ ++ l₂, len' x = len x) :
    Tiles len' lo hi (l₁ ++ a :: l₂) := by
  obtain ⟨mid, first, ⟨rfl, posA, rfl, posB, rest⟩⟩ := tiles_append.mp tiles
  have notA : a ∉ l₂ := fun mem => by
    have := (rest.bounds a mem).1
    omega
  refine tiles_append.mpr ⟨a, first.frame fun x mem => same x (by simp [mem]), rfl, by omega, ?_⟩
  rw [merged, ← Nat.add_assoc]
  exact rest.frame fun x mem => same x (by simp [mem])

theorem Tiles.split {lo hi a : Nat} {l₁ l₂ : List Nat} (tiles : Tiles len lo hi (l₁ ++ a :: l₂))
    (posA : 0 < len' a) (posB : 0 < len' (a + len' a)) (sum : len' a + len' (a + len' a) = len a)
    (same : ∀ x ∈ l₁ ++ l₂, len' x = len x) :
    Tiles len' lo hi (l₁ ++ a :: (a + len' a) :: l₂) := by
  obtain ⟨mid, first, ⟨rfl, -, rest⟩⟩ := tiles_append.mp tiles
  refine tiles_append.mpr ⟨a, first.frame fun x mem => same x (by simp [mem]), rfl, posA, rfl, posB, ?_⟩
  rw [Nat.add_assoc, sum]
  exact rest.frame fun x mem => same x (by simp [mem])

theorem Tiles.extend {lo hi : Nat} {bs : List Nat} (tiles : Tiles len lo hi bs) (pos : 0 < len' hi)
    (same : ∀ x ∈ bs, len' x = len x) : Tiles len' lo (hi + len' hi) (bs ++ [hi]) :=
  tiles_append.mpr ⟨hi, tiles.frame same, rfl, pos, rfl⟩

end Tiles

end FreeList
