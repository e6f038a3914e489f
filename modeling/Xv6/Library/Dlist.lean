import Mathlib

/-!
A circular doubly linked list through a sentinel `head`, kept in `next` and
`prev` fields as C code keeps one. `Threads l head xs` says that `next` leads
from `head` through the nodes `xs` in order and back to `head`, and `prev`
the same way backwards. Unlinking a node and pushing one at the front act on
`xs` as removing it and consing it; a scan along `next` or `prev` that stops
at `head` finds what `List.find?` finds on `xs` or on its reverse.
-/

namespace Dlist

variable {ν : Type} [DecidableEq ν]

structure Links (ν : Type) where
  next : ν → ν
  prev : ν → ν

/-- Consecutive nodes of the list are linked both ways. -/
def Path (l : Links ν) : List ν → Prop
  | u :: v :: rest => l.next u = v ∧ l.prev v = u ∧ Path l (v :: rest)
  | _ => True

/-- The ring from `head` through `xs` back to `head`. -/
def Threads (l : Links ν) (head : ν) (xs : List ν) : Prop :=
  (head :: xs).Nodup ∧ Path l (head :: xs ++ [head])

/-- Taking `b` out: `b->next->prev = b->prev; b->prev->next = b->next;`. -/
def unlink (l : Links ν) (b : ν) : Links ν :=
  let l := { l with prev := Function.update l.prev (l.next b) (l.prev b) }
  { l with next := Function.update l.next (l.prev b) (l.next b) }

/-- Putting `b` first: `b->next = head->next; b->prev = head;
head->next->prev = b; head->next = b;`. -/
def pushFront (l : Links ν) (head b : ν) : Links ν :=
  let l := { l with next := Function.update l.next b (l.next head) }
  let l := { l with prev := Function.update l.prev b head }
  let l := { l with prev := Function.update l.prev (l.next head) b }
  { l with next := Function.update l.next head b }

/-- From `b` along `next` up to `head`, the first node with `p`; `fuel`
bounds the steps of a loop that C leaves unbounded. -/
def scanNext (l : Links ν) (head : ν) (p : ν → Bool) : Nat → ν → Option ν
  | 0, _ => none
  | fuel + 1, b => if b = head then none else if p b then some b else scanNext l head p fuel (l.next b)

/-- From `b` along `prev` up to `head`, the first node with `p`. -/
def scanPrev (l : Links ν) (head : ν) (p : ν → Bool) : Nat → ν → Option ν
  | 0, _ => none
  | fuel + 1, b => if b = head then none else if p b then some b else scanPrev l head p fuel (l.prev b)

section Paths

omit [DecidableEq ν]

variable {l l' : Links ν}

theorem path_append (p : List ν) (t u : ν) (q : List ν) :
    Path l (p ++ t :: u :: q) ↔ Path l (p ++ [t]) ∧ l.next t = u ∧ l.prev u = t ∧ Path l (u :: q) := by
  induction p with
  | nil => simp [Path]
  | cons x p ih =>
      cases p with
      | nil => simp [Path, and_assoc]
      | cons y p =>
          simp only [List.cons_append, Path] at ih ⊢
          rw [ih]
          simp only [and_assoc]

/-- A path stays one under links that agree on the `next` of its nodes but
the last and on the `prev` of its nodes but the first. -/
theorem Path.frame : ∀ {r : List ν}, Path l r → (∀ w ∈ r.dropLast, l'.next w = l.next w) →
    (∀ w ∈ r.tail, l'.prev w = l.prev w) → Path l' r
  | [], _, _, _ => trivial
  | [_], _, _, _ => trivial
  | u :: v :: rest, ⟨linked, back, path⟩, next, prev => by
      refine ⟨(next u (by simp)).trans linked, (prev v (by simp)).trans back, path.frame ?_ ?_⟩
      · intro w mem
        exact next w (by rw [List.dropLast_cons_cons]; exact List.mem_cons_of_mem u mem)
      · intro w mem
        exact prev w (List.mem_of_mem_tail mem)

end Paths

section Unlink

variable {l : Links ν} {b : ν}

theorem unlink_next (l : Links ν) (b : ν) (apart : l.next b ≠ b) :
    (unlink l b).next = Function.update l.next (l.prev b) (l.next b) := by
  simp [unlink, Function.update_of_ne (Ne.symm apart)]

theorem unlink_prev (l : Links ν) (b : ν) :
    (unlink l b).prev = Function.update l.prev (l.next b) (l.prev b) := rfl

theorem Path.unlink {p q : List ν} {a c : ν} (path : Path l (p ++ a :: b :: c :: q)) (apart : b ≠ c)
    (aFresh : a ∉ p ∧ a ∉ (c :: q).dropLast) (cFresh : c ∉ (p ++ [a]).tail ∧ c ∉ q) :
    Path (Dlist.unlink l b) (p ++ a :: c :: q) := by
  obtain ⟨before, linkedAB, backAB, linkedBC, backBC, after⟩ :
      Path l (p ++ [a]) ∧ l.next a = b ∧ l.prev b = a ∧ l.next b = c ∧ l.prev c = b ∧ Path l (c :: q) := by
    rw [path_append] at path
    obtain ⟨before, linked, back, ⟨linked', back', after⟩⟩ := path
    exact ⟨before, linked, back, linked', back', after⟩
  have next := unlink_next l b (linkedBC ▸ Ne.symm apart)
  rw [linkedBC, backAB] at next
  have prev := unlink_prev l b
  rw [linkedBC, backAB] at prev
  rw [path_append]
  refine ⟨before.frame ?_ ?_, by simp [next], by simp [prev], after.frame ?_ ?_⟩
  · intro w mem
    rw [List.dropLast_concat] at mem
    have : w ≠ a := fun same => aFresh.1 (same ▸ mem)
    simp [next, this]
  · intro w mem
    have : w ≠ c := fun same => cFresh.1 (same ▸ mem)
    simp [prev, this]
  · intro w mem
    have : w ≠ a := fun same => aFresh.2 (same ▸ mem)
    simp [next, this]
  · intro w mem
    have : w ≠ c := fun same => cFresh.2 (same ▸ mem)
    simp [prev, this]

theorem Threads.unlink {head : ν} {xs ys : List ν} (threads : Threads l head (xs ++ b :: ys)) :
    Threads (Dlist.unlink l b) head (xs ++ ys) := by
  obtain ⟨nodup, path⟩ := threads
  have facts := nodup
  simp only [List.nodup_cons, List.nodup_append, List.mem_append, List.mem_cons, not_or] at facts
  obtain ⟨⟨headXs, headB, headYs⟩, xsNodup, ⟨bYs, ysNodup⟩, apartXs⟩ := facts
  refine ⟨(List.Sublist.append_left (List.sublist_cons_self b ys) xs).cons_cons head |>.nodup nodup, ?_⟩
  -- `a` is the node before `b`, the last of `head :: xs`; `c` the node after it
  obtain ⟨p, a, pre⟩ : ∃ p a, head :: xs = p ++ [a] := by
    rcases List.eq_nil_or_concat (head :: xs) with empty | ⟨p, a, split⟩
    · cases empty
    · exact ⟨p, a, by simpa using split⟩
  obtain ⟨c, q, post⟩ : ∃ c q, ys ++ [head] = c :: q := by
    cases ys with
    | nil => exact ⟨head, [], rfl⟩
    | cons y ys => exact ⟨y, ys ++ [head], rfl⟩
  have ring : head :: (xs ++ b :: ys) ++ [head] = p ++ a :: b :: c :: q := by
    rw [show head :: (xs ++ b :: ys) ++ [head] = (head :: xs) ++ b :: (ys ++ [head]) by simp, pre, post]
    simp
  have ring' : head :: (xs ++ ys) ++ [head] = p ++ a :: c :: q := by
    rw [show head :: (xs ++ ys) ++ [head] = (head :: xs) ++ (ys ++ [head]) by simp, pre, post]
    simp
  have aMem : a ∈ head :: xs := pre ▸ by simp
  have cMem : c ∈ ys ++ [head] := post ▸ List.mem_cons_self
  have preNodup : (p ++ [a]).Nodup := pre ▸ List.nodup_cons.mpr ⟨headXs, xsNodup⟩
  have postNodup : (c :: q).Nodup := post ▸ (List.perm_append_singleton head ys).nodup_iff.mpr
    (List.nodup_cons.mpr ⟨headYs, ysNodup⟩)
  rw [ring'] at ⊢
  rw [ring] at path
  refine path.unlink ?_ ⟨?_, ?_⟩ ⟨?_, (List.nodup_cons.mp postNodup).1⟩
  · -- `b` is neither among `ys` nor `head`
    intro same
    simp only [List.mem_append, List.mem_singleton] at cMem
    rcases cMem with inYs | isHead
    · exact bYs (same ▸ inYs)
    · exact headB (isHead ▸ same).symm
  · exact fun mem => (List.nodup_append.mp preNodup).2.2 a mem a (List.mem_singleton_self a) rfl
  · -- the nodes after `b` but `head` are `ys`, and `a` is not one of them
    rw [← post, List.dropLast_concat]
    intro inYs
    simp only [List.mem_cons] at aMem
    rcases aMem with isHead | inXs
    · exact headYs (isHead ▸ inYs)
    · exact apartXs a inXs a (.inr inYs) rfl
  · -- the nodes before `b` but `head` are `xs`, and `c` is not one of them
    rw [← pre]
    intro inXs
    simp only [List.tail_cons] at inXs
    simp only [List.mem_append, List.mem_singleton] at cMem
    rcases cMem with inYs | isHead
    · exact apartXs c inXs c (.inr inYs) rfl
    · exact headXs (isHead ▸ inXs)

end Unlink

section Push

variable {l : Links ν} {head b : ν}

theorem pushFront_next (l : Links ν) (head b : ν) :
    (pushFront l head b).next = Function.update (Function.update l.next b (l.next head)) head b := by
  simp [pushFront]

theorem pushFront_prev (l : Links ν) (head b : ν) (apart : head ≠ b) :
    (pushFront l head b).prev = Function.update (Function.update l.prev b head) (l.next head) b := by
  simp [pushFront, Function.update_of_ne apart]

theorem Threads.pushFront {xs : List ν} (threads : Threads l head xs) (fresh : b ∉ head :: xs) :
    Threads (Dlist.pushFront l head b) head (b :: xs) := by
  obtain ⟨nodup, path⟩ := threads
  have apart : head ≠ b := fun same => fresh (same ▸ List.mem_cons_self)
  have nodupTail : (xs ++ [head]).Nodup := (List.perm_append_singleton head xs).nodup_iff.mpr nodup
  refine ⟨?_, ?_⟩
  · have fresh' := fresh
    simp only [List.mem_cons, not_or] at fresh'
    exact List.nodup_cons.mpr ⟨by simp [apart, (List.nodup_cons.mp nodup).1],
      List.nodup_cons.mpr ⟨fresh'.2, (List.nodup_cons.mp nodup).2⟩⟩
  -- the ring went from `head` to `c`, the first of `xs` or `head` itself
  obtain ⟨c, q, ring⟩ : ∃ c q, xs ++ [head] = c :: q := by
    cases xs with
    | nil => exact ⟨head, [], rfl⟩
    | cons x xs => exact ⟨x, xs ++ [head], rfl⟩
  rw [List.cons_append, ring] at path
  obtain ⟨linked, -, after⟩ := path
  have next := pushFront_next l head b
  have prev := pushFront_prev l head b apart
  rw [linked] at next prev
  have cb : c ≠ b := fun same => fresh (by
    have : c ∈ xs ++ [head] := ring ▸ List.mem_cons_self
    simp only [List.mem_append, List.mem_singleton] at this
    rcases this with inXs | isHead
    · exact same ▸ List.mem_cons_of_mem head inXs
    · exact same ▸ isHead ▸ List.mem_cons_self)
  rw [List.cons_append, List.cons_append, ring]
  refine ⟨by simp [next], by rw [prev, Function.update_of_ne cb.symm, Function.update_self],
    by simp [next, Ne.symm apart], by simp [prev], after.frame ?_ ?_⟩
  · -- the `next` fields written are those of `head` and `b`, neither among `xs`
    intro w mem
    rw [← ring, List.dropLast_concat] at mem
    have notHead : w ≠ head := fun same => (List.nodup_cons.mp nodup).1 (same ▸ mem)
    have notB : w ≠ b := fun same => fresh (same ▸ List.mem_cons_of_mem head mem)
    simp [next, notHead, notB]
  · -- the `prev` fields written are those of `c` and `b`, neither after `c`
    intro w mem
    have notC : w ≠ c := fun same => (List.nodup_cons.mp (ring ▸ nodupTail)).1 (same ▸ mem)
    have notB : w ≠ b := fun same => fresh (by
      have : w ∈ xs ++ [head] := ring ▸ List.mem_cons_of_mem c mem
      simp only [List.mem_append, List.mem_singleton] at this
      rcases this with inXs | isHead
      · exact same ▸ List.mem_cons_of_mem head inXs
      · exact same ▸ isHead ▸ List.mem_cons_self)
    simp [prev, notC, notB]

theorem Threads.pushFront_foldl : ∀ {bs xs : List ν} {l : Links ν}, Threads l head xs → bs.Nodup →
    (∀ b ∈ bs, b ∉ head :: xs) → Threads (bs.foldl (fun l b => Dlist.pushFront l head b) l) head (bs.reverse ++ xs)
  | [], _, _, threads, _, _ => threads
  | b :: bs, xs, l, threads, nodup, fresh => by
      have pushed := threads.pushFront (fresh b List.mem_cons_self)
      have rest := pushed.pushFront_foldl (List.nodup_cons.mp nodup).2 fun c mem => by
        have apart : c ≠ b := fun same => (List.nodup_cons.mp nodup).1 (same ▸ mem)
        simpa [apart] using fresh c (List.mem_cons_of_mem b mem)
      simpa using rest

end Push

section Scans

variable {l : Links ν} {head : ν} {p : ν → Bool}

theorem scanNext_eq : ∀ {u : ν} {xs : List ν} {fuel : Nat}, Path l (u :: xs ++ [head]) → head ∉ xs →
    xs.length < fuel → scanNext l head p fuel (l.next u) = xs.find? p
  | u, [], fuel + 1, path, _, _ => by
      have linked : l.next u = head := path.1
      simp [scanNext, linked]
  | u, x :: xs, fuel + 1, path, fresh, enough => by
      obtain ⟨linked, -, rest⟩ := path
      have notHead : x ≠ head := fun same => fresh (same ▸ List.mem_cons_self)
      rw [linked]
      by_cases found : p x
      · simp [scanNext, notHead, found]
      · have enough' : xs.length < fuel := by simp at enough; omega
        have := scanNext_eq rest (fun mem => fresh (List.mem_cons_of_mem x mem)) enough'
        simp [scanNext, notHead, found, this]

theorem scanPrev_eq {u : ν} {xs : List ν} {fuel : Nat} (path : Path l (head :: xs ++ [u]))
    (fresh : head ∉ xs) (enough : xs.length < fuel) :
    scanPrev l head p fuel (l.prev u) = xs.reverse.find? p := by
  induction xs using List.reverseRecOn generalizing u fuel with
  | nil =>
      obtain ⟨fuel, rfl⟩ : ∃ f, fuel = f + 1 := ⟨fuel - 1, by omega⟩
      have back : l.prev u = head := path.2.1
      simp [scanPrev, back]
  | append_singleton ys y ih =>
      obtain ⟨fuel, rfl⟩ : ∃ f, fuel = f + 1 := ⟨fuel - 1, by omega⟩
      have split : head :: (ys ++ [y]) ++ [u] = (head :: ys) ++ y :: u :: [] := by simp
      rw [split, path_append] at path
      obtain ⟨before, -, back, -⟩ := path
      have notHead : y ≠ head := fun same => fresh (same ▸ by simp)
      rw [back]
      by_cases found : p y
      · simp [scanPrev, notHead, found]
      · have enough' : ys.length < fuel := by simp at enough; omega
        have := ih before (fun mem => fresh (by simp [mem])) enough'
        simp [scanPrev, notHead, found, this]

end Scans

end Dlist
