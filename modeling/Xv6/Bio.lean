import Mathlib
import Xv6.Param
import Xv6.Library.Dlist
import Xv6.Library.Machine

/-!
The buffer cache of `kernel/bio.c`: `NBUF` buffers on a ring through
`bcache.head`, most recently released first. `bget` looks for the block along
`next` and otherwise recycles, along `prev`, the first buffer that no one
holds; `brelse` moves a buffer whose last reference goes to the front.

Block contents, `virtio_disk_rw` and the sleep-locks are left out. The
callers are ghost state: the `bread`s not yet matched by a `brelse`, the
`bpin`s not yet matched by a `bunpin`, and when each buffer was last released,
a buffer never released counting as released in `binit`'s order.
-/

namespace Xv6.Bio

/-- The fields of `struct buf` that `bio.c` reads and writes. -/
structure Buf where
  valid : Bool
  dev : Nat
  blockno : Nat
  refcnt : Nat

/-- A node of the ring: a buffer, or `none` for `bcache.head`. -/
abbrev Node := Option (Fin nBuf)

structure Bcache where
  buf : Fin nBuf → Buf
  links : Dlist.Links Node

def Bcache.setBuf (c : Bcache) (i : Fin nBuf) (b : Buf) : Bcache :=
  { c with buf := Function.update c.buf i b }

@[simp] theorem Bcache.setBuf_buf (c : Bcache) (i : Fin nBuf) (b : Buf) :
    (c.setBuf i b).buf = Function.update c.buf i b := rfl

@[simp] theorem Bcache.setBuf_links (c : Bcache) (i : Fin nBuf) (b : Buf) :
    (c.setBuf i b).links = c.links := rfl

section Cache

/-- `binit`: every buffer pushed at the front in turn. The fields of the
static `bcache` start at zero. -/
def binit : Bcache :=
  { buf := fun _ => ⟨false, 0, 0, 0⟩
    links := (List.finRange nBuf).foldl (fun l b => Dlist.pushFront l none (some b))
      ⟨fun _ => none, fun _ => none⟩ }

def Bcache.holds (c : Bcache) (dev blockno : Nat) : Node → Bool
  | some i => (c.buf i).dev == dev && (c.buf i).blockno == blockno
  | none => false

def Bcache.unused (c : Bcache) : Node → Bool
  | some i => (c.buf i).refcnt == 0
  | none => false

@[simp] theorem Bcache.holds_some (c : Bcache) (dev blockno : Nat) (i : Fin nBuf) :
    c.holds dev blockno (some i) = ((c.buf i).dev == dev && (c.buf i).blockno == blockno) := rfl

@[simp] theorem Bcache.unused_some (c : Bcache) (i : Fin nBuf) :
    c.unused (some i) = ((c.buf i).refcnt == 0) := rfl

/-- `bget(dev, blockno)`. The two loops run until they are back at
`bcache.head`, which `NBUF + 1` steps reach on a ring of `NBUF` buffers. -/
def bget (c : Bcache) (dev blockno : Nat) : Except String (Fin nBuf × Bcache) :=
  match Dlist.scanNext c.links none (c.holds dev blockno) (nBuf + 1) (c.links.next none) with
  | some (some i) => .ok (i, c.setBuf i { c.buf i with refcnt := (c.buf i).refcnt + 1 })
  | _ =>
      match Dlist.scanPrev c.links none c.unused (nBuf + 1) (c.links.prev none) with
      | some (some i) =>
          .ok (i, c.setBuf i { c.buf i with dev := dev, blockno := blockno, valid := false, refcnt := 1 })
      | _ => .error "bget: no buffers"

def bread (c : Bcache) (dev blockno : Nat) : Except String (Fin nBuf × Bcache) := do
  let (b, c) ← bget c dev blockno
  return (b, c.setBuf b { c.buf b with valid := true })

def brelse (c : Bcache) (b : Fin nBuf) : Bcache :=
  let c := c.setBuf b { c.buf b with refcnt := (c.buf b).refcnt - 1 }
  if (c.buf b).refcnt = 0 then
    { c with links := Dlist.pushFront (Dlist.unlink c.links (some b)) none (some b) }
  else c

theorem brelse_buf (c : Bcache) (b : Fin nBuf) :
    (brelse c b).buf = Function.update c.buf b { c.buf b with refcnt := (c.buf b).refcnt - 1 } := by
  unfold brelse
  dsimp only
  split_ifs <;> rfl

def bpin (c : Bcache) (b : Fin nBuf) : Bcache :=
  c.setBuf b { c.buf b with refcnt := (c.buf b).refcnt + 1 }

def bunpin (c : Bcache) (b : Fin nBuf) : Bcache :=
  c.setBuf b { c.buf b with refcnt := (c.buf b).refcnt - 1 }

end Cache

section System

/-- The cache and its callers: `held` counts the `bread`s of each buffer not
yet released, `pinned` its `bpin`s not yet undone, and `stamp` the time of
its last release on the ghost clock. -/
structure Sys where
  cache : Bcache
  held : Fin nBuf → Nat
  pinned : Fin nBuf → Nat
  stamp : Fin nBuf → Nat
  clock : Nat

inductive Event where
  | bread (dev blockno : Nat)
  | brelse (b : Fin nBuf)
  | bpin (b : Fin nBuf)
  | bunpin (b : Fin nBuf)

/-- A call of the cache's interface. `brelse` of a buffer the caller does not
hold panics, as `holdingsleep` makes it; `bunpin` is called, as `install_trans`
calls it, only on a buffer its caller holds and has pinned. -/
def step (s : Sys) : Event → Except String Sys
  | .bread dev blockno => do
      let (b, c) ← bread s.cache dev blockno
      return { s with cache := c, held := Function.update s.held b (s.held b + 1) }
  | .brelse b =>
      if s.held b = 0 then .error "brelse"
      else
        let c := brelse s.cache b
        .ok { s with
          cache := c
          held := Function.update s.held b (s.held b - 1)
          stamp := if (c.buf b).refcnt = 0 then Function.update s.stamp b s.clock else s.stamp
          clock := s.clock + 1 }
  | .bpin b => .ok { s with cache := bpin s.cache b, pinned := Function.update s.pinned b (s.pinned b + 1) }
  | .bunpin b =>
      if s.held b = 0 ∨ s.pinned b = 0 then .ok s
      else .ok { s with cache := bunpin s.cache b, pinned := Function.update s.pinned b (s.pinned b - 1) }

def boot : Sys :=
  { cache := binit, held := fun _ => 0, pinned := fun _ => 0, stamp := fun i => i, clock := nBuf }

abbrev Reachable (s : Sys) : Prop := Machine.Reachable step boot s

end System

section Ring

variable {c : Bcache} {xs : List (Fin nBuf)}

/-- The ring of `c` holds every buffer once, in the order `xs`. -/
structure Ring (c : Bcache) (xs : List (Fin nBuf)) : Prop where
  threads : Dlist.Threads c.links none (xs.map some)
  complete : ∀ i, i ∈ xs

theorem Ring.nodup (ring : Ring c xs) : xs.Nodup :=
  (List.nodup_cons.mp ring.threads.1).2.of_map some

theorem Ring.length_lt (ring : Ring c xs) : xs.length < nBuf + 1 := by
  have := ring.nodup.length_le_card
  simp only [Fintype.card_fin] at this
  omega

theorem Ring.scanNext (ring : Ring c xs) (q : Node → Bool) :
    Dlist.scanNext c.links none q (nBuf + 1) (c.links.next none) = (xs.find? fun i => q (some i)).map some := by
  rw [Dlist.scanNext_eq ring.threads.2 (by simp) (by simpa using ring.length_lt), List.find?_map]
  rfl

theorem Ring.scanPrev (ring : Ring c xs) (q : Node → Bool) :
    Dlist.scanPrev c.links none q (nBuf + 1) (c.links.prev none) =
      (xs.reverse.find? fun i => q (some i)).map some := by
  rw [Dlist.scanPrev_eq ring.threads.2 (by simp) (by simpa using ring.length_lt), ← List.map_reverse,
    List.find?_map]
  rfl

/-- On a ring of every buffer, `bget` finds the block, recycles the last
buffer no one holds, or panics. -/
theorem bget_cases (ring : Ring c xs) (dev blockno : Nat) :
    (∃ i, xs.find? (fun i => c.holds dev blockno (some i)) = some i ∧
      bget c dev blockno = .ok (i, c.setBuf i { c.buf i with refcnt := (c.buf i).refcnt + 1 })) ∨
    (xs.find? (fun i => c.holds dev blockno (some i)) = none ∧
      ∃ i, xs.reverse.find? (fun i => c.unused (some i)) = some i ∧
        bget c dev blockno =
          .ok (i, c.setBuf i { c.buf i with dev := dev, blockno := blockno, valid := false, refcnt := 1 })) ∨
    (xs.find? (fun i => c.holds dev blockno (some i)) = none ∧
      xs.reverse.find? (fun i => c.unused (some i)) = none ∧ bget c dev blockno = .error "bget: no buffers") := by
  unfold bget
  rw [ring.scanNext, ring.scanPrev]
  cases hit : xs.find? (fun i => c.holds dev blockno (some i)) with
  | some i => exact .inl ⟨i, rfl, rfl⟩
  | none =>
      cases victim : xs.reverse.find? (fun i => c.unused (some i)) with
      | some i => exact .inr (.inl ⟨rfl, i, rfl, rfl⟩)
      | none => exact .inr (.inr ⟨rfl, rfl, rfl⟩)

theorem bread_cases (ring : Ring c xs) (dev blockno : Nat) :
    (∃ i, xs.find? (fun i => c.holds dev blockno (some i)) = some i ∧
      bread c dev blockno = .ok (i, c.setBuf i { c.buf i with refcnt := (c.buf i).refcnt + 1, valid := true })) ∨
    (xs.find? (fun i => c.holds dev blockno (some i)) = none ∧
      ∃ i, xs.reverse.find? (fun i => c.unused (some i)) = some i ∧
        bread c dev blockno =
          .ok (i, c.setBuf i { c.buf i with dev := dev, blockno := blockno, valid := true, refcnt := 1 })) ∨
    (xs.find? (fun i => c.holds dev blockno (some i)) = none ∧
      xs.reverse.find? (fun i => c.unused (some i)) = none ∧ bread c dev blockno = .error "bget: no buffers") := by
  rcases bget_cases ring dev blockno with ⟨i, hit, got⟩ | ⟨miss, i, victim, got⟩ | ⟨miss, full, failed⟩
  · refine .inl ⟨i, hit, ?_⟩
    simp [bread, got, Bcache.setBuf]
  · refine .inr (.inl ⟨miss, i, victim, ?_⟩)
    simp [bread, got, Bcache.setBuf]
  · refine .inr (.inr ⟨miss, full, ?_⟩)
    unfold bread
    rw [failed]
    rfl

end Ring

theorem last_found {α : Type} {q : α → Bool} {R : α → α → Prop} {xs : List α} {v : α}
    (sorted : (xs.filter q).Pairwise R) (found : xs.reverse.find? q = some v) :
    ∀ j ∈ xs, q j → j ≠ v → R j v := by
  obtain ⟨holds, later, earlier, split, skipped⟩ := List.find?_eq_some_iff_append.mp found
  have xsEq : xs = earlier.reverse ++ v :: later.reverse := by
    rw [← List.reverse_reverse xs, split]
    simp
  have none : later.reverse.filter q = [] :=
    List.filter_eq_nil_iff.mpr fun a mem => by simpa using skipped a (List.mem_reverse.mp mem)
  rw [xsEq, List.filter_append, List.filter_cons, if_pos holds, none, List.pairwise_append] at sorted
  intro j mem qj apart
  rw [xsEq] at mem
  rcases List.mem_append.mp mem with early | late
  · exact sorted.2.2 j (List.mem_filter.mpr ⟨early, qj⟩) v (List.mem_singleton_self v)
  · rcases List.mem_cons.mp late with same | afterV
    · exact absurd same apart
    · have := skipped j (List.mem_reverse.mp afterV)
      simp [qj] at this

section Invariant

variable {s s' : Sys} {xs : List (Fin nBuf)}

/-- The ring in order `xs`, where the buffers no one holds stand from the
latest released to the earliest. -/
structure Order (s : Sys) (xs : List (Fin nBuf)) : Prop where
  ring : Ring s.cache xs
  lru : (xs.filter fun i => s.cache.unused (some i)).Pairwise fun a b => s.stamp b < s.stamp a

structure Inv (s : Sys) : Prop where
  order : ∃ xs, Order s xs
  refs : ∀ i, (s.cache.buf i).refcnt = s.held i + s.pinned i
  labels : ∀ i j, i ≠ j → (s.cache.buf i).dev ≠ 0 → (s.cache.buf i).dev = (s.cache.buf j).dev →
    (s.cache.buf i).blockno ≠ (s.cache.buf j).blockno
  stamps : ∀ i, s.stamp i < s.clock

/-- Taking references keeps the order: a buffer no one holds afterwards was
free before. -/
theorem Order.busier (order : Order s xs) (links : s'.cache.links = s.cache.links)
    (stamp : s'.stamp = s.stamp) (busier : ∀ j, s'.cache.unused (some j) → s.cache.unused (some j)) :
    Order s' xs := by
  refine ⟨⟨links ▸ order.ring.threads, order.ring.complete⟩, ?_⟩
  have narrower : (xs.filter fun i => s'.cache.unused (some i)) =
      (xs.filter fun i => s.cache.unused (some i)).filter fun i => s'.cache.unused (some i) := by
    rw [List.filter_filter]
    congr 1
    funext j
    cases free : s'.cache.unused (some j)
    · rfl
    · simp [busier j free]
  rw [narrower, stamp]
  exact order.lru.filter _

theorem Order.release (order : Order s xs) (stamps : ∀ i, s.stamp i < s.clock) (b : Fin nBuf)
    (bufs : ∀ j, j ≠ b → s'.cache.buf j = s.cache.buf j) (free : s'.cache.unused (some b))
    (links : s'.cache.links = Dlist.pushFront (Dlist.unlink s.cache.links (some b)) none (some b))
    (stamp : s'.stamp = Function.update s.stamp b s.clock) : ∃ xs', Order s' xs' := by
  obtain ⟨ys, zs, split⟩ := List.mem_iff_append.mp (order.ring.complete b)
  have nodup := order.ring.nodup
  rw [split] at nodup
  have bFresh : b ∉ ys ++ zs := by
    simp only [List.nodup_append, List.nodup_cons] at nodup
    simp only [List.mem_append, not_or]
    exact ⟨fun mem => nodup.2.2 b mem b List.mem_cons_self rfl, nodup.2.1.1⟩
  have threads := order.ring.threads
  rw [split, List.map_append, List.map_cons] at threads
  have pushed := threads.unlink.pushFront (b := some b) (by simpa [← List.map_append] using bFresh)
  refine ⟨b :: (ys ++ zs), ⟨by simpa [links] using pushed, fun i => ?_⟩, ?_⟩
  · have mem := order.ring.complete i
    rw [split, List.mem_append, List.mem_cons] at mem
    rcases mem with early | rfl | late
    · exact List.mem_cons_of_mem _ (List.mem_append_left _ early)
    · exact List.mem_cons_self
    · exact List.mem_cons_of_mem _ (List.mem_append_right _ late)
  · -- `b` is released last; the others keep their refcounts and stamps
    have others : ∀ j ∈ ys ++ zs, j ≠ b := fun j mem same => bFresh (same ▸ mem)
    rw [stamp]
    simp only [List.filter_cons, free, if_true, List.pairwise_cons]
    constructor
    · intro j mem
      have apart := others j (List.mem_of_mem_filter mem)
      simp [Function.update_of_ne apart, stamps j]
    · have sub : ((ys ++ zs).filter fun i => s'.cache.unused (some i)) =
          (ys ++ zs).filter fun i => s.cache.unused (some i) :=
        List.filter_congr fun j mem => by simp [bufs j (others j mem)]
      have older : ((ys ++ zs).filter fun i => s.cache.unused (some i)).Sublist
          (xs.filter fun i => s.cache.unused (some i)) := by
        rw [split]
        exact (List.Sublist.append_left (List.sublist_cons_self b zs) ys).filter _
      rw [sub]
      refine (order.lru.sublist older).imp_of_mem fun {a a'} memA memA' later => ?_
      simp only [Function.update_of_ne (others a (List.mem_of_mem_filter memA)),
        Function.update_of_ne (others a' (List.mem_of_mem_filter memA'))]
      exact later

theorem Inv.labels_of_same (inv : Inv s) (c : Bcache)
    (same : ∀ k, (c.buf k).dev = (s.cache.buf k).dev ∧ (c.buf k).blockno = (s.cache.buf k).blockno) :
    ∀ i j, i ≠ j → (c.buf i).dev ≠ 0 → (c.buf i).dev = (c.buf j).dev → (c.buf i).blockno ≠ (c.buf j).blockno := by
  intro i j apart
  rw [(same i).1, (same j).1, (same i).2, (same j).2]
  exact inv.labels i j apart

/-- A step that changes one buffer's refcount and `valid` bit, with the
callers' counts following it, keeps the invariant: the ring, the labels and
the stamps stay, and a buffer free afterwards was free before. -/
theorem Inv.recount (inv : Inv s) {b : Fin nBuf} {buf : Buf} (cache : s'.cache = s.cache.setBuf b buf)
    (dev : buf.dev = (s.cache.buf b).dev) (blockno : buf.blockno = (s.cache.buf b).blockno)
    (busier : buf.refcnt = 0 → (s.cache.buf b).refcnt = 0) (refs : buf.refcnt = s'.held b + s'.pinned b)
    (others : ∀ j, j ≠ b → s'.held j + s'.pinned j = s.held j + s.pinned j)
    (stamp : s'.stamp = s.stamp) (clock : s.clock ≤ s'.clock) : Inv s' := by
  obtain ⟨xs, order⟩ := inv.order
  have bufs : ∀ j, j ≠ b → s'.cache.buf j = s.cache.buf j := fun j apart => by
    simp [cache, Function.update_of_ne apart]
  refine ⟨⟨xs, order.busier (by simp [cache]) stamp fun j free => ?_⟩, fun j => ?_,
    inv.labels_of_same _ fun k => ?_, fun j => stamp ▸ Nat.lt_of_lt_of_le (inv.stamps j) clock⟩
  · by_cases same : j = b
    · subst same
      simp only [cache, Bcache.unused_some, Bcache.setBuf_buf, Function.update_self, beq_iff_eq] at free ⊢
      exact busier free
    · simpa [bufs j same] using free
  · by_cases same : j = b
    · subst same
      simp [cache, refs]
    · rw [bufs j same, inv.refs j, others j same]
  · by_cases same : k = b
    · subst same
      simp [cache, dev, blockno]
    · simp [bufs k same]

end Invariant

section Steps

variable {s s' : Sys}

theorem inv_bread (inv : Inv s) {dev blockno : Nat} (stepped : step s (.bread dev blockno) = .ok s') :
    Inv s' := by
  obtain ⟨xs, order⟩ := inv.order
  rcases bread_cases order.ring dev blockno with ⟨i, -, got⟩ | ⟨miss, i, victim, got⟩ | ⟨-, -, failed⟩
  · -- the block is cached: one more reference to it
    simp only [step, got, Machine.ok_bind, Machine.pure_eq_ok, Except.ok.injEq] at stepped
    subst stepped
    refine inv.recount rfl rfl rfl (fun zero => nomatch zero) ?_ (fun j apart => ?_) rfl le_rfl
    · simp [inv.refs i]
      omega
    · simp [Function.update_of_ne apart]
  · -- recycled: no buffer had the label, and the victim no reference
    have unused : (s.cache.buf i).refcnt = 0 := by simpa using List.find?_some victim
    have unlabelled : ∀ k, ¬((s.cache.buf k).dev = dev ∧ (s.cache.buf k).blockno = blockno) := fun k => by
      simpa using List.find?_eq_none.mp miss k (order.ring.complete k)
    have free := inv.refs i
    simp only [step, got, Machine.ok_bind, Machine.pure_eq_ok, Except.ok.injEq] at stepped
    subst stepped
    refine ⟨⟨xs, order.busier rfl rfl fun j free => ?_⟩, fun j => ?_, fun j k apart => ?_, inv.stamps⟩
    · by_cases same : j = i
      · subst same
        simp at free
      · simpa [Function.update_of_ne same] using free
    · by_cases same : j = i
      · subst same
        simp
        omega
      · simp [Function.update_of_ne same, inv.refs j]
    · by_cases jNew : j = i
      · subst jNew
        have kOld : k ≠ j := Ne.symm apart
        simp only [Bcache.setBuf_buf, Function.update_self, Function.update_of_ne kOld]
        intro _ same sameBlock
        exact unlabelled k ⟨same.symm, sameBlock.symm⟩
      · by_cases kNew : k = i
        · subst kNew
          simp only [Bcache.setBuf_buf, Function.update_self, Function.update_of_ne jNew]
          intro _ same sameBlock
          exact unlabelled j ⟨same, sameBlock⟩
        · simp only [Bcache.setBuf_buf, Function.update_of_ne jNew, Function.update_of_ne kNew]
          exact inv.labels j k apart
  · simp only [step, failed] at stepped
    exact nomatch stepped

theorem inv_brelse (inv : Inv s) {b : Fin nBuf} (stepped : step s (.brelse b) = .ok s') : Inv s' := by
  simp only [step] at stepped
  split at stepped
  · exact nomatch stepped
  rename_i holding
  simp only [Except.ok.injEq] at stepped
  subst stepped
  obtain ⟨xs, order⟩ := inv.order
  have count : ((brelse s.cache b).buf b).refcnt = (s.cache.buf b).refcnt - 1 := by simp [brelse_buf]
  have others : ∀ j, j ≠ b → (brelse s.cache b).buf j = s.cache.buf j := fun j apart => by
    simp [brelse_buf, Function.update_of_ne apart]
  have refs : ∀ j, ((brelse s.cache b).buf j).refcnt = Function.update s.held b (s.held b - 1) j + s.pinned j := by
    intro j
    by_cases same : j = b
    · subst same
      rw [count, inv.refs j]
      simp
      omega
    · simp [others j same, Function.update_of_ne same, inv.refs j]
  have labels := inv.labels_of_same (brelse s.cache b) fun k => by
    by_cases same : k = b
    · subst same
      simp [brelse_buf]
    · simp [others k same]
  rw [count]
  by_cases last : (s.cache.buf b).refcnt - 1 = 0
  · -- the last reference: `b` goes to the front, released now
    rw [if_pos last]
    have links : (brelse s.cache b).links = Dlist.pushFront (Dlist.unlink s.cache.links (some b)) none (some b) := by
      simp [brelse, last]
    have released : ∃ xs', Order { s with
        cache := brelse s.cache b
        held := Function.update s.held b (s.held b - 1)
        stamp := Function.update s.stamp b s.clock
        clock := s.clock + 1 } xs' :=
      order.release inv.stamps b others (by simp [count, last]) links rfl
    obtain ⟨xs', order'⟩ := released
    refine ⟨⟨xs', order'⟩, refs, labels, fun j => ?_⟩
    by_cases same : j = b
    · subst same
      simp
    · simp only [Function.update_of_ne same]
      exact Nat.lt_succ_of_lt (inv.stamps j)
  · rw [if_neg last]
    have links : (brelse s.cache b).links = s.cache.links := by simp [brelse, last]
    refine ⟨⟨xs, order.busier links rfl fun j free => ?_⟩, refs, labels, fun j => Nat.lt_succ_of_lt (inv.stamps j)⟩
    by_cases same : j = b
    · subst same
      simp [count, last] at free
    · simpa [others j same] using free

theorem inv_bpin (inv : Inv s) {b : Fin nBuf} (stepped : step s (.bpin b) = .ok s') : Inv s' := by
  simp only [step, Except.ok.injEq] at stepped
  subst stepped
  refine inv.recount rfl rfl rfl (fun zero => nomatch zero) ?_ (fun j apart => ?_) rfl le_rfl
  · simp [inv.refs b]
    omega
  · simp [Function.update_of_ne apart]

theorem inv_bunpin (inv : Inv s) {b : Fin nBuf} (stepped : step s (.bunpin b) = .ok s') : Inv s' := by
  simp only [step] at stepped
  split at stepped
  · simp only [Except.ok.injEq] at stepped
    exact stepped ▸ inv
  rename_i unpinning
  simp only [not_or] at unpinning
  simp only [Except.ok.injEq] at stepped
  subst stepped
  -- the caller still holds `b`, so its refcount stays above zero
  have busy := inv.refs b
  refine inv.recount rfl rfl rfl (fun zero => ?_) ?_ (fun j apart => ?_) rfl le_rfl
  · simp only at zero
    omega
  · simp
    omega
  · simp [Function.update_of_ne apart]

theorem inv_step (inv : Inv s) {e : Event} (stepped : step s e = .ok s') : Inv s' := by
  cases e with
  | bread dev blockno => exact inv_bread inv stepped
  | brelse b => exact inv_brelse inv stepped
  | bpin b => exact inv_bpin inv stepped
  | bunpin b => exact inv_bunpin inv stepped

theorem inv_boot : Inv boot := by
  have empty : Dlist.Threads (⟨fun _ => none, fun _ => none⟩ : Dlist.Links Node) none [] :=
    ⟨by simp, rfl, rfl, trivial⟩
  have fresh : ∀ b ∈ (List.finRange nBuf).map some, b ∉ [none] := fun b mem => by
    obtain ⟨i, -, rfl⟩ := List.mem_map.mp mem
    simp
  have threads := empty.pushFront_foldl ((List.nodup_finRange nBuf).map (Option.some_injective _)) fresh
  rw [List.foldl_map, List.append_nil, ← List.map_reverse] at threads
  refine ⟨⟨(List.finRange nBuf).reverse, ⟨threads, fun i => by simp⟩, ?_⟩, fun _ => rfl,
    fun i _ _ free => absurd rfl free, fun i => i.isLt⟩
  have all : ((List.finRange nBuf).reverse.filter fun i => boot.cache.unused (some i)) = (List.finRange nBuf).reverse :=
    List.filter_eq_self.mpr fun _ _ => rfl
  rw [all, List.pairwise_reverse]
  exact List.pairwise_lt_finRange nBuf

theorem Reachable.inv (reached : Reachable s) : Inv s :=
  Machine.Reachable.of_keeps inv_boot (fun _ _ _ inv stepped => inv_step inv stepped) reached

end Steps

section Lru

variable {s : Sys}

/-- The buffer cache in every reachable state: the ring from `bcache.head`
holds each of the `NBUF` buffers once; no two buffers hold the same block of
a device other than 0; `bget` relabels no buffer that has references, and
when it relabels one (a miss), it takes a free buffer released before every
other free buffer; and it panics only when every buffer has references. -/
theorem bcache_ring_lru (reached : Reachable s) :
    (∃ xs : List (Fin nBuf), Dlist.Threads s.cache.links none (xs.map some) ∧ xs.Nodup ∧ ∀ i, i ∈ xs) ∧
    (∀ i j, i ≠ j → (s.cache.buf i).dev ≠ 0 → (s.cache.buf i).dev = (s.cache.buf j).dev →
      (s.cache.buf i).blockno ≠ (s.cache.buf j).blockno) ∧
    (∀ dev blockno i c, bget s.cache dev blockno = .ok (i, c) →
      (∀ j, 0 < (s.cache.buf j).refcnt →
        (c.buf j).dev = (s.cache.buf j).dev ∧ (c.buf j).blockno = (s.cache.buf j).blockno) ∧
      ((s.cache.buf i).dev ≠ dev ∨ (s.cache.buf i).blockno ≠ blockno →
        (s.cache.buf i).refcnt = 0 ∧ ∀ j, j ≠ i → (s.cache.buf j).refcnt = 0 → s.stamp i < s.stamp j)) ∧
    (∀ dev blockno msg, bget s.cache dev blockno = .error msg → ∀ i, 0 < (s.cache.buf i).refcnt) := by
  have inv := reached.inv
  obtain ⟨xs, order⟩ := inv.order
  refine ⟨⟨xs, order.ring.threads, order.ring.nodup, order.ring.complete⟩, inv.labels,
    fun dev blockno i c got => ?_, fun dev blockno msg failed => ?_⟩
  · rcases bget_cases order.ring dev blockno with ⟨i', hit, got'⟩ | ⟨-, i', victim, got'⟩ | ⟨-, -, failed⟩
    · -- a hit: only the refcount changes, and the label was the block's
      rw [got'] at got
      cases got
      refine ⟨fun j _ => ?_, fun relabelled => ?_⟩
      · by_cases same : j = i
        · subst same
          simp
        · simp [Function.update_of_ne same]
      · have matched := List.find?_some hit
        simp only [Bcache.holds_some, Bool.and_eq_true, beq_iff_eq] at matched
        rcases relabelled with apart | apart
        · exact absurd matched.1 apart
        · exact absurd matched.2 apart
    · -- a miss: the victim is free, and released before every other free buffer
      rw [got'] at got
      cases got
      have unused : (s.cache.buf i).refcnt = 0 := by simpa using List.find?_some victim
      refine ⟨fun j busy => ?_, fun _ => ⟨unused, fun j apart free => ?_⟩⟩
      · have apart : j ≠ i := fun same => by rw [same, unused] at busy; exact absurd busy (by decide)
        simp [Function.update_of_ne apart]
      · exact last_found order.lru victim j (order.ring.complete j) (by simpa using free) apart
    · rw [failed] at got
      cases got
  · rcases bget_cases order.ring dev blockno with ⟨_, _, got⟩ | ⟨_, _, _, got⟩ | ⟨-, full, -⟩
    · rw [got] at failed
      cases failed
    · rw [got] at failed
      cases failed
    · intro i
      have busy := List.find?_eq_none.mp full i (List.mem_reverse.mpr (order.ring.complete i))
      simp only [Bcache.unused_some, beq_iff_eq] at busy
      omega

/-- The cache after `bread(1, 5)` and `bread(1, 6)`, both buffers still held. -/
def readSys : Sys :=
  match Machine.run step boot [.bread 1 5, .bread 1 6] with
  | .ok s => s
  | .error _ => boot

set_option maxRecDepth 20000 in
theorem readSys_reached : Reachable readSys := by
  have ran : Machine.run step boot [.bread 1 5, .bread 1 6] = .ok readSys := by
    rfl
  exact Machine.Reachable.run .init ran

theorem bcache_ring_lru_read :
    (∃ xs : List (Fin nBuf), Dlist.Threads readSys.cache.links none (xs.map some) ∧ xs.Nodup ∧ ∀ i, i ∈ xs) ∧
    (∀ i j, i ≠ j → (readSys.cache.buf i).dev ≠ 0 → (readSys.cache.buf i).dev = (readSys.cache.buf j).dev →
      (readSys.cache.buf i).blockno ≠ (readSys.cache.buf j).blockno) ∧
    (∀ dev blockno i c, bget readSys.cache dev blockno = .ok (i, c) →
      (∀ j, 0 < (readSys.cache.buf j).refcnt →
        (c.buf j).dev = (readSys.cache.buf j).dev ∧ (c.buf j).blockno = (readSys.cache.buf j).blockno) ∧
      ((readSys.cache.buf i).dev ≠ dev ∨ (readSys.cache.buf i).blockno ≠ blockno →
        (readSys.cache.buf i).refcnt = 0 ∧ ∀ j, j ≠ i → (readSys.cache.buf j).refcnt = 0 → readSys.stamp i < readSys.stamp j)) ∧
    (∀ dev blockno msg, bget readSys.cache dev blockno = .error msg → ∀ i, 0 < (readSys.cache.buf i).refcnt) :=
  bcache_ring_lru readSys_reached

end Lru

end Xv6.Bio
