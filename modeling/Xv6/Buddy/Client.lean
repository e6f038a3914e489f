import Mathlib
import Xv6.Buddy.Calls
import Xv6.Buddy.Init

/-!
The kernel's calls of the buddy allocator: `bd_init` once, then any sequence
of `bd_malloc(nbytes)` and of `bd_free(p)` of a pointer it holds. The
allocator represents a tree whose held blocks are exactly the pointers held,
each of the size `firstk(nbytes)` of its request (`Inv`): `bd_init`
establishes it with no pointer held (`bdInit_rep`), and `bd_malloc` and
`bd_free` keep it (`inv_keeps`). So in every reachable state `size(p)` of a
held pointer returns the size it was handed out at, reading only `split`
arrays below `bd_sizes[nsizes]`; and since the kernel holds each pointer once
and the tree's held blocks do not overlap, no two pointers it holds share a
byte (`live_blocks_disjoint`).

The leaves `bd_init` marks, those of the metadata and of the tail past `end`,
stay reserved through every call (`Guarded`), and no leaf of a held block is
reserved; so the block of every pointer held lies past the metadata and ends
by `end` (`live_blocks_clear_of_metadata`).
-/

namespace Xv6.Buddy

open Bytes Scan

section Firstk

theorem firstkLoop_agree (n : Nat) :
    ∀ (fuel fuel' k size : Nat) {r r' : Nat},
      firstkLoop n fuel k size = some r → firstkLoop n fuel' k size = some r' → r = r'
  | 0, _, _, _, _, _, stopped, _ => by cases stopped
  | _ + 1, 0, _, _, _, _, _, stopped' => by cases stopped'
  | fuel + 1, fuel' + 1, k, size, r, r', stopped, stopped' => by
      simp only [firstkLoop] at stopped stopped'
      split_ifs at stopped stopped'
      · exact firstkLoop_agree n fuel fuel' _ _ stopped stopped'
      · exact (Option.some.inj stopped).symm.trans (Option.some.inj stopped')

/-- `firstk(nbytes)` is `k`, given enough passes. -/
def Asked (nbytes k : Nat) : Prop := ∃ fuel, firstk fuel nbytes = some k

theorem Asked.eq {nbytes k k' fuel : Nat} (asked : Asked nbytes k) (stopped : firstk fuel nbytes = some k') :
    k = k' := by
  obtain ⟨fuel₀, stopped₀⟩ := asked
  exact firstkLoop_agree nbytes fuel₀ fuel 0 leafSize stopped₀ stopped

end Firstk

section Held

variable {s : State} {t : Tree}

theorem addr_of_base {s' : State} (same : s'.base = s.base) (k b : Nat) : addr s' k b = addr s k b := by
  rw [addr, addr, same]

/-- Blocks apart in units of `LEAF_SIZE` are apart in bytes. -/
theorem addr_add_le {j b j' b' : Nat} (units : (b + 1) * 2 ^ j ≤ b' * 2 ^ j') :
    addr s j b + blkSize j ≤ addr s j' b' :=
  calc addr s j b + blkSize j = s.base + (b + 1) * 2 ^ j * leafSize := by simp only [addr, blkSize]; ring
    _ ≤ s.base + b' * 2 ^ j' * leafSize := Nat.add_le_add_left (Nat.mul_le_mul_right _ units) _
    _ = addr s j' b' := by simp only [addr, blkSize]; ring

theorem Rep.held_apart (rep : Rep s t) {j b j' b' : Nat} (hj : j < s.nsizes) (hj' : j' < s.nsizes)
    (range : b < nblk s.nsizes j) (range' : b' < nblk s.nsizes j') (held : t j b = .held)
    (held' : t j' b' = .held) (other : ¬(j = j' ∧ b = b')) :
    addr s j b + blkSize j ≤ addr s j' b' ∨ addr s j' b' + blkSize j' ≤ addr s j b :=
  (rep.shaped.apart (by omega) (by omega) range range' (by rw [held]; decide) (by rw [held]; decide)
    (by rw [held']; decide) (by rw [held']; decide) other).imp addr_add_le addr_add_le

theorem Rep.held_addr_inj (rep : Rep s t) {j b j' b' : Nat} (hj : j < s.nsizes) (hj' : j' < s.nsizes)
    (range : b < nblk s.nsizes j) (range' : b' < nblk s.nsizes j') (held : t j b = .held)
    (held' : t j' b' = .held) (same : addr s j b = addr s j' b') : j = j' ∧ b = b' := by
  by_contra other
  have := blkSize_pos j
  have := blkSize_pos j'
  rcases rep.held_apart hj hj' range range' held held' other with before | after <;> omega

theorem Rep.held_leaves (rep : Rep s t) {k b : Nat} (hk : k < s.nsizes) (range : b < nblk s.nsizes k)
    (held : t k b = .held) :
    t 0 (b * 2 ^ k) ≠ .reserved ∧ t 0 ((b + 1) * 2 ^ k - 1) ≠ .reserved ∧
      addr s 0 (b * 2 ^ k) = addr s k b ∧ addr s 0 ((b + 1) * 2 ^ k - 1) + blkSize 0 = addr s k b + blkSize k := by
  have pos := Nat.two_pow_pos k
  have next : (b + 1) * 2 ^ k = b * 2 ^ k + 2 ^ k := Nat.succ_mul b _
  refine ⟨rep.shaped.not_reserved_under (by omega) range held le_rfl (by omega),
    rep.shaped.not_reserved_under (by omega) range held (by omega) (by omega),
    by rw [← addr_scale s 0 b k, zero_add], ?_⟩
  simp only [addr, blkSize, pow_zero, one_mul, Nat.sub_one_mul, next]
  have lower : leafSize ≤ (b * 2 ^ k + 2 ^ k) * leafSize := Nat.le_mul_of_pos_left _ (by omega)
  rw [Nat.add_mul (b * 2 ^ k), Nat.mul_assoc] at lower ⊢
  omega

theorem mallocFrom_front {fk p : Nat} {rest : List Nat} (hfk : fk < s.nsizes)
    (front : (s.sizes fk).free = p :: rest) :
    mallocFrom s fk = .ok (p, setAlloc (s.withFree fk rest) fk (blkIndex s fk p)) := by
  rw [mallocFrom, firstFrom_of_pass hfk (by simp [front])]
  simp [lstPop_cons s fk p front, splitDown_stop _ (le_refl fk)]

end Held

section Client

inductive Call where
  | malloc (fuel nbytes : Nat)
  | free (p : Nat)

/-- The allocator, and the pointers the kernel holds: what `bd_malloc`
returned, with the bytes asked for, and it has not freed. -/
structure Client where
  alloc : State
  live : List (Nat × Nat)

/-- The kernel frees only what it holds; a `bd_free` outside that, or a
`firstk` that has not stopped within its fuel, stops the run. -/
def step (c : Client) : Call → Except String Client
  | .malloc fuel nbytes =>
      match bdMalloc fuel c.alloc nbytes with
      | none => .error "firstk: out of fuel"
      | some ran => do
          let (p, alloc) ← ran
          return { alloc, live := if p = 0 then c.live else (p, nbytes) :: c.live }
  | .free p =>
      if p ∈ c.live.map Prod.fst then .ok { alloc := bdFree c.alloc p, live := c.live.filter (·.1 != p) }
      else .error "kernel: free of a block it does not hold"

/-- The allocator represents a tree whose held blocks are the pointers the
kernel holds, each at the size of its request. -/
def Inv (c : Client) : Prop :=
  ∃ t, Rep c.alloc t ∧
    (∀ p n, (p, n) ∈ c.live →
      ∃ k < c.alloc.nsizes, ∃ b < nblk c.alloc.nsizes k, t k b = .held ∧ p = addr c.alloc k b ∧ Asked n k) ∧
    ∀ k < c.alloc.nsizes, ∀ b < nblk c.alloc.nsizes k, t k b = .held → ∃ n, (addr c.alloc k b, n) ∈ c.live

/-- The held blocks of `t` are the pointers the kernel holds, each at the size
of its request: `Inv` is a represented tree that tracks them. -/
def Tracks (c : Client) (t : Tree) : Prop :=
  (∀ p n, (p, n) ∈ c.live →
      ∃ k < c.alloc.nsizes, ∃ b < nblk c.alloc.nsizes k, t k b = .held ∧ p = addr c.alloc k b ∧ Asked n k) ∧
    ∀ k < c.alloc.nsizes, ∀ b < nblk c.alloc.nsizes k, t k b = .held → ∃ n, (addr c.alloc k b, n) ∈ c.live

variable {c c' : Client} {t : Tree}

theorem inv_iff : Inv c ↔ ∃ t, Rep c.alloc t ∧ Tracks c t := Iff.rfl

/-- Before any call, a tree with no held block tracks the pointers the kernel
holds, which are none. -/
theorem tracks_nil {s : State} (none : ∀ j c, t j c ≠ .held) : Tracks ⟨s, []⟩ t :=
  ⟨(fun p n live => by cases live), fun k _ b _ held => absurd held (none k b)⟩

theorem inv_init {mem : Mem} {base endAddr : Nat} {s : State} (init : bdInit mem base endAddr = .ok s) :
    Inv ⟨s, []⟩ := by
  obtain ⟨t, rep, none⟩ := bdInit_rep init
  exact inv_iff.mpr ⟨t, rep, tracks_nil none⟩

/-- A `bd_malloc` call that does not stop the run: `firstk` stopped at `fk`, the
allocator ran from there, and the kernel holds the pointer returned unless it
is 0. -/
theorem step_malloc {fuel nbytes : Nat} (stepped : step c (.malloc fuel nbytes) = .ok c') :
    ∃ fk p alloc, firstk fuel nbytes = some fk ∧ mallocFrom c.alloc fk = .ok (p, alloc) ∧
      c' = ⟨alloc, if p = 0 then c.live else (p, nbytes) :: c.live⟩ := by
  simp only [step, bdMalloc] at stepped
  cases asked : firstk fuel nbytes with
  | none =>
      rw [asked] at stepped
      cases stepped
  | some fk =>
      rw [asked, Option.map_some] at stepped
      obtain ⟨⟨p, alloc⟩, ran, returned⟩ := Machine.bind_eq_ok stepped
      cases returned
      exact ⟨fk, p, alloc, rfl, ran, rfl⟩

theorem Tracks.malloc (rep : Rep c.alloc t) (tracks : Tracks c t) {fuel nbytes : Nat}
    (stepped : step c (.malloc fuel nbytes) = .ok c') :
    c'.alloc.base = c.alloc.base ∧ ∃ t', Rep c'.alloc t' ∧ Tracks c' t' ∧ Reserves t t' := by
  obtain ⟨live, held⟩ := tracks
  obtain ⟨fk, p, alloc, asked, ran, rfl⟩ := step_malloc stepped
  obtain ⟨nsizes, base, t', rep', kept, result⟩ := rep.mallocFrom ran
  refine ⟨base, t', rep', ?_, kept⟩
  have moved := addr_of_base base
  rcases result with ⟨rfl, same⟩ | ⟨pos, hfk, cb, range, rfl, -, grown⟩
  · -- no block was free: nothing changes but the allocator's copy
    refine ⟨fun q n member => ?_, fun k hk b range heldB => ?_⟩ <;> simp only [nsizes, moved] at *
    · obtain ⟨k, hk, b, range, heldB, rfl, askedK⟩ := live q n (by simpa using member)
      exact ⟨k, hk, b, range, (same k b).mpr heldB, rfl, askedK⟩
    · simpa using held k hk b range ((same k b).mp heldB)
  · -- the block `cb` of size `fk` is held now, and the kernel holds its address
    refine ⟨fun q n member => ?_, fun k hk b range heldB => ?_⟩ <;>
      simp only [nsizes, moved, if_neg (show ¬addr c.alloc fk cb = 0 by omega)] at *
    · rcases List.mem_cons.mp member with same | old
      · obtain ⟨rfl, rfl⟩ := Prod.mk.inj same
        exact ⟨fk, hfk, cb, range, (grown fk cb).mpr (.inr ⟨rfl, rfl⟩), rfl, fuel, asked⟩
      · obtain ⟨k, hk, b, range, heldB, rfl, askedK⟩ := live q n old
        exact ⟨k, hk, b, range, (grown k b).mpr (.inl heldB), rfl, askedK⟩
    · rcases (grown k b).mp heldB with old | ⟨rfl, rfl⟩
      · obtain ⟨n, member⟩ := held k hk b range old
        exact ⟨n, List.mem_cons_of_mem _ member⟩
      · exact ⟨nbytes, List.mem_cons_self⟩

theorem Tracks.free (rep : Rep c.alloc t) (tracks : Tracks c t) {p : Nat} (stepped : step c (.free p) = .ok c') :
    c'.alloc.base = c.alloc.base ∧ ∃ t', Rep c'.alloc t' ∧ Tracks c' t' ∧ Reserves t t' := by
  obtain ⟨live, held⟩ := tracks
  simp only [step] at stepped
  split_ifs at stepped with holds
  cases stepped
  obtain ⟨⟨p, n⟩, member, rfl⟩ := List.mem_map.mp holds
  obtain ⟨k, hk, b, range, heldB, rfl, -⟩ := live _ n member
  obtain ⟨nsizes, base, t', rep', kept, gone⟩ := rep.bdFree hk range heldB
  refine ⟨base, t', rep', ?_, kept⟩
  have moved := addr_of_base base
  refine ⟨?_, ?_⟩ <;> simp only [nsizes, moved]
  · intro q n' member'
    obtain ⟨old, other⟩ := List.mem_filter.mp member'
    obtain ⟨k', hk', b', range', heldB', rfl, askedK⟩ := live q n' old
    -- a pointer other than the one freed is another block
    have apart : ¬(k' = k ∧ b' = b) := by
      rintro ⟨rfl, rfl⟩
      simp at other
    exact ⟨k', hk', b', range', (gone k' b').mpr ⟨heldB', apart⟩, rfl, askedK⟩
  · intro k' hk' b' range' heldB'
    obtain ⟨stillHeld, apart⟩ := (gone k' b').mp heldB'
    obtain ⟨n', member'⟩ := held k' hk' b' range' stillHeld
    -- two held blocks at one address are one block
    have other : addr c.alloc k' b' ≠ addr c.alloc k b := fun same =>
      apart (rep.held_addr_inj hk' hk range' range stillHeld heldB same)
    exact ⟨n', List.mem_filter.mpr ⟨member', by simpa using other⟩⟩

theorem Tracks.step (rep : Rep c.alloc t) (tracks : Tracks c t) {call : Call} (stepped : step c call = .ok c') :
    c'.alloc.base = c.alloc.base ∧ ∃ t', Rep c'.alloc t' ∧ Tracks c' t' ∧ Reserves t t' := by
  cases call with
  | malloc fuel nbytes => exact tracks.malloc rep stepped
  | free p => exact tracks.free rep stepped

theorem inv_keeps : Machine.Keeps step Inv := by
  intro c call c' inv stepped
  obtain ⟨t, rep, tracks⟩ := inv_iff.mp inv
  obtain ⟨-, t', rep', tracks', -⟩ := tracks.step rep stepped
  exact inv_iff.mpr ⟨t', rep', tracks'⟩

theorem Inv.nodup_malloc (inv : Inv c) (nodup : (c.live.map Prod.fst).Nodup) {fuel nbytes : Nat}
    (stepped : step c (.malloc fuel nbytes) = .ok c') : (c'.live.map Prod.fst).Nodup := by
  obtain ⟨t, rep, live, -⟩ := inv_iff.mp inv
  obtain ⟨fk, p, alloc, -, ran, rfl⟩ := step_malloc stepped
  obtain ⟨nsizes, base, t', rep', -, result⟩ := rep.mallocFrom ran
  rcases result with ⟨rfl, -⟩ | ⟨pos, hfk, cb, range, rfl, fresh, grown⟩
  · simpa using nodup
  · rw [if_neg (by omega), List.map_cons, List.nodup_cons]
    refine ⟨fun member => ?_, nodup⟩
    obtain ⟨⟨q, n⟩, old, same⟩ := List.mem_map.mp member
    obtain ⟨k, hk, b, rangeB, heldB, rfl, -⟩ := live q n old
    have moved := addr_of_base base
    -- both blocks are held afterwards, at one address
    obtain ⟨rfl, rfl⟩ := rep'.held_addr_inj (by omega) (by omega) (by rwa [nsizes]) (by rwa [nsizes])
      ((grown k b).mpr (.inl heldB)) ((grown fk cb).mpr (.inr ⟨rfl, rfl⟩)) (by rw [moved, moved]; exact same)
    exact fresh heldB

theorem nodup_free (nodup : (c.live.map Prod.fst).Nodup) {p : Nat} (stepped : step c (.free p) = .ok c') :
    (c'.live.map Prod.fst).Nodup := by
  simp only [step] at stepped
  split_ifs at stepped
  cases stepped
  exact nodup.sublist (List.filter_sublist.map _)

theorem inv_nodup_keeps : Machine.Keeps step fun c => Inv c ∧ (c.live.map Prod.fst).Nodup := by
  intro c call c' ⟨inv, nodup⟩ stepped
  refine ⟨inv_keeps c call c' inv stepped, ?_⟩
  cases call with
  | malloc fuel nbytes => exact inv.nodup_malloc nodup stepped
  | free p => exact nodup_free nodup stepped

/-- `Inv`, with every leaf that does not lie in `[P, E)` reserved. -/
def Guarded (P E : Nat) (c : Client) : Prop :=
  ∃ t, Rep c.alloc t ∧ Tracks c t ∧ ∀ b, addr c.alloc 0 b < P ∨ E < addr c.alloc 0 b + blkSize 0 → t 0 b = .reserved

/-- `bd_init` leaves the leaves outside `[p, bd_end)` reserved, where the
metadata lies below `p` and `bd_end` is at most `end` or `p`. -/
theorem guarded_init {mem : Mem} {base endAddr : Nat} {s : State} (init : bdInit mem base endAddr = .ok s) :
    ∃ P E, Guarded P E ⟨s, []⟩ ∧ MetaBelow s P ∧ (E ≤ endAddr ∨ E ≤ P) := by
  obtain ⟨t, P, E, rep, none, reserved, below, ends⟩ := bdInit_guarded init
  exact ⟨P, E, ⟨t, rep, tracks_nil none, reserved⟩, below, ends⟩

theorem guarded_keeps (P E : Nat) : Machine.Keeps step (Guarded P E) := by
  intro c call c' ⟨t, rep, tracks, reserved⟩ stepped
  obtain ⟨base, t', rep', tracks', kept⟩ := tracks.step rep stepped
  refine ⟨t', rep', tracks', fun b outside => kept 0 b (reserved b ?_)⟩
  simpa only [addr_of_base base] using outside

/-- `size(p)` of a pointer the kernel holds, in every state a run from
`bd_init` reaches: it returns `firstk(nbytes)` of the request that returned
`p`, because the block of size `firstk(nbytes) + 1` holding `p` is split and
none of the sizes `1 .. firstk(nbytes)` is; and that size is below `MAXSIZE`,
so the loop never reads `bd_sizes[nsizes]`. -/
theorem size_live {mem : Mem} {base endAddr : Nat} {s₀ : State} (init : bdInit mem base endAddr = .ok s₀)
    (reached : Machine.Reachable step ⟨s₀, []⟩ c) {p nbytes : Nat} (held : (p, nbytes) ∈ c.live)
    {fuel k : Nat} (asked : firstk fuel nbytes = some k) :
    size c.alloc p = k ∧ k + 1 < c.alloc.nsizes ∧ isSplit c.alloc (k + 1) (blkIndex c.alloc (k + 1) p) = true ∧
      ∀ j < k, isSplit c.alloc (j + 1) (blkIndex c.alloc (j + 1) p) = false := by
  obtain ⟨t, rep, live, -⟩ := Machine.Reachable.of_keeps (inv_init init) inv_keeps reached
  obtain ⟨k', hk, b, range, heldB, rfl, askedK⟩ := live p nbytes held
  obtain rfl := askedK.eq asked
  obtain ⟨top, parent, clear, sized⟩ := rep.size_held hk range heldB
  exact ⟨sized, top, parent, clear⟩

/-- The allocator `bd_init(0x1000, 0x10c8)` builds on cleared memory: 200
bytes in five sizes. -/
def demoAlloc : State :=
  match bdInit (fun _ => 0) 0x1000 0x10c8 with
  | .ok s => s
  | .error _ => ⟨0, 0, fun _ => ⟨[], 0, 0⟩, fun _ => 0⟩

theorem demo_init : bdInit (fun _ => 0) 0x1000 0x10c8 = .ok demoAlloc := by
  have ok : (bdInit (fun _ => 0) 0x1000 0x10c8).isOk = true := by decide
  unfold demoAlloc
  split
  · assumption
  · rename_i failed
    rw [failed] at ok
    cases ok

/-- The kernel after `bd_malloc(1)` from `demoAlloc`: it holds `0x10b0`, the
front of the list of size 0. -/
def demoClient : Client :=
  ⟨setAlloc (demoAlloc.withFree 0 []) 0 (blkIndex demoAlloc 0 0x10b0), [(0x10b0, 1)]⟩

theorem demo_step : step ⟨demoAlloc, []⟩ (.malloc 1 1) = .ok demoClient := by
  have front : (demoAlloc.sizes 0).free = [0x10b0] := by decide
  have sizes : 0 < demoAlloc.nsizes := by decide
  simp [step, bdMalloc, firstk, firstkLoop, leafSize, mallocFrom_front sizes front, demoClient]

theorem size_live_demo :
    bdInit (fun _ => 0) 0x1000 0x10c8 = .ok demoAlloc ∧ Machine.Reachable step ⟨demoAlloc, []⟩ demoClient ∧
      (0x10b0, 1) ∈ demoClient.live ∧ firstk 1 1 = some 0 ∧
      (size demoClient.alloc 0x10b0 = 0 ∧ 0 + 1 < demoClient.alloc.nsizes ∧
        isSplit demoClient.alloc (0 + 1) (blkIndex demoClient.alloc (0 + 1) 0x10b0) = true ∧
        ∀ j < 0, isSplit demoClient.alloc (j + 1) (blkIndex demoClient.alloc (j + 1) 0x10b0) = false) :=
  ⟨demo_init, .step _ .init demo_step, List.mem_singleton_self _, rfl,
    size_live demo_init (.step _ .init demo_step) (List.mem_singleton_self _) (rfl : firstk 1 1 = some 0)⟩

/-- In every state a run from `bd_init` reaches, the blocks of two entries the
kernel holds do not overlap: the one at `p` for `nbytes` is the `BLK_SIZE(k)`
bytes from `p`, `k = firstk(nbytes)`. -/
theorem live_blocks_disjoint {mem : Mem} {base endAddr : Nat} {s₀ : State} (init : bdInit mem base endAddr = .ok s₀)
    (reached : Machine.Reachable step ⟨s₀, []⟩ c) :
    c.live.Pairwise fun e e' => ∀ fuel fuel' k k', firstk fuel e.2 = some k → firstk fuel' e'.2 = some k' →
      e.1 + blkSize k ≤ e'.1 ∨ e'.1 + blkSize k' ≤ e.1 := by
  obtain ⟨⟨t, rep, live, -⟩, nodup⟩ :=
    Machine.Reachable.of_keeps ⟨inv_init init, List.nodup_nil⟩ inv_nodup_keeps reached
  rw [List.Nodup, List.pairwise_map] at nodup
  refine nodup.imp_of_mem fun {e e'} member member' differ fuel fuel' k k' asked asked' => ?_
  obtain ⟨j, hj, b, range, held, hp, askedJ⟩ := live e.1 e.2 member
  obtain ⟨j', hj', b', range', held', hp', askedJ'⟩ := live e'.1 e'.2 member'
  obtain rfl := askedJ.eq asked
  obtain rfl := askedJ'.eq asked'
  rw [hp, hp']
  -- two pointers held once each are two blocks
  exact rep.held_apart hj hj' range range' held held' fun ⟨same, same'⟩ => differ (by rw [hp, hp', same, same'])

theorem live_blocks_disjoint_demo :
    bdInit (fun _ => 0) 0x1000 0x10c8 = .ok demoAlloc ∧ Machine.Reachable step ⟨demoAlloc, []⟩ demoClient ∧
      demoClient.live.Pairwise fun e e' => ∀ fuel fuel' k k', firstk fuel e.2 = some k →
        firstk fuel' e'.2 = some k' → e.1 + blkSize k ≤ e'.1 ∨ e'.1 + blkSize k' ≤ e.1 :=
  ⟨demo_init, .step _ .init demo_step, live_blocks_disjoint demo_init (.step _ .init demo_step)⟩

/-- In every state a run from `bd_init(base, end)` reaches, the block of a
pointer the kernel holds lies past all of the allocator's metadata and ends at
or before `end`: `bd_malloc` never hands out the memory `bd_init` marked. -/
theorem live_blocks_clear_of_metadata {mem : Mem} {base endAddr : Nat} {s₀ : State}
    (init : bdInit mem base endAddr = .ok s₀) (reached : Machine.Reachable step ⟨s₀, []⟩ c) {p nbytes : Nat}
    (held : (p, nbytes) ∈ c.live) {fuel k : Nat} (asked : firstk fuel nbytes = some k) :
    MetaBelow s₀ p ∧ p + blkSize k ≤ endAddr := by
  obtain ⟨P, E, guarded, below, ends⟩ := guarded_init init
  obtain ⟨t, rep, ⟨live, -⟩, reserved⟩ := Machine.Reachable.of_keeps guarded (guarded_keeps P E) reached
  obtain ⟨k', hk, b, range, heldB, rfl, askedK⟩ := live p nbytes held
  obtain rfl := askedK.eq asked
  obtain ⟨first, last, start, stop⟩ := rep.held_leaves hk range heldB
  -- neither its first leaf nor its last is reserved, so both lie in `[P, E)`
  have after : P ≤ addr c.alloc k' b := by
    by_contra before
    exact first (reserved _ (.inl (by omega)))
  have within : addr c.alloc k' b + blkSize k' ≤ E := by
    by_contra past
    exact last (reserved _ (.inr (by omega)))
  have := blkSize_pos k'
  exact ⟨below.mono after, by omega⟩

theorem live_blocks_clear_of_metadata_demo :
    bdInit (fun _ => 0) 0x1000 0x10c8 = .ok demoAlloc ∧ Machine.Reachable step ⟨demoAlloc, []⟩ demoClient ∧
      (0x10b0, 1) ∈ demoClient.live ∧ firstk 1 1 = some 0 ∧
      (MetaBelow demoAlloc 0x10b0 ∧ 0x10b0 + blkSize 0 ≤ 0x10c8) :=
  ⟨demo_init, .step _ .init demo_step, List.mem_singleton_self _, rfl,
    live_blocks_clear_of_metadata demo_init (.step _ .init demo_step) (List.mem_singleton_self _)
      (rfl : firstk 1 1 = some 0)⟩

end Client

end Xv6.Buddy
