import Mathlib

/-!
What the buddy allocator keeps, above its bits and lists: a binary tree of
blocks. The root is the whole heap, block 0 of size `top`; block `bi` of size
`k + 1` splits into blocks `2 bi` and `2 bi + 1` of size `k`, so block `c` of
size `j` lies in block `c / 2^(k - j)` of size `k`. A block is split into its
halves, free, held by a caller, reserved (a leaf of the metadata or of the
tail past `end`), or inside a larger block that is not split. The blocks that
are not inside are exactly the root and the halves of split blocks (`Shaped`),
so the free, held and reserved blocks cover the heap once.

`bd_malloc` takes a free block and halves it down to the size asked for;
`bd_free` gives a block back and joins it with its buddy while the buddy is
free. Each step keeps the shape (`Shaped.set_open`, `Shaped.halve`,
`Shaped.join`).
-/

namespace Xv6.Buddy

inductive Status where
  | inside
  | free
  | held
  | reserved
  | split
  deriving DecidableEq, Repr

/-- The statuses whose `alloc` bit is set. -/
def Status.taken : Status → Bool
  | .held | .reserved | .split => true
  | .inside | .free => false

/-- The status of block `bi` of size `k`. -/
abbrev Tree := Nat → Nat → Status

def Tree.set (t : Tree) (k bi : Nat) (v : Status) : Tree :=
  fun j c => if j = k ∧ c = bi then v else t j c

@[simp] theorem Tree.set_self (t : Tree) (k bi : Nat) (v : Status) : t.set k bi v k bi = v := by
  simp [Tree.set]

theorem Tree.set_of_ne (t : Tree) {k bi j c : Nat} (v : Status) (other : j ≠ k ∨ c ≠ bi) :
    t.set k bi v j c = t j c := by
  unfold Tree.set
  rw [if_neg (by tauto)]

/-- A block keeps its status `w` when a block of another status changes. -/
theorem Tree.set_keeps (t : Tree) {k bi j c : Nat} {w : Status} (v : Status) (here : t j c = w)
    (was : t k bi ≠ w) : t.set k bi v j c = w := by
  by_cases same : j = k ∧ c = bi
  · obtain ⟨rfl, rfl⟩ := same
    exact absurd here was
  · rw [Tree.set_of_ne _ _ (by tauto), here]

/-- The other half of the block that `bi` is half of. -/
def buddy (bi : Nat) : Nat := if bi % 2 = 0 then bi + 1 else bi - 1

theorem buddy_div_two (bi : Nat) : buddy bi / 2 = bi / 2 := by
  unfold buddy
  split_ifs <;> omega

theorem buddy_ne (bi : Nat) : buddy bi ≠ bi := by
  unfold buddy
  split_ifs <;> omega

theorem eq_or_buddy_of_div_two {bi c : Nat} (same : c / 2 = bi / 2) : c = bi ∨ c = buddy bi := by
  unfold buddy
  split_ifs <;> omega

/-- The blocks that are not inside are the root and the halves of split blocks. -/
structure Shaped (top : Nat) (t : Tree) : Prop where
  root : t top 0 ≠ .inside
  child : ∀ k < top, ∀ bi < 2 ^ (top - k), (t k bi = .inside ↔ t (k + 1) (bi / 2) ≠ .split)

variable {top : Nat} {t : Tree}

theorem pow_sub_succ {k : Nat} (below : k < top) : 2 ^ (top - k) = 2 ^ (top - (k + 1)) * 2 := by
  rw [← pow_succ]
  congr 1
  omega

theorem half_lt {k bi : Nat} (below : k < top) (range : bi < 2 ^ (top - k)) : bi / 2 < 2 ^ (top - (k + 1)) := by
  have double := pow_sub_succ below
  omega

theorem buddy_lt {k bi : Nat} (below : k < top) (range : bi < 2 ^ (top - k)) : buddy bi < 2 ^ (top - k) := by
  have double := pow_sub_succ below
  unfold buddy
  split_ifs <;> omega

theorem lt_of_half_lt {k bi : Nat} (below : k < top) (half : bi / 2 < 2 ^ (top - (k + 1))) : bi < 2 ^ (top - k) := by
  have double := pow_sub_succ below
  omega

/-- The first block of size `j` inside block `b` of size `k` is in range. -/
theorem mul_pow_lt {j k b : Nat} (lower : j ≤ k) (hk : k ≤ top) (range : b < 2 ^ (top - k)) :
    b * 2 ^ (k - j) < 2 ^ (top - j) :=
  calc b * 2 ^ (k - j) < 2 ^ (top - k) * 2 ^ (k - j) := Nat.mul_lt_mul_of_pos_right range (Nat.two_pow_pos _)
    _ = 2 ^ (top - j) := by rw [← pow_add]; congr 1; omega

theorem held_set_other {k b : Nat} {v : Status} (was : t k b ≠ .held) (j c : Nat) :
    (t.set k b v j c = .held ∧ ¬(j = k ∧ c = b)) ↔ t j c = .held := by
  by_cases here : j = k ∧ c = b
  · obtain ⟨rfl, rfl⟩ := here
    simp [was]
  · rw [Tree.set_of_ne _ _ (by tauto)]
    simp [here]

theorem held_halve {k b : Nat} (upper : t k (2 * b + 1) ≠ .held) (j c : Nat) :
    (((t.set (k + 1) b .split).set k (2 * b) .held).set k (2 * b + 1) .free) j c = .held ↔
      (t j c = .held ∧ ¬(j = k + 1 ∧ c = b)) ∨ (j = k ∧ c = 2 * b) := by
  unfold Tree.set
  split_ifs <;> grind

theorem held_join {k bi : Nat} (other : t k (buddy bi) ≠ .held) (j c : Nat) :
    (((t.set k bi .inside).set k (buddy bi) .inside).set (k + 1) (bi / 2) .held) j c = .held ↔
      (t j c = .held ∧ ¬(j = k ∧ c = bi)) ∨ (j = k + 1 ∧ c = bi / 2) := by
  unfold Tree.set
  split_ifs <;> grind

/-- Every block reserved in `t` is reserved in `t'`: no call hands out the
metadata or the tail. -/
def Reserves (t t' : Tree) : Prop := ∀ j c, t j c = .reserved → t' j c = .reserved

theorem Reserves.refl (t : Tree) : Reserves t t := fun _ _ => id

theorem Reserves.trans {t₁ t₂ t₃ : Tree} (first : Reserves t₁ t₂) (second : Reserves t₂ t₃) : Reserves t₁ t₃ :=
  fun j c reserved => second j c (first j c reserved)

/-- Changing a block that is not reserved keeps every reserved block. -/
theorem reserves_set {k b : Nat} (v : Status) (was : t k b ≠ .reserved) : Reserves t (t.set k b v) :=
  fun _ _ reserved => Tree.set_keeps t v reserved was

theorem reserves_halve {k b : Nat} (held : t (k + 1) b = .held) (lower : t k (2 * b) ≠ .reserved)
    (upper : t k (2 * b + 1) ≠ .reserved) :
    Reserves t (((t.set (k + 1) b .split).set k (2 * b) .held).set k (2 * b + 1) .free) := by
  intro j c reserved
  unfold Tree.set
  split_ifs <;> grind

theorem reserves_join {k bi : Nat} (own : t k bi ≠ .reserved) (other : t k (buddy bi) ≠ .reserved)
    (parent : t (k + 1) (bi / 2) ≠ .reserved) :
    Reserves t (((t.set k bi .inside).set k (buddy bi) .inside).set (k + 1) (bi / 2) .held) := by
  intro j c reserved
  unfold Tree.set
  split_ifs <;> grind

namespace Shaped

theorem parent_split (shaped : Shaped top t) {k bi : Nat} (below : k < top) (range : bi < 2 ^ (top - k))
    (out : t k bi ≠ .inside) : t (k + 1) (bi / 2) = .split :=
  not_not.mp ((shaped.child k below bi range).not.mp out)

theorem inside_of_parent (shaped : Shaped top t) {k bi : Nat} (below : k < top) (range : bi < 2 ^ (top - k))
    (parent : t (k + 1) (bi / 2) ≠ .split) : t k bi = .inside :=
  (shaped.child k below bi range).mpr parent

theorem inside_under (shaped : Shaped top t) {k b : Nat} (hk : k ≤ top) (notSplit : t k b ≠ .split) :
    ∀ n j c, j + n + 1 = k → c < 2 ^ (top - j) → c / 2 ^ (n + 1) = b → t j c = .inside
  | 0, j, c, sum, range, under => by
      subst sum
      exact shaped.inside_of_parent (by omega) range (by simpa using under ▸ notSplit)
  | n + 1, j, c, sum, range, under => by
      have halved : c / 2 / 2 ^ (n + 1) = b := by
        rw [Nat.div_div_eq_div_mul, ← pow_succ']
        exact under
      have parent := shaped.inside_under hk notSplit n (j + 1) (c / 2) (by omega)
        (half_lt (by omega) range) halved
      exact shaped.inside_of_parent (by omega) range (by rw [parent]; decide)

theorem inside_below (shaped : Shaped top t) {k b j c : Nat} (hk : k ≤ top) (notSplit : t k b ≠ .split)
    (lower : j < k) (range : c < 2 ^ (top - j)) (under : c / 2 ^ (k - j) = b) : t j c = .inside :=
  shaped.inside_under hk notSplit (k - j - 1) j c (by omega) range (by rwa [show k - j - 1 + 1 = k - j by omega])

section First

variable (first : t 0 0 = .reserved)
include first

theorem split_of_first (shaped : Shaped top t) {k : Nat} (pos : 0 < k) (hk : k ≤ top) : t k 0 = .split := by
  by_contra notSplit
  have leaf := shaped.inside_below hk notSplit pos (Nat.two_pow_pos _) (Nat.zero_div _)
  rw [first] at leaf
  cases leaf

theorem index_pos (shaped : Shaped top t) {k b : Nat} (hk : k ≤ top) (notSplit : t k b ≠ .split)
    (notReserved : t k b ≠ .reserved) : 0 < b := by
  rcases Nat.eq_zero_or_pos b with rfl | pos
  · rcases Nat.eq_zero_or_pos k with rfl | pos'
    · exact absurd first notReserved
    · exact absurd (shaped.split_of_first first pos' hk) notSplit
  · exact pos

theorem held_lt (shaped : Shaped top t) {k b : Nat} (hk : k ≤ top) (range : b < 2 ^ (top - k))
    (held : t k b = .held) : k < top := by
  by_contra atTop
  have root : k = top := by omega
  subst root
  have zero : b = 0 := by simpa using range
  subst zero
  rcases Nat.eq_zero_or_pos k with rfl | pos
  · rw [first] at held
    cases held
  · rw [shaped.split_of_first first pos (le_refl _)] at held
    cases held

end First

theorem same_start (shaped : Shaped top t) {k b k' c : Nat} (hk' : k' ≤ top) (lower : k < k')
    (range : b < 2 ^ (top - k)) (start : b * 2 ^ k = c * 2 ^ k') (notSplit : t k' c ≠ .split) :
    t k b = .inside := by
  have scaled : b = c * 2 ^ (k' - k) := by
    have split : 2 ^ k' = 2 ^ (k' - k) * 2 ^ k := by
      rw [← pow_add]
      congr 1
      omega
    rw [split, ← mul_assoc] at start
    exact Nat.eq_of_mul_eq_mul_right (Nat.two_pow_pos _) start
  exact shaped.inside_below hk' notSplit lower range (by rw [scaled, Nat.mul_div_cancel _ (Nat.two_pow_pos _)])

theorem apart_of_lt (shaped : Shaped top t) {k b k' c : Nat} (hk' : k' ≤ top) (lower : k < k')
    (range : b < 2 ^ (top - k)) (out : t k b ≠ .inside) (notSplit : t k' c ≠ .split) :
    (b + 1) * 2 ^ k ≤ c * 2 ^ k' ∨ (c + 1) * 2 ^ k' ≤ b * 2 ^ k := by
  have scale : 2 ^ k' = 2 ^ (k' - k) * 2 ^ k := by
    rw [← pow_add]
    congr 1
    omega
  have pos := Nat.two_pow_pos (k' - k)
  -- the larger block is not the one `b` lies in
  have notUnder : b / 2 ^ (k' - k) ≠ c := fun under => out (shaped.inside_below hk' notSplit lower range under)
  rcases Nat.lt_or_gt_of_ne notUnder with before | after
  · have units : b + 1 ≤ c * 2 ^ (k' - k) := (Nat.div_lt_iff_lt_mul pos).mp before
    left
    calc (b + 1) * 2 ^ k ≤ c * 2 ^ (k' - k) * 2 ^ k := Nat.mul_le_mul_right _ units
      _ = c * 2 ^ k' := by rw [scale, mul_assoc]
  · have units : (c + 1) * 2 ^ (k' - k) ≤ b := (Nat.le_div_iff_mul_le pos).mp after
    right
    calc (c + 1) * 2 ^ k' = (c + 1) * 2 ^ (k' - k) * 2 ^ k := by rw [scale, mul_assoc]
      _ ≤ b * 2 ^ k := Nat.mul_le_mul_right _ units

theorem apart (shaped : Shaped top t) {k b k' c : Nat} (hk : k ≤ top) (hk' : k' ≤ top)
    (range : b < 2 ^ (top - k)) (range' : c < 2 ^ (top - k')) (out : t k b ≠ .inside) (notSplit : t k b ≠ .split)
    (out' : t k' c ≠ .inside) (notSplit' : t k' c ≠ .split) (other : ¬(k = k' ∧ b = c)) :
    (b + 1) * 2 ^ k ≤ c * 2 ^ k' ∨ (c + 1) * 2 ^ k' ≤ b * 2 ^ k := by
  rcases Nat.lt_trichotomy k k' with lower | rfl | higher
  · exact shaped.apart_of_lt hk' lower range out notSplit'
  · -- one size: two different blocks of it
    rcases Nat.lt_or_gt_of_ne fun same => other ⟨rfl, same⟩ with before | after
    · exact .inl (Nat.mul_le_mul_right _ before)
    · exact .inr (Nat.mul_le_mul_right _ after)
  · exact (shaped.apart_of_lt hk higher range' out' notSplit).symm

theorem not_reserved_under (shaped : Shaped top t) {k c b : Nat} (hk : k ≤ top) (range : c < 2 ^ (top - k))
    (held : t k c = .held) (lower : c * 2 ^ k ≤ b) (upper : b < (c + 1) * 2 ^ k) : t 0 b ≠ .reserved := by
  intro reserved
  have leaf : b < 2 ^ (top - 0) :=
    calc b < (c + 1) * 2 ^ k := upper
      _ ≤ 2 ^ (top - k) * 2 ^ k := Nat.mul_le_mul_right _ range
      _ = 2 ^ (top - 0) := by rw [← pow_add]; congr 1; omega
  have other : ¬(0 = k ∧ b = c) := by
    rintro ⟨rfl, rfl⟩
    rw [held] at reserved
    cases reserved
  have apart := shaped.apart (Nat.zero_le top) hk leaf range (by rw [reserved]; decide) (by rw [reserved]; decide)
    (by rw [held]; decide) (by rw [held]; decide) other
  simp only [pow_zero, mul_one] at apart
  omega

theorem set_open (shaped : Shaped top t) {k b : Nat} {v : Status} (range : b < 2 ^ (top - k))
    (old : t k b ≠ .inside) (old' : t k b ≠ .split) (new : v ≠ .inside) (new' : v ≠ .split) :
    Shaped top (t.set k b v) := by
  constructor
  · by_cases here : top = k ∧ 0 = b
    · obtain ⟨rfl, rfl⟩ := here
      simpa using new
    · simp (disch := omega) only [Tree.set_of_ne]
      exact shaped.root
  · intro j below c crange
    by_cases here : j = k ∧ c = b
    · obtain ⟨rfl, rfl⟩ := here
      -- the block itself stays out, and its parent stays split
      simp (disch := omega) only [Tree.set_self, Tree.set_of_ne]
      simp [new, shaped.parent_split below crange old]
    · simp (disch := omega) only [Tree.set_of_ne]
      by_cases parent : j + 1 = k ∧ c / 2 = b
      · obtain ⟨rfl, rfl⟩ := parent
        -- a child of the block: inside before and after
        simp [shaped.inside_of_parent below crange old', new']
      · simp (disch := omega) only [Tree.set_of_ne]
        exact shaped.child j below c crange

theorem halve (shaped : Shaped top t) {k b : Nat} (below : k < top) (range : b < 2 ^ (top - (k + 1)))
    (held : t (k + 1) b = .held) :
    Shaped top (((t.set (k + 1) b .split).set k (2 * b) .held).set k (2 * b + 1) .free) := by
  have halves : ∀ c, c / 2 = b → t k c = .inside := fun c half =>
    shaped.inside_of_parent below (lt_of_half_lt below (half ▸ range)) (by rw [half, held]; decide)
  constructor
  · by_cases here : top = k + 1 ∧ 0 = b
    · obtain ⟨rfl, rfl⟩ := here
      simp (disch := omega) only [Tree.set_of_ne, Tree.set_self]
      decide
    · simp (disch := omega) only [Tree.set_of_ne]
      exact shaped.root
  · intro j lower c crange
    by_cases here : j = k + 1 ∧ c = b
    · obtain ⟨rfl, rfl⟩ := here
      -- the parent of the halved block was split already
      have parent := shaped.parent_split lower crange (by rw [held]; decide)
      simp (disch := omega) only [Tree.set_of_ne, Tree.set_self]
      simp [parent]
    by_cases half : j = k ∧ c / 2 = b
    · obtain ⟨rfl, rfl⟩ := half
      have cases : c = 2 * (c / 2) ∨ c = 2 * (c / 2) + 1 := by omega
      rcases cases with lowerHalf | upperHalf
      · rw [lowerHalf]
        simp (disch := omega) only [Tree.set_of_ne, Tree.set_self]
        simp [show 2 * (c / 2) / 2 = c / 2 by omega]
      · rw [upperHalf]
        simp (disch := omega) only [Tree.set_of_ne, Tree.set_self]
        simp [show (2 * (c / 2) + 1) / 2 = c / 2 by omega]
    simp (disch := omega) only [Tree.set_of_ne]
    by_cases quarter : j + 1 = k ∧ c / 2 / 2 = b
    · -- a quarter: inside before, and its new parent is not split
      obtain ⟨rfl, quarter⟩ := quarter
      have old := halves (c / 2) quarter
      rw [shaped.inside_of_parent lower crange (by rw [old]; decide)]
      have cases : c / 2 = 2 * b ∨ c / 2 = 2 * b + 1 := by omega
      rcases cases with parent | parent <;>
        · rw [parent]
          simp (disch := omega) only [Tree.set_of_ne, Tree.set_self]
          decide
    · simp (disch := omega) only [Tree.set_of_ne]
      exact shaped.child j lower c crange

theorem join (shaped : Shaped top t) {k bi : Nat} (below : k < top) (range : bi < 2 ^ (top - k))
    (parent : t (k + 1) (bi / 2) = .split) (own : t k bi ≠ .inside ∧ t k bi ≠ .split)
    (other : t k (buddy bi) ≠ .inside ∧ t k (buddy bi) ≠ .split) :
    Shaped top (((t.set k bi .inside).set k (buddy bi) .inside).set (k + 1) (bi / 2) .held) := by
  have ne := buddy_ne bi
  have halfOf := buddy_div_two bi
  constructor
  · by_cases here : top = k + 1 ∧ 0 = bi / 2
    · obtain ⟨rfl, zero⟩ := here
      rw [zero]
      simp
    · simp (disch := omega) only [Tree.set_of_ne]
      exact shaped.root
  · intro j lower c crange
    by_cases here : j = k + 1 ∧ c = bi / 2
    · obtain ⟨rfl, rfl⟩ := here
      have grand := shaped.parent_split lower crange (by rw [parent]; decide)
      simp (disch := omega) only [Tree.set_of_ne, Tree.set_self]
      simp [grand]
    by_cases half : j = k ∧ c / 2 = bi / 2
    · obtain ⟨rfl, same⟩ := half
      rw [same]
      rcases eq_or_buddy_of_div_two same with rfl | rfl
      · simp (disch := omega) only [Tree.set_of_ne, Tree.set_self]
        decide
      · simp (disch := omega) only [Tree.set_of_ne, Tree.set_self]
        decide
    simp (disch := omega) only [Tree.set_of_ne]
    by_cases quarter : j + 1 = k ∧ (c / 2 = bi ∨ c / 2 = buddy bi)
    · -- a quarter: inside before, and its new parent is inside, not split
      obtain ⟨rfl, quarter | quarter⟩ := quarter
      · rw [shaped.inside_of_parent lower crange (by rw [quarter]; exact own.2), quarter]
        simp (disch := omega) only [Tree.set_of_ne, Tree.set_self]
        decide
      · rw [shaped.inside_of_parent lower crange (by rw [quarter]; exact other.2), quarter]
        simp (disch := omega) only [Tree.set_self]
        decide
    · simp (disch := omega) only [Tree.set_of_ne]
      exact shaped.child j lower c crange

end Shaped

end Xv6.Buddy
