import Mathlib

/-!
Dyadic blocks and arrays laid end to end.

An interval `[u, v)` of units is cut into aligned blocks of `2^k` units: at
level `k` its ends are `⌈u / 2^k⌉` and `⌊v / 2^k⌋`, so each level halves the
ends of the one below, rounding the left end up (`ceil_halve`) and the right
end down. At each level the block at the left end is one of the pieces when
that end is odd, and so is the block just before the right end when that end
is odd: `edges l r` counts them, and their sizes add up to `r - l`
(`edges_telescope`).

Arrays laid end to end, array `k` at `start k` with `w k` places, give every
place `start k + i` with `i < w k` one array and one index (`consecutive_inj`).
-/

namespace DyadicCut

theorem lt_ceil_iff {u d b : Nat} (pos : 0 < d) : b < (u + d - 1) / d ↔ b * d < u := by
  rw [← Nat.succ_le_iff, Nat.le_div_iff_mul_le pos]
  constructor <;> intro h
  · rw [Nat.succ_mul] at h
    omega
  · rw [Nat.succ_mul]
    omega

theorem ceil_eq (x : Nat) {d : Nat} (pos : 0 < d) :
    (if x % d ≠ 0 then x / d + 1 else x / d) = (x + d - 1) / d := by
  have rest := Nat.mod_lt x pos
  have whole := Nat.div_add_mod x d
  generalize x % d = r at *
  generalize x / d = q at *
  subst whole
  rw [show d * q + r + d - 1 = (r + d - 1) + d * q by omega, Nat.add_mul_div_left _ _ pos]
  split_ifs with inexact
  · rw [Nat.div_eq_of_lt_le (k := 1) (by omega) (by omega)]
    omega
  · rw [Nat.div_eq_of_lt (by omega), zero_add]

theorem ceil_halve (u : Nat) {d : Nat} (pos : 0 < d) : ((u + d - 1) / d + 1) / 2 = (u + d * 2 - 1) / (d * 2) := by
  rw [← Nat.add_div_right _ pos, Nat.div_div_eq_div_mul]
  congr 1
  omega

/-- The pieces one level of the decomposition takes when its ends are `l` and `r`. -/
def edges (l r : Nat) : Nat := if l < r then l % 2 + r % 2 else 0

/-- One level: the span between the ends is its edge pieces and twice the span
of the next level. -/
theorem edges_step (l r : Nat) : r - l = edges l r + 2 * (r / 2 - (l + 1) / 2) := by
  unfold edges
  split_ifs <;> omega

theorem edges_telescope (L R : Nat → Nat) (up : ∀ k, L (k + 1) = (L k + 1) / 2)
    (down : ∀ k, R (k + 1) = R k / 2) (K : Nat) :
    (∑ k ∈ Finset.range K, 2 ^ k * edges (L k) (R k)) + 2 ^ K * (R K - L K) = R 0 - L 0 := by
  induction K with
  | zero => simp
  | succ K ih =>
      rw [Finset.sum_range_succ, up K, down K, ← ih, edges_step (L K) (R K)]
      ring

section Consecutive

variable (start w : Nat → Nat)

theorem consecutive_mono (next : ∀ k, start (k + 1) = start k + w k) {k k' : Nat} (le : k ≤ k') :
    start k ≤ start k' := by
  induction k', le using Nat.le_induction with
  | base => exact le_refl _
  | succ k' _ ih =>
      rw [next k']
      exact le_add_right ih

theorem consecutive_inj (next : ∀ k, start (k + 1) = start k + w k) {k k' i i' : Nat}
    (inside : i < w k) (inside' : i' < w k') (same : start k + i = start k' + i') : k = k' ∧ i = i' := by
  -- an array ends where the next begins, so a later array starts past every place of this one
  have before : ∀ {a b j : Nat}, a < b → j < w a → start a + j < start b := fun {a b j} lt small =>
    calc start a + j < start (a + 1) := by rw [next a]; omega
      _ ≤ start b := consecutive_mono start w next lt
  rcases Nat.lt_trichotomy k k' with lt | rfl | gt
  · exact absurd same (ne_of_lt (lt_of_lt_of_le (before lt inside) (Nat.le_add_right _ _)))
  · exact ⟨rfl, by omega⟩
  · exact absurd same.symm (ne_of_lt (lt_of_lt_of_le (before gt inside') (Nat.le_add_right _ _)))

end Consecutive

end DyadicCut
