import Mathlib

/-!
A `for` loop that stops at the first index passing a test: `firstFrom p hi lo`
is the first `i` with `lo ≤ i < hi` and `p i`. What such a loop returns is
characterised here by where it stops and what it skipped, so a caller never
unfolds the recursion.
-/

namespace Scan

/-- The first `i` with `lo ≤ i < hi` and `p i`, scanning up from `lo`. -/
def firstFrom (p : Nat → Bool) (hi lo : Nat) : Option Nat :=
  if lo < hi then (if p lo then some lo else firstFrom p hi (lo + 1)) else none
termination_by hi - lo

variable {p : Nat → Bool} {hi lo i : Nat}

theorem firstFrom_of_ge (done : hi ≤ lo) : firstFrom p hi lo = none := by
  rw [firstFrom, if_neg (by omega)]

theorem firstFrom_of_pass (below : lo < hi) (pass : p lo) : firstFrom p hi lo = some lo := by
  rw [firstFrom, if_pos below, if_pos pass]

theorem firstFrom_of_fail (below : lo < hi) (fail : p lo = false) :
    firstFrom p hi lo = firstFrom p hi (lo + 1) := by
  rw [firstFrom, if_pos below, if_neg (by simp [fail])]

/-- Where the loop stops: in range, passing, and after indices that all fail. -/
theorem firstFrom_some (found : firstFrom p hi lo = some i) :
    lo ≤ i ∧ i < hi ∧ p i ∧ ∀ j, lo ≤ j → j < i → p j = false := by
  induction lo using firstFrom.induct p hi with
  | case1 lo below pass =>
      rw [firstFrom_of_pass below pass] at found
      cases found
      exact ⟨le_refl _, below, pass, fun j lower upper => absurd upper (by omega)⟩
  | case2 lo below pass ih =>
      have fail : p lo = false := by simpa using pass
      rw [firstFrom_of_fail below fail] at found
      obtain ⟨lower, upper, passes, skipped⟩ := ih found
      refine ⟨by omega, upper, passes, fun j lower' upper' => ?_⟩
      by_cases first : j = lo
      · rw [first]
        exact fail
      · exact skipped j (by omega) upper'
  | case3 lo done =>
      rw [firstFrom_of_ge (by omega)] at found
      cases found

theorem firstFrom_none (missing : firstFrom p hi lo = none) : ∀ j, lo ≤ j → j < hi → p j = false := by
  induction lo using firstFrom.induct p hi with
  | case1 lo below pass =>
      rw [firstFrom_of_pass below pass] at missing
      cases missing
  | case2 lo below pass ih =>
      have fail : p lo = false := by simpa using pass
      rw [firstFrom_of_fail below fail] at missing
      intro j lower upper
      by_cases first : j = lo
      · rw [first]
        exact fail
      · exact ih missing j (by omega) upper
  | case3 lo done => exact fun j lower upper => absurd upper (by omega)

theorem firstFrom_eq_some (lower : lo ≤ i) (upper : i < hi) (pass : p i)
    (skipped : ∀ j, lo ≤ j → j < i → p j = false) : firstFrom p hi lo = some i := by
  cases found : firstFrom p hi lo with
  | none => simp [firstFrom_none found i lower upper] at pass
  | some k =>
      obtain ⟨lower', upper', pass', skipped'⟩ := firstFrom_some found
      -- neither can stop before the other
      rcases Nat.lt_trichotomy k i with before | same | after
      · simp [skipped k lower' before] at pass'
      · rw [same]
      · simp [skipped' i lower after] at pass

end Scan
