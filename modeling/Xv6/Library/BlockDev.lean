import Mathlib

/-!
Block devices whose writes are synchronous and atomic: a device is a function
from block numbers to contents, a run of the device is the list of writes
issued in order, and a crash stops that list after any prefix.
-/

namespace BlockDev

variable {β : Type}

/-- The device after the writes, in order; a later write to a block wins. -/
def apply (d : Nat → β) : List (Nat × β) → Nat → β
  | [] => d
  | w :: rest => apply (Function.update d w.1 w.2) rest

@[simp] theorem apply_nil (d : Nat → β) : apply d [] = d := rfl

@[simp] theorem apply_cons (d : Nat → β) (w : Nat × β) (rest : List (Nat × β)) :
    apply d (w :: rest) = apply (Function.update d w.1 w.2) rest := rfl

theorem apply_append (d : Nat → β) (ws vs : List (Nat × β)) :
    apply d (ws ++ vs) = apply (apply d ws) vs := by
  induction ws generalizing d with
  | nil => rfl
  | cons w rest ih => exact ih _

theorem apply_snoc (d : Nat → β) (ws : List (Nat × β)) (w : Nat × β) :
    apply d (ws ++ [w]) = Function.update (apply d ws) w.1 w.2 := by
  rw [apply_append, apply_cons, apply_nil]

/-- A block that no write names keeps its contents. -/
theorem apply_of_unwritten (d : Nat → β) (ws : List (Nat × β)) (b : Nat)
    (unwritten : ∀ w ∈ ws, w.1 ≠ b) : apply d ws b = d b := by
  induction ws generalizing d with
  | nil => rfl
  | cons w rest ih =>
      rw [apply_cons, ih _ fun v mem => unwritten v (.tail _ mem)]
      exact Function.update_of_ne (unwritten w (.head _)).symm _ _

theorem apply_congr (d d' : Nat → β) (ws : List (Nat × β)) (b : Nat)
    (agree : (∃ w ∈ ws, w.1 = b) ∨ d b = d' b) : apply d ws b = apply d' ws b := by
  induction ws generalizing d d' with
  | nil =>
      rcases agree with ⟨w, mem, _⟩ | same
      · cases mem
      · exact same
  | cons w rest ih =>
      apply ih
      by_cases hit : w.1 = b
      · subst hit
        exact .inr (by simp)
      · rcases agree with ⟨v, mem, named⟩ | same
        · rcases List.mem_cons.mp mem with rfl | later
          · exact absurd named hit
          · exact .inl ⟨v, later, named⟩
        · right
          rw [Function.update_of_ne (Ne.symm hit), Function.update_of_ne (Ne.symm hit), same]

theorem apply_take_append (d : Nat → β) (ws vs : List (Nat × β)) (k : Nat) :
    apply d ((ws ++ vs).take k) =
      if k ≤ ws.length then apply d (ws.take k)
      else apply (apply d ws) (vs.take (k - ws.length)) := by
  rw [List.take_append]
  split
  · rename_i within
    have none : k - ws.length = 0 := by omega
    rw [none, List.take_zero, List.append_nil]
  · rename_i beyond
    rw [List.take_of_length_le (by omega), apply_append]

end BlockDev
