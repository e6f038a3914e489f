import Mathlib

/-!
A ring buffer of `size` slots read through free-running counters: the slot of
position `i` is `i % size`, and the bytes held are the `count` positions from
`head`. A counter kept as a 32-bit unsigned integer wraps at `2 ^ 32`, which a
`size` that divides it does not see (`toNat_succ_mod`).
-/

namespace Ring

variable {α : Type} (size : Nat)

/-- `count` slots of the ring, oldest first, from position `head`. -/
def contents (data : Nat → α) (head : Nat) : Nat → List α
  | 0 => []
  | count + 1 => contents data head count ++ [data ((head + count) % size)]

section Contents

variable {size} (data : Nat → α)

@[simp] theorem contents_length (head count : Nat) : (contents size data head count).length = count := by
  induction count with
  | zero => rfl
  | succ count ih => simp [contents, ih]

/-- Only the position of `head` within the ring matters. -/
theorem contents_congr_mod {head head' : Nat} (same : head % size = head' % size) (count : Nat) :
    contents size data head count = contents size data head' count := by
  induction count with
  | zero => rfl
  | succ count ih =>
      have slot : (head + count) % size = (head' + count) % size := by
        rw [Nat.add_mod, same, ← Nat.add_mod]
      simp only [contents, ih, slot]

theorem contents_update_beyond (head count k : Nat) (x : α) (beyond : count ≤ k) (within : k < size) :
    contents size (Function.update data ((head + k) % size) x) head count = contents size data head count := by
  induction count with
  | zero => rfl
  | succ count ih =>
      have apart : (head + count) % size ≠ (head + k) % size := by
        intro same
        have := Nat.ModEq.add_left_cancel' head same
        rw [Nat.ModEq, Nat.mod_eq_of_lt (by omega), Nat.mod_eq_of_lt within] at this
        omega
      simp only [contents, ih (by omega), Function.update_of_ne apart]

theorem contents_push (head count : Nat) (x : α) (room : count < size) :
    contents size (Function.update data ((head + count) % size) x) head (count + 1) =
      contents size data head count ++ [x] := by
  rw [contents, contents_update_beyond data head count count x le_rfl room, Function.update_self]

theorem contents_pop (head count : Nat) :
    contents size data head (count + 1) = data (head % size) :: contents size data (head + 1) count := by
  induction count with
  | zero => simp [contents]
  | succ count ih =>
      rw [contents, ih, contents]
      simp only [List.cons_append, Nat.add_right_comm head 1 count, Nat.add_assoc]

theorem contents_append (head a b : Nat) :
    contents size data head (a + b) = contents size data head a ++ contents size data (head + a) b := by
  induction b with
  | zero => simp [contents]
  | succ b ih =>
      rw [← Nat.add_assoc, contents, ih, contents, List.append_assoc, Nat.add_assoc]

end Contents

section Counters

theorem toNat_succ_mod {size} (divides : size ∣ 2 ^ 32) (x : UInt32) :
    (x + 1).toNat % size = (x.toNat + 1) % size := by
  rw [UInt32.toNat_add, UInt32.toNat_one]
  exact Nat.mod_mod_of_dvd _ divides

theorem toNat_sub_eq {a b : UInt32} {d : Nat} (dist : (b - a).toNat = d) :
    (a.toNat + d) % 2 ^ 32 = b.toNat := by
  rw [← dist, UInt32.toNat_sub]
  have := a.toNat_lt
  have := b.toNat_lt
  omega

end Counters

end Ring
