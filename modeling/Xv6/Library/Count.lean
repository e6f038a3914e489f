import Mathlib

/-!
Reference counts read off a table of optional pointers: `refs g b` is the
number of entries of `g` that point to `b`. Writing a pointer into an empty
entry adds one reference to its target, and clearing an entry removes one.
-/

namespace Count

variable {ι β : Type} [Fintype ι] [DecidableEq β]

/-- The number of entries of `g` that point to `b`. -/
def refs (g : ι → Option β) (b : β) : Nat :=
  (Finset.univ.filter fun i => g i = some b).card

variable {g : ι → Option β} {i : ι} {b c : β}

theorem refs_pos (held : g i = some b) : 0 < refs g b :=
  Finset.card_pos.mpr ⟨i, by simp [held]⟩

theorem refs_eq_zero : refs g b = 0 ↔ ∀ i, g i ≠ some b := by
  simp [refs, Finset.card_eq_zero, Finset.filter_eq_empty_iff]

variable [DecidableEq ι]

/-- Filling an empty entry with a pointer to `b`. -/
theorem refs_fill (empty : g i = none) (b c : β) :
    refs (Function.update g i (some b)) c = refs g c + if c = b then 1 else 0 := by
  by_cases same : c = b
  · subst same
    have grown : (Finset.univ.filter fun j => Function.update g i (some c) j = some c) =
        insert i (Finset.univ.filter fun j => g j = some c) := by
      ext j
      by_cases here : j = i
      · subst here
        simp
      · simp [here]
    have fresh : i ∉ Finset.univ.filter fun j => g j = some c := by simp [empty]
    simp [refs, grown, Finset.card_insert_of_notMem fresh]
  · have same' : (Finset.univ.filter fun j => Function.update g i (some b) j = some c) =
        Finset.univ.filter fun j => g j = some c := by
      ext j
      by_cases here : j = i
      · subst here
        simp [empty, Ne.symm same]
      · simp [here]
    simp [refs, same', same]

theorem refs_clear (held : g i = some b) (c : β) :
    refs (Function.update g i none) c + (if c = b then 1 else 0) = refs g c := by
  have back : Function.update (Function.update g i none) i (some b) = g := by
    rw [Function.update_idem, ← held, Function.update_eq_self]
  have filled := refs_fill (Function.update_self i none g) b c
  rw [back] at filled
  exact filled.symm

end Count
