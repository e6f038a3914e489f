import Mathlib
import Xv6.Library.Machine

/-!
Postconditions of a computation that returns a value or panics:
`Returns x P E` says that `x` returns a value with `P`, or panics with a
message that `E` allows. The rules take it through `pure`, `do` blocks and
counted loops, so that what a loop keeps is proved one pass at a time and what
a routine can panic with is read off the routines it calls.
-/

namespace Machine

variable {α β σ : Type} {P Q : α → Prop} {E E' : String → Prop}

/-- `x` returns a value with `P`, or panics with a message `E` allows. -/
def Returns (x : Except String α) (P : α → Prop) (E : String → Prop) : Prop :=
  match x with
  | .ok a => P a
  | .error msg => E msg

@[simp] theorem returns_ok (a : α) : Returns (.ok a) P E ↔ P a := Iff.rfl

@[simp] theorem returns_error (msg : String) : Returns (.error msg : Except String α) P E ↔ E msg :=
  Iff.rfl

theorem returns_pure {a : α} (holds : P a) : Returns (pure a) P E := holds

theorem Returns.mono {x : Except String α} (ret : Returns x P E) (post : ∀ a, P a → Q a)
    (panics : ∀ msg, E msg → E' msg) : Returns x Q E' := by
  cases x with
  | ok a => exact post a ret
  | error msg => exact panics msg ret

theorem Returns.bind {x : Except String α} {f : α → Except String β} {Q : β → Prop}
    (first : Returns x P E) (rest : ∀ a, P a → Returns (f a) Q E) : Returns (x >>= f) Q E := by
  cases x with
  | ok a => exact rest a first
  | error msg => exact first

/-- The postcondition may name the value returned. -/
theorem Returns.self {x : Except String α} (ret : Returns x P E) : Returns x (fun a => x = .ok a ∧ P a) E := by
  cases x with
  | ok a => exact ⟨rfl, ret⟩
  | error msg => exact ret

theorem Returns.of_ok {x : Except String α} {a : α} (ret : Returns x P E) (ran : x = .ok a) : P a := by
  subst ran
  exact ret

theorem Returns.of_error {x : Except String α} {msg : String} (ret : Returns x P E) (ran : x = .error msg) :
    E msg := by
  subst ran
  exact ret

theorem Returns.foldlM_range {f : σ → Nat → Except String σ} {I : Nat → σ → Prop} (n : Nat)
    (pass : ∀ i < n, ∀ s, I i s → Returns (f s i) (I (i + 1)) E) {s : σ} (start : I 0 s) :
    Returns ((List.range n).foldlM f s) (I n) E := by
  induction n with
  | zero => exact start
  | succ n ih =>
      rw [List.range_succ, List.foldlM_append]
      refine (ih fun i below => pass i (by omega)).bind fun s' kept => ?_
      simp only [List.foldlM_cons, List.foldlM_nil, bind_pure]
      exact pass n (by omega) s' kept

end Machine
