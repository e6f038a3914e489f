import Mathlib

/-!
A machine that takes one event at a time: `step s e` is the state after `e`,
or the panic that stops the machine there. The states a machine reaches from
its initial state are those of its runs, and a property that the initial state
has and every step keeps holds of all of them (`Reachable.of_keeps`). Safety
results over every interleaving of a system are stated this way: one lemma per
step, and this induction once.
-/

namespace Machine

variable {σ ε : Type} {step : σ → ε → Except String σ} {init s s' : σ}

/-- The states of the runs of `step` from `init` that have not panicked. -/
inductive Reachable (step : σ → ε → Except String σ) (init : σ) : σ → Prop where
  | init : Reachable step init init
  | step {s s' : σ} (e : ε) : Reachable step init s → step s e = .ok s' → Reachable step init s'

/-- `P` holds after every step that does not panic, from a state where it holds. -/
def Keeps (step : σ → ε → Except String σ) (P : σ → Prop) : Prop :=
  ∀ s e s', P s → step s e = .ok s' → P s'

/-- The run of `events` from `s`, up to the first panic. -/
def run (step : σ → ε → Except String σ) (s : σ) : List ε → Except String σ
  | [] => .ok s
  | e :: rest =>
      match step s e with
      | .ok s' => run step s' rest
      | .error msg => .error msg

@[simp] theorem pure_eq_ok {α : Type} (a : α) : (pure a : Except String α) = .ok a := rfl

@[simp] theorem ok_bind {α β : Type} (a : α) (f : α → Except String β) :
    (Except.ok a >>= f) = f a := rfl

@[simp] theorem ok_map {α β : Type} (f : α → β) (a : α) :
    (f <$> (Except.ok a : Except String α)) = .ok (f a) := rfl

/-- A `do` block that returned a value ran its first computation to a value. -/
theorem bind_eq_ok {α β : Type} {x : Except String α} {f : α → Except String β} {b : β}
    (ok : (x >>= f) = .ok b) : ∃ a, x = .ok a ∧ f a = .ok b := by
  cases x with
  | error e => cases ok
  | ok a => exact ⟨a, rfl, ok⟩

theorem map_eq_ok {α β : Type} {f : α → β} {x : Except String α} {b : β}
    (ok : x.map f = .ok b) : ∃ a, x = .ok a ∧ f a = b := by
  cases x with
  | error e => cases ok
  | ok a =>
      simp only [Except.map, Except.ok.injEq] at ok
      exact ⟨a, rfl, ok⟩

theorem run_cons_of_step {e : ε} {rest : List ε} (stepped : step s e = .ok s') :
    run step s (e :: rest) = run step s' rest := by
  simp [run, stepped]

theorem foldlM_run {α : Type} {f : σ → α → Except String σ} {P : List α → σ → Prop}
    (pass : ∀ x rest s, P (x :: rest) s → ∃ s', f s x = .ok s' ∧ P rest s') :
    ∀ (xs : List α) (s : σ), P xs s → ∃ s', xs.foldlM f s = .ok s' ∧ P [] s'
  | [], s, start => ⟨s, rfl, start⟩
  | x :: rest, s, start => by
      obtain ⟨mid, stepped, kept⟩ := pass x rest s start
      obtain ⟨s', ran, done⟩ := foldlM_run pass rest mid kept
      exact ⟨s', by rw [List.foldlM_cons, stepped]; exact ran, done⟩

theorem Reachable.of_keeps {P : σ → Prop} (start : P init) (keeps : Keeps step P)
    (reached : Reachable step init s) : P s := by
  induction reached with
  | init => exact start
  | step e _ stepped ih => exact keeps _ e _ ih stepped

theorem Reachable.run {events : List ε} (reached : Reachable step init s)
    (ran : Machine.run step s events = .ok s') : Reachable step init s' := by
  induction events generalizing s with
  | nil =>
      cases ran
      exact reached
  | cons e rest ih =>
      unfold Machine.run at ran
      cases stepped : step s e with
      | error msg =>
          rw [stepped] at ran
          cases ran
      | ok mid =>
          rw [stepped] at ran
          exact ih (reached.step e stepped) ran

end Machine
