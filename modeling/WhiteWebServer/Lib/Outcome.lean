import Mathlib.Logic.Basic

/-!
# Outcomes of fallible code

What is known of the parts of a computation in `Except` that has succeeded, or failed.
-/

universe u v w

namespace Outcome

variable {ε : Type u} {α β : Type v} {γ : Type w}

theorem bind_eq_ok {x : Except ε α} {f : α → Except ε β} {r : β} :
    x >>= f = .ok r ↔ ∃ a, x = .ok a ∧ f a = .ok r := by
  cases x with
  | error e => simp [bind, Except.bind]
  | ok a => simp [bind, Except.bind]

theorem bind_eq_error {x : Except ε α} {f : α → Except ε β} {e : ε} :
    x >>= f = .error e ↔ x = .error e ∨ ∃ a, x = .ok a ∧ f a = .error e := by
  cases x with
  | error e => simp [bind, Except.bind]
  | ok a => simp [bind, Except.bind]

theorem map_eq_ok {x : Except ε α} {f : α → β} {r : β} (h : x.map f = .ok r) :
    ∃ a, x = .ok a ∧ r = f a := by
  rcases x with e | a
  · cases h
  · exact ⟨a, rfl, (Except.ok.inj h).symm⟩

/-- Where only a success counts, and is then made into something else. -/
theorem toOption_map_eq_some {x : Except ε α} {f : α → γ} {c : γ}
    (h : x.toOption.map f = some c) : ∃ a, x = .ok a ∧ f a = c := by
  rcases x with e | a
  · cases h
  · exact ⟨a, rfl, Option.some.inj h⟩

end Outcome
