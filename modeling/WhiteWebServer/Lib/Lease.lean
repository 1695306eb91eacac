import Mathlib.Data.List.Basic

/-!
# One resource at a time

A trace of acquisitions and releases in which at most one thing is held. `settled` is an
event at which nothing may be held; what a use may do depends on what is held then.

- `Runs.append`: traces compose.
- `Runs.released`: what is acquired is released, once and as what it was acquired, before the
  trace is settled and before anything else is acquired.
-/

universe u v

namespace Lease

inductive Event (α : Type u) (β : Type v) where
  | acquire (a : α)
  | release (a : α)
  | settled
  | use (b : β)

variable {α : Type u} {β : Type v} {Allowed : Option α → β → Prop}

/-- What may happen while something is held, or nothing. -/
inductive Step (Allowed : Option α → β → Prop) : Option α → Event α β → Option α → Prop
  | acquire (a : α) : Step Allowed none (.acquire a) (some a)
  | release (a : α) : Step Allowed (some a) (.release a) none
  | settled : Step Allowed none .settled none
  | use {held : Option α} {b : β} (h : Allowed held b) : Step Allowed held (.use b) held

inductive Runs (Allowed : Option α → β → Prop) : Option α → List (Event α β) → Option α → Prop
  | nil (held : Option α) : Runs Allowed held [] held
  | cons {held held₁ held₂ : Option α} {e : Event α β} {es : List (Event α β)} :
      Step Allowed held e held₁ → Runs Allowed held₁ es held₂ → Runs Allowed held (e :: es) held₂

theorem Runs.append {es fs : List (Event α β)} {held held₁ held₂ : Option α}
    (h : Runs Allowed held es held₁) (h' : Runs Allowed held₁ fs held₂) :
    Runs Allowed held (es ++ fs) held₂ := by
  induction h with
  | nil held => exact h'
  | cons hstep _ ih => exact .cons hstep (ih h')

theorem Runs.split {es fs : List (Event α β)} {held held₂ : Option α}
    (h : Runs Allowed held (es ++ fs) held₂) :
    ∃ held₁, Runs Allowed held es held₁ ∧ Runs Allowed held₁ fs held₂ := by
  induction es generalizing held with
  | nil => exact ⟨held, .nil held, h⟩
  | cons e es ih =>
      cases h with
      | cons hstep hrest =>
          obtain ⟨held₁, hes, hfs⟩ := ih hrest
          exact ⟨held₁, .cons hstep hes, hfs⟩

theorem Runs.held_released {a : α} {es : List (Event α β)} {held : Option α}
    (h : Runs Allowed (some a) es held) (hsettled : .settled ∈ es) :
    ∃ mid rest, es = mid ++ .release a :: rest ∧ ∀ e ∈ mid, ∃ b, e = .use b := by
  induction es with
  | nil => cases hsettled
  | cons e es ih =>
      cases h with
      | cons hstep hrest =>
          cases hstep with
          | release a => exact ⟨[], es, rfl, by simp⟩
          | @use _ b huse =>
              obtain ⟨mid, rest, hes, hmid⟩ := ih hrest (by simpa using hsettled)
              refine ⟨.use b :: mid, rest, by rw [hes]; rfl, fun e he => ?_⟩
              rcases List.mem_cons.mp he with rfl | he
              · exact ⟨b, rfl⟩
              · exact hmid e he

/-- What is acquired before the trace is settled is released first, with only uses between. -/
theorem Runs.released {a : α} {before after : List (Event α β)} {held held' : Option α}
    (h : Runs Allowed held (before ++ .acquire a :: after) held') (hsettled : .settled ∈ after) :
    ∃ mid rest, after = mid ++ .release a :: rest ∧ ∀ e ∈ mid, ∃ b, e = .use b := by
  obtain ⟨held₁, -, hrest⟩ := h.split
  cases hrest with
  | cons hstep hafter =>
      cases hstep with
      | acquire a => exact hafter.held_released hsettled

end Lease
