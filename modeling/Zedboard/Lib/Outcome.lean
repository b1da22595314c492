import Mathlib.Tactic.Common

/-!
# How a program ends

A program of `EStateM` is a function, so from a given state it ends in one way only: it returns, or
it stops with an error.  `Returns x s Q` and `Stops x s e Q` say which of the two it is, and what
holds then; the rules below follow a program along its binds.

`eq_ok_of_bind` is the way back: what is known about a program that has returned.
-/

set_option autoImplicit false

namespace Zedboard

variable {ε σ α β : Type}

/-- The program returns, and `Q` holds of its result and of the state it leaves. -/
def Returns (x : EStateM ε σ α) (s : σ) (Q : α → σ → Prop) : Prop :=
  ∃ a s', x s = .ok a s' ∧ Q a s'

/-- The program stops with the error `e`, and `Q` holds of the state it leaves. -/
def Stops (x : EStateM ε σ α) (s : σ) (e : ε) (Q : σ → Prop) : Prop :=
  ∃ s', x s = .error e s' ∧ Q s'

/-- The state in which the program ends, in one way or the other. -/
def final (x : EStateM ε σ α) (s : σ) : σ :=
  match x s with
  | .ok _ s' => s'
  | .error _ s' => s'

variable {x : EStateM ε σ α} {f : α → EStateM ε σ β} {s s' : σ} {a : α} {e : ε}
  {Q : α → σ → Prop} {T : σ → Prop}

theorem bind_of_ok (h : x s = .ok a s') : (x >>= f) s = f a s' := by
  show EStateM.bind x f s = f a s'
  rw [EStateM.bind, h]

theorem bind_of_error (h : x s = .error e s') : (x >>= f) s = .error e s' := by
  show EStateM.bind x f s = .error e s'
  rw [EStateM.bind, h]

theorem final_of_ok (h : x s = .ok a s') : final x s = s' := by rw [final, h]

theorem final_of_error (h : x s = .error e s') : final x s = s' := by rw [final, h]

theorem final_bind (h : x s = .ok a s') : final (x >>= f) s = final (f a) s' := by
  rw [final, final, bind_of_ok h]

/-- A program that has returned has returned from each of its parts. -/
theorem eq_ok_of_bind {b : β} {s'' : σ} (h : (x >>= f) s = .ok b s'') :
    ∃ a s', x s = .ok a s' ∧ f a s' = .ok b s'' := by
  cases hx : x s with
  | ok a s' => exact ⟨a, s', rfl, by rw [← h, bind_of_ok hx]⟩
  | error e s' => rw [bind_of_error hx] at h; exact absurd h (by simp)

theorem eq_of_pure {b : α} (h : (pure a : EStateM ε σ α) s = .ok b s') : b = a ∧ s' = s := by
  cases h
  exact ⟨rfl, rfl⟩

namespace Returns

/-- The first part returns, and the other one does not. -/
theorem bind_stops (h : Returns x s Q) (hf : ∀ a s', Q a s' → Stops (f a) s' e T) :
    Stops (x >>= f) s e T := by
  obtain ⟨a, s', hx, hq⟩ := h
  obtain ⟨s'', hfa, hr⟩ := hf a s' hq
  exact ⟨s'', by rw [bind_of_ok hx, hfa], hr⟩

end Returns

namespace Stops

/-- Nothing comes after an error. -/
theorem bind (h : Stops x s e T) : Stops (x >>= f) s e T := by
  obtain ⟨s', hx, ht⟩ := h
  exact ⟨s', bind_of_error hx, ht⟩

theorem mono (h : Stops x s e T) {T' : σ → Prop} (ht : ∀ s', T s' → T' s') : Stops x s e T' := by
  obtain ⟨s', hx, h⟩ := h
  exact ⟨s', hx, ht s' h⟩

/-- What holds of the state in which the program ends. -/
theorem final (h : Stops x s e T) : T (final x s) := by
  obtain ⟨s', hx, ht⟩ := h
  rwa [final_of_error hx]

/-- The program cannot have returned. -/
theorem not_ok (h : Stops x s e T) : x s ≠ .ok a s' := by
  obtain ⟨s'', hx, -⟩ := h
  rw [hx]
  simp

end Stops

end Zedboard
