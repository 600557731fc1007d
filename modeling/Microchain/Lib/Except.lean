import Mathlib.Logic.Basic

/-!
# Computations that may throw

The inversion rules: a sequence that returned has gone through each of its parts
(`ok_of_bind`, `ok_of_map`).
-/

namespace Microchain.Lib

universe u v

variable {ε : Type u} {α β : Type v}

theorem ok_of_bind {x : Except ε α} {k : α → Except ε β} {b : β} (h : (x >>= k) = .ok b) :
    ∃ a, x = .ok a ∧ k a = .ok b := by
  cases x with
  | error e => cases h
  | ok a => exact ⟨a, rfl, h⟩

theorem ok_of_map {x : Except ε α} {f : α → β} {b : β} (h : x.map f = .ok b) :
    ∃ a, x = .ok a ∧ f a = b := by
  cases x with
  | error e => cases h
  | ok a => exact ⟨a, rfl, Except.ok.inj h⟩

end Microchain.Lib
