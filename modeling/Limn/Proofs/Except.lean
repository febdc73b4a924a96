import Limn.Error

/-! # Steps in a row

Results and errors of steps one after the other: a row of steps gives what its last step gives if
all of them succeed, and the error of the first that fails.
-/

namespace Limn

variable {α β : Type}

theorem bind_eq_ok {x : Except Error α} {f : α → Except Error β} {b : β}
    (h : x >>= f = .ok b) : ∃ a, x = .ok a ∧ f a = .ok b := by
  cases x with
  | error e => contradiction
  | ok a => exact ⟨a, rfl, h⟩

theorem bind_eq_error (x : Except Error α) (f : α → Except Error β) (e : Error) :
    x >>= f = .error e ↔ x = .error e ∨ ∃ a, x = .ok a ∧ f a = .error e := by
  cases x with
  | error e' =>
      show (.error e' : Except Error β) = .error e ↔ _
      simp
  | ok a =>
      show f a = .error e ↔ _
      simp

theorem map_eq_error (x : Except Error α) (f : α → β) (e : Error) :
    (x >>= fun a => pure (f a)) = .error e ↔ x = .error e := by
  rw [bind_eq_error]
  constructor
  · rintro (h | ⟨a, -, h⟩)
    · exact h
    · contradiction
  · exact .inl

end Limn
