import Mathlib.Logic.Function.Basic

/-!
# Failing calls

The calls of the model that can fail return `Except`.  These two lemmas take a successful call
apart into the calls it is made of, so that no proof unfolds `Except.map` or `Except.bind`.
-/

namespace Bustub

theorem except_map_eq_ok {ε α β : Type} {x : Except ε α} {g : α → β} {b : β} :
    x.map g = .ok b ↔ ∃ a, x = .ok a ∧ g a = b := by
  cases x <;> simp [Except.map]

theorem except_bind_eq_ok {ε α β : Type} {x : Except ε α} {g : α → Except ε β} {b : β} :
    x >>= g = .ok b ↔ ∃ a, x = .ok a ∧ g a = .ok b := by
  cases x <;> simp [bind, Except.bind]

end Bustub
