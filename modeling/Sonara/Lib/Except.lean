import Mathlib.Logic.Basic

/-!
# Computations that may fail

A chain of steps that may each fail succeeds only when each step does. The rules take
a successful chain apart from its first step, so a proof never looks into the steps it
is not about.
-/

namespace Lib

variable {ε ε' α β : Type}

theorem bind_ok {x : Except ε α} {f : α → Except ε β} {b : β} (h : x >>= f = .ok b) :
    ∃ a, x = .ok a ∧ f a = .ok b := by
  cases x with
  | error e => cases h
  | ok a => exact ⟨a, rfl, h⟩

theorem mapError_ok {f : ε → ε'} {x : Except ε α} {a : α} (h : x.mapError f = .ok a) :
    x = .ok a := by
  cases x with
  | error e => cases h
  | ok b => exact congrArg _ (Except.ok.inj h)

theorem elim_ok {e : ε} {x : Option α} {a : α} (h : x.elim (Except.error e) Except.ok = .ok a) :
    x = some a := by
  cases x with
  | none => cases h
  | some b => exact congrArg _ (Except.ok.inj h)

end Lib
