import Mathlib.Logic.Basic

/-!
# Effects that can be cut short

A process leaves behind what its effects did so far. When it stops between two of them the
rest never happen, so what must be there after a crash must hold `Along` the effects: before
the first, after the last, and between any two.
-/

namespace Lib

variable {σ ε : Type}

/-- What the effects leave, one after another. -/
def after (step : σ → ε → σ) (s : σ) (es : List ε) : σ := es.foldl step s

/-- `P` holds wherever the effects stop. -/
def Along (step : σ → ε → σ) (P : σ → Prop) : σ → List ε → Prop
  | s, [] => P s
  | s, e :: es => P s ∧ Along step P (step s e) es

variable {step : σ → ε → σ} {P Q : σ → Prop} {s : σ} {e : ε} {es es' : List ε}

theorem after_append : after step s (es ++ es') = after step (after step s es) es' :=
  List.foldl_append

namespace Along

/-- **A crash after `k` effects finds what holds along them.** -/
theorem cut (h : Along step P s es) (k : Nat) : P (after step s (es.take k)) := by
  induction es generalizing s k with
  | nil => rwa [List.take_nil]
  | cons e es ih =>
    cases k with
    | zero => exact h.1
    | succ k => exact ih h.2 k

theorem last (h : Along step P s es) : P (after step s es) := by
  have := h.cut es.length
  rwa [List.take_length] at this

theorem append (h : Along step P s es) (h' : Along step P (after step s es) es') :
    Along step P s (es ++ es') := by
  induction es generalizing s with
  | nil => exact h'
  | cons e es ih => exact ⟨h.1, ih h.2 h'⟩

/-- One more effect at the end. -/
theorem snoc (h : Along step P s es) (h' : P (step (after step s es) e)) :
    Along step P s (es ++ [e]) :=
  h.append ⟨h.last, h'⟩

/-- Effects that each keep `P` keep it along them. -/
theorem of_keeps (hs : P s) (keep : ∀ e ∈ es, ∀ t, P t → P (step t e)) : Along step P s es := by
  induction es generalizing s with
  | nil => exact hs
  | cons e es ih =>
    exact ⟨hs, ih (keep e List.mem_cons_self s hs) fun e' he' =>
      keep e' (List.mem_cons_of_mem _ he')⟩

end Along

end Lib
