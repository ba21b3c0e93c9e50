/-!
# Paths of moves that emit outputs

A method that is a sequence of small steps is a `Path` of `Move`s: each move takes a
state to the next and emits some outputs, and the path emits them all, in order.
What every move keeps, a path keeps (`Path.invariant`); a relation between the ends
and the outputs that composes holds of a path when it holds of every move
(`Path.lift`).
-/

namespace Lib

variable {σ ω : Type}

/-- The moves from one state to another, and what they emit. -/
inductive Path (Move : σ → σ → List ω → Prop) : σ → σ → List ω → Prop
  | refl (s : σ) : Path Move s s []
  | snoc {s s' s'' : σ} {out o : List ω} (p : Path Move s s' out) (m : Move s' s'' o) :
      Path Move s s'' (out ++ o)

namespace Path

variable {Move : σ → σ → List ω → Prop} {s s' s'' : σ} {out o : List ω}

theorem single (m : Move s s' o) : Path Move s s' o := by
  have h := Path.snoc (.refl s) m
  rwa [List.nil_append] at h

theorem trans (p : Path Move s s' out) (q : Path Move s' s'' o) : Path Move s s'' (out ++ o) := by
  induction q with
  | refl => rwa [List.append_nil]
  | snoc _ m ih =>
    rw [← List.append_assoc]
    exact ih.snoc m

/-- Another path, that emits nothing. -/
theorem thenSilent (p : Path Move s s' out) (q : Path Move s' s'' []) : Path Move s s'' out := by
  have h := p.trans q
  rwa [List.append_nil] at h

/-- A path behind one that emits nothing. -/
theorem afterSilent (p : Path Move s s' []) (q : Path Move s' s'' o) : Path Move s s'' o :=
  p.trans q

/-- **The rule for a relation between the ends of a path and what it emits.** -/
theorem lift {R : σ → σ → List ω → Prop} (refl : ∀ s, R s s [])
    (snoc : ∀ {s s' s'' out o}, R s s' out → Move s' s'' o → R s s'' (out ++ o))
    (p : Path Move s s' out) : R s s' out := by
  induction p with
  | refl => exact refl _
  | snoc _ m ih => exact snoc ih m

/-- **The rule for an invariant of the states on a path.** -/
theorem invariant {P : σ → Prop} (step : ∀ {s s' o}, P s → Move s s' o → P s')
    (p : Path Move s s' out) (h : P s) : P s' := by
  induction p with
  | refl => exact h
  | snoc _ m ih => exact step ih m

end Path

end Lib
