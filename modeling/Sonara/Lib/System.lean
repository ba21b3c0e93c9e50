import Mathlib.Logic.Basic

/-!
# Systems whose next step is chosen outside

Several parties take steps in an order nobody fixes. A `System` has one state for all of
them and one event for each step any of them can take; an event that is not enabled has
no step. A run is the list of its events, oldest first.

Nothing here knows what the parties are. The developments built on it prove one lemma
for each event, and `run_invariant` (or `run_invariant_of`, when the events of the run
meet a condition) makes it a statement about every state that is reached.
-/

namespace Lib

/-- The first states, and the step of each event that is enabled. -/
structure System (σ ε : Type) where
  init : σ → Prop
  step : σ → ε → Option σ

namespace System

variable {σ ε : Type} (m : System σ ε) {s s' : σ} {es : List ε}

/-- Where the events lead, if each is enabled in turn. -/
def run (s : σ) : List ε → Option σ
  | [] => some s
  | e :: es =>
    match m.step s e with
    | none => none
    | some t => run t es

/-- A run from a first state ends in `s`. -/
def Reaches (s : σ) : Prop := ∃ s₀ es, m.init s₀ ∧ m.run s₀ es = some s

/-- Every event of the run meets `C` in the state it is taken in. -/
def Meets (C : σ → ε → Prop) (s : σ) : List ε → Prop
  | [] => True
  | e :: es => C s e ∧ ∀ t, m.step s e = some t → Meets C t es

@[simp] theorem run_nil (s : σ) : m.run s [] = some s := rfl

theorem run_cons_iff {e : ε} : m.run s (e :: es) = some s' ↔
    ∃ t, m.step s e = some t ∧ m.run t es = some s' := by
  rw [run]
  cases h : m.step s e with
  | none => simp
  | some t => simp

/-- A run that meets a condition, one event longer at its start. -/
theorem Meets.cons {C : σ → ε → Prop} {m : System σ ε} {e : ε} {t : σ} (hc : C s e)
    (ht : m.step s e = some t) (h : m.Meets C t es) : m.Meets C s (e :: es) := by
  refine ⟨hc, fun t' ht' => ?_⟩
  obtain rfl := Option.some.inj (ht.symm.trans ht')
  exact h

/-- **The invariant rule.** What every step keeps, every run keeps. -/
theorem run_invariant {P : σ → Prop} (step : ∀ s e s', P s → m.step s e = some s' → P s') :
    ∀ {es : List ε} {s s' : σ}, P s → m.run s es = some s' → P s' := by
  intro es
  induction es with
  | nil =>
    intro s s' h hr
    rw [run_nil] at hr
    exact Option.some.inj hr ▸ h
  | cons e es ih =>
    intro s s' h hr
    obtain ⟨t, ht, hr⟩ := m.run_cons_iff.mp hr
    exact ih (step s e t h ht) hr

/-- What holds at first and is kept by every step holds in every state reached. -/
theorem Reaches.invariant {P : σ → Prop} {m : System σ ε} (h : m.Reaches s)
    (init : ∀ s, m.init s → P s) (step : ∀ s e s', P s → m.step s e = some s' → P s') : P s := by
  obtain ⟨s₀, es, hi, hr⟩ := h
  exact m.run_invariant step (init s₀ hi) hr

/-- **The invariant rule for runs whose events meet a condition.** -/
theorem run_invariant_of {C : σ → ε → Prop} {P : σ → Prop}
    (step : ∀ s e s', C s e → P s → m.step s e = some s' → P s') :
    ∀ {es : List ε} {s s' : σ}, m.Meets C s es → P s → m.run s es = some s' → P s' := by
  intro es
  induction es with
  | nil =>
    intro s s' _ h hr
    rw [run_nil] at hr
    exact Option.some.inj hr ▸ h
  | cons e es ih =>
    intro s s' hm h hr
    obtain ⟨t, ht, hr⟩ := m.run_cons_iff.mp hr
    exact ih (hm.2 t ht) (step s e t hm.1 h ht) hr

end System

end Lib
