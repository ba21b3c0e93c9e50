import Mathlib.Data.List.Induction

/-!
# Deterministic machines that emit outputs, and their runs

A component that is driven by calls (`step`) from one initial state and returns
outputs from each call is a `Machine`. A run is the list of inputs it was given,
oldest first: `state` is where the run ends and `out` everything it returned, in
order. Nothing here knows what is driven; the developments built on it
instantiate `Machine` and prove their step lemmas, and `Machine.run_induction`
turns a step lemma into a statement about every run.

A run is extended at its *end* (`state_snoc`, `out_snoc`), because an invariant
of a run speaks about the outputs so far and is re-established by the next call.
-/

namespace Lib

/-- A component with state `σ`, driven by inputs `ι`, that answers each input
with a list of outputs `ω`. -/
structure Machine (σ : Type) (ι : Type) (ω : Type) where
  /-- The state before the first input. -/
  init : σ
  /-- One call. -/
  step : σ → ι → σ × List ω

namespace Machine

variable {σ ι ω : Type} (m : Machine σ ι ω)

/-- The state reached from `s` by `is`. -/
def stateFrom (s : σ) : List ι → σ
  | [] => s
  | i :: is => stateFrom (m.step s i).1 is

/-- The outputs of `is` from `s`, in order. -/
def outFrom (s : σ) : List ι → List ω
  | [] => []
  | i :: is => (m.step s i).2 ++ outFrom (m.step s i).1 is

/-- The state a run reaches. -/
def state (is : List ι) : σ := m.stateFrom m.init is

/-- Everything a run returned, in order. -/
def out (is : List ι) : List ω := m.outFrom m.init is

/-- What input `i` returns after the run `is`. -/
def answer (is : List ι) (i : ι) : List ω := (m.step (m.state is) i).2

theorem stateFrom_append (s : σ) (is js : List ι) :
    m.stateFrom s (is ++ js) = m.stateFrom (m.stateFrom s is) js := by
  induction is generalizing s with
  | nil => rfl
  | cons i is ih =>
    rw [List.cons_append]
    exact ih (m.step s i).1

theorem outFrom_append (s : σ) (is js : List ι) :
    m.outFrom s (is ++ js) = m.outFrom s is ++ m.outFrom (m.stateFrom s is) js := by
  induction is generalizing s with
  | nil => rfl
  | cons i is ih =>
    rw [List.cons_append]
    show (m.step s i).2 ++ m.outFrom (m.step s i).1 (is ++ js) =
      ((m.step s i).2 ++ m.outFrom (m.step s i).1 is)
        ++ m.outFrom (m.stateFrom (m.step s i).1 is) js
    rw [ih, List.append_assoc]

theorem state_append (is js : List ι) :
    m.state (is ++ js) = m.stateFrom (m.state is) js :=
  m.stateFrom_append m.init is js

theorem out_append (is js : List ι) :
    m.out (is ++ js) = m.out is ++ m.outFrom (m.state is) js :=
  m.outFrom_append m.init is js

/-- The state after one more call. -/
theorem state_snoc (is : List ι) (i : ι) :
    m.state (is ++ [i]) = (m.step (m.state is) i).1 :=
  m.state_append is [i]

/-- One more call appends its answer. -/
theorem out_snoc (is : List ι) (i : ι) : m.out (is ++ [i]) = m.out is ++ m.answer is i := by
  rw [out_append]
  show m.out is ++ ((m.step (m.state is) i).2 ++ []) = m.out is ++ m.answer is i
  rw [List.append_nil]
  rfl

/-- **The invariant rule.** What holds of the empty run and is kept by one more
call holds of every run; it may speak about the inputs and the outputs so far. -/
theorem run_induction {P : List ι → σ → List ω → Prop} (init : P [] m.init [])
    (step : ∀ is i, P is (m.state is) (m.out is) →
      P (is ++ [i]) (m.step (m.state is) i).1 (m.out is ++ m.answer is i)) :
    ∀ is, P is (m.state is) (m.out is) := by
  intro is
  induction is using List.reverseRecOn with
  | nil => exact init
  | append_singleton is i ih =>
    rw [state_snoc, out_snoc]
    exact step is i ih

/-- **The rule for what follows a state.** What every input of a kind keeps is kept by all of
them. -/
theorem stateFrom_keeps {C : ι → Prop} {P : σ → Prop} (step : ∀ s i, C i → P s → P (m.step s i).1)
    (is : List ι) (s : σ) (his : ∀ i ∈ is, C i) (hs : P s) : P (m.stateFrom s is) := by
  induction is generalizing s with
  | nil => exact hs
  | cons i is ih =>
    have hone := step s i (his i List.mem_cons_self) hs
    exact ih (m.step s i).1 (fun j hj => his j (List.mem_cons_of_mem i hj)) hone

/-! ## Runs whose steps meet a condition -/

/-- Every step of `is` from `s` meets `C`. -/
def AllFrom (C : σ → ι → Prop) (s : σ) : List ι → Prop
  | [] => True
  | i :: is => C s i ∧ AllFrom C (m.step s i).1 is

/-- Every step of the run meets `C`. -/
def All (C : σ → ι → Prop) (is : List ι) : Prop := m.AllFrom C m.init is

theorem allFrom_snoc {C : σ → ι → Prop} (s : σ) (is : List ι) (i : ι) :
    m.AllFrom C s (is ++ [i]) ↔ m.AllFrom C s is ∧ C (m.stateFrom s is) i := by
  induction is generalizing s with
  | nil => exact ⟨fun h => ⟨trivial, h.1⟩, fun h => ⟨h.2, trivial⟩⟩
  | cons j is ih =>
    rw [List.cons_append]
    show C s j ∧ m.AllFrom C (m.step s j).1 (is ++ [i]) ↔
      (C s j ∧ m.AllFrom C (m.step s j).1 is) ∧ C (m.stateFrom (m.step s j).1 is) i
    rw [ih, and_assoc]

/-- **The invariant rule for runs whose steps meet a condition.** -/
theorem run_induction_of {C : σ → ι → Prop} {P : List ι → σ → List ω → Prop}
    (init : P [] m.init [])
    (step : ∀ is i, C (m.state is) i → P is (m.state is) (m.out is) →
      P (is ++ [i]) (m.step (m.state is) i).1 (m.out is ++ m.answer is i)) :
    ∀ is, m.All C is → P is (m.state is) (m.out is) := by
  refine m.run_induction (P := fun is s out => m.All C is → P is s out) (fun _ => init) ?_
  intro is i ih h
  obtain ⟨hall, hlast⟩ := (m.allFrom_snoc m.init is i).mp h
  exact step is i hlast (ih hall)

/-! ## Another view of the same runs -/

variable {ω' : Type}

/-- The machine with other outputs: `f` reads them off the state before a call. -/
def observe (f : σ → ι → List ω') : Machine σ ι ω' where
  init := m.init
  step s i := ((m.step s i).1, f s i)

theorem observe_stateFrom (f : σ → ι → List ω') (s : σ) (is : List ι) :
    (m.observe f).stateFrom s is = m.stateFrom s is := by
  induction is generalizing s with
  | nil => rfl
  | cons i is ih => exact ih (m.step s i).1

/-- Observing does not change where a run ends. -/
@[simp] theorem observe_state (f : σ → ι → List ω') (is : List ι) :
    (m.observe f).state is = m.state is :=
  m.observe_stateFrom f m.init is

theorem observe_out_snoc (f : σ → ι → List ω') (is : List ι) (i : ι) :
    (m.observe f).out (is ++ [i]) = (m.observe f).out is ++ f (m.state is) i := by
  rw [out_snoc, ← m.observe_state f is]
  rfl

end Machine

end Lib
