import Mathlib.Data.List.Basic

/-!
# Logs that grow at their end

What is true of every entry of a log and of what the log held before it is kept while entries are
added at the end, if it is true of each one added (`Logged.snoc`).
-/

namespace Lib

variable {α : Type} {P : List α → α → Prop} {log : List α} {e : α}

/-- Every entry meets `P` with the entries before it. -/
def Logged (P : List α → α → Prop) (log : List α) : Prop :=
  ∀ before e rest, log = before ++ e :: rest → P before e

namespace Logged

theorem nil : Logged P [] := by
  intro before e rest h
  cases before <;> cases h

/-- One more event that its rule allows. -/
theorem snoc (h : Logged P log) (he : P log e) : Logged P (log ++ [e]) := by
  intro before x rest hsplit
  rcases List.append_eq_append_iff.mp hsplit with ⟨mid, hbefore, hmid⟩ | ⟨mid, hlog, hmid⟩
  · -- What is before `x` is the whole log, or `x` comes behind the end.
    cases mid with
    | nil =>
      rw [List.append_nil] at hbefore
      obtain ⟨rfl, -⟩ := List.cons.inj hmid
      rwa [hbefore]
    | cons y ys =>
      have hlen := congrArg List.length hmid
      simp only [List.length_cons, List.length_append, List.length_nil] at hlen
      omega
  · cases mid with
    | nil =>
      rw [List.append_nil] at hlog
      obtain ⟨rfl, -⟩ := List.cons.inj hmid
      rwa [← hlog]
    | cons y ys =>
      obtain ⟨rfl, -⟩ := List.cons.inj hmid
      exact h before x ys hlog

end Logged

end Lib
