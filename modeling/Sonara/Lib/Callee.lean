import Mathlib.Logic.Basic

/-!
# Computations that call another one

A computation that may fail and that calls another one is a function of its callee.
`Returns C x P` says that it does not fail: whatever callee of `C` it is given, it comes to one
and the same result, and `P` holds of it. The rules follow the computation from its first step
on. Where `C` says nothing of some calls, `Returns` says that those are not made: a callee of
`C` may fail at each of them.
-/

namespace Lib

variable {κ α β : Type} {C : κ → Prop} {P : α → Prop} {Q : β → Prop}

def Returns (C : κ → Prop) (x : κ → Option α) (P : α → Prop) : Prop :=
  ∃ a, P a ∧ ∀ k, C k → x k = some a

theorem Returns.pure {a : α} (h : P a) : Returns C (fun _ => some a) P := ⟨a, h, fun _ _ => rfl⟩

theorem Returns.imp {x : κ → Option α} {P' : α → Prop} (h : Returns C x P) (hp : ∀ a, P a → P' a) :
    Returns C x P' := by
  obtain ⟨a, ha, hx⟩ := h
  exact ⟨a, hp a ha, hx⟩

theorem Returns.bind {x : κ → Option β} {f : κ → β → Option α} (hx : Returns C x Q)
    (hf : ∀ b, Q b → Returns C (fun k => f k b) P) : Returns C (fun k => x k >>= f k) P := by
  obtain ⟨b, hb, hx⟩ := hx
  obtain ⟨a, ha, hf⟩ := hf b hb
  refine ⟨a, ha, fun k hk => ?_⟩
  calc x k >>= f k = f k b := by rw [hx k hk]; rfl
    _ = some a := hf k hk

/-- A step that calls nothing. -/
theorem Returns.step {x : Option β} {b : β} {f : κ → β → Option α} (hx : x = some b)
    (hf : Returns C (fun k => f k b) P) : Returns C (fun k => x >>= f k) P := by
  obtain ⟨a, ha, hf⟩ := hf
  refine ⟨a, ha, fun k hk => ?_⟩
  calc x >>= f k = f k b := by rw [hx]; rfl
    _ = some a := hf k hk

theorem Returns.map {x : κ → Option β} {g : β → α} (hx : Returns C x Q) (hg : ∀ b, Q b → P (g b)) :
    Returns C (fun k => (x k).map g) P := by
  obtain ⟨b, hb, hx⟩ := hx
  exact ⟨g b, hg b hb, fun k hk => congrArg (Option.map g) (hx k hk)⟩

theorem Returns.ite {p : Prop} [Decidable p] {x y : κ → Option α} (hx : p → Returns C x P)
    (hy : ¬ p → Returns C y P) : Returns C (fun k => if p then x k else y k) P := by
  by_cases h : p
  · simp only [if_pos h]
    exact hx h
  · simp only [if_neg h]
    exact hy h

/-! ## Alternatives -/

/-- The result of `a`, where it has one, or else that of `b`. -/
def firstOf (a : Option (Option α)) (b : Option α) : Option α := a >>= fun r => r.elim b some

theorem Returns.firstOf {a : κ → Option (Option α)} {b : κ → Option α}
    (ha : Returns C a fun o => ∀ x, o = some x → P x) (hb : Returns C b P) :
    Returns C (fun k => firstOf (a k) (b k)) P := by
  refine ha.bind fun o ho => ?_
  cases o with
  | none => exact hb
  | some x => exact .pure (ho x rfl)

end Lib
