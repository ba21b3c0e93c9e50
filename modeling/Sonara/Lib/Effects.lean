import Mathlib.Logic.Basic

/-!
# Computations that fail, crash or go on forever

A computation runs over a world and ends with a value, or it stops: it fails with a reason its
caller can catch, the process crashes, or the rounds it was given are used up. The world stays as
it was at that point.

`Ends` says how a computation ends; its rules follow the computation from its first step on. A
computation with a loop is a family, one for each number of rounds. `Resolves` says that from
some number of rounds on it makes no difference, or that every larger number is used up as well,
and then `Bad` says where.
-/

namespace Lib

/-- Why a computation stops. -/
inductive Stop (χ : Type) where
  | failed (why : χ)
  | crashed
  | spins
  deriving DecidableEq, Repr

abbrev Effects (χ σ α : Type) := EStateM (Stop χ) σ α

variable {χ σ α β : Type}

/-- A failure is a value: a crash is not. -/
def attempt (m : Effects χ σ α) : Effects χ σ (Except χ α) := fun s =>
  match m s with
  | .ok a t => .ok (.ok a) t
  | .error (.failed why) t => .ok (.error why) t
  | .error .crashed t => .error .crashed t
  | .error .spins t => .error .spins t

/-- The reason of a failure, told as `g` tells it. -/
def because (g : χ → χ) (m : Effects χ σ α) : Effects χ σ α := fun s =>
  match m s with
  | .ok a t => .ok a t
  | .error (.failed why) t => .error (.failed (g why)) t
  | .error .crashed t => .error .crashed t
  | .error .spins t => .error .spins t

/-- From `s` it ends with a value and a world `Q` holds of, or it stops as `E` says. -/
def Ends (m : Effects χ σ α) (s : σ) (Q : α → σ → Prop) (E : Stop χ → σ → Prop) : Prop :=
  match m s with
  | .ok a t => Q a t
  | .error e t => E e t

variable {m : Effects χ σ α} {f : α → Effects χ σ β} {s : σ} {Q Q' : α → σ → Prop}
  {R : β → σ → Prop}
  {E E' : Stop χ → σ → Prop}

namespace Ends

theorem pure {a : α} (h : Q a s) : Ends (Pure.pure a : Effects χ σ α) s Q E := h

theorem throw {e : Stop χ} (h : E e s) : Ends (throw e : Effects χ σ α) s Q E := h

theorem bind (hm : Ends m s (fun a t => Ends (f a) t R E) E) : Ends (m >>= f) s R E := by
  show Ends (EStateM.bind m f) s R E
  unfold Ends at hm
  unfold Ends EStateM.bind
  cases h : m s with
  | ok a t =>
    rw [h] at hm
    exact hm
  | error e t =>
    rw [h] at hm
    exact hm

theorem imp (h : Ends m s Q E) (hQ : ∀ a t, Q a t → Q' a t) (hE : ∀ e t, E e t → E' e t) :
    Ends m s Q' E' := by
  unfold Ends at h ⊢
  cases hm : m s with
  | ok a t =>
    rw [hm] at h
    exact hQ a t h
  | error e t =>
    rw [hm] at h
    exact hE e t h

/-- A step, and what follows it. -/
theorem seq (hm : Ends m s Q E) (hf : ∀ a t, Q a t → Ends (f a) t R E) : Ends (m >>= f) s R E :=
  bind (hm.imp hf fun _ _ h => h)

/-- The two ways to end. -/
theorem cases (h : Ends m s Q E) : (∃ a t, m s = .ok a t ∧ Q a t) ∨
    ∃ e t, m s = .error e t ∧ E e t := by
  unfold Ends at h
  cases hm : m s with
  | ok a t =>
    rw [hm] at h
    exact .inl ⟨a, t, rfl, h⟩
  | error e t =>
    rw [hm] at h
    exact .inr ⟨e, t, rfl, h⟩

/-- What is caught is a value that says why. -/
theorem attempt {Q : Except χ α → σ → Prop} (h : Ends m s (fun a => Q (.ok a)) fun e t =>
    match e with
    | .failed why => Q (.error why) t
    | .crashed => E .crashed t
    | .spins => E .spins t) : Ends (attempt m) s Q E := by
  unfold Ends at h
  unfold Ends Lib.attempt
  cases hm : m s with
  | ok a t =>
    rw [hm] at h
    exact h
  | error e t =>
    rw [hm] at h
    cases e <;> exact h

/-- A call whose failure is given a reason. -/
theorem because {g : χ → χ} (h : Ends m s Q fun e t =>
    match e with
    | .failed why => E (.failed (g why)) t
    | .crashed => E .crashed t
    | .spins => E .spins t) : Ends (because g m) s Q E := by
  unfold Ends at h
  unfold Ends Lib.because
  cases hm : m s with
  | ok a t =>
    rw [hm] at h
    exact h
  | error e t =>
    rw [hm] at h
    cases e <;> exact h

/-- What holds either way. -/
theorem attempt_same {P : σ → Prop} (h : Ends m s (fun _ => P) fun _ => P) :
    Ends (Lib.attempt m) s (fun _ => P) fun _ => P := by
  refine attempt (h.imp (fun _ _ hp => hp) fun e t hp => ?_)
  cases e <;> exact hp

theorem because_same {g : χ → χ} {P : σ → Prop} (h : Ends m s Q fun _ => P) :
    Ends (Lib.because g m) s Q fun _ => P := by
  refine because (h.imp (fun _ _ hq => hq) fun e t hp => ?_)
  cases e <;> exact hp

end Ends

/-! ## Loops -/

/-- It does not go on forever. -/
def Halts (m : Effects χ σ α) : Prop := ∀ s, Ends m s (fun _ _ => True) fun e _ => e ≠ .spins

namespace Halts

theorem pure (a : α) : Halts (Pure.pure a : Effects χ σ α) := fun _ => trivial

theorem throw {e : Stop χ} (h : e ≠ .spins) : Halts (throw e : Effects χ σ α) := fun _ => h

theorem bind (hm : Halts m) (hf : ∀ a, Halts (f a)) : Halts (m >>= f) :=
  fun s => Ends.bind ((hm s).imp (fun a t _ => hf a t) fun _ _ h => h)

theorem attempt (hm : Halts m) : Halts (attempt m) := by
  refine fun s => Ends.attempt ((hm s).imp (fun _ _ _ => trivial) fun e _ h => ?_)
  cases e with
  | failed why => trivial
  | crashed => exact h
  | spins => exact h

theorem because {g : χ → χ} (hm : Halts m) : Halts (because g m) := by
  refine fun s => Ends.because ((hm s).imp (fun _ _ h => h) fun e _ h => ?_)
  cases e with
  | failed why => exact nofun
  | crashed => exact h
  | spins => exact h

/-- How it stops is no spinning. -/
theorem stops (hm : Halts m) {e : Stop χ} {t : σ} (h : m s = .error e t) : e ≠ .spins := by
  have := hm s
  unfold Ends at this
  rwa [h] at this

end Halts

theorem run_ok {a : α} {t : σ} (h : m s = .ok a t) : (m >>= f) s = f a t := by
  show EStateM.bind m f s = f a t
  rw [EStateM.bind, h]

theorem run_error {e : Stop χ} {t : σ} (h : m s = .error e t) : (m >>= f) s = .error e t := by
  show EStateM.bind m f s = .error e t
  rw [EStateM.bind, h]

/-- Enough rounds make no difference, or no number of rounds is enough. -/
def Resolves (x : Nat → Effects χ σ α) (s : σ) (Bad : σ → Prop) : Prop :=
  (∃ n r, (∀ k, n ≤ k → x k s = r) ∧ ∀ t, r ≠ .error .spins t) ∨
    ∃ n, ∀ k, n ≤ k → ∃ t, x k s = .error .spins t ∧ Bad t

namespace Resolves

variable {Bad : σ → Prop} {x : Nat → Effects χ σ α} {y : Nat → α → Effects χ σ β}

/-- A computation without a loop. -/
theorem of_halts (h : Halts m) : Resolves (fun _ => m) s Bad :=
  .inl ⟨0, m s, fun _ _ => rfl, fun _ ht => h.stops ht rfl⟩

/-- Of two calls the rounds resolve when those of each do. -/
theorem bind (hx : Resolves x s Bad) (hy : ∀ a t, Resolves (fun k => y k a) t Bad) :
    Resolves (fun k => x k >>= y k) s Bad := by
  rcases hx with ⟨n, r, hr, hends⟩ | ⟨n, hn⟩
  · cases r with
    | error e t =>
      refine .inl ⟨n, .error e t, fun k hk => run_error (hr k hk), fun u hu => ?_⟩
      cases hu
      exact hends t rfl
    | ok a t =>
      rcases hy a t with ⟨n', r', hr', hends'⟩ | ⟨n', hn'⟩
      · exact .inl ⟨max n n', r', fun k hk =>
          (run_ok (hr k (Nat.le_trans (Nat.le_max_left n n') hk))).trans
          (hr' k (Nat.le_trans (Nat.le_max_right n n') hk)), hends'⟩
      · refine .inr ⟨max n n', fun k hk => ?_⟩
        obtain ⟨u, hu, hbad⟩ := hn' k (Nat.le_trans (Nat.le_max_right n n') hk)
        exact ⟨u, (run_ok (hr k (Nat.le_trans (Nat.le_max_left n n') hk))).trans hu, hbad⟩
  · refine .inr ⟨n, fun k hk => ?_⟩
    obtain ⟨t, ht, hbad⟩ := hn k hk
    exact ⟨t, run_error ht, hbad⟩

theorem imp {Bad' : σ → Prop} (h : Resolves x s Bad) (hb : ∀ t, Bad t → Bad' t) :
    Resolves x s Bad' := by
  rcases h with h | ⟨n, hn⟩
  · exact .inl h
  · refine .inr ⟨n, fun k hk => ?_⟩
    obtain ⟨t, ht, hbad⟩ := hn k hk
    exact ⟨t, ht, hb t hbad⟩

/-- Attempting a call resolves with it. -/
theorem attempt (h : Resolves x s Bad) : Resolves (fun k => attempt (x k)) s Bad := by
  rcases h with ⟨n, r, hr, hends⟩ | ⟨n, hn⟩
  · cases r with
    | ok a t =>
      exact .inl ⟨n, .ok (.ok a) t, fun k hk => by simp only [Lib.attempt, hr k hk], nofun⟩
    | error e t =>
      cases e with
      | failed why =>
        exact .inl ⟨n, .ok (.error why) t, fun k hk => by simp only [Lib.attempt, hr k hk], nofun⟩
      | crashed =>
        exact .inl ⟨n, .error .crashed t, fun k hk => by simp only [Lib.attempt, hr k hk], nofun⟩
      | spins => exact absurd rfl (hends t)
  · refine .inr ⟨n, fun k hk => ?_⟩
    obtain ⟨t, ht, hbad⟩ := hn k hk
    exact ⟨t, by simp only [Lib.attempt, ht], hbad⟩

end Resolves

end Lib
