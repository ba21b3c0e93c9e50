import Mathlib.Data.List.Infix
import Mathlib.Order.Basic

/-!
# Numbered shelves, read from the highest down

A log that moves its full files up by one number is read from the highest number down to
0, the newest. `downFrom t k` is what the shelves below `k` hold in that order. Moving every
shelf up by one keeps it (`downFrom_up`), losing shelves from the top down leaves a suffix
(`downFrom_suffix`), and what is put behind shelf 0 comes last (`downFrom_behind`).
-/

namespace Lib

variable {α : Type} {t u : Nat → List α} {k : Nat}

/-- What the shelves below `k` hold, the highest first. -/
def downFrom (t : Nat → List α) : Nat → List α
  | 0 => []
  | k + 1 => t k ++ downFrom t k

theorem downFrom_congr (h : ∀ n, n < k → t n = u n) : downFrom t k = downFrom u k := by
  induction k with
  | zero => rfl
  | succ k ih =>
    show t k ++ downFrom t k = u k ++ downFrom u k
    rw [h k (Nat.lt_succ_self k), ih fun n hn => h n (Nat.lt_succ_of_lt hn)]

theorem downFrom_nil (h : ∀ n, n < k → t n = []) : downFrom t k = [] := by
  induction k with
  | zero => rfl
  | succ k ih =>
    show t k ++ downFrom t k = []
    rw [h k (Nat.lt_succ_self k), ih fun n hn => h n (Nat.lt_succ_of_lt hn)]
    rfl

/-- One shelf moved up to the empty one above it. -/
theorem downFrom_up {n : Nat} (hn : n + 1 < k) (hfree : t (n + 1) = []) (hmoved : u (n + 1) = t n)
    (hempty : u n = []) (hsame : ∀ m, m ≠ n → m ≠ n + 1 → u m = t m) :
    downFrom u k = downFrom t k := by
  induction k with
  | zero => exact absurd hn (Nat.not_lt_zero _)
  | succ k ih =>
    show u k ++ downFrom u k = t k ++ downFrom t k
    by_cases hk : k = n + 1
    · subst hk
      show u (n + 1) ++ (u n ++ downFrom u n) = t (n + 1) ++ (t n ++ downFrom t n)
      have hbelow : downFrom u n = downFrom t n :=
        downFrom_congr fun m hm => hsame m (by omega) (by omega)
      rw [hmoved, hempty, hfree, hbelow]
      rfl
    · rw [hsame k (by omega) hk, ih (by omega)]

/-- The highest shelf is replaced by the one below it. -/
theorem downFrom_top {n : Nat} (hmoved : u (n + 1) = t n) (hempty : u n = [])
    (hsame : ∀ m, m < n → u m = t m) : downFrom u (n + 2) <:+ downFrom t (n + 2) := by
  show u (n + 1) ++ (u n ++ downFrom u n) <:+ t (n + 1) ++ (t n ++ downFrom t n)
  rw [hmoved, hempty, downFrom_congr hsame]
  exact ⟨t (n + 1), rfl⟩

/-- **Shelves lost from the top down**: what is left is a suffix. -/
theorem downFrom_suffix (hlost : ∀ n, u n = t n ∨ u n = [])
    (habove : ∀ m n, m < n → u m ≠ t m → u n = []) :
    downFrom u k <:+ downFrom t k := by
  induction k with
  | zero => exact List.suffix_rfl
  | succ k ih =>
    show u k ++ downFrom u k <:+ t k ++ downFrom t k
    by_cases hall : ∀ m, m < k + 1 → u m = t m
    · rw [hall k (Nat.lt_succ_self k), downFrom_congr fun m hm => hall m (Nat.lt_succ_of_lt hm)]
    · -- Something below or at `k` is lost, so shelf `k` is.
      push Not at hall
      obtain ⟨m, hm, hne⟩ := hall
      have hgone : u k = [] := by
        by_cases he : m = k
        · exact (hlost k).resolve_left (he ▸ hne)
        · exact habove m k (by omega) hne
      rw [hgone, List.nil_append]
      exact ih.trans (List.suffix_append _ _)

/-- What is put behind shelf 0 comes last. -/
theorem downFrom_behind {l : List α} (hzero : u 0 = t 0 ++ l) (hsame : ∀ n, u (n + 1) = t (n + 1)) :
    downFrom u (k + 1) = downFrom t (k + 1) ++ l := by
  induction k with
  | zero =>
    show u 0 ++ [] = t 0 ++ [] ++ l
    rw [List.append_nil, List.append_nil, hzero]
  | succ k ih =>
    show u (k + 1) ++ downFrom u (k + 1) = t (k + 1) ++ downFrom t (k + 1) ++ l
    rw [hsame, ih, List.append_assoc]

/-- The shelves that hold something, listed from the highest down. -/
theorem flatMap_downFrom {ns : List Nat} (hsorted : ns.Pairwise (· > ·)) (hlt : ∀ n ∈ ns, n < k)
    (hempty : ∀ n, n < k → n ∉ ns → t n = []) : ns.flatMap t = downFrom t k := by
  induction k generalizing ns with
  | zero =>
    cases ns with
    | nil => rfl
    | cons n ns => exact absurd (hlt n List.mem_cons_self) (Nat.not_lt_zero n)
  | succ k ih =>
    show ns.flatMap t = t k ++ downFrom t k
    by_cases hk : k ∈ ns
    · cases ns with
      | nil => exact absurd hk List.not_mem_nil
      | cons n ns =>
        obtain ⟨hhead, htail⟩ := List.pairwise_cons.mp hsorted
        have hn : n = k := by
          rcases List.mem_cons.mp hk with h | h
          · exact h.symm
          · have hgt := hhead k h
            have hle := hlt n List.mem_cons_self
            omega
        subst hn
        rw [List.flatMap_cons, ih htail hhead fun m hm hno => ?_]
        refine hempty m (Nat.lt_succ_of_lt hm) fun hmem => ?_
        rcases List.mem_cons.mp hmem with h | h
        · omega
        · exact hno h
    · rw [hempty k (Nat.lt_succ_self k) hk, List.nil_append]
      refine ih hsorted (fun n hn => ?_) fun n hn => hempty n (Nat.lt_succ_of_lt hn)
      have hne : n ≠ k := fun he => hk (he ▸ hn)
      have hle := hlt n hn
      omega

end Lib
