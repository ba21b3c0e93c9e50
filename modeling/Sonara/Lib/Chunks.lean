import Mathlib.Data.List.Infix

/-!
# The whole chunks of a list

A list is read in chunks of `n`: `whole n l` are the chunks that are complete, `rest n l` what
is left behind the last of them. A list that comes in pieces is read the same way piece by
piece, if the rest is put before the next piece (`whole_rest_append`).
-/

namespace Lib.Chunks

variable {α : Type}

/-- The complete chunks of `n`, in order. -/
def whole (n : Nat) (l : List α) : List (List α) :=
  (List.range (l.length / n)).map fun i => (l.drop (n * i)).take n

/-- What is left behind them. -/
def rest (n : Nat) (l : List α) : List α := l.drop (n * (l.length / n))

variable {n : Nat} {l r : List α}

@[simp] theorem whole_length (n : Nat) (l : List α) : (whole n l).length = l.length / n := by
  unfold whole
  rw [List.length_map, List.length_range]

theorem whole_getElem? {i : Nat} (hi : i < l.length / n) :
    (whole n l)[i]? = some ((l.drop (n * i)).take n) := by
  unfold whole
  rw [List.getElem?_map, List.getElem?_range hi]
  rfl

/-- A list of complete chunks is read apart from what comes behind it. -/
theorem whole_append {k : Nat} (hl : l.length = n * k) (hn : 0 < n) (r : List α) :
    whole n (l ++ r) = whole n l ++ whole n r := by
  have hcount : l.length / n = k := by
    rw [hl]
    exact Nat.mul_div_cancel_left k hn
  have hmore : (l ++ r).length / n = k + r.length / n := by
    rw [List.length_append, hl, Nat.mul_add_div hn]
  unfold whole
  rw [hmore, hcount, List.range_add, List.map_append, List.map_map]
  refine congrArg₂ (· ++ ·) (List.map_congr_left fun i hi => ?_)
    (List.map_congr_left fun i hi => ?_)
  · have hi := List.mem_range.mp hi
    have hle : n * (i + 1) ≤ n * k := Nat.mul_le_mul_left n hi
    rw [Nat.mul_succ] at hle
    rw [List.drop_append_of_le_length (by omega), List.take_append_of_le_length]
    rw [List.length_drop]
    omega
  · dsimp only [Function.comp]
    have hdrop : n * (k + i) = l.length + n * i := by
      rw [Nat.mul_add, hl]
    have hgone : l.drop (l.length + n * i) = [] := List.drop_of_length_le (Nat.le_add_right _ _)
    rw [hdrop, List.drop_append, hgone, List.nil_append, Nat.add_sub_cancel_left]

/-- The chunks without what is left. -/
theorem whole_take (n : Nat) (l : List α) : whole n (l.take (n * (l.length / n))) = whole n l := by
  by_cases hn : 0 < n
  · have hlen : (l.take (n * (l.length / n))).length = n * (l.length / n) := by
      rw [List.length_take]
      exact Nat.min_eq_left (Nat.mul_div_le l.length n)
    have hsplit := whole_append hlen hn (rest n l)
    have hnone : whole n (rest n l) = [] := by
      have hshort : (rest n l).length / n = 0 := by
        unfold rest
        rw [List.length_drop, ← Nat.mod_eq_sub_mul_div]
        exact Nat.div_eq_of_lt (Nat.mod_lt _ hn)
      refine List.eq_nil_of_length_eq_zero ?_
      rw [whole_length, hshort]
    unfold rest at hsplit
    rw [List.take_append_drop] at hsplit
    unfold rest at hnone
    rw [hsplit, hnone, List.append_nil]
  · obtain rfl : n = 0 := by omega
    unfold whole
    rw [Nat.div_zero, Nat.div_zero]
    rfl

/-- **Reading goes on where it stopped:** what is left goes before the next piece. -/
theorem whole_rest_append (hn : 0 < n) (l r : List α) :
    whole n (l ++ r) = whole n l ++ whole n (rest n l ++ r) := by
  have hlen : (l.take (n * (l.length / n))).length = n * (l.length / n) := by
    rw [List.length_take]
    exact Nat.min_eq_left (Nat.mul_div_le l.length n)
  have hsplit := whole_append hlen hn (rest n l ++ r)
  rw [← List.append_assoc] at hsplit
  unfold rest at hsplit ⊢
  rwa [List.take_append_drop, whole_take] at hsplit

/-- One whole chunk in front. -/
theorem whole_cons {c : List α} (hc : c.length = n) (hn : 0 < n) (r : List α) :
    whole n (c ++ r) = c :: whole n r := by
  have hone : whole n c = [c] := by
    unfold whole
    rw [hc, Nat.div_self hn]
    show [(c.drop (n * 0)).take n] = [c]
    rw [Nat.mul_zero, List.drop_zero, ← hc, List.take_length]
  rw [whole_append (k := 1) (by omega) hn, hone]
  rfl

end Lib.Chunks
