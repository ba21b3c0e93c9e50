import Mathlib.Data.List.Rotate

/-!
# Going round a list

A ring is a list without repetitions, read cyclically, and a position on it is one of its
members or none. `around` is the list from behind the position on, so that the position
itself comes last; the members that satisfy `p`, in that order, are the stops ahead.

`around_next` is the rule for a walk: when the first stop ahead becomes the position, the
stops ahead are the same ones with it at the end. So as many steps as there are stops visit
each of them once, and in this order.
-/

namespace Lib.Ring

variable {α : Type} [DecidableEq α] {all : List α} {p : α → Bool} {cur : Option α} {t c : α}
  {rest : List α}

/-- The ring from behind the position on. -/
def around (all : List α) (cur : Option α) : List α :=
  match cur with
  | none => all
  | some c => if c ∈ all then all.rotate (all.idxOf c + 1) else all

theorem around_perm (all : List α) (cur : Option α) : (around all cur).Perm all := by
  unfold around
  split
  · exact List.Perm.refl all
  · split
    · exact List.rotate_perm all _
    · exact List.Perm.refl all

/-- Behind `c`, in two parts. -/
theorem around_split {a b : List α} (hn : (a ++ c :: b).Nodup) :
    around (a ++ c :: b) (some c) = b ++ a ++ [c] := by
  have hc : c ∉ a := fun hmem => (List.disjoint_of_nodup_append hn) hmem List.mem_cons_self
  have hidx : (a ++ c :: b).idxOf c = a.length := by
    rw [List.idxOf_append_of_notMem hc, List.idxOf_cons_self, Nat.add_zero]
  have hmem : c ∈ a ++ c :: b := by simp
  have hrot := List.rotate_append_length_eq (a ++ [c]) b
  rw [List.length_append, List.length_singleton, List.append_assoc, List.singleton_append] at hrot
  show (if c ∈ a ++ c :: b then (a ++ c :: b).rotate ((a ++ c :: b).idxOf c + 1) else _) = _
  rw [if_pos hmem, hidx, hrot, List.append_assoc]

/-- The ring from behind a position is the ring turned. -/
theorem around_turned (all : List α) (cur : Option α) :
    ∃ u v, all = u ++ v ∧ around all cur = v ++ u := by
  unfold around
  split
  · exact ⟨[], all, rfl, (List.append_nil all).symm⟩
  · split
    next c hmem =>
      have hle : all.idxOf c + 1 ≤ all.length := List.idxOf_lt_length_of_mem hmem
      exact ⟨all.take (all.idxOf c + 1), all.drop (all.idxOf c + 1),
        (List.take_append_drop _ all).symm, List.rotate_eq_drop_append_take hle⟩
    · exact ⟨[], all, rfl, (List.append_nil all).symm⟩

/-- **One step round the ring**: the first stop ahead goes to the end. -/
theorem around_next (hn : all.Nodup) (h : (around all cur).filter p = t :: rest) :
    (around all (some t)).filter p = rest ++ [t] := by
  obtain ⟨u, v, rfl, hturn⟩ := around_turned all cur
  obtain ⟨x, y, hsplit, hx, ht, rfl⟩ := List.filter_eq_cons_iff.mp h
  have hnone : x.filter p = [] := List.filter_eq_nil_iff.mpr hx
  rw [hturn] at hsplit
  -- where `t` stands in the ring
  have hback : around (u ++ v) (some t) = y ++ x ++ [t] := by
    rcases List.append_eq_append_iff.mp hsplit with ⟨w, hw, hu⟩ | ⟨w, hv, hw⟩
    · obtain rfl : x = v ++ w := hw
      obtain rfl : u = w ++ t :: y := hu
      rw [List.append_assoc, List.cons_append] at hn ⊢
      rw [around_split hn]
      simp
    · cases w with
      | nil =>
        obtain rfl : v = x := by simpa using hv
        obtain rfl : u = t :: y := by simpa using hw.symm
        have hsame : (t :: y) ++ v = [] ++ t :: (y ++ v) := rfl
        rw [hsame] at hn ⊢
        rw [around_split hn]
        simp
      | cons a w =>
        obtain ⟨rfl, rfl⟩ := List.cons.inj hw
        obtain rfl : v = x ++ t :: w := hv
        rw [← List.append_assoc] at hn ⊢
        rw [around_split hn]
        simp
  rw [hback, List.filter_append, List.filter_append, hnone, List.append_nil]
  simp [ht]

end Lib.Ring
