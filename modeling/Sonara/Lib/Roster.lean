import Mathlib.Data.List.Nodup
import Mathlib.Logic.Function.Basic

/-!
# Named items, no two of one name

A `Roster` is a list of items under names; that no name comes twice is part of it. So it is a map
(`get`), and adding, swapping and dropping an item update the map at one name.
-/

namespace Lib

variable {κ α β σ : Type} [DecidableEq κ]

/-- The item of a name in a list. -/
def lookup (k : κ) (xs : List (κ × α)) : Option α := (xs.find? (·.1 = k)).map Prod.snd

theorem lookup_eq_none {k : κ} {xs : List (κ × α)} : lookup k xs = none ↔ k ∉ xs.map Prod.fst := by
  unfold lookup
  rw [Option.map_eq_none_iff, List.find?_eq_none]
  constructor
  · intro h hk
    obtain ⟨x, hx, rfl⟩ := List.mem_map.mp hk
    exact h x hx (decide_eq_true rfl)
  · intro h x hx heq
    exact h (List.mem_map.mpr ⟨x, hx, of_decide_eq_true heq⟩)

/-- An item is the one of its name, where names come once. -/
theorem mem_iff_lookup {k : κ} {v : α} {xs : List (κ × α)} (hd : (xs.map Prod.fst).Nodup) :
    (k, v) ∈ xs ↔ lookup k xs = some v := by
  unfold lookup
  constructor
  · intro h
    cases hf : xs.find? (·.1 = k) with
    | none => exact absurd (decide_eq_true rfl) (List.find?_eq_none.mp hf (k, v) h)
    | some x =>
      have hx := List.mem_of_find?_eq_some hf
      have hk : x.1 = k := by simpa using List.find?_some hf
      have hsame : x = (k, v) := List.inj_on_of_nodup_map hd hx h hk
      rw [hsame]
      rfl
  · intro h
    obtain ⟨x, hf, rfl⟩ := Option.map_eq_some_iff.mp h
    have hk : x.1 = k := by simpa using List.find?_some hf
    rw [← hk]
    exact List.mem_of_find?_eq_some hf

/-- A list of named items. -/
structure Roster (κ α : Type) where
  items : List (κ × α)
  once : (items.map Prod.fst).Nodup

namespace Roster

variable {r : Roster κ α} {k : κ} {v : α}

/-- The item of a name. -/
def get (r : Roster κ α) (k : κ) : Option α := lookup k r.items

/-- An item with a new name is added at the end. -/
def add (r : Roster κ α) (k : κ) (v : α) : Roster κ α :=
  if h : k ∈ r.items.map Prod.fst then r
  else
    { items := r.items ++ [(k, v)]
      once := by
        rw [List.map_append]
        refine List.nodup_append'.mpr ⟨r.once, List.nodup_singleton k, fun x hx hx' => h ?_⟩
        have hk : x = k := List.mem_singleton.mp hx'
        exact hk ▸ hx }

/-- Another item under the same name, if there is one. -/
def swap (r : Roster κ α) (k : κ) (v : α) : Roster κ α where
  items := r.items.map fun x => if x.1 = k then (k, v) else x
  once := by
    have hkeys : (r.items.map fun x => if x.1 = k then (k, v) else x).map Prod.fst =
        r.items.map Prod.fst := by
      rw [List.map_map]
      refine List.map_congr_left fun x _ => ?_
      show (if x.1 = k then (k, v) else x).1 = x.1
      split
      next h => exact h.symm
      · rfl
    rw [hkeys]
    exact r.once

def drop (r : Roster κ α) (k : κ) : Roster κ α where
  items := r.items.filter (·.1 ≠ k)
  once := r.once.sublist (List.filter_sublist.map _)

/-- An item is the one of its name. -/
theorem mem_iff : (k, v) ∈ r.items ↔ r.get k = some v := mem_iff_lookup r.once

/-- An added value is found under its key. -/
theorem get_add (h : r.get k = none) (v : α) :
    (r.add k v).get = Function.update r.get k (some v) := by
  have hnew : k ∉ r.items.map Prod.fst := lookup_eq_none.mp h
  funext k'
  unfold add
  rw [dif_neg hnew]
  show ((r.items ++ [(k, v)]).find? _).map _ = _
  rw [List.find?_append, Option.map_or]
  by_cases hk : k' = k
  · subst hk
    have hnone : (r.items.find? (·.1 = k')).map Prod.snd = none := h
    rw [hnone, Function.update_self]
    simp
  · rw [Function.update_of_ne hk, List.find?_cons_of_neg (by simpa using Ne.symm hk)]
    exact Option.or_none

/-- A swapped value is found under its key, and the others as before. -/
theorem get_swap (h : r.get k ≠ none) (v : α) :
    (r.swap k v).get = Function.update r.get k (some v) := by
  funext k'
  by_cases hk : k' = k
  · subst hk
    rw [Function.update_self]
    obtain ⟨w, hw⟩ := Option.ne_none_iff_exists'.mp h
    refine mem_iff.mp (List.mem_map.mpr ⟨(k', w), mem_iff.mpr hw, if_pos rfl⟩)
  · rw [Function.update_of_ne hk]
    have hsame : ∀ w, (r.swap k v).get k' = some w ↔ r.get k' = some w := by
      intro w
      rw [← mem_iff, ← mem_iff]
      constructor
      · intro hmem
        obtain ⟨x, hx, heq⟩ := List.mem_map.mp hmem
        split at heq
        · exact absurd (congrArg Prod.fst heq).symm hk
        · exact heq ▸ hx
      · intro hmem
        exact List.mem_map.mpr ⟨(k', w), hmem, if_neg hk⟩
    exact Option.ext hsame

/-- A dropped key finds nothing, and the others as before. -/
theorem get_drop (r : Roster κ α) (k : κ) : (r.drop k).get = Function.update r.get k none := by
  funext k'
  by_cases hk : k' = k
  · subst hk
    rw [Function.update_self]
    refine lookup_eq_none.mpr ?_
    intro hmem
    obtain ⟨x, hx, rfl⟩ := List.mem_map.mp hmem
    exact of_decide_eq_true (List.mem_filter.mp hx).2 rfl
  · rw [Function.update_of_ne hk]
    have hsame : ∀ w, (r.drop k).get k' = some w ↔ r.get k' = some w := by
      intro w
      rw [← mem_iff, ← mem_iff]
      show (k', w) ∈ r.items.filter _ ↔ _
      rw [List.mem_filter]
      exact and_iff_left (decide_eq_true hk)
    exact Option.ext hsame

end Roster

/-- **A fold of updates.** Each step updates a map (`get`) at the name of its element, if it finds
there what it expects (`P`); no two have the same name. -/
theorem get_foldl (get : σ → κ → Option α) (P : β → Option α → Prop) (Q : σ → Prop)
    {step : σ → β → σ} {key : β → κ} {val : β → Option α} {xs : List β} {s : σ}
    (hd : (xs.map key).Nodup) (hstep : ∀ s x, x ∈ xs → Q s → P x (get s (key x)) →
      Q (step s x) ∧ get (step s x) = Function.update (get s) (key x) (val x))
    (hq : Q s) (hp : ∀ x ∈ xs, P x (get s (key x))) : Q (xs.foldl step s) ∧
      ∀ k, get (xs.foldl step s) k = ((xs.find? (key · = k)).map val).getD (get s k) := by
  induction xs generalizing s with
  | nil => exact ⟨hq, fun k => rfl⟩
  | cons x xs ih =>
    obtain ⟨hx, hd⟩ := List.nodup_cons.mp hd
    obtain ⟨hq, hone⟩ := hstep s x List.mem_cons_self hq (hp x List.mem_cons_self)
    have hother : ∀ y ∈ xs, key y ≠ key x := fun y hy heq => hx (List.mem_map.mpr ⟨y, hy, heq⟩)
    have hrest : ∀ y ∈ xs, P y (get (step s x) (key y)) := by
      intro y hy
      rw [hone, Function.update_of_ne (hother y hy)]
      exact hp y (List.mem_cons_of_mem x hy)
    obtain ⟨hq, hget⟩ := ih hd (fun s y hy => hstep s y (List.mem_cons_of_mem x hy)) hq hrest
    refine ⟨hq, fun k => ?_⟩
    rw [List.foldl_cons, hget k, hone]
    by_cases hk : key x = k
    · have hnone : xs.find? (key · = k) = none := by
        rw [List.find?_eq_none]
        intro y hy heq
        exact hother y hy ((of_decide_eq_true heq).trans hk.symm)
      rw [hnone, List.find?_cons_of_pos (by simpa using hk), ← hk]
      exact Function.update_self _ _ _
    · rw [List.find?_cons_of_neg (by simpa using hk), Function.update_of_ne (Ne.symm hk)]

end Lib
