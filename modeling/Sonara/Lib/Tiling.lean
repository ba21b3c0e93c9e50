import Mathlib.Data.List.Basic

/-!
# Tilings

`Tiles gap ink ps t`: the pieces `ps` stand in the list `t` in order, each on a
stretch of its own (`ink`), and what stands between them are gaps. Nothing of `t` is
in two pieces and nothing but a gap is in none.

`Thins gap t s`: `s` is `t` with gaps left out, each in front of another gap, so no
two elements come to stand together that did not.
-/

namespace Lib

variable {α β : Type*}

section Tiles

variable {gap : α → Prop} {ink : β → List α → Prop}

/-- The pieces stand in the list in order, with gaps between them. -/
inductive Tiles (gap : α → Prop) (ink : β → List α → Prop) : List β → List α → Prop
  | nil : Tiles gap ink [] []
  | gap {c : α} {ps : List β} {t : List α} :
    gap c → Tiles gap ink ps t → Tiles gap ink ps (c :: t)
  | piece {p : β} {ps : List β} {x t : List α} :
    ink p x → Tiles gap ink ps t → Tiles gap ink (p :: ps) (x ++ t)

theorem Tiles.append {ps qs : List β} {s t : List α} (hs : Tiles gap ink ps s)
    (ht : Tiles gap ink qs t) : Tiles gap ink (ps ++ qs) (s ++ t) := by
  induction hs with
  | nil => exact ht
  | gap hc _ ih => exact ih.gap hc
  | piece hp _ ih =>
    rw [List.cons_append, List.append_assoc]
    exact ih.piece hp

theorem Tiles.gaps {ps : List β} {s t : List α} (hs : ∀ c ∈ s, gap c)
    (ht : Tiles gap ink ps t) : Tiles gap ink ps (s ++ t) := by
  induction s with
  | nil => exact ht
  | cons c s ih =>
    exact (ih fun d hd => hs d (List.mem_cons_of_mem _ hd)).gap (hs c List.mem_cons_self)

theorem Tiles.blank {s : List α} (hs : ∀ c ∈ s, gap c) : Tiles gap ink [] s := by
  rw [← List.append_nil s]
  exact Tiles.nil.gaps hs

theorem Tiles.single {p : β} {x : List α} (hp : ink p x) : Tiles gap ink [p] x := by
  rw [← List.append_nil x]
  exact Tiles.nil.piece hp

/-- A piece with gaps behind it. -/
theorem Tiles.one {p : β} {x s : List α} (hp : ink p x) (hs : ∀ c ∈ s, gap c) :
    Tiles gap ink [p] (x ++ s) :=
  (Tiles.blank hs).piece hp

end Tiles

section Thins

variable {gap : α → Prop}

/-- The second list is the first with gaps left out in front of gaps. -/
inductive Thins (gap : α → Prop) : List α → List α → Prop
  | nil : Thins gap [] []
  | keep {c : α} {t s : List α} : Thins gap t s → Thins gap (c :: t) (c :: s)
  | drop {c d : α} {t s : List α} :
    gap c → gap d → Thins gap t (d :: s) → Thins gap (c :: t) (d :: s)

theorem Thins.refl (t : List α) : Thins gap t t := by
  induction t with
  | nil => exact .nil
  | cons c t ih => exact .keep ih

/-- What starts with a gap still does. -/
theorem Thins.head {c : α} {t s : List α} (hc : gap c) (h : Thins gap (c :: t) s) :
    ∃ d r, s = d :: r ∧ gap d := by
  cases h with
  | keep _ => exact ⟨c, _, rfl, hc⟩
  | drop _ hd _ => exact ⟨_, _, rfl, hd⟩

theorem Thins.trans {t s r : List α} (h : Thins gap t s) (h' : Thins gap s r) :
    Thins gap t r := by
  induction h generalizing r with
  | nil => exact h'
  | keep _ ih =>
    cases h' with
    | keep h' => exact .keep (ih h')
    | drop hc hd h' => exact .drop hc hd (ih h')
  | drop hc hd _ ih =>
    obtain ⟨e, r, rfl, he⟩ := h'.head hd
    exact .drop hc he (ih h')

theorem Thins.append_left {t s : List α} (r : List α) (h : Thins gap t s) :
    Thins gap (r ++ t) (r ++ s) := by
  induction r with
  | nil => exact h
  | cons c r ih => exact .keep ih

theorem Thins.append_right {t s : List α} (r : List α) (h : Thins gap t s) :
    Thins gap (t ++ r) (s ++ r) := by
  induction h with
  | nil => exact .refl r
  | keep _ ih => exact .keep ih
  | drop hc hd _ ih => exact .drop hc hd ih

/-- Gaps in front of a gap are left out. -/
theorem Thins.gaps {d : α} {s : List α} (t : List α) (hs : ∀ c ∈ s, gap c) (hd : gap d) :
    Thins gap (s ++ d :: t) (d :: t) := by
  induction s with
  | nil => exact .refl _
  | cons c s ih =>
    exact .drop (hs c List.mem_cons_self) hd (ih fun e he => hs e (List.mem_cons_of_mem _ he))

end Thins

end Lib
