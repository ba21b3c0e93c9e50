import Mathlib.Data.List.Chain
import Mathlib.Data.List.Infix

/-!
# Packing a list into consecutive runs

A list is cut into consecutive runs that each satisfy `fits`. Where a part of a run that
fits fits too (`Hereditary`), filling every run as far as it goes needs the fewest runs
(`pack_least`), and it is the only packing whose runs are all full (`pack_unique`).

`place` puts the next element, and is given the runs that are closed and the one that is
open. The open run is what the invariant of the proof speaks about: in a packing whose
flattened list ends with the open run and what is still to come, the element that no longer
fits behind the open run belongs to a later run.

Where runs may start at some elements only, what stands between two such places moves
together: the list is given as blocks, and a packing whose runs start at heads of blocks is
one of the blocks (`regroup`).
-/

namespace Lib.Packing

variable {α : Type}

/-- A part of a run that fits fits. -/
def Hereditary (fits : List α → Prop) : Prop := ∀ ⦃a b : List α⦄, a <:+: b → fits b → fits a

/-- `runs` are consecutive runs of `xs` that fit. -/
structure Packs (fits : List α → Prop) (xs : List α) (runs : List (List α)) : Prop where
  flatten : runs.flatten = xs
  fits : ∀ r ∈ runs, fits r

/-- No run could take the element behind it. -/
def Full (fits : List α → Prop) (runs : List (List α)) : Prop :=
  runs.IsChain fun r s => ∀ x ∈ s.head?, ¬fits (r ++ [x])

section Greedy

variable (fits : List α → Prop) [DecidablePred fits]

/-- The next element, behind the closed runs and the open one. -/
def place (s : List (List α) × List α) (x : α) : List (List α) × List α :=
  if s.2 = [] ∨ fits (s.2 ++ [x]) then (s.1, s.2 ++ [x]) else (s.1 ++ [s.2], [x])

/-- The runs once nothing comes. -/
def close (s : List (List α) × List α) : List (List α) :=
  if s.2 = [] then s.1 else s.1 ++ [s.2]

/-- Fill every run as far as it goes. -/
def pack (xs : List α) : List (List α) := close (xs.foldl (place fits) ([], []))

variable {fits} {s : List (List α) × List α} {x : α} {xs : List α} {runs : List (List α)}

theorem place_joins (h : s.2 = [] ∨ fits (s.2 ++ [x])) : place fits s x = (s.1, s.2 ++ [x]) :=
  if_pos h

theorem place_opens (h : ¬(s.2 = [] ∨ fits (s.2 ++ [x]))) :
    place fits s x = (s.1 ++ [s.2], [x]) := if_neg h

theorem close_flatten (s : List (List α) × List α) : (close s).flatten = s.1.flatten ++ s.2 := by
  unfold close
  split
  next h => rw [h, List.append_nil]
  · rw [List.flatten_append, List.flatten_singleton]

theorem place_flatten (s : List (List α) × List α) (x : α) :
    (place fits s x).1.flatten ++ (place fits s x).2 = s.1.flatten ++ s.2 ++ [x] := by
  unfold place
  split
  · exact (List.append_assoc ..).symm
  · rw [List.flatten_append, List.flatten_singleton]

theorem foldl_place_flatten (s : List (List α) × List α) (xs : List α) :
    (close (xs.foldl (place fits) s)).flatten = s.1.flatten ++ s.2 ++ xs := by
  induction xs generalizing s with
  | nil => rw [List.foldl_nil, close_flatten, List.append_nil]
  | cons x xs ih =>
    rw [List.foldl_cons, ih, place_flatten, List.append_assoc, List.singleton_append]

/-- The runs of a packing that is going on: they fit, and none is empty. -/
structure Placed (fits : List α → Prop) (s : List (List α) × List α) : Prop where
  closed : ∀ r ∈ s.1, r ≠ [] ∧ fits r
  opened : s.2 ≠ [] → fits s.2

/-- Placing one more piece keeps every run within the fit. -/
theorem Placed.place (h : Placed fits s) (hone : fits [x]) : Placed fits (place fits s x) := by
  unfold Packing.place
  split
  next hyes =>
    refine ⟨h.closed, fun _ => ?_⟩
    rcases hyes with hnil | hfits
    · rw [hnil]
      exact hone
    · exact hfits
  next hno =>
    have hne : s.2 ≠ [] := fun hnil => hno (.inl hnil)
    refine ⟨fun r hr => ?_, fun _ => hone⟩
    rcases List.mem_append.mp hr with hr | hr
    · exact h.closed r hr
    · rw [List.mem_singleton.mp hr]
      exact ⟨hne, h.opened hne⟩

omit [DecidablePred fits] in
theorem Placed.close (h : Placed fits s) : ∀ r ∈ close s, r ≠ [] ∧ fits r := by
  unfold Packing.close
  split
  · exact h.closed
  next hne =>
    intro r hr
    rcases List.mem_append.mp hr with hr | hr
    · exact h.closed r hr
    · rw [List.mem_singleton.mp hr]
      exact ⟨hne, h.opened hne⟩

theorem Placed.foldl (h : Placed fits s) (hone : ∀ x ∈ xs, fits [x]) :
    Placed fits (xs.foldl (Packing.place fits) s) := by
  induction xs generalizing s with
  | nil => exact h
  | cons x xs ih =>
    exact ih (h.place (hone x List.mem_cons_self)) fun y hy => hone y (List.mem_cons_of_mem x hy)

/-- Once a run is open, there is an open run. -/
theorem foldl_place_ne_nil (h : s.2 ≠ []) : (xs.foldl (place fits) s).2 ≠ [] := by
  induction xs generalizing s with
  | nil => exact h
  | cons x xs ih =>
    refine ih ?_
    unfold place
    split
    · exact List.append_ne_nil_of_left_ne_nil h _
    · exact List.cons_ne_nil x []

/-- **The runs are a packing**, and none is empty. -/
theorem pack_packs (hone : ∀ x ∈ xs, fits [x]) :
    Packs fits xs (pack fits xs) ∧ ∀ r ∈ pack fits xs, r ≠ [] := by
  have hstart : Placed fits (([] : List (List α)), ([] : List α)) :=
    ⟨fun r hr => absurd hr List.not_mem_nil, fun h => absurd rfl h⟩
  have hruns := (hstart.foldl hone).close
  refine ⟨⟨?_, fun r hr => (hruns r hr).2⟩, fun r hr => (hruns r hr).1⟩
  exact foldl_place_flatten ([], []) xs

/-- The closed runs stay in front. -/
theorem foldl_place_out (out : List (List α)) (run xs : List α) :
    xs.foldl (place fits) (out, run) =
      (out ++ (xs.foldl (place fits) ([], run)).1, (xs.foldl (place fits) ([], run)).2) := by
  induction xs generalizing out run with
  | nil => rw [List.foldl_nil, List.foldl_nil, List.append_nil]
  | cons x xs ih =>
    rw [List.foldl_cons, List.foldl_cons]
    by_cases hyes : run = [] ∨ fits (run ++ [x])
    · rw [place_joins (s := (out, run)) hyes, place_joins (s := ([], run)) hyes]
      exact ih out (run ++ [x])
    · rw [place_opens (s := (out, run)) hyes, place_opens (s := ([], run)) hyes, List.nil_append,
        ih (out ++ [run]), ih [run], List.append_assoc]

theorem close_out (out : List (List α)) (run xs : List α) :
    close (xs.foldl (place fits) (out, run)) = out ++ close (xs.foldl (place fits) ([], run)) := by
  rw [foldl_place_out]
  unfold Packing.close
  split
  · rfl
  · exact List.append_assoc ..

/-- **As few runs as any packing has**, counted from where the open run and what comes are
the end of the packed list. -/
theorem foldl_place_length (h : Hereditary fits) (hfits : ∀ r ∈ runs, fits r) (hne : s.2 ≠ [])
    (hend : s.2 ++ xs <:+ runs.flatten) :
    (close (xs.foldl (place fits) s)).length ≤ s.1.length + runs.length := by
  induction xs generalizing s runs with
  | nil =>
    rw [List.append_nil] at hend
    cases runs with
    | nil => exact absurd (List.suffix_nil.mp hend) hne
    | cons r runs =>
      unfold Packing.close
      rw [List.foldl_nil, if_neg hne, List.length_append, List.length_singleton, List.length_cons]
      omega
  | cons x xs ih =>
    rw [List.foldl_cons]
    by_cases hyes : s.2 = [] ∨ fits (s.2 ++ [x])
    · rw [place_joins hyes]
      refine ih hfits (List.append_ne_nil_of_right_ne_nil _ (List.cons_ne_nil x [])) ?_
      rwa [List.append_assoc, List.singleton_append]
    · rw [place_opens hyes]
      cases runs with
      | nil => exact absurd (List.append_eq_nil_iff.mp (List.suffix_nil.mp hend)).1 hne
      | cons r runs =>
        -- `x` belongs to a later run than the first
        have hlater : [x] ++ xs <:+ runs.flatten := by
          rw [List.flatten_cons] at hend
          obtain ⟨pre, hpre⟩ := hend
          rw [← List.append_assoc] at hpre
          rcases List.append_eq_append_iff.mp hpre with ⟨w, hr, hxs⟩ | ⟨w, -, hruns⟩
          · cases w with
            | nil =>
              rw [List.nil_append] at hxs
              exact ⟨[], by rw [← hxs]; rfl⟩
            | cons y w =>
              obtain ⟨rfl, -⟩ := List.cons.inj hxs
              have hpart : s.2 ++ [x] <:+: r := ⟨pre, w, by rw [hr]; simp⟩
              exact absurd (.inr (h hpart (hfits r List.mem_cons_self))) hyes
          · exact ⟨w, hruns.symm⟩
        have hle := @ih (s.1 ++ [s.2], [x]) runs
          (fun r' hr' => hfits r' (List.mem_cons_of_mem r hr')) (List.cons_ne_nil x []) hlater
        rw [List.length_append, List.length_singleton] at hle
        rw [List.length_cons]
        omega

/-- **The fewest runs.** -/
theorem pack_least (h : Hereditary fits) (p : Packs fits xs runs) :
    (pack fits xs).length ≤ runs.length := by
  cases xs with
  | nil => exact Nat.zero_le _
  | cons x xs =>
    have hle := @foldl_place_length _ _ _ ([], [x]) xs _ h p.fits (List.cons_ne_nil x [])
      (by rw [p.flatten]; exact List.suffix_rfl)
    rw [List.length_nil, Nat.zero_add] at hle
    unfold pack
    rw [List.foldl_cons]
    exact hle

/-- Packing images, where a run of images fits when the run does. -/
theorem foldl_place_map {β : Type} (g : α → β) (fits : List α → Prop) [DecidablePred fits]
    (fits' : List β → Prop) [DecidablePred fits'] (P : α → Prop) (out : List (List α))
    {run : List α} (hfits : ∀ r x, r ≠ [] → (∀ y ∈ r.tail, P y) → P x →
      (fits' (r.map g ++ [g x]) ↔ fits (r ++ [x])))
    (hrun : run ≠ []) (htail : ∀ y ∈ run.tail, P y) (hxs : ∀ x ∈ xs, P x) :
    (xs.map g).foldl (place fits') (out.map (List.map g), run.map g) =
      ((xs.foldl (place fits) (out, run)).1.map (List.map g),
        (xs.foldl (place fits) (out, run)).2.map g) := by
  induction xs generalizing out run with
  | nil => rfl
  | cons x xs ih =>
    have hx := hxs x List.mem_cons_self
    have hrest := fun y hy => hxs y (List.mem_cons_of_mem x hy)
    have hmap : run.map g ≠ [] := fun h => hrun (List.map_eq_nil_iff.mp h)
    have hiff := hfits run x hrun htail hx
    rw [List.map_cons, List.foldl_cons, List.foldl_cons]
    by_cases hyes : fits (run ++ [x])
    · rw [place_joins (s := (out, run)) (.inr hyes),
        place_joins (s := (out.map (List.map g), run.map g)) (.inr (hiff.mpr hyes))]
      have hstep := @ih out (run ++ [x])
        (List.append_ne_nil_of_left_ne_nil hrun _) (fun y hy => ?_) hrest
      · rw [List.map_append] at hstep
        exact hstep
      · rw [List.tail_append_of_ne_nil hrun] at hy
        rcases List.mem_append.mp hy with hy | hy
        · exact htail y hy
        · exact (List.mem_singleton.mp hy) ▸ hx
    · rw [place_opens (s := (out, run)) (not_or.mpr ⟨hrun, hyes⟩),
        place_opens (s := (out.map (List.map g), run.map g))
          (not_or.mpr ⟨hmap, fun h => hyes (hiff.mp h)⟩)]
      have hstep := @ih (out ++ [run]) [x] (List.cons_ne_nil x [])
        (fun y hy => absurd hy List.not_mem_nil) hrest
      rw [List.map_append] at hstep
      exact hstep

/-! ## Full runs -/

/-- The runs so far are full; there is none before the first element. -/
def Filled (fits : List α → Prop) (s : List (List α) × List α) : Prop :=
  if s.2 = [] then s.1 = [] else Full fits (s.1 ++ [s.2])

/-- A run is closed only when the next piece does not fit. -/
theorem Filled.place (h : Filled fits s) (x : α) : Filled fits (place fits s x) := by
  have hx : ∀ l : List α, l ++ [x] ≠ [] :=
    fun l => List.append_ne_nil_of_right_ne_nil l (List.cons_ne_nil x [])
  unfold Filled at h
  by_cases hyes : s.2 = [] ∨ fits (s.2 ++ [x])
  · rw [place_joins hyes]
    refine (if_neg (hx s.2)).mpr ?_
    by_cases hnil : s.2 = []
    · rw [if_pos hnil] at h
      rw [h]
      exact List.isChain_singleton _
    · rw [if_neg hnil] at h
      obtain ⟨hclosed, -, hlink⟩ := List.isChain_append.mp h
      refine List.isChain_append.mpr ⟨hclosed, List.isChain_singleton _, fun r hr t ht y hy => ?_⟩
      obtain rfl : s.2 ++ [x] = t := by simpa using ht
      refine hlink r hr s.2 (by simp) y ?_
      rwa [List.head?_append_of_ne_nil _ hnil] at hy
  · rw [place_opens hyes]
    have hnil : s.2 ≠ [] := fun h => hyes (.inl h)
    rw [if_neg hnil] at h
    refine (if_neg (List.cons_ne_nil x [])).mpr ?_
    refine List.isChain_append.mpr ⟨h, List.isChain_singleton _, fun r hr t ht y hy => ?_⟩
    obtain rfl : s.2 = r := by simpa using hr
    obtain rfl : [x] = t := by simpa using ht
    obtain rfl : x = y := by simpa using hy
    exact fun hfits => hyes (.inr hfits)

/-- Packing fills every pack but the last. -/
theorem pack_full (xs : List α) : Full fits (pack fits xs) := by
  have hstart : Filled fits (([] : List (List α)), ([] : List α)) := rfl
  unfold pack
  generalize (([] : List (List α)), ([] : List α)) = s at hstart ⊢
  induction xs generalizing s with
  | nil =>
    unfold Filled at hstart
    unfold Packing.close
    rw [List.foldl_nil]
    split
    next hnil =>
      rw [if_pos hnil] at hstart
      rw [hstart]
      exact List.isChain_nil
    next hne => rwa [if_neg hne] at hstart
  | cons x xs ih => exact ih _ (hstart.place x)

/-- A run that fits is filled from its start. -/
theorem foldl_place_run (h : Hereditary fits) {r : List α} (out : List (List α)) {pre : List α}
    (hfits : fits (pre ++ r)) : r.foldl (place fits) (out, pre) = (out, pre ++ r) := by
  induction r generalizing pre with
  | nil => rw [List.append_nil, List.foldl_nil]
  | cons x r ih =>
    have hpart : pre ++ [x] <:+: pre ++ x :: r := ⟨[], r, by simp⟩
    rw [List.foldl_cons, place_joins (.inr (h hpart hfits))]
    rw [ih (by rwa [List.append_assoc, List.singleton_append])]
    rw [List.append_assoc, List.singleton_append]

/-- **The only packing whose runs are full.** -/
theorem pack_unique (h : Hereditary fits) (p : Packs fits xs runs) (hne : ∀ r ∈ runs, r ≠ [])
    (hfull : Full fits runs) : runs = pack fits xs := by
  obtain ⟨rfl, hfits⟩ := p
  have hrun : ∀ out, close (runs.flatten.foldl (place fits) (out, [])) = out ++ runs := by
    induction runs with
    | nil =>
      intro out
      exact (List.append_nil out).symm
    | cons r runs ih =>
      intro out
      have hr := hfits r List.mem_cons_self
      have hrne := hne r List.mem_cons_self
      have ih := ih (fun r' h' => hne r' (List.mem_cons_of_mem r h')) hfull.tail
        (fun r' h' => hfits r' (List.mem_cons_of_mem r h'))
      rw [List.flatten_cons, List.foldl_append, @foldl_place_run _ _ _ h r out [] hr,
        List.nil_append]
      cases runs with
      | nil => exact if_neg hrne
      | cons t runs =>
        cases t with
        | nil => exact absurd rfl (hne [] (List.mem_cons_of_mem r List.mem_cons_self))
        | cons y t =>
          -- the next run starts because `y` no longer fits
          have hno : ¬(r = [] ∨ fits (r ++ [y])) := by
            rintro (hnil | hyes)
            · exact hrne hnil
            · exact (List.isChain_cons_cons.mp hfull).1 y rfl hyes
          have hopen : place fits (out, r) y = place fits (out ++ [r], []) y := by
            rw [place_opens (s := (out, r)) hno, place_joins (s := (out ++ [r], [])) (.inl rfl)]
            rfl
          have hnext := ih (out ++ [r])
          rw [List.flatten_cons, List.cons_append, List.foldl_cons] at hnext ⊢
          rw [hopen, hnext, List.append_assoc, List.singleton_append]
  exact (hrun []).symm

end Greedy

/-! ## Blocks -/

variable {cut : α → Prop} {blocks runs : List (List α)}

/-- A block starts at a place where runs may start, and there is no other in it. -/
def IsBlock (cut : α → Prop) (b : List α) : Prop :=
  ∃ u rest, b = u :: rest ∧ cut u ∧ ∀ v ∈ rest, ¬cut v

/-- Blocks are not cut. -/
theorem split_blocks (hb : ∀ b ∈ blocks, IsBlock cut b) {r t : List α} (h : blocks.flatten = r ++ t)
    (ht : ∀ x ∈ t.head?, cut x) : ∃ bs cs, blocks = bs ++ cs ∧ bs.flatten = r ∧ cs.flatten = t := by
  induction blocks generalizing r with
  | nil =>
    obtain ⟨rfl, rfl⟩ := List.append_eq_nil_iff.mp h.symm
    exact ⟨[], [], rfl, rfl, rfl⟩
  | cons b blocks ih =>
    cases r with
    | nil => exact ⟨[], b :: blocks, rfl, rfl, h⟩
    | cons y r =>
      rw [List.flatten_cons] at h
      rcases List.append_eq_append_iff.mp h with ⟨w, hr, hw⟩ | ⟨w, hb', hw⟩
      · obtain ⟨bs, cs, rfl, hbs, hcs⟩ := ih (fun b' h' => hb b' (List.mem_cons_of_mem b h')) hw
        exact ⟨b :: bs, cs, rfl, by rw [List.flatten_cons, hbs, hr], hcs⟩
      · cases w with
        | nil =>
          rw [List.append_nil] at hb'
          exact ⟨[b], blocks, rfl, by rw [List.flatten_singleton, hb'], by rw [hw]; rfl⟩
        | cons z w =>
          -- `z` is in the middle of `b`
          obtain ⟨u, rest, rfl, -, hrest⟩ := hb b List.mem_cons_self
          obtain ⟨-, rfl⟩ := List.cons.inj hb'
          exact absurd (ht z (by rw [hw]; rfl)) (hrest z (by simp))

/-- **A packing whose runs start at blocks is one of the blocks.** -/
theorem regroup (hb : ∀ b ∈ blocks, IsBlock cut b) (h : runs.flatten = blocks.flatten)
    (hcut : ∀ r ∈ runs, ∀ x ∈ r.head?, cut x) :
    ∃ groups : List (List (List α)), groups.flatten = blocks ∧ groups.map List.flatten = runs := by
  induction runs generalizing blocks with
  | nil =>
    cases blocks with
    | nil => exact ⟨[], rfl, rfl⟩
    | cons b blocks =>
      obtain ⟨u, rest, rfl, -⟩ := hb b List.mem_cons_self
      cases h
  | cons r runs ih =>
    have hhead : ∀ x ∈ runs.flatten.head?, cut x := by
      intro x hx
      rw [List.head?_flatten] at hx
      obtain ⟨t, ht, hxt⟩ := List.exists_of_findSome?_eq_some hx
      exact hcut t (List.mem_cons_of_mem r ht) x hxt
    obtain ⟨bs, cs, rfl, hbs, hcs⟩ := split_blocks hb (h.symm.trans List.flatten_cons) hhead
    obtain ⟨groups, hg, hm⟩ := @ih cs (fun b hb' => hb b (List.mem_append_right bs hb'))
      hcs.symm fun t ht => hcut t (List.mem_cons_of_mem r ht)
    exact ⟨bs :: groups, by rw [List.flatten_cons, hg], by rw [List.map_cons, hbs, hm]⟩

end Lib.Packing
