import Mathlib.Data.List.Nodup
import Sonara.Engines.Registry

/-!
# What a read of `engines.json` takes in

The entries in memory come from a read: `taken` says which of a file's entries those
are (among the first sixteen, each with an id no earlier one has), and `entriesFrom_raws`
that the loop of the source computes it, whatever entries it kept from before. In memory
every entry stands under its own id (`Indexed`), which is what makes an edit of the list
an edit of one entry.
-/

namespace Sonara.Engines

variable {R : Rules}

/-- The entries whose id is there and not among `ids` nor an earlier entry's. -/
def unique (ids : List Text) : List Json → List Json
  | [] => []
  | raw :: raws =>
    let id := (idOf raw).getD []
    if id = [] ∨ ids.contains id then unique ids raws else raw :: unique (ids ++ [id]) raws

/-- The entries of a file that a read takes in. -/
def taken (raws : List Json) : List Json := unique [] (raws.take MAX_PROFILES)

/-- The entries stand under the ids of what is stored, no two under one. -/
structure Indexed (entries : List Entry) : Prop where
  own : ∀ e ∈ entries, idOf e.raw = some e.id
  once : (entries.map (·.id)).Nodup

theorem Indexed.nil : Indexed [] where
  own _ he := absurd he List.not_mem_nil
  once := List.nodup_nil

/-- A new entry under a new id keeps the ids distinct. -/
theorem Indexed.append {entries : List Entry} (h : Indexed entries) {e : Entry}
    (ho : idOf e.raw = some e.id) (hn : e.id ∉ entries.map (·.id)) :
    Indexed (entries ++ [e]) where
  own x hx := by
    rcases List.mem_append.mp hx with hx | hx
    · exact h.own x hx
    · rw [List.mem_singleton.mp hx]
      exact ho
  once := by
    rw [List.map_append, List.nodup_append]
    refine ⟨h.once, List.nodup_singleton _, ?_⟩
    intro a ha b hb hab
    have hb : b = e.id := List.mem_singleton.mp hb
    rw [hab, hb] at ha
    exact hn ha

theorem idOf_of_getD {raw : Json} (h : (idOf raw).getD [] ≠ []) :
    idOf raw = some ((idOf raw).getD []) := by
  cases hi : idOf raw with
  | none =>
    rw [hi] at h
    exact absurd rfl h
  | some id => rfl

theorem not_taken_iff {id : Text} {entries : List Entry} :
    (entries.any (·.id == id)) = true ↔ id ∈ entries.map (·.id) := by
  simp only [List.any_eq_true, List.mem_map, beq_iff_eq]

/-- The loop takes in the entries of `unique`, each under its own id. -/
theorem takeIn_spec (raws : List Json) : ∀ (old entries : List Entry) (problems : List Text),
    Indexed entries → Indexed (takeIn R raws old entries problems).1 ∧
      (takeIn R raws old entries problems).1.map (·.raw) =
        entries.map (·.raw) ++ unique (entries.map (·.id)) raws := by
  induction raws with
  | nil =>
    intro old entries problems h
    exact ⟨h, (List.append_nil _).symm⟩
  | cons raw raws ih =>
    intro old entries problems h
    rw [takeIn, unique]
    dsimp only
    have hmem : ((idOf raw).getD [] = [] ∨
        (entries.map (·.id)).contains ((idOf raw).getD []) = true) ↔
        ((idOf raw).getD [] = [] ∨ (idOf raw).getD [] ∈ entries.map (·.id)) :=
      or_congr_right List.contains_iff_mem
    by_cases hs : (idOf raw).getD [] = [] ∨ (idOf raw).getD [] ∈ entries.map (·.id)
    · have hs' : (decide ((idOf raw).getD [] = []) ||
          entries.any (·.id == (idOf raw).getD [])) = true := by
        rw [Bool.or_eq_true_iff, decide_eq_true_eq, not_taken_iff]
        exact hs
      rw [if_pos (hmem.mpr hs), if_pos (by simpa using hs')]
      exact ih old entries _ h
    · have hs' : ¬ (decide ((idOf raw).getD [] = []) ||
          entries.any (·.id == (idOf raw).getD [])) = true := by
        rw [Bool.or_eq_true_iff, decide_eq_true_eq, not_taken_iff]
        exact hs
      rw [if_neg (mt hmem.mp hs), if_neg (by simpa using hs')]
      obtain ⟨hne, hnew⟩ := not_or.mp hs
      have hown := idOf_of_getD hne
      split
      next kept hk =>
        -- An entry of before with the same stored profile stands for it.
        have hkept := List.find?_some hk
        rw [Bool.and_eq_true_iff, beq_iff_eq, beq_iff_eq] at hkept
        have happ := h.append (e := kept) (by rw [hkept.2, hkept.1]; exact hown)
          (by rw [hkept.1]; exact hnew)
        obtain ⟨h1, h2⟩ := ih (old.erase kept) (entries ++ [kept]) _ happ
        refine ⟨h1, h2.trans ?_⟩
        simp only [List.map_append, List.map_cons, List.map_nil, List.append_assoc, hkept.1,
          hkept.2, List.cons_append, List.nil_append]
      next hk =>
        have happ := h.append
          (e := ⟨(idOf raw).getD [], raw, (stateOf R ((idOf raw).getD []) raw).1⟩) hown hnew
        obtain ⟨h1, h2⟩ := ih old _ _ happ
        refine ⟨h1, h2.trans ?_⟩
        simp only [List.map_append, List.map_cons, List.map_nil, List.append_assoc,
          List.cons_append, List.nil_append]

theorem entriesFrom_indexed (raws : List Json) (old : List Entry) :
    Indexed (entriesFrom R raws old).1 :=
  (takeIn_spec _ old [] [] .nil).1

theorem entriesFrom_raws (raws : List Json) (old : List Entry) :
    (entriesFrom R raws old).1.map (·.raw) = taken raws :=
  (takeIn_spec _ old [] [] .nil).2

/-- The stored profiles with one added, or put in the place of the one with its id. -/
def putRaw (id : Text) (raw : Json) (raws : List Json) : List Json :=
  if raws.any (fun r => idOf r == some id) then
    raws.map fun r => if idOf r = some id then raw else r
  else raws ++ [raw]

theorem any_idOf {entries : List Entry} (h : Indexed entries) (id : Text) :
    ((entries.map (·.raw)).any fun r => idOf r == some id) = entries.any (·.id == id) := by
  rw [List.any_map, Bool.eq_iff_iff, List.any_eq_true, List.any_eq_true]
  apply exists_congr
  intro e
  apply and_congr_right
  intro he
  show (idOf e.raw == some id) = true ↔ (e.id == id) = true
  rw [h.own e he, Option.some_beq_some]

/-- `put` acts on the raw entries as `putRaw` does. -/
theorem put_raws {entries : List Entry} (h : Indexed entries) (e : Entry) :
    (put e entries).map (·.raw) = putRaw e.id e.raw (entries.map (·.raw)) := by
  unfold put putRaw
  rw [any_idOf h]
  split
  · rw [List.map_map, List.map_map]
    apply List.map_congr_left
    intro x hx
    show (if x.id = e.id then e else x).raw = if idOf x.raw = some e.id then e.raw else x.raw
    rw [h.own x hx]
    by_cases hxe : x.id = e.id
    · rw [if_pos hxe, if_pos (by rw [hxe])]
    · rw [if_neg hxe, if_neg (by simpa using hxe)]
  · rw [List.map_append]
    rfl

/-- Putting an entry under its own id keeps the ids distinct. -/
theorem Indexed.put {entries : List Entry} (h : Indexed entries) {e : Entry}
    (he : idOf e.raw = some e.id) : Indexed (put e entries) := by
  unfold Engines.put
  split
  · constructor
    · intro x hx
      obtain ⟨y, hy, rfl⟩ := List.mem_map.mp hx
      split
      · exact he
      · exact h.own y hy
    · have hids : (entries.map fun x => if x.id = e.id then e else x).map (·.id) =
          entries.map (·.id) := by
        rw [List.map_map]
        apply List.map_congr_left
        intro x _
        show (if x.id = e.id then e else x).id = x.id
        split
        · rename_i hxe
          exact hxe.symm
        · rfl
      rw [hids]
      exact h.once
  · rename_i hn
    exact h.append he (fun hm => hn (not_taken_iff.mpr hm))

theorem Indexed.erase {entries : List Entry} (h : Indexed entries) (e : Entry) :
    Indexed (entries.erase e) where
  own x hx := h.own x (List.mem_of_mem_erase hx)
  once := h.once.sublist (List.Sublist.map _ List.erase_sublist)

/-- Removing the entry of an id removes what is stored under it. -/
theorem erase_raws {entries : List Entry} (h : Indexed entries) {id : Text} {e : Entry}
    (he : entryOf id entries = some e) :
    (entries.erase e).map (·.raw) = (entries.map (·.raw)).filter (idOf · != some id) := by
  unfold entryOf at he
  have hid := List.find?_some he
  rw [beq_iff_eq] at hid
  have hmem : e ∈ entries := List.mem_of_find?_eq_some he
  clear he
  induction entries with
  | nil => exact absurd hmem List.not_mem_nil
  | cons x xs ih =>
    have hx := h.own x List.mem_cons_self
    have hxs : Indexed xs :=
      ⟨fun y hy => h.own y (List.mem_cons_of_mem _ hy), (List.nodup_cons.mp h.once).2⟩
    rw [List.map_cons, List.filter_cons, hx]
    by_cases hxe : x = e
    · -- The others keep their ids, so the filter keeps them.
      subst hxe
      have hothers : (xs.map (·.raw)).filter (idOf · != some id) = xs.map (·.raw) := by
        apply List.filter_eq_self.mpr
        intro r hr
        obtain ⟨y, hy, rfl⟩ := List.mem_map.mp hr
        have hne : y.id ≠ x.id := by
          intro hyx
          have hin : x.id ∈ xs.map (·.id) := List.mem_map.mpr ⟨y, hy, hyx⟩
          exact (List.nodup_cons.mp h.once).1 hin
        rw [hxs.own y hy, ← hid]
        simpa using hne
      rw [List.erase_cons_head, hid, hothers]
      simp
    · have hin : e ∈ xs := by
        rcases List.mem_cons.mp hmem with hh | hh
        · exact absurd hh.symm hxe
        · exact hh
      have hne : x.id ≠ id := by
        intro hxid
        have : x.id ∈ xs.map (·.id) := List.mem_map.mpr ⟨e, hin, by rw [hid, hxid]⟩
        exact (List.nodup_cons.mp h.once).1 this
      rw [List.erase_cons_tail (by simpa using hxe), List.map_cons, ih hxs hin]
      simp [hne]

end Sonara.Engines
