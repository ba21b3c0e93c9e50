import Sonara.Engines.Live
import Sonara.Engines.Lossless

/-!
# The registries follow the entries

Every registry is to hold, under the ids a profile may have, the engines of the usable entries
(`Registry.Holds`); the engines of the host have other ids. Each call does to the registries, one by
one, what it does to the entries: `engineOf` is the map from ids to engines that the entries make,
and a call updates both maps at one id, or follows a whole read (`follow_holds`). A save that fails
is where they part: `engine_add` leaves its new entry in memory and registers nothing.
-/

namespace Sonara.Engines

open Profile (fromJson_spec)
open Lib (bind_ok lookup lookup_eq_none mem_iff_lookup get_foldl)

variable {R : Rules} {l : Live} {r : Registry} {entries : List Entry} {built : Text → Nat}
  {before now : List (Text × Held)} {m : Text → Option Held} {id : Text}

/-! ## The engines of the entries -/

/-- The engine of an id, if its entry is usable. -/
def engineOf (entries : List Entry) (built : Text → Nat) (id : Text) : Option Held :=
  (entryOf id entries).bind fun e => (e.engine built).map Prod.snd

theorem entryOf_iff (hi : Indexed entries) {e : Entry} :
    entryOf id entries = some e ↔ e ∈ entries ∧ e.id = id := by
  unfold entryOf
  constructor
  · intro h
    exact ⟨List.mem_of_find?_eq_some h, by simpa using List.find?_some h⟩
  · rintro ⟨he, rfl⟩
    cases hf : entries.find? (·.id == e.id) with
    | none => exact absurd (beq_self_eq_true e.id) (List.find?_eq_none.mp hf e he)
    | some x =>
      have hx : x.id = e.id := by simpa using List.find?_some hf
      rw [List.inj_on_of_nodup_map hi.once (List.mem_of_find?_eq_some hf) he hx]

theorem Entry.engine_id {e : Entry} {x : Text × Held} (h : e.engine built = some x) :
    x.1 = e.id := by
  unfold Entry.engine at h
  split at h
  · cases h
    rfl
  · cases h

/-- The engines that are ready have distinct ids. -/
theorem readyOf_once (hi : Indexed entries) : ((readyOf entries built).map Prod.fst).Nodup := by
  refine List.Nodup.sublist ?_ hi.once
  clear hi
  induction entries with
  | nil => exact List.Sublist.slnil
  | cons e entries ih =>
    unfold readyOf at ih ⊢
    cases he : e.engine built with
    | none =>
      rw [List.filterMap_cons_none he]
      exact ih.cons _
    | some x =>
      rw [List.filterMap_cons_some he, List.map_cons, List.map_cons, Entry.engine_id he]
      exact ih.cons_cons _

/-- Of entries with distinct ids, looking an engine up finds the entry's own. -/
theorem lookup_readyOf (hi : Indexed entries) (id : Text) :
    lookup id (readyOf entries built) = engineOf entries built id := by
  have hsame : ∀ h, lookup id (readyOf entries built) = some h ↔
      engineOf entries built id = some h := by
    intro h
    rw [← mem_iff_lookup (readyOf_once hi)]
    unfold readyOf engineOf
    rw [List.mem_filterMap, Option.bind_eq_some_iff]
    constructor
    · rintro ⟨e, he, heng⟩
      exact ⟨e, (entryOf_iff hi).mpr ⟨he, (Entry.engine_id heng).symm⟩, by rw [heng]; rfl⟩
    · rintro ⟨e, he, heng⟩
      obtain ⟨he, hid⟩ := (entryOf_iff hi).mp he
      obtain ⟨x, hx, rfl⟩ := Option.map_eq_some_iff.mp heng
      have hx1 : x.1 = id := (Entry.engine_id hx).trans hid
      exact ⟨e, he, by rw [hx, ← hx1]⟩
  exact Option.ext hsame

/-- After `put`, an id finds the new entry or what it found before. -/
theorem entryOf_put (e : Entry) (entries : List Entry) (id : Text) :
    entryOf id (put e entries) = if id = e.id then some e else entryOf id entries := by
  unfold put entryOf
  split
  next hany =>
    have hfun : ∀ x : Entry, ((if x.id = e.id then e else x).id == id) = (x.id == id) := by
      intro x
      split
      next hx => rw [hx]
      · rfl
    rw [List.find?_map]
    have hcongr : entries.find? ((·.id == id) ∘ fun x => if x.id = e.id then e else x) =
        entries.find? (·.id == id) := congrArg (entries.find? ·) (funext hfun)
    rw [hcongr]
    cases hf : entries.find? (·.id == id) with
    | none =>
      have hne : id ≠ e.id := by
        rintro rfl
        obtain ⟨x, hx, hxe⟩ := List.any_eq_true.mp hany
        exact absurd hxe (List.find?_eq_none.mp hf x hx)
      rw [if_neg hne]
      rfl
    | some x =>
      have hx : x.id = id := by simpa using List.find?_some hf
      by_cases hid : id = e.id
      · rw [if_pos hid]
        exact congrArg some (if_pos (hx.trans hid))
      · rw [if_neg hid]
        exact congrArg some (if_neg fun h => hid (hx.symm.trans h))
  next hany =>
    rw [List.find?_append]
    by_cases hid : id = e.id
    · subst hid
      have hnone : entries.find? (·.id == e.id) = none := by
        rw [List.find?_eq_none]
        intro x hx hxe
        exact hany (List.any_eq_true.mpr ⟨x, hx, hxe⟩)
      rw [hnone, if_pos rfl]
      simp
    · rw [if_neg hid]
      have hno : [e].find? (·.id == id) = none := by simpa using Ne.symm hid
      rw [hno, Option.or_none]

/-- An added profile is the engine of its id. -/
theorem engineOf_put (id : Text) (raw : Json) (p : Profile) (n : Nat) :
    engineOf (put ⟨id, raw, .ready p⟩ entries) (Function.update built id n) =
      Function.update (engineOf entries built) id (some (.external n)) := by
  funext k
  unfold engineOf
  rw [entryOf_put]
  by_cases hk : k = id
  · subst hk
    rw [if_pos rfl, Function.update_self]
    show some (Held.external (Function.update built k n k)) = _
    rw [Function.update_self]
  · rw [if_neg hk, Function.update_of_ne hk]
    refine Option.bind_congr fun e he => ?_
    have hid : e.id = k := by simpa using List.find?_some he
    unfold Entry.engine
    rw [hid, Function.update_of_ne hk]

/-- An erased entry is the only one no longer found. -/
theorem engineOf_erase (hi : Indexed entries) {e : Entry} (he : entryOf id entries = some e) :
    engineOf (entries.erase e) built = Function.update (engineOf entries built) id none := by
  obtain ⟨hmem, rfl⟩ := (entryOf_iff hi).mp he
  have hnodup : entries.Nodup := List.Nodup.of_map _ hi.once
  have hentry : ∀ k x, entryOf k (entries.erase e) = some x ↔
      k ≠ e.id ∧ entryOf k entries = some x := by
    intro k x
    rw [entryOf_iff (hi.erase e), entryOf_iff hi, hnodup.mem_erase_iff]
    constructor
    · rintro ⟨⟨hne, hx⟩, rfl⟩
      exact ⟨fun hk => hne (List.inj_on_of_nodup_map hi.once hx hmem hk), hx, rfl⟩
    · rintro ⟨hne, hx, rfl⟩
      exact ⟨⟨fun hxe => hne (congrArg Entry.id hxe), hx⟩, rfl⟩
  funext k
  unfold engineOf
  by_cases hk : k = e.id
  · have hnone : entryOf k (entries.erase e) = none := by
      rw [Option.eq_none_iff_forall_ne_some]
      exact fun x hx => ((hentry k x).mp hx).1 hk
    rw [hnone, hk, Function.update_self]
    rfl
  · rw [Function.update_of_ne hk]
    have hsame : entryOf k (entries.erase e) = entryOf k entries :=
      Option.ext fun x => (hentry k x).trans (and_iff_right hk)
    rw [hsame]

/-! ## The engines of a registry -/

namespace Registry

/-- The engines of a host: their ids are none that a profile may have. -/
structure Hosts (r : Registry) : Prop where
  allows : r.allows = true
  own : ∀ id h, r.engines.get id = some h → h = .host ∧ validateId id ≠ .ok ()

/-- The registry holds the engines `m` under the ids a profile may have. -/
structure Holds (r : Registry) (m : Text → Option Held) : Prop where
  allows : r.allows = true
  own : ∀ id, validateId id ≠ .ok () → ∀ h, r.engines.get id = some h → h = .host
  usable : ∀ id, validateId id = .ok () → r.engines.get id = m id

theorem Hosts.holds (h : r.Hosts) : r.Holds fun _ => none where
  allows := h.allows
  own id _ x hx := (h.own id x hx).1
  usable id hid := by
    cases hg : r.engines.get id with
    | none => rfl
    | some x => exact absurd hid (h.own id x hg).2

/-- A registry whose engine of a profile's id changes. -/
theorem Holds.update (h : r.Holds m) (hid : validateId id = .ok ()) {v : Option Held}
    {r' : Registry}
    (hallows : r'.allows = r.allows) (hget : r'.engines.get = Function.update r.engines.get id v) :
    r'.Holds (Function.update m id v) where
  allows := hallows.trans h.allows
  own k hk x hx := by
    have hne : k ≠ id := fun heq => hk (heq ▸ hid)
    rw [hget, Function.update_of_ne hne] at hx
    exact h.own k hk x hx
  usable k hk := by
    rw [hget]
    by_cases heq : k = id
    · rw [heq, Function.update_self, Function.update_self]
    · rw [Function.update_of_ne heq, Function.update_of_ne heq]
      exact h.usable k hk

theorem register_get (hr : r.allows = true) {x : Text × Held} (hx : r.engines.get x.1 = none) :
    (r.register x).allows = r.allows ∧ (r.register x).engines.get =
    Function.update r.engines.get x.1 (some x.2) := by
  unfold register
  rw [if_pos hr]
  exact ⟨rfl, Lib.Roster.get_add hx x.2⟩

theorem replace_get (hr : r.allows = true) {x : Text × Held} (hx : r.engines.get x.1 ≠ none) :
    (r.replace x).allows = r.allows ∧ (r.replace x).engines.get = Function.update r.engines.get x.1
    (some x.2) := by
  unfold replace
  rw [if_pos hr]
  exact ⟨rfl, Lib.Roster.get_swap hx x.2⟩

theorem Holds.register (h : r.Holds m) (hid : validateId id = .ok ()) (hm : m id = none)
    (v : Held) :
    (r.register (id, v)).Holds (Function.update m id (some v)) := by
  obtain ⟨hallows, hget⟩ := register_get h.allows (x := (id, v)) ((h.usable id hid).trans hm)
  exact h.update hid hallows hget

theorem Holds.replace (h : r.Holds m) (hid : validateId id = .ok ()) (hm : m id ≠ none) (v : Held) :
    (r.replace (id, v)).Holds (Function.update m id (some v)) := by
  obtain ⟨hallows, hget⟩ := replace_get h.allows (x := (id, v))
    (fun hn => hm ((h.usable id hid).symm.trans hn))
  exact h.update hid hallows hget

theorem Holds.unregister (h : r.Holds m) (hid : validateId id = .ok ()) :
    (r.unregister id).Holds (Function.update m id none) :=
  h.update hid rfl (Lib.Roster.get_drop r.engines id)

end Registry

/-! ## A read -/

theorem find?_lookup (k : Text) (xs : List (Text × Held)) :
    (xs.find? (·.1 = k)).map Prod.snd = lookup k xs := rfl

/-- An engine of before takes the place it has now. -/
theorem keepUp_get (hr : r.allows = true) {x : Text × Held} (hx : r.engines.get x.1 = some x.2) :
    (Live.keepUp now r x).allows = true ∧
      (Live.keepUp now r x).engines.get = Function.update r.engines.get x.1 (lookup x.1 now) := by
  unfold Live.keepUp
  rw [← find?_lookup]
  cases hf : now.find? (·.1 = x.1) with
  | none => exact ⟨hr, Lib.Roster.get_drop r.engines x.1⟩
  | some y =>
    have hid : y.1 = x.1 := by simpa using List.find?_some hf
    by_cases heq : y = x
    · have hsame : Function.update r.engines.get x.1 (some x.2) = r.engines.get := by
        rw [← hx, Function.update_eq_self]
      dsimp only
      rw [if_pos heq, heq]
      exact ⟨hr, hsame.symm⟩
    · have hthere : r.engines.get y.1 ≠ none := by
        rw [hid, hx]
        exact Option.some_ne_none x.2
      obtain ⟨hallows, hget⟩ := Registry.replace_get hr hthere
      dsimp only
      rw [if_neg heq]
      exact ⟨hallows.trans hr, hget.trans (by rw [hid]; rfl)⟩

/-- A new engine is where it belongs. -/
theorem takeUp_get (hr : r.allows = true) {y : Text × Held}
    (hy : r.engines.get y.1 = if before.any (·.1 = y.1) then some y.2 else none) :
    (Live.takeUp before r y).allows = true ∧
      (Live.takeUp before r y).engines.get = Function.update r.engines.get y.1 (some y.2) := by
  unfold Live.takeUp
  split
  next hold =>
    rw [if_pos hold] at hy
    have hsame : Function.update r.engines.get y.1 (some y.2) = r.engines.get := by
      rw [← hy, Function.update_eq_self]
    exact ⟨hr, hsame.symm⟩
  next hnew =>
    rw [if_neg hnew] at hy
    obtain ⟨hallows, hget⟩ := Registry.register_get hr hy
    exact ⟨hallows.trans hr, hget⟩

/-- What a registry holds after a read: the engines of now in the places of all, old and new. -/
theorem follow_get (hr : r.allows = true) (hbefore : (before.map Prod.fst).Nodup)
    (hnow : (now.map Prod.fst).Nodup) (hold : ∀ x ∈ before, r.engines.get x.1 = some x.2)
    (hnew : ∀ y ∈ now, lookup y.1 before = none → r.engines.get y.1 = none) :
    (Live.follow before now r).allows = true ∧ ∀ k, (Live.follow before now r).engines.get k =
      if k ∈ before.map Prod.fst ∨ k ∈ now.map Prod.fst then lookup k now else r.engines.get k := by
  obtain ⟨hr₁, hget₁⟩ := get_foldl (fun r : Registry => r.engines.get) (fun x v => v = some x.2)
    (fun r => r.allows = true) hbefore (fun r x _ hr hx => keepUp_get hr hx) hr hold
  have hthere : ∀ y ∈ now, (before.foldl (Live.keepUp now) r).engines.get y.1 =
      if before.any (·.1 = y.1) then some y.2 else none := by
    intro y hy
    have hlook : lookup y.1 now = some y.2 := (mem_iff_lookup hnow).mp hy
    rw [hget₁]
    cases hf : before.find? (·.1 = y.1) with
    | none =>
      have hnone : lookup y.1 before = none := congrArg (Option.map Prod.snd) hf
      have hany : ¬before.any (·.1 = y.1) = true := by
        intro hany
        obtain ⟨x, hx, hxy⟩ := List.any_eq_true.mp hany
        exact List.find?_eq_none.mp hf x hx hxy
      rw [if_neg hany]
      exact hnew y hy hnone
    | some x =>
      have hx : x.1 = y.1 := by simpa using List.find?_some hf
      have hany : before.any (·.1 = y.1) = true :=
        List.any_eq_true.mpr ⟨x, List.mem_of_find?_eq_some hf, decide_eq_true hx⟩
      rw [if_pos hany]
      show lookup x.1 now = some y.2
      rw [hx, hlook]
  obtain ⟨hr₂, hget₂⟩ := get_foldl (fun r : Registry => r.engines.get)
    (fun y v => v = if before.any (·.1 = y.1) then some y.2 else none)
      (fun r => r.allows = true) hnow
    (fun r y _ hr hy => takeUp_get hr hy) hr₁ hthere
  refine ⟨hr₂, fun k => (hget₂ k).trans ?_⟩
  cases hf : now.find? (·.1 = k) with
  | some y =>
    have hk : k ∈ now.map Prod.fst :=
      List.mem_map.mpr ⟨y, List.mem_of_find?_eq_some hf, by simpa using List.find?_some hf⟩
    rw [if_pos (.inr hk), ← find?_lookup, hf]
    rfl
  | none =>
    have hlook : lookup k now = none := congrArg (Option.map Prod.snd) hf
    have hk : k ∉ now.map Prod.fst := lookup_eq_none.mp hlook
    show (before.foldl (Live.keepUp now) r).engines.get k = _
    rw [hget₁]
    cases hb : before.find? (·.1 = k) with
    | some x =>
      have hx : x.1 = k := by simpa using List.find?_some hb
      rw [if_pos (.inl (List.mem_map.mpr ⟨x, List.mem_of_find?_eq_some hb, hx⟩)), ← hx]
      rfl
    | none =>
      have hlookb : lookup k before = none := congrArg (Option.map Prod.snd) hb
      rw [if_neg (not_or.mpr ⟨lookup_eq_none.mp hlookb, hk⟩)]
      rfl

/-- **A registry follows a read.** -/
theorem follow_holds (h : r.Holds (lookup · before)) (hbefore : (before.map Prod.fst).Nodup)
    (hnow : (now.map Prod.fst).Nodup) (hvalid : ∀ x ∈ before, validateId x.1 = .ok ())
    (hvalid' : ∀ y ∈ now, validateId y.1 = .ok ()) :
    (Live.follow before now r).Holds (lookup · now) := by
  have hold : ∀ x ∈ before, r.engines.get x.1 = some x.2 := by
    intro x hx
    rw [h.usable x.1 (hvalid x hx)]
    exact (mem_iff_lookup hbefore).mp hx
  have hnew : ∀ y ∈ now, lookup y.1 before = none → r.engines.get y.1 = none := by
    intro y hy hno
    rw [h.usable y.1 (hvalid' y hy)]
    exact hno
  obtain ⟨hallows, hget⟩ := follow_get h.allows hbefore hnow hold hnew
  refine ⟨hallows, fun id hid x hx => ?_, fun id hid => ?_⟩
  · have hnone : ¬(id ∈ before.map Prod.fst ∨ id ∈ now.map Prod.fst) := by
      rintro (hm | hm)
      · obtain ⟨y, hy, rfl⟩ := List.mem_map.mp hm
        exact hid (hvalid y hy)
      · obtain ⟨y, hy, rfl⟩ := List.mem_map.mp hm
        exact hid (hvalid' y hy)
    rw [hget, if_neg hnone] at hx
    exact h.own id hid x hx
  · rw [hget]
    split
    · rfl
    next hno =>
      obtain ⟨hb, hn⟩ := not_or.mp hno
      rw [h.usable id hid, lookup_eq_none.mpr hb, lookup_eq_none.mpr hn]

end Sonara.Engines
