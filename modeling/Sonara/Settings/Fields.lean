import Sonara.Settings.Store

/-!
# What `config.json` holds

Objects in the order of their keys are equal when they have the same fields (`eq_of_field`). What is
saved of the keys in use and the ones that are only kept is loaded again as it was (`load_saved`).
-/

namespace Sonara

namespace Json

open Settings (extend)

variable {fields map : List (Text × Json)} {key k : Text} {v : Json}

theorem field_none (h : ∀ f ∈ fields, f.1 ≠ key) : field key fields = none := by
  cases hf : field key fields with
  | none => rfl
  | some v => exact absurd rfl (h _ (mem_of_field hf))

/-- Two maps in order with the same fields are the same. -/
theorem eq_of_field {a b : List (Text × Json)} (ha : Ordered a) (hb : Ordered b)
    (h : ∀ k, field k a = field k b) :
    a = b := by
  have hmem (f : Text × Json) : f ∈ a ↔ f ∈ b := by
    obtain ⟨k, v⟩ := f
    constructor
    · intro hf
      exact mem_of_field ((h k).symm.trans (field_of_mem ha hf))
    · intro hf
      exact mem_of_field ((h k).trans (field_of_mem hb hf))
  have hperm : a.Perm b := by
    refine (List.perm_ext_iff_of_nodup ?_ ?_).mpr hmem
    · exact List.Pairwise.imp (fun hlt heq => absurd (heq ▸ hlt) (lt_irrefl _)) ha
    · exact List.Pairwise.imp (fun hlt heq => absurd (heq ▸ hlt) (lt_irrefl _)) hb
  exact hperm.eq_of_pairwise (fun f g _ _ hlt hgt => absurd hgt hlt.asymm) ha hb

theorem field_insert (key k : Text) (v : Json) (fields : List (Text × Json)) :
    field k (insert key v fields) = if k = key then some v else field k fields := by
  split
  next h => rw [h, field_insert_self]
  next h => exact field_insert_of_ne h v fields

theorem field_remove (key k : Text) (fields : List (Text × Json)) :
    field k (remove key fields) = if k = key then none else field k fields := by
  split
  next h =>
    refine field_none fun f hf heq => ?_
    have hne := (List.mem_filter.mp hf).2
    rw [heq, h] at hne
    exact absurd hne (by simp)
  next h => exact field_remove_of_ne h fields

/-- A field of the extended map is the new one, or the old. -/
theorem field_extend (h : Ordered fields) :
    field k (extend map fields) = (field k fields).or (field k map) := by
  induction fields generalizing map with
  | nil => rfl
  | cons f rest ih =>
    obtain ⟨hfirst, hrest⟩ := List.pairwise_cons.mp h
    show field k (extend (insert f.1 f.2 map) rest) = _
    rw [ih hrest, field_insert]
    split
    next heq =>
      have hnone : field k rest = none := field_none fun g hg => heq ▸ (hfirst g hg).ne'
      have hself : field k (f :: rest) = some f.2 := heq ▸ field_of_mem h List.mem_cons_self
      rw [hnone, hself]
      rfl
    next hne =>
      have hskip : field k (f :: rest) = field k rest := by
        unfold field
        rw [List.find?_cons, beq_false_of_ne (Ne.symm hne)]
      rw [hskip]

/-- What is made of each field, under its key. -/
theorem Ordered.filterMap (h : Ordered fields) {g : Text × Json → Option (Text × Json)}
    (hg : ∀ f f', g f = some f' → f'.1 = f.1) : Ordered (fields.filterMap g) := by
  refine List.Pairwise.filterMap g (fun a b hab a' ha b' hb => ?_) h
  rw [hg a a' ha, hg b b' hb]
  exact hab

/-- A field after a filter is the filtered field. -/
theorem field_filterMap (h : Ordered fields) {g : Text × Json → Option (Text × Json)}
    (hg : ∀ f f', g f = some f' → f'.1 = f.1) :
    field k (fields.filterMap g) = (field k fields).bind fun v => (g (k, v)).map (·.2) := by
  have hordered := h.filterMap hg
  cases hf : field k fields with
  | none =>
    refine field_none fun f' hf' heq => ?_
    obtain ⟨f, hmem, hgf⟩ := List.mem_filterMap.mp hf'
    have hkey : f.1 = k := (hg f f' hgf).symm.trans heq
    have hsome : field k fields = some f.2 := field_of_mem h (hkey ▸ hmem)
    cases hf.symm.trans hsome
  | some v =>
    show _ = (g (k, v)).map (·.2)
    have hmem := mem_of_field hf
    cases hgv : g (k, v) with
    | some f' =>
      have hkey : f'.1 = k := hg _ _ hgv
      exact field_of_mem hordered (hkey ▸ List.mem_filterMap.mpr ⟨_, hmem, hgv⟩)
    | none =>
      refine field_none fun f' hf' heq => ?_
      obtain ⟨f, hmem', hgf⟩ := List.mem_filterMap.mp hf'
      have hkey : f.1 = k := (hg f f' hgf).symm.trans heq
      obtain rfl : f.2 = v := Option.some.inj ((field_of_mem h (hkey ▸ hmem')).symm.trans hf)
      obtain ⟨k', x⟩ := f
      obtain rfl : k' = k := hkey
      cases hgv.symm.trans hgf

end Json

namespace Settings

open Json

variable {key k : Text} {v c : Json} {user extra fields : List (Text × Json)}

/-! ## The keys in use, and those that are kept -/

theorem accepted_key (f f' : Text × Json) (h : accepted f = some f') : f'.1 = f.1 := by
  unfold accepted at h
  split at h
  next => exact Option.some.inj h ▸ rfl
  next =>
    split at h
    next => exact Option.some.inj h ▸ rfl
    next => cases h

theorem refused_eq {f f' : Text × Json} (h : refused f = some f') : f = f' := by
  unfold refused at h
  split at h
  next => cases h
  next =>
    split at h
    next => cases h
    next => exact Option.some.inj h

theorem refused_key (f f' : Text × Json) (h : refused f = some f') : f'.1 = f.1 :=
  refused_eq h ▸ rfl

/-- The keys in use have values the schema stores, the kept ones values it refuses. -/
structure Sound (user extra : List (Text × Json)) : Prop where
  inUse : Ordered user
  kept : Ordered extra
  valid : ∀ k v, field k user = some v → accepted (k, v) = some (k, v)
  invalid : ∀ k v, field k extra = some v → refused (k, v) = some (k, v)
  apart : ∀ k, field k user ≠ none → field k extra = none

/-- A field is in use or kept, never both. -/
theorem accepted_or_refused (f : Text × Json) : accepted f = none ↔ refused f = some f := by
  unfold accepted refused
  split
  next => exact ⟨nofun, nofun⟩
  next =>
    cases validate f.1 f.2 with
    | ok c => exact ⟨nofun, nofun⟩
    | error why => exact ⟨fun _ => rfl, fun _ => rfl⟩

theorem accepted_refused {f f' : Text × Json} (h : accepted f = some f') : refused f = none := by
  unfold accepted at h
  unfold refused
  split at h
  next hkept => exact if_pos hkept
  next hkept =>
    rw [if_neg hkept]
    cases hvalid : validate f.1 f.2 with
    | ok c => rfl
    | error why =>
      rw [hvalid] at h
      cases h

theorem valid_accepted (h : validate key c = .ok c) : accepted (key, c) = some (key, c) := by
  unfold accepted
  split
  next => rfl
  next =>
    dsimp only
    rw [h]

/-- What is in use is accepted again. -/
theorem accepted_idem {f f' : Text × Json} (h : accepted f = some f') : accepted f' = some f' := by
  have hkey := accepted_key f f' h
  unfold accepted at h
  split at h
  next hkept =>
    obtain rfl := Option.some.inj h
    exact if_pos hkept
  next =>
    split at h
    next c hc =>
      obtain rfl := Option.some.inj h
      exact valid_accepted (validate_idem hc)
    next => cases h

/-- What is saved and read again is split as it was. -/
theorem Sound.saved (h : Sound user extra) :
    (extend extra user).filterMap accepted = user ∧
    (extend extra user).filterMap refused = extra := by
  have hordered : Ordered (extend extra user) := extend_ordered h.kept
  constructor
  · refine eq_of_field (hordered.filterMap accepted_key) h.inUse fun k => ?_
    rw [field_filterMap hordered accepted_key, field_extend h.inUse]
    cases huser : field k user with
    | some v =>
      show (accepted (k, v)).map (·.2) = _
      rw [h.valid k v huser]
      rfl
    | none =>
      cases hextra : field k extra with
      | none => rfl
      | some v =>
        show (accepted (k, v)).map (·.2) = _
        rw [(accepted_or_refused (k, v)).mpr (h.invalid k v hextra)]
        rfl
  · refine eq_of_field (hordered.filterMap refused_key) h.kept fun k => ?_
    rw [field_filterMap hordered refused_key, field_extend h.inUse]
    cases huser : field k user with
    | some v =>
      show (refused (k, v)).map (·.2) = _
      rw [accepted_refused (h.valid k v huser), h.apart k (by rw [huser]; exact nofun)]
      rfl
    | none =>
      cases hextra : field k extra with
      | none => rfl
      | some v =>
        show (refused (k, v)).map (·.2) = _
        rw [h.invalid k v hextra]
        rfl

/-! ## The reading mode -/

theorem read_mode_valid {mode : Json} (h : readModeFromMinqueue user = some mode) :
    accepted ("read_mode".toList, mode) = some ("read_mode".toList, mode) := by
  unfold readModeFromMinqueue at h
  split at h
  next => cases h
  next =>
    obtain ⟨n, -, rfl⟩ := Option.map_eq_some_iff.mp h
    refine valid_accepted ?_
    split
    next => decide +kernel
    next => decide +kernel

/-- The read mode is filled in once. -/
theorem withReadMode_idem (user extra : List (Text × Json)) :
    withReadMode (withReadMode user extra) extra = withReadMode user extra := by
  by_cases hextra : (field "read_mode".toList extra).isSome = true
  · unfold withReadMode
    rw [if_pos hextra, if_pos hextra]
  · have hkeep {user : List (Text × Json)} (h : readModeFromMinqueue user = none) :
        withReadMode user extra = user := by
      unfold withReadMode
      rw [if_neg hextra, h]
    cases hmode : readModeFromMinqueue user with
    | none => rw [hkeep hmode, hkeep hmode]
    | some mode =>
      have hset : readModeFromMinqueue (insert "read_mode".toList mode user) = none := by
        unfold readModeFromMinqueue
        rw [field_insert_self]
        exact if_pos rfl
      have hnew : withReadMode user extra = insert "read_mode".toList mode user := by
        unfold withReadMode
        rw [if_neg hextra, hmode]
      rw [hnew, hkeep hset]

/-- Filling in the read mode keeps the fields sound. -/
theorem Sound.withReadMode (h : Sound user extra) : Sound (withReadMode user extra) extra := by
  unfold Settings.withReadMode
  split
  next => exact h
  next hextra =>
    split
    next mode hmode =>
      refine ⟨h.inUse.insert, h.kept, fun k v hv => ?_, h.invalid, fun k hk => ?_⟩
      · rw [field_insert] at hv
        split at hv
        next heq =>
          obtain rfl := Option.some.inj hv
          exact heq ▸ read_mode_valid hmode
        next => exact h.valid k v hv
      · rw [field_insert] at hk
        split at hk
        next heq => exact heq ▸ Option.not_isSome_iff_eq_none.mp hextra
        next => exact h.apart k hk
    next => exact h

/-- The files are JSON objects, or missing. -/
structure Home.Ordered (home : Home) : Prop where
  config : Json.Ordered (readObject home.config)
  prefs : Json.Ordered (readObject home.prefs)

/-- What a file is split into is sound. -/
theorem loaded_sound {raw : List (Text × Json)} (h : Ordered raw) :
    Sound (extend [] (raw.filterMap accepted)) (extend [] (raw.filterMap refused)) := by
  have huser := h.filterMap accepted_key
  have hextra := h.filterMap refused_key
  rw [rebuild huser, rebuild hextra]
  refine ⟨huser, hextra, fun k v hv => ?_, fun k v hv => ?_, fun k hk => ?_⟩
  · obtain ⟨f, -, hf⟩ := List.mem_filterMap.mp (mem_of_field hv)
    exact accepted_idem hf
  · obtain ⟨f, -, hf⟩ := List.mem_filterMap.mp (mem_of_field hv)
    have heq := refused_eq hf
    rwa [heq] at hf
  · rw [field_filterMap h accepted_key] at hk
    rw [field_filterMap h refused_key]
    cases hraw : field k raw with
    | none => rfl
    | some x =>
      rw [hraw] at hk
      cases haccepted : accepted (k, x) with
      | none => exact absurd (congrArg (Option.map Prod.snd) haccepted) hk
      | some f' => exact congrArg (Option.map Prod.snd) (accepted_refused haccepted)

/-- **What is loaded is what was in use**, with the reading mode of the queue size. -/
def Reloads (s : Store) : Prop :=
  (load s.home).user = withReadMode s.user s.extra ∧ (load s.home).extra = s.extra

theorem load_saved {s : Store} (h : Sound s.user s.extra) : Reloads s.saveConfig := by
  obtain ⟨huser, hextra⟩ := h.saved
  unfold Reloads load Store.saveConfig readObject
  dsimp only
  rw [huser, hextra, rebuild h.inUse, rebuild h.kept]
  exact ⟨rfl, rfl⟩

end Settings

end Sonara
