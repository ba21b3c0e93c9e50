import Sonara.Settings.Fields

/-!
# Changes of the settings

Every change leaves values in use that the schema stores as they are, keeps the others apart from
them, and writes a file that loads as what is in use (`record_keys`, `forget_keys`,
`recordSummaries_keys`).
-/

namespace Sonara.Settings

open Json

variable {s : Store} {key k : Text} {v c : Json} {user extra : List (Text × Json)}

/-- Setting a valid value keeps the fields sound. -/
theorem Sound.set (h : Sound user extra) (hc : accepted (key, c) = some (key, c)) :
    Sound (insert key c user) (remove key extra) := by
  refine ⟨h.inUse.insert, h.kept.remove, fun k v hv => ?_, fun k v hv => ?_, fun k hk => ?_⟩
  · rw [field_insert] at hv
    split at hv
    next heq =>
      obtain rfl := Option.some.inj hv
      exact heq ▸ hc
    next => exact h.valid k v hv
  · rw [field_remove] at hv
    split at hv
    next => cases hv
    next => exact h.invalid k v hv
  · rw [field_insert] at hk
    rw [field_remove]
    split
    next => rfl
    next hne =>
      rw [if_neg hne] at hk
      exact h.apart k hk

/-- Unsetting keeps the fields sound. -/
theorem Sound.unset (h : Sound user extra) : Sound (remove key user) (remove key extra) := by
  refine ⟨h.inUse.remove, h.kept.remove, fun k v hv => ?_, fun k v hv => ?_, fun k hk => ?_⟩
  · rw [field_remove] at hv
    split at hv
    next => cases hv
    next => exact h.valid k v hv
  · rw [field_remove] at hv
    split at hv
    next => cases hv
    next => exact h.invalid k v hv
  · rw [field_remove] at hk ⊢
    split
    next => rfl
    next hne =>
      rw [if_neg hne] at hk
      exact h.apart k hk

/-- The keys of a store and its `config.json`. -/
structure KeysInv (s : Store) : Prop where
  sound : Sound s.user s.extra
  file : Json.Ordered (readObject s.home.config)
  reloads : Reloads s

theorem Sound.save (h : Sound s.user s.extra) : KeysInv s.saveConfig :=
  ⟨h, extend_ordered h.kept, load_saved h⟩

theorem load_keys {home : Home} (h : Json.Ordered (readObject home.config)) :
    KeysInv (load home) := by
  have hsound := loaded_sound h
  refine ⟨hsound.withReadMode, h, ?_, rfl⟩
  exact (withReadMode_idem _ _).symm

theorem setting_summaries : setting "summaries".toList = some
    { key := "summaries", kind := .summaries
      default := obj [("command", str "claude"), ("enabled", .bool false), ("model", str "haiku"),
        ("prompts", obj []),
        ("settle_ms", num 600), ("style", str "natural"), ("timeout", num 60)] } := by
  rfl

theorem validate_summaries (v : Json) :
    validate "summaries".toList v = Json.object <$> validateSummaries v := by
  unfold validate
  rw [setting_summaries]
  rfl

theorem accepted_checked (h : keptAlways key = false) : accepted (key, v) =
    match validate key v with
    | .ok c => some (key, c)
    | .error _ => none := by
  unfold accepted
  exact if_neg (by rw [h]; exact Bool.false_ne_true)

/-- What is stored of `summaries` is valid. -/
theorem Sound.summaries (h : Sound s.user s.extra) : SummariesStored s.summaries := by
  unfold Store.summaries
  cases hfield : field "summaries".toList s.user with
  | none => exact ⟨List.Pairwise.nil, by simp⟩
  | some v =>
    have haccepted := h.valid _ v hfield
    rw [accepted_checked (by decide), validate_summaries] at haccepted
    cases hvalid : validateSummaries v with
    | error why =>
      rw [hvalid] at haccepted
      cases haccepted
    | ok fields =>
      rw [hvalid] at haccepted
      obtain rfl : .object fields = v := congrArg Prod.snd (Option.some.inj haccepted)
      exact validateSummaries_stored hvalid

theorem mergeField_stored {stored : List (Text × Json)} {f : Text × Json}
    (h : SummariesStored stored)
    (hf : FieldStored f) : SummariesStored (Store.mergeField stored f) := by
  unfold Store.mergeField
  split
  next => exact ⟨h.1.remove, fun g hg => h.2 g (List.mem_filter.mp hg).1⟩
  next =>
    refine ⟨h.1.insert, fun g hg => ?_⟩
    rcases mem_insert hg with rfl | hg
    · exact hf
    · exact h.2 g hg

theorem merge_stored {clean stored : List (Text × Json)} (h : SummariesStored stored)
    (hclean : ∀ f ∈ clean, FieldStored f) :
    SummariesStored (clean.foldl Store.mergeField stored) := by
  induction clean generalizing stored with
  | nil => exact h
  | cons f rest ih =>
    exact ih (mergeField_stored h (hclean f List.mem_cons_self)) fun g hg =>
      hclean g (List.mem_cons_of_mem _ hg)

/-- Recording summaries keeps the invariant of the keys. -/
theorem recordSummaries_keys (h : KeysInv s) (fields : List (Text × Json)) :
    KeysInv (s.recordSummaries fields) := by
  unfold Store.recordSummaries
  cases hclean : validateSummaries (.object fields) with
  | error why => exact h
  | ok clean =>
    dsimp only
    have hstored := merge_stored h.sound.summaries (validateSummaries_stored hclean).2
    split
    next => exact h
    next =>
      refine Sound.save (s := { s with extra := _, user := _ }) ?_
      dsimp only
      split
      next => exact h.sound.unset
      next =>
        refine h.sound.set (valid_accepted ?_)
        rw [validate_summaries, hstored.valid]
        rfl

/-- Recording a key keeps the invariant of the keys. -/
theorem record_keys (h : KeysInv s) (key : Text) (v : Json) : KeysInv (s.record key v) := by
  unfold Store.record
  split
  next =>
    cases v.asObject with
    | some fields => exact recordSummaries_keys h fields
    | none => exact h
  next =>
    cases hc : validate key v with
    | error why => exact h
    | ok c =>
      dsimp only
      split
      next => exact h
      next =>
        exact Sound.save (s := { s with extra := _, user := _ })
          (h.sound.set (valid_accepted (validate_idem hc)))

theorem forget_keys (h : KeysInv s) (key : Text) : KeysInv (s.forget key) := by
  unfold Store.forget
  split
  next => exact Sound.save (s := { s with extra := _, user := _ }) h.sound.unset
  next => exact h

end Sonara.Settings
