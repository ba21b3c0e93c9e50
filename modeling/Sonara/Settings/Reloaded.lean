import Sonara.Lib.System
import Sonara.Settings.Preferences
import Sonara.Settings.Recorded

/-!
# The settings survive a restart

Whatever the files held and in whatever order settings and preferences were changed, a store loaded
afresh has the same user keys and the same preferences in the same order (`reloads`), and a key this
version does not use keeps its value in the file (`unused_kept`).
-/

namespace Sonara.Settings

open Json

variable {s s' s₀ t : Store} {key k : Text} {v : Json} {user extra : List (Text × Json)}
  {home : Home} {es : List Event}

/-- A process starts with the files, and whoever runs next starts with what it left. -/
def runs (home : Home) : Lib.System Store Event where
  init s := s = load home
  step := Store.step

/-- The clock at a change of the preferences. -/
def Event.Timely (s : Store) : Event → Prop
  | .setPrefs _ _ now => Settings.Timely s now
  | _ => True

/-! ## What a change leaves alone -/

/-- The preferences and their file are the same. -/
def SamePrefs (s t : Store) : Prop := t.prefs = s.prefs ∧ t.home.prefs = s.home.prefs

/-- The settings and their file are the same. -/
def SameKeys (s t : Store) : Prop :=
  t.user = s.user ∧ t.extra = s.extra ∧ t.home.config = s.home.config

theorem recordSummaries_prefs (s : Store) (fields : List (Text × Json)) :
    SamePrefs s (s.recordSummaries fields) := by
  unfold Store.recordSummaries
  split
  next => exact ⟨rfl, rfl⟩
  next =>
    dsimp only
    split
    next => exact ⟨rfl, rfl⟩
    next => exact ⟨rfl, rfl⟩

/-- Recording a key leaves the preferences. -/
theorem record_prefs (s : Store) (key : Text) (v : Json) : SamePrefs s (s.record key v) := by
  unfold Store.record
  split
  next =>
    split
    next => exact recordSummaries_prefs s _
    next => exact ⟨rfl, rfl⟩
  next =>
    split
    next => exact ⟨rfl, rfl⟩
    next =>
      split
      next => exact ⟨rfl, rfl⟩
      next => exact ⟨rfl, rfl⟩

theorem forget_prefs (s : Store) (key : Text) : SamePrefs s (s.forget key) := by
  unfold Store.forget
  split
  next => exact ⟨rfl, rfl⟩
  next => exact ⟨rfl, rfl⟩

theorem setPrefs_keys (s : Store) (channel : Text) (u : PrefsUpdate) (now : Nat) :
    SameKeys s (s.setPrefs channel u now) := by
  unfold Store.setPrefs
  dsimp only
  split
  next => exact ⟨rfl, rfl, rfl⟩
  next => exact ⟨rfl, rfl, rfl⟩

theorem forgetPrefs_keys (s : Store) (channel : Text) : SameKeys s (s.forgetPrefs channel) := by
  unfold Store.forgetPrefs
  dsimp only
  split
  next => exact ⟨rfl, rfl, rfl⟩
  next => exact ⟨rfl, rfl, rfl⟩

/-- Only the settings and their file matter. -/
theorem KeysInv.frame (h : KeysInv s) (hsame : SameKeys s t) : KeysInv t := by
  obtain ⟨huser, hextra, hfile⟩ := hsame
  refine ⟨huser ▸ hextra ▸ h.sound, hfile ▸ h.file, ?_⟩
  have hreloads := h.reloads
  unfold Reloads load at hreloads ⊢
  dsimp only at hreloads ⊢
  rw [huser, hextra, hfile]
  exact hreloads

/-! ## Every run -/

/-- Settings and preferences are as they were written. -/
structure StoreInv (s : Store) : Prop where
  keys : KeysInv s
  prefs : PrefsInv s

theorem load_inv (h : home.Ordered) : StoreInv (load home) := ⟨load_keys h.config, .load h.prefs⟩

theorem step_keys {e : Event} (h : KeysInv s) (hs : s.step e = some s') : KeysInv s' := by
  cases e with
  | record key v => exact Option.some.inj hs ▸ record_keys h key v
  | forget key => exact Option.some.inj hs ▸ forget_keys h key
  | recordSummaries fields => exact Option.some.inj hs ▸ recordSummaries_keys h fields
  | setPrefs channel u now => exact Option.some.inj hs ▸ h.frame (setPrefs_keys s channel u now)
  | forgetPrefs channel => exact Option.some.inj hs ▸ h.frame (forgetPrefs_keys s channel)
  | restart => exact Option.some.inj hs ▸ load_keys h.file

theorem step_prefs {e : Event} (htimely : e.Timely s) (h : PrefsInv s) (hs : s.step e = some s') :
    PrefsInv s' := by
  have hframe {t : Store} (hsame : SamePrefs s t) : PrefsInv t := h.frame hsame.1 hsame.2
  cases e with
  | record key v => exact Option.some.inj hs ▸ hframe (record_prefs s key v)
  | forget key => exact Option.some.inj hs ▸ hframe (forget_prefs s key)
  | recordSummaries fields => exact Option.some.inj hs ▸ hframe (recordSummaries_prefs s fields)
  | setPrefs channel u now => exact Option.some.inj hs ▸ setPrefs_prefs h htimely
  | forgetPrefs channel => exact Option.some.inj hs ▸ forgetPrefs_prefs h channel
  | restart => exact Option.some.inj hs ▸ .load h.file

theorem runs_inv (hhome : home.Ordered) (hi : (runs home).init s₀)
    (hm : (runs home).Meets (fun s e => e.Timely s) s₀ es) (hr : (runs home).run s₀ es = some s) :
    StoreInv s := by
  refine (runs home).run_invariant_of
    (fun s e s' htimely h hs => ⟨step_keys h.keys hs, step_prefs htimely h.prefs hs⟩) hm ?_ hr
  exact hi ▸ load_inv hhome

/-- **A restart changes nothing.** Whatever the files held and whatever was set and forgotten, the
next process has the same user keys (with a reading mode for a queue size that was set without one),
keeps the same other keys, and has the same preferences in the same order. -/
theorem reloads (hhome : home.Ordered) (hi : (runs home).init s₀)
    (hm : (runs home).Meets (fun s e => e.Timely s) s₀ es) (hr : (runs home).run s₀ es = some s) :
    (load s.home).user = withReadMode s.user s.extra ∧ (load s.home).extra = s.extra ∧
      (load s.home).prefs.map Entry.trimmed = (s.prefs.filter (·.id ≠ [])).map Entry.trimmed ∧
      s.prefs.Pairwise Before ∧ s.prefs.length ≤ PREFS_CAP := by
  have h := runs_inv hhome hi hm hr
  exact ⟨h.keys.reloads.1, h.keys.reloads.2, h.prefs.reloads, h.prefs.listed.ordered, h.prefs.cap⟩

/-! ## Keys that are only kept -/

/-- The event sets or forgets the key. -/
def Event.Touches (k : Text) : Event → Prop
  | .record key _ => key = k
  | .forget key => key = k
  | .recordSummaries _ => k = "summaries".toList
  | _ => False

/-- The key is kept, and has its value in the file. -/
structure Unused (k : Text) (v : Json) (s : Store) : Prop where
  extra : field k s.extra = some v
  file : field k (readObject s.home.config) = some v

theorem Sound.not_used (h : Sound user extra) (hk : field k extra = some v) :
    field k user = none := by
  by_contra hne
  rw [h.apart k hne] at hk
  cases hk

theorem saved_unused (h : Sound s.user s.extra) (hk : field k s.extra = some v) :
    Unused k v s.saveConfig := by
  refine ⟨hk, ?_⟩
  show field k (extend s.extra s.user) = some v
  rw [field_extend h.inUse, h.not_used hk, Option.none_or, hk]

/-- What is loaded of a file with the key. -/
theorem load_unused (h : KeysInv s) (hk : Unused k v s) : Unused k v (load s.home) := by
  refine ⟨?_, hk.file⟩
  show field k (extend [] ((readObject s.home.config).filterMap refused)) = some v
  rw [rebuild (h.file.filterMap refused_key), field_filterMap h.file refused_key, hk.file]
  show (refused (k, v)).map (·.2) = some v
  rw [h.sound.invalid k v hk.extra]
  rfl

/-- The settings are as they were, or written with the key as it was, or loaded. -/
inductive Written (k : Text) (s s' : Store) : Prop where
  | same (h : SameKeys s s')
  | saved (t : Store) (h : s' = t.saveConfig) (hk : field k t.extra = field k s.extra)
  | loaded (h : s' = load s.home)

theorem recordSummaries_written (s : Store) (fields : List (Text × Json))
    (hk : k ≠ "summaries".toList) :
    Written k s (s.recordSummaries fields) := by
  unfold Store.recordSummaries
  split
  next => exact .same ⟨rfl, rfl, rfl⟩
  next =>
    dsimp only
    split
    next => exact .same ⟨rfl, rfl, rfl⟩
    next => exact .saved _ rfl (field_remove_of_ne hk _)

/-- Recording a key writes no other key. -/
theorem record_written (s : Store) (v : Json) (hk : k ≠ key) : Written k s (s.record key v) := by
  unfold Store.record
  split
  next hsummaries =>
    split
    next => exact recordSummaries_written s _ (hsummaries ▸ hk)
    next => exact .same ⟨rfl, rfl, rfl⟩
  next =>
    split
    next => exact .same ⟨rfl, rfl, rfl⟩
    next =>
      split
      next => exact .same ⟨rfl, rfl, rfl⟩
      next => exact .saved _ rfl (field_remove_of_ne hk _)

theorem forget_written (s : Store) (hk : k ≠ key) : Written k s (s.forget key) := by
  unfold Store.forget
  split
  next => exact .saved _ rfl (field_remove_of_ne hk _)
  next => exact .same ⟨rfl, rfl, rfl⟩

theorem step_written {e : Event} (hk : ¬e.Touches k) (hs : s.step e = some s') :
    Written k s s' := by
  cases e with
  | record key v => exact Option.some.inj hs ▸ record_written s v (Ne.symm hk)
  | forget key => exact Option.some.inj hs ▸ forget_written s (Ne.symm hk)
  | recordSummaries fields => exact Option.some.inj hs ▸ recordSummaries_written s fields hk
  | setPrefs channel u now => exact .same (Option.some.inj hs ▸ setPrefs_keys s channel u now)
  | forgetPrefs channel => exact .same (Option.some.inj hs ▸ forgetPrefs_keys s channel)
  | restart => exact .loaded (Option.some.inj hs).symm

theorem step_unused {e : Event} (htouches : ¬e.Touches k) (h : KeysInv s) (hk : Unused k v s)
    (hs : s.step e = some s') :
    Unused k v s' := by
  have hkeys := step_keys h hs
  cases step_written htouches hs with
  | same hsame => exact ⟨hsame.2.1 ▸ hk.extra, hsame.2.2 ▸ hk.file⟩
  | saved t ht hextra =>
    subst ht
    exact saved_unused hkeys.sound (hextra.trans hk.extra)
  | loaded ht => exact ht ▸ load_unused h hk

/-- **What a newer version wrote is kept.** A key that is unknown, or of which the value is refused,
is not used and has its value in the file until it is set or forgotten itself. -/
theorem unused_kept (hhome : home.Ordered) (hfile : field k (readObject home.config) = some v)
    (hrefused : refused (k, v) = some (k, v)) (hi : (runs home).init s₀)
    (hm : (runs home).Meets (fun _ e => ¬e.Touches k) s₀ es) (hr : (runs home).run s₀ es = some s) :
    field k (readObject s.home.config) = some v ∧ field k s.user = none := by
  have h : KeysInv s ∧ Unused k v s := by
    refine (runs home).run_invariant_of (P := fun s => KeysInv s ∧ Unused k v s)
      (fun s e s' htouches h hs => ⟨step_keys h.1 hs, step_unused htouches h.1 h.2 hs⟩) hm ?_ hr
    obtain rfl : s₀ = load home := hi
    refine ⟨load_keys hhome.config, ?_, hfile⟩
    show field k (extend [] ((readObject home.config).filterMap refused)) = some v
    rw [rebuild (hhome.config.filterMap refused_key),
      field_filterMap hhome.config refused_key, hfile]
    show (refused (k, v)).map (·.2) = some v
    rw [hrefused]
    rfl
  exact ⟨h.2.file, h.1.sound.not_used h.2.extra⟩

/-! ## A file of a newer version -/

/-- A setting that is not known yet, beside one that is. -/
def newer : Home where
  config := some (obj [("theme", str "dark"), ("volume", num 55)])

/-- The volume is set, a channel is named, and the next process loads the files. -/
def changes : List Event :=
  [.record "volume".toList (num 40), .setPrefs "claude".toList
    { label := some (some "Claude ".toList) } 7, .restart]

theorem newer_ordered : newer.Ordered := ⟨by unfold Json.Ordered; decide +kernel, List.Pairwise.nil⟩

theorem changes_run : ∃ s, (runs newer).run (load newer) changes = some s := by
  have hsome : ((runs newer).run (load newer) changes).isSome = true := by decide +kernel
  exact Option.isSome_iff_exists.mp hsome

theorem newer_reloads : ∃ s, (runs newer).run (load newer) changes = some s ∧
    (load s.home).user = withReadMode s.user s.extra ∧ (load s.home).extra = s.extra ∧
    (load s.home).prefs.map Entry.trimmed = (s.prefs.filter (·.id ≠ [])).map Entry.trimmed ∧
    s.prefs.Pairwise Before ∧ s.prefs.length ≤ PREFS_CAP := by
  obtain ⟨s, hs⟩ := changes_run
  refine ⟨s, hs, reloads newer_ordered rfl ?_ hs⟩
  refine ⟨trivial, fun t ht => ⟨⟨by decide, ?_⟩, fun t' _ => ⟨trivial, fun _ _ => trivial⟩⟩⟩
  obtain rfl := Option.some.inj ht
  have hnone : ((load newer).record "volume".toList (num 40)).prefs = [] := by decide +kernel
  rw [hnone]
  exact fun e he => absurd he List.not_mem_nil

/-- A theme, which no setting uses, is kept. -/
theorem theme_kept : ∃ s, (runs newer).run (load newer) changes = some s ∧
    field "theme".toList (readObject s.home.config) = some
    (str "dark") ∧ field "theme".toList s.user = none := by
  obtain ⟨s, hs⟩ := changes_run
  have hfile : field "theme".toList (readObject newer.config) = some
    (str "dark") := by decide +kernel
  have hrefused : refused ("theme".toList, str "dark") = some
    ("theme".toList, str "dark") := by decide +kernel
  have hnot : ¬(Event.record "volume".toList (num 40)).Touches "theme".toList := by
    unfold Event.Touches
    decide
  have hm : (runs newer).Meets (fun _ e => ¬e.Touches "theme".toList) (load newer) changes :=
    ⟨hnot, fun _ _ => ⟨fun h => h, fun _ _ => ⟨fun h => h, fun _ _ => trivial⟩⟩⟩
  exact ⟨s, hs, unused_kept newer_ordered hfile hrefused rfl hm hs⟩

end Sonara.Settings
