import Mathlib.Data.List.Sort
import Sonara.Settings.Validated

/-!
# The persisted settings (`config.rs`): the store

A store is loaded from `config.json` and `session_prefs.json`, and writes a file whole with each
change of it. Only what the user set is written. A file is its parsed JSON value; one that is
missing, or is no object, counts as empty (its backup copy and the reports of what was dropped are
left out).
-/

namespace Sonara.Settings

open Json

def PREFS_CAP : Nat := 200
def LABEL_MAX : Nat := 60

/-! ## Preferences of a channel -/

structure Prefs where
  label : Option Text := none
  voice : Option Text := none
  muted : Bool := false
  deriving DecidableEq, Repr

/-- A change: `none` leaves a field alone, `some none` clears it. -/
structure PrefsUpdate where
  label : Option (Option Text) := none
  voice : Option (Option Text) := none
  muted : Option Bool := none
  deriving DecidableEq, Repr

def clip (label : Text) : Text := label.take LABEL_MAX

namespace Prefs

variable (p : Prefs)

def isEmpty : Bool := p.label.isNone && p.voice.isNone && !p.muted

def toJson : List (Text × Json) :=
  let m := match p.label with
    | some l => insert "label".toList (.string l) []
    | none => []
  let m := match p.voice with
    | some v => insert "voice".toList (.string v) m
    | none => m
  if p.muted then insert "muted".toList (.bool true) m else m

/-- Fields that are unknown or bad are dropped. The Python plugin's `name` is read as `label`. -/
def fromJson (v : Json) : Prefs where
  label := (((get "label".toList v).or (get "name".toList v)).bind nonBlank).map clip
  voice := (get "voice".toList v).bind nonBlank
  muted := ((get "muted".toList v).bind asBool).getD false

/-- A label or a voice that was given, when it is not blank. -/
def text (v : Option Text) : Option Text := (v.map Text.trim).filter (· ≠ [])

def update (u : PrefsUpdate) : Prefs where
  label := match u.label with
    | some l => (text l).map clip
    | none => p.label
  voice := match u.voice with
    | some v => text v
    | none => p.voice
  muted := u.muted.getD p.muted

end Prefs

/-- The preferences of a channel, and when they changed. -/
structure Entry where
  id : Text
  prefs : Prefs
  time : Nat
  deriving DecidableEq, Repr

def Entry.json (e : Entry) : Text × Json :=
  (e.id, .object (insert "changed".toList (num e.time) e.prefs.toJson))

/-- An entry of the file; one without an id or without a preference is dropped. -/
def Entry.read (f : Text × Json) : Option Entry :=
  let prefs := Prefs.fromJson f.2
  if f.1 = [] ∨ prefs.isEmpty then none
  else some { id := f.1, prefs := prefs, time := ((get "changed".toList f.2).bind asU64).getD 0 }

/-! ## The store -/

/-- What the two files hold. -/
structure Home where
  config : Option Json := none
  prefs : Option Json := none

structure Store where
  home : Home
  /-- The user's keys, and those that begin with `_`. -/
  user : List (Text × Json) := []
  /-- Keys that are unknown, or of which the value is refused. -/
  extra : List (Text × Json) := []
  /-- Oldest change first. -/
  prefs : List Entry := []

def readObject : Option Json → List (Text × Json)
  | some (.object fields) => fields
  | _ => []

def keptAlways (key : Text) : Bool := key.head? == some '_'

/-- A field of the file the user has. -/
def accepted (f : Text × Json) : Option (Text × Json) :=
  if keptAlways f.1 then some f
  else
    match validate f.1 f.2 with
    | .ok v => some (f.1, v)
    | .error _ => none

/-- A field of the file that is only kept. -/
def refused (f : Text × Json) : Option (Text × Json) :=
  if keptAlways f.1 then none
  else
    match validate f.1 f.2 with
    | .ok _ => none
    | .error _ => some f

/-- The reading switch before there was a `read_mode`. -/
def readModeFromMinqueue (user : List (Text × Json)) : Option Json :=
  if (field "read_mode".toList user).isSome then none
  else
    ((field "minqueue".toList user).bind asU64).map fun n =>
      if n ≤ 1 then str "immediate" else str "queue"

/-- A refused `read_mode` stays in the file: none is derived then. -/
def withReadMode (user extra : List (Text × Json)) : List (Text × Json) :=
  if (field "read_mode".toList extra).isSome then user
  else
    match readModeFromMinqueue user with
    | some mode => insert "read_mode".toList mode user
    | none => user

/-- The most recently changed ones. -/
def newest (prefs : List Entry) : List Entry := prefs.drop (prefs.length - PREFS_CAP)

def loadPrefs (raw : List (Text × Json)) : List Entry :=
  newest ((raw.filterMap Entry.read).insertionSort fun a b => a.time ≤ b.time)

def load (home : Home) : Store :=
  let raw := readObject home.config
  let user := extend [] (raw.filterMap accepted)
  let extra := extend [] (raw.filterMap refused)
  { home := home, user := withReadMode user extra, extra := extra,
    prefs := loadPrefs (readObject home.prefs) }

namespace Store

variable (s : Store)

def saveConfig : Store :=
  { s with home := { s.home with config := some (.object (extend s.extra s.user)) } }

def savePrefs : Store :=
  { s with home := { s.home with prefs := some (.object (extend [] (s.prefs.map Entry.json))) } }

/-- The fields of `summaries` the user set. -/
def summaries : List (Text × Json) := ((field "summaries".toList s.user).bind asObject).getD []

/-- One field of `summaries` that was set; no prompts remove them. -/
def mergeField (stored : List (Text × Json)) (f : Text × Json) : List (Text × Json) :=
  if f.1 = "prompts".toList ∧ f.2 = .object [] then remove f.1 stored else insert f.1 f.2 stored

/-- Merge the `summaries` fields that were set. -/
def recordSummaries (fields : List (Text × Json)) : Store :=
  match validateSummaries (.object fields) with
  | .error _ => s
  | .ok clean =>
    let before := s.summaries
    let stored := clean.foldl mergeField before
    let wasRefused := (field "summaries".toList s.extra).isSome
    if stored = before ∧ (field "summaries".toList s.user).isSome ∧ ¬wasRefused then s
    else
      saveConfig { s with
        extra := remove "summaries".toList s.extra
        user := if stored = [] then remove "summaries".toList s.user
          else insert "summaries".toList (.object stored) s.user }

/-- The user set `key`. A value the schema refuses is not stored. -/
def record (key : Text) (v : Json) : Store :=
  if key = "summaries".toList then
    match v.asObject with
    | some fields => s.recordSummaries fields
    | none => s
  else
    match validate key v with
    | .error _ => s
    | .ok c =>
      if field key s.user = some c ∧ (field key s.extra).isNone then s
      else saveConfig { s with extra := remove key s.extra, user := insert key c s.user }

/-- Forget the user's value of `key`. -/
def forget (key : Text) : Store :=
  if (field key s.user).isSome ∨ (field key s.extra).isSome then
    saveConfig { s with extra := remove key s.extra, user := remove key s.user }
  else s

/-- Change the preferences of a channel. -/
def setPrefs (channel : Text) (u : PrefsUpdate) (now : Nat) : Store :=
  let old := ((s.prefs.find? (·.id == channel)).map (·.prefs)).getD {}
  let others := s.prefs.eraseP (·.id == channel)
  let p := old.update u
  if p.isEmpty then savePrefs { s with prefs := others }
  else
    -- strictly increasing, so the order survives a reload
    let last := (others.getLast?.map (·.time)).getD 0
    savePrefs { s with
      prefs := newest (others ++
        [{ id := channel, prefs := p, time := max now ((last + 1) % 2 ^ 64) }]) }

/-- Forget the preferences of a channel. -/
def forgetPrefs (channel : Text) : Store :=
  let others := s.prefs.filter (·.id != channel)
  if others.length ≠ s.prefs.length then savePrefs { s with prefs := others } else s

end Store

/-! ## Runs -/

inductive Event where
  | record (key : Text) (v : Json)
  | forget (key : Text)
  | recordSummaries (fields : List (Text × Json))
  | setPrefs (channel : Text) (u : PrefsUpdate) (now : Nat)
  | forgetPrefs (channel : Text)
  /-- The next process loads the files. -/
  | restart

def Store.step (s : Store) : Event → Option Store
  | .record key v => some (s.record key v)
  | .forget key => some (s.forget key)
  | .recordSummaries fields => some (s.recordSummaries fields)
  | .setPrefs channel u now => some (s.setPrefs channel u now)
  | .forgetPrefs channel => some (s.forgetPrefs channel)
  | .restart => some (load s.home)

end Sonara.Settings
