import Sonara.Json
import Sonara.Lib.Except
import Sonara.Log.Secrets

/-!
# Engine profiles

`external/profile`: what `engines.json` stores and `engine_add` sends. `fromJson`
parses an entry, `toJson` is the stored form, and `origin` is the address a key of the
profile is bound to. The option tables (`Profile::validate`) and the URL grammar are
parameters (`Rules`), and so are the JSON reader and printer.
-/

namespace Sonara.Engines

open Sonara.Text
open Sonara.Log (len toAsciiLowercase)
open Lib (bind_ok mapError_ok)

/-- A fixed text of the source. -/
abbrev txt (s : String) : Text := s.toList

/-- The provider shape of a profile. -/
inductive Kind where
  | openAiCompatible
  | elevenLabs
  | azure
  | google
  | gemini
  | cartesia
  | deepgram
  | command
  deriving DecidableEq, Repr

namespace Kind

def all : List Kind :=
  [.openAiCompatible, .elevenLabs, .azure, .google, .gemini, .cartesia, .deepgram, .command]

def asStr : Kind → Text
  | .openAiCompatible => txt "openai-compatible"
  | .elevenLabs => txt "elevenlabs"
  | .azure => txt "azure"
  | .google => txt "google"
  | .gemini => txt "gemini"
  | .cartesia => txt "cartesia"
  | .deepgram => txt "deepgram"
  | .command => txt "command"

def parse (s : Text) : Option Kind := all.find? (·.asStr == s)

theorem parse_asStr {s : Text} {k : Kind} (h : parse s = some k) : k.asStr = s := by
  have := List.find?_some h
  exact beq_iff_eq.mp this

end Kind

/-- Where a profile's key comes from. -/
inductive KeyRef where
  /-- No key (a local server). -/
  | none
  /-- The Credential Manager. -/
  | credMan
  /-- The environment variable of this name. -/
  | env (name : Text)
  deriving DecidableEq, Repr

/-- "Send to the engine". -/
inductive SendMode where
  | message
  | sentence
  deriving DecidableEq, Repr

def SendMode.asStr : SendMode → Text
  | .message => txt "message"
  | .sentence => txt "sentence"

def SendMode.parse (s : Text) : Option SendMode :=
  [SendMode.message, .sentence].find? (·.asStr == s)

/-- Why a profile cannot be used. -/
inductive ProfileError where
  /-- A kind this build does not implement. -/
  | unsupported (id kind : Text)
  /-- A field breaks a rule. -/
  | invalid (message : Text)
  deriving DecidableEq, Repr

/-- One engine the user added. -/
structure Profile where
  id : Text
  kind : Kind
  label : Option Text
  url : Option Text
  model : Option Text
  voice : Option Text
  keyRef : KeyRef
  options : List (Text × Json)
  sendMode : Option SendMode
  /-- The origin an `env:` key may also go to: set by the runtime from
  `engines.json`, never parsed from a message, never in `toJson`. -/
  keyOrigin : Option Text
  deriving DecidableEq, Repr

/-- What the code rests on: the tables of the kinds' options, the URL grammar, the
folding of program paths, and the JSON reader and printer. -/
structure Rules where
  /-- `Profile::validate`. -/
  validate : Profile → Option ProfileError
  /-- `Profile::check_new`: a program that is not there. -/
  checkNew : Profile → Option ProfileError
  /-- `Url::parse`, then `Url::origin`. -/
  urlOrigin : Text → Option Text
  /-- `Url::parse`, then `Url::is_loopback`. -/
  urlLoopback : Text → Bool
  /-- `str::to_lowercase`. -/
  lowercase : Text → Text
  /-- `serde_json::from_str`, or why the text is no JSON. -/
  parse : Text → Except Text Json
  /-- `serde_json::to_string_pretty`. -/
  print : Json → Text

namespace KeyRef

/-- The wire form. -/
def asWire : KeyRef → Text
  | .none => txt "none"
  | .credMan => txt "credman"
  | .env n => txt "env:" ++ n

def envNameOk (n : Text) : Bool :=
  n.head?.any (fun c => c.isAlpha || c == '_') && decide (len n ≤ 128) &&
    n.tail.all fun c => c.isAlphanum || c == '_'

/-- Only a variable named like an API key, or one of Sonara's own. -/
def envNameAllowed (n : Text) : Bool :=
  let n := n.map Char.toUpper
  let suffix (x : String) := x.toList.isSuffixOf n && decide (x.toList.length < n.length)
  suffix "_API_KEY" || suffix "_SPEECH_KEY" || n == txt "SPEECH_KEY" ||
    (txt "SONARA_").isPrefixOf n

/-- `null` and absent mean the kind's default. -/
def parse : Option Json → Except Text (Option KeyRef)
  | .none => .ok .none
  | some .null => .ok .none
  | some (.string s) =>
    if s = txt "none" then .ok (some .none)
    else if s = txt "credman" then .ok (some .credMan)
    else if (txt "env:").isPrefixOf s then
      let name := s.drop 4
      if envNameOk name && envNameAllowed name then .ok (some (.env name))
      else if envNameOk name then
        .error (txt "environment variable '" ++ name ++ txt
          "' in key_ref must end in _API_KEY or _SPEECH_KEY, or start with SONARA_")
      else .error (txt "invalid environment variable name '" ++ name ++ txt "' in key_ref")
    else
      .error (txt "unknown key_ref '" ++ s ++ txt "': use \"none\", \"credman\" or \"env:NAME\"")
  | some _ => .error (txt "'key_ref' must be \"none\", \"credman\" or \"env:NAME\"")

end KeyRef

/-- Ids of the built-in engines. -/
def BUILTIN_IDS : List Text := [txt "kokoro", txt "onecore", txt "fake"]

/-- `^[a-z0-9][a-z0-9_-]{0,31}$`, not a built-in id, not `sonara*`. -/
def validateId (id : Text) : Except Text Unit :=
  let ok := decide (len id ≤ 32) && id.head?.any (fun c => c.isLower || c.isDigit) &&
    id.all fun c => c.isLower || c.isDigit || c == '-' || c == '_'
  if !ok then
    .error (txt "invalid engine id '" ++ id ++ txt "': use 1 to 32 of a-z, 0-9, '-' and '_'")
  else if BUILTIN_IDS.contains id then .error (txt "'" ++ id ++ txt "' is a built-in engine")
  else if (txt "sonara").isPrefixOf id then
    .error (txt "'" ++ id ++ txt "': ids starting with 'sonara' are reserved")
  else .ok ()

/-- A text field that may be missing, `null` or empty. -/
def optText (m : List (Text × Json)) (name : String) : Except ProfileError (Option Text) :=
  match Json.field (txt name) m with
  | none => .ok none
  | some .null => .ok none
  | some (.string s) => if s = [] then .ok none else .ok (some s)
  | some _ => .error (.invalid (txt "'" ++ txt name ++ txt "' must be a string"))

/-- An Azure region as it goes into a host name. -/
def regionOk (r : Text) : Bool :=
  r ≠ [] && decide (len r ≤ 40) && r.all fun c => c.isLower || c.isDigit

/-- The base URL a kind uses when the profile names no `url`. -/
def defaultBase (kind : Kind) (options : List (Text × Json)) : Option Text :=
  match kind with
  | .openAiCompatible =>
    if (Json.field (txt "preset") options).bind Json.asStr = some (txt "openai") then
      some (txt "https://api.openai.com/v1")
    else none
  | .elevenLabs => some (txt "https://api.elevenlabs.io")
  | .azure =>
    (((Json.field (txt "region") options).bind Json.asStr).filter regionOk).map fun r =>
      txt "https://" ++ r ++ txt ".tts.speech.microsoft.com"
  | .google => some (txt "https://texttospeech.googleapis.com")
  | .gemini => some (txt "https://generativelanguage.googleapis.com")
  | .cartesia => some (txt "https://api.cartesia.ai")
  | .deepgram => some (txt "https://api.deepgram.com")
  | .command => none

/-- `str::trim_end_matches('/')`. -/
def trimSlashes (t : Text) : Text := t.rdropWhile (· == '/')

/-- What a `command` profile's key is bound to: its program. -/
def commandOrigin (R : Rules) (program : Text) : Text := txt "command:" ++ R.lowercase program

/-- `argv[0]` of the options. -/
def program (options : List (Text × Json)) : Option Text :=
  (((Json.field (txt "argv") options).bind Json.asArray).bind List.head?).bind Json.asStr

/-- The origin an `engines.json` entry sends to, for any kind. -/
def originOf (R : Rules) (raw : Json) : Option Text :=
  if (raw.get (txt "kind")).bind Json.asStr = some Kind.command.asStr then
    (((raw.get (txt "options")).bind (Json.get (txt "argv"))).bind Json.asArray
      |>.bind List.head? |>.bind Json.asStr).map (commandOrigin R)
  else
    let url := ((raw.get (txt "url")).bind Json.asStr).filter (· ≠ [])
    let base := url.or <|
      (((raw.get (txt "kind")).bind Json.asStr).bind Kind.parse).bind fun kind =>
        match raw.get (txt "options") with
        | some (.object options) => defaultBase kind options
        | _ => defaultBase kind []
    base.bind fun u => R.urlOrigin (trimSlashes u)

namespace Profile

variable (R : Rules)

/-- The base URL in force: the profile's, else the kind's default. -/
def baseUrl (p : Profile) : Option Text :=
  (p.url.or (defaultBase p.kind p.options)).map trimSlashes

/-- The origin requests go to, what a stored key must be bound to. -/
def origin (p : Profile) : Option Text :=
  if p.kind = .command then (program p.options).map (commandOrigin R)
  else p.baseUrl.bind R.urlOrigin

/-- The origin of the provider itself, never the profile's `url`. -/
def defaultOrigin (p : Profile) : Option Text :=
  if p.kind = .command then p.origin R
  else (defaultBase p.kind p.options).bind fun u => R.urlOrigin (trimSlashes u)

/-- No key for a local server and a program, the Credential Manager otherwise. -/
def defaultKeyRef (p : Profile) : KeyRef :=
  let localServer := p.kind == .openAiCompatible && p.baseUrl.any R.urlLoopback
  if p.kind == .command || localServer then .none else .credMan

/-- The `options` of a profile object. -/
def optionsOf (m : List (Text × Json)) : Except ProfileError (List (Text × Json)) :=
  match Json.field (txt "options") m with
  | none => .ok []
  | some .null => .ok []
  | some (.object o) => .ok o
  | some _ => .error (.invalid (txt "'options' must be an object"))

/-- The `send_mode` of a profile object. -/
def sendModeOf (m : List (Text × Json)) : Except ProfileError (Option SendMode) :=
  match Json.field (txt "send_mode") m with
  | none => .ok none
  | some .null => .ok none
  | some v => match v.asStr.bind SendMode.parse with
    | some mode => .ok (some mode)
    | none => .error (.invalid (txt "'send_mode' must be \"message\" or \"sentence\""))

/-- Parse and validate a profile object. -/
def fromJson (v : Json) : Except ProfileError Profile := do
  let m ← v.asObject.elim (.error (.invalid (txt "an engine profile is a JSON object"))) .ok
  let some id ← optText m "id" | throw (.invalid (txt "missing 'id'"))
  (validateId id).mapError .invalid
  let some kindName ← optText m "kind" | throw (.invalid (txt "missing 'kind'"))
  let some kind := Kind.parse kindName | throw (.unsupported id kindName)
  let options ← optionsOf m
  let sendMode ← sendModeOf m
  -- The pre-release Gemini options folded into `send_mode`.
  let options := Json.remove (txt "quick_start") options
  let zero := (Json.field (txt "chunk_chars") options).bind Json.asU64 = some 0
  let sendMode := if zero then sendMode.or (some .sentence) else sendMode
  let options := if zero then Json.remove (txt "chunk_chars") options else options
  let label ← optText m "label"
  let url ← optText m "url"
  let model ← optText m "model"
  let voice ← optText m "voice"
  let p : Profile :=
    { id, kind, label, url, model, voice, keyRef := .none, options, sendMode, keyOrigin := none }
  let keyRef ← (KeyRef.parse (Json.field (txt "key_ref") m)).mapError .invalid
  let p := { p with keyRef := keyRef.getD (p.defaultKeyRef R) }
  match R.validate p with
  | some e => .error e
  | none => .ok p

/-- A field written when it has a value. -/
def putField (key : String) (v : Option Json) (m : List (Text × Json)) : List (Text × Json) :=
  match v with
  | some v => Json.insert (txt key) v m
  | none => m

/-- The stored and wire form. -/
def toJson (p : Profile) : Json :=
  .object <|
    putField "options" (some (.object p.options)) <|
    putField "send_mode" (p.sendMode.map fun mode => .string mode.asStr) <|
    putField "key_ref" (some (.string p.keyRef.asWire)) <|
    putField "voice" (p.voice.map .string) <|
    putField "model" (p.model.map .string) <|
    putField "url" (p.url.map .string) <|
    putField "label" (p.label.map .string) <|
    putField "kind" (some (.string p.kind.asStr)) <|
    putField "id" (some (.string p.id)) []

/-- A text that was given is a string that is not empty. -/
theorem optText_some {m : List (Text × Json)} {name : String} {t : Text}
    (h : optText m name = .ok (some t)) :
    Json.field (txt name) m = some (.string t) ∧ t ≠ [] := by
  unfold optText at h
  split at h
  · cases h
  · cases h
  next s hf =>
    split at h
    · cases h
    next hne =>
      cases h
      exact ⟨hf, hne⟩
  · cases h

/-- What a parsed profile has from its object: its id and kind, and no confirmed
origin; its id is checked. -/
theorem fromJson_spec {R : Rules} {m : List (Text × Json)} {p : Profile}
    (h : fromJson R (.object m) = .ok p) :
    Json.field (txt "id") m = some (.string p.id) ∧
    Json.field (txt "kind") m = some (.string p.kind.asStr) ∧ p.keyOrigin = none ∧
    validateId p.id = .ok () := by
  unfold fromJson at h
  obtain ⟨m', hm, h⟩ := bind_ok h
  cases hm
  obtain ⟨o, hid, h⟩ := bind_ok h
  cases o with
  | none => cases h
  | some id =>
  obtain ⟨_, hvalid, h⟩ := bind_ok h
  obtain ⟨o, hkind, h⟩ := bind_ok h
  cases o with
  | none => cases h
  | some kindName =>
  dsimp only at h
  generalize hk : Kind.parse kindName = k at h
  cases k with
  | none => cases h
  | some kind =>
  dsimp only at h
  obtain ⟨options, _, h⟩ := bind_ok h
  obtain ⟨mode, _, h⟩ := bind_ok h
  obtain ⟨label, _, h⟩ := bind_ok h
  obtain ⟨url, _, h⟩ := bind_ok h
  obtain ⟨model, _, h⟩ := bind_ok h
  obtain ⟨voice, _, h⟩ := bind_ok h
  obtain ⟨keyRef, _, h⟩ := bind_ok h
  split at h
  · cases h
  · cases h
    refine ⟨(optText_some hid).1, ?_, rfl, mapError_ok hvalid⟩
    rw [Kind.parse_asStr hk]
    exact (optText_some hkind).1

@[simp] theorem field_putField (key : String) (v : Json) (m : List (Text × Json)) :
    Json.field (txt key) (putField key (some v) m) = some v :=
  Json.field_insert_self _ _ _

theorem field_putField_of_ne {key : String} {other : Text} (h : other ≠ txt key)
    (v : Option Json) (m : List (Text × Json)) :
    Json.field other (putField key v m) = Json.field other m := by
  cases v with
  | none => rfl
  | some v => exact Json.field_insert_of_ne h v m

end Profile

end Sonara.Engines
