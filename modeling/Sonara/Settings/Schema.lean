import Sonara.Json
import Sonara.Strings

/-!
# The persisted settings (`config.rs`): the schema

Every setting has a kind, which checks what comes from a client or from disk, and a default. What a
value is stored as is `validate`; why it is refused is told.
-/

namespace Sonara.Settings

open Json

/-! ## JSON values -/

def str (s : String) : Json := .string s.toList

def num (n : Nat) : Json := .number (.integer n)

/-- An object, its fields in the order of their keys. -/
def obj (fields : List (String × Json)) : Json := .object (fields.map fun f => (f.1.toList, f.2))

/-- `Map::extend`. -/
def extend (map fields : List (Text × Json)) : List (Text × Json) :=
  fields.foldl (fun m f => insert f.1 f.2 m) map

/-- A double as a whole number that is not negative; one beyond a `u64` is its largest value. -/
def wholeFloat (bits : UInt64) : Option Nat :=
  let bits := bits.toNat
  let exponent := bits / 2 ^ 52 % 2 ^ 11
  let fraction := bits % 2 ^ 52
  -- the value is `mantissa * 2 ^ (shift - 1075)`
  let mantissa := if exponent = 0 then fraction else fraction + 2 ^ 52
  let shift := if exponent = 0 then 1 else exponent
  if exponent = 2047 then none
  else if mantissa = 0 then some 0
  else if bits / 2 ^ 63 = 1 then none
  else if 1075 ≤ shift then some (min (mantissa * 2 ^ (shift - 1075)) (2 ^ 64 - 1))
  else if mantissa % 2 ^ (1075 - shift) = 0 then some (mantissa / 2 ^ (1075 - shift))
  else none

/-- A whole number, also from a float with no fraction (a hand-edited file). -/
def whole (v : Json) : Option Nat :=
  match v.asU64, v with
  | some n, _ => some n
  | none, .number (.float bits) => wholeFloat bits
  | none, _ => none

/-- `Value::as_bool`. -/
def asBool : Json → Option Bool
  | .bool b => some b
  | _ => none

def nonBlank (v : Json) : Option Text := (v.asStr.map Text.trim).filter (· ≠ [])

/-! ## The settings -/

inductive Kind where
  | range (lo hi : Nat)
  | oneOf (options : List String)
  | text
  | textOrNull
  | summaries
  | bool
  | pronunciations
  | voicePick
  deriving DecidableEq, Repr

structure Setting where
  key : String
  kind : Kind
  default : Json

def AUDIO_MODES : List String := ["off", "duck", "pause"]
def VERBOSITY : List String := ["everything", "read_code", "skip_code"]
def STYLES : List String := ["tidy", "natural", "brief"]
def COMMANDS : List String := ["claude", "codex"]
def BACKGROUND : List String := ["all", "earcon_only"]
def READ_MODES : List String := ["immediate", "queue", "done", "final"]
def FLUSH_SCOPES : List String := ["session", "all"]
def ON_OFF : List String := ["on", "off"]
/-- `PathDetail::NAMES`. -/
def PATH_DETAILS : List String := ["short", "last_two", "last_three", "full"]
def PRONUNCIATIONS_MAX : Nat := 200

/-- Old names of a value, stored as the new one. -/
def ALIASES : List (String × String × String) :=
  [("verbosity", "all", "everything"), ("verbosity", "medium", "skip_code"),
    ("verbosity", "quiet", "skip_code")]

def canonical (key v : Text) : Text :=
  match ALIASES.find? fun a => a.1.toList == key && a.2.1.toList == v with
  | some a => a.2.2.toList
  | none => v

def SCHEMA : List Setting :=
  [{ key := "engine", kind := .text, default := str "onecore" },
    { key := "voice", kind := .textOrNull, default := str "af_sarah" },
    { key := "rate", kind := .range 100 400, default := num 250 },
    { key := "volume", kind := .range 0 100, default := num 100 },
    { key := "code_speed", kind := .range 50 100, default := num 80 },
    { key := "code_pause", kind := .range 0 2000, default := num 500 },
    { key := "code_step", kind := .oneOf ON_OFF, default := str "off" },
    { key := "channel_announce", kind := .oneOf ON_OFF, default := str "on" },
    { key := "announce_voice", kind := .voicePick, default := .null },
    { key := "mute_level", kind := .range 0 2, default := num 0 },
    { key := "verbosity", kind := .oneOf VERBOSITY, default := str "skip_code" },
    { key := "read_mode", kind := .oneOf READ_MODES, default := str "done" },
    { key := "flush_scope", kind := .oneOf FLUSH_SCOPES, default := str "session" },
    { key := "question_step", kind := .oneOf ON_OFF, default := str "off" },
    { key := "minqueue", kind := .range 0 10, default := num 5 },
    { key := "background_policy", kind := .oneOf BACKGROUND, default := str "all" },
    { key := "summaries", kind := .summaries
      default := obj [("command", str "claude"), ("enabled", .bool false), ("model", str "haiku"),
        ("prompts", obj []),
        ("settle_ms", num 600), ("style", str "natural"), ("timeout", num 60)] },
    { key := "audio_mode", kind := .oneOf AUDIO_MODES, default := str "pause" },
    { key := "duck_level", kind := .range 0 100, default := num 30 },
    { key := "debug_log", kind := .bool, default := .bool true },
    { key := "paths", kind := .oneOf PATH_DETAILS, default := str "short" },
    { key := "pronunciations", kind := .pronunciations, default := .array [] }]

def setting (key : Text) : Option Setting := SCHEMA.find? fun s => s.key.toList == key

def default (key : Text) : Option Json := (setting key).map (·.default)

/-! ## Checking -/

/-- `Option::ok_or`. -/
def okOr {α : Type} (why : String) : Option α → Except String α
  | some a => .ok a
  | none => .error why

/-- A string of a list. -/
def oneOf (options : List String) (v : Json) : Option Text :=
  v.asStr.filter fun s => options.any (·.toList == s)

/-- The entries of `pronunciations`: a word given twice keeps its last one, in the place of its
first. -/
def pronunciationsFrom : List Json → List (Text × Text) → Except String (List (Text × Text))
  | [], out => .ok out
  | e :: rest, out => do
    let why := "'pronunciations' is a list of \x7bword, say\x7d, both non-empty text"
    let word ← okOr why ((get "word".toList e).bind nonBlank)
    let say ← okOr why ((get "say".toList e).bind nonBlank)
    if word.length > 60 ∨ say.length > 200 then
      throw "a pronunciation's word is at most 60 characters, what to say at most 200"
    else if out.any (·.1 == word) then
      pronunciationsFrom rest (out.map fun p => if p.1 = word then (word, say) else p)
    else pronunciationsFrom rest (out ++ [(word, say)])

def validatePronunciations (v : Json) : Except String Json := do
  let list ← okOr "'pronunciations' is a list of \x7bword, say\x7d, both non-empty text" v.asArray
  if list.length > PRONUNCIATIONS_MAX then
    throw ("'pronunciations' holds at most " ++ toString PRONUNCIATIONS_MAX ++ " words")
  else do
    let out ← pronunciationsFrom list []
    pure (.array (out.map fun p => .object
      [("say".toList, .string p.2), ("word".toList, .string p.1)]))

/-- The custom prompts: a style with an instruction that is not blank. -/
def promptsFrom : List (Text × Json) → List (Text × Json) → Except String (List (Text × Json))
  | [], out => .ok out
  | (style, text) :: rest, out =>
    if STYLES.any (·.toList == style) then
      match nonBlank text with
      | some t => promptsFrom rest (insert style (.string t) out)
      | none => promptsFrom rest out
    else throw ("'summaries.prompts' has an unknown style '" ++ String.ofList style ++ "'")

def validatePrompts (v : Json) : Except String (List (Text × Json)) := do
  let o ← okOr "'summaries.prompts' is an object of style: instruction" v.asObject
  promptsFrom o []

/-- One field of `summaries` as it is stored; `none` for a field that is dropped. -/
def summariesField (field : Text) (v : Json) : Except String (Option Json) :=
  if field = "enabled".toList then
    some <$> okOr "'summaries.enabled' is true or false" ((asBool v).map Json.bool)
  else if field = "command".toList then
    some <$> okOr "'summaries.command' is \"claude\" or \"codex\""
      ((oneOf COMMANDS v).map Json.string)
  else if field = "model".toList then
    some <$> okOr "'summaries.model' is a non-empty string" ((nonBlank v).map Json.string)
  else if field = "timeout".toList then
    some <$> okOr "'summaries.timeout' is 15 to 300 seconds"
      (((whole v).filter fun n => 15 ≤ n ∧ n ≤ 300).map num)
  else if field = "settle_ms".toList then
    some <$> okOr "'summaries.settle_ms' is 0 to 5000 milliseconds"
      (((whole v).filter (· ≤ 5000)).map num)
  else if field = "style".toList then
    some <$> okOr "'summaries.style' is \"tidy\", \"natural\" or \"brief\""
      ((oneOf STYLES v).map Json.string)
  else if field = "prompts".toList then do
    let prompts ← validatePrompts v
    pure (some (.object prompts))
  else pure none

def summariesFrom : List (Text × Json) → List (Text × Json) → Except String (List (Text × Json))
  | [], out => .ok out
  | (field, v) :: rest, out => do
    match ← summariesField field v with
    | some clean => summariesFrom rest (insert field clean out)
    | none => summariesFrom rest out

/-- The fields of `summaries` that are set. -/
def validateSummaries (v : Json) : Except String (List (Text × Json)) := do
  let o ← okOr "'summaries' is an object" v.asObject
  summariesFrom o []

def pick (o : List (Text × Json)) : Option Json :=
  match (field "engine".toList o).bind nonBlank, (field "voice".toList o).bind nonBlank with
  | some e, some v =>
    if o.length = 2 then some (.object [("engine".toList, .string e), ("voice".toList, .string v)])
      else none
  | _, _ => none

/-- What a value of this kind is stored as. -/
def Kind.check (key : Text) (v : Json) : Kind → Except String Json
  | .range lo hi =>
    okOr ("'" ++ String.ofList key ++ "' is an integer " ++ toString lo ++ " to " ++ toString hi)
      (((whole v).filter fun n => lo ≤ n ∧ n ≤ hi).map num)
  | .oneOf options =>
    okOr ("'" ++ String.ofList key ++ "' is one of " ++ ", ".intercalate options)
      (((v.asStr.map (canonical key)).filter fun s => options.any (·.toList == s)).map Json.string)
  | .text =>
    okOr ("'" ++ String.ofList key ++ "' is a non-empty string") ((nonBlank v).map Json.string)
  | .textOrNull =>
    if v.isNull then .ok .null
    else okOr ("'" ++ String.ofList key ++ "' is a non-empty string or null")
      ((nonBlank v).map Json.string)
  | .summaries => Json.object <$> validateSummaries v
  | .bool => okOr ("'" ++ String.ofList key ++ "' is true or false") ((asBool v).map Json.bool)
  | .pronunciations => validatePronunciations v
  | .voicePick =>
    if v.isNull then .ok .null
    else
      okOr ("'" ++ String.ofList key ++ "' is \x7bengine, voice\x7d (non-empty strings) or null")
        (v.asObject.bind pick)

/-- The value to store for `key`, or why it is refused. -/
def validate (key : Text) (v : Json) : Except String Json :=
  match setting key with
  | none => .error ("'" ++ String.ofList key ++ "' is not a persisted setting")
  | some s => s.kind.check key v

end Sonara.Settings
