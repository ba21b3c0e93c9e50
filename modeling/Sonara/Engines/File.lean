import Sonara.Engines.Keys

/-!
# `engines.json`

`engines/file.rs`, and `Engines::load` of `engines/mod.rs`: reading, migrating and
saving the file. A save rewrites the whole file from the entries in memory, which are
what an earlier read took in (`entriesFrom`), so it first reads the file again when its
text is not the one last seen (`takeInFileChanges`).
-/

namespace Sonara.Engines

open Sonara.Text

/-- The `engines.json` format. 2: keys are bound to origins. -/
def FORMAT : Nat := 2

/-- At most this many profiles. -/
def MAX_PROFILES : Nat := 16

/-- The field of an `env:` entry that confirms the origin its key may go to. -/
def KEY_ORIGIN : Text := txt "key_origin"

/-- The code of an error reply. -/
inductive Code where
  | badRequest
  | unsupported
  | engine
  | notFound
  | forbidden
  deriving DecidableEq, Repr

/-- An error reply. -/
structure Failure where
  code : Code
  message : Text
  deriving DecidableEq, Repr

def bad (m : Text) : Failure := ⟨.badRequest, m⟩

/-- The bytes of a file: text in UTF-8, or bytes that are not. -/
inductive Content where
  | text (t : Text)
  | bytes (b : List UInt8)
  deriving DecidableEq, Repr

/-- The files of the home (`none`: missing). -/
structure Home where
  /-- `engines.json`. -/
  file : Option Content
  /-- `engines.json.bad`, the copy of a file that was not JSON at load. -/
  aside : Option Content
  deriving DecidableEq, Repr

/-- What became of a stored profile. -/
inductive State where
  | ready (p : Profile)
  /-- A kind this build lacks. -/
  | unsupported
  /-- It fails validation. -/
  | invalid (message : Text)
  deriving DecidableEq, Repr

structure Entry where
  id : Text
  /-- As stored (an unsupported or invalid entry is kept as it was). -/
  raw : Json
  state : State
  deriving DecidableEq, Repr

/-- The engines of a runtime, its home and its key store. -/
structure Runtime where
  home : Home
  keys : Store
  entries : List Entry
  /-- The file's text when it was last read or saved. -/
  seen : Option Text

/-- The text of `engines.json`. -/
def readText (c : Option Content) : Option Text :=
  match c with
  | some (.text t) => some t
  | _ => none

/-- The `engines` array of a file. -/
def enginesOf (v : Json) : List Json := ((v.get (txt "engines")).bind Json.asArray).getD []

variable (R : Rules)

/-- The `engines` array of `engines.json` and whether the file is of an older format, or
why the file cannot be read. -/
def parseFile (text : Option Text) : Except Text (List Json × Bool) :=
  match text with
  | none => .ok ([], false)
  | some text => match R.parse text with
    | .ok v =>
      .ok (enginesOf v, decide (((v.get (txt "format")).bind Json.asU64).getD 1 < FORMAT))
    | .error e => .error (txt "engines.json is not valid JSON (" ++ e ++ txt ")")

/-- The id of an entry. -/
def idOf (raw : Json) : Option Text := (raw.get (txt "id")).bind Json.asStr

/-- One entry of a format 1 file, bound to its origin now. -/
def migrateEntry (raw : Json) (keys : Store) : Json × Store × List Text :=
  match idOf raw with
  | none => (raw, keys, [])
  | some id =>
    let origin := originOf R raw
    let env := ((raw.get (txt "key_ref")).bind Json.asStr).any (txt "env:").isPrefixOf
    let raw := match env, origin, raw with
      | true, some o, .object m =>
        if (Json.field KEY_ORIGIN m).isSome then raw
        else .object (Json.insert KEY_ORIGIN (.string o) m)
      | _, _, _ => raw
    match keys.get id with
    | (.ok (some k), keys) =>
      if k.origin.isNone then
        let (done, keys) := match origin with
          | some o =>
            let (done, keys) := keys.set id k.secret o
            (done.mapError KeyError.text, keys)
          | none => (.error (txt "the engine has no address"), keys)
        match done with
        | .ok () => (raw, keys, [])
        | .error e =>
          (raw, keys, [txt "engine '" ++ id ++ txt "': its key could not be bound to an address ("
            ++ e ++ txt "); enter it again"])
      else (raw, keys, [])
    | (_, keys) => (raw, keys, [])

/-- Bind what a format 1 file left unbound to the entry's origin now. -/
def migrate : List Json → Store → List Json × Store × List Text
  | [], keys => ([], keys, [])
  | raw :: raws, keys =>
    let (raw, keys, problems) := migrateEntry R raw keys
    let (raws, keys, more) := migrate raws keys
    (raw :: raws, keys, problems ++ more)

/-- The engine of a stored profile (`Engines::build`). -/
def build (raw : Json) : Except ProfileError Profile := do
  let p ← Profile.fromJson R raw
  let p := match p.keyRef with
    | .env _ => { p with keyOrigin := (raw.get KEY_ORIGIN).bind Json.asStr }
    | _ => p
  match R.validate p with
  | some e => .error e
  | none => .ok p

/-- What became of a stored profile, and the problem to log. -/
def stateOf (id : Text) (raw : Json) : State × List Text :=
  match build R raw with
  | .ok p => (.ready p, [])
  | .error (.unsupported _ kind) =>
    (.unsupported, [txt "engines.json: engine '" ++ id ++ txt "' of kind '" ++ kind ++
      txt "' is not supported by this version; kept, not used"])
  | .error (.invalid m) =>
    (.invalid m, [txt "engines.json: engine '" ++ id ++ txt "' is not used: " ++ m])

/-- The loop of `entries_from` over the entries of the file: `old` are the entries of
before that are not kept yet, `entries` those taken in so far. -/
def takeIn : List Json → List Entry → List Entry → List Text → List Entry × List Text
  | [], _, entries, problems => (entries, problems)
  | raw :: raws, old, entries, problems =>
    let id := (idOf raw).getD []
    if id = [] || entries.any (·.id == id) then
      takeIn raws old entries
        (problems ++ [txt "engines.json: an entry without a unique id was skipped"])
    else match old.find? fun e => e.id == id && e.raw == raw with
      | some kept =>
        let said := match kept.state with
          | .invalid m => [txt "engines.json: engine '" ++ id ++ txt "' is not used: " ++ m]
          | _ => []
        takeIn raws (old.erase kept) (entries ++ [kept]) (problems ++ said)
      | none =>
        let (state, said) := stateOf R id raw
        takeIn raws old (entries ++ [⟨id, raw, state⟩]) (problems ++ said)

/-- The entries of the file's profiles. An entry of `old` whose stored profile is the
same is kept as it is. -/
def entriesFrom (raws : List Json) (old : List Entry) : List Entry × List Text :=
  takeIn R (raws.take MAX_PROFILES) old [] []

/-- What a save writes. -/
def document (raws : List Json) : Json :=
  .object [(txt "engines", .array raws), (txt "format", .number (.integer FORMAT))]

/-- Rewrite the file from `entries`; `fails` is the error of the file operation. -/
def save (entries : List Entry) (fails : Option Text) (rt : Runtime) :
    Except Failure Unit × Runtime :=
  match fails with
  | some e => (.error ⟨.engine, txt "cannot save engines.json: " ++ e⟩, rt)
  | none =>
    let file := some (Content.text (R.print (document (entries.map (·.raw)))))
    (.ok (), { rt with home := { rt.home with file }, seen := readText file })

/-- Delete the stored key of `raw`'s id when it is bound to another origin than the
entry's (or to none). -/
def dropKeyBoundElsewhere (raw : Json) (keys : Store) : Store :=
  match idOf raw with
  | none => keys
  | some id => match keys.get id with
    | (.ok (some k), keys) =>
      if k.origin ≠ originOf R raw then (keys.delete id).2 else keys
    | (_, keys) => keys

/-- `engine_reload`: read `engines.json` again. -/
def reload (rt : Runtime) : Except Failure (List Text) × Runtime :=
  let text := readText rt.home.file
  match parseFile R text with
  | .error why => (.error (bad (why ++ txt "; nothing changed")), rt)
  | .ok (raws, _) =>
    let keys := raws.foldl (fun keys raw => dropKeyBoundElsewhere R raw keys) rt.keys
    let (entries, problems) := entriesFrom R raws rt.entries
    (.ok problems, { rt with keys, entries, seen := text })

/-- Before a save: take in what was written to the file since it was last read or
saved. -/
def takeInFileChanges (rt : Runtime) : Except Failure Unit × Runtime :=
  if rt.seen ≠ readText rt.home.file then
    match reload R rt with
    | (.ok _, rt) => (.ok (), rt)
    | (.error e, rt) => (.error e, rt)
  else (.ok (), rt)

/-- Read `engines.json` and build the engines; `copied` when the copy of a file that is
no JSON succeeds. -/
def load (home : Home) (keys : Store) (copied : Bool) (fails : Option Text) :
    List Text × Runtime :=
  let text := readText home.file
  match parseFile R text with
  | .error why =>
    let aside := if copied then home.file else home.aside
    ([why ++ txt "; copied to engines.json.bad, no external engines until the next change"],
      { home := { home with aside }, keys, entries := [], seen := text })
  | .ok (raws, legacy) =>
    let (raws, keys, problems) := if legacy then migrate R raws keys else (raws, keys, [])
    let (entries, more) := entriesFrom R raws []
    let rt : Runtime := { home, keys, entries, seen := text }
    if legacy then
      match save R entries fails rt with
      | (.ok (), rt) => (problems ++ more, rt)
      | (.error e, rt) => (problems ++ more ++ [e.message], rt)
    else (problems ++ more, rt)

end Sonara.Engines
