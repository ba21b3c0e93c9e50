import Sonara.Engines.File

/-!
# Adding, removing and keying profiles

`engines/registry.rs`. `add` is the request's own checks (`requested`), the reading of
a changed file, the checks under the lock that saves (`admitted`), the key
(`bindKey`), and the save. Where a save fails the entries in memory are ahead of the
file, as in the source.
-/

namespace Sonara.Engines

open Sonara.Text
open Sonara.Log (len)

/-- The refusal of `engine_add` for a `command` profile. -/
def COMMAND_FORBIDDEN : Text :=
  txt "a command engine runs a program on this PC, so it is never added or changed over the " ++
    txt "protocol: add it with `sonara engines add <id> --kind command`, or in engines.json"

/-- The id an unsaved profile is built under. -/
def DRAFT_ID : Text := txt "draft"

def forbidden : Failure := ⟨.forbidden, COMMAND_FORBIDDEN⟩

/-- An early return with `f`. -/
def refuse (when : Bool) (f : Failure) : Except Failure Unit := if when then .error f else .ok ()

def isCommand (raw : Json) : Bool :=
  (raw.get (txt "kind")).bind Json.asStr == some Kind.command.asStr

/-- A profile that fails `Profile::from_json` as a reply. -/
def profileFailure : ProfileError → Failure
  | .invalid m => bad m
  | .unsupported _ kind =>
    ⟨.unsupported, txt "kind '" ++ kind ++ txt "' is not supported by this version"⟩

/-- `ProfileError`'s own text. -/
def ProfileError.text : ProfileError → Text
  | .unsupported _ kind => txt "kind '" ++ kind ++ txt "' is not supported by this version"
  | .invalid m => m

def checkSecret (secret : Text) : Except Failure Unit :=
  if trim secret = [] then .error (bad (txt "'secret' is empty"))
  else if MAX_KEY_BYTES < len secret then .error (bad (txt "key too long"))
  else .ok ()

/-- The object of a request with the key source a secret needs. -/
def withSecret (m : List (Text × Json)) (secret : Option Text) :
    Except Failure (List (Text × Json)) :=
  match secret with
  | none => .ok m
  | some s => do
    checkSecret s
    match Json.field (txt "key_ref") m with
    | none => pure (Json.insert (txt "key_ref") (.string (txt "credman")) m)
    | some .null => pure (Json.insert (txt "key_ref") (.string (txt "credman")) m)
    | some (.string k) =>
      if k = txt "credman" then pure m
      else if (txt "env:").isPrefixOf k then
        throw (bad (txt "this engine reads its key from the environment variable " ++ k.drop 4 ++
          txt "; do not send a secret"))
      else throw (bad (txt "this engine has key_ref none: it takes no key"))
    | some _ => throw (bad (txt "this engine has key_ref none: it takes no key"))

variable (R : Rules)

/-- The checks of `engine_add` before the file is looked at. -/
def requested (engine : Json) (secret : Option Text) (entries : List Entry) :
    Except Failure Profile := do
  let m ← engine.asObject.elim
    (.error (bad (txt "'engine' must be an object with the profile"))) .ok
  refuse (isCommand engine) forbidden
  -- A stored program is never replaced by a request either.
  refuse ((idOf engine).any fun id => entries.any fun e => e.id == id && isCommand e.raw)
    forbidden
  let m ← withSecret m secret
  let p ← ((Profile.fromJson R (.object m)).bind fun p => match R.checkNew p with
    | some e => .error e
    | none => .ok p).mapError profileFailure
  refuse (p.kind == .command) forbidden
  pure p

/-- The entry with the id of a request. -/
def entryOf (id : Text) (entries : List Entry) : Option Entry := entries.find? (·.id == id)

/-- The checks of `engine_add` under the lock that saves. -/
def admitted (id : Text) (replace : Bool) (entries : List Entry) : Except Failure Unit :=
  match entryOf id entries with
  | some e =>
    if isCommand e.raw then .error forbidden
    else if !replace then
      .error (bad (txt "engine '" ++ id ++ txt "' exists; send replace: true"))
    else .ok ()
  | none =>
    if MAX_PROFILES ≤ entries.length then .error (bad (txt "at most 16 engines")) else .ok ()

/-- What is stored of an added profile. An env key's confirmed origin survives a replace
only when the variable and the origin stay the same. -/
def stored (p : Profile) (old : Option Json) : Json :=
  let m := p.toJson
  match p.keyRef with
  | .env _ =>
    let confirmed := (((old.filter fun r => r.get (txt "key_ref") == m.get (txt "key_ref")).bind
      (Json.get KEY_ORIGIN)).bind Json.asStr).filter fun o => some o == p.origin R
    match confirmed, m with
    | some c, .object m => .object (Json.insert KEY_ORIGIN (.string c) m)
    | _, _ => m
  | _ => m

/-- The key of an added profile: the secret of the request, or the stored key deleted
when it was entered for another origin (or none). -/
def bindKey (p : Profile) (secret : Option Text) (keys : Store) : Except Failure Unit × Store :=
  match secret with
  | some s => match p.origin R with
    | none => (.error (bad (txt "this engine has no address to bind a key to")), keys)
    | some o => match keys.set p.id s o with
      | (.ok (), keys) => (.ok (), keys)
      | (.error e, keys) => (.error ⟨.engine, txt "cannot store the key: " ++ e.text⟩, keys)
  | none => match keys.get p.id with
    | (.ok (some k), keys) =>
      if k.origin ≠ p.origin R then (.ok (), (keys.delete p.id).2) else (.ok (), keys)
    | (_, keys) => (.ok (), keys)

/-- The entries with the profile added or replaced. -/
def put (e : Entry) (entries : List Entry) : List Entry :=
  if entries.any (·.id == e.id) then entries.map fun x => if x.id = e.id then e else x
  else entries ++ [e]

/-- `engine_add` under the lock that saves. -/
def addLocked (p : Profile) (secret : Option Text) (replace : Bool) (fails : Option Text)
    (rt : Runtime) : Except Failure Bool × Runtime :=
  match admitted p.id replace rt.entries with
  | .error e => (.error e, rt)
  | .ok () =>
    let old := entryOf p.id rt.entries
    let raw := stored R p (old.map (·.raw))
    match bindKey R p secret rt.keys with
    | (.error e, keys) => (.error e, { rt with keys })
    | (.ok (), keys) => match build R raw with
      | .error e => (.error (bad e.text), { rt with keys })
      | .ok built =>
        let next := put ⟨p.id, raw, .ready built⟩ rt.entries
        match save R next fails { rt with keys } with
        | (.ok (), rt) => (.ok old.isSome, { rt with entries := next })
        | (.error e, rt) => (.error e, { rt with entries := next })

/-- `engine_add`: whether it replaced an existing profile. -/
def add (engine : Json) (secret : Option Text) (replace : Bool) (fails : Option Text)
    (rt : Runtime) : Except Failure Bool × Runtime :=
  match requested R engine secret rt.entries with
  | .error e => (.error e, rt)
  | .ok p => match takeInFileChanges R rt with
    | (.error e, rt) => (.error e, rt)
    | (.ok (), rt) => addLocked R p secret replace fails rt

/-- `engine_remove`. -/
def remove (id : Text) (forgetKey : Bool) (fails : Option Text) (rt : Runtime) :
    Except Failure Unit × Runtime :=
  match takeInFileChanges R rt with
  | (.error e, rt) => (.error e, rt)
  | (.ok (), rt) => match entryOf id rt.entries with
    | none => (.error ⟨.notFound, txt "no engine '" ++ id ++ txt "'"⟩, rt)
    | some e =>
      let next := rt.entries.erase e
      let (saved, rt) := save R next fails rt
      let keys := if forgetKey then (rt.keys.delete id).2 else rt.keys
      (saved, { rt with entries := next, keys })

/-- The key source, and the address a key of the entry is bound to. -/
def keyPlace (e : Entry) : KeyRef × Option Text :=
  match e.state with
  | .ready p => (p.keyRef, p.origin R)
  | _ =>
    let keyRef := match KeyRef.parse (e.raw.get (txt "key_ref")) with
      | .ok (some k) => k
      | _ => .credMan
    (keyRef, originOf R e.raw)

/-- Whether a key of the entry resolves after its key changed. -/
def keyPresent (env : Env) (e : Entry) (secret : Option Text) (keys : Store) : Bool × Store :=
  match e.state with
  | .ready p => match resolve R env keys p with
    | (.ok (some _), keys) => (true, keys)
    | (_, keys) => (false, keys)
  | _ => (secret.isSome, keys)

/-- `engine_key`: store (or with `none` delete) a profile's key. Whether a key resolves
now. -/
def setKey (env : Env) (id : Text) (secret : Option Text) (rt : Runtime) :
    Except Failure Bool × Runtime :=
  match entryOf id rt.entries with
  | none => (.error ⟨.notFound, txt "no engine '" ++ id ++ txt "'"⟩, rt)
  | some e => match (keyPlace R e).1 with
    | .env name =>
      (.error (bad (txt "engine '" ++ id ++ txt "' reads its key from the environment variable "
        ++ name)), rt)
    | .none => (.error (bad (txt "engine '" ++ id ++ txt "' takes no key (key_ref none)")), rt)
    | .credMan =>
      let done : Except Failure (Except KeyError Unit × Store) := match secret with
        | none => .ok (rt.keys.delete id)
        | some s => match checkSecret s with
          | .error f => .error f
          | .ok () => match (keyPlace R e).2 with
            | none => .error (bad (txt "engine '" ++ id ++ txt "' has no address to bind a key to"))
            | some o => .ok (rt.keys.set id s o)
      match done with
      | .error f => (.error f, rt)
      | .ok (.error e, keys) =>
        (.error ⟨.engine, txt "cannot store the key: " ++ e.text⟩, { rt with keys })
      | .ok (.ok (), keys) =>
        let (present, keys) := keyPresent R env e secret keys
        (.ok present, { rt with keys })

/-- The object of a draft with the key source its secret needs. -/
def draftSecret (m : List (Text × Json)) (secret : Option Text) :
    Except Failure (List (Text × Json)) :=
  match secret with
  | none => .ok m
  | some s => do
    checkSecret s
    match Json.field (txt "key_ref") m with
    | none => pure (Json.insert (txt "key_ref") (.string (txt "credman")) m)
    | some .null => pure (Json.insert (txt "key_ref") (.string (txt "credman")) m)
    | some (.string k) =>
      if k = txt "credman" then pure m
      else throw (bad (txt "send a secret only with key_ref credman"))
    | some _ => throw (bad (txt "send a secret only with key_ref credman"))

/-- The key store of a draft: its secret, and no other key. -/
def draftStore (p : Profile) (secret : Option Text) (faults : List (Option KeyError)) :
    Except Failure Store :=
  let store : Store := ⟨fun _ => none, faults⟩
  match secret with
  | none => .ok store
  | some s => match p.origin R with
    | none =>
      .error (bad (txt "this engine has no address yet (a region or url) to send the key to"))
    | some o => match store.set DRAFT_ID s o with
      | (.ok (), store) => .ok store
      | (.error e, _) => .error (bad (txt "cannot use the key: " ++ e.text))

/-- The engine of a profile that is not saved, and the key store it is built with. -/
def draft (profile : Json) (secret : Option Text) (faults : List (Option KeyError)) :
    Except Failure (Profile × Store) := do
  let m ← profile.asObject.elim
    (.error (bad (txt "'profile' must be an object with the profile"))) .ok
  refuse (isCommand profile) forbidden
  let m := Json.remove KEY_ORIGIN (Json.insert (txt "id") (.string DRAFT_ID) m)
  let m ← draftSecret m secret
  let p ← (Profile.fromJson R (.object m)).mapError profileFailure
  refuse (p.kind == .command) forbidden
  let store ← draftStore R p secret faults
  match R.validate p with
  | some e => .error (profileFailure e)
  | none => .ok (p, store)

end Sonara.Engines
