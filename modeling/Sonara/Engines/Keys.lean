import Mathlib.Logic.Function.Basic
import Sonara.Engines.Profile

/-!
# The keys of the engines

`external/keys.rs`: the key store (each key with the origin it was entered for) and
the resolver, which is what every request asks. Any operation of the store may fail:
`faults` says how the next ones end, and a failed operation leaves the keys as they
are.
-/

namespace Sonara.Engines

open Sonara.Text
open Sonara.Log (len)

/-- The longest key the Credential Manager stores. -/
def MAX_KEY_BYTES : Nat := 2560

/-- A stored key and the origin it was entered for (`none`: stored before keys were
bound; never sent). -/
structure StoredKey where
  secret : Text
  origin : Option Text
  deriving DecidableEq, Repr

/-- Why a key store failed. -/
inductive KeyError where
  | unavailable
  | tooLong
  | originTooLong
  | os (message : Text)
  deriving DecidableEq, Repr

def KeyError.text : KeyError → Text
  | .unavailable => txt "Credential Manager is not available"
  | .tooLong => txt "key too long (at most 2560 bytes)"
  | .originTooLong => txt "address too long (at most 256 bytes)"
  | .os m => txt "Credential Manager: " ++ m

/-- Where keys are kept, by profile id. -/
structure Store where
  held : Text → Option StoredKey
  /-- How the next operations fail; none of them past the list. -/
  faults : List (Option KeyError)

namespace Store

/-- How this operation fails, and the store for the next one. -/
def tick (s : Store) : Option KeyError × Store :=
  (s.faults.head?.join, { s with faults := s.faults.tail })

def get (s : Store) (id : Text) : Except KeyError (Option StoredKey) × Store :=
  match s.tick with
  | (some e, s) => (.error e, s)
  | (none, s) => (.ok (s.held id), s)

/-- Store `secret` for `id`, bound to `origin`. -/
def set (s : Store) (id secret origin : Text) : Except KeyError Unit × Store :=
  match s.tick with
  | (some e, s) => (.error e, s)
  | (none, s) => (.ok (), { s with held := Function.update s.held id (some ⟨secret, some origin⟩) })

/-- Absent is fine. -/
def delete (s : Store) (id : Text) : Except KeyError Unit × Store :=
  match s.tick with
  | (some e, s) => (.error e, s)
  | (none, s) => (.ok (), { s with held := Function.update s.held id none })

end Store

/-- The environment of the process. -/
abbrev Env := Text → Option Text

/-- The key of a profile now (`KeyResolver::resolve`), or the text of its `no_key`
error. A key is only returned for the origin it is bound to. -/
def resolve (R : Rules) (env : Env) (store : Store) (p : Profile) :
    Except Text (Option Text) × Store :=
  let now := p.origin R
  let address := now.getD (txt "no address")
  match p.keyRef with
  | .none => (.ok none, store)
  | .env name =>
    match (env name).filter (trim · ≠ []) with
    | none => (.ok none, store)
    | some v =>
      if now.isSome && (now == p.defaultOrigin R || now == p.keyOrigin) then
        (.ok (some (trim v)), store)
      else
        (.error (txt "the key in " ++ name ++ txt " is not sent to " ++ address ++ txt
          ": an address set over the protocol must be confirmed in engines.json (\"key_origin\": \""
          ++ address ++ txt "\" in engine '" ++ p.id ++ txt "'), or use a stored key"), store)
  | .credMan =>
    match store.get p.id with
    | (.ok none, store) => (.ok none, store)
    | (.ok (some k), store) =>
      if k.secret = [] then (.ok none, store)
      else match k.origin with
        | some o =>
          if some o = now then (.ok (some k.secret), store)
          else
            (.error (txt "the key of '" ++ p.id ++ txt "' was entered for " ++ o ++ txt ", not "
              ++ address ++ txt ": enter the key again"), store)
        | none =>
          (.error (txt "the key of '" ++ p.id ++
            txt "' is not bound to an address: enter the key again"), store)
    | (.error .unavailable, store) => (.ok none, store)
    | (.error e, store) =>
      (.error (txt "cannot read the key of '" ++ p.id ++ txt "': " ++ e.text), store)

end Sonara.Engines
