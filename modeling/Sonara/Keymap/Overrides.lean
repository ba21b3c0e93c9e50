import Sonara.Json
import Sonara.Keymap.Chords

/-!
# `keymap.json` (`keymap.rs`): the user's overrides

The file holds only the user's overrides; a binding with no key is an explicit unbind.
`bind` validates before anything is written.

What a file holds is any type: `Format` reads JSON from it and writes JSON to it
(`state_file`); a file that is missing, unreadable or no JSON gives none.
-/

namespace Sonara.Keymap

open Sonara.Text

/-- The files of `state_file`: `serde_json` over what a file holds. -/
structure Format (α : Type) where
  parse : α → Option Json
  print : Json → α

/-- The user's overrides. -/
abbrev Overrides := List (Action × Binding)

/-- The strings of an array. -/
def stringsOf : List Json → Option (List Text)
  | [] => some []
  | v :: vs => do
    let s ← v.asStr
    let rest ← stringsOf vs
    some (s :: rest)

namespace Binding

/-- `key` of a binding: a string or null. -/
def keyOf : Json → Option (Option Text)
  | .null => some none
  | .string s => some (some s)
  | _ => none

/-- `mods` of a binding. -/
def modsOf : Json → Option (List Text)
  | .array vs => stringsOf vs
  | _ => none

/-- `from_value`: a missing field is the default, an unknown one is ignored. A sequence gives
the fields in their order. -/
def ofJson : Json → Option Binding
  | .object fields => do
    let key ← (Json.field (txt "key") fields).elim (some none) keyOf
    let mods ← (Json.field (txt "mods") fields).elim (some []) modsOf
    some { key := key, mods := mods }
  | .array [] => some {}
  | .array [key] => do
    let key ← keyOf key
    some { key := key }
  | .array [key, mods] => do
    let key ← keyOf key
    let mods ← modsOf mods
    some { key := key, mods := mods }
  | _ => none

/-- What is written for a binding. -/
def toJson (b : Binding) : Json :=
  .object [(txt "key", b.key.elim .null .string), (txt "mods", .array (b.mods.map .string))]

end Binding

/-- Put the binding of `action` into the list, over the one that is there if `wins`. -/
def Overrides.put (wins : Bool) (action : Action) (b : Binding) : Overrides → Overrides
  | [] => [(action, b)]
  | x :: list =>
    if x.1 = action then (if wins then (action, b) :: list else x :: list)
      else x :: put wins action b list

/-- The body of the loop of `read_overrides`. The current name wins over a legacy alias for the
same action. -/
def takeOverride (out : Overrides) (field : Text × Json) : Overrides :=
  match Action.parse field.1, Binding.ofJson field.2 with
  | some action, some b => out.put (action.asStr = field.1) action b
  | _, _ => out

variable {α : Type} (F : Format α)

/-- The user's overrides, keyed by the current action names; unknown actions and entries that
are no binding are dropped. -/
def readOverrides (file : Option α) : Overrides :=
  match file.bind F.parse with
  | some (.object raw) => raw.foldl takeOverride []
  | _ => []

/-- The map that is written. -/
def document (list : Overrides) : Json :=
  .object (list.foldl (fun map x => Json.insert x.1.asStr x.2.toJson map) [])

/-- Write the overrides; `fails` is the error of the file operation. -/
def writeOverrides (path : Text) (fails : Option Text) (file : Option α) (list : Overrides) :
    Except Text Unit × Option α :=
  match fails with
  | some e => (.error (txt "cannot write " ++ path ++ txt ": " ++ e), file)
  | none => (.ok (), some (F.print (document list)))

/-- The defaults with these overrides on top. -/
def overlay (list : Overrides) : Map := list.foldl (fun km x => km.set x.1 x.2) defaults

/-- The defaults with the user's overrides on top. -/
def load (file : Option α) : Map := overlay (readOverrides F file)

/-- The modifiers that a new binding holds, and their names, each once. -/
def holdMods : List Text → Nat × List Text → Except Text (Nat × List Text)
  | [], held => .ok held
  | m :: mods, (held, clean) =>
    match modMask m with
    | none => .error (txt "unsupported modifier '" ++ m ++ txt "'")
    | some mask =>
      let name := lower m
      holdMods mods (held ||| mask, if clean.contains name then clean else clean ++ [name])

/-- What `bind` checks: the binding it will write. -/
def checkBinding (km : Map) (action : Action) (key : Text) (mods : List Text) :
    Except Text Binding := do
  let key := lower (trim key)
  if key = [] then .error (txt "empty key")
  else match keyCode key with
    | none => .error (txt "unsupported key '" ++ key ++ txt "'")
    | some vk =>
      let held ← holdMods mods (0, [])
      if held.1 &&& (MOD_CTRL ||| MOD_ALT ||| MOD_WIN) = 0 then
        .error (txt
          "a hotkey needs Ctrl, Alt or Win: without one it would take that key away from every app")
      else
        -- Two actions on one chord: the second would never fire.
        match (resolve km).1.find? fun r => r.action ≠ action ∧ r.vk = vk ∧ r.mods = held.1 with
        | some other =>
          .error (comboLabel held.1 vk ++ txt " is already bound to " ++ other.action.asStr ++
            txt ": unbind it there first")
        | none => .ok { key := some key, mods := held.2 }

/-- Bind `action` to `key` and `mods`. -/
def bind (path : Text) (fails : Option Text) (file : Option α) (action : Action) (key : Text)
    (mods : List Text) :
    Except Text Unit × Option α :=
  match checkBinding (load F file) action key mods with
  | .error e => (.error e, file)
  | .ok b => writeOverrides F path fails file ((readOverrides F file).put true action b)

/-- No hotkey for `action`: an explicit unbound override when it has a default binding, else its
user binding is dropped. -/
def unbind (path : Text) (fails : Option Text) (file : Option α) (action : Action) :
    Except Text Unit × Option α :=
  let list := (readOverrides F file).filter (·.1 ≠ action)
  writeOverrides F path fails file
    (if (defaultBinding action).isBound then list ++ [(action, .unbound)] else list)

/-- Replace the user's overrides with the default bindings. -/
def reset (path : Text) (fails : Option Text) (file : Option α) : Except Text Unit × Option α :=
  writeOverrides F path fails file
    ((Action.all.map fun a => (a, defaults a)).filter (·.2.isBound))

end Sonara.Keymap
