import Sonara.Json
import Sonara.Log.Secrets

/-!
# The scrubbing of a JSON value

`sonara-log`'s `json.rs`, and `clip` of its `lib.rs`. Two values are `Alike` when they
have the same shape and differ only in values that stand, not null, under the keys of
secrets. `scrub` makes such values equal: where they differ it writes the mask over
both, and everywhere else it does the same thing to the same thing.
-/

namespace Sonara.Log

open Sonara.Text

/-- A JSON string longer than this (bytes) is clipped in the log. -/
def FIELD_MAX : Nat := 4096

/-- The longest prefix of `s` that takes at most `max` bytes. -/
def upTo : Nat → Text → Text
  | _, [] => []
  | max, c :: cs => if c.utf8Size ≤ max then c :: upTo (max - c.utf8Size) cs else []

/-- `s` cut to at most `max` bytes (on a character boundary) with a marker naming what
was cut, or `s` as it is. -/
def clip (s : Text) (max : Nat) : Text :=
  if len s ≤ max then s
  else
    let kept := upTo max s
    kept ++ "...[+".toList ++ number (len s - len kept) ++ " bytes]".toList

/-- A string made fit for the log. -/
def scrubText (s : Text) : Text :=
  let s := mask s
  if FIELD_MAX < len s then clip s FIELD_MAX else s

mutual

/-- `v` made fit for the log, anywhere in it. -/
def scrub : Json → Json
  | .string s => .string (scrubText s)
  | .array items => .array (scrubItems items)
  | .object fields => .object (scrubFields fields)
  | v => v

def scrubItems : List Json → List Json
  | [] => []
  | v :: vs => scrub v :: scrubItems vs

def scrubFields : List (Text × Json) → List (Text × Json)
  | [] => []
  | (key, v) :: fields =>
    (key, if secretKey key && !v.isNull then .string MASK else scrub v) :: scrubFields fields

end

mutual

/-- The same shape, and different only in non-null values under the keys of secrets. -/
inductive Alike : Json → Json → Prop
  | same (v : Json) : Alike v v
  | array {items items' : List Json} : AlikeItems items items' →
      Alike (.array items) (.array items')
  | object {fields fields' : List (Text × Json)} : AlikeFields fields fields' →
      Alike (.object fields) (.object fields')

/-- Items alike one by one. -/
inductive AlikeItems : List Json → List Json → Prop
  | nil : AlikeItems [] []
  | cons {v v' : Json} {items items' : List Json} : Alike v v' → AlikeItems items items' →
      AlikeItems (v :: items) (v' :: items')

/-- Fields with the same keys, alike one by one or secret in both. -/
inductive AlikeFields : List (Text × Json) → List (Text × Json) → Prop
  | nil : AlikeFields [] []
  | field (key : Text) {v v' : Json} {fields fields' : List (Text × Json)} : Alike v v' →
      AlikeFields fields fields' → AlikeFields ((key, v) :: fields) ((key, v') :: fields')
  | secret {key : Text} {v v' : Json} {fields fields' : List (Text × Json)} :
      secretKey key = true → v.isNull = false → v'.isNull = false →
      AlikeFields fields fields' → AlikeFields ((key, v) :: fields) ((key, v') :: fields')

end

/-- Values alike are null together. -/
theorem Alike.isNull {v v' : Json} (h : Alike v v') : v.isNull = v'.isNull := by
  cases h <;> rfl

mutual

theorem scrub_alike {v v' : Json} : Alike v v' → scrub v = scrub v'
  | .same _ => rfl
  | .array h => by rw [scrub, scrub, scrubItems_alike h]
  | .object h => by rw [scrub, scrub, scrubFields_alike h]

theorem scrubItems_alike {items items' : List Json} :
    AlikeItems items items' → scrubItems items = scrubItems items'
  | .nil => rfl
  | .cons hv hs => by rw [scrubItems, scrubItems, scrub_alike hv, scrubItems_alike hs]

theorem scrubFields_alike {fields fields' : List (Text × Json)} :
    AlikeFields fields fields' → scrubFields fields = scrubFields fields'
  | .nil => rfl
  | .field _ hv hs => by
    rw [scrubFields, scrubFields, scrub_alike hv, scrubFields_alike hs, hv.isNull]
  | .secret hk hv hv' hs => by
    rw [scrubFields, scrubFields, scrubFields_alike hs, hk, hv, hv']
    rfl

end

end Sonara.Log
