import Mathlib.Algebra.Group.Int.Defs
import Mathlib.Data.List.Basic
import Sonara.CodeSpeech

/-!
# JSON values

`serde_json::Value`: what the log scrubs and the settings files hold. An object is
the list of its fields in the order of the map (its keys in byte order, the
`preserve_order` feature is off).
-/

namespace Sonara

/-- A JSON number (`serde_json::Number`): an integer, or the bits of a double. -/
inductive Number where
  | integer (n : Int)
  | float (bits : UInt64)
  deriving DecidableEq, Repr

/-- A JSON value. -/
inductive Json where
  | null
  | bool (b : Bool)
  | number (n : Number)
  | string (s : Text)
  | array (items : List Json)
  | object (fields : List (Text × Json))
  deriving Repr

namespace Json

/-- `Value::is_null`. -/
def isNull : Json → Bool
  | .null => true
  | _ => false

/-- `Value::as_str`. -/
def asStr : Json → Option Text
  | .string s => some s
  | _ => none

/-- `Value::as_u64`. -/
def asU64 : Json → Option Nat
  | .number (.integer n) => if 0 ≤ n ∧ n < 2 ^ 64 then some n.toNat else none
  | _ => none

/-- `Value::as_array`. -/
def asArray : Json → Option (List Json)
  | .array items => some items
  | _ => none

/-- `Value::as_object`. -/
def asObject : Json → Option (List (Text × Json))
  | .object fields => some fields
  | _ => none

/-- `Map::get`. -/
def field (key : Text) (fields : List (Text × Json)) : Option Json :=
  (fields.find? (·.1 == key)).map (·.2)

/-- `Value::get` with a key: the field of an object. -/
def get (key : Text) : Json → Option Json
  | .object fields => field key fields
  | _ => none

/-- `Map::insert`: the value of `key` replaced, or a new field at its place. -/
def insert (key : Text) (v : Json) : List (Text × Json) → List (Text × Json)
  | [] => [(key, v)]
  | f :: fs =>
    if f.1 = key then (key, v) :: fs
    else if key < f.1 then (key, v) :: f :: fs
    else f :: insert key v fs

/-- `Map::remove`. -/
def remove (key : Text) (fields : List (Text × Json)) : List (Text × Json) :=
  fields.filter (·.1 != key)

/-- An inserted key has its value. -/
theorem field_insert_self (key : Text) (v : Json) (fields : List (Text × Json)) :
    field key (insert key v fields) = some v := by
  induction fields with
  | nil => simp [insert, field]
  | cons f fs ih =>
    unfold insert
    split
    · simp [field]
    · rename_i hne
      split
      · simp [field]
      · have : (f.1 == key) = false := beq_false_of_ne hne
        unfold field at ih ⊢
        rw [List.find?_cons, this]
        exact ih

/-- An insert leaves the other keys' values. -/
theorem field_insert_of_ne {key other : Text} (h : other ≠ key) (v : Json)
    (fields : List (Text × Json)) : field other (insert key v fields) = field other fields := by
  have hk : (key == other) = false := beq_false_of_ne (Ne.symm h)
  induction fields with
  | nil => simp [insert, field, hk]
  | cons f fs ih =>
    unfold insert
    split
    · rename_i he
      have : (f.1 == other) = false := by rw [he]; exact hk
      simp [field, hk, this]
    · split
      · simp [field, hk]
      · unfold field at ih ⊢
        rw [List.find?_cons, List.find?_cons]
        cases hf : f.1 == other with
        | true => rfl
        | false => exact ih

/-- A removal leaves the other keys' values. -/
theorem field_remove_of_ne {key other : Text} (h : other ≠ key) (fields : List (Text × Json)) :
    field other (remove key fields) = field other fields := by
  unfold field remove
  induction fields with
  | nil => rfl
  | cons f fs ih =>
    rw [List.filter_cons]
    split
    · rw [List.find?_cons, List.find?_cons]
      split
      · rfl
      · exact ih
    · rename_i hf
      have heq : f.1 = key := by simpa using hf
      rw [ih, List.find?_cons, heq, beq_false_of_ne (Ne.symm h)]

mutual

/-- Whether two values are the same. -/
def same : Json → Json → Bool
  | .null, .null => true
  | .bool a, .bool b => a == b
  | .number a, .number b => a == b
  | .string a, .string b => a == b
  | .array xs, .array ys => sameItems xs ys
  | .object xs, .object ys => sameFields xs ys
  | _, _ => false

def sameItems : List Json → List Json → Bool
  | [], [] => true
  | x :: xs, y :: ys => same x y && sameItems xs ys
  | _, _ => false

def sameFields : List (Text × Json) → List (Text × Json) → Bool
  | [], [] => true
  | (k, x) :: xs, (l, y) :: ys => (k == l) && same x y && sameFields xs ys
  | _, _ => false

end

mutual

/-- `same` is equality. -/
theorem same_iff : (v w : Json) → (same v w = true ↔ v = w)
  | .null, w => by cases w <;> simp [same]
  | .bool a, w => by cases w <;> simp [same]
  | .number a, w => by cases w <;> simp [same]
  | .string a, w => by cases w <;> simp [same]
  | .array xs, w => by
    cases w with
    | array ys => simp [same, sameItems_iff xs ys]
    | _ => simp [same]
  | .object xs, w => by
    cases w with
    | object ys => simp [same, sameFields_iff xs ys]
    | _ => simp [same]

theorem sameItems_iff : (xs ys : List Json) → (sameItems xs ys = true ↔ xs = ys)
  | [], ys => by cases ys <;> simp [sameItems]
  | x :: xs, ys => by
    cases ys with
    | nil => simp [sameItems]
    | cons y ys => simp [sameItems, same_iff x y, sameItems_iff xs ys]

theorem sameFields_iff : (xs ys : List (Text × Json)) → (sameFields xs ys = true ↔ xs = ys)
  | [], ys => by cases ys <;> simp [sameFields]
  | (k, x) :: xs, ys => by
    cases ys with
    | nil => simp [sameFields]
    | cons y ys =>
      obtain ⟨l, y⟩ := y
      simp [sameFields, same_iff x y, sameFields_iff xs ys]

end

instance : DecidableEq Json := fun v w => decidable_of_iff _ (same_iff v w)

end Json

end Sonara
