import Sonara.Json

/-!
# JSON values that are printed and read back

`serde_json` reads back what it printed, but for the last bits of a double. `Json.like` is that
relation: the same value up to its doubles. What is asked of a read value (the field of an object,
a text, a list of texts) is asked of the printed one.
-/

namespace Sonara

/-- Whether two numbers are the same up to a double. -/
def Number.like : Number → Number → Bool
  | .integer a, .integer b => a == b
  | .float _, .float _ => true
  | _, _ => false

theorem Number.like_refl (n : Number) : n.like n = true := by
  cases n with
  | integer n => exact beq_self_eq_true n
  | float bits => rfl

/-- `Number.like` is transitive. -/
theorem Number.like_trans {a b c : Number} (h : a.like b = true) (h' : b.like c = true) :
    a.like c = true := by
  cases a with
  | integer n =>
    cases b with
    | integer m =>
      rw [Number.like, beq_iff_eq] at h
      exact h ▸ h'
    | float bits => cases h
  | float bits =>
    cases b with
    | integer m => cases h
    | float bits' =>
      cases c with
      | integer n => cases h'
      | float bits => rfl

namespace Json

mutual

/-- Whether two values are the same up to their doubles. -/
def like : Json → Json → Bool
  | .null, .null => true
  | .bool a, .bool b => a == b
  | .number a, .number b => a.like b
  | .string a, .string b => a == b
  | .array xs, .array ys => likeItems xs ys
  | .object xs, .object ys => likeFields xs ys
  | _, _ => false

def likeItems : List Json → List Json → Bool
  | [], [] => true
  | x :: xs, y :: ys => like x y && likeItems xs ys
  | _, _ => false

def likeFields : List (Text × Json) → List (Text × Json) → Bool
  | [], [] => true
  | (k, x) :: xs, (l, y) :: ys => (k == l) && like x y && likeFields xs ys
  | _, _ => false

end

/-- Read where `v` was printed. -/
def Like (v w : Json) : Prop := like v w = true

mutual

theorem like_refl : (v : Json) → like v v = true
  | .null => rfl
  | .bool a => by simp [like]
  | .number n => by simp [like, n.like_refl]
  | .string s => by simp [like]
  | .array xs => by simp [like, likeItems_refl xs]
  | .object xs => by simp [like, likeFields_refl xs]

theorem likeItems_refl : (xs : List Json) → likeItems xs xs = true
  | [] => rfl
  | x :: xs => by simp [likeItems, like_refl x, likeItems_refl xs]

theorem likeFields_refl : (xs : List (Text × Json)) → likeFields xs xs = true
  | [] => rfl
  | (k, x) :: xs => by simp [likeFields, like_refl x, likeFields_refl xs]

end

theorem Like.refl (v : Json) : Like v v := like_refl v

mutual

/-- Alike is transitive, through arrays and objects. -/
theorem like_trans : (u v w : Json) → like u v = true → like v w = true → like u w = true
  | .null, v, w => by cases v <;> cases w <;> simp [like]
  | .bool a, v, w => by cases v <;> cases w <;> simp +contextual [like]
  | .number a, v, w => by
    intro h h'
    cases v with
    | number b =>
      cases w with
      | number c => exact Number.like_trans h h'
      | _ => cases h'
    | _ => cases h
  | .string s, v, w => by cases v <;> cases w <;> simp +contextual [like]
  | .array xs, v, w => by
    intro h h'
    cases v with
    | array ys =>
      cases w with
      | array zs => exact likeItems_trans xs ys zs h h'
      | _ => cases h'
    | _ => cases h
  | .object xs, v, w => by
    intro h h'
    cases v with
    | object ys =>
      cases w with
      | object zs => exact likeFields_trans xs ys zs h h'
      | _ => cases h'
    | _ => cases h

/-- Items alike are transitive. -/
theorem likeItems_trans : (xs ys zs : List Json) → likeItems xs ys = true → likeItems ys zs = true →
    likeItems xs zs = true
  | [], ys, zs => by cases ys <;> cases zs <;> simp [likeItems]
  | x :: xs, ys, zs => by
    intro h h'
    cases ys with
    | nil => cases h
    | cons y ys =>
      cases zs with
      | nil => cases h'
      | cons z zs =>
        rw [likeItems, Bool.and_eq_true] at h h' ⊢
        exact ⟨like_trans x y z h.1 h'.1, likeItems_trans xs ys zs h.2 h'.2⟩

/-- Fields alike are transitive. -/
theorem likeFields_trans : (xs ys zs : List (Text × Json)) → likeFields xs ys = true →
    likeFields ys zs = true →
    likeFields xs zs = true
  | [], ys, zs => by cases ys <;> cases zs <;> simp [likeFields]
  | (k, x) :: xs, ys, zs => by
    intro h h'
    cases ys with
    | nil => cases h
    | cons y ys =>
      cases zs with
      | nil => cases h'
      | cons z zs =>
        rw [likeFields, Bool.and_eq_true, Bool.and_eq_true, beq_iff_eq] at h h' ⊢
        exact ⟨⟨h.1.1.trans h'.1.1, like_trans x y.2 z.2 h.1.2 h'.1.2⟩,
          likeFields_trans xs ys zs h.2 h'.2⟩

end

theorem Like.trans {u v w : Json} (h : Like u v) (h' : Like v w) : Like u w := like_trans u v w h h'

/-! ## What a read value answers -/

variable {v w : Json}

theorem Like.asStr (h : Like v w) : v.asStr = w.asStr := by
  unfold Like like at h
  split at h
  all_goals first
    | rfl
    | (rw [beq_iff_eq.mp h])
    | cases h

/-- Alike objects have alike values under each key, or none. -/
theorem likeFields_field {xs ys : List (Text × Json)} (h : likeFields xs ys = true) (key : Text) :
    Option.Rel Like (field key xs) (field key ys) := by
  induction xs generalizing ys with
  | nil =>
    cases ys with
    | nil => exact .none
    | cons y ys => cases h
  | cons x xs ih =>
    cases ys with
    | nil => cases h
    | cons y ys =>
      obtain ⟨k, x⟩ := x
      obtain ⟨l, y⟩ := y
      unfold likeFields at h
      rw [Bool.and_eq_true, Bool.and_eq_true, beq_iff_eq] at h
      obtain ⟨⟨rfl, hxy⟩, hrest⟩ := h
      unfold field
      rw [List.find?_cons, List.find?_cons]
      cases k == key with
      | true => exact .some hxy
      | false => exact ih hrest

theorem Like.get (h : Like v w) (key : Text) : Option.Rel Like (v.get key) (w.get key) := by
  unfold Like like at h
  split at h
  all_goals first
    | exact .none
    | exact likeFields_field h key
    | cases h

/-- The text a field holds. -/
def textOf (key : Text) (v : Json) : Option Text := (v.get key).bind asStr

theorem Like.textOf (h : Like v w) (key : Text) : v.textOf key = w.textOf key := by
  unfold Json.textOf
  have hget := h.get key
  generalize v.get key = a at hget
  generalize w.get key = b at hget
  cases hget with
  | none => rfl
  | some h => exact h.asStr

end Json

end Sonara
