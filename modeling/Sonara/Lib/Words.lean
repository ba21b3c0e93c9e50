import Mathlib.Data.List.Basic

/-!
# Reading a text word by word

A reader goes through the words of a text and holds a state: each word is a token, and a token
changes the state; a word that is no token ends the reading (`readText`). What is read in a text
that is put together from parts with the separator between them is what is read in the parts, one
after the other (`readText_intercalate`), whatever the parts hold: so a writer that joins texts is
read by a lemma for each text it joins.
-/

namespace Lib

variable {α τ σ : Type} [DecidableEq α]

section
variable (sep : α) (token : List α → Option τ) (step : σ → τ → σ)

/-- The state behind words that are read one after the other. -/
def readWords : σ → List (List α) → Option σ
  | s, [] => some s
  | s, w :: ws => (token w).bind fun x => readWords (step s x) ws

/-- The state behind the words of a text. -/
def readText (s : σ) (t : List α) : Option σ := readWords token step s (t.splitOn sep)

/-- The state behind texts that are read one after the other. -/
def readParts : σ → List (List α) → Option σ
  | s, [] => some s
  | s, p :: ps => (readText sep token step s p).bind fun s' => readParts s' ps

end

variable {sep : α} {token : List α → Option τ} {step : σ → τ → σ} {s s' m : σ}

omit [DecidableEq α] in
theorem readWords_append (ws ws' : List (List α)) : readWords token step s (ws ++ ws') =
    (readWords token step s ws).bind fun s' => readWords token step s' ws' := by
  induction ws generalizing s with
  | nil => rfl
  | cons w ws ih =>
    rw [List.cons_append, readWords, readWords]
    cases token w with
    | none => rfl
    | some x => exact ih

/-- A word that is a token. -/
theorem readText_word {w : List α} {x : τ} (hw : sep ∉ w) (hx : token w = some x) :
    readText sep token step s w = some (step s x) := by
  unfold readText
  rw [List.splitOn_eq_singleton hw, readWords, hx]
  rfl

theorem readText_append (a b : List α) : readText sep token step s (a ++ sep :: b) =
    (readText sep token step s a).bind fun s' => readText sep token step s' b := by
  unfold readText
  rw [List.splitOn_append_cons_self, readWords_append]

/-- Two texts with the separator between them. -/
theorem readText_join {a b : List α} (ha : readText sep token step s a = some m)
    (hb : readText sep token step m b = some s') :
    readText sep token step s (a ++ sep :: b) = some s' := by
  rw [readText_append, ha]
  exact hb

theorem readParts_single (p : List α) :
    readParts sep token step s [p] = readText sep token step s p := by
  rw [readParts]
  cases readText sep token step s p with
  | none => rfl
  | some s' => rfl

/-- One more text. -/
theorem readParts_snoc {ps : List (List α)} {p : List α}
    (hps : readParts sep token step s ps = some m)
    (hp : readText sep token step m p = some s') :
    readParts sep token step s (ps ++ [p]) = some s' := by
  induction ps generalizing s with
  | nil =>
    cases hps
    rw [List.nil_append, readParts_single]
    exact hp
  | cons q qs ih =>
    rw [readParts] at hps
    rw [List.cons_append, readParts]
    cases hq : readText sep token step s q with
    | none =>
      rw [hq] at hps
      cases hps
    | some s₁ =>
      rw [hq] at hps
      exact ih hps

/-- Texts with the separator between them. -/
theorem readText_intercalate {ps : List (List α)} (h : ps ≠ []) :
    readText sep token step s ([sep].intercalate ps) = readParts sep token step s ps := by
  induction ps generalizing s with
  | nil => exact absurd rfl h
  | cons p ps ih =>
    cases ps with
    | nil => rw [List.intercalate_singleton, readParts_single]
    | cons q qs =>
      rw [List.intercalate_cons_of_ne_nil (List.cons_ne_nil q qs), List.append_assoc,
        List.singleton_append,
        readText_append, readParts]
      congr 1
      funext s'
      exact ih (List.cons_ne_nil q qs)

end Lib
