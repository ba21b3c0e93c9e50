import Mathlib.Algebra.GroupWithZero.Nat
import Mathlib.Data.List.DropRight
import Sonara.CodeSpeech

/-!
# The string functions the code uses

Rust's `str` methods over `Text`. White space is the Unicode property
(`char::is_whitespace`, `\s` of the regular expressions); Python's `\s`, which the
ported text rules keep, also holds of U+001C..U+001F. The other character classes
are tables of the Unicode standard: they are a parameter (`Unicode`), and what is
proved holds for every table.
-/

namespace Sonara

/-- The character tables the code reads, and the folding to lower case. -/
structure Unicode where
  lowercase : Text → Text
  isAlphanumeric : Char → Bool
  isAlphabetic : Char → Bool
  isUppercase : Char → Bool
  /-- A decimal digit of any script (`\d`). -/
  isDecimal : Char → Bool

namespace Text

/-- `char::is_whitespace`. -/
def isWhitespace (c : Char) : Bool :=
  let n := c.toNat
  (9 ≤ n && n ≤ 13) || n == 0x20 || n == 0x85 || n == 0xA0 || n == 0x1680 ||
    (0x2000 ≤ n && n ≤ 0x200A) || n == 0x2028 || n == 0x2029 || n == 0x202F || n == 0x205F ||
    n == 0x3000

/-- Python `str.isspace()` (`is_py_space`). -/
def isPySpace (c : Char) : Bool :=
  isWhitespace c || (0x1C ≤ c.toNat && c.toNat ≤ 0x1F)

/-- A space or a tab. -/
def isBlank (c : Char) : Bool := c == ' ' || c == '\t'

def trimStart (t : Text) : Text := t.dropWhile isWhitespace

def trimEnd (t : Text) : Text := t.rdropWhile isWhitespace

def trim (t : Text) : Text := trimEnd (trimStart t)

/-- Python `str.strip()` (`py_strip`). -/
def pyStrip (t : Text) : Text := (t.dropWhile isPySpace).rdropWhile isPySpace

/-- `t` ends with one of `cs`. -/
def endsWith (t : Text) (cs : List Char) : Bool := t.getLast?.any (· ∈ cs)

/-- The words of `t` (`split_whitespace`). -/
def words (t : Text) : List Text := (t.splitOnP isWhitespace).filter (· ≠ [])

/-- The lines of `t` with their line feeds (`split_inclusive('\n')`). -/
def lines : Text → List Text
  | [] => []
  | c :: cs =>
    if c = '\n' then [c] :: lines cs
    else match lines cs with
      | [] => [[c]]
      | l :: ls => (c :: l) :: ls

/-- `t` up to its first line feed, and what follows it. -/
def cutLine : Text → Option (Text × Text)
  | [] => none
  | c :: cs => if c = '\n' then some ([], cs) else (cutLine cs).map fun p => (c :: p.1, p.2)

/-- Python `str.splitlines()` (`split_lines`): a line feed behind a carriage return
ends no line of its own (`cr`), and a last line without an end counts when it has text. -/
def splitLines (t : Text) : List Text := go false [] t
where
  go (cr : Bool) (line : Text) : Text → List Text
    | [] => if line = [] then [] else [line]
    | c :: cs =>
      if cr && c == '\n' then go false line cs
      else if c == '\r' then line :: go true [] cs
      else if c ∈ ['\n', '\x0b', '\x0c', '\x1c', '\x1d', '\x1e', '\u0085', '\u2028', '\u2029'] then
        line :: go false [] cs
      else go false (line ++ [c]) cs

/-- `parts` joined by `sep`. -/
def join (sep : Text) (parts : List Text) : Text := sep.intercalate parts

/-- `n` in decimal. -/
def number (n : Nat) : Text := (toString n).toList

@[simp] theorem trim_nil : trim [] = [] := rfl

/-- What is left of `t` without its white space. -/
def ink (t : Text) : Text := t.filter fun c => !isWhitespace c

@[simp] theorem ink_append (s t : Text) : ink (s ++ t) = ink s ++ ink t := List.filter_append ..

theorem ink_white {t : Text} (h : ∀ c ∈ t, isWhitespace c) : ink t = [] :=
  List.filter_eq_nil_iff.mpr fun c hc => by simp [h c hc]

/-- Trimming takes white space only. -/
theorem ink_trim (t : Text) : ink (trim t) = ink t := by
  have hstart : ink (trimStart t) = ink t := by
    conv => rhs; rw [← List.takeWhile_append_dropWhile (p := isWhitespace) (l := t)]
    rw [ink_append, ink_white fun c hc => List.mem_takeWhile_imp hc]
    rfl
  have hend : ∀ s : Text, ink (trimEnd s) = ink s := by
    intro s
    conv => rhs; rw [← List.rdropWhile_append_rtakeWhile (p := isWhitespace) (l := s)]
    rw [ink_append, ink_white fun c hc => List.mem_rtakeWhile_imp hc, List.append_nil]
    rfl
  exact (hend _).trans hstart

/-- A text that starts with no white space ends a longer one when both are trimmed. -/
theorem trim_suffix (a : Text) {c : Char} (b : Text) (hc : isWhitespace c = false) :
    trim (c :: b) <:+ trim (a ++ c :: b) := by
  have hstart : ∀ a : Text, trimStart (a ++ c :: b) = trimStart a ++ c :: b := by
    intro a
    unfold trimStart
    rw [List.dropWhile_append, List.dropWhile_cons_of_neg (by simp [hc])]
    cases List.dropWhile isWhitespace a with
    | nil => rfl
    | cons d a => rfl
  have hend : ∀ a : Text, trimEnd (a ++ c :: b) = a ++ trimEnd (c :: b) := by
    intro a
    unfold trimEnd List.rdropWhile
    rw [List.reverse_append, List.dropWhile_append]
    have hne : (List.dropWhile isWhitespace (c :: b).reverse).isEmpty = false := by
      rw [List.isEmpty_eq_false_iff, ne_eq, List.dropWhile_eq_nil_iff]
      intro hall
      rw [hall c (by simp)] at hc
      cases hc
    rw [hne]
    simp
  unfold trim
  have hself : trimStart (c :: b) = c :: b := hstart []
  rw [hself, hstart, hend]
  exact List.suffix_append _ _

theorem lines_flatten (t : Text) : (lines t).flatten = t := by
  induction t with
  | nil => rfl
  | cons c cs ih =>
    unfold lines
    split
    · rw [List.flatten_cons, ih]
      rfl
    · split
      next h => rw [h] at ih; rw [← ih]; rfl
      next l ls h => rw [h] at ih; rw [← ih]; rfl

/-- No line is empty. -/
theorem lines_ne_nil {t l : Text} (h : l ∈ lines t) : l ≠ [] := by
  induction t generalizing l with
  | nil => exact absurd h List.not_mem_nil
  | cons c cs ih =>
    unfold lines at h
    split at h
    · rcases List.mem_cons.mp h with rfl | h
      · exact List.cons_ne_nil _ _
      · exact ih h
    · split at h
      · rw [List.mem_singleton] at h
        rw [h]
        exact List.cons_ne_nil _ _
      next hl =>
        rcases List.mem_cons.mp h with rfl | h
        · exact List.cons_ne_nil _ _
        · exact ih (hl ▸ List.mem_cons_of_mem _ h)

/-- A line that was cut off, and the rest. -/
theorem cutLine_eq {t line rest : Text} (h : cutLine t = some (line, rest)) :
    t = line ++ '\n' :: rest := by
  induction t generalizing line with
  | nil => cases h
  | cons c cs ih =>
    unfold cutLine at h
    split at h
    next hc =>
      cases h
      rw [hc, List.nil_append]
    · obtain ⟨⟨l, r⟩, hp, he⟩ := Option.map_eq_some_iff.mp h
      cases he
      rw [List.cons_append, ← ih hp]

/-- Behind a line feed a new line begins. -/
theorem lines_append {t : Text} (hlast : t = [] ∨ t.getLast? = some '\n') (u : Text) :
    lines (t ++ u) = lines t ++ lines u := by
  induction t with
  | nil => rfl
  | cons c cs ih =>
    cases cs with
    | nil =>
      have hc : c = '\n' := by
        rcases hlast with h | h
        · cases h
        · exact Option.some.inj h
      subst hc
      rfl
    | cons c' cs =>
      have hrest := ih (.inr (by
        rcases hlast with h | h
        · cases h
        · rw [List.getLast?_cons_cons] at h
          exact h))
      rw [List.cons_append, lines, lines, hrest]
      split
      · rfl
      · cases hl : lines (c' :: cs) with
        | nil =>
          have hflat := lines_flatten (c' :: cs)
          rw [hl] at hflat
          cases hflat
        | cons l ls => rfl

/-- The line that is cut holds no line feed. -/
theorem cutLine_clean {t line rest : Text} (h : cutLine t = some (line, rest)) : '\n' ∉ line := by
  induction t generalizing line with
  | nil => cases h
  | cons c cs ih =>
    unfold cutLine at h
    split at h
    next => cases h; exact List.not_mem_nil
    next hc =>
      obtain ⟨⟨l, r⟩, hp, he⟩ := Option.map_eq_some_iff.mp h
      cases he
      rw [List.mem_cons, not_or]
      exact ⟨Ne.symm hc, ih hp⟩

end Text

end Sonara
