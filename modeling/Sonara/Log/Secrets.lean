import Mathlib.Data.List.Infix
import Sonara.Strings

/-!
# The masking of secrets in a log line

`sonara-log`'s `secrets.rs`. `mask` walks a text word by word and carries one piece
of state, `Next`: how the word ahead is masked because of the word behind it. What a
word becomes is `write`, which reads nothing else, so a fact about a line is a fact
about one word and an induction along the walk.
-/

namespace Sonara.Log

open Sonara.Text

/-- What a masked value becomes. -/
def MASK : Text := "[redacted]".toList

/-- Name fragments (lower case) of a field that holds a secret. -/
def SECRET_NAMES : List String :=
  ["token", "secret", "password", "passwd", "api_key", "apikey", "api-key", "authorization",
    "cookie", "credential", "private_key", "access_key", "client_secret", "xi-api-key",
    "subscription-key", "x-goog-api-key"]

/-- Prefixes of well-known credential formats (case sensitive). -/
def TOKEN_PREFIXES : List String :=
  ["sk-", "sk_", "ghp_", "gho_", "ghs_", "ghu_", "ghr_", "github_pat_", "glpat-", "xoxb-",
    "xoxp-", "xoxa-", "AKIA", "ASIA", "AIza", "eyJ"]

/-- A credential-looking word is at least this long. -/
def MIN_TOKEN : Nat := 16

/-- `str::len`: the bytes of `t` in UTF-8. -/
def len (t : Text) : Nat := (t.map Char.utf8Size).sum

/-- `str::to_ascii_lowercase`. -/
def toAsciiLowercase (t : Text) : Text := t.map Char.toLower

/-- Whether a field named `name` holds a secret. -/
def secretKey (name : Text) : Bool :=
  SECRET_NAMES.any fun s => decide (s.toList <:+: toAsciiLowercase name)

def wordChar (c : Char) : Bool :=
  c.isAlphanum || ['_', '-', '.', '/', '+', '=', '~'].contains c

def looksLikeToken (w : Text) : Bool :=
  decide (MIN_TOKEN ≤ len w) && TOKEN_PREFIXES.any fun p => p.toList.isPrefixOf w

/-- How the next word is masked: `loose` after `Bearer` or a `--password` flag (spaces
may separate it), `strict` after a secret name only when `:` or `=` follows it. -/
inductive Next where
  | no
  | loose
  | strict
  deriving DecidableEq, Repr

/-- `str::split_once`. -/
def splitOnce (sep : Char) : Text → Option (Text × Text)
  | [] => none
  | c :: cs => if c = sep then some ([], cs) else (splitOnce sep cs).map fun p => (c :: p.1, p.2)

theorem splitOnce_append {sep : Char} {name : Text} (h : sep ∉ name) (value : Text) :
    splitOnce sep (name ++ sep :: value) = some (name, value) := by
  induction name with
  | nil => rw [List.nil_append, splitOnce, if_pos rfl]
  | cons c cs ih =>
    have hc : c ≠ sep := fun he => h (he ▸ List.mem_cons_self)
    have hcs : sep ∉ cs := fun hm => h (List.mem_cons_of_mem _ hm)
    rw [List.cons_append, splitOnce, if_neg hc, ih hcs]
    rfl

theorem splitOnce_eq {sep : Char} {t a b : Text} (h : splitOnce sep t = some (a, b)) :
    t = a ++ sep :: b := by
  induction t generalizing a with
  | nil => cases h
  | cons c cs ih =>
    rw [splitOnce] at h
    split at h
    next hc =>
      cases h
      rw [hc, List.nil_append]
    · obtain ⟨⟨l, r⟩, hp, he⟩ := Option.map_eq_some_iff.mp h
      cases he
      rw [List.cons_append, ← ih hp]

/-- `gap` holds only quotes, `:`, `=` and blanks. -/
def quiet (gap : Text) : Bool := gap.all (['"', '\'', ':', '=', ' ', '\t'].contains ·)

/-- The word behind `gap` is the value the word before it announced. -/
def follows (next : Next) (gap : Text) : Bool :=
  match next with
  | .no => false
  | .loose => quiet gap
  | .strict => quiet gap && gap.any ([':', '='].contains ·)

/-- The name of an assignment written as one word (`PASSWORD=hunter2`, `K=sk-...`)
whose value is masked. -/
def assigned (word : Text) : Option Text :=
  match splitOnce '=' word with
  | some (name, value) =>
    if value ≠ [] && (secretKey name || looksLikeToken value) then some name else none
  | none => none

/-- What the walk writes for a word. -/
structure Written where
  out : Text
  /-- Something of it was masked. -/
  changed : Bool
  next : Next
  deriving DecidableEq, Repr

/-- One word of the walk; `value` when the word before it announced it. -/
def write (value : Bool) (word : Text) : Written :=
  if toAsciiLowercase word = "bearer".toList || toAsciiLowercase word = "basic".toList then
    ⟨word, false, .loose⟩
  else match assigned word with
    | some name => ⟨name ++ '=' :: MASK, true, .no⟩
    | none =>
      if value || looksLikeToken word then ⟨MASK, true, .no⟩
      else if secretKey word then
        ⟨word, false, if word.head? = some '-' then .loose else .strict⟩
      else ⟨word, false, .no⟩

/-- The walk over `rest`, and whether it masked something; `fuel` bounds the words. -/
def walk : Nat → Next → Text → Text × Bool
  | 0, _, _ => ([], false)
  | fuel + 1, next, rest =>
    let gap := rest.takeWhile (!wordChar ·)
    let rest := rest.dropWhile (!wordChar ·)
    if rest = [] then (gap, false)
    else
      let word := rest.takeWhile wordChar
      let rest := rest.dropWhile wordChar
      let w := write (follows next gap) word
      let tail := walk fuel w.next rest
      (gap ++ w.out ++ tail.1, w.changed || tail.2)

/-- `text` with credential-looking words masked. -/
def mask (text : Text) : Text :=
  let masked := walk text.length .no text
  if masked.2 then masked.1 else text

end Sonara.Log
