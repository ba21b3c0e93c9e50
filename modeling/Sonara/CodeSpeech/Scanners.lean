import Sonara.Lib.Slices
import Sonara.Strings

/-!
# The scanners under code speech (`code_speech.rs`)

The parts a spoken line is made of, how a line is read in its language (`Mode`), an identifier
as words, and the scanners that look for the end of a string, a tag or a name. An index is a
byte offset. A function that slices is an `Option`: it is `none` where the slice panics.
-/

namespace Sonara.CodeSpeech

open Lib

/-- The Unicode tables under `char`'s methods, for what is not ASCII. -/
structure CharTables where
  alphabetic : Char → Bool
  numeric : Char → Bool
  lowercase : Char → Bool
  uppercase : Char → Bool
  toLowercase : Text → Text

namespace CharTables

variable (u : CharTables) (c : Char)

def isAlphabetic : Bool := c.isAlpha || ('\x7f' < c && u.alphabetic c)

def isNumeric : Bool := c.isDigit || ('\x7f' < c && u.numeric c)

def isLowercase : Bool := c.isLower || ('\x7f' < c && u.lowercase c)

def isUppercase : Bool := c.isUpper || ('\x7f' < c && u.uppercase c)

def isAlphanumeric : Bool := u.isAlphabetic c || u.isNumeric c

end CharTables

/-- The text between white space, one space between its words (`words_of`). -/
def wordsOf (s : Text) : Text := Text.join [' '] (Text.words s)

/-! ## Parts -/

/-- The spoken parts of a line. -/
structure Parts where
  done : List Text := []
  /-- The run of words being built. -/
  words : Text := []
  /-- A `.` after the last word: the next word joins with "dot". -/
  dot : Bool := false
  deriving DecidableEq, Repr

namespace Parts

variable (p : Parts)

def word (w : Text) : Parts :=
  if w = [] then p
  else
    let joint : Text := if p.words = [] then [] else if p.dot then " dot ".toList else [' ']
    { p with dot := false, words := p.words ++ joint ++ w }

def flush : Parts :=
  let words := if p.dot then p.words ++ " dot".toList else p.words
  { done := if words = [] then p.done else p.done ++ [words], words := [], dot := false }

/-- A part of its own (a symbol, a string, a comment, a tag). -/
def part (t : Text) : Parts :=
  let p := p.flush
  let t := Text.trim t
  if t = [] then p else { p with done := p.done ++ [t] }

/-- A `.` that is no number's and no `..`. -/
def dotted : Parts :=
  if p.words = [] ∨ p.dot = true then p.part "dot".toList else { p with dot := true }

def finish : Text := Text.join [',', ' '] p.flush.done

end Parts

/-! ## Names -/

section
variable (u : CharTables)

/-- A new piece of a camel case name begins with `c`. -/
def pieceStarts (prev : Option Char) (c : Char) (next : Option Char) : Bool :=
  match prev with
  | some p => u.isUppercase c &&
      (u.isLowercase p || p.isDigit || (u.isUppercase p && next.any u.isLowercase))
  | none => false

/-- The pieces of a camel case name, `cur` the one being read. -/
def pieces (prev : Option Char) (cur : Text) : Text → List Text
  | [] => if cur = [] then [] else [cur]
  | c :: t =>
    if pieceStarts u prev c t.head? ∧ cur ≠ [] then cur :: pieces (some c) [c] t
    else pieces (some c) (cur ++ [c]) t

/-- An identifier as words: snake and camel case split, the pieces of a split name in lower
case unless they are all capitals. -/
def identifier (word : Text) : Text :=
  let chunks := (word.splitOnP fun c => c == '_' || c == '-').filter (· ≠ [])
  let ps := chunks.flatMap (pieces u none [])
  if ps.length ≤ 1 then ps.getLast?.getD []
  else Text.join [' '] <| ps.map fun p =>
    if 1 < (p.filter u.isAlphabetic).length ∧ p.all (fun c => !u.isLowercase c) then p
    else u.toLowercase p

/-- A combining mark (a decomposed accent): part of the word before it. -/
def isCombining (c : Char) : Bool :=
  let n := c.toNat
  (0x0300 ≤ n && n ≤ 0x036F) || (0x1AB0 ≤ n && n ≤ 0x1AFF) || (0x1DC0 ≤ n && n ≤ 0x1DFF) ||
    (0x20D0 ≤ n && n ≤ 0x20FF) || (0xFE20 ≤ n && n ≤ 0xFE2F)

def isWordStart (c : Char) : Bool := u.isAlphabetic c || c == '_'

def isWordChar (c : Char) : Bool := u.isAlphanumeric c || c == '_' || isCombining c

end

/-! ## Languages -/

def markupLanguages : List String := ["html", "htm", "xml", "jsx", "tsx", "vue", "svelte", "svg"]

def hashComment : List String :=
  ["python", "py", "python3", "py3", "bash", "sh", "shell", "zsh", "console", "ruby", "rb",
    "yaml", "yml", "toml", "powershell", "ps1", "pwsh", "ps", "r", "perl", "pl", "dockerfile",
    "docker", "ini", "cfg", "conf", "makefile", "make"]

def dashComment : List String := ["sql", "psql", "mysql", "sqlite", "lua", "haskell", "hs"]

/-- Languages whose lines are text: read as written. -/
def proseLanguages : List String := ["text", "txt", "plaintext", "plain", "md", "markdown"]

/-- Languages where a hyphen between letters joins a name. -/
def kebabLanguages : List String :=
  ["css", "scss", "sass", "less", "yaml", "yml", "toml", "ini", "cfg", "conf", "dockerfile",
    "docker", "makefile", "make"]

def shellLanguages : List String :=
  ["sh", "bash", "zsh", "shell", "console", "shellsession", "powershell", "ps1", "pwsh", "ps",
    "cmd", "bat", "batch"]

/-- How a line is read in its language. -/
structure Mode where
  markup : Bool
  flags : Bool
  hashComment : Bool
  dashComment : Bool
  slashComment : Bool
  blockComment : Bool
  /-- Text, read as written. -/
  prose : Bool
  /-- A hyphen between letters joins a name. -/
  kebab : Bool
  /-- `'a` is a lifetime. -/
  rust : Bool
  /-- Inline code in prose: digit-hyphen-digit stays one word (a date). -/
  inline : Bool

/-- Attribute values inside a tag. -/
def Mode.attrs : Mode where
  markup := false
  flags := false
  hashComment := false
  dashComment := false
  slashComment := false
  blockComment := false
  prose := false
  kebab := true
  rust := false
  inline := false

section
variable (u : CharTables)

/-- A `<` can open a tag here: not right after a name or a closing bracket. -/
def tagCanStart (s : Text) (i : Nat) : Option Bool := do
  let front ← takeBytes s i
  return !front.getLast?.any fun c => u.isAlphanumeric c || c == '_' || c == ')' || c == ']'

/-- A tag opens with the `<` at `i`. -/
def opensTag (code : Text) (i : Nat) (c : Char) : Option Bool :=
  if c = '<' then do
    if ← tagCanStart u code i then
      let rest ← dropBytes code (i + 1)
      return rest.head?.any fun n => n.isAlpha || n == '/'
    else
      return false
  else some false

/-- A tag stands in `code`. -/
def looksLikeMarkup (code : Text) : Option Bool := do
  let opened ← search (fun _ i c => opensTag u code i c) 0 0 code
  return opened.isSome && code.contains '>'

def Mode.of (lang : String) (code : Text) (inline : Bool) : Option Mode := do
  let unknown := lang == ""
  let python := ["py", "python", "python3", "py3"].contains lang
  let shell := shellLanguages.contains lang
  let markup ←
    if markupLanguages.contains lang then some true
    else if unknown then looksLikeMarkup u code
    else some false
  return {
    markup
    flags := shell || unknown
    hashComment := CodeSpeech.hashComment.contains lang
    dashComment := CodeSpeech.dashComment.contains lang
    slashComment := !python && !shell
    blockComment := !python && !shell && !unknown
    prose := proseLanguages.contains lang
    kebab := unknown || shell || markup || kebabLanguages.contains lang
    rust := ["rs", "rust"].contains lang
    inline }

/-! ## The ends of things -/

/-- How far the closing `quote` is, the character before it an escape or not. -/
def closing (quote : Char) : Bool → Text → Option Nat
  | _, [] => none
  | escaped, c :: t =>
    if escaped then (closing quote false t).map (c.utf8Size + ·)
    else if c = '\\' then (closing quote true t).map (c.utf8Size + ·)
    else if c = quote then some 0
    else (closing quote false t).map (c.utf8Size + ·)

/-- The end of the quoted string that starts at `start`, if it closes on this line. -/
def stringEnd (s : Text) (start : Nat) (quote : Char) : Option (Option Nat) := do
  let rest ← dropBytes s (start + quote.utf8Size)
  return (closing quote false rest).map (start + quote.utf8Size + ·)

/-- How far the `>` of a tag is, `depth` braces and perhaps a quote open. -/
def closingTag (depth : Nat) (quote : Option Char) : Text → Option Nat
  | [] => none
  | c :: t =>
    match quote with
    | some q => (closingTag depth (if c = q then none else some q) t).map (c.utf8Size + ·)
    | none =>
      if c = '"' ∨ c = '\'' then (closingTag depth (some c) t).map (c.utf8Size + ·)
      else if c = '\x7b' then (closingTag (depth + 1) none t).map (c.utf8Size + ·)
      else if c = '\x7d' then (closingTag (depth - 1) none t).map (c.utf8Size + ·)
      else if c = '>' ∧ depth = 0 then some 0
      else (closingTag depth none t).map (c.utf8Size + ·)

/-- The `>` that ends the tag opened at `start`. -/
def tagEnd (s : Text) (start : Nat) : Option (Option Nat) := do
  let rest ← dropBytes s start
  return (closingTag 0 none rest).map (start + ·)

/-- The end of the tag name at `start`. -/
def nameEnd (s : Text) (start : Nat) : Option Nat := do
  let rest ← dropBytes s start
  let found := findChar (fun c => !(u.isAlphanumeric c || ['.', ':', '-', '_'].contains c)) rest
  return found.elim (bytes s) (start + ·)

/-- The text after a tag up to the next `<` or an opening brace, read as written, and the index
where it stops. -/
def content (s : Text) (start : Nat) (p : Parts) : Option (Nat × Parts) := do
  let start := min start (bytes s)
  let rest ← dropBytes s start
  let stop := (findChar (fun c => c == '<' || c == '\x7b') rest).elim (bytes s) (start + ·)
  let text := wordsOf (← slice s start stop)
  -- Code after a tag is read as code: text is words or sentence punctuation.
  let isText := text.any u.isAlphanumeric || (text != [] && text.all ['.', '!', '?'].contains)
  if isText then
    let text := text.rdropWhile [',', ';'].contains
    return (stop, if text = [] then p else p.part text)
  else
    return (start, p)

end

end Sonara.CodeSpeech
