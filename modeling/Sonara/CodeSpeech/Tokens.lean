import Sonara.CodeSpeech.Scanners
import Sonara.Lib.Callee

/-!
# Code speech (`code_speech.rs`)

`tokens` speaks a line of code: a loop that looks at what stands at a byte index, speaks it and
moves the index behind it (`step`). A template literal and the attributes of a tag are spoken by
`tokens` again (`call`). A result is `none` where a slice panics, and where the fuel ends: the
loop has one turn for each byte of the line, and `tokens` as many levels as it is given.
-/

namespace Sonara.CodeSpeech

open Lib

/-- Symbols with their words, longest first (`SYMBOLS`). -/
def symbols : List (Text × String) :=
  [(['=', '=', '='], "strictly equals"), (['!', '=', '='], "not strictly equals"),
    (['.', '.', '.'], "dot dot dot"), (['*', '*', '='], "double star equals"),
    (['<', '<', '='], "shift left equals"), (['>', '>', '='], "shift right equals"),
    (['=', '>'], "arrow"), (['-', '>'], "arrow"), (['<', '-'], "left arrow"),
    (['=', '='], "double equals"), (['!', '='], "not equals"), (['<', '='], "less or equal"),
    (['>', '='], "greater or equal"), (['&', '&'], "and"), (['|', '|'], "or"),
    (['+', '+'], "plus plus"), (['-', '-'], "minus minus"), (['+', '='], "plus equals"),
    (['-', '='], "minus equals"), (['*', '='], "star equals"), (['/', '='], "slash equals"),
    (['%', '='], "percent equals"), (['|', '='], "pipe equals"), (['&', '='], "ampersand equals"),
    ([':', '='], "colon equals"), ([':', ':'], "double colon"),
    (['?', '?'], "double question mark"),
    (['?', '.'], "question dot"), (['*', '*'], "double star"), (['<', '<'], "shift left"),
    (['>', '>'], "shift right"), (['|', '>'], "pipe greater than"), (['.', '.'], "dot dot"),
    (['(', ')'], "empty parens"), (['[', ']'], "empty brackets"),
    (['\x7b', '\x7d'], "empty braces"),
    (['('], "open paren"), ([')'], "close paren"), (['['], "open bracket"),
    ([']'], "close bracket"),
    (['\x7b'], "open brace"), (['\x7d'], "close brace"), (['<'], "less than"),
    (['>'], "greater than"),
    (['='], "equals"), (['+'], "plus"), (['-'], "minus"), (['*'], "star"), (['/'], "slash"),
    (['%'], "percent"), (['!'], "not"), (['?'], "question mark"), ([':'], "colon"),
    ([';'], "semicolon"),
    ([','], "comma"), (['&'], "ampersand"), (['|'], "pipe"), (['^'], "caret"), (['~'], "tilde"),
    (['@'], "at"), (['#'], "hash"), (['$'], "dollar"), (['\\'], "backslash"), (['\''], "tick"),
    (['"'], "quote"), (['\x60'], "backtick")]

/-- `tokens`, as it is called for a part of the line. -/
abbrev Call := Text → Mode → Parts → Option Parts

/-- Where the loop is. -/
structure Scan where
  i : Nat
  /-- A flag can start here: the start or after white space. -/
  atWord : Bool
  /-- The depth inside an expression in braces after markup text. -/
  jsx : Option Nat
  parts : Parts

/-- The outcome of one turn of the loop. -/
inductive Turn where
  | stop (parts : Parts)
  | next (st : Scan)

section
variable (u : CharTables)

/-- The parts of `code`, joined with commas. -/
def render (call : Call) (code : Text) (mode : Mode) : Option Text := do
  return (← call code mode {}).finish

/-- Inline code in prose, read with the same words. -/
def inline (call : Call) (code : Text) : Option Text := do
  let code := Text.trim code
  if (find [':', '/', '/'] code).isSome && !code.any Text.isWhitespace then
    return code
  else
    let mode ← Mode.of u "" code true
    render call code mode

/-- The loop of `template`: `rest` to come, `out` read. -/
def templateFrom (call : Call) : Nat → Text → Text → Option Text
  | 0, _, _ => none
  | fuel + 1, rest, out =>
    match find ['$', '\x7b'] rest with
    | none => some (wordsOf (out ++ rest))
    | some hole => do
      let front ← takeBytes rest hole
      let after ← dropBytes rest (hole + 2)
      let close := (find ['\x7d'] after).getD (bytes after)
      let code ← takeBytes after close
      let spoken ← inline u call code
      templateFrom call fuel ((dropBytes after (close + 1)).getD [])
        (out ++ front ++ " insert ".toList ++ spoken ++ [' '])

/-- A template literal's text, its holes read as "insert ...". -/
def template (call : Call) (text : Text) : Option Text :=
  templateFrom u call (bytes text + 1) text []

/-! ## Markup -/

/-- A tag that opens or stands alone, its name behind the `<`. -/
def openTag (call : Call) (s : Text) (i : Nat) (p : Parts) : Option (Nat × Parts) := do
  let start := i + 1
  let stop ← nameEnd u s start
  let name ← slice s start stop
  match ← tagEnd s stop with
  | none => return (stop, p.part ("open tag ".toList ++ name))
  | some close => do
    let inner := Text.trimEnd (← slice s stop close)
    let selfClosing := inner.getLast? == some '/'
    let attrs := inner.rdropWhile (· == '/')
    let p := p.part ((if selfClosing then "tag ".toList else "open tag ".toList) ++ name)
    let p ← call attrs .attrs p
    let p := if selfClosing then p.part "self-closing".toList else p
    content u s (close + 1) p

def closeTag (s : Text) (i : Nat) (p : Parts) : Option (Nat × Parts) := do
  let start := i + 2
  let stop ← nameEnd u s start
  let name ← slice s start stop
  let rest ← dropBytes s stop
  let close := (find ['>'] rest).elim (bytes s) fun e => stop + e + 1
  content u s close (p.part ("close tag ".toList ++ name))

/-- A markup construct at `i` (a tag, a fragment, a comment): the index after it. -/
def markup (call : Call) (s : Text) (i : Nat) (p : Parts) : Option (Option (Nat × Parts)) := do
  let rest ← dropBytes s i
  match stripStart ['<', '!', '-', '-'] rest with
  | some after =>
    let stop := (find ['-', '-', '>'] after).elim (bytes rest) (· + 4 + 3)
    let p := (p.part "comment".toList).part (wordsOf (before ['-', '-', '>'] after))
    return some (i + min stop (bytes rest), p)
  | none =>
    if ['<', '/', '>'].isPrefixOf rest then
      return some (← content u s (i + 3) (p.part "close fragment".toList))
    else if ['<', '>'].isPrefixOf rest then
      return some (← content u s (i + 2) (p.part "open fragment".toList))
    else if ['/', '>'].isPrefixOf rest then
      return some (← content u s (i + 2) (p.part "self-closing".toList))
    else if ← tagCanStart u s i then
      if ((stripStart ['<', '/'] rest).bind List.head?).any u.isAlphabetic then
        return some (← closeTag u s i p)
      else if ((stripStart ['<'] rest).bind List.head?).any u.isAlphabetic then
        return some (← openTag u call s i p)
      else
        return none
    else
      return none

/-! ## The turns of the loop -/

/-- A brace at the index opens an expression. -/
def braceOpens (s : Text) (st : Scan) : Option Turn := do
  let rest ← dropBytes s st.i
  return .next (if rest.head? = some '\x7b' then { st with jsx := some 0 } else st)

/-- A comment runs to the end of the line. -/
def startsComment (mode : Mode) (wasWord : Bool) (c : Char) (rest : Text) : Bool :=
  (mode.slashComment && wasWord && ['/', '/'].isPrefixOf rest) ||
    (mode.hashComment && c == '#' && wasWord) ||
    (mode.dashComment && wasWord && ['-', '-'].isPrefixOf rest)

def comment (rest : Text) (p : Parts) : Parts :=
  (p.part "comment".toList).part (wordsOf (rest.dropWhile ['/', '#', '-'].contains))

def blockComment (mode : Mode) (rest : Text) (st : Scan) : Option (Option Turn) :=
  match if mode.blockComment then stripStart ['/', '*'] rest else none with
  | none => some none
  | some body => do
    let (inner, len) ← match find ['*', '/'] body with
      | some e => (takeBytes body e).map (·, e + 4)
      | none => some (body, bytes rest)
    let text := (inner.dropWhile (· == '*')).rdropWhile (· == '*')
    let p := (st.parts.part "comment".toList).part (wordsOf text)
    return some (.next { st with i := st.i + len, parts := p })

def markupTurn (call : Call) (s : Text) (mode : Mode) (st : Scan) : Option (Option Turn) :=
  if mode.markup then do
    match ← markup u call s st.i st.parts with
    | some (n, p) => return some (← braceOpens s { st with i := n, parts := p })
    | none => return none
  else some none

/-- The brace that closes an expression, and the text behind it as words. -/
def jsxClose (s : Text) (c : Char) (st : Scan) : Option (Option Turn) :=
  if st.jsx.any (· ≤ 1) && c == '\x7d' then do
    let (i, p) ← content u s (st.i + 1) (st.parts.part "close brace".toList)
    return some (← braceOpens s { st with i, parts := p, jsx := none })
  else some none

def jsxDepth (c : Char) (jsx : Option Nat) : Option Nat :=
  jsx.map fun depth => if c = '\x7b' then depth + 1 else if c = '\x7d' then depth - 1 else depth

/-- A lifetime, not a string. -/
def lifetime (mode : Mode) (c : Char) (rest : Text) (st : Scan) : Option (Option Turn) :=
  if mode.rust && c == '\'' then do
    let after ← dropBytes rest 1
    let stop := (findChar (fun c => !isWordChar u c) after).getD (bytes after)
    if 0 < stop then
      let behind ← dropBytes after stop
      if behind.head? = some '\'' then
        return none
      else
        let name ← takeBytes after stop
        return some (.next { st with
          i := st.i + (1 + stop)
          parts := st.parts.part ("lifetime ".toList ++ name) })
    else
      return none
  else some none

/-- A quote here opens a string: an apostrophe in a word opens none. -/
def opensString (s : Text) (c : Char) (i : Nat) : Option Bool := do
  let apostrophe ←
    if c = '\'' then (takeBytes s i).map fun front => front.getLast?.any u.isAlphanumeric
    else some false
  return (c == '"' || c == '\'' || c == '\x60') && !apostrophe

def quoted (call : Call) (s : Text) (c : Char) (st : Scan) : Option (Option Turn) := do
  if ← opensString u s c st.i then
    match ← stringEnd s st.i c with
    | none => return none
    | some stop => do
      let text ← slice s (st.i + 1) stop
      let spoken ←
        if c = '\x60' then
          (template u call text).map fun t => "backtick ".toList ++ t ++ " end backtick".toList
        else some ("quote ".toList ++ wordsOf text ++ " end quote".toList)
      return some (.next { st with i := stop + 1, parts := st.parts.part (wordsOf spoken) })
  else
    return none

/-- Flags: -g, --save-dev. -/
def flag (mode : Mode) (wasWord : Bool) (c : Char) (rest : Text) (st : Scan) :
    Option (Option Turn) :=
  if mode.flags && wasWord && c == '-' then do
    let dashes := bytes rest - bytes (rest.dropWhile (· == '-'))
    let after ← dropBytes rest dashes
    if dashes ≤ 2 && after.head?.any u.isAlphabetic then
      let found := findChar (fun c => !(u.isAlphanumeric c || c == '-' || c == '_')) after
      let stop := found.elim (bytes rest) (dashes + ·)
      let name := (← slice rest dashes stop).map fun c => if c = '-' ∨ c = '_' then ' ' else c
      let dash := if dashes = 2 then "dash dash" else "dash"
      return some (.next { st with
        i := st.i + stop
        parts := st.parts.part (dash.toList ++ [' '] ++ u.toLowercase name) })
    else
      return none
  else some none

/-- The number ends in front of `c`, at byte `j` of `rest`. -/
def endsNumber (mode : Mode) (rest : Text) (j : Nat) (c : Char) : Option Bool := do
  let after ← dropBytes rest (j + c.utf8Size)
  let digitNext := after.head?.any Char.isDigit
  return !(u.isAlphanumeric c || c == '_' || (c == '.' && digitNext) ||
    (c == '-' && mode.inline && digitNext))

/-- Numbers: digits, with dots, hex and separators. -/
def number (mode : Mode) (c : Char) (rest : Text) (st : Scan) : Option (Option Turn) :=
  if c.isDigit then do
    let stop := (← search (fun _ j c => endsNumber u mode rest j c) 0 0 rest).getD (bytes rest)
    let w ← takeBytes rest stop
    return some (.next { st with i := st.i + stop, parts := st.parts.word w })
  else some none

/-- The name ends in front of `c`, the `k`th character of `rest`. A hyphen (in kebab languages)
or an apostrophe between letters stays in the name. -/
def endsName (mode : Mode) (rest : Text) (k : Nat) (c : Char) : Option Bool := do
  let joins := (c == '-' && mode.kebab) || c == '\''
  let between ←
    if 0 < k then
      rest[k - 1]?.map fun prev => u.isAlphanumeric prev && rest[k + 1]?.any u.isAlphabetic
    else some false
  return !(isWordChar u c || (joins && between))

def name (mode : Mode) (c : Char) (rest : Text) (st : Scan) : Option (Option Turn) :=
  if isWordStart u c then do
    let stop := (← search (fun k _ c => endsName u mode rest k c) 0 0 rest).getD (bytes rest)
    let w ← takeBytes rest stop
    return some (.next { st with i := st.i + stop, parts := st.parts.word (identifier u w) })
  else some none

def dot (c : Char) (rest : Text) (st : Scan) : Option Turn :=
  if c == '.' && !(['.', '.'].isPrefixOf rest) then
    some (.next { st with i := st.i + 1, parts := st.parts.dotted })
  else none

/-- A symbol, or the character as it is: a stray accent joins the word before it. -/
def symbol (c : Char) (rest : Text) (st : Scan) : Turn :=
  match symbols.find? fun x => x.1.isPrefixOf rest with
  | some (sym, word) =>
    .next { st with i := st.i + bytes sym, parts := st.parts.part word.toList }
  | none =>
    let p := if isCombining c then { st.parts with words := st.parts.words ++ [c] }
      else st.parts.word [c]
    .next { st with i := st.i + c.utf8Size, parts := p }

/-- One turn of the loop. -/
def step (call : Call) (s : Text) (mode : Mode) (st : Scan) : Option Turn := do
  let rest ← dropBytes s st.i
  let c ← rest.head?
  if Text.isWhitespace c then
    return .next { st with i := st.i + c.utf8Size, atWord := true }
  else
    let wasWord := st.atWord
    let st := { st with atWord := false }
    if startsComment mode wasWord c rest then
      return .stop (comment rest st.parts)
    else
      firstOf (blockComment mode rest st) <|
      firstOf (markupTurn u call s mode st) <|
      firstOf (jsxClose u s c st) <|
      let st := { st with jsx := jsxDepth c st.jsx }
      firstOf (lifetime u mode c rest st) <|
      firstOf (quoted u call s c st) <|
      firstOf (flag u mode wasWord c rest st) <|
      firstOf (number u mode c rest st) <|
      firstOf (name u mode c rest st) <|
      firstOf (some (dot c rest st)) <|
      some (symbol c rest st)

/-- The turns until the index is at the end of the line, `n` at most. -/
def loop (turn : Scan → Option Turn) (len : Nat) : Nat → Scan → Option Parts
  | 0, st => if st.i < len then none else some st.parts
  | n + 1, st =>
    if st.i < len then do
      match ← turn st with
      | .stop p => return p
      | .next st => loop turn len n st
    else some st.parts

/-- `tokens`, with `fuel` levels of calls. -/
def tokens : Nat → Call
  | 0, _, _, _ => none
  | fuel + 1, s, mode, p =>
    loop (step u (tokens fuel) s mode) (bytes s) (bytes s) ⟨0, true, none, p⟩

end

end Sonara.CodeSpeech
