import Mathlib.Data.List.Infix
import Sonara.Prose.Table

/-!
# Cutting prose into pieces (`assembler.rs`, `stabilize_ordinals` of `text.rs`)

The assembler first cuts raw text, then cleans each slice (`emit_chunk`). The cut
does not look at the cleaned text, so it is modelled on its own: its pieces are the
raw slices, and `voice` is what is said of them.

The regular expressions are scanners. `SENTENCE` is lazy, so a match runs to the
first end mark whose closing marks are followed by white space; the blank line
(`PARA`) and the list ordinal have one way to match from where they start.
-/

namespace Sonara.Prose

open Sonara Text

/-- A backtick. -/
def tick : Char := Char.ofNat 0x60

/-- One unit of the assembler's output (`Chunk`). -/
inductive Chunk where
  | text (t : Text)
  | code (summary : Text) (lines : List Text) (stop : Text)
  | paragraphBreak
  deriving DecidableEq, Repr

/-- How text is said: `normalize_for_speech` and the functions of `code_speech`. -/
structure Speech extends Unicode where
  normalize : Text → Text
  announcement : (info : Text) → (lines : Nat) → Text
  line : (raw info : Text) → (n : Nat) → Option Text
  endOfCode : (info : Text) → Text

/-- ASCII tables; text without markup is said as it is written. -/
def Speech.ascii : Speech where
  lowercase t := t.map Char.toLower
  isAlphanumeric := Char.isAlphanum
  isAlphabetic := Char.isAlpha
  isUppercase := Char.isUpper
  isDecimal := Char.isDigit
  normalize := pyStrip
  announcement _ _ := "A code block.".toList
  line raw _ _ := some (pyStrip raw)
  endOfCode _ := "End of the code.".toList

/-- A cut of the raw text, before it is cleaned. -/
inductive Piece where
  /-- A slice handed to `emit_chunk`. -/
  | slice (raw : Text)
  /-- A table and its rows, each handed to `emit_chunk`. -/
  | table (raw : Text) (rows : List Text)
  /-- The info string of a prose fence: not said. -/
  | info (lang : Text)
  | code (lang : Text) (lines : List Text)
  | paragraphBreak
  deriving DecidableEq, Repr

/-- A speakable chunk has a word character (`WORD`). -/
def hasWord (t : Text) : Bool := t.any Char.isAlphanum

/-- Clean one raw chunk and append it if speakable. -/
def emitChunk (s : Speech) (raw : Text) : List Chunk :=
  let cleaned := s.normalize raw
  if hasWord cleaned then [.text cleaned] else []

/-- The chunks of a piece. -/
def voice (s : Speech) : Piece → List Chunk
  | .slice raw => emitChunk s raw
  | .table _ rows => rows.flatMap (emitChunk s)
  | .info _ => []
  | .code lang lines =>
    [.code (s.announcement lang lines.length)
      (lines.zipIdx.filterMap fun p => s.line p.1 lang (p.2 + 1)) (s.endOfCode lang)]
  | .paragraphBreak => [.paragraphBreak]

/-! ## Ordinals of list items -/

/-- A list ordinal at the start of `t` (`LIST_ORDINAL`): what stands before its dot,
the white space behind the dot, and the rest. -/
def ordinal (u : Unicode) (t : Text) : Option (Text × Text × Text) :=
  let space := t.takeWhile isPySpace
  let rest := t.dropWhile isPySpace
  let digits := rest.takeWhile u.isDecimal
  match rest.dropWhile u.isDecimal with
  | '.' :: after =>
    let gap := after.takeWhile isPySpace
    if 1 ≤ digits.length ∧ digits.length ≤ 3 ∧ gap ≠ [] then
      some (space ++ digits, gap, after.dropWhile isPySpace)
    else none
  | _ => none

/-- `replace_all` of the ordinals, at most `n` steps; `bol` at the start of a line. -/
def stabilizeLoop (u : Unicode) : (n : Nat) → (bol : Bool) → Text → Text
  | 0, _, t => t
  | n + 1, bol, t =>
    match if bol then ordinal u t else none with
    | some (head, gap, rest) =>
      head ++ ':' :: gap ++ stabilizeLoop u n (gap.getLast? = some '\n') rest
    | none => match t with
      | [] => []
      | c :: cs => c :: stabilizeLoop u n (c = '\n') cs

/-- Length-preserving "N. " to "N: " for numbered list items. -/
def stabilizeOrdinals (u : Unicode) (t : Text) : Text := stabilizeLoop u (t.length + 1) true t

/-! ## Paragraphs -/

/-- How many characters behind a line feed end a blank line. -/
def blankLine : Text → Option Nat
  | [] => none
  | c :: cs =>
    if c = '\n' then some 1 else if isBlank c then (blankLine cs).map (· + 1) else none

/-- `PARA.split`: the complete paragraphs, and the last one. `skip` counts the
characters of a blank line still to pass over. -/
def splitPara (t : Text) : List Text × Text := go 0 [] t
where
  go : (skip : Nat) → (para : Text) → Text → List Text × Text
    | _, para, [] => ([], para)
    | skip + 1, para, _ :: cs => go skip para cs
    | 0, para, c :: cs =>
      if c = '\n' then
        match blankLine cs with
        | some n => let r := go n [] cs; (para :: r.1, r.2)
        | none => go 0 (para ++ [c]) cs
      else go 0 (para ++ [c]) cs

/-! ## Sentences -/

/-- A closing quote, bracket or markdown marker. -/
def isCloser (c : Char) : Bool :=
  c ∈ [Char.ofNat 0x22, Char.ofNat 0x27, '’', '”', ')', ']', '*', '_', tick]

/-- Behind an end mark: the closing marks, and how many characters up to the end of
the white space that must follow. -/
def sentenceEnd (t : Text) : Option (Text × Nat) :=
  let closers := t.takeWhile isCloser
  let space := (t.dropWhile isCloser).takeWhile isPySpace
  if space = [] then none else some (closers, closers.length + space.length)

/-- The sentences of `t` (`SENTENCE.captures_iter`) and the text behind the last. -/
def cutSentences (t : Text) : List Text × Text := go 0 [] t
where
  go : (skip : Nat) → (sentence : Text) → Text → List Text × Text
    | _, sentence, [] => ([], sentence)
    | skip + 1, sentence, _ :: cs => go skip sentence cs
    | 0, sentence, c :: cs =>
      if sentence ≠ [] ∧ c ∈ ['.', '!', '?'] then
        match sentenceEnd cs with
        | some (closers, n) => let r := go n [] cs; ((sentence ++ c :: closers) :: r.1, r.2)
        | none => go 0 (sentence ++ [c]) cs
      else go 0 (sentence ++ [c]) cs

/-- `prose_sentences`: the pieces and the raw remainder. -/
def proseSentences (t : Text) (keepRemainder : Bool) : List Piece × Text :=
  let r := cutSentences t
  if keepRemainder then (r.1.map .slice, r.2)
  else (r.1.map .slice ++ (splitLines r.2).map .slice, [])

/-! ## List items -/

/-- A list item's first line (`LIST_ITEM`). -/
def isListItem (u : Unicode) (line : Text) : Bool :=
  let t := line.dropWhile isBlank
  let marked (r : Text) : Bool :=
    r.takeWhile isBlank ≠ [] && (r.dropWhile isBlank).head?.any (!isWhitespace ·)
  let digits := t.takeWhile u.isDecimal
  (match t with
    | c :: r => c ∈ ['-', '*', '+', '•'] && marked r
    | [] => false) ||
  (match t.dropWhile u.isDecimal with
    | c :: r => c == ':' && 1 ≤ digits.length && digits.length ≤ 3 && marked r
    | [] => false)

/-- An indented line goes on the item above it. -/
def continues (line : Text) : Bool :=
  line.head?.any isBlank && (trim line ≠ [] || !endsWith line ['\n'])

/-- The segments of `lines`, each with whether it is an item; `cur` is still growing. -/
def segments (u : Unicode) (cur : Option (Text × Bool)) : List Text → List (Text × Bool)
  | [] => cur.toList
  | line :: ls =>
    if isListItem u line then cur.toList ++ segments u (some (line, true)) ls
    else match cur with
      | none => segments u (some (line, false)) ls
      | some (seg, true) =>
        if continues line then segments u (some (seg ++ line, true)) ls
        else (seg, true) :: segments u (some (line, false)) ls
      | some (seg, false) => segments u (some (seg ++ line, false)) ls

/-- The pieces of the segments; streaming, the last one keeps a remainder. -/
def emitSegments (keepRemainder : Bool) : List (Text × Bool) → List Piece × Text
  | [] => ([], [])
  | (seg, item) :: rest =>
    if keepRemainder ∧ rest = [] then
      if item then ([], seg) else proseSentences seg true
    else
      let out := if item then [.slice (trimEnd seg)] else (proseSentences seg false).1
      let r := emitSegments keepRemainder rest
      (out ++ r.1, r.2)

/-- `list_sentences`: each list item is one piece. -/
def listSentences (u : Unicode) (t : Text) (keepRemainder : Bool) : List Piece × Text :=
  emitSegments keepRemainder (segments u none (lines t))

/-- `with_tables`, at most `n` tables: each table, and the prose around it. -/
def withTables (u : Unicode) : (n : Nat) → Text → List Piece
  | 0, _ => []
  | n + 1, t =>
    match Table.find t with
    | some tb =>
      (listSentences u (t.take tb.start) false).1 ++
        .table ((t.take tb.stop).drop tb.start) tb.rows :: withTables u n (t.drop tb.stop)
    | none => (listSentences u t false).1

/-- `sentences_of`: the pieces of raw text and the raw remainder. -/
def sentencesOf (u : Unicode) (t : Text) (keepRemainder : Bool) : List Piece × Text :=
  if keepRemainder then
    let hold := Table.holdFrom t
    let r := listSentences u (t.take hold) true
    (r.1, r.2 ++ t.drop hold)
  else (withTables u (t.length + 1) t, [])

/-! ## Prose in a fence -/

/-- The info strings of a fence that may hold prose. -/
def proseInfos : List Text :=
  ["", "text", "txt", "plain", "plaintext", "markdown", "md", "prompt"].map String.toList

/-- `sub` stands in `t`. -/
def contains (t : Text) (sub : String) : Bool := decide (sub.toList <:+: t)

/-- A line with code characters. -/
def isCodeLine (l : Text) : Bool :=
  l.any (· ∈ ['{', '}', ';', '=', '<', '>', '$', '\\', tick, '|']) ||
    ["()", "::", "->", "=>", "&&"].any (contains l)

/-- The words of a line that have a letter. -/
def letterWords (u : Unicode) (l : Text) : Nat :=
  ((words l).filter fun w => w.any u.isAlphabetic).length

/-- A fence whose lines are mostly words is prose. -/
def proseFence (u : Unicode) (lang : Text) (ls : List Text) : Bool :=
  let filled := ls.filter fun l => trim l ≠ []
  let prose := (filled.filter fun l => 3 ≤ letterWords u l && !isCodeLine l).length
  let total := (filled.map (letterWords u)).sum
  let sentence := filled.any fun l =>
    let t := trimEnd l
    contains t ". " || contains t ", " || endsWith t ['.', '?', '!']
  proseInfos.contains (lang.map Char.toLower) &&
    (8 ≤ total && sentence && filled.length * 2 ≤ prose * 3)

/-- A line that starts something new. -/
def startsNew (u : Unicode) (l : Text) : Bool :=
  (trimStart l).head?.any fun c => c ∈ ['-', '*', '+', '#'] || u.isUppercase c || c.isDigit

/-- The lines of a prose fence as text. -/
def proseLines (u : Unicode) : List Text → Text
  | [] => []
  | line :: ls =>
    let next := ls.headD []
    let unended := trim line ≠ [] && !endsWith (trimEnd line) ['.', '!', '?', ':', ';', ',']
    trimEnd line ++ (if unended && (trim next = [] || startsNew u next) then ['.'] else []) ++
      '\n' :: proseLines u ls

end Sonara.Prose
