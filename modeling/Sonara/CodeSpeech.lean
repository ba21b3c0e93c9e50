/-!
# Text and the code markers (`code_speech.rs`)

Spoken text is a list of characters, so that scanners recurse on it. Ids,
labels and voices stay `String`s: nothing looks inside them.

The agent marks a code line with `codeLine` and a block's announcement with
`codeStart` (private-use characters); a text already in its spoken form starts
with `spoken`. The reader looks at a chunk's first character only.
-/

namespace Sonara

/-- Text whose characters the code looks at. -/
abbrev Text := List Char

namespace CodeSpeech

/-- Starts a chunk that is one code line (`CODE_LINE`). -/
def codeLine : Char := Char.ofNat 0xE000

/-- Starts a chunk that announces a code block (`CODE_START`). -/
def codeStart : Char := Char.ofNat 0xE001

/-- Starts a text already in its spoken form (`SPOKEN`). -/
def spoken : Char := Char.ofNat 0xE002

/-- What kind of chunk a text is, by its marker. -/
inductive CodeKind where
  | prose
  | start
  | line
  deriving DecidableEq, Repr

/-- The kind of `chunk` (its first character). -/
def kind (chunk : Text) : CodeKind :=
  match chunk.head? with
  | some c => if c = codeLine then .line else if c = codeStart then .start else .prose
  | none => .prose

/-- `text` without a leading marker. -/
def unmarked (text : Text) : Text :=
  match text with
  | c :: rest => if c = codeLine ∨ c = codeStart ∨ c = spoken then rest else text
  | [] => []

end CodeSpeech

end Sonara
