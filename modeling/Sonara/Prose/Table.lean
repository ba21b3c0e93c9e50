import Sonara.Strings

/-!
# Markdown tables (`table.rs`)

A table is a line with a `|`, a separator line with as many cells, and at least one
row; the rows go on while they have a `|`. Each row is one line to speak, every
value after its column name. Offsets are counts of characters.
-/

namespace Sonara.Prose

open Sonara Text

/-- A table found in raw text: its span, and the rows as sentences. -/
structure Table where
  start : Nat
  stop : Nat
  rows : List Text
  deriving DecidableEq, Repr

namespace Table

/-- A character of a separator line. -/
def isSeparatorChar (c : Char) : Bool := c ∈ ['|', ':', '-', ' ', '\t']

def isSeparator (line : Text) : Bool :=
  let t := trim line
  t.contains '-' && t.all isSeparatorChar

/-- A partial line that may still become a separator. -/
def isSeparatorStart (line : Text) : Bool := line.all isSeparatorChar

/-- `t` without a trailing `|`, unless it is escaped. -/
def dropLastPipe (t : Text) : Text :=
  if ['|'].isSuffixOf t && !(['\\', '|'].isSuffixOf t) then t.dropLast else t

/-- The cells of `t`, cut at its pipes; an escaped pipe is a literal one. -/
def splitCells (cell : Text) : Text → List Text
  | [] => [cell]
  | '\\' :: '|' :: cs => splitCells (cell ++ ['|']) cs
  | c :: cs => if c = '|' then cell :: splitCells [] cs else splitCells (cell ++ [c]) cs

/-- The cells of one row; outer pipes are optional. -/
def cells (line : Text) : List Text :=
  let t := trim line
  let t := if ['|'].isPrefixOf t then t.tail else t
  (splitCells [] (dropLastPipe t)).map trim

/-- `sep` is the separator under `head`: as many cells. -/
def separates (head sep : Text) : Bool :=
  isSeparator sep && (cells sep).length == (cells head).length

/-- A value after its column name, with a full stop. -/
def speakCell (header : List Text) (i : Nat) (value : Text) : Text :=
  let part := match header[i]? with
    | some h => if h = [] then value else h ++ ": ".toList ++ value
    | none => value
  if endsWith part ['.', '!', '?'] then part else part ++ ['.']

/-- One row as one line. -/
def speakRow (header row : List Text) : Text :=
  join [' '] ((row.zipIdx.filter (·.1 ≠ [])).map fun p => speakCell header p.2 p.1)

/-- A line that goes on a table. -/
def isRow (line : Text) : Bool := line.contains '|' && trim line ≠ []

/-- The first table among the lines behind `before`. -/
def findFrom (before : Nat) : List Text → Option Table
  | head :: sep :: rest =>
    let body := rest.takeWhile isRow
    if head.contains '|' && separates head sep && body ≠ [] then
      some {
        start := before
        stop := before + head.length + sep.length + body.flatten.length
        rows := (body.map fun line => speakRow (cells head) (cells line)).filter (· ≠ []) }
    else findFrom (before + head.length) (sep :: rest)
  | _ => none

/-- The first table in `text`, if any. -/
def find (text : Text) : Option Table := findFrom 0 (lines text)

/-- A line that is a header or may still become one. -/
def mayStart (line : Text) (next : Option Text) : Bool :=
  line.contains '|' && match next with
    | some next =>
      if endsWith next ['\n'] then separates line next else isSeparatorStart next
    | none => true

/-- Where a table may begin among `lines`, behind `before`. -/
def holdFromLines (before : Nat) : List Text → Nat
  | [] => before
  | line :: rest =>
    if mayStart line rest.head? then before else holdFromLines (before + line.length) rest

/-- Where a table may begin in streamed text. -/
def holdFrom (text : Text) : Nat := holdFromLines 0 (lines text)

/-! ## Spans -/

/-- A table that is found is not empty and lies in the lines. -/
theorem findFrom_span {before : Nat} {ls : List Text} {t : Table}
    (h : findFrom before ls = some t) (hne : ∀ l ∈ ls, l ≠ []) :
    t.start < t.stop ∧ t.stop ≤ before + ls.flatten.length := by
  induction ls generalizing before with
  | nil => cases h
  | cons head tail ih =>
    cases tail with
    | nil => cases h
    | cons sep rest =>
      unfold findFrom at h
      dsimp only at h
      split at h
      · cases h
        have hhead : 0 < head.length := List.length_pos_iff.mpr (hne head List.mem_cons_self)
        have hbody : (rest.takeWhile isRow).flatten.length ≤ rest.flatten.length := by
          conv_rhs => rw [← List.takeWhile_append_dropWhile (p := isRow) (l := rest)]
          rw [List.flatten_append, List.length_append]
          exact Nat.le_add_right _ _
        simp only [List.flatten_cons, List.length_append]
        omega
      · obtain ⟨hlt, hle⟩ := ih h fun l hl => hne l (List.mem_cons_of_mem _ hl)
        refine ⟨hlt, ?_⟩
        rw [List.flatten_cons, List.length_append]
        omega

theorem find_span {text : Text} {t : Table} (h : find text = some t) :
    t.start < t.stop ∧ t.stop ≤ text.length := by
  obtain ⟨hlt, hle⟩ := findFrom_span h fun l hl => lines_ne_nil hl
  rw [lines_flatten, Nat.zero_add] at hle
  exact ⟨hlt, hle⟩

end Table

end Sonara.Prose
