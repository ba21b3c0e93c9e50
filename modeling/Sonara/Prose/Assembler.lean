import Mathlib.Data.Finset.Basic
import Sonara.Prose.Sentences

/-!
# The prose assembler (`ProseAssembler` of `assembler.rs`)

Streamed deltas become chunks: `pending` is the raw tail not yet routed to prose or
to a fence, `buf` the current paragraph, of which `emitted` characters went out.
Offsets count characters. Each method returns the assembler and the pieces it cut;
`feed` cleans them into chunks.

`consume` runs rounds (`scan`) until one stops; a round that goes on takes
characters off `pending`, so its length bounds them.
-/

namespace Sonara.Prose

open Sonara Text

/-- The assembler's state. -/
structure Assembler where
  seen : Finset Nat := ∅
  buf : Text := []
  emitted : Nat := 0
  pending : Text := []
  inFence : Bool := false
  fenceTicks : Nat := 0
  fenceLang : Text := []
  fenceLines : List Text := []
  fenceOpenedLine : Bool := false
  /-- The last block's final index and the indices it had. -/
  done : Option (Nat × Finset Nat) := none
  lastBreak : Bool := false
  deriving DecidableEq

namespace Assembler

variable (u : Unicode) (a : Assembler)

/-- `n` backticks. -/
def ticks (n : Nat) : Text := List.replicate n tick

/-! ## Prose -/

/-- The pieces of the complete paragraphs and what is emitted of the next one. -/
def paragraphs (emitted : Nat) : List Text → List Piece × Nat
  | [] => ([], emitted)
  | p :: ps =>
    let start := min emitted p.length
    let r := paragraphs 0 ps
    ((sentencesOf u ((stabilizeOrdinals u p).drop start) false).1 ++ .paragraphBreak :: r.1, r.2)

/-- `split_sentences`: emit the complete sentences of `buf`. -/
def splitSentences : Assembler × List Piece :=
  let paras := splitPara a.buf
  let done := paragraphs u a.emitted paras.1
  let last := paras.2
  let start := min done.2 last.length
  let r := sentencesOf u ((stabilizeOrdinals u last).drop start) true
  ({ a with buf := last, emitted := last.length - r.2.length }, done.1 ++ r.1)

/-- `flush_prose`: emit the raw tail not yet emitted. -/
def flushProse : Assembler × List Piece :=
  if a.buf = [] then ({ a with emitted := 0 }, [])
  else
    let start := min a.emitted a.buf.length
    ({ a with buf := [], emitted := 0 },
      (sentencesOf u ((stabilizeOrdinals u a.buf).drop start) false).1)

/-- Move `t` to the prose and emit what it completes. -/
def takeProse (t : Text) : Assembler × List Piece :=
  splitSentences u { a with buf := a.buf ++ t }

/-! ## Fences -/

/-- What follows a closing fence on its line, if the line `stripped` is one. -/
def closingFenceRest (stripped : Text) : Option Text :=
  let run := stripped.takeWhile (· = tick)
  let rest := stripped.drop run.length
  if !a.fenceOpenedLine || run.length < max a.fenceTicks 3 then none
  else if rest.head?.any (!isBlank ·) then none
  else some (pyStrip rest)

/-- The first run of three or more backticks that opens a fence: its offset and its
length. `blank`: the line so far is nothing but indent. -/
def openingFrom (blank : Bool) (pos : Nat) : Text → Option (Nat × Nat)
  | [] => none
  | c :: cs =>
    if c = tick then
      let run := 1 + (cs.takeWhile (· = tick)).length
      if 3 ≤ run ∧ blank then some (pos, run) else openingFrom false (pos + 1) cs
    else openingFrom (c = '\n' || (blank && isBlank c)) (pos + 1) cs

/-- The line of `buf` that `pending` goes on. -/
def openLine : Text := a.buf.rtakeWhile (· ≠ '\n')

/-- `fence_opening`. -/
def fenceOpening : Option (Nat × Nat) :=
  openingFrom (a.openLine.all isBlank) 0 a.pending

/-- How many trailing characters of `pending` could be the start of a fence. -/
def partialFenceTailLen : Nat :=
  if (ticks 2).isSuffixOf a.pending then 2 else if (ticks 1).isSuffixOf a.pending then 1 else 0

/-- The pieces of a prose fence's text: its paragraphs. -/
def prosePieces (t : Text) : List Piece :=
  let paras := splitPara t
  (paragraphs u 0 paras.1).1 ++ (sentencesOf u (stabilizeOrdinals u paras.2) false).1

/-- `close_fence`: the closed fence's pieces, then a paragraph break. -/
def closeFence : Assembler × List Piece :=
  ({ a with fenceTicks := 0, fenceLang := [], fenceLines := [], inFence := false,
            fenceOpenedLine := false },
    if proseFence u a.fenceLang a.fenceLines then
      .info a.fenceLang :: prosePieces u (proseLines u a.fenceLines) ++ [.paragraphBreak]
    else [.code a.fenceLang a.fenceLines, .paragraphBreak])

/-- A complete line inside a fence. -/
def fenceLine (line : Text) : Assembler × List Piece :=
  let stripped := pyStrip line
  match a.closingFenceRest stripped with
  | some rest =>
    let r := a.closeFence u
    ({ r.1 with pending := if rest = [] then r.1.pending else rest ++ '\n' :: r.1.pending }, r.2)
  | none =>
    if !a.fenceOpenedLine && line.contains tick then
      -- Inline code, not a fence: an info string has no backtick.
      { a with inFence := false }.takeProse u (ticks a.fenceTicks ++ line ++ ['\n'])
    else if !a.fenceOpenedLine then ({ a with fenceLang := stripped, fenceOpenedLine := true }, [])
    else ({ a with fenceLines := a.fenceLines ++ [line] }, [])

/-- The last line of a fence that nothing closed; whether the scan goes on. -/
def fenceTail (tail : Text) : Assembler × List Piece × Bool :=
  let stripped := pyStrip tail
  if !a.fenceOpenedLine && tail.contains tick then
    let r := { a with inFence := false }.takeProse u (ticks a.fenceTicks ++ tail)
    (r.1, r.2, false)
  else
    match a.closingFenceRest stripped with
    | some rest =>
      let r := a.closeFence u
      ({ r.1 with pending := rest }, r.2, rest ≠ [])
    | none =>
      let b := if stripped = [] then a
        else if a.fenceOpenedLine then { a with fenceLines := a.fenceLines ++ [tail] }
        else { a with fenceLang := stripped }
      let r := b.closeFence u
      (r.1, r.2, false)

/-- A fence opens at `pos`, behind the prose before it; whether the scan goes on. -/
def openFence (force : Bool) (pos run : Nat) : Assembler × List Piece × Bool :=
  let prose := a.pending.take pos
  if pos + run = a.pending.length ∧ !force then
    -- The run may still grow.
    let r := { a with pending := a.pending.drop pos }.takeProse u prose
    (r.1, r.2, false)
  else
    let r := { a with pending := a.pending.drop (pos + run), fenceTicks := run }.takeProse u prose
    -- The fence is a hard boundary: the lead-in is complete.
    let f := r.1.flushProse u
    ({ f.1 with inFence := true, fenceOpenedLine := false, fenceLang := [], fenceLines := [] },
      r.2 ++ f.2, true)

/-- No fence opens in `pending`: it is prose, but for a partial fence marker. -/
def commitProse (force : Bool) : Assembler × List Piece :=
  let keep := if force then 0 else a.partialFenceTailLen
  let commit := a.pending.take (a.pending.length - keep)
  let b := { a with pending := a.pending.drop (a.pending.length - keep) }
  if commit = [] ∧ !force then (b, []) else b.takeProse u commit

/-- One round of the scan; whether it goes on. -/
def scan (force : Bool) : Assembler × List Piece × Bool :=
  if a.inFence then
    match cutLine a.pending with
    | some (line, rest) =>
      let r := { a with pending := rest }.fenceLine u line
      (r.1, r.2, true)
    | none =>
      if force then { a with pending := [] }.fenceTail u a.pending else (a, [], false)
  else
    match a.fenceOpening with
    | some (pos, run) => a.openFence u force pos run
    | none =>
      let r := a.commitProse u force
      (r.1, r.2, false)

/-- At most `n` rounds. -/
def rounds (force : Bool) : (n : Nat) → Assembler → Assembler × List Piece
  | 0, a => (a, [])
  | n + 1, a =>
    let r := a.scan u force
    if r.2.2 then
      let r' := rounds force n r.1
      (r'.1, r.2.1 ++ r'.2)
    else (r.1, r.2.1)

/-- Scan `pending` for fence boundaries. -/
def consume (force : Bool) : Assembler × List Piece :=
  rounds u force (a.pending.length + 1) a

/-! ## Blocks -/

/-- Everything left of the block. -/
def drain : Assembler × List Piece :=
  let r := a.consume u true
  let f := r.1.flushProse u
  (f.1, r.2 ++ f.2)

/-- Clear the block; whether the last chunk out was a break carries on. -/
def reset : Assembler := { lastBreak := a.lastBreak }

/-- `finish`: the block's final. -/
def finish (index : Nat) : Assembler × List Piece :=
  let r := a.drain u
  ({ r.1.reset with done := some (index, r.1.seen) }, r.2)

/-- A delta that missed its block's final and was not read yet. -/
def isMissed (index : Nat) : Bool :=
  match a.done with
  | some (final, had) => 0 < index && index < final && index ∉ had
  | none => false

/-- A delta of the block, once the block is known. -/
def addDelta (delta : Text) (index : Nat) (fin : Bool) : Assembler × List Piece :=
  if index ∈ a.seen then
    -- A duplicate index still honors a final.
    if fin then a.finish u index else (a, [])
  else
    let r := { a with seen := insert index a.seen, pending := a.pending ++ delta }.consume u false
    if fin then
      let f := r.1.finish u index
      (f.1, r.2 ++ f.2)
    else r

/-- `feed_block`: one delta. -/
def feedBlock (delta : Text) (index : Nat) (fin : Bool) : Assembler × List Piece :=
  if a.isMissed index then
    { a with pending := a.pending ++ delta,
             done := a.done.map fun (d : Nat × Finset Nat) => (d.1, insert index d.2) }.drain u
  else
    let a := { a with done := none }
    if index = 0 ∧ a.seen ≠ ∅ then
      -- A new block restarts at index 0; a lost final would leave the old one's tail.
      let r := a.drain u
      let f := r.1.reset.addDelta u delta index fin
      (f.1, r.2 ++ f.2)
    else a.addDelta u delta index fin

/-- No two breaks in a row: the chunks kept, and whether the last one was a break. -/
def keepBreaks (last : Bool) : List Chunk → List Chunk × Bool
  | [] => ([], last)
  | c :: cs =>
    let brk := decide (c = .paragraphBreak)
    let r := keepBreaks brk cs
    (if brk && last then r.1 else c :: r.1, r.2)

/-- `feed`: one delta, its chunks. -/
def feed (s : Speech) (delta : Text) (index : Nat) (fin : Bool) : Assembler × List Chunk :=
  let r := a.feedBlock s.toUnicode delta index fin
  let kept := keepBreaks a.lastBreak (r.2.flatMap (voice s))
  ({ r.1 with lastBreak := kept.2 }, kept.1)

end Assembler

end Sonara.Prose
