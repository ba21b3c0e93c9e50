import Mathlib.Data.Finset.Basic
import Std.Data.ExtTreeMap
import Sonara.Strings

/-!
# The deltas of a block in index order (`DeltaOrder` of `rules.rs`, #286)

A delta whose index is the next one goes on at once, with the held ones it
unblocks; one ahead of a missing index is held. What is held is released in index
order without the missing ones, which are then given up (`skipped`). A delta behind
the expected index goes on at once.
-/

namespace Sonara.L3

open Sonara

/-- A delta ready for the assembler. -/
structure Delta where
  text : Text
  index : Nat
  fin : Bool
  deriving DecidableEq, Repr

structure DeltaOrder where
  /-- The index the block expects next (0: a new block). -/
  next : Nat := 0
  /-- Deltas that arrived ahead of a missing one. -/
  ahead : Std.ExtTreeMap Nat (Text × Bool) := ∅
  gen : Nat := 0
  /-- The indices given up when held deltas went without them. -/
  skipped : Finset Nat := ∅

namespace DeltaOrder

variable (o : DeltaOrder)

/-- The index behind a delta. -/
def after (index : Nat) (fin : Bool) : Nat := if fin then 0 else index + 1

/-- The missing indices below the highest held one. -/
def missing : List Nat :=
  ((List.range (o.ahead.maxKey?.getD 0)).filter fun i => o.next ≤ i && i ∉ o.ahead)

/-- The held deltas, in index order. -/
def held : List Delta := o.ahead.toList.map fun p => ⟨p.2.1, p.1, p.2.2⟩

/-- Everything held, in index order, the missing ones skipped. -/
def release : DeltaOrder × List Delta :=
  let out := o.held
  ({ next := out.foldl (fun _ d => after d.index d.fin) o.next
     ahead := ∅
     gen := if out = [] then o.gen else o.gen + 1
     skipped := o.skipped ∪ o.missing.toFinset }, out)

/-- The held deltas that follow on the expected index, at most `n`. -/
def follow : (n : Nat) → DeltaOrder → DeltaOrder × List Delta
  | 0, o => (o, [])
  | n + 1, o =>
    match o.ahead[o.next]? with
    | some (text, fin) =>
      let r := follow n { o with next := after o.next fin, ahead := o.ahead.erase o.next }
      (r.1, ⟨text, o.next, fin⟩ :: r.2)
    | none => (o, [])

/-- The next block starts: what the old one held goes first, and the indices it gave
up are no longer late ones. -/
def startBlock (index : Nat) : DeltaOrder × List Delta :=
  if index = 0 then
    let r := if 0 < o.next then o.release else (o, [])
    ({ r.1 with next := 0, skipped := ∅ }, r.2)
  else (o, [])

/-- The expected delta, with what it unblocks. -/
def expected (d : Delta) : DeltaOrder × List Delta :=
  let r := follow o.ahead.size { o with next := after d.index d.fin,
                                         skipped := o.skipped.erase d.index }
  ({ r.1 with gen := if r.1.ahead.isEmpty then r.1.gen + 1 else r.1.gen }, d :: r.2)

/-- Take one delta: the deltas ready now, in order, and whether a new gap began. -/
def accept (d : Delta) : DeltaOrder × List Delta × Bool :=
  let s := o.startBlock d.index
  let o := s.1
  let late := d.index ≠ o.next ∧ d.index ∈ o.skipped
  let o := if late then { o with skipped := o.skipped.erase d.index } else o
  if d.index < o.next ∨ d.index ∈ o.ahead ∨ late then
    -- Behind the gap, or a second delta with a held index: at once, after what is held.
    let r := o.release
    (r.1, s.2 ++ r.2 ++ [d], false)
  else if o.next < d.index then
    ({ o with ahead := o.ahead.insert d.index (d.text, d.fin) }, s.2, o.ahead.isEmpty)
  else
    let r := o.expected d
    (r.1, s.2 ++ r.2, false)

end DeltaOrder

end Sonara.L3
