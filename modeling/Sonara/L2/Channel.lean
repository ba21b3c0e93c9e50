import Sonara.CodeSpeech
import Mathlib.Algebra.GroupWithZero.Nat
import Mathlib.Data.Finset.Basic
import Mathlib.Logic.Function.Basic

/-!
# A channel of the L2 router (`router.rs`, `Channel`)

One named source: its current batch with the read cursor over it, the entries set
aside and the decision marks. Entry ids and `gen` are `u64` counters that only
count up, so they are natural numbers. The `HashMap` of decision marks is a
function to `Option` and the sets are `Finset`s.
-/

namespace Sonara.L2

open Sonara (Text)

/-- A channel's id, as its client names it. -/
abbrev ChannelId := String

/-- How a channel treats a new entry. -/
inductive Policy where
  /-- The new entry replaces the channel's unread entries. -/
  | latest
  /-- The new entry is read after the channel's unread entries. -/
  | queue
  deriving DecidableEq, Repr

/-- One text pushed into a channel. -/
structure Entry where
  id : Nat
  text : Text
  label : Option String
  deriving DecidableEq, Repr

/-- Which decision entries `dropDecisions` takes out. -/
inductive Resolved where
  | all
  /-- The ones read aloud, not stored ones and never unread ones. -/
  | heard
  /-- The ones read or stored, never unread ones. -/
  | settled
  deriving DecidableEq, Repr

/-- `which` names a decision entry that was stored or not, read or not. -/
def Resolved.goes (which : Resolved) (read stored : Bool) : Bool :=
  match which with
  | .all => true
  | .heard => read && !stored
  | .settled => read

/-- One named source and its current batch. -/
structure Channel where
  id : ChannelId
  label : Option String
  hostTab : Option String
  policy : Policy
  entries : List Entry
  /-- Index of the next entry to read. -/
  cursor : Nat
  /-- Content generation: bumped by every push. -/
  gen : Nat
  /-- A manual replay is in progress. -/
  replaying : Bool
  muted : Bool
  /-- An agent batch: a push while caught up appends to it. -/
  growing : Bool
  /-- Entries of the batch that are decisions, each with whether it was stored. -/
  decisions : Nat → Option Bool
  /-- L3 wrote into this channel. -/
  agent : Bool
  /-- Entries set aside: passed over by the cursor, not unread. -/
  aside : Finset Nat

namespace Channel

/-- A channel without a batch. -/
def new (id : ChannelId) (label hostTab : Option String) (policy : Policy) : Channel where
  id := id
  label := label
  hostTab := hostTab
  policy := policy
  entries := []
  cursor := 0
  gen := 0
  replaying := false
  muted := false
  growing := false
  decisions := fun _ => none
  agent := false
  aside := ∅

/-- The unread entries, in order, without the ones set aside. -/
def unread (c : Channel) : List Entry := (c.entries.drop c.cursor).filter (fun e => e.id ∉ c.aside)

/-- `pending`: how many entries are unread. -/
def pending (c : Channel) : Nat := c.unread.length

/-- `caught_up`. -/
def caughtUp (c : Channel) : Bool := c.pending == 0

/-- `push`: add `entry`. A caught-up channel starts a new batch unless its last
entry is still being read. -/
def push (c : Channel) (entry : Entry) (replace front reading : Bool) : Channel :=
  let c :=
    if replace || (c.caughtUp && !reading && !c.growing) then
      { c with entries := [], decisions := fun _ => none, aside := ∅, cursor := 0 }
    else c
  let pos := if front then c.cursor else c.entries.length
  { c with entries := c.entries.insertIdx pos entry, gen := c.gen + 1, replaying := false }

/-- `take`: pass over the entries set aside and take the next one. -/
def take (c : Channel) : Channel × Option Entry :=
  let passed := ((c.entries.drop c.cursor).takeWhile (fun e => e.id ∈ c.aside)).length
  let c := { c with cursor := c.cursor + passed }
  match c.entries[c.cursor]? with
  | none => (c, none)
  | some e => ({ c with cursor := c.cursor + 1 }, some e)

/-- `skip_to_end`: mark every unread entry read. -/
def skipToEnd (c : Channel) : Channel := { c with cursor := c.entries.length }

/-- The loop of `drop_decisions` over the entries from index `kept.length` on;
`kept` are the ones before it that stay. Returns the unread ones taken out too. -/
def dropLoop (which : Resolved) (c : Channel) : List Entry → List Entry → Channel × List Entry
  | kept, [] => ({ c with entries := kept }, [])
  | kept, e :: rest =>
    let before : Bool := kept.length < c.cursor
    if (c.decisions e.id).any (fun stored => which.goes before stored) then
      let c := { c with
        decisions := Function.update c.decisions e.id none
        aside := c.aside.erase e.id
        cursor := if before then c.cursor - 1 else c.cursor }
      let (c, unread) := dropLoop which c kept rest
      (c, if before then unread else e :: unread)
    else dropLoop which c (kept ++ [e]) rest

/-- `drop_decisions`: remove the decision entries `which` names from the batch. -/
def dropDecisions (c : Channel) (which : Resolved) : Channel × List Entry :=
  dropLoop which c [] c.entries

/-- `rewind`: step back over `entry` if it is the one just taken. -/
def rewind (c : Channel) (entry : Nat) : Channel × Bool :=
  if 0 < c.cursor ∧ (c.entries[c.cursor - 1]?).any (fun e => e.id == entry) then
    ({ c with cursor := c.cursor - 1 }, true)
  else (c, false)

/-! ## What the operations leave alone -/

@[simp] theorem push_id (c : Channel) (e : Entry) (replace front reading : Bool) :
    (c.push e replace front reading).id = c.id := by
  unfold push
  dsimp only
  split <;> rfl

@[simp] theorem push_muted (c : Channel) (e : Entry) (replace front reading : Bool) :
    (c.push e replace front reading).muted = c.muted := by
  unfold push
  dsimp only
  split <;> rfl

/-- `take` moves only the cursor. -/
theorem take_eq (c : Channel) : ∃ n, c.take.1 = { c with cursor := n } := by
  unfold take
  dsimp only
  split
  · exact ⟨_, rfl⟩
  · exact ⟨_, rfl⟩

/-- The loop of `dropDecisions` changes the batch, its marks and the cursor. -/
theorem dropLoop_eq (which : Resolved) (rest : List Entry) (c : Channel) (kept : List Entry) :
    ∃ es n d a, (dropLoop which c kept rest).1 =
      { c with entries := es, cursor := n, decisions := d, aside := a } := by
  induction rest generalizing c kept with
  | nil => exact ⟨kept, c.cursor, c.decisions, c.aside, rfl⟩
  | cons e rest ih =>
    unfold dropLoop
    dsimp only
    split
    · obtain ⟨es, n, d, a, h⟩ := ih { c with
        decisions := Function.update c.decisions e.id none
        aside := c.aside.erase e.id
        cursor := if (decide (kept.length < c.cursor)) = true then c.cursor - 1 else c.cursor } kept
      exact ⟨es, n, d, a, h⟩
    · exact ih c (kept ++ [e])

theorem dropDecisions_eq (c : Channel) (which : Resolved) :
    ∃ es n d a, (c.dropDecisions which).1 =
      { c with entries := es, cursor := n, decisions := d, aside := a } :=
  dropLoop_eq which c.entries c []

theorem rewind_eq (c : Channel) (entry : Nat) :
    ∃ n, (c.rewind entry).1 = { c with cursor := n } := by
  unfold rewind
  split
  · exact ⟨_, rfl⟩
  · exact ⟨c.cursor, rfl⟩

/-! ## Taking the next entry -/

/-- The first entry of `l` that satisfies `p` stands behind the ones that do not. -/
theorem getElem?_takeWhile_length {l : List Entry} {p : Entry → Bool} {e : Entry}
    {es : List Entry} (h : l.filter p = e :: es) :
    l[(l.takeWhile (fun x => !p x)).length]? = some e := by
  induction l with
  | nil => cases h
  | cons x l ih =>
    by_cases hp : p x
    · rw [List.filter_cons_of_pos hp] at h
      obtain ⟨rfl, -⟩ := List.cons.inj h
      simp [hp]
    · rw [List.filter_cons_of_neg hp] at h
      simpa [hp] using ih h

/-- `take` returns the first unread entry. -/
theorem take_unread {c : Channel} {e : Entry} {es : List Entry} (h : c.unread = e :: es) :
    c.take.2 = some e := by
  have hget := getElem?_takeWhile_length h
  have hpass : (fun x : Entry => !decide (x.id ∉ c.aside)) = fun x => decide (x.id ∈ c.aside) := by
    funext x
    by_cases hx : x.id ∈ c.aside <;> simp [hx]
  rw [hpass, List.getElem?_drop] at hget
  unfold take
  dsimp only
  rw [hget]

/-- A channel with unread entries has a first one. -/
theorem unread_of_pending {c : Channel} (h : 0 < c.pending) : ∃ e es, c.unread = e :: es :=
  List.exists_cons_of_length_pos h

end Channel

end Sonara.L2
