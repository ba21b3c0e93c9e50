import Sonara.L2.Channel
import Sonara.L3.Decision
import Sonara.L3.DeltaOrder
import Sonara.Lib.Reorder
import Sonara.Prose.Assembler

/-!
# The data of the rules (`rules.rs`, `settings.rs`, `earcon.rs`)

Channels, turn ids and lead-in ids are strings; generations, tokens and decision
ids count up from the rules' counters. Durations are milliseconds. A time stamp is
a rational number.

`Action.speak` and `Action.store` carry the id of the decision they voice where the
source has `decision: true`, so that a run can tell which decision was voiced.
-/

namespace Sonara.L3

open Sonara
open Sonara.L2 (ChannelId)

/-! ## Settings -/

inductive Verbosity where
  | everything
  | readCode
  | skipCode
  deriving DecidableEq, Repr

inductive ReadMode where
  | immediate
  | queue
  | done
  | final
  deriving DecidableEq, Repr

/-- `MUTE_LEVEL_MAX`. -/
def muteLevelMax : Nat := 2

structure SummarySettings where
  enabled : Bool := false
  timeoutS : Nat := 60
  settleMs : Nat := 600
  deriving DecidableEq, Repr

namespace SummarySettings

variable (s : SummarySettings)

def timeout : Nat := s.timeoutS * 1000

/-- How long a decision waits for its lead-in summary. -/
def holdCap : Nat := s.timeout + 5000

/-- When a turn-end summary still out is spoken raw. -/
def watchdog : Nat := s.timeout * 2

def settle : Nat := s.settleMs

end SummarySettings

structure Settings where
  muteLevel : Nat := 0
  verbosity : Verbosity := .everything
  readMode : ReadMode := .queue
  minqueue : Nat := 1
  summaries : SummarySettings := {}
  questionStep : Bool := false
  deriving DecidableEq, Repr

/-! ## Actions -/

inductive Earcon where
  | choice
  | permission
  | error
  | turnDone
  | nav
  | navEdge
  | sessionChange
  | summaryFailed
  | step
  deriving DecidableEq, Repr

/-- What an action's text is, for the troubleshooting log. -/
inductive Kind where
  | prose
  | question
  | permission
  | plan
  | tool
  | summary
  | review
  deriving DecidableEq, Repr

/-- One summarizer call. -/
structure Job where
  token : Nat
  channel : ChannelId
  gen : Nat
  text : Text
  leadin : Bool
  seq : Option Nat
  deriving DecidableEq, Repr

/-- A timer the rules asked for. -/
inductive Timer where
  | settle (channel : ChannelId) (gen : Nat)
  | holdCap (channel : ChannelId) (decision : Nat)
  | watchdog (seq : Nat)
  | gap (channel : ChannelId) (gen : Nat)
  | leadIn (channel : ChannelId) (gen : Nat)
  deriving DecidableEq, Repr

/-- What the driver carries out. -/
inductive Action where
  | speak (channel : ChannelId) (text : Text) (decision : Option Nat) (release : Bool) (kind : Kind)
  | earcon (e : Earcon)
  | wipe (channel : ChannelId) (resume : Bool)
  | store (channel : ChannelId) (text : Text) (decision : Option Nat) (kind : Kind)
  | silence
  | summarize (job : Job)
  | timer (after : Nat) (timer : Timer)
  deriving DecidableEq, Repr

/-! ## Asks and question sets -/

/-- An `ask`. -/
structure Ask where
  kind : AskKind
  text : Text
  options : List Choice := []
  multi : Bool := false
  notes : Option Text := none
  hint : Option Text := none
  hintOnce : Option Text := none
  set : Option (Nat × Nat) := none
  leadInPending : Bool := false
  leadInId : Option String := none
  deriving DecidableEq, Repr

/-- A step of the question navigation. -/
inductive Step where
  | next
  | previous
  deriving DecidableEq, Repr

/-- Where the question navigation lands. -/
structure Nav where
  entry : Nat
  text : Text
  index : Nat
  size : Nat
  edge : Bool
  deriving DecidableEq, Repr

/-- A question set: the questions' spoken bodies and the entry that shows it. -/
structure QuestionSet where
  size : Nat
  bodies : List (Option Text)
  texts : List (Option Text)
  reviewed : Bool := false
  notes : Option Text
  hint : Option Text
  hintOnce : Option Text
  current : Nat := 0
  entry : Option Nat := none
  heard : Bool := false
  deriving DecidableEq, Repr

/-- A question set read in order: the entries that speak the questions. -/
structure ReadSet where
  size : Nat
  texts : List (Option Text)
  entries : List (Option Nat)
  current : Nat := 0
  reviewed : Bool := false
  following : Bool := false
  deriving DecidableEq, Repr

/-- What the terminal shows of a question set. -/
inductive Shown where
  | text (t : Text)
  | review
  deriving DecidableEq, Repr

/-- What a question shown on screen asks of the driver. -/
inductive ShownMove where
  | land (nav : Nav)
  | entry (entry index size : Nat)
  | review
  deriving DecidableEq, Repr

/-! ## A channel's turn -/

/-- An accepted decision. Its text is never blank. -/
structure Decision where
  id : Nat
  text : Text
  kind : Kind
  spoken : Spoken text
  deriving DecidableEq

/-- A summary (or raw text) waiting for its turn to be spoken. -/
structure Release where
  channel : ChannelId
  gen : Nat
  text : Text
  leadin : Bool
  summary : Option Text
  deriving DecidableEq, Repr

/-- A question waiting for its late lead-in. -/
structure LeadInWait where
  gen : Nat
  id : Option String
  seen : List Text := []
  deriving DecidableEq, Repr

/-- Turn ids remembered per channel (`RETIRED_TURNS`). -/
def retiredTurns : Nat := 16

/-- One channel's turn state. -/
structure Turn where
  assembler : Prose.Assembler := {}
  /-- Start time of the last turn_start. -/
  t : Option Rat := none
  current : Option String := none
  retired : List String := []
  awaiting : Bool := false
  hinted : Bool := false
  questions : Option QuestionSet := none
  readSet : Option ReadSet := none
  leadIn : Option Text := none
  leadInWait : Option LeadInWait := none
  reply : Option (Text × Option Text) := none
  replied : Option Text := none
  /-- Held chunks, each with whether it starts a paragraph. -/
  heldProse : List (Text × Bool) := []
  newPara : Bool := false
  lastIndex : Option Nat := none
  order : DeltaOrder := {}
  released : Bool := false
  ended : Bool := false
  batchCut : Bool := false
  skipReply : Bool := false
  prose : List Text := []
  voiced : Nat := 0
  gen : Nat
  settleGen : Nat := 0
  settleArmed : Bool := false
  pending : List Decision := []
  /-- Decisions behind a summary in flight, with the owner's token. -/
  held : Option (Nat × List Decision) := none
  inflight : Nat := 0
  lastToken : Nat := 0

namespace Turn

variable (c : Turn)

/-- The prose kept for a summary and not yet voiced, now voiced as it is. -/
def takeKept : Turn × List (Text × Bool) :=
  ({ c with voiced := c.prose.length }, (c.prose.drop c.voiced).map fun t => (t, false))

/-- A message of an earlier turn. -/
def stale (turn : Option String) (t : Option Rat) : Bool :=
  (match t, c.t with
    | some t, some start => decide (t < start)
    | _, _ => false) ||
  turn.any (· ∈ c.retired)

/-- Cancel the channel's summary work. -/
def cancel (gen settleGen : Nat) : Turn :=
  { c with gen := gen, settleGen := settleGen, settleArmed := false, pending := [],
           leadInWait := none, held := none, inflight := 0, lastToken := 0 }

end Turn

end Sonara.L3
