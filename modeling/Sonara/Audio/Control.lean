import Sonara.CodeSpeech
import Sonara.Lib.System

/-!
# Other apps' audio while speech plays (`audio.rs`)

One worker engages (ducks or pauses the other apps) while an item is read and restores them
after: at once, or when the reader has been idle for a grace. A client changes the status and
then sends the command for it, so the status may be ahead of the commands that wait.

Of the platform only what its calls come to is here: `Ducker::duck` and `MediaPauser::pause` list
the sessions, or cannot, and change some. What a restore cannot put back waits in records that
neither `is_ducked` nor `is_paused` looks at, and the worker's log lines change nothing.
-/

namespace Sonara.Audio

/-- Other apps' audio while Sonara speaks. -/
inductive AudioMode where
  | off
  | duck
  | pause
  deriving DecidableEq, Repr

/-- What the reader is doing. -/
inductive Activity where
  /-- Nothing to read. -/
  | idle
  /-- An item is current but silent (paused or muted). -/
  | held
  /-- Waiting at a code line in step mode. -/
  | stepping
  /-- An item is being read aloud. -/
  | speaking
  deriving DecidableEq, Repr

def secs (n : Nat) : Nat := n * 1000000000

/-- How long a step-mode wait at a code line keeps other apps as they are. -/
def stepGrace : Nat := secs 30

def defaultDuckLevel : Nat := 30

/-- What a call over all sessions came to: they could not be listed, or each was tried. -/
abbrev Tried := Option (List (Text × Bool))

/-- The apps of the sessions that were changed. -/
def Tried.changed (t : Tried) : List Text := ((t.getD []).filter Prod.snd).map Prod.fst

structure Ducker where
  /-- The apps of the sessions the current duck lowered. -/
  saved : List Text := []
  ducked : Bool := false
  deriving DecidableEq, Repr

/-- Lower the sessions. A no-op while ducked; when they cannot be listed and none was lowered it
stays un-ducked, so the next call retries. -/
def Ducker.duck (d : Ducker) (t : Tried) : Ducker :=
  if d.ducked then d else { saved := t.changed, ducked := t.isSome || !t.changed.isEmpty }

/-- Put every lowered session back. -/
def Ducker.restore (_ : Ducker) : Ducker := {}

structure Pauser where
  /-- The apps of the sessions the current pause paused. -/
  saved : List Text := []
  paused : Bool := false
  deriving DecidableEq, Repr

/-- Pause the sessions. A no-op while paused, and when they cannot be listed. -/
def Pauser.pause (p : Pauser) (t : Tried) : Pauser :=
  if p.paused then p
  else if t.isSome then { saved := t.changed, paused := true }
  else p

def Pauser.resume (_ : Pauser) : Pauser := {}

structure Status where
  mode : AudioMode := .off
  duckLevel : Nat := defaultDuckLevel
  armed : Bool := false
  activity : Activity := .idle
  ducked : Bool := false
  paused : Bool := false
  deriving DecidableEq, Repr

inductive Cmd where
  | activity (a : Activity)
  /-- The mode in the status changed. -/
  | mode
  | level (n : Nat)
  /-- The armed flag in the status changed. -/
  | arm
  /-- The startup crash sweep. -/
  | recover
  | sync
  | shutdown
  deriving DecidableEq, Repr

/-- A change of the status, before its command is sent. -/
inductive Change where
  | mode (m : AudioMode)
  | level (n : Nat)
  | arm (on : Bool)
  deriving DecidableEq, Repr

/-- `set_mode`, `set_duck_level` and `arm` update the status ... -/
def Change.update (s : Status) : Change → Status
  | .mode m => { s with mode := m }
  | .level n => { s with duckLevel := min n 100 }
  | .arm on => { s with armed := on }

/-- ... and then send a command. -/
def Change.cmd : Change → Cmd
  | .mode _ => .mode
  | .level n => .level (min n 100)
  | .arm _ => .arm

/-- The control, its channel and the worker. -/
structure World where
  idleGrace : Nat
  status : Status := {}
  ducker : Ducker := {}
  pauser : Pauser := {}
  /-- When the reader went idle while engaged (the grace runs from here). -/
  idleSince : Option Nat := none
  /-- The commands of changes that were made but not sent yet. -/
  unsent : List Cmd := []
  queue : List Cmd := []
  /-- No sender is left. -/
  closed : Bool := false
  /-- The worker has ended. -/
  done : Bool := false
  now : Nat := 0
  /-- When the worker was last told that the reader no longer speaks. -/
  stopped : Nat := 0
  deriving DecidableEq, Repr

namespace World

variable (w : World)

def engaged : Bool := w.ducker.ducked || w.pauser.paused

def publish : World :=
  { w with status := { w.status with ducked := w.ducker.ducked, paused := w.pauser.paused } }

/-- How long other apps stay engaged in this activity (`none`: restored at once). -/
def graceFor : Activity → Option Nat
  | .idle => some w.idleGrace
  | .stepping => some stepGrace
  | .held | .speaking => none

def restoreAll : World :=
  { w with
    ducker := if w.ducker.ducked then w.ducker.restore else w.ducker
    pauser := if w.pauser.paused then w.pauser.resume else w.pauser
    idleSince := none }

/-- Engage the backend of the mode, the other one restored. -/
def engage (t : Tried) : World :=
  match w.status.mode with
  | .duck =>
    { w with
      idleSince := none
      pauser := if w.pauser.paused then w.pauser.resume else w.pauser
      ducker := if w.ducker.ducked then w.ducker else w.ducker.duck t }
  | .pause =>
    { w with
      idleSince := none
      ducker := if w.ducker.ducked then w.ducker.restore else w.ducker
      pauser := if w.pauser.paused then w.pauser else w.pauser.pause t }
  | .off => { w with idleSince := none }

/-- The grace runs; when it is over the other apps come back. -/
def linger (wait : Nat) : World :=
  let since := w.idleSince.getD w.now
  if wait ≤ w.now - since then w.restoreAll else { w with idleSince := some since }

def want : Bool := w.status.armed && w.status.activity = .speaking && w.status.mode ≠ .off

/-- Bring the platform in line with the status. -/
def reconcile (t : Tried) : World :=
  let s := w.status
  (if w.want then w.engage t
    else if w.engaged then
      let wait := w.graceFor s.activity
      if s.armed && s.mode ≠ .off && wait.any (0 < ·) then w.linger (wait.getD 0) else w.restoreAll
    else { w with idleSince := none }).publish

/-- Re-apply the duck at a new level. -/
def relevel (t : Tried) : World :=
  if w.ducker.ducked then { w with ducker := w.ducker.restore.duck t } else w

/-- The worker learns what the reader does. -/
def follow (a : Activity) : World :=
  { w with
    status := { w.status with activity := a }
    stopped := if w.status.activity = .speaking ∧ a ≠ .speaking then w.now else w.stopped }

/-- A command is handled; `t` and `t'` are what the platform calls come to. -/
def handle (t t' : Tried) : Cmd → World
  | .activity a => (w.follow a).reconcile t
  | .mode => w.restoreAll.reconcile t
  | .level _ => (w.relevel t').reconcile t
  | .arm | .recover | .sync => w.reconcile t
  | .shutdown => { w.restoreAll.publish with done := true }

/-- When the worker stops waiting for a command. -/
def deadline : Option Nat :=
  w.idleSince.map fun since => since + (w.graceFor w.status.activity).getD w.idleGrace

end World

/-- What can happen. -/
inductive Event where
  /-- A client changes the status. -/
  | update (c : Change)
  /-- ... and sends its command. -/
  | send (c : Cmd)
  /-- A command that changes no status is sent. -/
  | post (c : Cmd)
  /-- The control goes away. -/
  | close
  /-- Time passes. -/
  | tick (d : Nat)
  /-- The worker takes a command. -/
  | handle (t t' : Tried)
  /-- The grace is over. -/
  | timeout (t : Tried)
  /-- The worker finds the channel closed. -/
  | disconnect
  deriving DecidableEq, Repr

def step (w : World) : Event → Option World
  | .update c => some { w with status := c.update w.status, unsent := c.cmd :: w.unsent }
  | .send c =>
    if c ∈ w.unsent then
      some { w with
        unsent := w.unsent.erase c
        queue := if w.closed then w.queue else w.queue ++ [c] }
    else none
  | .post c => some { w with queue := if w.closed then w.queue else w.queue ++ [c] }
  | .close => some { w with closed := true }
  | .tick d => some { w with now := w.now + d }
  | .handle t t' =>
    if w.done then none
    else match w.queue with
      | [] => none
      | c :: queue => some ({ w with queue := queue }.handle t t' c)
  | .timeout t => if w.done = false ∧ w.deadline.any (· ≤ w.now) then some (w.reconcile t) else none
  | .disconnect =>
    if w.done = false ∧ w.closed = true ∧ w.queue = [] then
      -- In a grace the worker ends without publishing what it restored.
      some { (if w.idleSince.isSome then w.restoreAll else w.restoreAll.publish) with done := true }
    else none

/-- The control as it starts: disarmed, mode off. -/
def audio : Lib.System World Event where
  init w := ∃ g, w = { idleGrace := g }
  step := step

end Sonara.Audio
