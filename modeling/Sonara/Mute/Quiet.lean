import Mathlib.Logic.Function.Basic
import Sonara.Lib.System

/-!
# One mute change at a time (`quiet.rs`)

Sonara is muted while the reader is muted or the agent's mute level is 1 or 2, and then
the hold keeps the external engines from sending anything. Every caller that changes the
mute runs inside `Quiet::change`: it takes `changing`, raises the hold when what it is
about to set mutes (`hold_now`), makes its one call of the reader or the agent, and lets
the change go, whose drop makes the hold follow the truth before the lock opens again.

Each of these is a step of its own here, and the steps of any number of threads come in
any order. A call that is refused (the runtime is exiting, no agent, a bad value) is a
change that sets nothing. The reader can stop answering at any time.

The `set` lock, the admission lock and the spoken cues are left out: nothing of the hold
is read or written by them, and a thread that waits for one takes no step here.
-/

namespace Sonara.Mute

abbrev Thread := Nat

/-- A press of the mute hotkey. -/
inductive Press where
  | tap
  | hold
  deriving DecidableEq, Repr

/-- `next_mute_level`: the mute level after a press. -/
def nextMuteLevel : Nat → Press → Nat
  | 2, _ => 0
  | 1, .tap => 0
  | 0, .tap => 1
  | _, .hold => 2
  | _, _ => 0

/-- Who changes the mute. -/
inductive Caller where
  /-- `set mute_level`; `value` is what `as_u64` makes of the value. -/
  | setLevel (value : Option Nat)
  /-- `control mute` and `control unmute` over the protocol. -/
  | control (mute : Bool)
  /-- The mute hotkey. -/
  | hotkey (press : Press)
  /-- `Quiet::sync`: nothing is set, the hold only follows. -/
  | sync
  deriving DecidableEq, Repr

/-- The one call a change makes. -/
inductive Target where
  /-- `Agent::set_mute_level`. -/
  | level (n : Nat)
  /-- `ReaderHandle::control` with `Mute` or `Unmute`. -/
  | reader (mute : Bool)
  /-- No call: it was refused before. -/
  | nothing
  deriving DecidableEq, Repr

/-- What the call sets is a mute. -/
def Target.mutes : Target → Bool
  | .level n => decide (1 ≤ n)
  | .reader mute => mute
  | .nothing => false

/-- Where a thread stands. -/
inductive Phase where
  | outside
  /-- It has `changing`. -/
  | started (caller : Caller)
  /-- It knows what to call, and whether to hold before. -/
  | chosen (hold : Bool) (target : Target)
  /-- `hold_now` is behind it. -/
  | raised (target : Target)
  /-- The call is behind it; the `Change` drops. -/
  | dropping
  /-- `follow` has what the reader said. -/
  | told (reader : Bool)
  /-- `follow` has what it will set. -/
  | knows (muted : Bool)
  /-- The hold is set; the lock is still taken. -/
  | followed
  deriving DecidableEq, Repr

/-- What the callers share, and where each stands. -/
structure World where
  /-- The reader is muted. -/
  muted : Bool
  /-- The reader answers. -/
  readable : Bool
  /-- The agent's mute level; none without the agent. -/
  level : Option Nat
  /-- `Hold::is_held`. -/
  held : Bool
  /-- The thread that has `changing`. -/
  changing : Option Thread
  phase : Thread → Phase

namespace World

/-- The truth the hold follows. -/
def isMuted (w : World) : Bool := w.muted || w.level.any (fun n => decide (1 ≤ n))

/-- What a caller is about to do, from what it reads inside its change: whether to hold,
and its call. -/
def choose (w : World) : Caller → Bool × Target
  | .setLevel value =>
    (value.any (fun n => decide (1 ≤ n)),
      match value.filter (fun n => decide (n ≤ 2)) with
      | some n => .level n
      | none => .nothing)
  | .control mute => (mute, .reader mute)
  | .hotkey press =>
    match w.level with
    | some level =>
      let next := nextMuteLevel level press
      (decide (1 ≤ next), .level next)
    | none =>
      -- a reader that does not answer counts as not muted
      let muted := w.readable && w.muted
      (!muted, .reader (!muted))
  | .sync => (false, .nothing)

/-- The call of the change, if it is not refused. -/
def call (w : World) : Target → World
  | .level n => { w with level := w.level.map fun _ => n }
  | .reader mute => { w with muted := if w.readable then mute else w.muted }
  | .nothing => w

def goto (w : World) (t : Thread) (a : Phase) : World :=
  { w with phase := Function.update w.phase t a }

end World

/-- A step of a thread, or of the reader. -/
inductive Event where
  /-- `change()` returns. -/
  | start (t : Thread) (caller : Caller)
  | choose (t : Thread)
  /-- `hold_now`, when the change mutes. -/
  | raise (t : Thread)
  /-- The call, or its refusal. -/
  | call (t : Thread) (admitted : Bool)
  /-- `follow` asks the reader. -/
  | askReader (t : Thread)
  /-- `follow` asks the agent. -/
  | askAgent (t : Thread)
  /-- `follow` sets the hold. -/
  | follow (t : Thread)
  /-- The guard of `changing` drops. -/
  | release (t : Thread)
  /-- The reader shuts down. -/
  | close
  deriving DecidableEq, Repr

/-- One step. -/
def step (w : World) : Event → Option World
  | .start t caller =>
    if w.changing = none ∧ w.phase t = .outside then
      some ({ w with changing := some t }.goto t (.started caller))
    else none
  | .choose t =>
    match w.phase t with
    | .started caller => some (w.goto t (.chosen (w.choose caller).1 (w.choose caller).2))
    | _ => none
  | .raise t =>
    match w.phase t with
    | .chosen hold target => some ({ w with held := hold || w.held }.goto t (.raised target))
    | _ => none
  | .call t admitted =>
    match w.phase t with
    | .raised target => some ((if admitted then w.call target else w).goto t .dropping)
    | _ => none
  | .askReader t =>
    match w.phase t with
    -- a reader that does not answer counts as it was
    | .dropping => some (w.goto t (.told (if w.readable then w.muted else w.held)))
    | _ => none
  | .askAgent t =>
    match w.phase t with
    | .told reader =>
      some (w.goto t (.knows (reader || w.level.any (fun n => decide (1 ≤ n)))))
    | _ => none
  | .follow t =>
    match w.phase t with
    | .knows muted => some ({ w with held := muted }.goto t .followed)
    | _ => none
  | .release t =>
    match w.phase t with
    | .followed => some ({ w with changing := none }.goto t .outside)
    | _ => none
  | .close => some { w with readable := false }

/-- The host has started: the hold follows what was loaded, and no change is under way. -/
structure Started (w : World) : Prop where
  readable : w.readable = true
  follows : w.held = w.isMuted
  free : w.changing = none
  outside : ∀ t, w.phase t = .outside

/-- The callers and the reader, in any order. -/
def quiet : Lib.System World Event where
  init := Started
  step := step

end Sonara.Mute
