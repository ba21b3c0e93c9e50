import Sonara.Lib.Along
import Sonara.Pausing.Pauser

/-!
# Runs of the pauser

What stands outside the process is the file and the clock, and the sessions that were paused and
have not played again (`owed`). It is what the effects made of it: a session stops being owed when
it plays, on its own or resumed, and when it is gone or does not say its name or its state. The
oldest time the file has had since the pause is kept beside it (`kept`).

A run goes from operation to operation. A crash cuts an operation after any number of its
effects, and the next process begins with the startup sweep, which can be cut as well.
-/

namespace Sonara.Pausing

open Lib

/-- A session that was paused and has not played again. -/
structure Owed where
  session : Session
  app : Text
  /-- When it was paused. -/
  since : Nat
  /-- The oldest of that time and those the file has had since then: a sweep may read any of
  them, and applies it to all apps of the record. -/
  kept : Nat
  deriving DecidableEq, Repr

structure Outside where
  file : Option StateFile := none
  now : Nat := 0
  owed : List Owed := []
  /-- The sessions this process paused. -/
  mine : List Session := []
  /-- This process read a record. -/
  swept : Bool := false
  deriving DecidableEq, Repr

namespace Outside

variable (w : Outside)

/-- The sessions that `gone` holds of are owed no more. -/
def settle (gone : Owed → Bool) : Outside := { w with owed := w.owed.filter fun o => !gone o }

def step (w : Outside) : Effect → Outside
  | .write apps time =>
    { w with
      file := some { apps := apps, time := some time }
      owed := w.owed.map fun o => { o with kept := min o.kept time } }
  | .clear => { w with file := none }
  | .read => { w with swept := true }
  | .listed wanted sessions =>
    w.settle fun o => wanted.contains o.app && !sessions.contains o.session
  | .named wanted s app =>
    w.settle fun o => o.session == s && wanted.contains o.app && app != some o.app
  | .asked s playing => w.settle fun o => o.session == s && playing == some true
  | .checked s playing => w.settle fun o => o.session == s && playing != some false
  | .pause s app answer =>
    if answer.saves then
      let kept := ((w.file.bind (·.time)).map (min w.now)).getD w.now
      let o := { session := s, app := app, since := w.now, kept := kept }
      { w with
        owed := o :: w.owed.filter fun o => !(o.session == s)
        mine := s :: w.mine }
    else w
  | .play s ok => w.settle fun o => o.session == s && ok
  | .wait secs => { w with now := w.now + secs }

abbrev after (es : List Effect) : Outside := Lib.after step w es

theorem after_append (es es' : List Effect) : w.after (es ++ es') = (w.after es).after es' :=
  Lib.after_append

end Outside

inductive Op where
  | pause (a : MediaPauser.PauseAnswers)
  | resume (a : MediaPauser.ResumeAnswers)
  | recover (a : MediaPauser.RecoverAnswers)

/-- An operation at a point of a run. -/
def MediaPauser.run (p : MediaPauser) (w : Outside) : Op → List Effect × MediaPauser
  | .pause a => p.pause a w.now
  | .resume a => p.resume a w.now
  | .recover a => p.recover a w.file w.now

structure System where
  out : Outside := {}
  /-- The pauser of the process that runs. -/
  pauser : Option MediaPauser := none
  deriving DecidableEq, Repr

/-- An operation comes to its end, or the process crashes after `cut` effects of it. -/
inductive Event where
  | wait (secs : Nat)
  | call (op : Op) (cut : Option Nat)
  /-- A process begins with the startup sweep. -/
  | start (a : MediaPauser.RecoverAnswers) (cut : Option Nat)

namespace System

/-- The world as a process finds it that has done nothing yet. -/
def fresh (w : Outside) : Outside := { w with mine := [], swept := false }

def perform (w : Outside) (r : List Effect × MediaPauser) : Option Nat → System
  | none => { out := w.after r.1, pauser := some r.2 }
  | some cut => { out := w.after (r.1.take cut), pauser := none }

def step (s : System) : Event → System
  | .wait secs => { s with out := s.out.step (.wait secs) }
  | .call op cut =>
    match s.pauser with
    | some p => perform s.out (p.run s.out op) cut
    | none => s
  | .start a cut =>
    match s.pauser with
    | some _ => s
    | none => perform (fresh s.out) (({} : MediaPauser).run (fresh s.out) (.recover a)) cut

def run (s : System) (events : List Event) : System := events.foldl step s

/-- Before the first process: a record may be left, and nothing is owed. -/
def initial (file : Option StateFile) (now : Nat) : System :=
  { out := { file := file, now := now } }

end System

/-! ## What every point of a run keeps -/

/-- The file has the app, with a time that is not before the one kept. -/
def Owed.Recorded (o : Owed) (w : Outside) : Prop :=
  ∃ apps time, w.file = some { apps := apps, time := some time } ∧ o.app ∈ apps ∧ o.kept ≤ time

/-- The app is among the resumes that failed, with this session or with none. -/
def Owed.Pending (o : Owed) (p : MediaPauser) : Prop :=
  ∃ q ∈ p.pending, q.app = o.app ∧ (q.session = some o.session ∨ q.session = none) ∧ o.kept ≤ q.time

def Owed.Saved (o : Owed) (p : MediaPauser) : Prop :=
  (o.session, o.app) ∈ p.saved ∧ o.kept ≤ p.since

/-- What is owed is of age, or `P` holds of it. -/
def Outside.Owes (w : Outside) (P : Owed → Prop) : Prop :=
  ∀ o ∈ w.owed, expired o.kept w.now = false → P o

/-- A crash here loses nothing. -/
def Outside.Safe (w : Outside) : Prop := w.Owes fun o => o.Recorded w

structure MediaPauser.Inv (p : MediaPauser) (w : Outside) : Prop where
  safe : w.Safe
  held : w.Owes fun o => o.Saved p ∨ o.Pending p
  /-- Nothing is saved but by the current pause. -/
  idle : p.paused = false → p.saved = []

/-- As long as no record was read, all that is known was paused by this process. -/
structure MediaPauser.Own (p : MediaPauser) (w : Outside) : Prop where
  saved : w.swept = false → ∀ h ∈ p.saved, h.1 ∈ w.mine
  pending : w.swept = false → ∀ q ∈ p.pending, ∃ s ∈ w.mine, q.session = some s

end Sonara.Pausing
