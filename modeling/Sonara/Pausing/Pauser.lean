import Sonara.Strings

/-!
# Pausing other apps' media (`pausing.rs`)

`MediaPauser` pauses every media session that plays and resumes exactly those later. What it
owes is kept three times: the sessions of the current pause (`saved`), the resumes that failed
(`pending`), and a file with the apps of both for the runtime after a crash.

Each operation is given what the platform and the clock answer it, and returns the effects it
has outside in their order, so a crash leaves the first few of them. A session is the
platform's own object; the log lines are left out.
-/

namespace Sonara.Pausing

abbrev Session := Nat

/-- How long a resume that failed is retried, and how old a record the startup sweep still
resumes, in seconds. -/
def PENDING_MAX_AGE : Nat := 10 * 60

structure StateFile where
  apps : List Text
  /-- When the oldest entry was recorded (`at`). -/
  time : Option Nat
  deriving DecidableEq, Repr

def expired (time now : Nat) : Bool := decide (now - time > PENDING_MAX_AGE)

/-- A resume still owed: the session itself when known, or only the app. -/
structure Pending where
  session : Option Session
  app : Text
  time : Nat
  deriving DecidableEq, Repr

def unique (apps : List Text) : List Text :=
  apps.foldl (fun out a => if out.contains a then out else out ++ [a]) []

structure MediaPauser where
  /-- The sessions the current pause paused, with their app ids. -/
  saved : List (Session × Text) := []
  pending : List Pending := []
  /-- When the pause was recorded. -/
  since : Nat := 0
  paused : Bool := false
  deriving DecidableEq, Repr

/-- How a session answers `pause`. -/
inductive PauseAnswer where
  | ok
  | timedOut
  | failed
  deriving DecidableEq, Repr

/-- A session that answers late may pause after all: it is resumed like one that paused. -/
def PauseAnswer.saves : PauseAnswer → Bool
  | .ok => true
  | .timedOut => true
  | .failed => false

/-- What happens outside, with the answer. -/
inductive Effect where
  | write (apps : List Text) (time : Nat)
  | clear
  /-- The record is read. -/
  | read
  /-- The sessions there are, when those of the `wanted` apps are resumed. -/
  | listed (wanted : List Text) (sessions : List Session)
  /-- One of them gives its name, or does not. -/
  | named (wanted : List Text) (s : Session) (app : Option Text)
  /-- A listed session is asked whether it plays. -/
  | asked (s : Session) (playing : Option Bool)
  /-- A session known before is asked; no answer means that it is gone. -/
  | checked (s : Session) (playing : Option Bool)
  | pause (s : Session) (app : Text) (answer : PauseAnswer)
  | play (s : Session) (ok : Bool)
  /-- The clock goes on. -/
  | wait (secs : Nat)
  deriving DecidableEq, Repr

namespace MediaPauser

variable (p : MediaPauser)

/-- The oldest time of what is recorded, or now. -/
def oldest (now : Nat) : Nat := ((p.pending.map (·.time)).min?).getD now

def record (apps : List Text) (now : Nat) : Effect :=
  let all := unique (p.pending.map (·.app) ++ apps)
  if all.isEmpty then .clear else .write all (p.oldest now)

/-! ## Pause -/

/-- What one listed session answers while it is paused, and the seconds that pass before its
record and during its `pause`. -/
structure PauseReply where
  session : Session
  app : Option Text
  playing : Option Bool
  before : Nat
  answer : PauseAnswer
  during : Nat

structure PauseAnswers where
  /-- `none` when the sessions cannot be listed. -/
  sessions : Option (List PauseReply)
  /-- The seconds until `since` is read, and from there to the last record. -/
  after : Nat
  last : Nat

/-- The loop over the listed sessions: the effects, the sessions saved and the clock. -/
def pauseEach : List PauseReply → List (Session × Text) → Nat →
    List Effect × List (Session × Text) × Nat
  | [], saved, now => ([], saved, now)
  | s :: rest, saved, now =>
    match s.app with
    -- an app we cannot name could not be resumed
    | none => pauseEach rest saved now
    | some app =>
      if s.playing = some true then
        let saved' := if s.answer.saves then saved ++ [(s.session, app)] else saved
        let out := pauseEach rest saved' (now + s.before + s.during)
        -- on disk before the app pauses
        (.asked s.session s.playing :: .wait s.before
          :: p.record (saved.map (·.2) ++ [app]) (now + s.before)
          :: .pause s.session app s.answer :: .wait s.during :: out.1, out.2)
      else
        let out := pauseEach rest saved now
        (.asked s.session s.playing :: out.1, out.2)

/-- Pause every media session that is playing. A no-op while paused; when the sessions cannot
be listed it stays un-paused. -/
def pause (a : PauseAnswers) (now : Nat) : List Effect × MediaPauser :=
  if p.paused then ([], p)
  else
    match a.sessions with
    | none => ([], p)
    | some list =>
      let (es, saved, now') := p.pauseEach list [] now
      (es ++ [.wait a.after, .wait a.last, p.record (saved.map (·.2)) (now' + a.after + a.last)],
        { p with paused := true, since := now' + a.after, saved := saved })

/-! ## Resume -/

/-- A listed session when apps are resumed: its name, and what it answers. -/
structure Listed where
  session : Session
  app : Option Text
  playing : Option Bool
  plays : Bool

/-- Play the paused live sessions of the `wanted` apps: the effects, and the sessions whose play
failed. -/
def resumeEachOf (wanted : List Text) : List Listed → List Effect × List (Session × Text)
  | [] => ([], [])
  | s :: rest =>
    let out := resumeEachOf wanted rest
    match s.app with
    | none => (.named wanted s.session s.app :: out.1, out.2)
    | some app =>
      if wanted.contains app then
        if s.playing = some true then
          (.named wanted s.session s.app :: .asked s.session s.playing :: out.1, out.2)
        else
          (.named wanted s.session s.app :: .asked s.session s.playing :: .play s.session
            s.plays :: out.1,
            if s.plays then out.2 else (s.session, app) :: out.2)
      else (.named wanted s.session s.app :: out.1, out.2)

/-- `resume_apps`, when the sessions can be listed. -/
def resumeApps (wanted : List Text) (list : List Listed) : List Effect × List (Session × Text) :=
  let out := resumeEachOf wanted list
  (.listed wanted (list.map (·.session)) :: out.1, out.2)

/-- What one session object answers when it is resumed. -/
structure Check where
  playing : Option Bool
  plays : Bool

/-- The loop over the sessions known: the effects, and the entries whose play failed. The `i`th
entry is answered by `ask i`. -/
def resumeEach : List Pending → (Nat → Check) → List Effect × List Pending
  | [], _ => ([], [])
  | q :: rest, ask =>
    let out := resumeEach rest (fun i => ask (i + 1))
    match q.session with
    | none => out
    | some s =>
      -- a session that plays again is left alone, and one that is gone
      if (ask 0).playing = some false then
        (.checked s (ask 0).playing :: .play s (ask 0).plays :: out.1,
          if (ask 0).plays then out.2 else q :: out.2)
      else (.checked s (ask 0).playing :: out.1, out.2)

structure ResumeAnswers where
  ask : Nat → Check
  /-- `none` when the sessions cannot be listed. -/
  sessions : Option (List Listed)
  /-- The seconds it takes until the file is written. -/
  took : Nat

/-- The resumes to try: those of the pause, and the pending ones that are not too old. -/
def todo (now : Nat) : List Pending :=
  let since := if p.paused then p.since else now
  p.saved.map (fun h => { session := some h.1, app := h.2, time := since }) ++
    p.pending.filter fun q => !expired q.time now

/-- The part of a resume for the entries that hold only an app: the effects, and what is still
owed. -/
def resumeByApp (byApp : List Pending) (sessions : Option (List Listed)) (now : Nat) :
    List Effect × List Pending :=
  if byApp.isEmpty then ([], [])
  else
    match sessions with
    | some list =>
      let (es, left) := resumeApps (unique (byApp.map (·.app))) list
      let time := ((byApp.map (·.time)).min?).getD now
      (es, left.map fun h => { session := some h.1, app := h.2, time := time })
    | none => ([], byApp)

/-- Resume the sessions the pause paused, and what is pending. -/
def resume (a : ResumeAnswers) (now : Nat) : List Effect × MediaPauser :=
  let todo := p.todo now
  let p' := { p with saved := [], pending := [], paused := false }
  if todo.isEmpty then ([.clear], p')
  else
    let known := resumeEach todo a.ask
    let named := resumeByApp (todo.filter (·.session.isNone)) a.sessions now
    let p' := { p' with pending := known.2 ++ named.2 }
    (known.1 ++ named.1 ++ [.wait a.took,
      if p'.pending.isEmpty then .clear
      else .write (unique (p'.pending.map (·.app))) (p'.oldest now)], p')

/-! ## The startup sweep -/

structure RecoverAnswers where
  /-- `none` when the sessions cannot be listed. -/
  sessions : Option (List Listed)
  /-- The seconds between the two readings of the clock, and until the file is written. -/
  between : Nat
  took : Nat

/-- The effects of the sweep and the sessions that failed; `none` when nothing could be
listed. -/
def sweep (file : StateFile) (a : RecoverAnswers) (now : Nat) :
    List Effect × Option (List (Session × Text)) :=
  let time := file.time.getD now
  if file.apps.isEmpty || expired time now then ([.clear], some [])
  else
    match a.sessions with
    | some list =>
      let (es, failed) := resumeApps file.apps list
      let left := unique (failed.map (·.2))
      (es ++ [.wait a.took, if left.isEmpty then .clear else .write left time], some failed)
    | none => ([], none)

/-- Resume the apps a previous runtime paused; what still fails is kept as pending. -/
def recover (a : RecoverAnswers) (file : Option StateFile) (now : Nat) :
    List Effect × MediaPauser :=
  match file with
  | none => ([], p)
  | some f =>
    let time := f.time.getD now
    let (es, swept) := sweep f a (now + a.between)
    let more : List Pending :=
      match swept with
      | some failed => failed.map fun h => { session := some h.1, app := h.2, time := time }
      | none =>
        if expired time now then []
        else f.apps.map fun app => { session := none, app := app, time := time }
    (.read :: .wait a.between :: es, { p with pending := p.pending ++ more })

end MediaPauser

end Sonara.Pausing
