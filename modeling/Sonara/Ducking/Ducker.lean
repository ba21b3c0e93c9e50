import Sonara.Lib.Effects
import Sonara.Log.Secrets
import Sonara.Strings

/-!
# Ducking other apps (`ducking.rs`)

A `Ducker` lowers the audio session of every other app to a level while speech plays, and puts each
back. What it lowered is recorded in memory (`saved`, and `pending` when a restore failed) and in
the crash-restore file, before a volume moves.

A call on the platform or on the file may fail, by the number of the call (`Outside`); a process
crashes before any effect (`World.left`). The file is written whole or stays, and what is read of it
is what was written. Volumes are `f32`: what the code computes of them is a parameter (`Levels`).
The log lines are left out.
-/

namespace Sonara.Ducking

open Lib (Effects)
open Sonara.Log (toAsciiLowercase)

/-- Never ducked: their session is the whole mix. -/
def NEVER_DUCK : List Text :=
  ["audiodg.exe", "steelseriessonar.exe", "voicemeeter.exe", "voicemeeter8.exe",
    "voicemeeter8x64.exe"].map
    String.toList

/-- How long a record waits for its app to come back, in seconds. -/
def RECORD_MAX_AGE : Nat := 30 * 24 * 60 * 60

/-- What is computed of volumes. -/
structure Levels (V : Type) where
  /-- So many percent. -/
  target : Nat → V
  /-- `(d - v).abs() < 0.01`. -/
  near : V → V → Bool
  /-- `v <= target + 0.005`. -/
  low : V → V → Bool
  near_target : ∀ l, near (target l) (target l) = true
  low_target : ∀ l, low (target l) (target l) = true

/-- The audio sessions of the platform. A name or an identity that is not known is empty. -/
structure Platform (σ : Type) where
  pid : σ → Nat
  id : σ → Text
  name : σ → Text

/-- What the crash-restore file holds for a session. -/
structure Record (V : Type) where
  pid : Option Nat
  name : Option Text
  original : V
  id : Option Text
  /-- The level Sonara set. -/
  ducked : Option V
  /-- When it was recorded (`at`). -/
  time : Option Nat
  deriving DecidableEq, Repr

variable {σ V : Type}

/-! ## The world -/

/-- What the calls answer, by their number. -/
structure Outside (σ : Type) where
  /-- The live sessions, when they can be listed. -/
  sessions : Nat → Option (List σ)
  volume : Nat → Bool
  setVolume : Nat → Bool
  now : Nat → Nat
  /-- Whether the file can be written, read and removed. -/
  write : Nat → Bool
  read : Nat → Bool
  remove : Nat → Bool

structure World (σ V : Type) where
  file : Option (List (Record V)) := none
  volume : σ → V
  calls : Nat := 0
  /-- The effects until the process crashes, when it does. -/
  left : Option Nat := none

abbrev Io (σ V α : Type) := Effects Unit (World σ V) α

/-- The world when an effect happens. -/
def World.next (w : World σ V) : World σ V :=
  { w with calls := w.calls + 1, left := w.left.map (· - 1) }

namespace Io

/-- Something outside, unless the process is gone. -/
def effect {α : Type} (act : Nat → World σ V → α × World σ V) : Io σ V α := fun w =>
  if w.left = some 0 then .error .crashed w
  else
    let (a, t) := act w.calls w.next
    .ok a t

variable (o : Outside σ)

def sessions : Io σ V (Option (List σ)) := effect fun n w => (o.sessions n, w)

def volume (s : σ) : Io σ V (Option V) :=
  effect fun n w => (if o.volume n then some (w.volume s) else none, w)

/-- Whether it could be set. -/
def setVolume [DecidableEq σ] (s : σ) (level : V) : Io σ V Bool := effect fun n w =>
  (o.setVolume n, if o.setVolume n then
    { w with volume := fun x => if x = s then level else w.volume x } else w)

/-- `none` for a file that is missing or cannot be read. -/
def readState : Io σ V (Option (List (Record V))) :=
  effect fun n w => (if o.read n then w.file else none, w)

/-- A write that fails is only logged. -/
def writeState (records : List (Record V)) : Io σ V Unit := effect fun n w =>
  ((), if o.write n then { w with file := some records } else w)

def clear : Io σ V Unit := effect fun n w => ((), if o.remove n then { w with file := none } else w)

def nowSecs : Io σ V Nat := fun w => .ok (o.now w.calls) w

end Io

open Io

variable (L : Levels V) (p : Platform σ) (o : Outside σ)

/-! ## Matching records with sessions -/

/-- Whether a level is the one `r` was ducked to; no level counts as a match. -/
def atDuckLevel (r : Record V) (level : Option V) : Bool :=
  match r.ducked, level with
  | some d, some v => L.near d v
  | _, _ => true

def sameApp (s : σ) (r : Record V) : Bool := r.pid == some (p.pid s) && r.name.getD [] == p.name s

def eqIgnoreAsciiCase (a b : Text) : Bool := toAsciiLowercase a == toAsciiLowercase b

/-- A live session with its level. -/
abbrev Live (σ V : Type) := σ × Option V

/-- The session each record took. -/
abbrev Picks (σ V : Type) := List (Record V × Option (Live σ V))

/-- The session has the identity of the record. -/
def byId (r : Record V) (x : Live σ V) : Bool := r.id.any fun id => !id.isEmpty && id == p.id x.1

/-- It has the pid of the record, and not the name of another app. -/
def byPid (r : Record V) (x : Live σ V) : Bool :=
  r.pid == some (p.pid x.1) &&
    (match r.name with
      | some n =>
        if (p.name x.1).isEmpty ∨ n.isEmpty then true else eqIgnoreAsciiCase n (p.name x.1)
      | none => true) &&
    atDuckLevel L r x.2

/-- It has the name of the record. -/
def byName (r : Record V) (x : Live σ V) : Bool :=
  !(p.name x.1).isEmpty && r.name.any (eqIgnoreAsciiCase · (p.name x.1)) && atDuckLevel L r x.2

/-- One pass: every record that has no session takes the first one that is `ok` and not used. -/
def takePass (live : List (Live σ V)) (ok : Record V → Live σ V → Bool) :
    Picks σ V → List Nat → Picks σ V × List Nat
  | [], used => ([], used)
  | (r, some x) :: rest, used =>
    let out := takePass live ok rest used
    ((r, some x) :: out.1, out.2)
  | (r, none) :: rest, used =>
    match live.zipIdx.find? fun x => !used.contains x.2 && ok r x.1 with
    | some x =>
      let out := takePass live ok rest (x.2 :: used)
      ((r, some x.1) :: out.1, out.2)
    | none =>
      let out := takePass live ok rest used
      ((r, none) :: out.1, out.2)

/-- The three passes, each over every record before the next. -/
def picks (live : List (Live σ V)) (records : List (Record V)) : Picks σ V :=
  let first := takePass live (byId p) (records.map fun r => (r, none)) []
  let second := takePass live (byPid L p) first.1 first.2
  (takePass live (byName L p) second.1 second.2).1

/-! ## Restoring records -/

inductive Fate where
  /-- Put back, or found changed since. -/
  | restored
  | failed
  /-- The app is not running. -/
  | waiting
  | expired
  deriving DecidableEq, Repr

structure Sweep (V : Type) where
  restored : List (Record V) := []
  failed : List (Record V) := []
  waiting : List (Record V) := []
  expired : List (Record V) := []

def Sweep.add (sweep : Sweep V) (r : Record V) : Fate → Sweep V
  | .restored => { sweep with restored := r :: sweep.restored }
  | .failed => { sweep with failed := r :: sweep.failed }
  | .waiting => { sweep with waiting := r :: sweep.waiting }
  | .expired => { sweep with expired := r :: sweep.expired }

/-- The records to keep. -/
def Sweep.left (sweep : Sweep V) : List (Record V) := sweep.failed ++ sweep.waiting

def readVolumes : List σ → Io σ V (List (Live σ V))
  | [] => pure []
  | s :: rest => do
    let level ← volume o s
    let levels ← readVolumes rest
    pure ((s, level) :: levels)

variable [DecidableEq σ]

/-- What becomes of a record with the session it took. -/
def fate (r : Record V) (old : Bool) : Option (Live σ V) → Io σ V Fate
  | none => pure (if old then .expired else .waiting)
  | some (s, level) =>
    -- found by its identity at another level: changed since
    if !atDuckLevel L r level then pure .restored
    else do
      let ok ← setVolume o s r.original
      pure (if ok then .restored else if old then .expired else .failed)

/-- A record without a time is stamped. -/
def Record.stamp (r : Record V) (now : Nat) : Record V := { r with time := some (r.time.getD now) }

def sweepEach (now : Nat) : Picks σ V → Io σ V (Sweep V)
  | [] => pure {}
  | (r, pick) :: rest => do
    let kind ← fate L o (r.stamp now) (now - r.time.getD now > RECORD_MAX_AGE) pick
    let sweep ← sweepEach now rest
    pure (sweep.add (r.stamp now) kind)

/-- Restore recorded sessions by a fresh enumeration, `none` when that fails. -/
def restoreRecords (records : List (Record V)) : Io σ V (Option (Sweep V)) := do
  match ← sessions o with
  | none => pure none
  | some list => do
    let live ← readVolumes o list
    let now ← nowSecs o
    let sweep ← sweepEach L o now (picks L p live records)
    pure (some sweep)

/-! ## The ducker -/

structure Ducker (σ V : Type) where
  /-- The sessions lowered by the current duck, with what to restore. -/
  saved : List (σ × Record V) := []
  /-- Records of which the restore failed. -/
  pending : List (Record V) := []
  ducked : Bool := false

/-- All records that wait for a restore. -/
def Ducker.records (d : Ducker σ V) : List (Record V) := d.pending ++ d.saved.map Prod.snd

def record (s : σ) (original target : V) (now : Nat) : Record V where
  pid := some (p.pid s)
  name := if (p.name s).isEmpty then none else some (p.name s)
  original := original
  id := if (p.id s).isEmpty then none else some (p.id s)
  ducked := some target
  time := some now

/-- The file holds what is to be restored. -/
def store (records : List (Record V)) : Io σ V Unit :=
  if records.isEmpty then clear o else writeState o records

variable (lowercase : Text → Text)

/-- The loop over the sessions: the pending records no session took over, and what was lowered. -/
def duckEach (exclude : List Nat) (target : V) :
    List σ → List (Record V) → List (σ × Record V) → Io σ V (List (Record V) × List (σ × Record V))
  | [], pending, saved => pure (pending, saved)
  | s :: rest, pending, saved =>
    if exclude.contains (p.pid s) ∨ NEVER_DUCK.contains (lowercase (p.name s)) then
      duckEach exclude target rest pending saved
    else do
      match ← volume o s with
      | none => duckEach exclude target rest pending saved
      | some original =>
        if L.low original target then duckEach exclude target rest pending saved
        else do
          -- an app with a pending record is still at an old duck level
          let carried := pending.find? (sameApp p s)
          let others := pending.eraseP (sameApp p s)
          let now ← nowSecs o
          let r := record p s ((carried.map (·.original)).getD original) target now
          -- on disk before the volume moves
          writeState o (others ++ saved.map Prod.snd ++ [r])
          if ← setVolume o s target then duckEach exclude target rest others (saved ++ [(s, r)])
          else duckEach exclude target rest pending saved

/-- The pending records, put back first when their app is there. -/
def retry (pending : List (Record V)) : Io σ V (List (Record V)) :=
  if pending.isEmpty then pure pending
  else do
    match ← restoreRecords L p o pending with
    | some sweep => pure sweep.left
    | none => pure pending

namespace Ducker

variable (d : Ducker σ V)

/-- Lower every session but those excluded. A no-op while ducked. -/
def duck (exclude : List Nat) (level : Nat) : Io σ V (Ducker σ V) :=
  if d.ducked then pure d
  else do
    let pending ← retry L p o d.pending
    match ← sessions o with
    | some list => do
      let (pending, saved) ← duckEach L p o lowercase exclude
        (L.target (min level 100)) list pending []
      store o (pending ++ saved.map Prod.snd)
      pure { saved := saved, pending := pending, ducked := true }
    | none => do
      store o pending
      -- the next call tries again
      pure { saved := [], pending := pending, ducked := false }

/-- The sessions that could not be put back. -/
def restoreEach : List (σ × Record V) → Io σ V (List (Record V))
  | [] => pure []
  | (s, r) :: rest => do
    let ok ← setVolume o s r.original
    let failed ← restoreEach rest
    pure (if ok then failed else r :: failed)

/-- Put every lowered session back. -/
def restore : Io σ V (Ducker σ V) := do
  let failed ← restoreEach o d.saved
  let left ← retry L p o (d.pending ++ failed)
  store o left
  pure { saved := [], pending := left, ducked := false }

/-- The records in the file, as they are. -/
def unread : Io σ V (List (Record V)) := do
  let file ← readState o
  pure (file.getD [])

/-- What a previous process left to restore. -/
def swept : Io σ V (List (Record V)) := do
  match ← readState o with
  | none => unread o
  | some records => do
    match ← restoreRecords L p o records with
    | some sweep => do
      store o sweep.left
      pure sweep.left
    -- nothing could be listed, so the file is kept
    | none => unread o

/-- The startup sweep. -/
def recover [DecidableEq V] : Io σ V (Ducker σ V) := do
  let left ← swept L p o
  pure { d with
    pending := left.foldl
      (fun pending r => if pending.contains r then pending else pending ++ [r]) d.pending }

end Ducker

/-! ## Runs -/

inductive Event where
  /-- A process begins, and sweeps. -/
  | start
  | duck (exclude : List Nat) (level : Nat)
  | restore
  deriving DecidableEq, Repr

structure System (σ V : Type) where
  world : World σ V
  /-- The ducker of the process that runs. -/
  ducker : Option (Ducker σ V) := none

namespace System

/-- An operation comes to its end, or the process crashes in it. -/
def finish (r : EStateM.Result (Lib.Stop Unit) (World σ V) (Ducker σ V)) : System σ V :=
  match r with
  | .ok d w => { world := w, ducker := some d }
  | .error _ w => { world := w }

/-- An operation, with the number of effects until the process crashes. -/
def step [DecidableEq V] (s : System σ V) (e : Event × Option Nat) : Option (System σ V) :=
  let w := { s.world with left := e.2 }
  match e.1, s.ducker with
  | .start, none => some (finish (({} : Ducker σ V).recover L p o w))
  | .duck exclude level, some d => some (finish (d.duck L p o lowercase exclude level w))
  | .restore, some d => some (finish (d.restore L p o w))
  | _, _ => none

end System

end Sonara.Ducking
