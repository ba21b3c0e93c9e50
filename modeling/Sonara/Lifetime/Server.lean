import Mathlib.Logic.Function.Basic
import Sonara.Lib.Logged
import Sonara.Lib.System

/-!
# When the process ends

`lifetime.rs`, and what of the server, its transports and the hotkeys has a part in it: the
`retiring` flag under the admission lock (`protocol/mod.rs`), `hello` with a takeover and `shutdown`
(`protocol/messages.rs`), a connection (`tcp.rs`), a request over HTTP (`http.rs`) and `monitor`.
Any number of connections, the hotkey thread and the monitor take steps in any order, one access to
shared memory in a step. `Shared.log` keeps the accesses that matter, for what is proved of them.
-/

namespace Sonara.Lifetime

/-- Why the process is ending. -/
inductive ExitReason where
  | idle
  | takeover
  | signal
  deriving DecidableEq, Repr

/-- `Lifetime` of the source: `exit` is the watch channel's value. -/
structure Life where
  clients : Nat
  keepAlive : Bool
  standalone : Bool
  idleExit : Nat
  lastActive : Nat
  exit : Option ExitReason
  deriving DecidableEq, Repr

namespace Life

def new (idleExit : Nat) (standalone : Bool) (now : Nat) : Life :=
  { clients := 0, keepAlive := false, standalone, idleExit, lastActive := now, exit := none }

/-- The countdown ran out; `elapsed` is never negative. -/
def idleExpired (l : Life) (now : Nat) : Bool := decide (l.idleExit ≤ now - l.lastActive)

/-- The first reason wins. -/
def requestExit (l : Life) (why : ExitReason) : Life :=
  { l with exit := l.exit.or (some why) }

end Life

/-- Who takes a step. -/
inductive Who where
  | conn (i : Nat)
  | hotkey
  | monitor
  /-- `main`, which waits for Ctrl+C. -/
  | main
  deriving DecidableEq, Repr

/-- Why nothing is admitted any more: the idle exit was decided, on what it read of the clock; a
takeover was accepted; `shutdown`. -/
inductive Why where
  | idle (read : Nat)
  | takeover
  | shutdown
  deriving DecidableEq, Repr

/-- What a step does to the shared memory. -/
inductive Act where
  /-- The connection counts as a client, and counts no more. -/
  | join (i : Nat)
  | leave (i : Nat)
  | keep
  | touch (time : Nat)
  /-- What takes the admission lock is carried out. -/
  | carry (who : Who)
  /-- A request that takes no lock has speech start. -/
  | start (i : Nat)
  /-- The reply to it is out. -/
  | accept (i : Nat)
  /-- `E_BUSY`: this runtime is exiting. -/
  | refuse (i : Nat)
  | retire (why : Why)
  | exit (why : ExitReason)
  deriving DecidableEq, Repr

structure Shared where
  life : Life
  retiring : Bool
  /-- Who holds the admission lock. -/
  lock : Option Who
  now : Nat
  log : List Act

namespace Shared

/-- The memory after an access. -/
def act (s : Shared) (e : Act) : Shared :=
  let s := { s with log := s.log ++ [e] }
  match e with
  | .join _ => { s with life := { s.life with clients := s.life.clients + 1 } }
  | .leave _ => { s with life := { s.life with clients := s.life.clients - 1 } }
  | .keep => { s with life := { s.life with keepAlive := true } }
  | .touch time => { s with life := { s.life with lastActive := time } }
  | .carry _ => s
  | .start _ => s
  | .accept _ => s
  | .refuse _ => s
  | .retire _ => { s with retiring := true }
  | .exit why => { s with life := s.life.requestExit why }

def take (s : Shared) (who : Who) : Shared := { s with lock := some who }

def free (s : Shared) : Shared := { s with lock := none }

end Shared

/-- A message, by what it has to do with the exit. -/
inductive Kind where
  | hello (takeover keepAlive : Bool)
  /-- It is carried out under the admission lock: `speak`, `control`, the messages of the channels
  and the agent, the clip of `engine_test`. -/
  | speech
  /-- It starts speech and takes no lock: `preview`, a `set` that takes the mute of a channel
  (`set_muted` pumps), changes the background policy or has a cue spoken. -/
  | unlocked
  /-- `get`, `voices`, `subscribe`, every other `set`, the other engine messages. -/
  | plain
  | shutdown
  /-- `GET /v1/events`. -/
  | events
  deriving DecidableEq, Repr

/-- Where the task of a connection is. -/
inductive Phase where
  /-- It waits for a line. -/
  | free
  /-- `touch`: the clock was read. -/
  | clocked (kind : Kind) (time : Nat)
  | touched (kind : Kind)
  /-- In `handle`. -/
  | handled (kind : Kind)
  /-- `exiting`: no exit was requested. -/
  | asked (kind : Kind)
  /-- In `dispatch`. -/
  | dispatched (kind : Kind)
  /-- `hello` with a takeover, in its critical section. -/
  | weighing
  /-- `admit` gave the lock. -/
  | admitted
  | carried
  /-- The lock is free again and the reply to send. -/
  | done
  /-- The reply says that the process ends (`After::Exit`). -/
  | ending
  /-- `hello` succeeded. -/
  | greeted
  /-- A client counts or counts no more, and touches. -/
  | counted
  | counting (time : Nat)
  deriving DecidableEq, Repr

structure Conn where
  /-- The connection gave the token (over HTTP each request does). -/
  authed : Bool
  /-- It counts as a client. -/
  joined : Bool
  phase : Phase
  deriving DecidableEq, Repr

namespace Conn

def goto (c : Conn) (p : Phase) : Conn := { c with phase := p }

/-- The connection `i` has a step: a message arrives, it ends, or its task goes on; `answer` is what
the task asks of the rest of the program there. -/
inductive Step where
  | arrive (kind : Kind)
  | close
  | go (answer : Bool)
  deriving DecidableEq, Repr

/-- `admit`: blocked while the lock is taken, `E_BUSY` once retiring. -/
def admitRequest (i : Nat) (s : Shared) (c : Conn) : Option (Shared × Conn) :=
  if s.lock.isSome then none
  else if s.retiring then some (s.act (.refuse i), c.goto .free)
  else some (s.take (.conn i), c.goto .admitted)

/-- `dispatch`. -/
def dispatch (i : Nat) (answer : Bool) (s : Shared) (c : Conn) : Kind → Option (Shared × Conn)
  | .hello takeover keepAlive =>
    -- The token is wrong, or the protocol or a needed extension is not offered.
    if !answer then some (s, c.goto .free)
    else if takeover then
      if s.lock.isSome then none else some (s.take (.conn i), c.goto .weighing)
    else some (if keepAlive then s.act .keep else s, c.goto .greeted)
  | .speech => admitRequest i s c
  | .unlocked => some (s.act (.start i), c.goto .free)
  | .plain => some (s, c.goto .free)
  | .shutdown => if s.lock.isSome then none else some (s.act (.retire .shutdown), c.goto .ending)
  | .events => some (s, c.goto .free)

/-- The next step of the task. -/
def go (http : Bool) (i : Nat) (answer : Bool) (s : Shared) (c : Conn) : Option (Shared × Conn) :=
  match c.phase with
  | .free => none
  | .clocked kind time => some (s.act (.touch time), c.goto (.touched kind))
  | .touched kind =>
    -- Over HTTP an exit that was requested is answered before `handle`.
    if http && s.life.exit.isSome then some (s.act (.refuse i), c.goto .free)
    else if kind = .events then
      if http then some (s.act (.join i), { c with joined := true, phase := .counted }) else some
        (s, c.goto .free)
    else some (s, c.goto (.handled kind))
  | .handled kind => match kind with
    | .hello takeover keepAlive => some (s, c.goto (.dispatched (.hello takeover keepAlive)))
    | kind =>
      -- `E_AUTH`, which closes the connection.
      if !c.authed then some (s, c.goto .free)
      else if s.life.exit.isSome then some (s.act (.refuse i), c.goto .free)
      else some (s, c.goto (.asked kind))
  | .asked kind =>
    if s.lock.isSome then none
    else if s.retiring then some (s.act (.refuse i), c.goto .free)
    else some (s, c.goto (.dispatched kind))
  | .dispatched kind => dispatch i answer s c kind
  | .weighing =>
    -- `answer`: nothing plays and nothing is queued.
    if s.retiring || answer then some ((s.act (.retire .takeover)).free, c.goto .ending)
    else some (s.free, c.goto .free)
  | .admitted => some (s.act (.carry (.conn i)), c.goto .carried)
  | .carried => some (s.free, c.goto .done)
  | .done => some (s.act (.accept i), c.goto .free)
  -- Without the reply, the exit is not requested.
  | .ending => some (if answer then s.act (.exit .takeover) else s, c.goto .free)
  | .greeted =>
    if !http && !c.joined then some (s.act (.join i),
      { authed := true, joined := true, phase := .counted })
    else some (s, { c with authed := true, phase := .free })
  | .counted => some (s, c.goto (.counting s.now))
  | .counting time => some (s.act (.touch time), c.goto .free)

/-- A connection's step. -/
def step (http : Bool) (i : Nat) (s : Shared) (c : Conn) : Step → Option (Shared × Conn)
  | .arrive kind =>
    -- A connection with an open event stream carries nothing else.
    if c.phase = .free && !(http && c.joined) then some (s, c.goto (.clocked kind s.now)) else none
  | .close =>
    if c.phase = .free then
      if c.joined then some (s.act (.leave i),
        { authed := http, joined := false, phase := .counted })
      else some (s, { authed := http, joined := false, phase := .free })
    else none
  | .go answer => go http i answer s c

end Conn

/-- Where the hotkey thread is (`HotkeyTarget::perform`). -/
inductive Press where
  | idle
  | admitted
  | carried
  deriving DecidableEq, Repr

/-- The next step of the hotkey thread; idle, a key was pressed. -/
def Press.step (s : Shared) : Press → Option (Shared × Press)
  | .idle =>
    if s.lock.isSome then none
    else if s.retiring then some (s, .idle)
    else some (s.take .hotkey, .admitted)
  | .admitted => some (s.act (.carry .hotkey), .carried)
  | .carried => some (s.free, .idle)

/-- Where the monitor is. -/
inductive Monitor where
  | waiting
  /-- No exit was requested. -/
  | checked
  /-- `may_idle_exit`: nobody asked to keep it alive. -/
  | unkept
  /-- The countdown starts again: `touch`. -/
  | active
  | clocked (time : Nat)
  | asking
  | expiring
  /-- `retire_if_idle`: it wants the lock, then has it. -/
  | wanting
  | locked
  | lockedUnkept
  | lockedAlone
  | lockedExpired (time : Nat)
  | agreed
  | stopped
  deriving DecidableEq, Repr

/-- The next step of the monitor; `busy` is what it reads of the reader and the agent. -/
def Monitor.step (busy : Bool) (s : Shared) : Monitor → Option (Shared × Monitor)
  | .waiting => some (s, if s.life.exit.isSome then .stopped else .checked)
  | .checked => some (s, if s.life.standalone || s.life.keepAlive then .active else .unkept)
  | .unkept => some (s, if s.life.clients = 0 then .asking else .active)
  | .active => some (s, .clocked s.now)
  | .clocked time => some (s.act (.touch time), .waiting)
  | .asking => some (s, if busy then .active else .expiring)
  | .expiring => some (s, if s.life.idleExpired s.now then .wanting else .waiting)
  | .wanting => if s.lock.isSome then none else some (s.take .monitor, .locked)
  | .locked =>
    if s.retiring then some (s.free, .agreed)
    else if s.life.standalone || s.life.keepAlive then some (s.free, .waiting)
    else some (s, .lockedUnkept)
  | .lockedUnkept => if s.life.clients = 0 then some (s, .lockedAlone) else some (s.free, .waiting)
  | .lockedAlone =>
    if s.life.idleExpired s.now then some (s, .lockedExpired s.now) else some (s.free, .waiting)
  | .lockedExpired time =>
    if busy then some (s.free, .waiting) else some ((s.act (.retire (.idle time))).free, .agreed)
  | .agreed => some (s.act (.exit .idle), .stopped)
  | .stopped => none

structure World where
  shared : Shared
  conns : Nat → Conn
  hotkey : Press
  monitor : Monitor

inductive Event where
  /-- The clock goes on. -/
  | tick (n : Nat)
  /-- Ctrl+C. -/
  | signal
  | conn (i : Nat) (step : Conn.Step)
  | press
  | monitor (busy : Bool)
  deriving DecidableEq, Repr

namespace World

variable (http : Nat → Bool)

def step (w : World) : Event → Option World
  | .tick n => some { w with shared := { w.shared with now := w.shared.now + n } }
  | .signal => some { w with shared := w.shared.act (.exit .signal) }
  | .conn i e => (Conn.step (http i) i w.shared (w.conns i) e).map fun r =>
    { w with shared := r.1, conns := Function.update w.conns i r.2 }
  | .press => (w.hotkey.step w.shared).map fun r => { w with shared := r.1, hotkey := r.2 }
  | .monitor busy =>
    (w.monitor.step busy w.shared).map fun r => { w with shared := r.1, monitor := r.2 }

/-- The process has started: `touch` was called at `now`, and connections can come. -/
def start (idleExit : Nat) (standalone : Bool) (now : Nat) : World where
  shared := { life := .new idleExit standalone now, retiring := false, lock := none, now, log := [] }
  conns i := { authed := http i, joined := false, phase := .free }
  hotkey := .idle
  monitor := .waiting

/-- The runs of a process; `http` says which connections are HTTP's. -/
def system (idleExit : Nat) (standalone : Bool) (now : Nat) : Lib.System World Event where
  init w := w = start http idleExit standalone now
  step := step http

end World

end Sonara.Lifetime
