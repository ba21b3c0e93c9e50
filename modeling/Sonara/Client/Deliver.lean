import Mathlib.Algebra.GroupWithZero.Nat
import Sonara.Lib.System
import Sonara.Log.Secrets

/-!
# A hook delivers its batch (`batch.rs`, `runtime.rs`, `tcp.rs`, `protocol/mod.rs`)

`deliver` writes `hello` and the messages of one hook call on a connection to the runtime
that `runtime.json` names. When that does not end with an ok reply to `hello`, it starts a
runtime and looks again at `runtime.json`, until a deadline, for one to send the batch to.

The world has this one call, the home (`runtime.json`, the stop file and the
single-instance mutex) and every process a runtime runs in. A step is one access of the
call to what it shares, or a step of the others: a runtime handles the next line of a
connection, hangs up, begins to exit, ends; another one starts. A runtime that stalls takes
no step. Every wait of the call may end in a timeout, and every read and write in an error.

A message is its line of text. What a runtime does with one that it dispatches stays
outside: the message counts as applied, and the event says whether the reply is ok. A file
without a pid is not checked, so there another program may be at the port and answer
anything.
-/

namespace Sonara.Client

/-- `MAX_LINE`, of the runtime. -/
def MAX_LINE : Nat := 2 ^ 20

/-- `Runtime`: what `runtime.json` holds. -/
structure Runtime where
  port : Nat
  token : Text
  pid : Option Nat
  deriving DecidableEq, Repr

/-- A process a runtime was started in. -/
inductive Process where
  /-- It does not have the mutex yet. -/
  | starting
  /-- It listens; `exiting` once it has decided to exit. -/
  | live (port : Nat) (token : Text) (exiting : Bool)
  | dead
  deriving DecidableEq, Repr

/-- A reply with an `ok`. -/
inductive Reply where
  | ok
  /-- The runtime dispatched the message, and it failed. -/
  | failed
  /-- `E_BUSY`: the runtime is exiting. -/
  | busy
  /-- `hello` failed, there was none, or the line was too long. -/
  | refused
  deriving DecidableEq, Repr

/-- Who is at the other end. -/
inductive Peer where
  | runtime (pid : Nat)
  /-- Another program that has the port. -/
  | other
  deriving DecidableEq, Repr

/-- A connection that was made. -/
structure Conn where
  peer : Peer
  /-- The token its `hello` has. -/
  token : Text
  /-- The lines written, `hello` the first. -/
  written : Nat
  /-- The lines the runtime took up. -/
  handled : Nat
  /-- `Session::authed`. -/
  authed : Bool
  /-- The runtime closed it. -/
  closed : Bool
  /-- The messages the runtime dispatched, as their places in the batch. -/
  applied : List Nat
  replies : List Reply
  /-- How many of the replies `send_on` read. -/
  got : Nat
  /-- `send_on` ended in an error, or with no reply. -/
  broken : Bool
  deriving DecidableEq, Repr

namespace Conn

def new (peer : Peer) (token : Text) : Conn := ⟨peer, token, 0, 0, false, false, [], [], 0, false⟩

def reply (x : Conn) (r : Reply) (close : Bool) : Conn :=
  { x with replies := x.replies ++ [r], closed := close }

/-- The runtime handles the next line (`connection`, `Server::handle`): `token` is its own,
`ok` what a dispatch comes to. -/
def handle (msgs : List Text) (token : Text) (exiting ok : Bool) (x : Conn) : Conn :=
  match x.handled with
  | 0 =>
    if x.token ≠ token then { x with handled := 1 }.reply .refused true
    else if ok then { x with handled := 1, authed := true }.reply .ok false
    else { x with handled := 1 }.reply .refused false
  | i + 1 =>
    if MAX_LINE < Log.len (msgs.getD i []) + 1 then { x with handled := i + 2 }.reply .refused true
    else if x.authed = false then { x with handled := i + 2 }.reply .refused true
    else if exiting then { x with handled := i + 2 }.reply .busy false
    else { x with handled := i + 2, applied := x.applied ++ [i] }.reply
      (if ok then .ok else .failed) false

/-- `hello_ok`, of the replies read. -/
def hello_ok (x : Conn) : Bool := (x.replies.take x.got).head? == some .ok

end Conn

/-- `Delivery`. -/
inductive Delivery where
  | sent
  | started
  | dropped
  deriving DecidableEq, Repr

/-- `worth_trying`. -/
def worth_trying (rt : Runtime) (stale : Option Nat) (start_exited : Bool) : Bool :=
  start_exited || rt.pid.isNone || rt.pid != stale

/-- Which of the two sends of `deliver`, and what it goes on with. -/
inductive Attempt where
  | first (stale : Option Nat)
  | again (stale : Option Nat) (child : Nat)
  deriving DecidableEq, Repr

/-- Where `deliver` is. -/
inductive Phase where
  /-- At its first `read_runtime`. -/
  | reading
  /-- At `connect`. -/
  | connecting (rt : Runtime) (t : Attempt)
  /-- `send_on` writes on the connection of this number. -/
  | sending (c : Nat) (t : Attempt)
  /-- `send_on` reads the replies. -/
  | awaiting (c : Nat) (t : Attempt)
  /-- At the start of a runtime. -/
  | deciding (stale : Option Nat)
  /-- At the head of the wait for it. -/
  | polling (stale : Option Nat) (child : Nat)
  /-- At `read_runtime` in the wait; `exited` is what `try_wait` said. -/
  | looking (stale : Option Nat) (child : Nat) (exited : Bool)
  | done (d : Delivery)
  deriving DecidableEq, Repr

structure World where
  /-- `runtime.json`, if it parses. -/
  file : Option Runtime
  /-- `stopped`. -/
  stopped : Bool
  /-- Who has the single-instance mutex. -/
  mutex : Option Nat
  /-- The processes, by their pid. -/
  procs : Nat → Option Process
  /-- The connections of this call, oldest first. -/
  conns : List Conn
  phase : Phase

namespace World

def goto (w : World) (p : Phase) : World := { w with phase := p }

def setProc (w : World) (pid : Nat) (p : Process) : World :=
  { w with procs := fun q => if q = pid then some p else w.procs q }

def setConn (w : World) (c : Nat) (x : Conn) : World := { w with conns := w.conns.set c x }

/-- What the runtimes applied. -/
def applied (w : World) : List Nat := w.conns.flatMap Conn.applied

/-- `send_on` ends, in an error when `err`: what `deliver` makes of it. -/
def finish (w : World) (c : Nat) (t : Attempt) (err : Bool) : Option World :=
  match w.conns[c]? with
  | none => none
  | some x =>
    let w := w.setConn c { x with broken := err || x.got == 0 }
    match t with
    | .first stale => some (w.goto (if !err && x.hello_ok then .done .sent else .deciding stale))
    | .again _ _ => some (w.goto (.done .started))

/-- Whether a connection to what `rt` names can be to `peer` (`connect`). -/
def reaches (w : World) (rt : Runtime) : Peer → Bool
  | .runtime pid =>
    match w.procs pid with
    | some (.live port _ _) => port == rt.port && (rt.pid.isNone || rt.pid == some pid)
    | _ => false
  | .other => rt.pid.isNone

/-- The other end of `x` is gone. -/
def hungUp (w : World) (x : Conn) : Bool :=
  x.closed ||
    match x.peer with
    | .runtime pid => match w.procs pid with
      | some (.live _ _ _) => false
      | _ => true
    | .other => true

end World

inductive Event where
  /-- `read_runtime`. -/
  | read
  /-- `connect`, made to `peer` if at all. -/
  | connect (peer : Option Peer)
  /-- One more line is written. -/
  | write
  | writeError
  /-- One more reply is read. -/
  | readReply
  /-- No time is left between two reads. -/
  | timeUp
  /-- The connection ended. -/
  | eof
  /-- A read timed out or failed. -/
  | readError
  /-- `start_runtime`, unless `deliver` does not start one. -/
  | start (child : Option Nat)
  /-- `deadline` is over. -/
  | deadline
  /-- `try_wait`. -/
  | tryWait
  /-- A runtime handles the next line of a connection. -/
  | handle (c : Nat) (ok : Bool)
  /-- A runtime closes a connection. -/
  | hangUp (c : Nat)
  /-- A runtime saw no `hello` in time. -/
  | helloTimeout (c : Nat)
  /-- Another program answers. -/
  | foreign (c : Nat) (r : Reply)
  /-- Someone else starts a runtime. -/
  | spawn (pid : Nat)
  /-- A started runtime takes the mutex and listens. -/
  | up (pid : Nat) (port : Nat) (token : Text)
  | beginExit (pid : Nat)
  /-- A process ends: it exits, or it dies, or it did not get the mutex. -/
  | die (pid : Nat)
  /-- `runtime.json` is written, or removed. -/
  | file (rt : Option Runtime)
  | stop (stopped : Bool)
  deriving DecidableEq, Repr

/-- One step; `exe` when there is a runtime to start. -/
def step (exe : Bool) (msgs : List Text) (w : World) : Event → Option World
  | .read =>
    match w.phase with
    | .reading =>
      match w.file with
      | none => some (w.goto (.deciding none))
      | some rt => some (w.goto (.connecting rt (.first rt.pid)))
    | .looking stale child exited =>
      match w.file.filter (worth_trying · stale exited) with
      | none => some (w.goto (.polling stale child))
      | some rt => some (w.goto (.connecting rt (.again stale child)))
    | _ => none
  | .connect peer =>
    match w.phase with
    | .connecting rt t =>
      match peer with
      | none =>
        match t with
        | .first stale => some (w.goto (.deciding stale))
        | .again stale child => some (w.goto (.polling stale child))
      | some peer =>
        if w.reaches rt peer then
          some { w with
            conns := w.conns ++ [.new peer rt.token]
            phase := .sending w.conns.length t }
        else none
    | _ => none
  | .write =>
    match w.phase with
    | .sending c t =>
      match w.conns[c]? with
      | none => none
      | some x =>
        let w := w.setConn c { x with written := x.written + 1 }
        some (if x.written = msgs.length then w.goto (.awaiting c t) else w)
    | _ => none
  | .writeError =>
    match w.phase with
    | .sending c t => w.finish c t true
    | _ => none
  | .readReply =>
    match w.phase with
    | .awaiting c t =>
      match w.conns[c]? with
      | none => none
      | some x =>
        if x.got < x.replies.length then
          let w := w.setConn c { x with got := x.got + 1 }
          if x.got = msgs.length then w.finish c t false else some w
        else none
    | _ => none
  | .timeUp =>
    match w.phase with
    | .awaiting c t => w.finish c t false
    | _ => none
  | .eof =>
    match w.phase with
    | .awaiting c t =>
      match w.conns[c]? with
      | none => none
      | some x => if w.hungUp x ∧ x.got = x.replies.length then w.finish c t false else none
    | _ => none
  | .readError =>
    match w.phase with
    | .awaiting c t => w.finish c t true
    | _ => none
  | .start child =>
    match w.phase with
    | .deciding stale =>
      if exe && !w.stopped then
        match child with
        | none => some (w.goto (.done .dropped))
        | some pid =>
          match w.procs pid with
          | none => some ((w.setProc pid .starting).goto (.polling stale pid))
          | some _ => none
      else some (w.goto (.done .dropped))
    | _ => none
  | .deadline =>
    match w.phase with
    | .polling _ _ => some (w.goto (.done .dropped))
    | _ => none
  | .tryWait =>
    match w.phase with
    | .polling stale child => some (w.goto (.looking stale child (w.procs child == some .dead)))
    | _ => none
  | .handle c ok =>
    match w.conns[c]? with
    | none => none
    | some x =>
      match x.peer with
      | .other => none
      | .runtime pid =>
        match w.procs pid with
        | some (.live _ token exiting) =>
          if x.closed = false ∧ x.handled < x.written then
            some (w.setConn c (x.handle msgs token exiting ok))
          else none
        | _ => none
  | .hangUp c =>
    match w.conns[c]? with
    | none => none
    | some x => some (w.setConn c { x with closed := true })
  | .helloTimeout c =>
    match w.conns[c]? with
    | none => none
    | some x =>
      if x.closed = false ∧ x.authed = false then some
        (w.setConn c (x.reply .refused true)) else none
  | .foreign c r =>
    match w.conns[c]? with
    | none => none
    | some x => if x.peer = .other then some (w.setConn c (x.reply r x.closed)) else none
  | .spawn pid =>
    match w.procs pid with
    | none => some (w.setProc pid .starting)
    | some _ => none
  | .up pid port token =>
    if w.procs pid = some .starting ∧ w.mutex = none then
      some ({ w with mutex := some pid }.setProc pid (.live port token false))
    else none
  | .beginExit pid =>
    match w.procs pid with
    | some (.live port token _) => some (w.setProc pid (.live port token true))
    | _ => none
  | .die pid =>
    match w.procs pid with
    | none | some .dead => none
    | some _ => some ({ w with mutex := w.mutex.filter (· ≠ pid) }.setProc pid .dead)
  | .file rt => some { w with file := rt }
  | .stop stopped => some { w with stopped := stopped }

/-- The call is at its start, in any home, whatever runs there. -/
structure Started (w : World) : Prop where
  reading : w.phase = .reading
  unsent : w.conns = []

/-- `deliver`, the runtimes and the home, in any order. -/
def delivery (exe : Bool) (msgs : List Text) : Lib.System World Event where
  init := Started
  step := step exe msgs

end Sonara.Client
