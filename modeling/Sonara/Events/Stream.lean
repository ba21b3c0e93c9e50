import Mathlib.Logic.Function.Basic
import Sonara.L1.Shown
import Sonara.Lib.System

/-!
# The state event stream (`events.rs`, `worker.rs`)

Each subscription has a queue of its own that the reader's worker fills, and a
`StateView` from which its `state` events are built. The number of a `state` event is the
reader's `seq` plus the number of status changes told, so that a change of either moves
it forward.

`subscribe` asks the reader three times: for the queue, for the engine's status and the
count of its changes, and for the state. The worker answers one request at a time, and
between two of them the reader and the engine's status move on; each request, the first
event and every event relayed is a step of its own here.

The queue to the client never overflows here, and the engine's name and the channels'
fields, which are the same on every stream, are left out of the events. Items, log lines,
earcons and cues carry no state and are left out too.
-/

namespace Sonara.Events

open Sonara (Text)
open Sonara.L1 (State Reader Input Chunking)

/-- `Readiness`. -/
inductive Readiness where
  | ready
  | loading
  | downloading
  | waiting
  | unavailable
  deriving DecidableEq, Repr

/-- `EngineStatus`; `reason` is the class of an external engine's failure. -/
structure EngineStatus where
  readiness : Readiness
  progress : Option (Nat × Nat)
  fallback : Option String
  message : Option String
  reason : Option String
  deriving DecidableEq, Repr

/-- `EngineStatus::ready`. -/
def EngineStatus.allReady : EngineStatus := ⟨.ready, none, none, none, none⟩

/-- What the worker broadcasts of the reader's state and the engine's status. -/
inductive Told where
  | state (s : State)
  | engineStatus (status : EngineStatus) (changes : Nat)
  deriving DecidableEq, Repr

/-- A `state` event as sent (`wire::state_event_with`). `stepping` and `code` are not
sent. -/
structure WireEvent where
  seq : Nat
  nowPlaying : Option (L1.ItemId × Option String × Text × Nat × Nat)
  queued : Nat
  paused : Bool
  muted : Bool
  volume : UInt8
  rate : UInt32
  voice : Option String
  engineStatus : EngineStatus
  deriving DecidableEq, Repr

/-- `wire::state_event_with`. -/
def stateEventWith (s : State) (seq : Nat) (status : EngineStatus) : WireEvent where
  seq := seq
  nowPlaying := s.nowPlaying.map fun n => (n.itemId, n.label, n.text, n.chunk, n.chunks)
  queued := s.queued
  paused := s.paused
  muted := s.muted
  volume := s.volume
  rate := s.rate
  voice := s.voice
  engineStatus := status

/-- What one stream knows to build its `state` events. -/
structure StateView where
  state : State
  status : EngineStatus
  changes : Nat
  /-- The last `seq` sent. -/
  sent : Option Nat
  deriving DecidableEq, Repr

namespace StateView

def seq (v : StateView) : Nat := v.state.seq + v.changes

/-- `StateView::render`: nothing if it would not move `seq` forward. -/
def render (v : StateView) : StateView × Option WireEvent :=
  if v.sent.any (fun s => decide (v.seq ≤ s)) then (v, none)
  else ({ v with sent := some v.seq }, some (stateEventWith v.state v.seq v.status))

end StateView

/-- `render`; `set` is `EventSet::state`. -/
def render (set : Bool) (v : StateView) : Told → StateView × Option WireEvent
  | .state s =>
    -- An older state raced with the first snapshot: keep the newer.
    if s.seq ≤ v.state.seq ∧ v.sent.isSome then (v, none)
    else
      let v := { v with state := s }
      if set then v.render else (v, none)
  | .engineStatus status changes =>
    if changes ≤ v.changes then (v, none)
    else
      let v := { v with status := status, changes := changes }
      if set then v.render else (v, none)

/-- How far a `subscribe` is. -/
inductive Phase where
  /-- `reader.subscribe()` has answered. -/
  | registered
  /-- `reader.engine_status_changes()` has answered. -/
  | counted (status : EngineStatus) (changes : Nat)
  /-- `reader.state()` has answered; the view is made. -/
  | viewing (view : StateView)
  /-- The first event is behind it; the thread relays. -/
  | relaying (view : StateView)
  deriving DecidableEq, Repr

/-- One stream. -/
structure Stream where
  /-- It asked for `state` events. -/
  set : Bool
  /-- Told by the worker, not yet received. -/
  queue : List Told
  phase : Phase
  /-- The `state` events sent, oldest first. -/
  sent : List WireEvent
  deriving DecidableEq, Repr

/-- The worker and the streams; a stream has a number. -/
structure World where
  reader : Reader
  /-- The engine's status as last told. -/
  status : EngineStatus
  changes : Nat
  streams : Nat → Option Stream

namespace World

/-- `broadcast`. -/
def broadcast (w : World) (told : List Told) : World :=
  { w with streams := fun k => (w.streams k).map fun s => { s with queue := s.queue ++ told } }

/-- One call of the reader, its state event told. -/
def call (split : Chunking → Text → List Text) (w : World) (i : Input) : World :=
  let c := w.reader.call split i
  { w with reader := c.r }.broadcast ((L1.states c.fx).map .state)

/-- `check_status`; `status` is what the engine says. -/
def checkStatus (w : World) (status : EngineStatus) : World :=
  if status ≠ w.status then
    { w with status := status, changes := w.changes + 1 }.broadcast
      [.engineStatus status (w.changes + 1)]
  else w

def put (w : World) (k : Nat) (s : Stream) : World :=
  { w with streams := Function.update w.streams k (some s) }

end World

/-- The sent event, if any, behind the ones before. -/
def Stream.send (s : Stream) (p : StateView × Option WireEvent) : Stream :=
  { s with phase := .relaying p.1, sent := s.sent ++ p.2.toList }

/-- A step of the worker or of a stream. -/
inductive Event where
  /-- A call of the reader. -/
  | call (i : Input)
  /-- The worker polls the engine's status. -/
  | check (status : EngineStatus)
  | subscribe (k : Nat) (set : Bool)
  /-- `engine_status_changes`: the worker checks first, so the answer and the count
  agree. -/
  | count (k : Nat) (status : EngineStatus)
  /-- `state`. -/
  | snapshot (k : Nat)
  /-- The first event. -/
  | first (k : Nat)
  /-- The thread receives one event. -/
  | relay (k : Nat)
  deriving DecidableEq, Repr

/-- One step. -/
def step (split : Chunking → Text → List Text) (w : World) : Event → Option World
  | .call i => some (w.call split i)
  | .check status => some (w.checkStatus status)
  | .subscribe k set =>
    match w.streams k with
    | none => some (w.put k ⟨set, [], .registered, []⟩)
    | some _ => none
  | .count k status =>
    let w := w.checkStatus status
    match w.streams k with
    | some ⟨set, queue, .registered, sent⟩ =>
      some (w.put k ⟨set, queue, .counted w.status w.changes, sent⟩)
    | _ => none
  | .snapshot k =>
    match w.streams k with
    | some ⟨set, queue, .counted status changes, sent⟩ =>
      some (w.put k ⟨set, queue, .viewing ⟨w.reader.shown, status, changes, none⟩, sent⟩)
    | _ => none
  | .first k =>
    match w.streams k with
    | some ⟨set, queue, .viewing view, sent⟩ =>
      let s : Stream := ⟨set, queue, .viewing view, sent⟩
      some (w.put k (s.send (if set then view.render else (view, none))))
    | _ => none
  | .relay k =>
    match w.streams k with
    | some ⟨set, e :: queue, .relaying view, sent⟩ =>
      let s : Stream := ⟨set, queue, .relaying view, sent⟩
      some (w.put k (s.send (render set view e)))
    | _ => none

/-- The reader has run for a while; nobody has subscribed yet. -/
structure Started (split : Chunking → Text → List Text) (w : World) : Prop where
  reader : ∃ is, w.reader = (L1.machine split).state is
  quiet : ∀ k, w.streams k = none

/-- The worker and the streams, in any order. -/
def feed (split : Chunking → Text → List Text) : Lib.System World Event where
  init := Started split
  step := step split

end Sonara.Events
