import Sonara.Lib.System

/-!
# An external engine's chunk and the hold (`hold.rs`, `worker.rs`, `external/mod.rs`,
`streaming.rs`)

Three parties share an external engine's counters. `Hold::set`, one call at a time,
raises the hold in three steps: it moves the epoch, swaps `held`, and ends what is in
flight by moving the engine's cancel generation; a release is one swap. The reader
cancels by moving the same generation. And a chunk in normal scope goes through
`synthesize`: it reads the epoch and the generation (`mark`), looks at the hold and at the
generation, and then asks the provider, for the whole answer in parts (`provider`,
`http_request`) or as a stream (`begin_stream`, `first_audio`, `Rest::next`), with
retries and adapted requests on both ways.

A step here is one access to what is shared. `CancelToken::run` looks at the generation
and starts its request in one step; a streamed request is started without a look
(`sse::start`), which comes before the next wait for audio. What the provider answers, and
what the chunk is answered with from the cache or the fallback, is chosen by the events. A
request's thread can always be started, and does not panic.
-/

namespace Sonara.External

/-- `MAX_ADAPTS`. -/
def MAX_ADAPTS : Nat := 2

/-- `External::mark`: the hold's epoch, then the cancel generation. -/
structure Mark where
  epoch : Nat
  gen : Nat
  deriving DecidableEq, Repr

/-- What a request comes to. -/
inductive Answer where
  | ok
  /-- A 429 or 503 with a short `Retry-After`, not for a quota. -/
  | retryAfter
  /-- A refusal the adapter can adapt to. -/
  | adapts
  | failed
  deriving DecidableEq, Repr

/-- What a look at a stream's events gives. -/
inductive Heard where
  /-- Nothing yet, or an event without audio. -/
  | nothing
  | audio
  | answer (a : Answer)
  deriving DecidableEq, Repr

/-- How the chunk was answered. -/
inductive Outcome where
  /-- With audio, of the provider, the cache or the fallback, or with an error that is
  not a cancel. -/
  | answered
  /-- `Err(Cancelled)`: the chunk is dropped. -/
  | cancelled
  deriving DecidableEq, Repr

/-- How a chunk that may be sent is answered. -/
inductive Route where
  /-- Without a request: no voice, no key, blocked, or cached. -/
  | local
  /-- In this many parts. -/
  | whole (parts : Nat)
  | stream
  deriving DecidableEq, Repr

/-- A request to make: which way, and what it has used up of its retries. -/
structure Ask where
  streamed : Bool
  /-- The parts of the text still to ask for, this one included. -/
  parts : Nat
  retried : Bool
  adapted : Nat
  deriving DecidableEq, Repr

/-- Where the chunk is. -/
inductive Phase where
  | outside
  | epochRead (epoch : Nat)
  | marked (m : Mark)
  /-- The hold was not raised. -/
  | unheld (m : Mark)
  /-- The generation had not moved. -/
  | current (m : Mark)
  /-- A request is to be started. -/
  | asking (m : Mark) (a : Ask)
  /-- A whole answer is waited for. -/
  | waiting (m : Mark) (a : Ask)
  /-- A stream's events are waited for; next is a look at the generation. -/
  | first (m : Mark) (a : Ask)
  /-- The generation had not moved; next is a look at the events. -/
  | listening (m : Mark) (a : Ask)
  /-- `CancelToken::sleep` before a retry. -/
  | sleeping (m : Mark) (a : Ask)
  /-- `Rest`: the reader pulls the audio, the first of which is there. -/
  | playing (m : Mark) (first : Bool)
  /-- The generation has moved; `cut_by_hold` is to look at the hold. -/
  | cut (m : Mark)
  /-- The hold was not raised; `cut_by_hold` is to look at the epoch. -/
  | lifted (m : Mark)
  | done (outcome : Outcome)
  deriving DecidableEq, Repr

/-- Where `Hold::set` is. -/
inductive Setter where
  | idle
  /-- `set(true)` has moved the epoch. -/
  | epochMoved
  /-- `set(true)` has swapped, and changed it or not. -/
  | raised (changed : Bool)
  /-- `set(true)` has ended what is in flight. -/
  | ended
  /-- `set(false)` has begun. -/
  | releasing
  /-- `set(false)` has swapped. -/
  | released
  deriving DecidableEq, Repr

structure World where
  /-- `Hold::epoch`. -/
  epoch : Nat
  /-- `Hold::held`. -/
  held : Bool
  /-- The generation of the engine's cancel token, which the hold watches. -/
  gen : Nat
  setter : Setter
  chunk : Phase
  /-- A `set(true)` has returned, and no `set(false)` has begun since. -/
  silenced : Bool
  /-- The reader cancelled since the chunk was marked. -/
  readerCancelled : Bool
  /-- The requests started for the chunk: whether each was started while silenced. -/
  requests : List Bool
  deriving DecidableEq, Repr

namespace World

def goto (w : World) (p : Phase) : World := { w with chunk := p }

/-- A request goes out. -/
def send (w : World) : World := { w with requests := w.requests ++ [w.silenced] }

/-- Stay in step with the generation, or be cut. -/
def unlessCut (w : World) (m : Mark) (next : World) : World :=
  if w.gen = m.gen then next else w.goto (.cut m)

/-- Where an answer that is no audio leads; `whole` when an adapted stream gives way to
the whole answer. -/
def after (m : Mark) (a : Ask) (whole : Bool) : Answer → Phase
  | .ok =>
    if 1 < a.parts then .asking m { a with parts := a.parts - 1, retried := false, adapted := 0 }
    else .done .answered
  | .retryAfter =>
    if a.retried then .done .answered else .sleeping m { a with retried := true }
  | .adapts =>
    if a.adapted < (if a.streamed then MAX_ADAPTS + 1 else MAX_ADAPTS) then
      .asking m (if a.streamed && whole then ⟨false, a.parts, false, 0⟩
        else { a with adapted := a.adapted + 1 })
    else .done .answered
  | .failed => .done .answered

end World

/-- A step of `Hold::set`, of the reader, or of the chunk. -/
inductive Event where
  /-- `set(true)` begins: `epoch.fetch_add`. -/
  | moveEpoch
  /-- `held.swap(true)`. -/
  | raise
  /-- `token.cancel()`. -/
  | endRequests
  /-- `set(true)` returns. -/
  | raised
  /-- `set(false)` begins. -/
  | release
  /-- `held.swap(false)`. -/
  | lower
  /-- `set(false)` returns. -/
  | lowered
  /-- `External::cancel`. -/
  | readerCancel
  | readEpoch
  | readGen
  | checkHeld
  | checkGen
  /-- What the profile, the cache, the health and the key say. -/
  | configured (route : Route)
  /-- The request starts. -/
  | start
  /-- A whole answer comes; a wait ends. -/
  | reply (a : Answer)
  | slept (past : Bool)
  /-- `first_audio` looks at the generation. -/
  | look
  /-- `first_audio` looks at the events; `whole` when an adapted stream gives way. -/
  | hear (h : Heard) (whole : Bool)
  /-- `Rest::next`; `past` when the answer ended or was cut for another reason. -/
  | next (past : Bool)
  /-- `cut_by_hold` looks at the hold, then at the epoch. -/
  | checkCut
  | checkEpoch
  deriving DecidableEq, Repr

/-- One step. -/
def step (w : World) : Event → Option World
  | .moveEpoch =>
    if w.setter = .idle then some { w with epoch := w.epoch + 1, setter := .epochMoved } else none
  | .raise =>
    if w.setter = .epochMoved then some { w with held := true, setter := .raised (!w.held) }
    else none
  | .endRequests =>
    if w.setter = .raised true then some { w with gen := w.gen + 1, setter := .ended } else none
  | .raised =>
    if w.setter = .raised false ∨ w.setter = .ended then
      some { w with setter := .idle, silenced := true }
    else none
  | .release =>
    if w.setter = .idle then some { w with setter := .releasing, silenced := false } else none
  | .lower =>
    if w.setter = .releasing then some { w with held := false, setter := .released } else none
  | .lowered => if w.setter = .released then some { w with setter := .idle } else none
  | .readerCancel => some { w with gen := w.gen + 1, readerCancelled := true }
  | .readEpoch =>
    match w.chunk with
    | .outside => some (w.goto (.epochRead w.epoch))
    | _ => none
  | .readGen =>
    match w.chunk with
    | .epochRead epoch => some ({ w with readerCancelled := false }.goto (.marked ⟨epoch, w.gen⟩))
    | _ => none
  | .checkHeld =>
    match w.chunk with
    | .marked m => some (w.goto (if w.held then .done .answered else .unheld m))
    | _ => none
  | .checkGen =>
    match w.chunk with
    | .unheld m => some (w.unlessCut m (w.goto (.current m)))
    | _ => none
  | .configured route =>
    match w.chunk with
    | .current m =>
      match route with
      | .local => some (w.goto (.done .answered))
      | .whole parts => some (w.goto (.asking m ⟨false, parts, false, 0⟩))
      | .stream => some (w.goto (.asking m ⟨true, 1, false, 0⟩))
    | _ => none
  | .start =>
    match w.chunk with
    | .asking m a =>
      if a.streamed then some (w.send.goto (.first m a))
      else some (w.unlessCut m (w.send.goto (.waiting m a)))
    | _ => none
  | .reply answer =>
    match w.chunk with
    | .waiting m a => some (w.unlessCut m (w.goto (World.after m a false answer)))
    | _ => none
  | .slept past =>
    match w.chunk with
    | .sleeping m a => some (w.unlessCut m (w.goto (if past then .asking m a else .sleeping m a)))
    | _ => none
  | .look =>
    match w.chunk with
    | .first m a => some (w.unlessCut m (w.goto (.listening m a)))
    | _ => none
  | .hear h whole =>
    match w.chunk with
    | .listening m a =>
      match h with
      | .nothing => some (w.goto (.first m a))
      | .audio => some (w.goto (.playing m true))
      | .answer answer => some (w.goto (World.after m a whole answer))
    | _ => none
  | .next past =>
    match w.chunk with
    | .playing m true => some (w.goto (.playing m false))
    | .playing m false =>
      some (w.unlessCut m (w.goto (if past then .done .answered else .playing m false)))
    | _ => none
  | .checkCut =>
    match w.chunk with
    | .cut m => some (w.goto (if w.held then .done .answered else .lifted m))
    | _ => none
  | .checkEpoch =>
    match w.chunk with
    | .lifted m =>
      some (w.goto (.done (if w.epoch ≠ m.epoch then .answered else .cancelled)))
    | _ => none

/-- The hold is settled, and the chunk is not begun. -/
structure Started (w : World) : Prop where
  idle : w.setter = .idle
  outside : w.chunk = .outside
  unsent : w.requests = []
  silenced : w.silenced = true → w.held = true

/-- `Hold::set`, the reader and the chunk, in any order. -/
def external : Lib.System World Event where
  init := Started
  step := step

end Sonara.External
