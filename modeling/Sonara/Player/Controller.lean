import Mathlib.Algebra.Order.Floor.Ring
import Mathlib.Data.Rat.Floor
import Sonara.Lib.System
import Sonara.Strings

/-!
# The settings of the player (`controller.ts`)

`setVolume` and `setRate` show a value at once (`pending`) and hand it to the sender of the
setting: one `drain` at a time sends the newest value until none is left. What follows an `await`
or stands in a `.then` is a task of its own in the queue of microtasks:

* `resume`, the drain goes on when its `client.set` ended;
* `finish`, the callback of the drain's promise, which says that no drain is running;
* `settle`, a caller goes on, once the promise it awaits is resolved.

The world has the controller, the requests in flight and the queue. An event is a call, the next
task, the end of a request, a `state` event, a timer, or time that passes. Calls, ends and `state`
events come between any two tasks; a timer waits until the queue is empty.

This is the controller before `dispose`. Its listeners and the view it computes for them change
nothing here and are left out, as are the buttons, which touch the other keys of `pending`.
-/

namespace Sonara.Player

inductive Key where
  | volume
  | rate
  deriving DecidableEq, Repr

/-- A number of JavaScript; a finite one is a rational. -/
inductive JsNumber where
  | nan
  | infinity (negative : Bool)
  | finite (q : ℚ)
  deriving DecidableEq, Repr

/-- The least and the greatest value of a setting. -/
def Key.range : Key → Int × Int
  | .volume => (0, 100)
  | .rate => (100, 400)

/-- `Math.min(max, Math.max(min, Math.round(raw)))`; a call with `NaN` does nothing. -/
def Key.value (key : Key) : JsNumber → Option Int
  | .nan => none
  | .infinity negative => some (if negative then key.range.1 else key.range.2)
  | .finite q => some (min key.range.2 (max key.range.1 ⌊q + 1 / 2⌋))

/-- One value shown ahead of the runtime. -/
structure Pending where
  value : Int
  /-- Calls not settled yet. -/
  inflight : Nat
  /-- When its timer fires. -/
  timer : Option Nat := none
  deriving DecidableEq, Repr

structure Sender where
  next : Option Int := none
  /-- The drain in progress. -/
  running : Option Nat := none
  deriving DecidableEq, Repr

/-- A setting, with the last value given to it, the last one passed to `client.set` and the time
of the last `settle`. -/
structure Setting where
  sender : Sender := {}
  pending : Option Pending := none
  given : Option Int := none
  sent : Option Int := none
  settledAt : Nat := 0
  deriving DecidableEq, Repr

/-- A `client.set` whose promise is not settled; the drain awaits it. -/
structure Request where
  key : Key
  value : Int
  drain : Nat
  deriving DecidableEq, Repr

/-- A call, by the promise it awaits: that of a drain of its key. -/
structure Caller where
  key : Key
  drain : Nat
  deriving DecidableEq, Repr

inductive Task where
  | resume (key : Key) (drain : Nat) (err : Option Text)
  | finish (key : Key) (drain : Nat) (ok : Bool)
  | settle (key : Key) (ok : Bool)
  deriving DecidableEq, Repr

structure World where
  settings : Key → Setting := fun _ => {}
  /-- The values of the last `state` event. -/
  state : Option (Key → ℚ) := none
  error : Option Text := none
  /-- The drains begun so far. -/
  drains : Nat := 0
  requests : List Request := []
  callers : List Caller := []
  queue : List Task := []
  clock : Nat := 0

/-- What the outside does, and the next task. A request ends with an error or without. -/
inductive Event where
  | call (key : Key) (raw : JsNumber)
  | task
  | result (i : Nat) (err : Option Text)
  | state (values : Key → ℚ)
  | timer (key : Key)
  | wait (ms : Nat)

namespace Setting

/-- The value is shown, and its timer is cleared. -/
def hold (value : Int) (s : Setting) : Setting :=
  match s.pending with
  | some p =>
    { s with pending := some { value := value, inflight := p.inflight + 1 }, given := some value }
  | none => { s with pending := some { value := value, inflight := 1 }, given := some value }

/-- The runtime shows the value that is pending. -/
def agrees (shown : Option ℚ) (p : Pending) : Bool := decide (shown = some (p.value : ℚ))

/-- One call settled, with the runtime's value if a `state` event came. -/
def settle (settleMs clock : Nat) (shown : Option ℚ) (ok : Bool) (s : Setting) : Setting :=
  let s := { s with settledAt := clock }
  match s.pending with
  | none => s
  | some p =>
    let p := { p with inflight := p.inflight - 1 }
    if p.inflight > 0 then { s with pending := some p }
    else if !ok || shown.isNone || agrees shown p then { s with pending := none }
    else { s with pending := some { p with timer := some (clock + settleMs) } }

/-- A `state` event: a settled change the runtime confirms needs no override any more. -/
def confirm (shown : ℚ) (s : Setting) : Setting :=
  match s.pending with
  | some p => if p.inflight = 0 ∧ agrees (some shown) p then { s with pending := none } else s
  | none => s

/-- The timer has fired. -/
def expire (s : Setting) : Setting :=
  match s.pending with
  | some p =>
    if p.inflight = 0 then { s with pending := none }
    else { s with pending := some { p with timer := none } }
  | none => s

/-- The timer of the override is due. -/
def due (clock : Nat) (s : Setting) : Bool :=
  (s.pending.bind (·.timer)).any fun t => decide (t ≤ clock)

end Setting

namespace World

variable (w : World)

def modify (key : Key) (f : Setting → Setting) : World :=
  { w with settings := fun k => if k = key then f (w.settings k) else w.settings k }

/-- The loop of `drain`, up to its `await` or its end. -/
def drain (key : Key) (d : Nat) (ok : Bool) : World :=
  match (w.settings key).sender.next with
  | some value =>
    { w.modify key fun s => { s with sender := { s.sender with next := none }, sent := some value } with
      requests := w.requests ++ [⟨key, value, d⟩] }
  | none => { w with queue := w.queue ++ [.finish key d ok] }

/-- The first half of `setting`: up to its `await`. -/
def setting (key : Key) (raw : JsNumber) : World :=
  match key.value raw with
  | none => w
  | some value =>
    let w := w.modify key fun s =>
      { s.hold value with sender := { s.sender with next := some value } }
    match (w.settings key).sender.running with
    | some d => { w with callers := w.callers ++ [⟨key, d⟩] }
    | none =>
      let d := w.drains
      let w := { w with drains := d + 1 }.drain key d true
      let w := w.modify key fun s => { s with sender := { s.sender with running := some d } }
      { w with callers := w.callers ++ [⟨key, d⟩] }

/-- The callback of the drain's promise: its callers go on in their order. -/
def finish (key : Key) (d : Nat) (ok : Bool) : World :=
  { w.modify key fun s => { s with sender := { s.sender with running := none } } with
    queue := w.queue ++ (w.callers.filter (· = ⟨key, d⟩)).map fun c => .settle c.key ok
    callers := w.callers.filter (· ≠ ⟨key, d⟩) }

/-- What the runtime shows for `key`. -/
def shown (key : Key) : Option ℚ := w.state.map fun values => values key

/-- The next task of the queue. -/
def task (settleMs : Nat) : Option World :=
  match w.queue with
  | [] => none
  | t :: queue =>
    let w := { w with queue := queue }
    match t with
    | .resume key d err => some ({ w with error := err }.drain key d err.isNone)
    | .finish key d ok => some (w.finish key d ok)
    | .settle key ok => some (w.modify key (·.settle settleMs w.clock (w.shown key) ok))

def step (settleMs : Nat) : Event → Option World
  | .call key raw => some (w.setting key raw)
  | .task => w.task settleMs
  | .result i err => w.requests[i]?.map fun r =>
    { w with requests := w.requests.eraseIdx i, queue := w.queue ++ [.resume r.key r.drain err] }
  | .state values => some { w with
      state := some values
      settings := fun k => (w.settings k).confirm (values k) }
  | .timer key =>
    if w.queue = [] ∧ (w.settings key).due w.clock then some (w.modify key Setting.expire) else none
  | .wait ms => some { w with clock := w.clock + ms }

end World

/-- The runs of a controller. -/
def runs (settleMs : Nat) : Lib.System World Event where
  init w := w = {}
  step w := w.step settleMs

end Sonara.Player
