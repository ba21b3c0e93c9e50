import Sonara.Json
import Sonara.Lib.System
import Sonara.Lib.Utf8
import Sonara.Strings

/-!
# One connection of the TypeScript client (`connection.ts`)

`request` writes a line with an id and keeps the promise in `pending`; a reply, a timeout or the
close settles it. The runtime answers the lines it received in their order, with the id of a line
it could parse and without an id otherwise, and writes events in between. Its bytes come in
chunks cut anywhere.

The world has the connection, the lines that are not answered, what the runtime wrote and what
is still on its way. A step is one access: a call, a timer, a line the runtime writes, a chunk,
one round of the loop in `onData` (a listener of `onEvent` may call `request` or `close` between
two), the close. For every promise that is settled the world keeps what settled it.

`JSON` is a parameter. Ids are natural numbers: they stay far below 2^53.
-/

namespace Sonara.TsClient

/-- Longest line the runtime accepts (bytes, newline included). -/
def MAX_LINE : Nat := 2 ^ 20

/-- `JSON.stringify`, and `JSON.parse` where it does not throw. -/
structure JsonText where
  stringify : Json → Text
  parse : Text → Option Json

/-- The white space of `String.prototype.trim`. -/
def isJsSpace (c : Char) : Bool :=
  let n := c.toNat
  (9 ≤ n && n ≤ 13) || n == 0x20 || n == 0xA0 || n == 0xFEFF || n == 0x1680 ||
    (0x2000 ≤ n && n ≤ 0x200A) || n == 0x2028 || n == 0x2029 || n == 0x202F || n == 0x205F ||
    n == 0x3000

def jsTrim (t : Text) : Text := (t.dropWhile isJsSpace).rdropWhile isJsSpace

/-- The error a promise is rejected with; the runtime's own is passed on as it is. -/
structure SonaraError where
  code : Json
  message : Json
  reason : Option Json := none

def clientError (code message : Text) : SonaraError :=
  { code := .string code, message := .string message }

inductive Outcome where
  | resolved (m : Json)
  | rejected (e : SonaraError)

/-- A request without its reply. -/
structure Pending where
  id : Nat
  type : Text
  timeoutMs : Option Nat
  deriving DecidableEq, Repr

structure Connection where
  buf : Text := []
  nextId : Nat := 1
  /-- In the order of the requests, as a `Map` keeps it. -/
  pending : List Pending := []
  closed : Bool := false

/-- The promises a call settles, in order. -/
abbrev Settles := List (Nat × Outcome)

/-- What `onLine` takes a message for: a reply with its `id` when that is a number. -/
inductive Kind where
  | event
  | reply (id : Option Number)
  | other
  deriving DecidableEq, Repr

def kind : Json → Kind
  | .object m =>
    match Json.field "event".toList m with
    | some (.string _) => .event
    | _ =>
      match Json.field "ok".toList m with
      | none => .other
      | some _ =>
        match Json.field "id".toList m with
        | some (.number n) => .reply (some n)
        | _ => .reply none
  | _ => .other

/-- `a ?? b`. -/
def orElse (a : Option Json) (b : Json) : Json :=
  match a with
  | none | some .null => b
  | some v => v

/-- How a reply settles its promise. -/
def outcome (m : Json) : Outcome :=
  match m.get "ok".toList with
  | some (.bool true) => .resolved m
  | _ =>
    let err := orElse (m.get "error".toList) (.object [])
    .rejected
      { code := orElse (err.get "code".toList) (.string "E_BAD_REQUEST".toList)
        message := orElse (err.get "message".toList) (.string "request failed".toList)
        reason := err.get "reason".toList }

/-- `{ ...fields, key: v }`. -/
def setField (key : Text) (v : Json) (fields : List (Text × Json)) : List (Text × Json) :=
  if fields.any (·.1 == key) then fields.map fun f => if f.1 = key then (key, v) else f
  else fields ++ [(key, v)]

namespace Connection

variable (js : JsonText) (c : Connection)

/-- The line of a request. -/
def requestLine (type : Text) (fields : List (Text × Json)) (id : Nat) : Text :=
  js.stringify (.object (setField "id".toList (.number (.integer id))
    (setField "type".toList (.string type) fields))) ++ ['\n']

/-- A request: the connection, what it settles at once, and the id of the line it writes. On a
closed connection it is rejected and never pending. -/
def request (type : Text) (fields : List (Text × Json)) (timeoutMs : Option Nat) :
    Connection × Settles × Option Nat :=
  if c.closed then (c, [], none)
  else
    let id := c.nextId
    let bytes := (Lib.Utf8.encode (requestLine js type fields id)).length
    let c := { c with nextId := id + 1 }
    if bytes > MAX_LINE then
      (c, [(id, .rejected (clientError "E_BAD_REQUEST".toList
        ("line too long: ".toList ++ Text.number bytes ++ " bytes, at most ".toList ++
          Text.number MAX_LINE)))], none)
    else
      ({ c with pending := c.pending ++ [{ id := id, type := type, timeoutMs := timeoutMs }] },
        [], some id)

/-- The timer of a request fires. It is cleared when the promise is settled. -/
def timeout (id : Nat) : Option (Connection × Settles) :=
  (c.pending.find? (·.id = id)).bind fun p => p.timeoutMs.map fun ms =>
    ({ c with pending := c.pending.filter (·.id ≠ id) },
      [(id, .rejected (clientError "E_TIMEOUT".toList
        ("no reply to ".toList ++ p.type ++ " within ".toList ++ Text.number ms ++ " ms".toList)))])

def onLine (line : Text) : Connection × Settles :=
  match js.parse line with
  | none => (c, [])
  | some m =>
    match kind m with
    | .event | .other => (c, [])
    | .reply id =>
      -- without an id it belongs to the oldest pending request
      let key := match id with
        | some n => (c.pending.find? fun p => Number.integer p.id = n).map (·.id)
        | none => c.pending.head?.map (·.id)
      match key with
      | none => (c, [])
      | some key => ({ c with pending := c.pending.filter (·.id ≠ key) }, [(key, outcome m)])

/-- One round of the loop in `onData`, when `buf` has a whole line. -/
def nextLine : Option (Connection × Settles) :=
  (Text.cutLine c.buf).map fun p =>
    let c := { c with buf := p.2 }
    if jsTrim p.1 = [] then (c, []) else c.onLine js (jsTrim p.1)

def finish : Connection × Settles :=
  if c.closed then (c, [])
  else
    ({ c with closed := true, pending := [] },
      c.pending.map fun p => (p.id, .rejected (clientError "E_CLOSED".toList
        "the connection closed before the reply".toList)))

end Connection

/-! ## The connection and its runtime -/

/-- What settled a promise: the line of the runtime with this number, the request's timeout, the
close, or its own size. -/
inductive Cause where
  | line (n : Nat)
  | timeout
  | close
  | tooLong
  deriving DecidableEq, Repr

structure Settled where
  id : Nat
  outcome : Outcome
  cause : Cause

/-- A line the runtime wrote: the request it answers (none for an event), and whether it names
its id. -/
structure ServerLine where
  text : Text
  answers : Option Nat
  named : Bool
  deriving DecidableEq, Repr

structure World where
  conn : Connection := {}
  settled : List Settled := []
  /-- The requests whose lines are not answered yet, oldest first. -/
  unanswered : List Nat := []
  /-- All the runtime wrote, and the text of it that has not arrived. -/
  sent : List ServerLine := []
  wire : Text := []
  /-- The lines `onData` has handled. -/
  seen : Nat := 0

inductive Event where
  | request (type : Text) (fields : List (Text × Json)) (timeoutMs : Option Nat)
  | timeout (id : Nat)
  /-- The runtime answers the oldest line; it could parse it or not. -/
  | answer (text : Text) (parsed : Bool)
  | event (text : Text)
  /-- A chunk of so many characters arrives. -/
  | data (n : Nat)
  | line
  | close

namespace World

variable (js : JsonText) (w : World)

/-- The promises a call settled, with the cause. -/
def settle (cause : Cause) (r : Connection × Settles) : World :=
  { w with
    conn := r.1
    settled := w.settled ++ r.2.map fun s => { id := s.1, outcome := s.2, cause := cause } }

/-- A line of the runtime is one line and reads as `k`. -/
def reads (text : Text) (k : Kind) : Bool :=
  decide ('\n' ∉ text ∧ jsTrim text ≠ [] ∧ (js.parse (jsTrim text)).map kind = some k)

def send (l : ServerLine) : World :=
  { w with sent := w.sent ++ [l], wire := w.wire ++ (l.text ++ ['\n']) }

def step : Event → Option World
  | .request type fields timeoutMs =>
    let (c, settles, written) := w.conn.request js type fields timeoutMs
    some { w.settle .tooLong (c, settles) with unanswered := w.unanswered ++ written.toList }
  | .timeout id => (w.conn.timeout id).map (w.settle .timeout)
  | .answer text parsed =>
    match w.unanswered with
    | [] => none
    | id :: rest =>
      if reads js text (.reply (if parsed then some (.integer id) else none)) then
        some { w.send { text := text, answers := some id, named := parsed } with
          unanswered := rest }
      else none
  | .event text =>
    if reads js text .event then some (w.send { text := text, answers := none, named := false })
    else none
  | .data n =>
    some { w with
      conn := { w.conn with buf := w.conn.buf ++ w.wire.take n }
      wire := w.wire.drop n }
  | .line => (w.conn.nextLine js).map fun r => { w.settle (.line w.seen) r with seen := w.seen + 1 }
  | .close => some (w.settle .close w.conn.finish)

end World

/-- The runs of a connection that was just opened. -/
def runs (js : JsonText) : Lib.System World Event where
  init w := w = {}
  step := World.step js

end Sonara.TsClient
