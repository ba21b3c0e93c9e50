import Sonara.Lib.Utf8
import Sonara.Strings

/-!
# Reading server-sent events (`sse.rs`)

The request thread reads the body line by line and sends the data of each event when its blank
line comes. Here are the reader loop of `run` and what it is given: the bytes in the pieces the
network cuts them into, under the size limit that the HTTP client puts on a body.

The receiver stays to the end. The request before the body is left out.
-/

namespace Sonara.External.Sse

open Lib (Read)

/-- The most a streamed answer may hold. -/
def MAX_STREAM_BODY : Nat := 128 * 1024 * 1024

inductive Reason where
  | network
  | timeout
  | format
  deriving DecidableEq, Repr

structure ExtError where
  reason : Reason
  message : Text
  deriving DecidableEq, Repr

inductive Event where
  /-- The `data` of one event. -/
  | data (d : Text)
  /-- The answer ended (`End`). -/
  | ended
  | failed (e : ExtError)
  deriving DecidableEq, Repr

/-- How a read of the body fails; any other failure with its text. -/
inductive IoError where
  | timeout
  | exceedsLimit
  | other (shown : Text)

/-- The failure of a body read. -/
def readFailed (host : Text) : IoError → ExtError
  | .timeout =>
    { reason := .timeout, message := host ++ " did not finish the answer in time".toList }
  | .exceedsLimit =>
    { reason := .format,
      message := "the answer of ".toList ++ host ++ " is larger than ".toList ++
        Text.number MAX_STREAM_BODY ++ " bytes".toList }
  | .other e =>
    { reason := .network, message := "the answer of ".toList ++ host ++ " broke off: ".toList ++ e }

/-- A line without its end (`trim_end_matches(['\r', '\n'])`). -/
def trimLine (line : Text) : Text := line.rdropWhile fun c => c == '\r' || c == '\n'

/-- Another `data:` line of the event. -/
def addData (data : Option Text) (v : Text) : Option Text :=
  match data with
  | some d => some (d ++ '\n' :: v)
  | none => some v

/-- A line that is not empty. `event:`, `id:`, `retry:` and comments carry nothing. -/
def takeLine (data : Option Text) (l : Text) : Option Text :=
  match l.dropPrefix? "data:".toList with
  | some v => addData data ((v.dropPrefix? [' ']).getD v)
  | none => data

/-- The event so far, when it has data. -/
def sendData (data : Option Text) : List Event := (data.map Event.data).toList

/-- The reader loop, and what it sends. A line that is no UTF-8 ends it. -/
def run (host : Text) (data : Option Text) (buf : List UInt8) (reads : List (Read UInt8 IoError)) :
    List Event :=
  match _h : Lib.readUntil 10 [] buf reads with
  | .error e => [.failed (readFailed host e)]
  | .ok (raw, buf', reads') =>
    if hraw : raw = [] then sendData data ++ [.ended]
    else
      match Lib.Utf8.decode raw with
      | none => [.failed (readFailed host (.other "stream did not contain valid UTF-8".toList))]
      | some line =>
        if trimLine line = [] then sendData data ++ run host none buf' reads'
        else run host (takeLine data (trimLine line)) buf' reads'
termination_by Lib.toCome buf reads
decreasing_by
  all_goals
    have := Lib.readUntil_toCome 10 _h
    have := List.length_pos_iff.mpr hraw
    rw [List.length_nil] at *
    omega

/-- The size limit of the HTTP client: a body below `MAX_STREAM_BODY` bytes is read as it is, and
of a longer one a part is read before the read fails. -/
structure BodyLimit where
  read : List (List UInt8) → List (Read UInt8 IoError)
  below {pieces : List (List UInt8)} :
    pieces.flatten.length < MAX_STREAM_BODY → read pieces = pieces.map .piece
  above {pieces : List (List UInt8)} : MAX_STREAM_BODY < pieces.flatten.length →
    ∃ part : List (List UInt8), part.flatten <+: pieces.flatten ∧
      read pieces = part.map .piece ++ [.failed .exceedsLimit]

/-- What the thread sends for a body that comes in `pieces`. -/
def sent (limit : BodyLimit) (host : Text) (pieces : List (List UInt8)) : List Event :=
  run host none [] (limit.read pieces)

/-! ## Event streams -/

inductive Eol where
  | lf
  | crlf
  deriving DecidableEq, Repr

def Eol.text : Eol → Text
  | .lf => ['\n']
  | .crlf => ['\r', '\n']

/-- One line of an event: data, with or without a space after the colon, or a comment or field
that carries none. -/
inductive Line where
  | data (space : Bool) (v : Text)
  | other (l : Text)

def Line.text : Line → Text
  | .data true v => "data: ".toList ++ v
  | .data false v => "data:".toList ++ v
  | .other l => l

/-- What an event stream may hold as one line. -/
def Line.Valid : Line → Prop
  | .data space v => '\n' ∉ v ∧ '\r' ∉ v ∧ (v.head? = some ' ' → space = true)
  | .other l => '\n' ∉ l ∧ '\r' ∉ l ∧
      (":".toList <+: l ∨ "event".toList <+: l ∨ "id".toList <+: l ∨ "retry".toList <+: l)

def Line.value? : Line → Option Text
  | .data _ v => some v
  | .other _ => none

def linesText (lines : List (Line × Eol)) : Text := lines.flatMap fun l => l.1.text ++ l.2.text

/-- The `data:` lines of an event are the lines of its payload; without data lines there is none. -/
def Carries (payload : Option Text) (lines : List Line) : Prop :=
  (∀ l ∈ lines, l.Valid) ∧
    lines.filterMap Line.value? = (payload.map (List.splitOn '\n')).getD []

/-- `text` is an event stream of the payloads. -/
inductive Encodes : List Text → Text → Prop
  /-- A block, ended by one or more blank lines, before the rest. -/
  | block {payload : Option Text} {lines : List (Line × Eol)} {eol : Eol} {blank : List Eol}
      {payloads : List Text} {text : Text} (carries : Carries payload (lines.map Prod.fst))
      (rest : Encodes payloads text) :
      Encodes (payload.toList ++ payloads)
        (linesText lines ++ (eol.text ++ (blank.flatMap Eol.text ++ text)))
  /-- The last block, without its blank line; its last line may lack its end. -/
  | last {payload : Option Text} {lines : List (Line × Eol)} {line : Option Line}
      (carries : Carries payload (lines.map Prod.fst ++ line.toList)) :
      Encodes payload.toList (linesText lines ++ (line.map Line.text).getD [])

end Sonara.External.Sse
