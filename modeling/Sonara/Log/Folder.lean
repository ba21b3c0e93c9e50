import Mathlib.Data.List.AList
import Mathlib.Data.List.Sort
import Sonara.Lib.Machine
import Sonara.Log.Scrub

/-!
# The log folder

`LogDir` of `sonara-log`'s `lib.rs`. A folder is its files by name (the lock file, which
is empty and never pruned, is left out). Each operation on a file may fail (`Faults`), and
the order `read_dir` lists the files in is the system's (`Append.listing`). Sizes are
`u64`, and no folder holds 2^63 bytes: they are numbers here. Segment numbers are `u32`
and end at `U32_MAX`.
-/

namespace Sonara.Log

open Sonara.Text

/-- A stream's file rotates before it would pass this size. -/
def SEGMENT_BYTES : Nat := 1000000

/-- Everything in the log folder together stays at or under this size. -/
def BUDGET_BYTES : Nat := 10000000

/-- A longer line is clipped. -/
def MAX_LINE_BYTES : Nat := 256 * 1024

def U32_MAX : Nat := 2 ^ 32 - 1

/-- Why a line was not written. -/
inductive Error where
  | busy
  | overBudget
  | badStream
  | io
  deriving DecidableEq, Repr

/-- The limits of a log folder. -/
structure LogDir where
  segment : Nat
  budget : Nat
  deriving DecidableEq, Repr

def LogDir.new : LogDir := { segment := SEGMENT_BYTES, budget := BUDGET_BYTES }

/-- Other limits. -/
def LogDir.withLimits (segment budget : Nat) : LogDir :=
  { segment := max segment 1, budget := max budget 1 }

/-! ## Names -/

def validStream (s : Text) : Bool :=
  s ≠ [] && s.all fun c => c.isAlphanum || c == '-' || c == '_'

/-- `str::parse::<u32>`: digits, perhaps behind a plus sign. -/
def parseU32 (t : Text) : Option Nat :=
  let digits := if t.head? = some '+' then t.tail else t
  if digits ≠ [] ∧ digits.all Char.isDigit then
    let n := Nat.ofDigitChars 10 digits 0
    if n ≤ U32_MAX then some n else none
  else none

/-- The segment number of `name` if it is `<stream>.<n>.log`. -/
def segmentNumber (name stream : Text) : Option Nat :=
  (name.dropPrefix? stream).bind fun rest => (rest.dropPrefix? ['.']).bind fun rest =>
    (rest.dropSuffix? ".log".toList).bind fun n =>
      if n = [] || !n.all Char.isDigit then none else parseU32 n

/-- `str::rsplit_once`. -/
def rsplitOnce (sep : Char) (t : Text) : Option (Text × Text) :=
  (splitOnce sep t.reverse).map fun p => (p.2.reverse, p.1.reverse)

/-- Any `<x>.<n>.log`'s number, for the tie-break. -/
def anySegmentNumber (name : Text) : Nat :=
  ((name.dropSuffix? ".log".toList).bind fun s => (rsplitOnce '.' s).bind fun p =>
    parseU32 p.2).getD 0

/-- `<stream>.log`, the file a stream appends to. -/
def path (stream : Text) : Text := stream ++ ".log".toList

/-- `<stream>.<n>.log`, an older segment (1 is the newest). -/
def segmentPath (stream : Text) (n : Nat) : Text := stream ++ '.' :: (number n ++ ".log".toList)

/-- `line` as one line (line breaks become spaces), clipped to `MAX_LINE_BYTES`. -/
def oneLine (line : Text) : Text :=
  let clipped := clip line MAX_LINE_BYTES
  if clipped.any (['\n', '\r'].contains ·) then
    clipped.map fun c => if ['\n', '\r'].contains c then ' ' else c
  else clipped

/-- What is written for a line. -/
def entry (line : Text) : Text := oneLine line ++ ['\n']

/-! ## Files -/

structure File where
  text : Text
  /-- The last write. -/
  modified : Nat
  deriving DecidableEq, Repr

def File.len (f : File) : Nat := Log.len f.text

abbrev Folder := AList fun _ : Text => File

namespace Folder

/-- The sizes of all files. -/
def total (d : Folder) : Nat := (d.entries.map fun e => e.2.len).sum

def textOf (d : Folder) (name : Text) : Text := (d.lookup name).elim [] File.text

/-- `metadata(name).map(|m| m.len()).unwrap_or(0)`. -/
def lenOf (d : Folder) (name : Text) : Nat := (d.lookup name).elim 0 File.len

/-- `std::fs::rename`: it replaces what has the new name. -/
def rename (d : Folder) (old new : Text) : Folder :=
  match d.lookup old with
  | none => d
  | some f => (d.erase old).insert new f

/-- `set_len(0)`. -/
def empty (d : Folder) (name : Text) (now : Nat) : Folder :=
  d.insert name { text := [], modified := now }

/-- `write_all` on a file opened to append. -/
def write (d : Folder) (name : Text) (now : Nat) (bytes : Text) : Folder :=
  d.insert name { text := d.textOf name ++ bytes, modified := now }

end Folder

/-- A file in the folder, for the budget. -/
structure Found where
  path : Text
  len : Nat
  modified : Nat
  number : Nat
  deriving DecidableEq, Repr

/-- Every file in the folder, as `read_dir` lists them. -/
def files (listing : Text → Nat) (d : Folder) : List Found :=
  (d.entries.insertionSort fun a b => listing a.1 ≤ listing b.1).map fun e =>
    { path := e.1, len := e.2.len, modified := e.2.modified, number := anySegmentNumber e.1 }

/-- The older of two files goes first: by last write, then by segment number. -/
def Found.Older (a b : Found) : Prop :=
  a.modified < b.modified ∨ a.modified = b.modified ∧ b.number ≤ a.number

instance (a b : Found) : Decidable (a.Older b) := by
  unfold Found.Older
  infer_instance

/-- The operations that fail. -/
structure Faults where
  /-- The lock: `none` when it is taken. -/
  lock : Option Error
  rename : Text → Bool
  copy : Bool
  remove : Text → Bool
  empty : Bool
  /-- The file does not open for the line. -/
  cannotOpen : Bool
  /-- The write ends after so many characters. -/
  write : Option Nat

/-- Every operation succeeds. -/
def Faults.none : Faults :=
  { lock := .none, rename := fun _ => false, copy := false, remove := fun _ => false, empty := false
    cannotOpen := false, write := .none }

/-! ## An append -/

/-- The stream's segment numbers, the highest first. -/
def numbers (stream : Text) (d : Folder) : List Nat :=
  (d.keys.filterMap fun name => segmentNumber name stream).insertionSort (· ≥ ·)

/-- The segments move up by one, the highest first, until one cannot move. -/
def shift (x : Faults) (stream : Text) : List Nat → Folder → Folder × Bool
  | [], d => (d, true)
  | n :: ns, d =>
    if x.rename (segmentPath stream n) then (d, false)
    else shift x stream ns (Folder.rename d (segmentPath stream n)
      (segmentPath stream (min (n + 1) U32_MAX)))

/-- Shift the stream's segments up by one and make its file segment 1. -/
def rotate (x : Faults) (stream : Text) (now : Nat) (d : Folder) : Folder :=
  match shift x stream (numbers stream d) d with
  | (d, false) => d
  | (d, true) =>
    let first := segmentPath stream 1
    if x.rename (path stream) then
      -- Held without delete sharing: copied out (the copy keeps the last write) and emptied.
      match x.copy, d.lookup (path stream) with
      | false, some f =>
        let copied : Folder := d.insert first f
        if x.empty then if x.remove first then copied else copied.erase first
        else copied.empty (path stream) now
      | _, _ => d
    else Folder.rename d (path stream) first

/-- Delete files from the front until a line of `n` bytes fits; what is left in all. -/
def prune (l : LogDir) (x : Faults) (n : Nat) : List Found → Folder × Nat → Folder × Nat
  | [], p => p
  | f :: fs, (d, total) =>
    if total + n ≤ l.budget then (d, total)
    else if x.remove f.path then prune l x n fs (d, total)
    else prune l x n fs (d.erase f.path, total - f.len)

/-- The files that may go for a line of the stream, the oldest first. -/
def prunable (listing : Text → Nat) (stream : Text) (d : Folder) : List Found :=
  ((files listing d).filter fun f => f.path ≠ path stream).insertionSort Found.Older

/-- The last resort: the stream's own file is emptied. -/
def emptyCurrent (l : LogDir) (x : Faults) (stream : Text) (now n : Nat) :
    Folder × Nat → Folder × Nat
  | (d, total) =>
    if l.budget < total + n then
      let len := d.lenOf (path stream)
      if 0 < len ∧ ¬x.empty then (d.empty (path stream) now, total - len) else (d, total)
    else (d, total)

/-- Room for a line of `n` bytes, or what is left with too little. -/
def makeRoom (l : LogDir) (x : Faults) (listing : Text → Nat) (stream : Text) (now n : Nat)
    (d : Folder) : Folder × Nat :=
  if l.budget < d.total + n then
    emptyCurrent l x stream now n (prune l x n (prunable listing stream d) (d, d.total))
  else (d, d.total)

/-- `append_locked`. -/
def appendLocked (l : LogDir) (x : Faults) (listing : Text → Nat) (now : Nat) (stream bytes : Text)
    (d : Folder) : Folder × Except Error Unit :=
  let n := len bytes
  if l.budget < n then (d, .error .overBudget)
  else
    let size := d.lenOf (path stream)
    let d := if 0 < size ∧ l.segment < size + n then rotate x stream now d else d
    let (d, total) := makeRoom l x listing stream now n d
    if l.budget < total + n then (d, .error .overBudget)
    else if x.cannotOpen then (d, .error .io)
    else
      match x.write with
      | some k => (d.write (path stream) now (bytes.take k), .error .io)
      | none => (d.write (path stream) now bytes, .ok ())

/-- A call of `append`, with what the system does during it. -/
structure Append where
  stream : Text
  line : Text
  now : Nat
  listing : Text → Nat
  faults : Faults

/-- What a call answered. -/
structure Answer where
  stream : Text
  bytes : Text
  result : Except Error Unit

/-- `append`. -/
def append (l : LogDir) (d : Folder) (i : Append) : Folder × Except Error Unit :=
  if !validStream i.stream then (d, .error .badStream)
  else
    match i.faults.lock with
    | some e => (d, .error e)
    | none => appendLocked l i.faults i.listing i.now i.stream (entry i.line) d

/-- The folder, driven by appends. It is empty at first. -/
def machine (l : LogDir) : Lib.Machine Folder Append Answer where
  init := ∅
  step d i := ((append l d i).1,
    [{ stream := i.stream, bytes := entry i.line, result := (append l d i).2 }])

/-- What a reader of the stream's files sees: the segments, the highest first, and the file. -/
def readStream (stream : Text) (d : Folder) : Text :=
  (numbers stream d).flatMap (fun n => d.textOf (segmentPath stream n)) ++ d.textOf (path stream)

/-- The lines written to a stream. -/
def written (stream : Text) (answers : List Answer) : List Text :=
  answers.filterMap fun a => if a.stream = stream ∧ a.result.isOk then some a.bytes else none

end Sonara.Log
