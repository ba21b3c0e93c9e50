import Mathlib.Logic.Function.Basic
import Sonara.Lib.Effects
import Sonara.Lib.Slices
import Sonara.Log.Secrets

/-!
# The model manager (`kokoro/download.rs`)

The manager fetches the pinned files into its folder. A download goes to `<file>.part`, which a
range request resumes; a file with the pinned hash is renamed into place, and remembered in
`verified.json` by its size and modification time. A failure waits out its backoff.

What is outside answers by the number of the call (`Outside`): a call on the folder succeeds, fails
or is the last one of the process, a request is answered in any way, and before each step other
threads ask to `begin`. The world keeps what was done (`marks`). The loop of `download` is given a
number of rounds; when they are used up it goes on (`spins`).
-/

namespace Sonara.Kokoro

open Lib (Stop Effects attempt because stripStart)
open Sonara.Log (toAsciiLowercase)

/-! ## The files, and how long to wait -/

/-- One file to fetch. -/
structure ModelFile where
  name : String
  url : Text
  /-- Lower-case hex. -/
  sha256 : Text
  size : Nat
  deriving DecidableEq, Repr

def MODEL_FILE : String := "kokoro-v1.0.onnx"
def VOICES_FILE : String := "voices-v1.0.bin"
def MARKER : String := "verified.json"
def MARKER_TMP : String := MARKER ++ ".tmp"

def ModelFile.part (f : ModelFile) : String := f.name ++ ".part"

/-- The hash its bytes must have. -/
def ModelFile.pin (f : ModelFile) : Text := toAsciiLowercase f.sha256

/-- The pinned Kokoro v1.0 files under `base`. -/
def pinnedFiles (base : Text) : List ModelFile :=
  let base := base.rdropWhile (· == '/')
  [(MODEL_FILE, "7d5df8ecf7d4b1878015a32686053fd0eebe2bc377234608764cc0ef3636a6c5", 325532387),
    (VOICES_FILE, "bca610b8308e8d99f32e6fe4197e7ec01679264efed0cac9140fe9c29f1fbf7d", 28214398)].map
    fun (name, sha, size) =>
      { name := name, url := base ++ '/' :: name.toList, sha256 := sha.toList, size := size }

/-- How long to wait after a failure. -/
structure Backoff where
  first : Nat
  max : Nat
  deriving DecidableEq, Repr

/-- The wait after `failures` failures in a row (at least one). -/
def Backoff.delay (b : Backoff) (failures : Nat) : Nat :=
  min (b.first * 2 ^ min (failures - 1) 20) b.max

/-- What the manager is doing. -/
inductive Phase where
  | idle
  | verifying
  | downloading (done total : Nat)
  | ready
  | failed (reason : String) (retryAt : Nat)
  deriving DecidableEq, Repr

structure State where
  phase : Phase := .idle
  failures : Nat := 0
  running : Bool := false
  deriving DecidableEq, Repr

structure Manager where
  dir : String
  files : List ModelFile
  backoff : Backoff

def Manager.path (m : Manager) (name : String) : String := m.dir ++ "\\" ++ name

def Manager.total (m : Manager) : Nat := m.files.foldl (fun n f => n + f.size) 0

/-! ## The world -/

structure FileData where
  bytes : List UInt8
  /-- `modified_ns`. -/
  modified : Nat
  deriving DecidableEq, Repr

abbrev Folder := String → Option FileData

/-- An entry of `verified.json`: size, modification time and hash. -/
abbrev Verified := String → Option (Nat × Nat × Text)

/-- What was done. -/
inductive Mark where
  /-- A process began. -/
  | started
  /-- A fetch was claimed. -/
  | began (now : Nat)
  /-- A claimed fetch ended; when it failed, with the time of the next one. -/
  | ended (retryAt : Option Nat)
  /-- The length of the `.part` could not be read. -/
  | blind (f : ModelFile)
  /-- A file got its final name. -/
  | renamed (f : ModelFile) (bytes : List UInt8)
  /-- A file was recorded as verified. -/
  | recorded (f : ModelFile) (bytes : List UInt8)
  deriving DecidableEq, Repr

structure World where
  folder : Folder := fun _ => none
  state : State := {}
  /-- The calls made so far. -/
  calls : Nat := 0
  /-- Latest first. -/
  marks : List Mark := []

/-- A call on the folder. -/
inductive Call where
  | createDir
  | read (name : String)
  | metadata (name : String)
  | hash (name : String)
  | openWrite (name : String)
  | setLen (name : String)
  | seek (name : String)
  | writeAll (name : String)
  | sync (name : String)
  | write (name : String)
  | rename (name dest : String)
  | remove (name : String)
  deriving DecidableEq, Repr

/-- How a call ends. What a write did before it failed is counted by `done`. -/
inductive Answer where
  | ok
  | fails (why : String) (done : Nat)
  | crashes (done : Nat)
  deriving DecidableEq, Repr

structure Response where
  status : Nat
  contentRange : Option Text
  /-- What each `read` of the body returns. -/
  reads : List (List UInt8)
  /-- Why the body breaks off behind them, when it does. -/
  cut : Option String
  deriving DecidableEq, Repr

/-- What is outside, by the number of the call. -/
structure Outside where
  sha256 : List UInt8 → Text
  /-- The reader and the printer of `verified.json`. -/
  parse : List UInt8 → Option Verified
  render : Verified → Option (List UInt8)
  answer : Nat → Call → Answer
  /-- The text of a call on a file that is not there. -/
  missing : String
  /-- The reply to a request; a number that is not 0 is asked for as a range. -/
  reply : Nat → Text → Nat → Except String Response
  /-- The modification time of a write. -/
  clock : Nat → Nat
  now : Nat → Nat
  /-- The progress was last told long enough ago. -/
  late : Nat → Bool
  /-- When other threads ask to `begin`. -/
  others : Nat → List Nat

abbrev Io (α : Type) := Effects String World α

/-! ## Steps -/

/-- Claim the right to fetch now: false while a fetch runs or before the retry time of the last
failure. -/
def World.begin (w : World) (now : Nat) : Bool × World :=
  let claimed : Bool × World :=
    (true, { w with state := { w.state with running := true }, marks := .began now :: w.marks })
  if w.state.running then (false, w)
  else
    match w.state.phase with
    | .failed _ retryAt => if now < retryAt then (false, w) else claimed
    | _ => claimed

def World.begins (w : World) (nows : List Nat) : World :=
  nows.foldl (fun w now => (w.begin now).2) w

/-- The world when the next step is taken: others asked first. -/
def World.tick (o : Outside) (w : World) : World :=
  { w.begins (o.others w.calls) with calls := w.calls + 1 }

namespace Io

variable (o : Outside)

/-- A step nothing else comes between. -/
def atomic {α : Type} (act : Nat → World → EStateM.Result (Stop String) World α) : Io α := fun w =>
  act w.calls (w.tick o)

/-- A call on the folder. `none` when the file is not there, and `torn` is what is left when the
call does not succeed. -/
def ask {α : Type} (c : Call) (act : Nat → Folder → Option (α × Folder))
    (torn : Nat → Nat → Folder → Folder) : Io α :=
  atomic o fun n w =>
    match o.answer n c with
    | .ok =>
      match act (o.clock n) w.folder with
      | some (a, folder) => .ok a { w with folder := folder }
      | none => .error (.failed o.missing) w
    | .fails why done => .error (.failed why) { w with folder := torn (o.clock n) done w.folder }
    | .crashes done => .error .crashed { w with folder := torn (o.clock n) done w.folder }

/-- A call that changes nothing. -/
def look {α : Type} (c : Call) (act : Folder → Option α) : Io α :=
  ask o c (fun _ d => (act d).map fun a => (a, d)) fun _ _ d => d

/-- A call that happens or does not. -/
def change (c : Call) (act : Nat → Folder → Option Folder) : Io Unit :=
  ask o c (fun time d => (act time d).map fun d => ((), d)) fun _ _ d => d

/-- What was done is marked. -/
def note (marks : World → List Mark) : Io Unit :=
  fun w => .ok () { w with marks := marks w ++ w.marks }

def createDirAll : Io Unit := look o .createDir fun _ => some ()

def read (name : String) : Io (List UInt8) := look o (.read name) fun d => (d name).map (·.bytes)

/-- Size and modification time. -/
def metadata (name : String) : Io (Nat × Nat) :=
  look o (.metadata name) fun d => (d name).map fun f => (f.bytes.length, f.modified)

def isFile (name : String) : Io Bool := do
  match ← attempt (metadata o name) with
  | .ok _ => pure true
  | .error _ => pure false

def hash (name : String) : Io Text := look o (.hash name) fun d => (d name).map fun f =>
    o.sha256 f.bytes

def remove (name : String) : Io Unit :=
  change o (.remove name) fun _ d => (d name).map fun _ => Function.update d name none

def rename (name dest : String) : Io Unit :=
  change o (.rename name dest) fun _ d =>
    (d name).map fun f => Function.update (Function.update d name none) dest (some f)

/-- Opened to write, not truncated. -/
def openWrite (name : String) : Io Unit :=
  change o (.openWrite name) fun time d =>
    some (Function.update d name (some ((d name).getD { bytes := [], modified := time })))

def setLen0 (name : String) : Io Unit :=
  change o (.setLen name) fun time d =>
    (d name).map fun _ => Function.update d name (some { bytes := [], modified := time })

def seek (name : String) : Io Unit := look o (.seek name) fun _ => some ()

def sync (name : String) : Io Unit := look o (.sync name) fun _ => some ()

/-- `chunk` over the bytes from `pos` on, which is not beyond their end. -/
def writeAt (bytes : List UInt8) (pos : Nat) (chunk : List UInt8) : List UInt8 :=
  bytes.take pos ++ chunk ++ bytes.drop (pos + chunk.length)

/-- A file with other bytes. -/
def rewrite (d : Folder) (name : String) (time : Nat) (g : List UInt8 → List UInt8) :
    Option Folder :=
  (d name).map fun f => Function.update d name (some { bytes := g f.bytes, modified := time })

def writeAll (name : String) (pos : Nat) (chunk : List UInt8) : Io Unit :=
  ask o (.writeAll name) (fun time d => (rewrite d name time (writeAt · pos chunk)).map
    fun d => ((), d))
    fun time done d => (rewrite d name time (writeAt · pos (chunk.take done))).getD d

/-- `fs::write`: truncated when it is opened. -/
def write (name : String) (bytes : List UInt8) : Io Unit :=
  let put (time : Nat) (d : Folder) (bytes : List UInt8) : Folder :=
    Function.update d name (some { bytes := bytes, modified := time })
  ask o (.write name) (fun time d => some ((), put time d bytes)) fun time done d =>
    match done with
    | 0 => d
    | done + 1 => put time d (bytes.take done)

def request (url : Text) (have' : Nat) : Io Response :=
  atomic o fun n w =>
    match o.reply n url have' with
    | .ok r => .ok r w
    | .error why => .error (.failed why) w

def setPhase (phase : Phase) : Io Unit :=
  atomic o fun _ w => .ok () { w with state := { w.state with phase := phase } }

def late : Io Bool := fun w => .ok (o.late w.calls) w

end Io

/-! ## The manager -/

/-- The position a `Content-Range` begins at. -/
def rangeStart (header : Option Text) : Option Nat := do
  let v ← header
  let v ← stripStart "bytes ".toList v
  parseU64 (Text.trim (v.takeWhile (· ≠ '-')))
where
  /-- `str::parse::<u64>`. -/
  parseU64 (t : Text) : Option Nat :=
    let digits := if t.head? = some '+' then t.tail else t
    if digits = [] ∨ digits.any (fun c => !c.isDigit) then none
    else
      let n := digits.foldl (fun n c => 10 * n + (c.toNat - '0'.toNat)) 0
      if n < 2 ^ 64 then some n else none

inductive Fetched where
  | done
  /-- Start over without a range (the server ignored or refused it). -/
  | restart
  deriving DecidableEq, Repr

namespace Manager

open Io

variable (o : Outside) (m : Manager)

def readVerified : Io Verified := do
  match ← attempt (read o MARKER) with
  | .ok bytes => pure ((o.parse bytes).getD fun _ => none)
  | .error _ => pure fun _ => none

def writeVerified (v : Verified) : Io Unit :=
  match o.render v with
  | none => pure ()
  | some bytes => do
    match ← attempt (write o MARKER_TMP bytes) with
    | .ok _ => do
      let _ ← attempt (rename o MARKER_TMP MARKER)
      pure ()
    | .error _ => pure ()

/-- `f` is in place and was verified with its current size and modification time. -/
def verified (f : ModelFile) (v : Verified) : Io Bool := do
  match ← attempt (metadata o f.name) with
  | .ok (size, modified) => pure (size == f.size && v f.name == some (f.size, modified, f.pin))
  | .error _ => pure false

def remember (f : ModelFile) (v : Verified) : Io Verified := do
  let (size, modified) ← metadata o f.name
  note fun w => ((w.folder f.name).map fun d => Mark.recorded f d.bytes).toList
  let v := Function.update v f.name (some (size, modified, f.pin))
  writeVerified o v
  pure v

def hashFile (name : String) : Io Text :=
  because (fun e => "cannot read " ++ m.path name ++ ": " ++ e) (hash o name)

/-- The body is written from `pos` on, one `read` after another. -/
def copy (f : ModelFile) (before total : Nat) : Nat → List (List UInt8) → Option String → Io Nat
  | pos, [], none => pure pos
  | _, [], some e => throw (.failed ("download of " ++ f.name ++ " broke off: " ++ e))
  | pos, chunk :: reads, cut =>
    if chunk = [] then pure pos
    else if pos + chunk.length > f.size then throw
      (.failed (f.name ++ ": the server sent more than expected"))
    else do
      because (fun e => "cannot write " ++ m.path f.part ++ ": " ++ e) (writeAll o f.part pos chunk)
      let tell ← late o
      if tell then setPhase o (.downloading (before + (pos + chunk.length)) total)
      copy f before total (pos + chunk.length) reads cut

/-- What the server sent is written behind the first `pos` bytes. -/
def receive (f : ModelFile) (before total pos : Nat) (r : Response) : Io Fetched := do
  seek o f.part
  let pos ← m.copy o f before total pos r.reads r.cut
  sync o f.part
  if pos < f.size then
    throw (.failed ("download of " ++ f.name ++ " ended early (" ++ toString pos ++ " of " ++
      toString f.size ++
      " bytes); it resumes later"))
  else pure .done

def request (f : ModelFile) (have' before total : Nat) : Io Fetched := do
  let r ← because (fun e => "cannot download " ++ f.name ++ ": " ++ e) (Io.request o f.url have')
  because (fun e => "cannot write " ++ m.path f.part ++ ": " ++ e) (openWrite o f.part)
  if r.status = 206 then
    -- The range must start where the file ends.
    if rangeStart r.contentRange = some have' then m.receive o f before total have' r
    else pure .restart
  else if r.status = 200 then do
    setLen0 o f.part
    m.receive o f before total 0 r
  else if r.status = 416 then pure .restart
  else throw (.failed ("cannot download " ++ f.name ++ ": HTTP " ++ toString r.status))

/-- The length of the `.part`, 0 when it cannot be read. -/
def partLength (f : ModelFile) : Io Nat := do
  match ← attempt (metadata o f.part) with
  | .ok (size, _) => pure size
  | .error _ => do
    note fun w => if (w.folder f.part).isSome then [.blind f] else []
    pure 0

/-- Check the hash of the `.part` and rename it into place. -/
def place (f : ModelFile) : Io Unit := do
  let got ← m.hashFile o f.part
  if got ≠ f.pin then do
    let _ ← attempt (remove o f.part)
    throw (.failed (f.name ++ ": hash mismatch (got " ++ String.ofList got ++ ", expected " ++
      String.ofList f.sha256 ++ ")"))
  else do
    because (fun e => "cannot move " ++ m.path f.name ++ " into place: " ++ e)
      (rename o f.part f.name)
    note fun w => ((w.folder f.name).map fun d => Mark.renamed f d.bytes).toList

/-- Fetch one file into its `.part` (resuming), check its hash and rename it into place. -/
def download (f : ModelFile) (before total : Nat) : Bool → Nat → Io Unit
  | _, 0 => throw .spins
  | restarted, rounds + 1 => do
    let have' ← partLength o f
    if have' > f.size then do
      let _ ← attempt (remove o f.part)
      download f before total restarted rounds
    else do
      setPhase o (.downloading (before + have') total)
      if have' < f.size then do
        match ← m.request o f have' before total with
        | .done => m.place o f
        | .restart =>
          if restarted then throw (.failed (f.name ++ ": the server cannot resume"))
          else do
            let _ ← attempt (remove o f.part)
            download f before total true rounds
      else m.place o f

/-- The file in place, of that size, is `f`. -/
def sameFile (f : ModelFile) (size : Option Nat) : Io Bool :=
  if size = some f.size then do
    let got ← m.hashFile o f.name
    pure (got == f.pin)
  else pure false

/-- A file in place that was not verified is hashed, and kept or removed. -/
def check (f : ModelFile) (v : Verified) : Io Verified := do
  let ok ← verified o f v
  if ok then pure v
  else do
    let there ← isFile o f.name
    if there then do
      setPhase o .verifying
      let size ← attempt (metadata o f.name)
      let same ← m.sameFile o f (size.toOption.map Prod.fst)
      if same then remember o f v
      else do
        because (fun e => "cannot replace " ++ m.path f.name ++ ": " ++ e) (remove o f.name)
        pure v
    else pure v

/-- A file that is not in place is downloaded. -/
def obtain' (f : ModelFile) (before rounds : Nat) (v : Verified) : Io Verified := do
  let ok ← verified o f v
  if ok then pure v
  else do
    m.download o f before m.total false rounds
    remember o f v

def fetchFiles (rounds : Nat) : List ModelFile → Nat → Verified → Io Unit
  | [], _, _ => pure ()
  | f :: files, done, v => do
    let v ← m.check o f v
    let v ← m.obtain' o f done rounds v
    fetchFiles rounds files (done + f.size) v

def fetchAll (rounds : Nat) : Io Unit := do
  because (fun e => "cannot create " ++ m.dir ++ ": " ++ e) (createDirAll o)
  let v ← readVerified o
  m.fetchFiles o rounds m.files 0 v

def finish (result : Except String Unit) : Io (Except String Unit) :=
  atomic o fun n w =>
    match result with
    | .ok () =>
      .ok result { w with state := { phase := .ready }, marks := .ended none :: w.marks }
    | .error reason =>
      let failures := w.state.failures + 1
      let retryAt := o.now n + m.backoff.delay failures
      .ok result { w with
        state := { phase := .failed reason retryAt, failures := failures }
        marks := .ended (some retryAt) :: w.marks }

/-- Verify what is on disk and download what is missing. -/
def fetch (rounds : Nat) : Io (Except String Unit) := do
  let result ← attempt (m.fetchAll o rounds)
  m.finish o result

/-- End a claimed fetch that could not run. -/
def fetchFailed (reason : String) : Io (Except String Unit) := m.finish o (.error reason)

end Manager

/-! ## Runs -/

inductive Event where
  /-- A thread asks to fetch. -/
  | begin (now : Nat)
  /-- The claimed fetch runs, through so many rounds of each loop. -/
  | fetch (rounds : Nat)
  | fetchFailed (reason : String)
  /-- A process begins, whatever became of the one before. -/
  | start
  deriving DecidableEq, Repr

/-- What the process does. -/
inductive Process where
  | runs
  /-- The fetch is in a loop it does not leave. -/
  | spins
  | gone
  deriving DecidableEq, Repr

structure System where
  world : World
  process : Process

namespace System

/-- After a claimed fetch. -/
def leave {α : Type} : EStateM.Result (Stop String) World α → System
  | .ok _ w => ⟨w, .runs⟩
  | .error (.failed _) w => ⟨w, .runs⟩
  | .error .crashed w => ⟨w, .gone⟩
  | .error .spins w => ⟨w, .spins⟩

/-- Only who claimed a fetch fetches. -/
def step (o : Outside) (m : Manager) (s : System) : Event → Option System
  | .begin now => if s.process = .gone then none else some { s with world := (s.world.begin now).2 }
  | .fetch rounds =>
    if s.process = .runs ∧ s.world.state.running then some
      (leave (m.fetch o rounds s.world)) else none
  | .fetchFailed reason =>
    if s.process = .runs ∧ s.world.state.running then some
      (leave (m.fetchFailed o reason s.world)) else none
  | .start =>
    some {
      world := { s.world with state := {}, marks := .started :: s.world.marks }
      process := .runs }

/-- Any folder, before the first process. -/
def initial (folder : Folder) : System := { world := { folder := folder }, process := .gone }

end System

end Sonara.Kokoro
