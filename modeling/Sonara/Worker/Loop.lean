import Mathlib.Algebra.GroupWithZero.Nat
import Sonara.L1.Reader

/-!
# The reader's worker thread (`sonara-reader/src/worker.rs`)

The worker owns the reader state machine and carries out its effects. Requests,
finished syntheses, streamed pieces and the output's events all arrive on one
inbox; `Loop.handle` is one message and `Loop.turn` one round of the loop, which
also looks whether a start hold is over.

The output and the synthesis thread are other threads: a call to them is recorded
in `output` and `synth`, oldest first, and what they answer comes back as a
message. The clock is read at most once while a message is handled and once by
`releaseHold`, so a turn carries those two readings. The registry belongs to the
host and is what it is during that turn.

Not here: the engine's status and warm-up error, the flag that tells the handle how
the engine takes text, the subscribers' channels and the answers to queries.
`Loop.told` is what all subscribers are told.
-/

namespace Sonara.Worker

open Sonara (Text)
open Sonara.CodeSpeech (CodeKind kind unmarked)
open Sonara.L1

/-! ## Engines and settings -/

/-- Interleaved 16-bit PCM. -/
structure PcmChunk where
  samples : List Int
  sampleRate : Nat
  channels : Nat
  deriving DecidableEq, Repr

/-- A voice of an engine. -/
structure Voice where
  id : String
  name : String
  deriving DecidableEq, Repr

inductive SendMode where
  | sentence
  | message
  deriving DecidableEq, Repr

inductive InputLimit where
  | chars (max : Nat)
  | bytes (max : Nat)
  deriving DecidableEq, Repr

/-- What the worker asks of an engine. `ref` tells instances apart (`Arc::ptr_eq`). -/
structure Engine where
  ref : Nat
  id : String
  voices : List Voice
  acceptsUnlisted : Bool
  lookahead : Nat
  sendMode : SendMode
  inputLimit : InputLimit
  deriving DecidableEq, Repr

/-- How the reader cuts items for `engine`. -/
def chunking (engine : Engine) : Chunking :=
  match engine.sendMode with
  | .sentence => .sentences
  | .message =>
    match engine.inputLimit with
    | .chars max => .message max false
    | .bytes max => .message max true

/-- How code is read. -/
structure CodeReading where
  /-- Percent of the speech rate. -/
  speed : UInt8
  /-- Silence after each code line, in milliseconds. -/
  pauseMs : Nat
  step : Bool
  /-- The next-line key as the step hint says it. -/
  nextKey : String
  deriving DecidableEq, Repr

def CodeReading.default : CodeReading :=
  { speed := 80, pauseMs := 500, step := false, nextKey := "Ctrl+Alt+Right" }

/-- A setting. -/
inductive Key where
  | volume
  | rate
  | voice
  | engine
  deriving DecidableEq, Repr

/-- A setting value, shaped like the JSON a client sends. -/
inductive Value where
  | number (n : Nat)
  | text (t : String)
  | null
  deriving DecidableEq, Repr

/-- Why a value is refused. -/
inductive Reason where
  | notIn (v lo hi : Nat)
  | notANumber (got : Value)
  | notAVoice (got : Value)
  | notAnEngine (got : Value)
  deriving DecidableEq, Repr

inductive Error where
  | unknownEngine (id : String)
  | unknownVoice (voice : String)
  | badValue (key : Key) (reason : Reason)
  deriving DecidableEq, Repr

def rateMin : Nat := 100
def rateMax : Nat := 400
def volumeMax : Nat := 100

/-- `check_volume`. -/
def checkVolume (v : Nat) : Except Error UInt8 :=
  if v > volumeMax then .error (.badValue .volume (.notIn v 0 volumeMax)) else .ok (UInt8.ofNat v)

/-- `check_rate`. -/
def checkRate (v : Nat) : Except Error UInt32 :=
  if rateMin ≤ v ∧ v ≤ rateMax then .ok (UInt32.ofNat v)
  else .error (.badValue .rate (.notIn v rateMin rateMax))

/-- `number`. -/
def number (key : Key) : Value → Except Error Nat
  | .number n => .ok n
  | other => .error (.badValue key (.notANumber other))

/-- `resolve_voice`: the voice id for an id or a display name of `engine`. -/
def resolveVoice (engine : Engine) (voice : Option String) : Except Error (Option String) :=
  match voice with
  | none => .ok none
  | some wanted =>
    if wanted = "" then .ok none
    else
      match engine.voices.find? (fun v => v.id = wanted ∨ v.name = wanted) with
      | some v => .ok (some v.id)
      | none => if engine.acceptsUnlisted then .ok (some wanted) else .error (.unknownVoice wanted)

/-- `offers`. -/
def offers (engine : Engine) (voice : String) : Bool := engine.voices.any (·.id = voice)

/-- The host's engines, by id. -/
abbrev Registry := String → Option Engine

def Registry.get (registry : Registry) (id : String) : Except Error Engine :=
  match registry id with
  | some e => .ok e
  | none => .error (.unknownEngine id)

/-- A voice of its own for one item. -/
structure ItemVoice where
  engine : String
  voice : String
  deriving DecidableEq, Repr

/-! ## What the worker talks to -/

/-- One call the output receives. -/
inductive OutputCall where
  | play (pcm : List PcmChunk) (item : ItemId) (chunk gen : Nat)
  | playOpen (pcm : List PcmChunk) (item : ItemId) (chunk gen : Nat)
  | append (gen : Nat) (pcm : List PcmChunk)
  | finish (gen : Nat)
  | pause
  | resume
  | stop
  | setVolume (percent : UInt8)
  | playClip (samples : List Int) (sampleRate : Nat)
  deriving DecidableEq, Repr

/-- One chunk to synthesize, with the settings it was requested under. -/
structure Job where
  item : ItemId
  chunk : Nat
  text : Text
  voice : String
  rate : UInt32
  engine : Engine
  deriving DecidableEq, Repr

/-- One call the synthesis thread receives. -/
inductive SynthCall where
  | warm (engine : Engine)
  | pushJob (job : Job)
  | promote (item : ItemId) (chunk : Nat)
  | dropItem (item : ItemId)
  | shutdown
  deriving DecidableEq, Repr

/-- What the synthesis thread hands back. -/
inductive Done where
  /-- One piece of a chunk a streaming engine is still making. -/
  | part (item : ItemId) (chunk : Nat) (pcm : PcmChunk)
  | chunk (item : ItemId) (chunk : Nat) (engine : String) (result : Except String (List PcmChunk))
  | warmFailed (engine message error : String)

/-- What the subscribers are told. -/
inductive Told where
  | event (e : Event)
  | log (message : String)
  deriving DecidableEq, Repr

/-! ## The loop's state -/

/-- The audio of one chunk: on its way, arriving, or the engine's answer. -/
inductive Slot where
  | pending
  | streaming (parts : List PcmChunk)
  | ready (result : Except String (List PcmChunk))

/-- There is audio to hand over, or a failure to report. -/
def Slot.here : Slot → Bool
  | .pending => false
  | .streaming _ | .ready _ => true

/-- The chunk is still being made. -/
def Slot.coming : Slot → Bool
  | .pending | .streaming _ => true
  | .ready _ => false

/-- A `PlayChunk` whose audio is not in the output yet. -/
structure Waiting where
  item : ItemId
  chunk : Nat
  gen : Nat
  /-- A `PauseOutput` arrived meanwhile: load it on `ResumeOutput`. -/
  paused : Bool
  deriving DecidableEq, Repr

structure Loop where
  reader : Reader
  engine : Engine
  /-- Synthesized audio (or the failure) per chunk, until its item ends. -/
  audio : ItemId × Nat → Option Slot
  waiting : Option Waiting
  /-- The chunk playing while its audio still arrives: item, chunk and gen. -/
  opened : Option (ItemId × Nat × Nat)
  /-- Failures found while carrying out effects, fed to the reader after the
  current batch. -/
  pending : List AudioEvent
  volume : UInt8
  muted : Bool
  /-- No item's first chunk reaches the output before this. -/
  hold : Option Nat
  code : CodeReading
  /-- Code line chunks that get silence after them. -/
  pauseAfter : Finset (ItemId × Nat)
  /-- The items read in a voice of their own, until they end. -/
  itemVoices : ItemId → Option (Engine × String)
  output : List OutputCall
  synth : List SynthCall
  told : List Told
  /-- The gens for which `load` found no slot; kept for the proofs only. -/
  missed : List Nat

namespace Loop

/-- `self.output.f(..)`. -/
def call (l : Loop) (c : OutputCall) : Loop := { l with output := l.output ++ [c] }

/-- `self.synth.f(..)`. -/
def ask (l : Loop) (c : SynthCall) : Loop := { l with synth := l.synth ++ [c] }

/-- `broadcast`. -/
def broadcast (l : Loop) (t : Told) : Loop := { l with told := l.told ++ [t] }

/-- `self.pending.push_back(AudioEvent::Failed { .. })`. -/
def fail (l : Loop) (gen : Nat) (reason : String) : Loop :=
  { l with pending := l.pending ++ [.failed gen reason] }

/-- `held`: whether the hold still keeps items from starting (dropped once over). -/
def held (l : Loop) (now : Nat) : Bool × Loop :=
  match l.hold with
  | some till => if now < till then (true, l) else (false, { l with hold := none })
  | none => (false, { l with hold := none })

/-- `load`: hand a chunk's audio to the output, or report why there is none. -/
def load (l : Loop) (now : Nat) (item : ItemId) (chunk gen : Nat) : Loop :=
  let l := { l with opened := none }
  let w : Waiting := { item := item, chunk := chunk, gen := gen, paused := false }
  let (waits, l) := if chunk = 0 then l.held now else (false, l)
  if waits then
    let l := { l with waiting := some w }
    match l.audio (item, chunk) with
    | some .pending => l.ask (.promote item chunk)
    | _ => l
  else
    match l.audio (item, chunk) with
    | some (.ready (.ok pcm)) => l.call (.play pcm item chunk gen)
    | some (.streaming pcm) =>
      -- Still arriving: play what came, the rest is appended.
      { l.call (.playOpen pcm item chunk gen) with opened := some (item, chunk, gen) }
    | some (.ready (.error reason)) => l.fail gen reason
    | some .pending => { l with waiting := some w }.ask (.promote item chunk)
    | none => { l.fail gen "chunk was never synthesized" with missed := l.missed ++ [gen] }

/-- The `Synthesize` effect: code is slower, a line gets its pause, a block's
announcement the step hint. -/
def synthesize (l : Loop) (item : ItemId) (chunk : Nat) (text : Text) : Loop :=
  let state := l.reader.shown
  let audio := Function.update l.audio (item, chunk) (some .pending)
  let k := kind text
  let rate := if k ≠ .prose then max (state.rate * l.code.speed.toUInt32 / 100) 1 else state.rate
  let pauseAfter :=
    if k = .line ∧ 0 < l.code.pauseMs then insert (item, chunk) l.pauseAfter else l.pauseAfter
  let key := l.code.nextKey
  let words :=
    if k = .start ∧ l.code.step then unmarked text ++ s!" Use {key} for the next line.".toList
    else unmarked text
  let (engine, voice) := (l.itemVoices item).getD (l.engine, state.voice.getD "")
  { l with audio := audio, pauseAfter := pauseAfter }.ask
    (.pushJob
      { item := item, chunk := chunk, text := words, voice := voice, rate := rate,
        engine := engine })

/-- What goes with an item that ended. -/
def forgetItem (l : Loop) (id : ItemId) : Loop :=
  { l with
    opened := l.opened.filter fun (o : ItemId × Nat × Nat) => o.1 ≠ id
    audio := fun p => if p.1 = id then none else l.audio p
    pauseAfter := l.pauseAfter.filter (fun p => p.1 ≠ id)
    itemVoices := Function.update l.itemVoices id none }.ask (.dropItem id)

/-- The chunk `w` waits for has its audio, or its failure. -/
def isHere (l : Loop) (w : Waiting) : Bool := (l.audio (w.item, w.chunk)).any Slot.here

/-- `apply`: carry out one effect. -/
def apply (now : Nat) (l : Loop) : Effect → Loop
  | .synthesize item chunk text => l.synthesize item chunk text
  | .playChunk item chunk gen => { l with waiting := none }.load now item chunk gen
  | .pauseOutput =>
    match l.waiting with
    | some w => { l with waiting := some { w with paused := true } }
    | none => l.call .pause
  | .resumeOutput =>
    match l.waiting with
    | some w =>
      if l.isHere w then { l with waiting := none }.load now w.item w.chunk w.gen
      else { l with waiting := some { w with paused := false } }
    | none => l.call .resume
  | .stopOutput =>
    let l := { l with opened := none }
    match l.waiting with
    | some _ => { l with waiting := none }
    | none => l.call .stop
  | .mute => { l with muted := true }.call (.setVolume 0)
  | .unmute => { l with muted := false }.call (.setVolume l.volume)
  | .setVolume v =>
    let l := { l with volume := v }
    if !l.muted then l.call (.setVolume v) else l
  | .emit e =>
    let l :=
      match e with
      | .item id phase => if phase = ItemPhase.started then l else l.forgetItem id
      | .state _ => l
    l.broadcast (.event e)

/-- Carry out effects in order. -/
def applyAll (now : Nat) (l : Loop) (fx : List Effect) : Loop := fx.foldl (apply now) l

end Loop

/-- How many more failures a reader can be told before it is idle: every one moves
it to the next chunk or to the next item. -/
def left (r : Reader) : Nat :=
  r.current.elim 0 (fun c => 1 + (c.item.chunks.length - c.chunk))
    + (r.queue.map fun it => 1 + it.chunks.length).sum

namespace Loop

/-- The rounds of `drain`, at most `fuel` of them. -/
def drainUpTo (now : Nat) : Nat → Loop → Loop
  | 0, l => l
  | fuel + 1, l =>
    match l.pending with
    | [] => l
    | e :: rest =>
      let c := l.reader.onAudio e
      drainUpTo now fuel (applyAll now { l with pending := rest, reader := c.r } c.fx)

/-- `drain`: tell the reader the failures found, and what follows from them. The
code loops until none is left; the fuel lasts until then (`drain_pending`). -/
def drain (l : Loop) (now : Nat) : Loop := drainUpTo now (l.pending.length + left l.reader) l

/-- `run`. -/
def run (l : Loop) (now : Nat) (fx : List Effect) : Loop := (l.applyAll now fx).drain now

/-- `self.run(fx)` for the effects of a call of the reader. -/
def carry (l : Loop) (now : Nat) (c : Call) : Loop := { l with reader := c.r }.run now c.fx

/-! ## Messages -/

/-- The load of `part`: the reader waits for this chunk, so what came is played. -/
def wanted (l : Loop) (now : Nat) (item : ItemId) (chunk : Nat) : Loop :=
  match l.waiting with
  | some w =>
    if w.item = item ∧ w.chunk = chunk ∧ w.paused = false then
      ({ l with waiting := none }.load now w.item w.chunk w.gen).drain now
    else l
  | none => l

/-- The hand-over of `part`, the piece being the last of `parts`: appended when the
chunk plays, else played at once when the reader waits for it. -/
def keep (l : Loop) (now : Nat) (item : ItemId) (chunk : Nat) (parts : List PcmChunk)
    (pcm : PcmChunk) : Loop :=
  let l := { l with audio := Function.update l.audio (item, chunk) (some (.streaming (parts ++ [pcm]))) }
  match l.opened with
  | some (i, c, gen) =>
    if i = item ∧ c = chunk then l.call (.append gen [pcm]) else l.wanted now item chunk
  | none => l.wanted now item chunk

/-- `part`: a piece of a chunk still being made. -/
def part (l : Loop) (now : Nat) (item : ItemId) (chunk : Nat) (pcm : PcmChunk) : Loop :=
  match l.audio (item, chunk) with
  | some .pending => l.keep now item chunk [] pcm
  | some (.streaming parts) => l.keep now item chunk parts pcm
  -- The item ended meanwhile.
  | _ => l

/-- `silence`: the pause after a code line in the format of the chunk's audio. -/
def silence (l : Loop) (result : Except String (List PcmChunk)) (item : ItemId) (chunk : Nat) :
    Option PcmChunk :=
  let streamed : Option PcmChunk :=
    match l.audio (item, chunk) with
    | some (.streaming parts) => parts.getLast?
    | _ => none
  let like : Option PcmChunk :=
    match result with
    | .ok pcm => if pcm ≠ [] then pcm.getLast? else streamed
    | .error _ => streamed
  like.bind fun like =>
    let n := like.sampleRate * like.channels / 1000 * l.code.pauseMs
    if 0 < n then
      some
        { samples := List.replicate n 0, sampleRate := like.sampleRate, channels := like.channels }
    else none

/-- The load of `synthesized`, the slot being ready: a waiting chunk that is paused
is loaded on `ResumeOutput`; a failure is reported at once. -/
def ready (l : Loop) (now : Nat) (item : ItemId) (chunk : Nat) : Loop :=
  match l.waiting with
  | some w =>
    if w.item = item ∧ w.chunk = chunk then
      match w.paused, l.audio (item, chunk) with
      | true, some (.ready (.ok _)) => l
      | _, _ => ({ l with waiting := none }.load now w.item w.chunk w.gen).drain now
    else l
  | none => l

/-- The hand-over of `synthesized`: a chunk that played while it arrived ends after
its last audio. -/
def arrived (l : Loop) (now : Nat) (item : ItemId) (chunk : Nat) (pause : Option PcmChunk) : Loop :=
  match l.opened with
  | some (i, c, gen) =>
    if i = item ∧ c = chunk then
      let l := { l with opened := none }
      match pause with
      | some s => (l.call (.append gen [s])).call (.finish gen)
      | none => l.call (.finish gen)
    else l.ready now item chunk
  | none => l.ready now item chunk

/-- The `Done::Chunk` arm of `synthesized`. -/
def chunkDone (l : Loop) (now : Nat) (item : ItemId) (chunk : Nat)
    (result : Except String (List PcmChunk)) : Loop :=
  -- Not pending: the item ended meanwhile (a cancelled job lands here).
  if !(l.audio (item, chunk)).any Slot.coming then l
  else
    let pause := if (item, chunk) ∈ l.pauseAfter then l.silence result item chunk else none
    let l := { l with pauseAfter := l.pauseAfter.erase (item, chunk) }
    let result : Except String (List PcmChunk) :=
      match result, pause with
      | .ok pcm, some s => .ok (pcm ++ [s])
      | r, _ => r
    let l :=
      match result with
      | .error reason =>
        l.broadcast (.log s!"synthesis failed for item {item} chunk {chunk}: {reason}")
      | .ok _ => l
    { l with audio := Function.update l.audio (item, chunk) (some (.ready result)) }.arrived now
      item chunk pause

/-- `synthesized`. -/
def synthesized (l : Loop) (now : Nat) : Done → Loop
  | .part item chunk pcm => l.part now item chunk pcm
  | .chunk item chunk _ result => l.chunkDone now item chunk result
  | .warmFailed _ message _ => l.broadcast (.log message)

/-- `release_hold`: the hold is over, so load the chunk it kept, if its audio is
there (else it loads when synthesized, as any waiting chunk). -/
def releaseHold (l : Loop) (now : Nat) : Loop :=
  if l.hold.isNone then l
  else
    match l.held now with
    | (true, l) => l
    | (false, l) =>
      match l.waiting with
      | some w =>
        if w.paused = false ∧ l.isHere w then
          ({ l with waiting := none }.load now w.item w.chunk w.gen).drain now
        else l
      | none => l

/-- `item_voice`: the engine and voice id, when the registry offers them. -/
def itemVoice (registry : Registry) (v : ItemVoice) : Option (Engine × String) :=
  match registry.get v.engine with
  | .error _ => none
  | .ok engine =>
    match resolveVoice engine (some v.voice) with
    | .ok (some voice) => some (engine, voice)
    | _ => none

/-- The engine switch of `set`: the lookahead and the cut it asks for, and the
default voice unless it offers the one in force. -/
def switchEngine (l : Loop) (now : Nat) (engine : Engine) : Loop :=
  let sameId := engine.id = l.engine.id
  let a := l.reader.setLookahead engine.lookahead
  let b := a.r.setChunking (chunking engine)
  let l := { l with engine := engine, reader := b.r }.ask (.warm engine)
  match b.r.shown.voice with
  | some v =>
    if ¬sameId ∧ !offers engine v then
      let c := b.r.setVoice none
      { l with reader := c.r }.run now (a.fx ++ b.fx ++ c.fx)
    else l.run now (a.fx ++ b.fx)
  | none => l.run now (a.fx ++ b.fx)

/-- `set`. -/
def set (l : Loop) (registry : Registry) (now : Nat) (key : Key) (value : Value) :
    Except Error Loop :=
  match key with
  | .volume => do
    let v ← checkVolume (← number key value)
    return l.carry now (l.reader.setVolume v)
  | .rate => do
    let v ← checkRate (← number key value)
    return l.carry now (l.reader.setRate v)
  | .voice =>
    match value with
    | .null => return l.carry now (l.reader.setVoice none)
    | .text t => do
      let voice ← resolveVoice l.engine (some t)
      return l.carry now (l.reader.setVoice voice)
    | other => .error (.badValue key (.notAVoice other))
  | .engine =>
    match value with
    | .text id => do
      let engine ← registry.get id
      if engine.ref = l.engine.ref then return l else return l.switchEngine now engine
    | other => .error (.badValue key (.notAnEngine other))

/-- `close`: stop speech and cancel synthesis. -/
def close (l : Loop) (now : Nat) : Loop := (l.carry now (l.reader.control .stop)).ask .shutdown

end Loop

/-- The inbox. The queries (`Get`, `State`, `EngineStatus`, `Subscribe`, `GetCode`)
only answer. -/
inductive Msg where
  | speak (text : Text) (mode : QueueMode) (interrupt : Bool) (label : Option String)
      (voice : Option ItemVoice)
  | control (c : Control)
  | set (key : Key) (value : Value)
  | query
  | clip (samples : List Int) (sampleRate : Nat)
  | holdStart (till : Nat)
  | code (code : CodeReading)
  | audio (e : AudioEvent)
  | synthesized (done : Done)
  | shutdown

/-- One round of the loop: a message, or none when the wait timed out; the clock as
read while it is handled and by `releaseHold`; the host's engines. -/
structure Turn where
  msg : Option Msg
  now : Nat
  later : Nat
  registry : Registry

section

variable (split : Chunking → Text → List Text)

namespace Loop

/-- The `Speak` arm of `handle`. -/
def speak (l : Loop) (registry : Registry) (now : Nat) (text : Text) (mode : QueueMode)
    (interrupt : Bool) (label : Option String) (voice : Option ItemVoice) : Loop :=
  let (id, c) := l.reader.speak split text mode interrupt label
  -- Before its chunks are synthesized.
  let itemVoices :=
    match voice.bind (itemVoice registry) with
    | some pick => Function.update l.itemVoices id (some pick)
    | none => l.itemVoices
  { l with itemVoices := itemVoices }.carry now c

/-- `handle`: one message. -/
def handle (l : Loop) (registry : Registry) (now : Nat) : Msg → Loop
  | .speak text mode interrupt label voice =>
    l.speak split registry now text mode interrupt label voice
  | .control c => l.carry now (l.reader.control c)
  | .set key value =>
    match l.set registry now key value with
    | .ok l => l
    | .error _ => l
  | .query => l
  | .clip samples sampleRate => l.call (.playClip samples sampleRate)
  | .holdStart till => { l with hold := some till }
  | .code code => { l with code := code }.carry now (l.reader.setCodeStep code.step)
  | .audio e => l.carry now (l.reader.onAudio e)
  | .synthesized done => l.synthesized now done
  | .shutdown => l.close now

/-- The loop once the turn's message is handled. -/
def handled (l : Loop) (t : Turn) : Loop :=
  match t.msg with
  | some m => l.handle split t.registry t.now m
  | none => l

/-- One round. -/
def turn (l : Loop) (t : Turn) : Loop := (l.handled split t).releaseHold t.later

end Loop

end

/-! ## The start -/

/-- What the worker starts with. -/
structure Start where
  engine : Engine
  voice : Option String
  rate : UInt32
  volume : UInt8
  /-- The clock while `init` runs. -/
  now : Nat

/-- The loop before `init`. -/
def Loop.new (engine : Engine) : Loop :=
  { reader := Reader.new, engine := engine, audio := fun _ => none, waiting := none
    opened := none, pending := [], volume := 100, muted := false, hold := none
    code := .default, pauseAfter := ∅, itemVoices := fun _ => none
    output := [], synth := [], told := [], missed := [] }

/-- A setting of the reader, carried out. -/
def Loop.tell (l : Loop) (now : Nat) (f : Reader → Call) : Loop := l.carry now (f l.reader)

/-- `self.volume = self.reader.state().volume`. -/
def Loop.readVolume (l : Loop) : Loop := { l with volume := l.reader.shown.volume }

/-- `init`. -/
def Loop.init (s : Start) : Loop :=
  let l := ((Loop.new s.engine).tell s.now (·.setVoice s.voice)).tell s.now (·.setRate s.rate)
  let l := l.readVolume.tell s.now (·.setVolume s.volume)
  let l := l.tell s.now (·.setLookahead s.engine.lookahead)
  (l.tell s.now (·.setChunking (chunking s.engine))).ask (.warm s.engine)

/-- The worker as a machine. -/
def machine (split : Chunking → Text → List Text) (s : Start) :
    Lib.Machine Loop Turn OutputCall where
  init := .init s
  step l t := (l.turn split t, [])

end Sonara.Worker
