import Sonara.Lib.System
import Sonara.Pcm.Wav
import Sonara.Strings

/-!
# The audio output (`rodio_output.rs`)

One thread takes the commands in their order. A `Sink` plays its sources one after another, the
callbacks among them, unless it is paused; a sink that is dropped plays no more. What the endpoint
answers (its default device, and whether a stream opens) comes with the command that asks.

The log has what is played and told, in its order in time. Beside the worker the world keeps the
last `play`, unless a `stop` came after it (`Current`).

A volume is in percent, samples are as they came (rodio gets them divided by 2^15). The dump of
what is played and the end of the thread are left out.
-/

namespace Sonara.Output

open Sonara.Pcm

structure SamplesBuffer where
  channels : BitVec 16
  sampleRate : BitVec 32
  samples : List Sample
  deriving DecidableEq, Repr

/-- Samples rodio can play, or none for an empty or malformed chunk. -/
def toBuffer (c : PcmChunk) : Option SamplesBuffer :=
  if c.channels = 0 ∨ c.sampleRate = 0 then none
  else
    let whole := c.samples.length - c.samples.length % c.channels.toNat
    if whole = 0 then none
    else some { channels := c.channels, sampleRate := c.sampleRate, samples := c.samples.take whole }

/-- The sources of a sink, each of a chunk: a callback or audio. -/
inductive Source where
  | started (gen : Nat)
  | audio (gen : Nat) (buffer : SamplesBuffer)
  | finished (gen : Nat)
  deriving DecidableEq, Repr

def Source.gen : Source → Nat
  | .started gen => gen
  | .audio gen _ => gen
  | .finished gen => gen

structure Sink where
  sources : List Source
  paused : Bool := false
  volume : Nat
  deriving DecidableEq, Repr

inductive Out where
  | played (source : Source)
  | failed (gen : Nat) (reason : Text)
  | clip (volume : Nat) (buffer : SamplesBuffer)
  | note (line : Text)
  deriving DecidableEq, Repr

/-- What the endpoint answers: the id of the default device, and the name of the device when a
stream opens on it. -/
structure Endpoint where
  defaultId : Option Text
  opened : Except Text Text

structure Worker where
  /-- The stream, by the name of its device. -/
  stream : Option Text := none
  /-- The id of the default device when the stream opened. -/
  openedOn : Option Text := none
  followed : Bool := false
  streamNo : Nat := 0
  sink : Option Sink := none
  loaded : Option Nat := none
  awaitingFinish : Bool := false
  volume : Nat := 100
  deriving DecidableEq, Repr

def gain (percent : Nat) : Nat := min percent 100

namespace Worker

variable (w : Worker)

/-- The default device now; a stream on another one is dropped. -/
def followDefault (ep : Endpoint) : Worker × Option Text :=
  let dropped := { w with sink := none, loaded := none, stream := none, followed := true }
  match w.stream, w.openedOn, ep.defaultId with
  | some _, some was, some id => (if was ≠ id then dropped else w, some id)
  | _, _, now => (w, now)

/-- A stream, opened when there is none. -/
def ensureStream (ep : Endpoint) (default : Option Text) : Worker × List Out × Except Text Unit :=
  match w.stream with
  | none =>
    let w := { w with streamNo := w.streamNo + 1 }
    match ep.opened with
    | .error e => (w, [], .error e)
    | .ok device =>
      let why := if w.followed then " (the Windows default output changed)".toList else []
      ({ w with followed := false, stream := some device, openedOn := default },
        [.note ("audio output on \"".toList ++ device ++ "\"".toList ++ why)], .ok ())
  | some _ => (if w.openedOn.isNone then { w with openedOn := default } else w, [], .ok ())

/-- The sources of a chunk: an open one finishes after its `finish`. -/
def sources (pcm : List PcmChunk) (gen : Nat) (isOpen : Bool) : List Source :=
  .started gen :: (pcm.filterMap toBuffer).map (.audio gen) ++ if isOpen then [] else
    [.finished gen]

def play (ep : Endpoint) (pcm : List PcmChunk) (item chunk gen : Nat) (isOpen : Bool) :
    Worker × List Out :=
  let w := { w with sink := none, loaded := none }
  let (w, default) := w.followDefault ep
  match w.ensureStream ep default with
  | (w, notes, .error e) =>
    (w, notes ++ [.failed gen ("audio device unavailable for item ".toList ++ Text.number item ++
      " chunk ".toList ++ Text.number chunk ++ ": ".toList ++ e)])
  | (w, notes, .ok ()) =>
    ({ w with
        sink := some { sources := sources pcm gen isOpen, volume := w.volume }
        loaded := some gen
        awaitingFinish := isOpen }, notes)

/-- The sink of the chunk `gen`, when that is loaded. -/
def onSink (gen : Nat) (f : Sink → Worker) : Worker :=
  match w.sink, w.loaded with
  | some s, some g => if g = gen then f s else w
  | _, _ => w

def append (gen : Nat) (pcm : List PcmChunk) : Worker :=
  w.onSink gen fun s =>
    { w with sink := some { s with sources := s.sources ++ (pcm.filterMap toBuffer).map (.audio gen) } }

def finish (gen : Nat) : Worker :=
  w.onSink gen fun s =>
    { w with sink := some { s with sources := s.sources ++ [.finished gen] }, awaitingFinish := false }

def pause : Worker := { w with sink := w.sink.map fun s => { s with paused := true } }

def resume : Worker := { w with sink := w.sink.map fun s => { s with paused := false } }

def stop : Worker := { w with sink := none, loaded := none }

def setVolume (percent : Nat) : Worker :=
  { w with volume := gain percent, sink := w.sink.map fun s => { s with volume := gain percent } }

/-- No speech is left to play, nor a streamed chunk that waits for more. -/
def idle : Bool :=
  match w.sink with
  | none => true
  | some s => s.sources.isEmpty && !w.awaitingFinish

/-- A clip plays over the speech, on a sink of its own. -/
def clip (ep : Endpoint) (samples : List Sample) (sampleRate : BitVec 32) : Worker × List Out :=
  let (w, default) := if w.idle then w.followDefault ep else (w, w.openedOn)
  let (w', notes, opened) := w.ensureStream ep default
  match toBuffer { samples := samples, sampleRate := sampleRate, channels := 1 }, opened with
  | some buffer, .ok () => (w', notes ++ [.clip w.volume buffer])
  | _, _ => (w', notes)

/-- The stream with the number `stream` reported an error. -/
def deviceLost (stream : Nat) (reason : Text) : Worker × List Out :=
  if stream ≠ w.streamNo ∨ w.stream.isNone then (w, [])
  else ({ w with sink := none, stream := none, loaded := none },
    w.loaded.toList.map fun gen => .failed gen ("audio device lost: ".toList ++ reason))

/-- The next source of the sink ends. -/
def played : Option (Worker × List Out) :=
  match w.sink with
  | some { sources := source :: rest, paused := false, volume } =>
    some ({ w with sink := some { sources := rest, volume := volume } }, [.played source])
  | _ => none

end Worker

/-- The last `play`: its audio up to its `finish`, and what was appended after that. -/
structure Current where
  gen : Nat
  isOpen : Bool
  finished : Bool := false
  audio : List SamplesBuffer
  late : List SamplesBuffer := []
  deriving DecidableEq, Repr

/-- Its `finish` has to come. -/
def Current.awaits (c : Current) : Bool := c.isOpen && !c.finished

def Current.append (gen : Nat) (pcm : List PcmChunk) (c : Current) : Current :=
  if c.gen ≠ gen then c
  else if c.awaits then { c with audio := c.audio ++ pcm.filterMap toBuffer }
  else { c with late := c.late ++ pcm.filterMap toBuffer }

def Current.finish (gen : Nat) (c : Current) : Current :=
  if c.gen = gen then { c with finished := true } else c

structure World where
  worker : Worker := {}
  log : List Out := []
  /-- The chunks played so far. -/
  gens : List Nat := []
  current : Option Current := none
  deriving DecidableEq, Repr

inductive Event where
  | play (ep : Endpoint) (pcm : List PcmChunk) (item chunk gen : Nat) (isOpen : Bool)
  | append (gen : Nat) (pcm : List PcmChunk)
  | finish (gen : Nat)
  | pause
  | resume
  | stop
  | volume (percent : Nat)
  | clip (ep : Endpoint) (samples : List Sample) (sampleRate : BitVec 32)
  | deviceLost (stream : Nat) (reason : Text)
  /-- A source of the sink ends. -/
  | played

namespace World

/-- The worker after a command, and what it told. -/
def after (w : World) (r : Worker × List Out) : World :=
  { w with worker := r.1, log := w.log ++ r.2 }

def step (w : World) : Event → Option World
  | .play ep pcm item chunk gen isOpen =>
    some { w.after (w.worker.play ep pcm item chunk gen isOpen) with
      gens := gen :: w.gens
      current := some { gen := gen, isOpen := isOpen, audio := pcm.filterMap toBuffer } }
  | .append gen pcm => some { w with
      worker := w.worker.append gen pcm, current := w.current.map (·.append gen pcm) }
  | .finish gen =>
    some { w with worker := w.worker.finish gen, current := w.current.map (·.finish gen) }
  | .pause => some { w with worker := w.worker.pause }
  | .resume => some { w with worker := w.worker.resume }
  | .stop => some { w with worker := w.worker.stop, current := none }
  | .volume percent => some { w with worker := w.worker.setVolume percent }
  | .clip ep samples sampleRate => some (w.after (w.worker.clip ep samples sampleRate))
  | .deviceLost stream reason => some (w.after (w.worker.deviceLost stream reason))
  | .played => w.worker.played.map w.after

end World

/-- The runs of the output. -/
def runs : Lib.System World Event where
  init w := w = {}
  step := World.step

end Sonara.Output
