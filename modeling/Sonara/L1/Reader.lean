import Sonara.Lib.Machine
import Sonara.L1.Types
import Mathlib.Data.Finset.Basic
import Mathlib.Data.Finset.Filter
import Mathlib.Data.Finset.Prod

/-!
# The L1 reader state machine (`reader/mod.rs`)

One queue of items, the playback controls and the events, as the code runs
them: every input changes the `Reader` and pushes `Effect`s. A Rust method
`fn f(&mut self, fx: &mut Vec<Effect>)` is a function `Call → Call`, where a
`Call` is the reader together with the effects the call in progress has pushed
so far.

The reader cuts a text into chunks with `split_chunks` or `pack_message`, by its
`chunking`. The state machine uses nothing of the cut but the list of chunks, so
it is a parameter here: `split chunking text`. What is proved holds for every
such function.
-/

namespace Sonara.L1

open Sonara (Text)
open Sonara.CodeSpeech (CodeKind kind unmarked)

/-- The deepest prefetch an engine may ask for. -/
def maxLookahead : Nat := 4

/-- The item being read and where. -/
structure Current where
  item : Item
  chunk : Nat
  /-- Some chunk of this item reported ChunkStarted or ChunkFinished. -/
  playedAny : Bool
  deriving DecidableEq, Repr

/-- The reader state machine. -/
structure Reader where
  nextId : ItemId
  /-- The last `gen` handed out. -/
  gen : Nat
  current : Option Current
  queue : List Item
  /-- The last item that ended other than by Stop, for Restart when idle. -/
  last : Option Item
  paused : Bool
  /-- `gen` of the chunk loaded in the output (playing or paused there). -/
  loaded : Option Nat
  muted : Bool
  volume : UInt8
  rate : UInt32
  voice : Option String
  /-- Chunks already sent to Synthesize, for items still alive. -/
  requested : Finset (ItemId × Nat)
  /-- Chunks synthesized ahead of the playing one. -/
  lookahead : Nat
  chunking : Chunking
  /-- Step through code. -/
  codeStep : Bool
  /-- Play was pressed in this code block: its lines read through. -/
  released : Bool
  /-- Paused by step mode at a code line, not by the user. -/
  stepWait : Bool
  /-- The last state emitted (or the initial one, seq 0). -/
  shown : State

/-- Chunk `i` of an item. The code indexes (`item.chunks[i]`); the index of the
current chunk is in range in every run (`Settled.inRange`). -/
def Item.chunkAt (it : Item) (i : Nat) : Text := it.chunks.getD i []

/-- The kind of chunk `i` of the current item. -/
def Reader.kindAt (r : Reader) (i : Nat) : CodeKind :=
  match r.current.bind (fun c => c.item.chunks[i]?) with
  | some t => kind t
  | none => .prose

/-- The current chunk is code (also while waiting in step mode). -/
def Reader.inCode (r : Reader) : Bool :=
  r.stepWait || r.current.any (fun c => kind (c.item.chunkAt c.chunk) != .prose)

/-- What an observer sees. -/
def Reader.snapshot (r : Reader) (seq : Nat) : State where
  seq := seq
  nowPlaying := r.current.map fun c =>
    { itemId := c.item.id
      label := c.item.label
      text := unmarked (c.item.chunkAt c.chunk)
      chunk := c.chunk
      chunks := c.item.chunks.length
      code := r.inCode }
  queued := r.queue.length
  paused := r.paused
  stepping := r.stepWait
  muted := r.muted
  volume := r.volume
  rate := r.rate
  voice := r.voice

/-- An idle reader: volume 100, rate 200 and the engine's default voice. -/
def Reader.new : Reader :=
  let r : Reader :=
    { nextId := 1, gen := 0, current := none, queue := [], last := none, paused := false
      loaded := none, muted := false, volume := 100, rate := 200, voice := none
      requested := ∅, lookahead := 1, chunking := .sentences, codeStep := false
      released := false, stepWait := false
      shown :=
        { seq := 0, nowPlaying := none, queued := 0, paused := false, stepping := false
          muted := false, volume := 0, rate := 0, voice := none } }
  { r with shown := r.snapshot 0 }

/-- `cur.chunk = i`. -/
def Reader.setChunk (r : Reader) (i : Nat) : Reader :=
  { r with current := r.current.map fun cur => { cur with chunk := i } }

/-- `cur.played_any = true`. -/
def Reader.markPlayed (r : Reader) : Reader :=
  { r with current := r.current.map fun cur => { cur with playedAny := true } }

/-- A call in progress: `&mut self` and the effects pushed so far. -/
structure Call where
  r : Reader
  fx : List Effect

namespace Call

/-- `fx.push(e)`. -/
def push (c : Call) (e : Effect) : Call := { c with fx := c.fx ++ [e] }

/-- `emit_item`. -/
def emitItem (c : Call) (id : ItemId) (phase : ItemPhase) : Call :=
  c.push (.emit (.item id phase))

/-! ## Synthesis -/

/-- `request`: synthesize a chunk once. -/
def request (c : Call) (item : ItemId) (chunk : Nat) (text : Text) : Call :=
  if (item, chunk) ∈ c.r.requested then c
  else
    { r := { c.r with requested := insert (item, chunk) c.r.requested }
      fx := c.fx ++ [.synthesize item chunk text] }

/-- The chunks after the playing one in play order: the rest of the current
item, then the queued items'. -/
def ahead (r : Reader) (cur : Current) : List (ItemId × Nat × Text) :=
  ((cur.item.chunks.zipIdx.drop (cur.chunk + 1)).map fun (t, i) => (cur.item.id, i, t))
    ++ r.queue.flatMap fun item => item.chunks.zipIdx.map fun (t, i) => (item.id, i, t)

/-- `prefetch`: synthesize the `lookahead` chunks after the playing one. -/
def prefetch (c : Call) : Call :=
  match c.r.loaded, c.r.current with
  | some _, some cur =>
    ((ahead c.r cur).take c.r.lookahead).foldl (fun c (id, chunk, text) =>
      c.request id chunk text) c
  | _, _ => c

/-- `begin_chunk`: synthesize the current chunk and, unless paused, play it. -/
def beginChunk (c : Call) : Call :=
  match c.r.current with
  | none => c
  | some cur =>
    let c := c.request cur.item.id cur.chunk (cur.item.chunkAt cur.chunk)
    if c.r.paused then c
    else
      let g := c.r.gen + 1
      { r := { c.r with gen := g, loaded := some g }
        fx := c.fx ++ [.playChunk cur.item.id cur.chunk g] }

/-! ## Ends -/

/-- `stop_output`. -/
def stopOutput (c : Call) : Call :=
  if c.r.loaded.isSome then
    { r := { c.r with loaded := none }, fx := c.fx ++ [.stopOutput] }
  else c

/-- `forget`: the final phase of an item; its synthesized chunks go. -/
def forget (c : Call) (id : ItemId) (phase : ItemPhase) : Call :=
  { c with r := { c.r with requested := c.r.requested.filter (fun p => p.1 ≠ id) } }.emitItem
    id phase

/-- `end_current`. -/
def endCurrent (c : Call) (phase : ItemPhase) : Call :=
  let c := c.stopOutput
  match c.r.current with
  | none => c
  | some cur =>
    let c := { c with r := { c.r with current := none } }.forget cur.item.id phase
    { c with r := { c.r with last := some cur.item } }

/-- `while let Some(dropped) = self.queue.pop_front() { self.forget(..) }`, by
recursion on the queue. -/
def dropAll : List Item → Call → Call
  | [], c => c
  | it :: rest, c =>
    dropAll rest ({ c with r := { c.r with queue := rest } }.forget it.id .skipped)

/-- Drop every queued item, each reported `Skipped`. -/
def dropQueue (c : Call) : Call := dropAll c.r.queue c

/-- `next_id = n`. -/
def bump (c : Call) (n : ItemId) : Call := { c with r := { c.r with nextId := n } }

/-- `queue.push_front(item)`. -/
def pushFront (c : Call) (item : Item) : Call :=
  { c with r := { c.r with queue := item :: c.r.queue } }

/-- `queue.push_back(item)`. -/
def pushBack (c : Call) (item : Item) : Call :=
  { c with r := { c.r with queue := c.r.queue ++ [item] } }

/-! ## Transitions -/

/-- `end_wait`: a move away from a step wait plays. -/
def endWait (c : Call) : Call :=
  if c.r.stepWait then { c with r := { c.r with stepWait := false, paused := false } } else c

/-- `release_code`: Play in a code block reads the rest of it through. -/
def releaseCode (c : Call) : Call :=
  if c.r.stepWait then { c with r := { c.r with released := true } } else c

/-- `start_next`: make the front of the queue current, or go idle. -/
def startNext (c : Call) : Call :=
  let c := c.endWait
  match c.r.queue with
  | item :: rest =>
    let c := { c with r := { c.r with queue := rest, released := false } }.emitItem item.id .started
    { c with r := { c.r with current := some { item := item, chunk := 0, playedAny := false } }
      }.beginChunk
  | [] => { c with r := { c.r with paused := false } }

/-- `pause`. -/
def pause (c : Call) : Call :=
  -- Pause at a step wait makes it the user's pause.
  let c := { c with r := { c.r with stepWait := false } }
  if c.r.current.isNone || c.r.paused then c
  else
    let c := { c with r := { c.r with paused := true } }
    if c.r.loaded.isSome then c.push .pauseOutput else c

/-- `resume`. -/
def resume (c : Call) : Call :=
  let c := { c with r := { c.r with paused := false, stepWait := false } }
  if c.r.loaded.isSome then c.push .resumeOutput else c.beginChunk

/-- `stop`. -/
def stop (c : Call) : Call :=
  let c := { c with r := { c.r with last := none } }
  if c.r.current.isNone && c.r.queue.isEmpty then c
  else
    let c := if c.r.current.isSome then c.endCurrent .skipped else c
    let c := c.dropQueue
    { c with r := { c.r with last := none, paused := false, stepWait := false } }

/-- `skip`. -/
def skip (c : Call) : Call := (c.endCurrent .skipped).startNext

/-- Read through only between the lines of one block: `released` ends at a chunk
of another kind. -/
def unrelease (c : Call) (k : CodeKind) : Call :=
  if k ≠ .line then { c with r := { c.r with released := false } } else c

/-- `move_to`: jump to chunk `dest` of the current item. -/
def moveTo (c : Call) (dest : Nat) : Call :=
  let c := c.endWait.stopOutput
  let c := { c with r := c.r.setChunk dest }
  (c.unrelease (c.r.kindAt dest)).beginChunk

/-- Step mode waits at the next line, and after the last one too. -/
def waits (done next : CodeKind) : Bool :=
  match done with
  | .prose => false
  | .start => next == .line
  | .line => true

/-- The step wait. A pause the user made before the chunk ended stays theirs. -/
def waitStep (c : Call) (waits : Bool) : Call :=
  if c.r.codeStep && waits && !c.r.paused then
    { c with r := { c.r with paused := true, stepWait := true } }
  else c

/-- `advance`: the loaded chunk ended; go to the next one, or end the item. -/
def advance (c : Call) : Call :=
  match c.r.current with
  | none => c
  | some cur =>
    if cur.chunk + 1 < cur.item.chunks.length then
      let done := kind (cur.item.chunkAt cur.chunk)
      let next := kind (cur.item.chunkAt (cur.chunk + 1))
      let released := c.r.released
      let c := { c with r := { c.r with current := some { cur with chunk := cur.chunk + 1 } } }
      ((c.unrelease next).waitStep (!released && waits done next)).beginChunk
    else
      (c.endCurrent (if cur.playedAny then .finished else .failed)).startNext

/-- Where a line step goes: with `next` the line waited at in step mode (it has
not played yet) or else the one after, otherwise the line before. -/
def lineTarget (r : Reader) (cur : Current) (next : Bool) : Nat :=
  let pos := cur.chunk
  let waiting := r.paused && r.loaded.isNone
  if next then
    if waiting then pos else pos + 1
  else if 0 < pos ∧ r.kindAt (pos - 1) = .line then pos - 1
  else pos

/-- `line_step`: `NextLine` (with `next`) or `PreviousLine`. -/
def lineStep (c : Call) (next : Bool) : Call :=
  match c.r.current with
  | none => c
  | some cur =>
    if !c.r.inCode then c
    else
      let dest := lineTarget c.r cur next
      -- A line step waits again after its line, also after Play.
      let c := { c with r := { c.r with paused := false, stepWait := false, released := false } }
      if dest ≥ cur.item.chunks.length then c.skip else c.moveTo dest

/-! ## The end of a call -/

/-- `finish`: prefetch, then a state event if anything visible changed. -/
def finish (c : Call) : Call :=
  let c := c.prefetch
  if c.r.snapshot c.r.shown.seq ≠ c.r.shown then
    let state := c.r.snapshot (c.r.shown.seq + 1)
    { r := { c.r with shown := state }, fx := c.fx ++ [.emit (.state state)] }
  else c

end Call

/-! ## Inputs -/

section

variable (split : Chunking → Text → List Text)

/-- The queueing half of `speak`, for an item with chunks: behind everything, or
(an interrupt) in place of the current item. -/
def Call.enqueue (c : Call) (item : Item) (interrupt : Bool) : Call :=
  if interrupt && c.r.current.isSome then ((c.endCurrent .skipped).pushFront item).startNext
  else
    let c := c.pushBack item
    if c.r.current.isNone then c.startNext else c

/-- `speak`: add `text` as one item; its id and the effects. -/
def Reader.speak (r : Reader) (text : Text) (mode : QueueMode) (interrupt : Bool)
    (label : Option String) : ItemId × Call :=
  let id := r.nextId
  let c := Call.bump ⟨r, []⟩ (id + 1)
  let chunks := split r.chunking text
  if chunks.isEmpty then (id, c.emitItem id .skipped)
  else
    let item : Item := { id := id, label := label, text := text, chunks := chunks }
    let c := if mode = .replace then c.dropQueue else c
    (id, (c.enqueue item interrupt).finish)

end

/-- `Restart`: chunk 0 of the current item; when idle, the last item again under
a fresh id. -/
def Call.restart (c : Call) : Call :=
  if c.r.current.isSome then c.moveTo 0
  else
    match c.r.last with
    | none => c
    | some item =>
      let id := c.r.nextId
      let c := { c with r := { c.r with last := none } }
      ((c.bump (id + 1)).pushFront { item with id := id }).startNext

/-- `Play` and the playing half of `Toggle`. -/
def Call.play (c : Call) : Call := c.releaseCode.resume

/-- `Previous`. -/
def Call.previous (c : Call) : Call :=
  match c.r.current with
  | none => c
  | some cur => c.moveTo (cur.chunk - 1)

/-- `Next`. -/
def Call.next (c : Call) : Call :=
  match c.r.current with
  | none => c
  | some cur =>
    if cur.chunk + 1 < cur.item.chunks.length then c.moveTo (cur.chunk + 1) else c.skip

/-- The body of `control`. -/
def Call.control (c : Call) : Control → Call
  | .play => if c.r.paused then c.play else c
  | .pause => c.pause
  | .toggle => if c.r.paused then c.play else c.pause
  | .stop => c.stop
  | .skip => if c.r.current.isSome then c.skip else c
  | .previous => c.previous
  | .next => c.next
  | .restart => c.restart
  | .mute => if !c.r.muted then { c with r := { c.r with muted := true } }.push .mute else c
  | .unmute => if c.r.muted then { c with r := { c.r with muted := false } }.push .unmute else c
  | .nextLine => c.lineStep true
  | .previousLine => c.lineStep false

/-- `control`. -/
def Reader.control (r : Reader) (k : Control) : Call := (Call.control ⟨r, []⟩ k).finish

/-- `on_audio`: feed back what the output reports about a `PlayChunk`. An event
whose `gen` is not the loaded chunk's is stale. -/
def Reader.onAudio (r : Reader) (e : AudioEvent) : Call :=
  if r.loaded ≠ some e.gen then ⟨r, []⟩
  else
    match e with
    | .chunkStarted _ => Call.finish ⟨r.markPlayed, []⟩
    | .chunkFinished _ => (Call.advance ⟨{ r.markPlayed with loaded := none }, []⟩).finish
    | .failed _ _ => (Call.advance ⟨{ r with loaded := none }, []⟩).finish

/-- `set_volume`. -/
def Reader.setVolume (r : Reader) (volume : UInt8) : Call :=
  Call.finish <|
    if volume ≠ r.volume then Call.push ⟨{ r with volume := volume }, []⟩ (.setVolume volume)
    else ⟨r, []⟩

/-- `set_rate`. -/
def Reader.setRate (r : Reader) (rate : UInt32) : Call := Call.finish ⟨{ r with rate := rate }, []⟩

/-- `set_voice`. -/
def Reader.setVoice (r : Reader) (voice : Option String) : Call :=
  Call.finish ⟨{ r with voice := voice }, []⟩

/-- `set_lookahead`, clamped to `1..=MAX_LOOKAHEAD`. -/
def Reader.setLookahead (r : Reader) (n : Nat) : Call :=
  Call.finish ⟨{ r with lookahead := min (max n 1) maxLookahead }, []⟩

/-- `set_chunking`. -/
def Reader.setChunking (r : Reader) (k : Chunking) : Call :=
  Call.finish ⟨{ r with chunking := k }, []⟩

/-- `set_code_step`. Off applies at once: a step wait reads on. -/
def Reader.setCodeStep (r : Reader) (on : Bool) : Call :=
  let c : Call := ⟨{ r with codeStep := on }, []⟩
  Call.finish (if !on && c.r.stepWait then c.resume else c)

/-- Every input of the reader. -/
inductive Input where
  | speak (text : Text) (mode : QueueMode) (interrupt : Bool) (label : Option String)
  | control (k : Control)
  | onAudio (e : AudioEvent)
  | setVolume (volume : UInt8)
  | setRate (rate : UInt32)
  | setVoice (voice : Option String)
  | setLookahead (n : Nat)
  | setChunking (k : Chunking)
  | setCodeStep (on : Bool)
  deriving DecidableEq, Repr

/-- One call. -/
def Reader.call (split : Chunking → Text → List Text) (r : Reader) : Input → Call
  | .speak text mode interrupt label => (r.speak split text mode interrupt label).2
  | .control k => r.control k
  | .onAudio e => r.onAudio e
  | .setVolume v => r.setVolume v
  | .setRate v => r.setRate v
  | .setVoice v => r.setVoice v
  | .setLookahead n => r.setLookahead n
  | .setChunking k => r.setChunking k
  | .setCodeStep on => r.setCodeStep on

/-- The reader as a machine: its calls, and the effects each returns. -/
def machine (split : Chunking → Text → List Text) : Lib.Machine Reader Input Effect where
  init := Reader.new
  step r i := ((r.call split i).r, (r.call split i).fx)

end Sonara.L1
