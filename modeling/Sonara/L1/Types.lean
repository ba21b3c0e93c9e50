import Sonara.CodeSpeech

/-!
# The L1 reader's types (`reader/types.rs`)

Inputs, effects and the state snapshot of the reader state machine. Counters
(`ItemId`, `gen`, `seq`) are `u64`s that start at 0 or 1 and only ever count up
by one for each call, so they are natural numbers here.
-/

namespace Sonara.L1

open Sonara (Text)

/-- Identifies one item for its whole life. Ids start at 1 and never repeat. -/
abbrev ItemId := Nat

/-- One text to read, split into its spoken chunks. -/
structure Item where
  id : ItemId
  label : Option String
  /-- The text as given to `speak`. -/
  text : Text
  /-- Cleaned, speakable chunks; never empty for a queued item. -/
  chunks : List Text
  deriving DecidableEq, Repr

/-- How `speak` treats items that are queued but not yet started. -/
inductive QueueMode where
  | append
  | replace
  deriving DecidableEq, Repr

/-- How `speak` cuts an item into chunks. -/
inductive Chunking where
  /-- One chunk per spoken sentence. -/
  | sentences
  /-- One chunk per item, cut only past `max` characters (bytes with `bytes`). -/
  | message (max : Nat) (bytes : Bool)
  deriving DecidableEq, Repr

/-- Playback controls. -/
inductive Control where
  | play
  | pause
  | toggle
  | stop
  | skip
  | previous
  | next
  | restart
  | mute
  | unmute
  | nextLine
  | previousLine
  deriving DecidableEq, Repr

/-- Lifecycle phase reported by `Event.item`. -/
inductive ItemPhase where
  | started
  | finished
  | skipped
  | failed
  deriving DecidableEq, Repr

/-- The phases an item ends with. -/
def ItemPhase.Final : ItemPhase → Prop
  | .started => False
  | .finished | .skipped | .failed => True

instance : DecidablePred ItemPhase.Final := fun p => by
  cases p <;> unfold ItemPhase.Final <;> infer_instance

/-- The item being read, as shown in `State`. -/
structure NowPlaying where
  itemId : ItemId
  label : Option String
  /-- The text of the chunk being read (not the whole item). -/
  text : Text
  chunk : Nat
  chunks : Nat
  /-- The chunk is code. -/
  code : Bool
  deriving DecidableEq, Repr

/-- A snapshot of the reader; `seq` numbers the last `Event.state` emitted. -/
structure State where
  seq : Nat
  nowPlaying : Option NowPlaying
  queued : Nat
  paused : Bool
  stepping : Bool
  muted : Bool
  volume : UInt8
  rate : UInt32
  voice : Option String
  deriving DecidableEq, Repr

/-- Something observers of the reader are told about. -/
inductive Event where
  | state (s : State)
  | item (itemId : ItemId) (phase : ItemPhase)
  deriving DecidableEq, Repr

/-- Instructions for the host, in the order they must be carried out. -/
inductive Effect where
  | synthesize (item : ItemId) (chunk : Nat) (text : Text)
  | playChunk (item : ItemId) (chunk : Nat) (gen : Nat)
  | pauseOutput
  | resumeOutput
  | stopOutput
  | mute
  | unmute
  | setVolume (volume : UInt8)
  | emit (e : Event)
  deriving DecidableEq, Repr

/-- What the audio side reports about a `PlayChunk`, tagged with its `gen`. -/
inductive AudioEvent where
  | chunkStarted (gen : Nat)
  | chunkFinished (gen : Nat)
  | failed (gen : Nat) (reason : String)
  deriving DecidableEq, Repr

/-- The `gen` an audio event carries. -/
def AudioEvent.gen : AudioEvent → Nat
  | .chunkStarted g | .chunkFinished g | .failed g _ => g

/-- The item an effect names: the ones about an item's chunks and its phases. -/
def Effect.item? : Effect → Option ItemId
  | .synthesize n _ _ => some n
  | .playChunk n _ _ => some n
  | .emit (.item n _) => some n
  | _ => none

/-- The items that end, in the effects of a call. -/
def endsOf (fx : List Effect) : List ItemId :=
  fx.filterMap fun
    | .emit (.item id phase) => if phase = .started then none else some id
    | _ => none

end Sonara.L1
