import Sonara.Lib.Machine
import Sonara.Lib.Except
import Sonara.L1.Reader
import Sonara.L1.Atoms
import Sonara.L1.Settled
import Sonara.L1.Paths
import Sonara.L1.Output
import Sonara.L1.Ledger
import Sonara.L1.Lifecycle
import Sonara.L1.Prefetch
import Sonara.L2.Channel
import Sonara.L2.Router
import Sonara.L2.Pick
import Sonara.L2.Steps
import Sonara.L2.Floor
import Sonara.L2.Announce
import Sonara.L2.Batch
import Sonara.L2.Edits
import Sonara.L2.Named
import Sonara.L2.Entries
import Sonara.L2.Conserved
import Sonara.L2.Stored
import Sonara.Prose.Table
import Sonara.Prose.Sentences
import Sonara.Prose.Assembler
import Sonara.Lib.Tiling
import Sonara.Prose.Cuts
import Sonara.Prose.Kept
import Sonara.Prose.Fed
import Sonara.L3.Decision
import Sonara.L3.DeltaOrder
import Sonara.L3.Rules
import Sonara.L3.Questions
import Sonara.L3.Run
import Sonara.L3.Config
import Sonara.L3.Mute
import Sonara.L3.Muted
import Sonara.L3.Turnovers
import Sonara.L3.Applied
import Sonara.L3.Stale
import Sonara.L3.Heard
import Sonara.L3.Plain
import Sonara.L3.Modes
import Sonara.L3.Arrivals
import Sonara.L3.Delivered
import Sonara.Lib.Path
import Sonara.L3.Moves
import Sonara.L3.Paths
import Sonara.L3.Inputs
import Sonara.L3.Steps
import Sonara.L3.Slots
import Sonara.L3.Decisions
import Sonara.L3.Voiced
import Sonara.Worker.Loop
import Sonara.Worker.Prompt
import Sonara.Worker.Tracks
import Sonara.Worker.Streams
import Sonara.Worker.Follows
import Sonara.Worker.Drain
import Sonara.Worker.HandOver
import Sonara.Json
import Sonara.Json.Alike
import Sonara.Log.Secrets
import Sonara.Log.Walk
import Sonara.Log.Assigned
import Sonara.Log.Scrub
import Sonara.Log.Masked
import Sonara.Engines.Profile
import Sonara.Engines.Keys
import Sonara.Engines.File
import Sonara.Engines.Registry
import Sonara.Engines.Taken
import Sonara.Engines.Saved
import Sonara.Engines.History
import Sonara.Engines.Vouched
import Sonara.Engines.Lossless
import Sonara.Lib.System
import Sonara.L1.Shown
import Sonara.Mute.Quiet
import Sonara.Mute.Follows
import Sonara.Events.Stream
import Sonara.Events.Agree
import Sonara.External.Cut
import Sonara.Client.Deliver
import Sonara.Client.Honest
import Sonara.Lib.Ring
import Sonara.L2.RoundRobin
import Sonara.L2.Decided
import Sonara.Lib.Packing
import Sonara.Prose.Chunks
import Sonara.Prose.Packed
import Sonara.L3.Ordered
import Sonara.L3.Gaps
import Sonara.L1.Stepping
import Sonara.L1.Waits
import Sonara.L1.Endings
import Sonara.L2.Driver
import Sonara.L2.Work
import Sonara.L2.Driving
import Sonara.L2.Driven
import Sonara.L2.FedOnce
import Sonara.L2.Taken
import Sonara.L2.Covered
import Sonara.L2.Reported
import Sonara.L2.Sections
import Sonara.Log.Folder
import Sonara.Log.Names
import Sonara.Lib.Shelf
import Sonara.Log.Rotation
import Sonara.Log.Budget
import Sonara.L3.Binding
import Sonara.L3.Bound
import Sonara.L3.Sequencer
import Sonara.External.Rest
import Sonara.External.Split
import Sonara.Lib.Chunks
import Sonara.Pcm.Raw
import Sonara.Pcm.Wav
import Sonara.External.Health
import Sonara.Keymap.Chords
import Sonara.Keymap.Overrides
import Sonara.Keymap.Unique
import Sonara.Audio.Control
import Sonara.Audio.Engaged
import Sonara.Lib.Roster
import Sonara.Engines.Live
import Sonara.Engines.Registered
import Sonara.Engines.Atomic
import Sonara.Engines.KeysBound
import Sonara.Engines.Programs
import Sonara.Lib.Backtrack
import Sonara.Markdown.Scanners
import Sonara.Markdown.Snake
import Sonara.Lib.Utf8
import Sonara.External.Sse
import Sonara.External.Decoded
import Sonara.TsClient.Connection
import Sonara.TsClient.Replies
import Sonara.Hook.Transcript
import Sonara.Hook.MessageText
import Sonara.Player.Controller
import Sonara.Player.Coalesced
import Sonara.Output.Rodio
import Sonara.Output.Chunks
import Sonara.Output.Ends
import Sonara.Kokoro.Batches
import Sonara.Kokoro.Cuts
import Sonara.Kokoro.Packed
import Sonara.Lib.Slices
import Sonara.Lib.Callee
import Sonara.CodeSpeech.Scanners
import Sonara.CodeSpeech.Tokens
import Sonara.CodeSpeech.Total
import Sonara.Lib.Words
import Sonara.Pronounce.Numbers
import Sonara.Pronounce.NumberWords
import Sonara.Pausing.CrashSafe
import Sonara.Lib.Effects
import Sonara.Kokoro.Download
import Sonara.Kokoro.Calls
import Sonara.Kokoro.Claimed
import Sonara.Kokoro.Rounds
import Sonara.Kokoro.Recovered
import Sonara.Kokoro.ModelManager
import Sonara.Ducking.Ducker
import Sonara.Ducking.Matching
import Sonara.Ducking.Sweeps
import Sonara.Ducking.CrashSafe
import Sonara.Settings.Schema
import Sonara.Settings.Validated
import Sonara.Settings.Store
import Sonara.Settings.Fields
import Sonara.Settings.Recorded
import Sonara.Settings.Preferences
import Sonara.Settings.Reloaded
import Sonara.Lib.Logged
import Sonara.Lifetime.Server
import Sonara.Lifetime.Log
import Sonara.Lifetime.Steps
import Sonara.Lifetime.Retired
