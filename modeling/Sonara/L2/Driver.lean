import Sonara.L1.Reader
import Sonara.L2.Router

/-!
# The channels driver (`lib.rs`)

`Channels` carries out what the router says. It feeds the reader one item at a time, while the
reader is idle, and a move of the user cuts the item in flight. The reader is the L1 machine; its
calls return at once, and the ends of items it reports wait in `ended` until the driver's thread
takes them (`deliver`). What is reported to `on_drop` is collected in `dropped`.

An operation holds the driver's lock, which keeps out the other operations and `deliver`. It does
not keep others from calling the reader: what they do there before each call the operation makes
is in `meanwhile`.

Left out are the other hooks, the tags of recent items and the voice of announcements. The loop
of `feed` goes round at most three times (`feedLoop_rounds`).
-/

namespace Sonara.L2

open Sonara (Text)
open L1 (ItemId QueueMode Control endsOf)

inductive Error where
  | unknownChannel (channel : ChannelId)
  | emptyChannel
  deriving DecidableEq, Repr

/-! ## Announcements -/

/-- How switches are announced. -/
structure Config where
  announce : Bool
  announceText : Text
  /-- The announcement when the batch is read again from the top. -/
  replayText : Text
  /-- The texts for a channel without a label; `none` skips it. -/
  unnamedText : Option Text
  unnamedReplayText : Option Text
  deriving DecidableEq, Repr

/-- What stands for the label in an announcement. -/
def labelMark : Text := "\x7blabel\x7d".toList

def Config.default : Config where
  announce := true
  announceText := labelMark ++ ".".toList
  replayText := labelMark ++ ", reading again.".toList
  unnamedText := none
  unnamedReplayText := none

/-- `text.replace("\x7blabel\x7d", label)`; the first `n` characters belong to a mark that was
replaced. -/
def fillLabel (label : Text) : Nat → Text → Text
  | _, [] => []
  | n + 1, _ :: t => fillLabel label n t
  | 0, c :: t =>
    if labelMark.isPrefixOf (c :: t) then label ++ fillLabel label (labelMark.length - 1) t
    else c :: fillLabel label 0 t

/-- The text of an announcement, if it is spoken. -/
def Config.announcement (cfg : Config) (label : Option String) (replay : Bool) : Option Text :=
  if !cfg.announce then none
  else
    match label, replay with
    | some l, false => some (fillLabel l.toList 0 cfg.announceText)
    | some l, true => some (fillLabel l.toList 0 cfg.replayText)
    | none, false => cfg.unnamedText
    | none, true => cfg.unnamedReplayText

/-! ## The state -/

/-- The item this driver fed and is waiting for. -/
structure InFlight where
  id : ItemId
  channel : ChannelId
  /-- The entry it reads; `none` for an announcement. -/
  entry : Option Nat
  text : Text
  deriving DecidableEq, Repr

/-- Text dropped before it was heard. -/
structure Dropped where
  channel : ChannelId
  entry : Nat
  text : Text
  reason : String
  /-- The reader item cut while it was being read, if the entry was. -/
  item : Option ItemId
  deriving DecidableEq, Repr

/-- What others do to the reader while the driver carries an operation out. -/
structure Meanwhile where
  /-- Before each call of the reader the operation makes; what is left after the last is not done.
  -/
  calls : List (List L1.Input)
  /-- After `pump_fed` found the reader idle, and before it feeds it. -/
  atFeed : List L1.Input

def Meanwhile.none : Meanwhile where
  calls := []
  atFeed := []

/-- The driver over one reader. -/
structure Channels where
  router : Router
  config : Config
  inFlight : Option InFlight
  reader : L1.Reader
  /-- Ends of items the reader reported and the driver has not seen. -/
  ended : List ItemId
  /-- The items the driver had the reader speak. -/
  fed : List ItemId
  dropped : List Dropped
  meanwhile : Meanwhile

namespace Channels

def new (config : Config) : Channels where
  router := .new
  config := config
  inFlight := none
  reader := .new
  ended := []
  fed := []
  dropped := []
  meanwhile := .none

/-! ## The reader -/

/-- A reader call was carried out. -/
def call (s : Channels) (c : L1.Call) : Channels :=
  { s with reader := c.r, ended := s.ended ++ endsOf c.fx }

/-- What the reader shows. -/
def shown (s : Channels) : L1.State := s.reader.shown

variable (split : L1.Chunking → Text → List Text)

/-- Others call the reader. -/
def others (s : Channels) (is : List L1.Input) : Channels :=
  is.foldl (fun s i => s.call (s.reader.call split i)) s

/-- The driver is about to call the reader: what others do to it before. `reader.state()` is this
and a look at what is `shown` then. -/
def meet (s : Channels) : Channels :=
  match s.meanwhile.calls with
  | [] => s
  | is :: rest => { s with meanwhile := { s.meanwhile with calls := rest } }.others split is

/-- `reader.control`. -/
def tell (s : Channels) (k : Control) : Channels :=
  let s := s.meet split
  s.call (s.reader.control k)

/-- The reader takes a text of the driver. -/
def spoken (s : Channels) (text : Text) (interrupt : Bool) (label : Option String) :
    ItemId × Channels :=
  let out := s.reader.speak split text .append interrupt label
  (out.1, { s.call out.2 with fed := s.fed ++ [out.1] })

/-- `reader.speak_as`, appending. Without an interrupt it is the feed of `pump_fed`. -/
def speakAs (s : Channels) (text : Text) (interrupt : Bool) (label : Option String) :
    ItemId × Channels :=
  let s := if interrupt then s.meet split else s.others split s.meanwhile.atFeed
  s.spoken split text interrupt label

/-! ## Drops -/

/-- The unread entries of a channel. -/
def unread (s : Channels) (channel : ChannelId) : List Entry :=
  ((s.router.channel channel).map Channel.unread).getD []

/-- The item in flight for `channel` and the entry it reads. -/
def cutEntry (s : Channels) (channel : ChannelId) : Option (ItemId × Entry) :=
  (s.inFlight.filter (·.channel == channel)).bind fun f =>
    f.entry.map fun e => (f.id, { id := e, text := f.text, label := none })

def report (s : Channels) (channel : ChannelId) (entries : List Entry) (reason : String)
    (item : Option ItemId) : Channels :=
  { s with dropped := s.dropped ++ entries.map fun e =>
      { channel := channel, entry := e.id, text := e.text, reason := reason, item := item } }

/-- The cut entry of `channel` is reported, if one is read. -/
def reportCut (s : Channels) (channel : ChannelId) (reason : String) : Channels :=
  match s.cutEntry channel with
  | some (item, e) => s.report channel [e] reason (some item)
  | none => s

/-! ## Feeding -/

/-- Hand `text` to the reader, and wait for it. Text with nothing speakable is skipped at once and
cuts nothing: the item it was to cut is cut then. -/
def handOver (s : Channels) (interrupt : Bool) (channel : ChannelId) (entry : Option Nat)
    (text : Text) (label : Option String) : Channels × Option InFlight :=
  let out := s.speakAs split text interrupt label
  let s :=
    if interrupt then
      let s := out.2.meet split
      if s.shown.nowPlaying.any (·.itemId != out.1) then s.tell split .skip else s
    else out.2
  let f : InFlight := { id := out.1, channel := channel, entry := entry, text := text }
  ({ s with inFlight := some f }, some f)

/-- The loop of `feed`, in at most `n` rounds: an announcement that is not spoken is passed over. -/
def feedLoop (interrupt : Bool) : Nat → Channels → Channels × Option InFlight
  | 0, s => (s, none)
  | n + 1, s =>
    match s.router.nextFeed with
    | (r, none) => ({ s with router := r }, none)
    | (r, some (.announce channel label replay _)) =>
      let s := { s with router := r }
      match s.config.announcement label replay with
      | none => feedLoop interrupt n s
      | some text => s.handOver split interrupt channel none text label
    | (r, some (.entry channel e)) =>
      let s := { s with router := r }
      let label := e.label.or ((r.channel channel).bind Channel.label)
      s.handOver split interrupt channel (some e.id) e.text label

/-- `feed`: feed the router's next item; with `interrupt` it cuts the reader's current one. -/
def feed (s : Channels) (interrupt : Bool) : Channels × Option InFlight :=
  feedLoop split interrupt 3 s

/-- `pump_fed`: feed the next item if nothing is in flight and the reader is idle. -/
def pumpFed (s : Channels) : Channels × Option InFlight :=
  if s.inFlight.isSome then (s, none)
  else
    let s := s.meet split
    if s.shown.nowPlaying.isSome || 0 < s.shown.queued then (s, none) else s.feed split false

def pump (s : Channels) : Channels := (s.pumpFed split).1

/-- `item_ended`: the reader ended an item; if it was ours, feed the next one. -/
def itemEnded (s : Channels) (id : ItemId) : Channels :=
  let s := if s.inFlight.any (·.id == id) then
    { s with inFlight := none, router := s.router.done } else s
  s.pump split

/-! ## Cutting -/

/-- `cut_if`: cut the item in flight if it belongs to `channel`, reporting its entry dropped. -/
def cutIf (s : Channels) (channel : ChannelId) (reason : Option String) : Channels :=
  let s :=
    match reason with
    | some reason => s.reportCut channel reason
    | none => s
  if s.inFlight.any (·.channel == channel) then
    { s with inFlight := none, router := s.router.done }.tell split .skip
  else s

/-- The entry of a cut item is read again later, unless it is of `channel`. -/
def rewindOther (s : Channels) (cut : Option InFlight) (channel : ChannelId) : Channels :=
  match cut.filter (·.channel != channel) with
  | none => s
  | some f =>
    match f.entry with
    | none => s
    | some e => { s with router := (s.router.rewind f.channel e).1 }

/-- The end of a move that cut: with nothing fed, what still plays is skipped. -/
def skipPlaying (out : Channels × Option InFlight) : Channels :=
  if out.2.isNone then
    let s := out.1.meet split
    if s.shown.nowPlaying.isSome then s.tell split .skip else s
  else out.1

/-- `cut_and_feed`: cut the item in flight for `channel`, whose cursor was just set, and feed it. -/
def cutAndFeed (s : Channels) (channel : ChannelId) : Channels :=
  skipPlaying split (({ s with inFlight := none }.rewindOther s.inFlight channel).feed split true)

/-- `read_from`: read `channel` now from its batch entry, or from the top. -/
def readFrom (s : Channels) (channel : ChannelId) (entry : Option Nat) : Channels × Bool :=
  match s.router.replayFrom channel entry with
  | (r, true) => ({ s with router := r }.cutAndFeed split channel, true)
  | (_, false) => (s, false)

/-- `step_to`: `read_from` for `back` and `forward`, a step and not a replay. -/
def stepTo (s : Channels) (channel : ChannelId) (entry : Nat) : Channels × Bool :=
  match s.router.stepTo channel entry with
  | (r, true) => ({ s with router := r }.cutAndFeed split channel, true)
  | (_, false) => (s, false)

/-- Cut what is read for `target`, which has the floor now, and feed it: another channel's cut
entry is read again later. -/
def switchTo (s : Channels) (target : ChannelId) (takes : Router → Router) :
    Channels × Option InFlight :=
  let cut := s.inFlight
  let s := { s with inFlight := none }.rewindOther cut target
  let out := { s with router := takes s.router }.feed split true
  (if out.2.isNone && cut.isSome then out.1.tell split .skip else out.1, out.2)

/-! ## Channels and gates -/

def openChannel (s : Channels) (channel : ChannelId) (label hostTab : Option String)
    (policy : Option Policy) :
    Channels × Except Error Bool :=
  if channel = "" then (s, .error .emptyChannel)
  else ({ s with router := s.router.openChannel channel label hostTab policy },
    .ok (!s.router.isOpen channel))

/-- `close`: if it is being read, its item is cut and the next channel's text follows. -/
def close (s : Channels) (channel : ChannelId) : Channels × Except Error Unit :=
  let unread := s.unread channel
  let cut := s.cutEntry channel
  match s.router.close channel with
  | (_, false) => (s, .error (.unknownChannel channel))
  | (r, true) =>
    let s := { s with router := r }.report channel unread "closed" none
    let s :=
      match cut with
      | some (item, e) => s.report channel [e] "closed" (some item)
      | none => s
    ((s.cutIf split channel none).pump split, .ok ())

def labelIfMissing (s : Channels) (channel : ChannelId) (label : String) :
    Channels × Except Error Bool :=
  if channel = "" then (s, .error .emptyChannel)
  else if !s.router.isOpen channel then (s, .error (.unknownChannel channel))
  else
    let out := s.router.labelIfMissing channel label
    ({ s with router := out.1 }, .ok out.2)

def focus (s : Channels) (channel : ChannelId) : Channels × Except Error Unit :=
  match s.router.setFocus channel with
  | (r, true) => ({ s with router := r }.pump split, .ok ())
  | (_, false) => (s, .error (.unknownChannel channel))

def prioritize (s : Channels) (channel : ChannelId) : Channels × Except Error Unit :=
  match s.router.prioritize channel with
  | (r, true) => ({ s with router := r }.pump split, .ok ())
  | (_, false) => (s, .error (.unknownChannel channel))

/-- `set_muted`: muting the channel being read cuts its item. -/
def setMuted (s : Channels) (channel : ChannelId) (muted : Bool) : Channels × Except Error Unit :=
  if channel = "" then (s, .error .emptyChannel)
  else
    let s := { s with router := s.router.setMuted channel muted }
    let s := if muted then s.cutIf split channel (some "muted") else s
    (s.pump split, .ok ())

def setFocusOnly (s : Channels) (on : Bool) : Channels :=
  { s with router := s.router.setFocusOnly on }.pump split

def authorize (s : Channels) (channel : ChannelId) : Channels × Bool :=
  let out := s.router.authorize channel
  ({ s with router := out.1 }.pump split, out.2)

def endBatch (s : Channels) (channel : ChannelId) : Channels :=
  { s with router := s.router.endBatch channel }

/-- `drop_decisions`: how many were removed. -/
def dropDecisions (s : Channels) (channel : ChannelId) (which : Resolved) : Channels × Nat :=
  let size := fun r : Router => ((r.channel channel).map fun c => c.entries.length).getD 0
  let out := s.router.dropDecisions channel which
  ({ s with router := out.1 }.report channel out.2 "answered" none, size s.router - size out.1)

def revise (s : Channels) (channel : ChannelId) (entry : Nat) (text : Text) : Channels × Bool :=
  let out := s.router.revise channel entry text
  ({ s with router := out.1 }, out.2)

def setAside (s : Channels) (channel : ChannelId) (entry : Nat) (aside : Bool) : Channels × Bool :=
  let out := s.router.setAside channel entry aside
  ({ s with router := out.1 }, out.2)

/-- `is_idle`: nothing fed and waiting, and nothing a channel would feed now. -/
def isIdle (s : Channels) : Channels × Bool :=
  if s.inFlight.isSome then (s, false)
  else
    let out := s.router.hasWork
    ({ s with router := out.1 }, !out.2)

/-! ## Text -/

/-- How L3's text is pushed. -/
structure Agent where
  decision : Bool
  heard : Bool

/-- What `speak` did with the text. -/
structure Spoken where
  /-- The reader item reading it, when it was fed at once. -/
  itemId : Option ItemId
  /-- Unread entries of the channel that were dropped for it. -/
  dropped : Nat
  entry : Nat
  deriving DecidableEq, Repr

/-- The new text drops the channel's unread entries. -/
def replaces (s : Channels) (channel : ChannelId) : Option QueueMode → Bool
  | some .replace => true
  | some .append => false
  | none => (s.router.channel channel).any (·.policy = .latest)

/-- Why they are dropped. -/
def replacedBy : Option QueueMode → String
  | some .replace => "replaced by newer text (mode replace)"
  | _ => "replaced by newer text (policy latest)"

/-- A channel its first text opens. -/
def opened (s : Channels) (channel : ChannelId) : Channels :=
  if s.router.isOpen channel then s
  else { s with router := s.router.openChannel channel none none none }

/-- `push`. A muted channel is never read: its interrupt cuts nothing. -/
def push (s : Channels) (channel : ChannelId) (text : Text) (mode : Option QueueMode)
    (interrupt : Bool)
    (label : Option String) (agent : Option Agent) : Channels × Except Error Spoken :=
  if channel = "" then (s, .error .emptyChannel)
  else
    let s := s.opened channel
    let replace := s.replaces channel mode
    let before := (s.unread channel).length
    let s := if replace then s.report channel (s.unread channel) (replacedBy mode) none else s
    let pushed :=
      match agent with
      | some a => s.router.append channel text a.decision a.heard
      | none => s.router.pushWith channel text label replace interrupt
    match pushed.2 with
    | none => ({ s with router := pushed.1 }, .error (.unknownChannel channel))
    | some entry =>
      -- a host's text is read whatever the focus-only gate
      let r := if agent.isNone then (pushed.1.authorize channel).1 else pushed.1
      let s := { s with router := r }
      let out :=
        if interrupt && decide (channel ∉ r.muted) then
          s.switchTo split channel fun r => (r.takeFloor channel).1
        else s.pumpFed split
      (out.1, .ok
        { itemId := (out.2.filter (·.entry == some entry)).map InFlight.id
          dropped := if replace then before else 0
          entry := entry })

def speak (s : Channels) (channel : ChannelId) (text : Text) (mode : Option QueueMode)
    (interrupt : Bool) (label : Option String) : Channels × Except Error Spoken :=
  s.push split channel text mode interrupt label none

/-- `add_with`: L3's text, under the gates. -/
def add (s : Channels) (channel : ChannelId) (text : Text) (decision : Bool) :
    Channels × Except Error Spoken :=
  s.push split channel text (some .append) false none
    (some { decision := decision, heard := false })

/-- `store`: L3's text while Sonara is muted. -/
def store (s : Channels) (channel : ChannelId) (text : Text) (decision : Bool) :
    Channels × Except Error Spoken :=
  s.push split channel text (some .append) false none (some { decision := decision, heard := true })

/-! ## Controls -/

/-- `written_last`: the channel whose batch got the newest entry. -/
def writtenLast (r : Router) : Option ChannelId :=
  let last := r.channels.filterMap fun c => c.entries.getLast?.map fun e => (e.id, c.id)
  (last.foldl (fun best x => if best.any (x.1 < ·.1) then best else some x) none).map Prod.snd

/-- Stop without a channel: everything is dropped. -/
def stopAll (s : Channels) (reason : String) : Channels :=
  let s := s.router.ids.foldl (fun s id => s.report id (s.unread id) reason none) s
  let s :=
    match s.inFlight with
    | some f => s.reportCut f.channel reason
    | none => s
  { s with router := (s.router.flush none).1.done, inFlight := none }.tell split .stop

/-- Restart without a channel: the batch being read from the top, or, while nothing is read, the
engaged channel's. -/
def restart (s : Channels) : Channels :=
  match s.inFlight with
  | some f => (s.readFrom split f.channel none).1
  | none =>
    let s := s.meet split
    if s.shown.nowPlaying.isSome then s.tell split .restart
    else
      let engaged := ((s.router.active.or s.router.lastActive).or s.router.focus).or
        (writtenLast s.router)
      match engaged with
      | none => s.tell split .restart
      | some e =>
        match s.router.replay e with
        | (r, true) => { s with router := r }.pump split
        -- an agent session whose latest message is empty reads nothing
        | (_, false) => if (s.router.channel e).any Channel.agent then s else s.tell split .restart

/-- Restart of a channel that is not being read: it is switched to. -/
def restartChannel (s : Channels) (channel : ChannelId) : Channels :=
  match s.router.replay channel with
  | (_, false) => s
  | (r, true) =>
    let cut := s.inFlight.bind fun f => f.entry.map fun e => (f.channel, e)
    let r :=
      match cut with
      | some (c, e) => (r.rewind c e).1
      | none => r
    skipPlaying split ({ s with router := r, inFlight := none }.feed split true)

/-- `control_because`. -/
def control (s : Channels) (k : Control) (channel : Option ChannelId) (reason : String) :
    Channels × Except Error Unit :=
  match channel with
  | none =>
    match k with
    | .stop => (s.stopAll split reason, .ok ())
    | .restart => (s.restart split, .ok ())
    | k => (s.tell split k, .ok ())
  | some ch =>
    if !s.router.isOpen ch then (s, .error (.unknownChannel ch))
    else
      let reading := s.inFlight.any (·.channel == ch)
      match k with
      | .stop =>
        let s := s.report ch (s.unread ch) reason none
        let s := { s with router := (s.router.flush (some ch)).1 }
        ((s.cutIf split ch (some reason)).pump split, .ok ())
      | .restart => (if reading then s.tell split .restart else s.restartChannel split ch, .ok ())
      | k => (if reading then s.tell split k else s, .ok ())

/-! ## Sections -/

/-- What `back` did. -/
inductive Back where
  | chunk (channel : ChannelId)
  | entry (channel : ChannelId)
  | first (channel : ChannelId)
  | replay
  deriving DecidableEq, Repr

/-- What `forward` did. -/
inductive Forward where
  | chunk (channel : ChannelId)
  | entry (channel : ChannelId)
  | «end» (channel : ChannelId)
  | nothing
  deriving DecidableEq, Repr

/-- The in-flight item and the entry it reads. -/
def reading (s : Channels) : Option (InFlight × Nat) :=
  s.inFlight.bind fun f => f.entry.map fun e => (f, e)

/-- The item playing, when it is the one in flight. -/
def playingChunk (s : Channels) (f : InFlight) : Option L1.NowPlaying :=
  s.shown.nowPlaying.filter (·.itemId == f.id)

/-- The entry before `entry` in the batch, while `entry` is in it. -/
def previousEntry (c : Channel) (entry : Nat) : Option (Option Nat) :=
  (c.entries.findIdx? (·.id == entry)).map fun pos =>
    if pos = 0 then none else (c.entries[pos - 1]?).map Entry.id

/-- The entry after `entry` in the batch; of one that left the batch, the next unread one. -/
def nextEntry (c : Channel) (entry : Nat) : Option Nat :=
  let pos :=
    match c.entries.findIdx? (·.id == entry) with
    | some pos => pos + 1
    | none => c.cursor
  (c.entries[pos]?).map Entry.id

/-- `back`: one section back. -/
def back (s : Channels) : Channels × Back :=
  match s.reading with
  | none => ((s.control split .restart none "stop").1, .replay)
  | some (f, entry) =>
    let s := s.meet split
    -- an item fed a moment ago may not have started yet
    let chunk := ((s.playingChunk f).map (·.chunk)).getD 0
    if 0 < chunk then (s.tell split .previous, .chunk f.channel)
    else
      match (s.router.channel f.channel).bind (previousEntry · entry) with
      -- the entry left the batch while it was read
      | none =>
        match s.readFrom split f.channel none with
        | (s, true) => (s, .first f.channel)
        | (s, false) => (s.tell split .restart, .first f.channel)
      | some previous =>
        match s.stepTo split f.channel (previous.getD entry) with
        | (s, false) => (s.tell split .restart, .first f.channel)
        | (s, true) => (s, if previous.isSome then .entry f.channel else .first f.channel)

/-- `forward`: on one section. -/
def forward (s : Channels) : Channels × Forward :=
  match s.reading with
  | none => (s, .nothing)
  | some (f, entry) =>
    let s := s.meet split
    if (s.playingChunk f).any fun n => n.chunk + 1 < n.chunks then
      (s.tell split .next, .chunk f.channel)
    else
      match (s.router.channel f.channel).bind (nextEntry · entry) with
      | none => (s, .end f.channel)
      | some next =>
        match s.stepTo split f.channel next with
        | (s, false) => (s, .end f.channel)
        | (s, true) => (s, .entry f.channel)

/-! ## Moves and flushes -/

/-- `next_channel`: switch to the next channel now. -/
def nextChannel (s : Channels) : Channels × Option ChannelId :=
  match s.router.nextChannel with
  | (_, none) => (s, none)
  | (r, some (target, _)) => (({ s with router := r }.switchTo split target id).1, some target)

/-- What was stopped. -/
inductive Flushed where
  | channel (channel : ChannelId)
  | announcement (channel : ChannelId)
  | direct
  | nothing
  deriving DecidableEq, Repr

/-- The channel whose entries went with what was stopped. -/
def Flushed.names : Flushed → Option ChannelId
  | .channel c => some c
  | .announcement c => some c
  | .direct => none
  | .nothing => none

/-- What is read is stopped, and its channel flushed. -/
def stopRead (s : Channels) (reason : String) : Channels × Flushed :=
  match s.inFlight with
  | some f =>
    let s := s.report f.channel (s.unread f.channel) reason none
    let s := { s with router := (s.router.flush (some f.channel)).1 }
    if f.entry.isNone then
      ({ s with inFlight := none, router := s.router.done }.tell split .skip,
        .announcement f.channel)
    else (s.cutIf split f.channel (some reason), .channel f.channel)
  | none =>
    let s := s.meet split
    if s.shown.nowPlaying.isSome then (s.tell split .skip, .direct) else (s, .nothing)

/-- The unread entries of another channel are dropped. -/
def flushOther (reason : String) (s : Channels × List ChannelId) (id : ChannelId) :
    Channels × List ChannelId :=
  if (s.1.unread id).isEmpty then s
  else
    let s' := s.1.report id (s.1.unread id) reason none
    ({ s' with router := (s'.router.flush (some id)).1 }, s.2 ++ [id])

/-- `flush_with`: stop what is read, and flush every other channel `also` names. -/
def flushWith (s : Channels) (reason : String) (also : ChannelId → Bool) :
    Channels × Flushed × List ChannelId :=
  let out := s.stopRead split reason
  let others := out.1.router.ids.filter fun id => out.2.names != some id && also id
  let flushed := others.foldl (flushOther reason) (out.1, [])
  if out.2 = .nothing then (flushed.1, out.2, flushed.2)
  else
    let s := flushed.1.meet split
    let s := if s.shown.paused then s.tell split .play else s
    (s.pump split, out.2, flushed.2)

end Channels

/-! ## Runs -/

/-- What is done to the driver, to its reader by others, or by its thread. -/
inductive DriverOp where
  | openChannel (channel : ChannelId) (label hostTab : Option String) (policy : Option Policy)
  | close (channel : ChannelId)
  | labelIfMissing (channel : ChannelId) (label : String)
  | focus (channel : ChannelId)
  | prioritize (channel : ChannelId)
  | speak (channel : ChannelId) (text : Text) (mode : Option QueueMode) (interrupt : Bool)
    (label : Option String)
  | add (channel : ChannelId) (text : Text) (decision : Bool)
  | store (channel : ChannelId) (text : Text) (decision : Bool)
  | endBatch (channel : ChannelId)
  | dropDecisions (channel : ChannelId) (which : Resolved)
  | setMuted (channel : ChannelId) (muted : Bool)
  | setFocusOnly (on : Bool)
  | authorize (channel : ChannelId)
  | control (k : Control) (channel : Option ChannelId) (reason : String)
  | revise (channel : ChannelId) (entry : Nat) (text : Text)
  | setAside (channel : ChannelId) (entry : Nat) (aside : Bool)
  | readFrom (channel : ChannelId) (entry : Option Nat)
  | back
  | forward
  | flushWith (reason : String) (also : ChannelId → Bool)
  | nextChannel
  | isIdle
  | configure (config : Config)
  /-- A call of the reader that the driver does not make. -/
  | reader (i : L1.Input)
  /-- The driver's thread takes the next end of an item. -/
  | deliver

variable (split : L1.Chunking → Text → List Text)

def Channels.step (s : Channels) : DriverOp → Channels
  | .openChannel channel label hostTab policy => (s.openChannel channel label hostTab policy).1
  | .close channel => (s.close split channel).1
  | .labelIfMissing channel label => (s.labelIfMissing channel label).1
  | .focus channel => (s.focus split channel).1
  | .prioritize channel => (s.prioritize split channel).1
  | .speak channel text mode interrupt label => (s.speak split channel text mode interrupt label).1
  | .add channel text decision => (s.add split channel text decision).1
  | .store channel text decision => (s.store split channel text decision).1
  | .endBatch channel => s.endBatch channel
  | .dropDecisions channel which => (s.dropDecisions channel which).1
  | .setMuted channel muted => (s.setMuted split channel muted).1
  | .setFocusOnly on => s.setFocusOnly split on
  | .authorize channel => (s.authorize split channel).1
  | .control k channel reason => (s.control split k channel reason).1
  | .revise channel entry text => (s.revise channel entry text).1
  | .setAside channel entry aside => (s.setAside channel entry aside).1
  | .readFrom channel entry => (s.readFrom split channel entry).1
  | .back => (s.back split).1
  | .forward => (s.forward split).1
  | .flushWith reason also => (s.flushWith split reason also).1
  | .nextChannel => (s.nextChannel split).1
  | .isIdle => s.isIdle.1
  | .configure config => { s with config := config }
  | .reader i => s.call (s.reader.call split i)
  | .deliver =>
    match s.ended with
    | [] => s
    | id :: rest => { s with ended := rest }.itemEnded split id

/-- An operation, and what others do to the reader while it is carried out. -/
structure DriverTurn where
  op : DriverOp
  meanwhile : Meanwhile

/-- Nobody calls the reader meanwhile. -/
def DriverOp.alone (op : DriverOp) : DriverTurn where
  op := op
  meanwhile := .none

def Channels.turn (s : Channels) (t : DriverTurn) : Channels :=
  { { s with meanwhile := t.meanwhile }.step split t.op with meanwhile := .none }

/-- The state of a run. -/
def Channels.run (s : Channels) (ts : List DriverTurn) : Channels :=
  ts.foldl (Channels.turn split) s

end Sonara.L2
