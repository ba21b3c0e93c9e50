import Sonara.Lib.Machine
import Sonara.L2.Channel
import Mathlib.Data.Finset.Filter

/-!
# The L2 router (`router.rs`)

The channels with their cursors, which one reads, and the switch announcements,
as the code runs them. Methods that return something next to `&mut self` return a
pair. Channel ids are unique (`open` adds only a new one), so `channel_mut(id)` is
an update of every channel named `id`.

`next_feed` calls itself once, after it armed a hand-off announcement. The model
passes the recursive call in (`nextFeedWith`); `nextFeed_eq` shows that the
function so defined satisfies the equation of the source.
-/

namespace Sonara.L2

open Sonara (Text)

/-- What to feed the reader next. -/
inductive Feed where
  /-- Announce a switch to `channel`. -/
  | announce (channel : ChannelId) (label : Option String) (replay manual : Bool)
  /-- Read this entry of `channel`. -/
  | entry (channel : ChannelId) (entry : Entry)
  deriving DecidableEq, Repr

/-- An armed switch announcement. -/
structure Switch where
  channel : ChannelId
  replay : Bool
  manual : Bool
  deriving DecidableEq, Repr

/-- The router. -/
structure Router where
  /-- In opening order. -/
  channels : List Channel
  nextEntry : Nat
  /-- The channel reading now. -/
  active : Option ChannelId
  /-- The channel that read last; survives idle gaps. -/
  lastActive : Option ChannelId
  /-- The channel that read last, kept after it closed. -/
  lastReader : Option ChannelId
  /-- The host tab of `lastReader` once it closed. -/
  closedReaderTab : Option String
  focus : Option ChannelId
  /-- An armed switch announcement, fed before the next entry. -/
  announce : Option Switch
  /-- The entry fed last, until the next feed or `done`. -/
  reading : Option (ChannelId × Nat)
  /-- Channels switched away from by `next_channel`, with their `gen` at the time. -/
  suppressed : ChannelId → Option Nat
  /-- Channels to read before anything else, oldest first. -/
  priority : List ChannelId
  /-- A replay the user started, with the last entry id that existed then. -/
  hold : Option (ChannelId × Nat)
  /-- Muted channel ids, open or not. -/
  muted : Finset ChannelId
  focusOnly : Bool
  /-- Channels read past the focus-only gate until they have nothing unread. -/
  authorized : Finset ChannelId

namespace Router

/-- No channels. -/
def new : Router where
  channels := []
  nextEntry := 0
  active := none
  lastActive := none
  lastReader := none
  closedReaderTab := none
  focus := none
  announce := none
  reading := none
  suppressed := fun _ => none
  priority := []
  hold := none
  muted := ∅
  focusOnly := false
  authorized := ∅

/-- `channel`. -/
def channel (r : Router) (id : ChannelId) : Option Channel := r.channels.find? (fun c => c.id == id)

/-- `id` is open. -/
def isOpen (r : Router) (id : ChannelId) : Bool := (r.channel id).isSome

/-- What `channel_mut(id)` is used for: change one channel in place. -/
def update (r : Router) (id : ChannelId) (f : Channel → Channel) : Router :=
  { r with channels := r.channels.map fun c => if c.id = id then f c else c }

/-- The ids of the channels, in opening order. -/
def ids (r : Router) : List ChannelId := r.channels.map (·.id)

/-! ## Opening and closing -/

/-- `open`: open `id`, or update an open channel's label, tab and policy. -/
def openChannel (r : Router) (id : ChannelId) (label hostTab : Option String)
    (policy : Option Policy) :
    Router :=
  if r.isOpen id then
    r.update id fun c =>
      { c with label := label, hostTab := hostTab, policy := policy.getD c.policy }
  else
    let c := Channel.new id label hostTab (policy.getD .latest)
    { r with channels := r.channels ++ [{ c with muted := id ∈ r.muted }] }

/-- `label_if_missing`. -/
def labelIfMissing (r : Router) (id : ChannelId) (label : String) : Router × Bool :=
  if label = "" then (r, false)
  else
    match r.channel id with
    | some c =>
      if c.label.all (· == "") then (r.update id fun c => { c with label := some label }, true)
      else (r, false)
    | none => (r, false)

/-- `end_hold`. -/
def endHold (r : Router) (id : Option ChannelId) : Router :=
  if id = none ∨ r.hold.map Prod.fst = id then { r with hold := none } else r

/-- `close`: forget `id` and everything about it. -/
def close (r : Router) (id : ChannelId) : Router × Bool :=
  match r.channel id with
  | none => (r, false)
  | some closed =>
    let r := { r with channels := r.channels.filter (fun c => c.id != id) }
    let r :=
      if r.lastReader = some id then
        { r with closedReaderTab := closed.hostTab.filter (· != "") }
      else r
    let r := { r with
      active := if r.active = some id then none else r.active
      lastActive := if r.lastActive = some id then none else r.lastActive
      focus := if r.focus = some id then none else r.focus
      announce := if r.announce.map Switch.channel = some id then none else r.announce
      reading := if r.reading.map Prod.fst = some id then none else r.reading
      suppressed := Function.update r.suppressed id none
      priority := r.priority.filter (· != id)
      authorized := r.authorized.erase id }
    (r.endHold (some id), true)

/-! ## The floor -/

/-- `is_handoff`: `id` taking the floor is a switch from the channel that read
last. A channel in the host tab of a closed last reader replaces it. -/
def isHandoff (r : Router) (id : ChannelId) : Bool :=
  if r.lastReader.any (· != id) then
    let tab := (r.channel id).bind Channel.hostTab
    !(tab.isSome && tab == r.closedReaderTab)
  else false

/-- `set_reader`: `id` reads now. -/
def setReader (r : Router) (id : ChannelId) : Router :=
  { r with
    active := some id, lastActive := some id, lastReader := some id, closedReaderTab := none }

/-- `start_hold`: hold the floor for `id`'s replay. -/
def startHold (r : Router) (id : ChannelId) : Router :=
  let r := r.endHold none
  { r with hold := some (id, r.nextEntry) }

/-- `arm`. -/
def arm (r : Router) (id : ChannelId) (replay manual : Bool) : Router :=
  { r with announce := some { channel := id, replay := replay, manual := manual } }

/-! ## The gates -/

/-- `ready`: something unread. -/
def ready (r : Router) (id : ChannelId) : Bool := (r.channel id).any fun c => 0 < c.pending

/-- `audible`: something unread and not muted. -/
def audible (r : Router) (id : ChannelId) : Bool :=
  (r.channel id).any fun c => 0 < c.pending && !c.muted

/-- `holds`: `id` still has an unread entry of the batch its replay started with. -/
def holds (r : Router) (id : ChannelId) (mark : Nat) : Bool :=
  r.audible id && (r.channel id).any fun c => c.unread.any (fun e => e.id ≤ mark)

/-- `gated`: the focus-only gate holds `id` back. -/
def gated (r : Router) (id : ChannelId) : Bool :=
  r.focusOnly && r.focus.any (· != id) && decide (id ∉ r.authorized)

/-- `is_suppressed`: switched away from and not changed since. New content, or a
closed channel, lifts it. -/
def isSuppressed (r : Router) (id : ChannelId) : Router × Bool :=
  match r.suppressed id with
  | none => (r, false)
  | some gen =>
    match r.channel id with
    | some c =>
      if c.gen = gen then (r, true)
      else ({ r with suppressed := Function.update r.suppressed id none }, false)
    | none => ({ r with suppressed := Function.update r.suppressed id none }, false)

/-- `focus`: put `id` in front; the channel focused before may finish. -/
def setFocus (r : Router) (id : ChannelId) : Router × Bool :=
  if !r.isOpen id then (r, false)
  else
    let r :=
      match r.focus with
      | some old =>
        if old ≠ id ∧ r.ready old then { r with authorized := insert old r.authorized } else r
      | none => r
    ({ r with focus := some id }, true)

/-- The id in the muted set, and the channel if it is open. -/
def markMuted (r : Router) (id : ChannelId) (muted : Bool) : Router :=
  { r with muted := if muted then insert id r.muted else r.muted.erase id }.update id fun c =>
    { c with muted := muted }

/-- `set_muted`: mute or unmute `id`, open or not; nothing reads it then: no hold. -/
def setMuted (r : Router) (id : ChannelId) (muted : Bool) : Router :=
  let r := r.markMuted id muted
  if muted then r.endHold (some id) else r

/-- `set_focus_only`. -/
def setFocusOnly (r : Router) (on : Bool) : Router := { r with focusOnly := on }

/-- `authorize`: let `id` past the focus-only gate. -/
def authorize (r : Router) (id : ChannelId) : Router × Bool :=
  if !r.isOpen id then (r, false) else ({ r with authorized := insert id r.authorized }, true)

/-- `prioritize`: read `id` before every other waiting channel. -/
def prioritize (r : Router) (id : ChannelId) : Router × Bool :=
  if !r.isOpen id then (r, false)
  else if id ∈ r.priority then (r, true)
  else ({ r with priority := r.priority ++ [id] }, true)

/-! ## The batches -/

/-- `push_with`: push `text` into an open channel, ignoring its policy. -/
def pushWith (r : Router) (id : ChannelId) (text : Text) (label : Option String)
    (replace front : Bool) : Router × Option Nat :=
  let next := r.nextEntry + 1
  let reading : Bool := r.reading.any (·.1 == id)
  if !r.isOpen id then (r, none)
  else
    let r := r.update id fun c =>
      c.push { id := next, text := text, label := label } replace front reading
    ({ r with nextEntry := next }, some next)

/-- `push`: push `text` into an open channel by its policy. -/
def push (r : Router) (id : ChannelId) (text : Text) (label : Option String) :
    Router × Option Nat :=
  match r.channel id with
  | none => (r, none)
  | some c => r.pushWith id text label (c.policy = .latest) false

/-- `append`: push L3's `text` into an open channel; `heard` stores it read unless
the channel has unread entries or is being read. -/
def append (r : Router) (id : ChannelId) (text : Text) (decision heard : Bool) :
    Router × Option Nat :=
  match r.channel id with
  | none => (r, none)
  | some c =>
    let unread : Bool := 0 < c.pending || r.reading.any (·.1 == id)
    match r.pushWith id text none false false with
    | (r, none) => (r, none)
    | (r, some entry) =>
      (r.update id fun c =>
        { c with
          growing := true
          agent := true
          decisions := if decision then Function.update c.decisions entry (some heard) else c.decisions
          cursor := if heard && !unread then c.entries.length else c.cursor }, some entry)

/-- `drop_decisions`: the decisions `which` names were answered. -/
def dropDecisions (r : Router) (id : ChannelId) (which : Resolved) : Router × List Entry :=
  (r.update id fun c => (c.dropDecisions which).1,
    ((r.channel id).map fun c => (c.dropDecisions which).2).getD [])

/-- `end_batch`: L3's next text starts a new batch once the channel is caught up. -/
def endBatch (r : Router) (id : ChannelId) : Router :=
  r.update id fun c => { c with growing := false }

/-- `set_aside`: set a batch entry aside, or back. -/
def setAside (r : Router) (id : ChannelId) (entry : Nat) (aside : Bool) : Router × Bool :=
  match r.channel id with
  | none => (r, false)
  | some c =>
    if c.entries.any (fun e => e.id == entry) then
      (r.update id fun c =>
        { c with aside := if aside then insert entry c.aside else c.aside.erase entry }, true)
    else (r, false)

/-- Replace the text of the first entry with id `entry`. -/
def reviseEntries (entry : Nat) (text : Text) : List Entry → List Entry
  | [] => []
  | e :: es =>
    if e.id = entry then { e with text := text } :: es else e :: reviseEntries entry text es

/-- `revise`: replace the text of a batch entry in place. -/
def revise (r : Router) (id : ChannelId) (entry : Nat) (text : Text) : Router × Bool :=
  (r.update id fun c => { c with entries := reviseEntries entry text c.entries },
    (r.channel id).any fun c => c.entries.any (fun e => e.id == entry))

/-- Drop an announcement armed for `id`. -/
def dropAnnounce (r : Router) (id : ChannelId) : Router :=
  { r with announce := if r.announce.map Switch.channel = some id then none else r.announce }

/-- `flush`: skip to the end of one channel, or of all. Returns how many entries
were unread. -/
def flush (r : Router) : Option ChannelId → Router × Nat
  | some id =>
    let r := (r.dropAnnounce id).endHold (some id)
    (r.update id fun c => { c with growing := false }.skipToEnd,
      ((r.channel id).map Channel.pending).getD 0)
  | none =>
    let r := { r with announce := none }.endHold none
    ({ r with channels := r.channels.map Channel.skipToEnd }, (r.channels.map Channel.pending).sum)

/-- `rewind`: step `id` back over `entry` if it was the entry just taken. -/
def rewind (r : Router) (id : ChannelId) (entry : Nat) : Router × Bool :=
  (r.update id fun c => (c.rewind entry).1, (r.channel id).any fun c => (c.rewind entry).2)

/-! ## The auto pick -/

/-- `pickable`: may the auto pick choose `id`, other than the channel reading now? -/
def pickable (r : Router) (id : ChannelId) : Router × Bool :=
  if r.audible id then
    match r.isSuppressed id with
    | (r, true) => (r, false)
    | (r, false) => (r, !r.gated id)
  else (r, false)

/-- The first pickable id of a list. -/
def findPickable (r : Router) : List ChannelId → Router × Option ChannelId
  | [] => (r, none)
  | id :: ids =>
    match r.pickable id with
    | (r, true) => (r, some id)
    | (r, false) => r.findPickable ids

/-- The end of `pick`: the first channel, in opening order, with something unread. -/
def pickRing (r : Router) : Router × Option ChannelId := r.findPickable r.ids

/-- The focused channel, or else the ring. -/
def pickFocus (r : Router) : Router × Option ChannelId :=
  match r.focus with
  | none => r.pickRing
  | some f =>
    if r.audible f then
      match r.isSuppressed f with
      | (r, false) => (r, some f)
      | (r, true) => r.pickRing
    else r.pickRing

/-- A prioritized channel, or else the focused one. -/
def pickPriority (r : Router) : Router × Option ChannelId :=
  match r.findPickable r.priority with
  | (r, some p) => (r, some p)
  | (r, none) => r.pickFocus

/-- The channel reading keeps the floor until its batch drains. -/
def pickActive (r : Router) : Router × Option ChannelId :=
  match r.active with
  | some a => if r.audible a then (r, some a) else r.pickPriority
  | none => r.pickPriority

/-- Priorities and authorizations end once their channel has nothing unread. -/
def prune (r : Router) : Router :=
  { r with
    priority := r.priority.filter r.ready
    authorized := r.authorized.filter (fun a => r.ready a = true) }

/-- `pick`: the channel to read next, by the auto rules. -/
def pick (r : Router) : Router × Option ChannelId :=
  let r := r.prune
  match r.hold with
  | some (h, mark) =>
    -- A replay the user started holds the floor until its batch ends.
    if r.holds h mark then (r, some h) else { r with hold := none }.pickActive
  | none => r.pickActive

/-- Take the next entry of the picked channel. -/
def feedEntry (r : Router) (target : ChannelId) : Router × Option Feed :=
  match r.channel target with
  | none => (r, none)
  | some c =>
    let r := r.update target fun c => c.take.1
    match c.take.2 with
    | none => (r, none)
    | some entry =>
      let r :=
        if c.take.1.pending = 0 then { r with authorized := r.authorized.erase target } else r
      ({ r with reading := some (target, entry.id) }, some (.entry target entry))

/-- The picked channel is fed; a hand-off is announced first. -/
def feedPicked (again : Router → Router × Option Feed) (r : Router) (target : ChannelId) :
    Router × Option Feed :=
  if r.active ≠ some target then
    let handoff := r.isHandoff target
    let r := r.setReader target
    if handoff then again (r.arm target false false) else r.feedEntry target
  else r.feedEntry target

/-- The armed announcement as it is fed: nothing if its channel is not open. -/
def armedFeed (r : Router) : Option Feed :=
  r.announce.bind fun sw => (r.channel sw.channel).map fun c =>
    .announce sw.channel (c.label.filter (· != "")) sw.replay sw.manual

/-- The body of `next_feed`, with the recursive call passed in. -/
def nextFeedWith (again : Router → Router × Option Feed) (r : Router) : Router × Option Feed :=
  let armed := r.armedFeed
  let r := { r with reading := none, announce := none }
  match armed with
  | some feed => (r, some feed)
  | none =>
    match r.pick with
    | (r, none) => ({ r with active := none }, none)
    | (r, some target) => r.feedPicked again target

/-- `next_feed`: the next thing to read. -/
def nextFeed (r : Router) : Router × Option Feed := nextFeedWith (nextFeedWith fun r => (r, none)) r

/-- `done`: the entry fed last has ended. -/
def done (r : Router) : Router := { r with reading := none }

/-- `clear_announce`. -/
def clearAnnounce (r : Router) : Router := { r with announce := none }

/-- `has_work`: something would be fed now. -/
def hasWork (r : Router) : Router × Bool :=
  if r.announce.isSome then (r, true)
  else
    match r.pick with
    | (r, target) => (r, target.isSome)

/-! ## The user's moves -/

/-- `l`, or `all` when `l` is empty (never dead-end). -/
def orAll (l all : List ChannelId) : List ChannelId := if l.isEmpty then all else l

/-- The channels `next_channel` goes round: the unmuted ones with a batch; muted
ones when all are muted, empty ones when all are empty. -/
def ring (r : Router) : List ChannelId :=
  let audible := r.ids.filter fun id => (r.channel id).any fun c => !c.muted
  let ring := orAll audible r.ids
  let nonempty := ring.filter fun id => (r.channel id).any fun c => !c.entries.isEmpty
  orAll nonempty ring

/-- The first member of `ring` in `all` from index `i + j` on, cyclically, for the
next `n` slots. -/
def nextMember (all ring : List ChannelId) (i : Nat) : Nat → Nat → Option ChannelId
  | 0, _ => none
  | n + 1, j =>
    match all[(i + j) % all.length]? with
    | some c => if c ∈ ring then some c else nextMember all ring i n (j + 1)
    | none => none

/-- Where `next_channel` lands: the ring member after `cur`, or, where `cur` is
filtered out of the ring, after its slot in the full order. -/
def nextTarget (all ring : List ChannelId) (cur : Option ChannelId) : Option ChannelId :=
  match cur with
  | none => ring[0]?
  | some id =>
    if id ∈ ring then ring[(ring.idxOf id + 1) % ring.length]?
    else if id ∈ all then (nextMember all ring (all.idxOf id) all.length 1).or ring[0]?
    else ring[0]?

/-- The channel that reads is switched away from, unless it is the target itself. -/
def suppressOld (r : Router) (target : ChannelId) : Router :=
  match r.active with
  | none => r
  | some old =>
    if old = target then r
    else
      match r.channel old with
      | some c => { r with suppressed := Function.update r.suppressed old (some c.gen) }
      | none => r

/-- `suppressed.remove(id)`. -/
def unsuppress (r : Router) (id : ChannelId) : Router :=
  { r with suppressed := Function.update r.suppressed id none }

/-- `next_channel` lands on `target`: it is announced, and a replay holds the floor. -/
def land (r : Router) (target : ChannelId) (replay : Bool) : Router :=
  let r := if replay then r.update target fun c => { c with cursor := 0, replaying := true } else r
  let r := ((r.setReader target).arm target replay true).endHold none
  if replay then r.startHold target else r

/-- `next_channel`: move the reading channel one step around the ring. -/
def nextChannel (r : Router) : Router × Option (ChannelId × Bool) :=
  let cur := r.active.or r.lastActive
  match nextTarget r.ids r.ring cur with
  | none => (r, none)
  | some target =>
    let r := (r.suppressOld target).unsuppress target
    match r.channel target with
    | none => (r, none)
    | some c =>
      let replay := c.caughtUp || cur == some target || c.replaying
      (r.land target replay, some (target, replay))

/-- `if self.held() != Some(id) { self.end_hold(None) }`. -/
def endOtherHold (r : Router) (id : ChannelId) : Router :=
  if r.hold.map Prod.fst ≠ some id then r.endHold none else r

/-- `take_floor`: make `id` the reading channel now. -/
def takeFloor (r : Router) (id : ChannelId) : Router × Bool :=
  if !r.isOpen id then (r, false)
  else
    let handoff := r.isHandoff id
    let r := ((r.setReader id).unsuppress id).endOtherHold id
    if handoff then (r.arm id false false, true)
    else if r.announce.any (·.channel != id) then ({ r with announce := none }, true)
    else (r, true)

/-- The batch index a read starts at: the top, or a given entry. -/
def readIndex (c : Channel) : Option Nat → Option Nat
  | none => some 0
  | some e => c.entries.findIdx? (fun x => x.id == e)

/-- `read_at`: read `id`'s batch from `entry` on, holding the floor. -/
def readAt (r : Router) (id : ChannelId) (entry : Option Nat) (replay : Bool) : Router × Bool :=
  match r.channel id with
  | none => (r, false)
  | some c =>
    if c.entries.isEmpty then (r, false)
    else
      match readIndex c entry with
      | none => (r, false)
      | some pos =>
        let r := r.update id fun c =>
          { c with cursor := pos, replaying := replay || c.replaying }
        let handoff := r.isHandoff id
        let r := (r.setReader id).unsuppress id
        let r := { r with authorized := insert id r.authorized }
        let r := r.startHold id
        (if handoff then r.arm id replay true else r, true)

/-- `replay_from`. -/
def replayFrom (r : Router) (id : ChannelId) (entry : Option Nat) : Router × Bool :=
  r.readAt id entry true

/-- `replay`: read `id`'s batch again from the top. -/
def replay (r : Router) (id : ChannelId) : Router × Bool := r.replayFrom id none

/-- `step_to`: a step back or on; it holds the floor but is not a replay. -/
def stepTo (r : Router) (id : ChannelId) (entry : Nat) : Router × Bool :=
  r.readAt id (some entry) false

end Router

/-! ## Runs -/

/-- The public operations that change the router. -/
inductive Op where
  | openChannel (id : ChannelId) (label hostTab : Option String) (policy : Option Policy)
  | labelIfMissing (id : ChannelId) (label : String)
  | close (id : ChannelId)
  | focus (id : ChannelId)
  | setMuted (id : ChannelId) (muted : Bool)
  | setFocusOnly (on : Bool)
  | authorize (id : ChannelId)
  | prioritize (id : ChannelId)
  | push (id : ChannelId) (text : Text) (label : Option String)
  | pushWith (id : ChannelId) (text : Text) (label : Option String) (replace front : Bool)
  | append (id : ChannelId) (text : Text) (decision heard : Bool)
  | dropDecisions (id : ChannelId) (which : Resolved)
  | endBatch (id : ChannelId)
  | setAside (id : ChannelId) (entry : Nat) (aside : Bool)
  | revise (id : ChannelId) (entry : Nat) (text : Text)
  | flush (id : Option ChannelId)
  | rewind (id : ChannelId) (entry : Nat)
  | isSuppressed (id : ChannelId)
  | pick
  | hasWork
  | clearAnnounce
  | done
  | nextFeed
  | nextChannel
  | takeFloor (id : ChannelId)
  | replay (id : ChannelId)
  | replayFrom (id : ChannelId) (entry : Option Nat)
  | stepTo (id : ChannelId) (entry : Nat)
  deriving DecidableEq, Repr

/-- The router after an operation. -/
def Router.apply (r : Router) : Op → Router
  | .openChannel id label hostTab policy => r.openChannel id label hostTab policy
  | .labelIfMissing id label => (r.labelIfMissing id label).1
  | .close id => (r.close id).1
  | .focus id => (r.setFocus id).1
  | .setMuted id muted => r.setMuted id muted
  | .setFocusOnly on => r.setFocusOnly on
  | .authorize id => (r.authorize id).1
  | .prioritize id => (r.prioritize id).1
  | .push id text label => (r.push id text label).1
  | .pushWith id text label replace front => (r.pushWith id text label replace front).1
  | .append id text decision heard => (r.append id text decision heard).1
  | .dropDecisions id which => (r.dropDecisions id which).1
  | .endBatch id => r.endBatch id
  | .setAside id entry aside => (r.setAside id entry aside).1
  | .revise id entry text => (r.revise id entry text).1
  | .flush id => (r.flush id).1
  | .rewind id entry => (r.rewind id entry).1
  | .isSuppressed id => (r.isSuppressed id).1
  | .pick => r.pick.1
  | .hasWork => r.hasWork.1
  | .clearAnnounce => r.clearAnnounce
  | .done => r.done
  | .nextFeed => r.nextFeed.1
  | .nextChannel => r.nextChannel.1
  | .takeFloor id => (r.takeFloor id).1
  | .replay id => (r.replay id).1
  | .replayFrom id entry => (r.replayFrom id entry).1
  | .stepTo id entry => (r.stepTo id entry).1

/-- What an operation feeds the reader: only `next_feed` does. -/
def Router.feeds (r : Router) : Op → List Feed
  | .nextFeed => r.nextFeed.2.toList
  | _ => []

/-- The router as a machine: its operations, and what they feed the reader. -/
def machine : Lib.Machine Router Op Feed where
  init := Router.new
  step r op := (r.apply op, r.feeds op)

end Sonara.L2
