import Sonara.L3.Types

/-!
# The rules (`Rules` of `rules.rs`)

Every input returns the actions the driver carries out, in order. `touch` is the
creation `Rules::turn` makes of a channel's state, with a fresh generation, before
it is read. The notes for the troubleshooting log are left out: they never change
what is spoken. A message of an earlier turn (`Stale`) returns `none` and changes
nothing.
-/

namespace Sonara.L3

open Sonara Text
open Sonara.L2 (ChannelId)
open Sonara.Prose (Speech Chunk)

structure Rules where
  settings : Settings := {}
  turns : Std.ExtTreeMap ChannelId Turn := ∅
  nextGen : Nat := 0
  nextDecision : Nat := 0
  nextToken : Nat := 0
  /-- Send mode `message`. -/
  whole : Bool := false
  /-- Turn-end summaries are heard in dispatch order: `next_seq`, `serve_seq`, the
  parked and the watched releases. -/
  buffer : Lib.Reorder Release := {}

/-- `SUMMARY_MIN_CHARS`. -/
def summaryMinChars : Nat := 280

/-- `LEAD_IN_WAIT`. -/
def leadInWaitMs : Nat := 2000

/-- `DELTA_GAP`. -/
def deltaGap : Nat := 400

/-- `SHORT_REPLY`. -/
def shortReply : Nat := 40

/-- `LONG_BEFORE`. -/
def longBefore : Nat := 60

/-- Text folded for matching: lower case, letters and digits only. -/
def fold (s : Speech) (t : Text) : Text := (s.lowercase t).filter s.isAlphanumeric

/-- A code block as one text: its marked announcement, each marked line on a line of
its own, then its end. -/
def codeBlock (summary : Text) (lines : List Text) (stop : Text) : Text :=
  if lines = [] then summary
  else CodeSpeech.codeStart :: summary ++
    (lines.flatMap fun l => '\n' :: CodeSpeech.codeLine :: l) ++ '\n' :: stop

/-- Held chunks as one text: a blank line before a paragraph, else a space. -/
def joinProse (held : List (Text × Bool)) : Text :=
  CodeSpeech.spoken :: held.foldl
    (fun acc p => (if acc = [] then [] else acc ++ if p.2 then ['\n', '\n'] else [' ']) ++ p.1) []

namespace Rules

variable (s : Speech) (r : Rules)

/-! ## Channels and generations -/

def gen : Rules × Nat := ({ r with nextGen := r.nextGen + 1 }, r.nextGen + 1)

/-- The channel has turn state from here on. -/
def touch (ch : ChannelId) : Rules :=
  if ch ∈ r.turns then r
  else { r.gen.1 with turns := r.turns.insert ch { gen := r.gen.2 } }

def get (ch : ChannelId) : Turn := r.turns[ch]?.getD { gen := 0 }

def set (ch : ChannelId) (c : Turn) : Rules := { r with turns := r.turns.insert ch c }

def modify (ch : ChannelId) (f : Turn → Turn) : Rules :=
  (r.touch ch).set ch (f ((r.touch ch).get ch))

def channels : List ChannelId := r.turns.keys

def awaiting (ch : ChannelId) : Bool := r.turns[ch]?.any Turn.awaiting

def summaries : Bool := r.settings.summaries.enabled

def tracks (ch : ChannelId) : Bool := ch ∈ r.turns

/-- The channel is still writing its reply. -/
def writing (ch : ChannelId) : Bool := r.turns[ch]?.any (!·.ended)

def stale (ch : ChannelId) (turn : Option String) (t : Option Rat) : Bool :=
  r.turns[ch]?.any (·.stale turn t)

/-! ## Speaking -/

def earcon (e : Earcon) : List Action :=
  if r.settings.muteLevel < 2 then [.earcon e] else []

/-- `say`: speak, or while muted keep as the latest message. -/
def say (ch : ChannelId) (text : Text) (decision : Option Nat) (release : Bool) (kind : Kind) :
    List Action :=
  if trim text = [] then []
  else if r.settings.muteLevel = 0 then [.speak ch text decision release kind]
  else [.store ch text decision kind]

def speak (ch : ChannelId) (text : Text) (decision : Option Nat) (kind : Kind) : List Action :=
  r.say ch text decision false kind

/-- Speak a decision. -/
def speakDecision (ch : ChannelId) (d : Decision) : List Action :=
  r.speak ch d.text (some d.id) d.kind

/-- Drop the prose held by `read_mode`, and the deltas held for their order. -/
def dropHeld (ch : ChannelId) : Rules × Nat :=
  let r := r.touch ch
  let c := r.get ch
  let o := c.order.release
  (r.set ch { c with heldProse := [], order := o.1 }, c.heldProse.length + o.2.length)

/-- The prose kept for a summary goes before the held prose. -/
def holdKept (ch : ChannelId) : Rules × Nat :=
  let r := r.touch ch
  let k := (r.get ch).takeKept
  (r.set ch { k.1 with heldProse := k.2 ++ k.1.heldProse }, k.2.length)

/-- What speaks held prose: one `Speak` in whole messages, else one per chunk. -/
def sayProse (ch : ChannelId) (held : List (Text × Bool)) : List Action :=
  if held = [] then []
  else if r.whole then r.speak ch (joinProse held) none .prose
  else held.flatMap fun p => r.speak ch (CodeSpeech.spoken :: p.1) none .prose

/-- Speak the first `n` chunks of the held prose. -/
def flushProseUpto (ch : ChannelId) (n : Nat) : Rules × List Action :=
  let r := r.touch ch
  let c := r.get ch
  (r.set ch { c with heldProse := c.heldProse.drop n }, r.sayProse ch (c.heldProse.take n))

/-- Speak the prose held by `read_mode`. -/
def flushProse (ch : ChannelId) : Rules × List Action :=
  let r := r.touch ch
  r.flushProseUpto ch (r.get ch).heldProse.length

def armSettle (ch : ChannelId) : Rules × List Action :=
  let g := r.gen
  (g.1.modify ch fun c => { c with settleGen := g.2, settleArmed := true },
    [.timer r.settings.summaries.settle (.settle ch g.2)])

/-! ## Streamed prose -/

/-- What the loop over the deltas of `assemble` gathers. -/
structure Cut where
  turn : Turn
  texts : List (Text × Bool)
  /-- The chunks before the last paragraph end. -/
  breaks : Option Nat

def cutChunk (skipCode : Bool) (k : Cut) : Chunk → Cut
  | .text t =>
    { k with turn := { k.turn with prose := k.turn.prose ++ [t], newPara := false }
             texts := k.texts ++ [(t, k.turn.newPara)] }
  | .code summary lines stop =>
    if skipCode then { k with turn := { k.turn with prose := k.turn.prose ++ [summary] } }
    else
      { k with turn := { k.turn with prose := k.turn.prose ++ [summary], newPara := false }
               texts := k.texts ++ [(codeBlock summary lines stop, k.turn.newPara)] }
  | .paragraphBreak =>
    { k with turn := { k.turn with newPara := true }, breaks := some k.texts.length }

def cutDelta (skipCode : Bool) (k : Cut) (d : Delta) : Cut :=
  -- A new block restarts at index 0 and starts a paragraph.
  let newPara := k.turn.newPara || (d.index = 0 && k.turn.lastIndex.any (· ≠ 0))
  let f := k.turn.assembler.feed s d.text d.index d.fin
  let c := { k.turn with newPara := newPara, lastIndex := some d.index, assembler := f.1 }
  let k := f.2.foldl (cutChunk skipCode) { k with turn := c }
  if d.fin then { k with turn := { k.turn with newPara := true }, breaks := some k.texts.length }
  else k

/-- The held prose of `c` is spoken now. -/
def isReady (c : Turn) : Bool :=
  c.released || match r.settings.readMode with
    | .immediate => !r.whole
    | .queue => decide (r.settings.minqueue ≤ c.heldProse.length)
    | .done | .final => false

/-- Speak the held prose if it is ready, or else its first `upto` chunks if a paragraph
ended. -/
def speakReady (ch : ChannelId) (paraEnd : Bool) (upto : Nat) : Rules × List Action :=
  if r.isReady (r.get ch) then r.flushProse ch
  else if paraEnd ∧ 0 < upto then r.flushProseUpto ch upto
  else (r, [])

/-- Hold the chunks, and speak what `read_mode` says. -/
def holdTexts (ch : ChannelId) (texts : List (Text × Bool)) (breaks : Option Nat) :
    Rules × List Action :=
  let paraEnd := r.whole && r.settings.readMode = .immediate && breaks.isSome
  if texts = [] ∧ !paraEnd then (r, [])
  else
    let c := r.get ch
    (r.set ch { c with heldProse := c.heldProse ++ texts }).speakReady ch paraEnd
      (c.heldProse.length + breaks.getD 0)

/-- The deltas cut into chunks; without summaries the prose kept for one comes first. -/
def cut (ch : ChannelId) (deltas : List Delta) : Cut :=
  let c := r.get ch
  let kept := if r.summaries then (c, []) else c.takeKept
  deltas.foldl (cutDelta s (r.settings.verbosity = .skipCode)) ⟨kept.1, kept.2, none⟩

/-- Late prose after turn_end restarts the settle window. -/
def settleAgain (ch : ChannelId) : Rules × List Action :=
  if (r.get ch).settleArmed then r.armSettle ch else (r, [])

/-- Assemble deltas, in order, into chunks, and speak or hold them. -/
def assemble (ch : ChannelId) (deltas : List Delta) : Rules × List Action :=
  if deltas = [] then (r, [])
  else
    let r := r.touch ch
    let k := r.cut s ch deltas
    if r.summaries then (r.set ch k.turn).settleAgain ch
    else
      (r.set ch { k.turn with voiced := k.turn.prose.length }).holdTexts ch k.texts k.breaks

/-- Release the deltas held for their order, the missing ones skipped. -/
def releaseGap (ch : ChannelId) : Rules × List Action :=
  let r := r.touch ch
  let c := r.get ch
  let o := c.order.release
  (r.set ch { c with order := o.1 }).assemble s ch o.2

/-- One delta in its order: a gap that begins asks for its timer. -/
def acceptDelta (ch : ChannelId) (d : Delta) : Rules × List Action :=
  let r := r.touch ch
  let c := r.get ch
  let a := c.order.accept d
  if a.2.2 then
    let g := r.gen
    let r := g.1.set ch { c with order := { a.1 with gen := g.2 } }
    let p := r.assemble s ch a.2.1
    (p.1, .timer deltaGap (.gap ch g.2) :: p.2)
  else (r.set ch { c with order := a.1 }).assemble s ch a.2.1

/-- A whole block that comes while a question waits for its lead-in is remembered. -/
def noteSeen (ch : ChannelId) (d : Delta) : Rules :=
  r.modify ch fun c =>
    if d.index = 0 ∧ d.fin then
      { c with leadInWait := c.leadInWait.map fun w =>
          { w with seen := w.seen ++ [fold s d.text] } }
    else c

/-- `stream`, the message not being stale. -/
def streamDelta (ch : ChannelId) (d : Delta) : Rules × List Action :=
  let r := r.noteSeen s ch d
  let c := r.get ch
  if d.index = 0 ∧ d.fin ∧ c.leadIn = some (fold s d.text) then
    -- The text the hook already sent as a question's lead-in.
    (r.set ch { c with leadIn := none }, [])
  else if c.ended && c.replied.any (fun t => decide (fold s d.text <:+: t)) then (r, [])
  else if c.skipReply then
    -- The user flushed this reply: the rest is skipped.
    (r.set ch { c with assembler := (c.assembler.feed s d.text d.index d.fin).1 }, [])
  else
    let p := if d.index = 0 ∧ 0 < c.order.next ∧ !c.order.ahead.isEmpty then r.releaseGap s ch
      else (r, [])
    let q := p.1.acceptDelta s ch d
    (q.1, p.2 ++ q.2)

/-- A delta of streamed prose. -/
def stream (ch : ChannelId) (turn : Option String) (delta : Text) (index : Nat) (fin : Bool)
    (t : Option Rat) : Option (Rules × List Action) :=
  if r.stale ch turn t then none else some (r.streamDelta s ch ⟨delta, index, fin⟩)

/-! ## Decisions: holding and speaking -/

/-- Speak a decision now, or hold it behind the summary in flight. -/
def enqueueOrHold (ch : ChannelId) (item : Decision) (digesting : Bool) : Rules × List Action :=
  let r := r.touch ch
  let c := r.get ch
  if digesting ∨ 0 < c.inflight then
    let items := (c.held.map Prod.snd).getD [] ++ [item]
    (r.set ch { c with held := some (c.lastToken, items) },
      [.timer r.settings.summaries.holdCap (.holdCap ch item.id)])
  else
    let p := r.flushProse ch
    (p.1, p.2 ++ r.speakDecision ch item)

/-- `enqueue_or_hold` of each item, in order. -/
def enqueueAll (ch : ChannelId) (digesting : Bool) : List Decision → Rules → Rules × List Action
  | [], r => (r, [])
  | d :: ds, r =>
    let p := r.enqueueOrHold ch d digesting
    let q := enqueueAll ch digesting ds p.1
    (q.1, p.2 ++ q.2)

/-- The decisions that waited for a late lead-in go, in order. -/
def releaseLeadInWait (ch : ChannelId) : Rules × List Action :=
  let r := r.modify ch fun c => { c with leadInWait := none }
  if r.summaries then r.armSettle ch
  else
    let c := r.get ch
    enqueueAll ch false c.pending (r.set ch { c with pending := [] })

/-- Start waiting for the late lead-in of `a`, unless a question waits already. -/
def waitLeadIn (ch : ChannelId) (a : Ask) : Rules × List Action :=
  let r := r.touch ch
  if (r.get ch).leadInWait.isSome then (r, [])
  else
    let g := r.gen
    (g.1.modify ch fun c => { c with leadInWait := some { gen := g.2, id := a.leadInId } },
      [.timer leadInWaitMs (.leadIn ch g.2)])

/-- The lead-in's text, as prose. -/
def streamLeadIn (ch : ChannelId) (turn : Option String) (delta : Text) (t : Option Rat) :
    Option (Rules × List Action) :=
  let r := if r.settings.readMode = .final then (r.dropHeld ch).1 else r
  let r := r.touch ch
  let c := r.get ch
  -- It belongs to its question: read even in a flushed reply.
  let p := (r.set ch { c with skipReply := false }).stream s ch turn delta 0 true t
  p.map fun p =>
    (p.1.modify ch fun c' => { c' with skipReply := c.skipReply, leadIn := some (fold s delta) },
      p.2)

/-- A question's lead-in; `id` names the question of a late one. -/
def takeLeadIn (ch : ChannelId) (turn : Option String) (delta : Text) (id : Option String)
    (t : Option Rat) : Option (Rules × List Action) :=
  if r.stale ch turn t then none
  else
    let folded := fold s delta
    let wait := r.turns[ch]?.bind Turn.leadInWait
    let waiting := wait.any fun w => id.isNone || w.id == id
    let seen := wait.any fun w => decide (folded ∈ w.seen)
    if id.isSome && !waiting then some (r, [])
    else
      let read := if seen ∧ folded ≠ [] then some (r, [])
        else if trim delta ≠ [] then r.streamLeadIn s ch turn delta t
        else some (r, [])
      read.map fun p =>
        if waiting then
          let q := p.1.releaseLeadInWait ch
          (q.1, p.2 ++ q.2)
        else p

/-- The lead-in of a question from the hook. -/
def leadIn (ch : ChannelId) (turn : Option String) (delta : Text) (t : Option Rat) :
    Option (Rules × List Action) :=
  r.takeLeadIn s ch turn delta none t

/-- A question's lead-in that comes after it. -/
def lateLeadIn (ch : ChannelId) (turn : Option String) (delta : Text) (id : String)
    (t : Option Rat) : Option (Rules × List Action) :=
  r.takeLeadIn s ch turn delta (some id) t

/-! ## Turns -/

/-- The final reply of the turn, sent with `Stop`. -/
def reply (ch : ChannelId) (turn : Option String) (text : Text) (before : Option Text)
    (t : Option Rat) : Option Rules :=
  if r.stale ch turn t then none
  else
    let text := trim text
    let before := (before.map trim).filter (· ≠ [])
    some (r.modify ch fun c => { c with reply := if text = [] then none else some (text, before) })

/-- A short reply after a long report is read after it. -/
def replyText (reply : Text) (before : Option Text) : Text :=
  match before with
  | some b =>
    if (words reply).length < shortReply ∧ longBefore ≤ (words b).length then
      b ++ ['\n', '\n'] ++ reply
    else reply
  | none => reply

/-- The reply, folded `replied`, restarts the text of the turn. -/
def restart (c : Turn) (replied : Text) : Turn :=
  { c with assembler := {}, newPara := false, lastIndex := none,
           order := { c.order with next := 0, skipped := ∅ },
           prose := c.prose.take c.voiced, replied := some replied, released := true }

/-- `read_mode` `final` at the turn end: the reply is assembled in place of the held
prose. -/
def takeReply (ch : ChannelId) : Rules × List Action :=
  let r := r.touch ch
  let c := r.get ch
  let r := r.set ch { c with reply := none }
  match c.reply with
  | some (reply, before) =>
    if r.settings.readMode ≠ .final ∨ c.skipReply then (r, [])
    else
      let r := (r.dropHeld ch).1
      let reply := replyText reply before
      let r := r.set ch (restart (r.get ch) (fold s reply))
      let p := r.assemble s ch [⟨reply, 0, true⟩]
      (p.1.modify ch fun c => { c with assembler := {}, lastIndex := none }, p.2)
  | none => (r, [])

/-- The turn's id is the current one; the one before is retired. -/
def retire (c : Turn) (turn : Option String) : Turn :=
  let c := match c.current with
    | some old =>
      if turn ≠ some old then
        let retired := c.retired ++ [old]
        { c with retired := if retiredTurns < retired.length then retired.tail else retired }
      else c
    | none => c
  { c with current := turn }

/-- What a new turn forgets of the prompt's answers and the reply. -/
def renew (turn : Option String) (t : Option Rat) (c : Turn) : Turn :=
  { retire { c with assembler := {}, t := t <|> c.t } turn with
    awaiting := false, questions := none, readSet := none, leadIn := none, reply := none,
    replied := none }

/-- What a new turn forgets of the text, once what was held is dropped. -/
def emptied (c : Turn) : Turn :=
  { c with released := false, ended := false, skipReply := false, newPara := false,
           lastIndex := none, order := { c.order with next := 0, skipped := ∅ }, prose := [],
           voiced := 0 }

/-- A new turn (the user's prompt). -/
def turnStart (ch : ChannelId) (turn : Option String) (t : Option Rat) :
    Option (Rules × List Action) :=
  if r.stale ch turn t then none
  else
    let g := r.gen
    let g' := g.1.gen
    let r := ((g'.1.modify ch (renew turn t)).dropHeld ch).1
    some (r.modify ch fun c => (emptied c).cancel g.2 g'.2, [.wipe ch true])

/-- The agent finished its turn. -/
def turnEnd (ch : ChannelId) (turn : Option String) (t : Option Rat) :
    Option (Rules × List Action) :=
  if r.stale ch turn t then none
  else
    let g := r.releaseGap s ch
    let p := g.1.takeReply s ch
    let r := p.1.modify ch fun c => { c with released := true, ended := true, batchCut := false }
    let r := if r.summaries then r else (r.holdKept ch).1
    let f := r.flushProse ch
    let a := if r.summaries then f.1.armSettle ch else (f.1, [])
    some (a.1, r.earcon .turnDone ++ g.2 ++ p.2 ++ f.2 ++ a.2)

/-! ## Decisions -/

/-- A question of a set of two or more. -/
def askSet (a : Ask) : Option (Nat × Nat) :=
  a.set.filter fun p => a.kind = .question && 2 ≤ p.2 && p.1 < p.2

/-- The spoken body of a question. -/
def askBody (a : Ask) : Text := Decision.questionText a.text a.options a.multi

/-- A later question of a set, stepping: kept for the navigation, if its first came. -/
def keepLater (ch : ChannelId) (a : Ask) : Option Rules :=
  match askSet a with
  | some (i, n) =>
    if 0 < i ∧ r.settings.questionStep then
      let c := r.get ch
      match c.questions with
      | some q =>
        if q.size = n then
          some (r.set ch { c with questions := some { q with
            bodies := q.bodies.set i (some (askBody a)), texts := q.texts.set i (some a.text) } })
        else none
      | none => none
    else none
  | none => none

/-- The size of the set the navigation steps through, if this question starts one. -/
def steppingSize (readAll : Bool) (a : Ask) : Option Nat :=
  match askSet a, a.set with
  | some (i, n), _ => if readAll ∨ 0 < i then none else some n
  | none, some (i, _) => if 0 < i then none else some 1
  | none, none => some 1

/-- The question set a first question starts. -/
def newQuestions (a : Ask) (n : Nat) : QuestionSet where
  size := n
  bodies := (List.replicate n none).set 0 (some (askBody a))
  texts := (List.replicate n none).set 0 (some a.text)
  notes := a.notes
  hint := a.hint
  hintOnce := a.hintOnce

/-- A question read in order, kept for the screen follower. -/
def keepRead (old : Option ReadSet) (a : Ask) (i n : Nat) : ReadSet :=
  let fresh : ReadSet :=
    { size := n, texts := List.replicate n none, entries := List.replicate n none }
  let kept := match old with
    | some q => if i = 0 ∨ q.size ≠ n then fresh else q
    | none => fresh
  { kept with texts := kept.texts.set i (some a.text) }

/-- A question's text: numbered, if it is one of a set. -/
def questionLine (readAll : Bool) (a : Ask) : Text :=
  match askSet a with
  | some (i, n) => if i = 0 ∨ readAll then Decision.numberedQuestion i n (askBody a) else askBody a
  | none => askBody a

theorem questionLine_spoken (readAll : Bool) (a : Ask) : Spoken (questionLine readAll a) := by
  unfold questionLine
  split
  · split
    · exact Decision.numberedQuestion_spoken _ _ _
    · exact Decision.questionText_spoken _ _ _
  · exact Decision.questionText_spoken _ _ _

/-- A question: its earcon and the sets it starts. -/
def question (ch : ChannelId) (a : Ask) : Rules × List Action :=
  let c := r.get ch
  let readAll := !r.settings.questionStep
  let readSet := match askSet a with
    | some (i, n) => if readAll then some (keepRead c.readSet a i n) else c.readSet
    | none => c.readSet
  (r.set ch { c with awaiting := true, readSet := readSet,
                     questions := (steppingSize readAll a).map (newQuestions a) },
    if c.awaiting then [] else r.earcon .choice)

/-- In `read_mode` `final` the text before a plan, or before a question without a
lead-in, is dropped. -/
def dropBefore (ch : ChannelId) (kind : Kind) : Rules :=
  if r.settings.readMode = .final ∧
      (kind = .plan ∨ kind = .question ∧ (r.get ch).leadIn = none) then
    (r.dropHeld ch).1
  else r

/-- What is spoken after the decision: its notes, the hint at verbosity `everything`,
and the once hint the first time. -/
def extras (ch : ChannelId) (a : Ask) : Rules × List Text :=
  let later := !r.settings.questionStep && (askSet a).any (0 < ·.1)
  let c := r.get ch
  if later then (r, [])
  else if r.settings.verbosity = .everything then
    let once := if c.hinted then [] else a.hintOnce.toList
    (r.set ch { c with hinted := c.hinted || a.hintOnce.isSome },
      a.notes.toList ++ a.hint.toList ++ once)
  else (r, a.notes.toList)

/-- The accepted decision waits for the settle window or its lead-in, or is spoken
or held. -/
def accept (ch : ChannelId) (a : Ask) (item : Decision) : Rules × List Action :=
  let c := r.get ch
  if r.summaries then
    let r := r.set ch { c with pending := c.pending ++ [item] }
    let w := if a.leadInPending then r.waitLeadIn ch a else (r, [])
    let p := w.1.armSettle ch
    (p.1, w.2 ++ p.2)
  else if a.leadInPending || c.leadInWait.isSome then
    (r.set ch { c with pending := c.pending ++ [item] }).waitLeadIn ch a
  else if item.kind = .permission ∧ r.settings.readMode = .final then
    -- Read on its own: the held text waits for the turn end.
    let p := (r.set ch { c with heldProse := [] }).enqueueOrHold ch item false
    (p.1.modify ch fun c' => { c' with heldProse := c.heldProse }, p.2)
  else r.enqueueOrHold ch item false

/-- The decision's text is known: drop, add the extras, and accept it. -/
def pose (ch : ChannelId) (a : Ask) (text : Text) (h : Spoken text) (kind : Kind) :
    Rules × List Action :=
  let r := r.dropBefore ch kind
  let e := r.extras ch a
  let r := { e.1 with nextDecision := e.1.nextDecision + 1 }
  r.accept ch a
    ⟨r.nextDecision, Decision.withExtras text e.2, kind, Decision.withExtras_spoken h e.2⟩

/-- A decision blocks the agent. -/
def ask (ch : ChannelId) (a : Ask) : Rules × List Action :=
  let g := r.releaseGap s ch
  let r := g.1
  match r.keepLater ch a with
  | some r => (r, g.2)
  | none =>
    match a.kind with
    | .question =>
      let q := r.question ch a
      let readAll := !r.settings.questionStep
      let p := q.1.pose ch a (questionLine readAll a) (questionLine_spoken readAll a) .question
      (p.1, g.2 ++ q.2 ++ p.2)
    | .permission =>
      let c := r.get ch
      if c.awaiting then
        -- The prompt the unanswered question also fires: it consumes the mark.
        (r.set ch { c with awaiting := false }, g.2)
      else
        let p := r.pose ch a _ (Decision.permissionText_spoken a.text) .permission
        (p.1, g.2 ++ r.earcon .permission ++ p.2)
    | .plan =>
      let p := r.pose ch a _ (Decision.planText_spoken a.text) .plan
      (p.1, g.2 ++ p.2)

/-! ## Tools, answers, stop and flush -/

/-- The question, if any, was answered. -/
def resolve (ch : ChannelId) : Rules :=
  r.modify ch fun c => { c with awaiting := false, questions := none, readSet := none }

/-- A tool runs. -/
def tool (ch : ChannelId) (name summary : Text) : Rules × List Action :=
  let r := r.resolve ch
  let summary := trim summary
  let text := if summary = [] then "Running ".toList ++ trim name ++ ['.'] else summary
  if (r.get ch).skipReply ∨ r.settings.verbosity ≠ .everything then (r, [])
  else if r.settings.readMode = .done ∨ r.settings.readMode = .final then
    (r, r.speak ch text none .tool)
  else
    let r := if r.whole then r else r.modify ch fun c => { c with released := true }
    let g := r.releaseGap s ch
    let f := g.1.flushProse ch
    (f.1, g.2 ++ f.2 ++ r.speak ch text none .tool)

/-- Skip the channel to now: the decisions that waited for its summary work, and
whether anything was there to drop or release. -/
def catchUp (ch : ChannelId) : Rules × List Decision × Bool :=
  let g := r.gen
  let g' := g.1.gen
  let h := g'.1.dropHeld ch
  let c := h.1.get ch
  let decisions := c.pending ++ (c.held.map Prod.snd).getD []
  let kept := h.1.summaries && decide (c.voiced < c.prose.length)
  let parked := h.1.buffer.parked.any fun _ rel => rel.channel == ch && rel.gen == c.gen
  let work := decide (0 < c.inflight) || parked || c.settleArmed
  (h.1.set ch ({ c with voiced := c.prose.length }.cancel g.2 g'.2), decisions,
    decide (0 < h.2) || kept || work || decisions ≠ [])

/-- The user answered the question. -/
def answered (ch : ChannelId) : Rules × List Action :=
  (((r.resolve ch).catchUp ch).1, [.wipe ch false])

/-- `control stop`: every channel is caught up. -/
def stopAll : Rules :=
  r.channels.foldl (fun r ch => ((r.modify ch fun c => { c with awaiting := false }).catchUp ch).1)
    r

/-- Speak the decisions a flush released. -/
def release (ch : ChannelId) (decisions : List Decision) : List Action :=
  decisions.flatMap (r.speakDecision ch)

/-- The flush hotkey on the session being read. -/
def flush (ch : ChannelId) : Rules × List Action :=
  if r.tracks ch then
    let k := (r.modify ch fun c => { c with skipReply := true }).catchUp ch
    (k.1, k.1.release ch k.2.1)
  else (r, [])

/-- Flush scope `all` for another session: nothing when it is still writing or had
nothing to drop. -/
def flushReady (ch : ChannelId) (queued : Bool) : Rules × Option (List Action) :=
  if !r.tracks ch || r.writing ch then (r, none)
  else
    let k := r.catchUp ch
    if k.2.2 || queued then
      (k.1.modify ch fun c => { c with skipReply := true }, some (k.1.release ch k.2.1))
    else (k.1, none)

/-- A tool or a decision came after the channel's turn ended. -/
def takeNewTurn (ch : ChannelId) : Rules × Bool :=
  match r.turns[ch]? with
  | some c =>
    if c.ended ∧ !c.batchCut then
      (r.set ch { c with batchCut := true, released := false, ended := false, skipReply := false,
                         newPara := false, lastIndex := none, reply := none, replied := none },
        true)
    else (r, false)
  | none => (r, false)

/-- The channel closed: free its turn state. -/
def close (ch : ChannelId) : Rules := { r with turns := r.turns.erase ch }

def play (e : Earcon) : List Action := r.earcon e

/-- "Review your answers." for the review screen. -/
def reviewLine (ch : ChannelId) : List Action :=
  r.speak ch "Review your answers.".toList none .review

def setMuteLevel (level : Nat) : Rules × List Action :=
  let level := min level muteLevelMax
  ({ r with settings := { r.settings with muteLevel := level } },
    if 1 ≤ level then [.silence] else [])

def setWholeMessages (on : Bool) : Rules := { r with whole := on }

/-! ## Summaries -/

/-- Speak a released summary: dropped if its channel moved on since dispatch; an empty
summary falls back to the raw text, but for a lead-in. -/
def apply (rel : Release) : List Action :=
  if r.turns[rel.channel]?.map Turn.gen = some rel.gen then
    match rel.summary.filter fun t => trim t ≠ [] with
    | some t => r.say rel.channel (s.normalize t) none true .summary
    | none =>
      if rel.leadin then []
      else if trim rel.text = [] then r.earcon .summaryFailed
      else r.say rel.channel rel.text none true .prose
  else []

/-- The releases of a buffer step are applied. -/
def applyAll (p : Lib.Reorder Release × List Release) : Rules × List Action :=
  ({ r with buffer := p.1 }, p.2.flatMap (r.apply s))

/-- Park a release under its slot and release every consecutive ready slot; without a
slot it bypasses the order. -/
def land (seq : Option Nat) (rel : Release) : Rules × List Action :=
  match seq with
  | none => (r, r.apply s rel)
  | some seq => r.applyAll s (r.buffer.land seq rel)

/-- Speak the chunks kept for a summary. -/
def speakChunks (ch : ChannelId) (chunks : List Text) : List Action :=
  if r.whole then r.speak ch (join [' '] chunks) none .prose
  else chunks.flatMap fun t => r.speak ch t none .prose

/-- A short turn outside the focused channel joins the summary sequence. -/
def landShort (rel : Release) : Rules × List Action :=
  let a := r.buffer.alloc
  { r with buffer := a.1 }.land s (some a.2) rel

/-- The job `token` is in flight. -/
def sent (c : Turn) (token : Nat) : Turn :=
  { c with lastToken := token, inflight := c.inflight + 1 }

/-- Dispatch a summarizer job. -/
def dispatch (ch : ChannelId) (text : Text) (leadin : Bool) : Rules × List Action :=
  let token := r.nextToken + 1
  let c := r.get ch
  let r := { r with nextToken := token }.set ch (sent c token)
  if leadin then (r, [.summarize ⟨token, ch, c.gen, text, true, none⟩])
  else
    let a := r.buffer.alloc
    ({ r with buffer := a.1.watch a.2 ⟨ch, c.gen, text, false, none⟩ },
      [.timer r.settings.summaries.watchdog (.watchdog a.2),
        .summarize ⟨token, ch, c.gen, text, false, some a.2⟩])

/-- Recap the channel's prose not yet voiced; true when a job went out. -/
def maybeSummarize (ch : ChannelId) (leadin : Bool) (focused : Option ChannelId) :
    Rules × List Action × Bool :=
  if !r.summaries then
    let h := r.holdKept ch
    if 0 < h.2 then
      let f := h.1.flushProse ch
      (f.1, f.2, false)
    else (h.1, [], false)
  else
    let r := r.touch ch
    let c := r.get ch
    let chunks := c.prose.drop c.voiced
    let text := trim (join [' '] chunks)
    if text = [] then (r, [], false)
    else
      let r := r.set ch { c with voiced := c.prose.length }
      if 0 < r.settings.muteLevel then (r, r.speakChunks ch chunks, false)
      else if text.length < summaryMinChars ∧ !leadin then
        if focused = some ch then (r, r.speakChunks ch chunks, false)
        else
          let l := r.landShort s ⟨ch, c.gen, text, false, none⟩
          (l.1, l.2, false)
      else
        let d := r.dispatch ch text leadin
        (d.1, d.2, true)

/-- The settle window of `ch` elapsed. -/
def settled (ch : ChannelId) (focused : Option ChannelId) : Rules × List Action :=
  let c := r.get ch
  let r := r.set ch { c with settleArmed := false }
  -- The late lead-in re-arms it.
  if c.leadInWait.isSome then (r, [])
  else
    let r := r.set ch { c with settleArmed := false, pending := [] }
    let m := r.maybeSummarize s ch (c.pending ≠ []) focused
    let p := enqueueAll ch m.2.2 c.pending m.1
    (p.1, m.2.1 ++ p.2)

/-- The hold cap of a decision: if it is held, all that are held speak now. -/
def capped (ch : ChannelId) (decision : Nat) : Rules × List Action :=
  match r.turns[ch]? with
  | some c =>
    match c.held with
    | some (_, items) =>
      if items.any (·.id == decision) then
        (r.set ch { c with held := none }, items.flatMap (r.speakDecision ch))
      else (r, [])
    | none => (r, [])
  | none => (r, [])

/-- A timer fired. -/
def fire (timer : Timer) (focused : Option ChannelId) : Rules × List Action :=
  match timer with
  | .settle ch gen =>
    if r.turns[ch]?.any (fun c => c.settleGen == gen && c.settleArmed) then r.settled s ch focused
    else (r, [])
  | .holdCap ch decision => r.capped ch decision
  | .watchdog seq => r.applyAll s (r.buffer.expire seq)
  | .leadIn ch gen =>
    if r.turns[ch]?.any (fun c => c.leadInWait.any (·.gen == gen)) then r.releaseLeadInWait ch
    else (r, [])
  | .gap ch gen =>
    if r.turns[ch]?.any (·.order.gen == gen) then r.releaseGap s ch else (r, [])

/-- The decisions held behind `job` are taken, and it is no longer in flight. -/
def settleJob (job : Job) : Rules × List Decision :=
  match r.turns[job.channel]? with
  | some c =>
    let owned := c.held.any (·.1 == job.token)
    (r.set job.channel { c with
      held := if owned then none else c.held
      inflight := if c.gen = job.gen then c.inflight - 1 else c.inflight },
      if owned then (c.held.map Prod.snd).getD [] else [])
  | none => (r, [])

/-- The summarizer answered a job. -/
def digestDone (job : Job) (summary : Option Text) : Rules × List Action :=
  let h := r.settleJob job
  let l := h.1.land s job.seq ⟨job.channel, job.gen, job.text, job.leadin, summary⟩
  (l.1, l.2 ++ h.2.flatMap (l.1.speakDecision job.channel))

end Rules

end Sonara.L3
