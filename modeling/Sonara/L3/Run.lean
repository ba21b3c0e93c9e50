import Sonara.L3.Questions
import Sonara.Lib.Machine

/-!
# Runs of the rules

`Rules.call` is one call of a public method; a stale message changes nothing. A
`World` is the rules with what they asked for and still wait for: the timers, each
fired at most once, and the summarizer's jobs, each answered at most once, in any
order, possibly never. `machine` is every interleaving of the three.
-/

namespace Sonara.L3

open Sonara
open Sonara.L2 (ChannelId)
open Sonara.Prose (Speech)

/-- A call of the rules. -/
inductive Call where
  | stream (ch : ChannelId) (turn : Option String) (delta : Text) (index : Nat) (fin : Bool)
      (t : Option Rat)
  | leadIn (ch : ChannelId) (turn : Option String) (delta : Text) (t : Option Rat)
  | lateLeadIn (ch : ChannelId) (turn : Option String) (delta : Text) (id : String)
      (t : Option Rat)
  | reply (ch : ChannelId) (turn : Option String) (text : Text) (before : Option Text)
      (t : Option Rat)
  | turnStart (ch : ChannelId) (turn : Option String) (t : Option Rat)
  | turnEnd (ch : ChannelId) (turn : Option String) (t : Option Rat)
  | ask (ch : ChannelId) (a : Ask)
  | tool (ch : ChannelId) (name summary : Text)
  | answered (ch : ChannelId)
  | stopAll
  | flush (ch : ChannelId)
  | flushReady (ch : ChannelId) (queued : Bool)
  | takeNewTurn (ch : ChannelId)
  | close (ch : ChannelId)
  | play (e : Earcon)
  | reviewLine (ch : ChannelId)
  | setMuteLevel (level : Nat)
  | setWholeMessages (on : Bool)
  | setSettings (settings : Settings)
  | bindQuestion (ch : ChannelId) (entry : Nat) (stored : Bool)
  | questionShown (ch : ChannelId) (shown : Shown)
  | navigate (ch : ChannelId) (step : Step) (started : Bool)
  | questionsUnheard (ch : ChannelId)
  | rewindQuestions (ch : ChannelId)

/-- One call: the rules after it, and the actions it returns. -/
def Rules.call (s : Speech) (r : Rules) : Call → Rules × List Action
  | .stream ch turn delta index fin t => (r.stream s ch turn delta index fin t).getD (r, [])
  | .leadIn ch turn delta t => (r.leadIn s ch turn delta t).getD (r, [])
  | .lateLeadIn ch turn delta id t => (r.lateLeadIn s ch turn delta id t).getD (r, [])
  | .reply ch turn text before t => ((r.reply ch turn text before t).getD r, [])
  | .turnStart ch turn t => (r.turnStart ch turn t).getD (r, [])
  | .turnEnd ch turn t => (r.turnEnd s ch turn t).getD (r, [])
  | .ask ch a => r.ask s ch a
  | .tool ch name summary => r.tool s ch name summary
  | .answered ch => r.answered ch
  | .stopAll => (r.stopAll, [])
  | .flush ch => r.flush ch
  | .flushReady ch queued => ((r.flushReady ch queued).1, (r.flushReady ch queued).2.getD [])
  | .takeNewTurn ch => ((r.takeNewTurn ch).1, [])
  | .close ch => (r.close ch, [])
  | .play e => (r, r.play e)
  | .reviewLine ch => (r, r.reviewLine ch)
  | .setMuteLevel level => r.setMuteLevel level
  | .setWholeMessages on => (r.setWholeMessages on, [])
  | .setSettings settings => ({ r with settings := settings }, [])
  | .bindQuestion ch entry stored => (r.bindQuestion ch entry stored, [])
  | .questionShown ch shown => ((r.questionShown s ch shown).1, [])
  | .navigate ch step started => ((r.navigate ch step started).1, [])
  | .questionsUnheard ch => (r.questionsUnheard ch, [])
  | .rewindQuestions ch => ((r.rewindQuestions ch).1, [])

/-! ## What a call's actions ask for -/

/-- The decision an action voices: spoken or stored. -/
def Action.voices : Action → Option (ChannelId × Nat)
  | .speak ch _ (some d) _ _ => some (ch, d)
  | .store ch _ (some d) _ => some (ch, d)
  | _ => none

def Action.timer? : Action → Option Timer
  | .timer _ t => some t
  | _ => none

def Action.job? : Action → Option Job
  | .summarize job => some job
  | _ => none

/-- The decisions voiced, with their channels, in order. -/
def voiced (out : List Action) : List (ChannelId × Nat) := out.filterMap Action.voices

/-- The timers asked for. -/
def asked (out : List Action) : List Timer := out.filterMap Action.timer?

/-- The summarizer's jobs that go out. -/
def dispatched (out : List Action) : List Job := out.filterMap Action.job?

@[simp] theorem voiced_nil : voiced [] = [] := rfl

@[simp] theorem voiced_append (out o : List Action) : voiced (out ++ o) = voiced out ++ voiced o :=
  List.filterMap_append

@[simp] theorem asked_append (out o : List Action) : asked (out ++ o) = asked out ++ asked o :=
  List.filterMap_append

@[simp] theorem dispatched_append (out o : List Action) :
    dispatched (out ++ o) = dispatched out ++ dispatched o :=
  List.filterMap_append

/-! ## Runs -/

/-- The rules, the timers that did not fire yet and the jobs not answered yet. -/
structure World where
  rules : Rules
  timers : List Timer := []
  jobs : List Job := []

/-- What happens next: a call, a timer fires (the channel the user works in given), or
the summarizer answers a job. -/
inductive Input where
  | call (c : Call)
  | fire (k : Nat) (focused : Option ChannelId)
  | answer (k : Nat) (summary : Option Text)

namespace World

variable (s : Speech) (w : World)

/-- What the actions `out` ask for is waited for. -/
def took (p : Rules × List Action) : World × List Action :=
  ({ rules := p.1, timers := w.timers ++ asked p.2, jobs := w.jobs ++ dispatched p.2 }, p.2)

/-- One input; a timer or a job that does not exist changes nothing. -/
def step : Input → World × List Action
  | .call c => w.took (w.rules.call s c)
  | .fire k focused =>
    match w.timers[k]? with
    | some t => { w with timers := w.timers.eraseIdx k }.took (w.rules.fire s t focused)
    | none => (w, [])
  | .answer k summary =>
    match w.jobs[k]? with
    | some job => { w with jobs := w.jobs.eraseIdx k }.took (w.rules.digestDone s job summary)
    | none => (w, [])

end World

/-- Every interleaving of calls, timers and answers, from fresh rules. -/
def machine (s : Speech) (settings : Settings) : Lib.Machine World Input Action where
  init := { rules := { settings := settings } }
  step w i := w.step s i

end Sonara.L3
