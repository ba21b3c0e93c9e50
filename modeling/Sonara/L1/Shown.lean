import Sonara.L1.Reader

/-!
# The state events of a call

`finish` is the only place that emits a state, so a call emits at most one, as its last
effect: the state it then shows, numbered one up. Between two calls `shown` is therefore
what the last state event said.
-/

namespace Sonara.L1

open Sonara (Text)

/-- The states among the effects, in order. -/
def states (fx : List Effect) : List State :=
  fx.filterMap fun
    | .emit (.state s) => some s
    | _ => none

theorem states_append (fx fx' : List Effect) : states (fx ++ fx') = states fx ++ states fx' :=
  List.filterMap_append

namespace Call

/-- What observers know of a call in progress: the state shown, and the states emitted. -/
def shows (c : Call) : State × List State := (c.r.shown, states c.fx)

theorem shows_push (c : Call) {e : Effect} (he : states [e] = []) : (c.push e).shows = c.shows := by
  unfold shows push
  rw [states_append, he, List.append_nil]

@[simp] theorem shows_emitItem (c : Call) (id : ItemId) (phase : ItemPhase) :
    (c.emitItem id phase).shows = c.shows :=
  c.shows_push rfl

@[simp] theorem shows_request (c : Call) (item : ItemId) (chunk : Nat) (text : Text) :
    (c.request item chunk text).shows = c.shows := by
  unfold request
  split
  · rfl
  · exact shows_push { c with r := { c.r with requested := _ } } rfl

@[simp] theorem shows_prefetch (c : Call) : c.prefetch.shows = c.shows := by
  unfold prefetch
  split
  · generalize List.take _ _ = l
    clear * -
    induction l generalizing c with
    | nil => rfl
    | cons x l ih =>
      rw [List.foldl_cons, ih]
      exact c.shows_request ..
  · rfl

/-- Beginning a chunk shows no state. -/
@[simp] theorem shows_beginChunk (c : Call) : c.beginChunk.shows = c.shows := by
  unfold beginChunk
  split
  · rfl
  next cur _ =>
    have hr := c.shows_request cur.item.id cur.chunk (cur.item.chunkAt cur.chunk)
    dsimp only
    split
    · exact hr
    · refine Eq.trans ?_ hr
      unfold shows
      rw [states_append]
      exact congrArg _ (List.append_nil _)

@[simp] theorem shows_stopOutput (c : Call) : c.stopOutput.shows = c.shows := by
  unfold stopOutput
  split
  · exact shows_push { c with r := { c.r with loaded := none } } rfl
  · rfl

@[simp] theorem shows_forget (c : Call) (id : ItemId) (phase : ItemPhase) :
    (c.forget id phase).shows = c.shows :=
  shows_emitItem _ id phase

@[simp] theorem shows_endCurrent (c : Call) (phase : ItemPhase) :
    (c.endCurrent phase).shows = c.shows := by
  unfold endCurrent
  have hs := c.shows_stopOutput
  dsimp only
  split
  · exact hs
  next cur _ =>
    refine Eq.trans ?_ hs
    exact shows_forget { c.stopOutput with r := { c.stopOutput.r with current := none } } _ phase

theorem shows_dropAll (l : List Item) (c : Call) : (dropAll l c).shows = c.shows := by
  induction l generalizing c with
  | nil => rfl
  | cons it rest ih => exact (ih _).trans (shows_forget _ it.id .skipped)

@[simp] theorem shows_dropQueue (c : Call) : c.dropQueue.shows = c.shows := shows_dropAll _ c

@[simp] theorem shows_endWait (c : Call) : c.endWait.shows = c.shows := by
  unfold endWait
  split <;> rfl

@[simp] theorem shows_releaseCode (c : Call) : c.releaseCode.shows = c.shows := by
  unfold releaseCode
  split <;> rfl

@[simp] theorem shows_startNext (c : Call) : c.startNext.shows = c.shows := by
  unfold startNext
  have hw := c.shows_endWait
  dsimp only
  split
  next item rest _ =>
    rw [shows_beginChunk]
    refine Eq.trans ?_ hw
    exact shows_emitItem
      { c.endWait with r := { c.endWait.r with queue := rest, released := false } } item.id .started
  · exact hw

@[simp] theorem shows_pause (c : Call) : c.pause.shows = c.shows := by
  unfold pause
  dsimp only
  split
  · rfl
  · split
    · exact shows_push _ rfl
    · rfl

@[simp] theorem shows_resume (c : Call) : c.resume.shows = c.shows := by
  unfold resume
  dsimp only
  split
  · exact shows_push _ rfl
  · exact shows_beginChunk _

@[simp] theorem shows_stop (c : Call) : c.stop.shows = c.shows := by
  unfold stop
  dsimp only
  split
  · rfl
  · refine (shows_dropQueue _).trans ?_
    split
    · exact shows_endCurrent _ _
    · rfl

@[simp] theorem shows_skip (c : Call) : c.skip.shows = c.shows := by
  unfold skip
  rw [shows_startNext, shows_endCurrent]

@[simp] theorem shows_unrelease (c : Call) (k : CodeSpeech.CodeKind) :
    (c.unrelease k).shows = c.shows := by
  unfold unrelease
  split <;> rfl

@[simp] theorem shows_moveTo (c : Call) (dest : Nat) : (c.moveTo dest).shows = c.shows := by
  unfold moveTo
  dsimp only
  rw [shows_beginChunk, shows_unrelease]
  exact (shows_stopOutput _).trans c.shows_endWait

@[simp] theorem shows_waitStep (c : Call) (b : Bool) : (c.waitStep b).shows = c.shows := by
  unfold waitStep
  split <;> rfl

@[simp] theorem shows_advance (c : Call) : c.advance.shows = c.shows := by
  unfold advance
  split
  · rfl
  · split
    · dsimp only
      rw [shows_beginChunk, shows_waitStep, shows_unrelease]
      rfl
    · rw [shows_startNext, shows_endCurrent]

@[simp] theorem shows_lineStep (c : Call) (next : Bool) : (c.lineStep next).shows = c.shows := by
  unfold lineStep
  split
  · rfl
  · split
    · rfl
    · dsimp only
      split
      · exact shows_skip _
      · exact shows_moveTo _ _

@[simp] theorem shows_restart (c : Call) : c.restart.shows = c.shows := by
  unfold restart
  split
  · exact shows_moveTo _ _
  · split
    · rfl
    · exact shows_startNext _

@[simp] theorem shows_play (c : Call) : c.play.shows = c.shows := by
  unfold play
  rw [shows_resume, shows_releaseCode]

theorem shows_ite {p : Prop} [Decidable p] {c d e : Call} (hd : d.shows = c.shows)
    (he : e.shows = c.shows) : (if p then d else e).shows = c.shows := by
  split
  · exact hd
  · exact he

/-- No control shows a state: only the end of the call does. -/
theorem shows_control (c : Call) (k : Control) : (c.control k).shows = c.shows := by
  cases k with
  | play => exact shows_ite c.shows_play rfl
  | toggle => exact shows_ite c.shows_play c.shows_pause
  | stop => exact c.shows_stop
  | pause => exact c.shows_pause
  | skip => exact shows_ite c.shows_skip rfl
  | restart => exact c.shows_restart
  | nextLine => exact c.shows_lineStep true
  | previousLine => exact c.shows_lineStep false
  | previous =>
    show c.previous.shows = c.shows
    unfold Call.previous
    split
    · rfl
    · exact c.shows_moveTo _
  | next =>
    show c.next.shows = c.shows
    unfold Call.next
    split
    · rfl
    · exact shows_ite (c.shows_moveTo _) c.shows_skip
  | mute => exact shows_ite (shows_push { c with r := { c.r with muted := true } } rfl) rfl
  | unmute => exact shows_ite (shows_push { c with r := { c.r with muted := false } } rfl) rfl

theorem shows_enqueue (c : Call) (item : Item) (interrupt : Bool) :
    (c.enqueue item interrupt).shows = c.shows := by
  unfold enqueue
  split
  · rw [shows_startNext]
    exact shows_endCurrent c .skipped
  · dsimp only
    split
    · exact shows_startNext _
    · rfl

/-- What a call did to what is shown: nothing, or one more state, numbered one up. -/
def Tells (s : State) (c : Call) : Prop :=
  c.shows = (s, []) ∨ ∃ s', c.shows = (s', [s']) ∧ s'.seq = s.seq + 1

theorem finish_tells {c : Call} {s : State} (h : c.shows = (s, [])) : Tells s c.finish := by
  have hp := c.shows_prefetch.trans h
  unfold finish
  dsimp only
  split
  · right
    refine ⟨_, Prod.ext rfl ?_, congrArg (·.seq + 1) (congrArg Prod.fst hp)⟩
    show states (_ ++ [_]) = _
    rw [states_append, show states c.prefetch.fx = [] from congrArg Prod.snd hp]
    rfl
  · exact .inl hp

end Call

open Call

/-- **What a call tells.** Nothing and the state shown stays, or the state it then shows,
numbered one up. -/
theorem call_tells (split : Chunking → Text → List Text) (r : Reader) (i : Input) :
    Tells r.shown (r.call split i) := by
  have plain : ∀ {r' : Reader}, r'.shown = r.shown → Call.shows ⟨r', []⟩ = (r.shown, []) :=
    fun h => Prod.ext h rfl
  cases i with
  | speak text mode interrupt label =>
    unfold Reader.call Reader.speak
    dsimp only
    split
    · exact .inl ((shows_emitItem _ _ _).trans (plain rfl))
    · refine finish_tells ((shows_enqueue _ _ _).trans ?_)
      split
      · exact (shows_dropQueue _).trans (plain rfl)
      · exact plain rfl
  | control k => exact finish_tells ((shows_control _ k).trans (plain rfl))
  | onAudio e =>
    show Tells r.shown (r.onAudio e)
    unfold Reader.onAudio
    split
    · exact .inl (plain rfl)
    · cases e with
      | chunkStarted gen => exact finish_tells (plain rfl)
      | chunkFinished gen => exact finish_tells ((shows_advance _).trans (plain rfl))
      | failed gen message => exact finish_tells ((shows_advance _).trans (plain rfl))
  | setVolume v =>
    refine finish_tells ?_
    split
    · exact (shows_push _ rfl).trans (plain rfl)
    · exact plain rfl
  | setRate v => exact finish_tells (plain rfl)
  | setVoice v => exact finish_tells (plain rfl)
  | setLookahead n => exact finish_tells (plain rfl)
  | setChunking k => exact finish_tells (plain rfl)
  | setCodeStep on =>
    refine finish_tells ?_
    split
    · exact (shows_resume _).trans (plain rfl)
    · exact plain rfl

end Sonara.L1
