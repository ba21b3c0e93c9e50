import Sonara.L3.Chains
import Sonara.L3.Run

/-!
# Who changes the settings

Only `set_mute_level`, `set_whole_messages` and new settings do: every other input keeps
them (`step_config`).
-/

namespace Sonara.L3

open Sonara Text
open Sonara.L2 (ChannelId)
open Sonara.Prose (Speech)

namespace Rules

variable {r r' r'' : Rules} {s : Speech} {ch : ChannelId}

/-- The settings and the send mode are the same. -/
structure SameConfig (r r' : Rules) : Prop where
  settings : r'.settings = r.settings
  whole : r'.whole = r.whole

theorem SameConfig.refl (r : Rules) : SameConfig r r := ⟨rfl, rfl⟩

theorem SameConfig.trans (h : SameConfig r r') (h' : SameConfig r' r'') : SameConfig r r'' :=
  ⟨h'.settings.trans h.settings, h'.whole.trans h.whole⟩

theorem chained_config : Chained fun r r' _ => SameConfig r r' := ⟨.refl, .trans⟩

theorem SameConfig.summaries (h : SameConfig r r') : r'.summaries = r.summaries := by
  unfold Rules.summaries
  rw [h.settings]

/-! ## Prose -/

theorem touch_config (ch : ChannelId) : SameConfig r (r.touch ch) := by
  unfold touch
  split <;> exact ⟨rfl, rfl⟩

theorem set_config (ch : ChannelId) (c : Turn) : SameConfig r (r.set ch c) := ⟨rfl, rfl⟩

theorem touchSet_config (ch : ChannelId) (c : Turn) : SameConfig r ((r.touch ch).set ch c) :=
  (touch_config ch).trans (set_config ch c)

theorem modify_config (ch : ChannelId) (f : Turn → Turn) : SameConfig r (r.modify ch f) :=
  touchSet_config ch _

theorem gen_config : SameConfig r r.gen.1 := ⟨rfl, rfl⟩

theorem SameConfig.set (h : SameConfig r r') (ch : ChannelId) (c : Turn) :
    SameConfig r (r'.set ch c) :=
  h.trans (set_config ch c)

theorem SameConfig.modify (h : SameConfig r r') (ch : ChannelId) (f : Turn → Turn) :
    SameConfig r (r'.modify ch f) :=
  h.trans (modify_config ch f)

theorem dropHeld_config (ch : ChannelId) : SameConfig r (r.dropHeld ch).1 := touchSet_config ch _

theorem holdKept_config (ch : ChannelId) : SameConfig r (r.holdKept ch).1 := touchSet_config ch _

theorem flushProseUpto_config (ch : ChannelId) (n : Nat) : SameConfig r (r.flushProseUpto ch n).1 :=
  touchSet_config ch _

theorem flushProse_config (ch : ChannelId) : SameConfig r (r.flushProse ch).1 :=
  (touch_config ch).trans (flushProseUpto_config ch _)

theorem armSettle_config (ch : ChannelId) : SameConfig r (r.armSettle ch).1 := by
  unfold armSettle
  dsimp only
  exact gen_config.modify ch _

theorem holdTexts_config (texts : List (Text × Bool)) (breaks : Option Nat) :
    SameConfig r (r.holdTexts ch texts breaks).1 :=
  chained_config.holdTexts texts breaks (set_config ch _) (fun _ => flushProse_config ch)
    fun _ n => flushProseUpto_config ch n

theorem assemble_config (ds : List Delta) : SameConfig r (r.assemble s ch ds).1 :=
  chained_config.assemble ds (fun _ => touchSet_config ch _) (fun _ => armSettle_config ch)
    fun texts breaks _ => holdTexts_config texts breaks

theorem releaseGap_config : SameConfig r (r.releaseGap s ch).1 :=
  (touchSet_config ch _).trans (assemble_config _)

theorem acceptDelta_config (d : Delta) : SameConfig r (r.acceptDelta s ch d).1 := by
  unfold acceptDelta
  dsimp only
  split
  · exact ((touch_config ch).trans (gen_config.set ch _)).trans (assemble_config _)
  · exact (touchSet_config ch _).trans (assemble_config _)

theorem streamDelta_config (d : Delta) : SameConfig r (r.streamDelta s ch d).1 :=
  chained_config.streamDelta d (modify_config ch _) (fun _ => set_config ch _)
    (fun _ _ => set_config ch _) (fun _ => releaseGap_config) fun _ => acceptDelta_config d

/-- A message that a stale stamp rejects changes nothing. -/
theorem getD_config {o : Option (Rules × List Action)} (h : ∀ p, o = some p → SameConfig r p.1) :
    SameConfig r (o.getD (r, [])).1 := by
  cases o with
  | none => exact .refl r
  | some p => exact h p rfl

theorem stream_config {turn : Option String} {delta : Text} {index : Nat} {fin : Bool}
    {t : Option Rat} {p : Rules × List Action} (h : r.stream s ch turn delta index fin t = some p) :
    SameConfig r p.1 :=
  Chained.stream (P := fun r r' _ => SameConfig r r') (streamDelta_config _) h

/-! ## Decisions and lead-ins -/

theorem enqueueOrHold_config (d : Decision) (digesting : Bool) :
    SameConfig r (r.enqueueOrHold ch d digesting).1 := by
  unfold enqueueOrHold
  dsimp only
  split
  · exact touchSet_config ch _
  · exact (touch_config ch).trans (flushProse_config ch)

theorem enqueueAll_config (digesting : Bool) (ds : List Decision) :
    SameConfig r (enqueueAll ch digesting ds r).1 := by
  induction ds generalizing r with
  | nil => exact .refl r
  | cons d ds ih => exact (enqueueOrHold_config d digesting).trans ih

theorem releaseLeadInWait_config : SameConfig r (r.releaseLeadInWait ch).1 := by
  unfold releaseLeadInWait
  dsimp only
  split
  · exact (modify_config ch _).trans (armSettle_config ch)
  · exact ((modify_config ch _).set ch _).trans (enqueueAll_config false _)

theorem waitLeadIn_config (a : Ask) : SameConfig r (r.waitLeadIn ch a).1 := by
  unfold waitLeadIn
  dsimp only
  split
  · exact touch_config ch
  · dsimp only
    exact (touch_config ch).trans (gen_config.modify ch _)

theorem streamLeadIn_config {turn : Option String} {delta : Text} {t : Option Rat}
    {p : Rules × List Action} (h : r.streamLeadIn s ch turn delta t = some p) :
    SameConfig r p.1 :=
  chained_config.streamLeadIn (dropHeld_config ch) (fun _ _ => touchSet_config ch _) stream_config
    (fun _ _ _ => modify_config ch _) h

/-- A lead-in leaves the settings. -/
theorem takeLeadIn_config {turn : Option String} {delta : Text} {id : Option String}
    {t : Option Rat} {p : Rules × List Action} (h : r.takeLeadIn s ch turn delta id t = some p) :
    SameConfig r p.1 :=
  chained_config.takeLeadIn streamLeadIn_config (fun _ => releaseLeadInWait_config) h

theorem dropBefore_config (kind : Kind) : SameConfig r (r.dropBefore ch kind) := by
  unfold dropBefore
  split
  · exact dropHeld_config ch
  · exact .refl r

theorem extras_config (a : Ask) : SameConfig r (r.extras ch a).1 := by
  unfold extras
  dsimp only
  split
  · exact .refl r
  · split
    · exact set_config ch _
    · exact .refl r

theorem accept_config (a : Ask) (item : Decision) : SameConfig r (r.accept ch a item).1 :=
  chained_config.accept a item (set_config ch _) (fun _ => waitLeadIn_config a)
    (fun _ => armSettle_config ch) (set_config ch _) (fun _ => enqueueOrHold_config item false)
    fun _ _ => modify_config ch _

theorem pose_config (a : Ask) {text : Text} (h : Spoken text) (kind : Kind) :
    SameConfig r (r.pose ch a text h kind).1 := by
  have hextras : SameConfig r ((r.dropBefore ch kind).extras ch a).1 :=
    (dropBefore_config kind).trans (extras_config a)
  have hacc : SameConfig { ((r.dropBefore ch kind).extras ch a).1 with
      nextDecision := ((r.dropBefore ch kind).extras ch a).1.nextDecision + 1 }
      (r.pose ch a text h kind).1 := accept_config a _
  exact ⟨hacc.settings.trans hextras.settings, hacc.whole.trans hextras.whole⟩

theorem keepLater_config {a : Ask} (h : r.keepLater ch a = some r') : SameConfig r r' :=
  Chained.keepLater (P := fun r r' _ => SameConfig r r') (fun _ => set_config ch _) h

theorem ask_config (a : Ask) : SameConfig r (r.ask s ch a).1 :=
  chained_config.ask a releaseGap_config keepLater_config (set_config ch _) (set_config ch _)
    SameConfig.refl fun h kind _ => pose_config a h kind

/-! ## Turns, tools, stop and flush -/

theorem takeReply_config : SameConfig r (r.takeReply s ch).1 :=
  chained_config.takeReply (touchSet_config ch _) (fun _ _ => (dropHeld_config ch).set ch _)
    (fun _ ds => assemble_config ds) fun _ => modify_config ch _

theorem turnStart_config {turn : Option String} {t : Option Rat} {p : Rules × List Action}
    (h : r.turnStart ch turn t = some p) : SameConfig r p.1 := by
  unfold turnStart at h
  split at h
  · cases h
  · obtain rfl := Option.some.inj h
    dsimp only
    exact (((gen_config.trans gen_config).modify ch _).trans (dropHeld_config ch)).modify ch _

/-- A turn's end leaves the settings. -/
theorem turnEnd_config {turn : Option String} {t : Option Rat} {p : Rules × List Action}
    (h : r.turnEnd s ch turn t = some p) : SameConfig r p.1 :=
  chained_config.turnEnd releaseGap_config (fun _ => takeReply_config) (fun _ => modify_config ch _)
    (fun _ => holdKept_config ch) (fun _ => flushProse_config ch) (fun _ => armSettle_config ch)
    (fun _ => .refl r) h

theorem tool_config (name summary : Text) : SameConfig r (r.tool s ch name summary).1 :=
  chained_config.tool name summary (modify_config ch _) (fun _ => modify_config ch _)
    (fun _ => releaseGap_config) (fun _ => flushProse_config ch) fun _ _ _ => .refl _

theorem catchUp_config : SameConfig r (r.catchUp ch).1 :=
  ((gen_config.trans gen_config).trans (dropHeld_config ch)).set ch _

theorem stopAll_config : SameConfig r r.stopAll :=
  chained_config.stopAll (fun _ ch => modify_config ch _) fun _ _ => catchUp_config

theorem flush_config : SameConfig r (r.flush ch).1 := by
  unfold flush
  split
  · exact (modify_config ch _).trans catchUp_config
  · exact .refl r

theorem flushReady_config (queued : Bool) : SameConfig r (r.flushReady ch queued).1 := by
  unfold flushReady
  split
  · exact .refl r
  · dsimp only
    split
    · dsimp only
      exact catchUp_config.modify ch _
    · exact catchUp_config

theorem takeNewTurn_config : SameConfig r (r.takeNewTurn ch).1 := by
  unfold takeNewTurn
  split
  · split
    · exact set_config ch _
    · exact .refl r
  · exact .refl r

theorem Steered.config (h : Steered r r') : SameConfig r r' := by
  induction h with
  | refl => exact .refl _
  | set _ _ _ _ _ ih => exact ih.trans (set_config _ _)

/-! ## Summaries and timers -/

theorem land_config (seq : Option Nat) (rel : Release) : SameConfig r (r.land s seq rel).1 := by
  unfold land
  cases seq <;> exact ⟨rfl, rfl⟩

theorem landShort_config (rel : Release) : SameConfig r (r.landShort s rel).1 := by
  have h := land_config (s := s) (r := { r with buffer := r.buffer.alloc.1 })
    (some r.buffer.alloc.2) rel
  exact ⟨h.settings, h.whole⟩

theorem dispatch_config (text : Text) (leadin : Bool) :
    SameConfig r (r.dispatch ch text leadin).1 := by
  unfold dispatch
  dsimp only
  split <;> exact ⟨rfl, rfl⟩

/-- A recap leaves the settings. -/
theorem maybeSummarize_config (leadin : Bool) (focused : Option ChannelId) :
    SameConfig r (r.maybeSummarize s ch leadin focused).1 :=
  chained_config.maybeSummarize leadin focused (holdKept_config ch) (fun _ => flushProse_config ch)
    (touch_config ch) (touchSet_config ch _) (fun _ _ => .refl _) (fun _ _ => landShort_config _)
    fun text _ => dispatch_config text leadin

/-- A timer leaves the settings. -/
theorem fire_config (timer : Timer) (focused : Option ChannelId) :
    SameConfig r (r.fire s timer focused).1 := by
  unfold fire
  cases timer with
  | settle ch gen =>
    dsimp only
    split
    · unfold settled
      dsimp only
      split
      · exact set_config ch _
      · exact (((set_config ch _).set ch _).trans (maybeSummarize_config _ _)).trans
          (enqueueAll_config _ _)
    · exact .refl r
  | holdCap ch decision =>
    dsimp only
    unfold capped
    split
    · split
      · split
        · exact set_config ch _
        · exact .refl r
      · exact .refl r
    · exact .refl r
  | watchdog seq => exact ⟨rfl, rfl⟩
  | leadIn ch gen =>
    dsimp only
    split
    · exact releaseLeadInWait_config
    · exact .refl r
  | gap ch gen =>
    dsimp only
    split
    · exact releaseGap_config
    · exact .refl r

theorem digestDone_config (job : Job) (summary : Option Text) :
    SameConfig r (r.digestDone s job summary).1 := by
  unfold digestDone
  dsimp only
  refine SameConfig.trans ?_ (land_config _ _)
  unfold settleJob
  split <;> exact ⟨rfl, rfl⟩

end Rules

/-! ## Inputs -/

/-- The call changes the settings or the send mode. -/
def Call.Configures : Call → Prop
  | .setMuteLevel _ | .setWholeMessages _ | .setSettings _ => True
  | _ => False

/-- Only a configuring call changes the settings. -/
theorem Rules.call_config {s : Speech} {r : Rules} (c : Call) (h : ¬c.Configures) :
    SameConfig r (r.call s c).1 := by
  cases c with
  | stream ch turn delta index fin t => exact getD_config fun p h => stream_config h
  | leadIn ch turn delta t => exact getD_config fun p h => takeLeadIn_config h
  | lateLeadIn ch turn delta id t => exact getD_config fun p h => takeLeadIn_config h
  | reply ch turn text before t =>
    show SameConfig r ((r.reply ch turn text before t).getD r)
    unfold reply
    split
    · exact .refl r
    · rw [Option.getD_some]
      exact modify_config ch _
  | turnStart ch turn t => exact getD_config fun p h => turnStart_config h
  | turnEnd ch turn t => exact getD_config fun p h => turnEnd_config h
  | ask ch a => exact ask_config a
  | tool ch name summary => exact tool_config name summary
  | answered ch => exact (modify_config ch _).trans catchUp_config
  | stopAll => exact stopAll_config
  | flush ch => exact flush_config
  | flushReady ch queued => exact flushReady_config queued
  | takeNewTurn ch => exact takeNewTurn_config
  | close ch => exact ⟨rfl, rfl⟩
  | play e => exact .refl r
  | reviewLine ch => exact .refl r
  | setMuteLevel level => exact absurd trivial h
  | setWholeMessages on => exact absurd trivial h
  | setSettings settings => exact absurd trivial h
  | bindQuestion ch entry stored => exact (bindQuestion_steered entry stored).config
  | questionShown ch shown => exact (questionShown_steered s shown).config
  | navigate ch step started => exact (navigate_steered step started).config
  | questionsUnheard ch => exact questionsUnheard_steered.config
  | rewindQuestions ch => exact rewindQuestions_steered.config

/-- **Only a configuring call changes the settings.** -/
theorem World.step_config (s : Speech) (w : World) (i : Input)
    (h : ∀ c, i = .call c → ¬c.Configures) : Rules.SameConfig w.rules (w.step s i).1.rules := by
  cases i with
  | call c => exact Rules.call_config c (h c rfl)
  | fire k focused =>
    unfold step
    dsimp only
    split
    · exact Rules.fire_config _ focused
    · exact .refl _
  | answer k summary =>
    unfold step
    dsimp only
    split
    · exact Rules.digestDone_config _ summary
    · exact .refl _

end Sonara.L3
