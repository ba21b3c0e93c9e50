import Sonara.L3.Paths

/-!
# Lead-ins, turns, flushes and summaries as paths of moves

The methods that `Paths` leaves out, and at the end all of them together:
`World.step_moves` says that every input of a run is a path of moves under the
licence that the input has.
-/

namespace Sonara.L3

open Sonara Text
open Sonara.L2 (ChannelId)
open Sonara.Prose (Speech)

variable {L : Licence} {ch : ChannelId} {out o : List Action} {w w' : Waiting}

namespace Rules

variable {r r' r'' : Rules} {s : Speech}

/-! ## Lead-ins and replies -/

/-- Writing a turn that waits as before arms nothing. -/
theorem modify_arms {f : Turn → Turn} (h : ∀ c, (f c).waiting = c.waiting) :
    Arms ch r (r.modify ch f) [] :=
  (modify_calm h).arms ch

/-- A streamed lead-in arms at most the settle window. -/
theorem streamLeadIn_arms {turn : Option String} {delta : Text} {t : Option Rat}
    {p : Rules × List Action} (h : r.streamLeadIn s ch turn delta t = some p) :
    Arms ch r p.1 p.2 :=
  (chained_arms ch).streamLeadIn ((dropHeld_calm ch).arms ch)
    (fun _ _ => ((touch_calm ch).andThen (set_calm (by rfl) .nil)).arms ch) stream_arms
    (fun _ _ _ => modify_arms fun _ => rfl) h

/-- A lead-in is a path of moves: it is read, then the question that waits for it goes. -/
theorem takeLeadIn_moves {turn : Option String} {delta : Text} {id : Option String}
    {t : Option Rat} {p : Rules × List Action} (h : r.takeLeadIn s ch turn delta id t = some p) :
    Moves L r p.1 p.2 :=
  Chained.takeLeadIn ⟨.refl, Lib.Path.trans⟩ (fun h => (streamLeadIn_arms h).moves)
    (fun _ => .single (releaseLeadInWait_move ch).1) h

/-- Taking a reply arms at most the settle window. -/
theorem takeReply_arms (s : Speech) (ch : ChannelId) :
    Arms ch r (r.takeReply s ch).1 (r.takeReply s ch).2 :=
  (chained_arms ch).takeReply (((touch_calm ch).andThen (set_calm (by rfl) .nil)).arms ch)
    (fun _ _ => ((dropHeld_calm ch).andThen (set_calm (by rfl) .nil)).arms ch)
    (fun _ ds => assemble_arms s ch ds) fun _ => modify_arms fun _ => rfl

theorem reply_calm {turn : Option String} {text : Text} {before : Option Text} {t : Option Rat}
    (h : r.reply ch turn text before t = some r') : Calm r r' [] := by
  unfold reply at h
  dsimp only at h
  split at h
  · cases h
  · cases h
    exact modify_calm fun c => rfl

/-! ## Turns -/

theorem renew_waiting (turn : Option String) (t : Option Rat) (c : Turn) :
    (renew turn t c).waiting = c.waiting := by
  have hretire : ∀ c, (retire c turn).waiting = c.waiting := by
    intro c
    unfold retire
    dsimp only
    split
    · split <;> rfl
    · rfl
  exact hretire { c with assembler := {}, t := t <|> c.t }

/-- A channel's wait is dropped. -/
theorem Writes.dropped (h : Writes ch {} r r') (hd : L.drops ch) (hv : voiced out = [])
    (ho : NoJob out) : Move L r r' out :=
  h.move (.dropped hd hv) ho

theorem turnStart_moves {turn : Option String} {t : Option Rat} {p : Rules × List Action}
    (h : r.turnStart ch turn t = some p) (hd : L.drops ch) : Moves L r p.1 p.2 := by
  unfold turnStart at h
  dsimp only at h
  split at h
  · cases h
  · cases h
    have hgen : Calm r r.gen.1.gen.1 [] := gen_calm.andThen gen_calm
    have hrenew : Calm r.gen.1.gen.1 (r.gen.1.gen.1.modify ch (renew turn t)) [] :=
      modify_calm fun c => renew_waiting turn t c
    have hcalm := (hgen.andThen hrenew).andThen (dropHeld_calm ch)
    refine hcalm.moves.afterSilent (.single ?_)
    have hw := modify_writes (r := ((r.gen.1.gen.1.modify ch (renew turn t)).dropHeld ch).1) ch
      fun c => (emptied c).cancel r.gen.2 r.gen.1.gen.2
    exact Writes.dropped hw hd rfl ⟨rfl, fun seq hm => List.not_mem_nil hm⟩

/-- A turn's end arms at most the settle window. -/
theorem turnEnd_arms {turn : Option String} {t : Option Rat} {p : Rules × List Action}
    (h : r.turnEnd s ch turn t = some p) : Arms ch r p.1 p.2 :=
  (chained_arms ch).turnEnd (releaseGap_arms s ch) (fun _ => takeReply_arms s ch)
    (fun _ => modify_arms fun _ => rfl) (fun _ => (holdKept_calm ch).arms ch)
    (fun _ => (flushProse_calm ch).arms ch) (fun _ => armSettle_arms ch)
    (fun _ => (Calm.emit (earcon_plain .turnDone)).arms ch) h

theorem takeNewTurn_calm : Calm r (r.takeNewTurn ch).1 [] := by
  unfold takeNewTurn
  split
  next c hc =>
    split
    · refine set_calm ?_ .nil
      unfold waiting get
      rw [hc]
      rfl
    · exact .refl r
  · exact .refl r

/-! ## Answers, stop, flush and close -/

theorem resolve_calm (ch : ChannelId) : Calm r (r.resolve ch) [] := modify_calm fun _ => rfl

/-- A tool call arms at most the settle window. -/
theorem tool_arms (s : Speech) (ch : ChannelId) (name summary : Text) :
    Arms ch r (r.tool s ch name summary).1 (r.tool s ch name summary).2 :=
  (chained_arms ch).tool name summary ((resolve_calm ch).arms ch)
    (fun _ => modify_arms fun _ => rfl) (fun _ => releaseGap_arms s ch)
    (fun _ => (flushProse_calm ch).arms ch)
    fun _ _ text => (Calm.emit (speak_plain ch text .tool)).arms ch

/-- Catching up leaves nothing that waits, and hands out what waited. -/
theorem catchUp_writes (ch : ChannelId) : Writes ch {} r (r.catchUp ch).1 ∧
    (r.catchUp ch).2.1 = (r.waiting ch).pending ++ (r.waiting ch).held := by
  have hdrop : Calm r (r.gen.1.gen.1.dropHeld ch).1 [] :=
    (gen_calm.andThen gen_calm).andThen (dropHeld_calm ch)
  constructor
  · refine (hdrop.writes ch).trans ?_
    exact set_writes ch ({ (r.gen.1.gen.1.dropHeld ch).1.get ch with
      voiced := ((r.gen.1.gen.1.dropHeld ch).1.get ch).prose.length }.cancel r.gen.2 r.gen.1.gen.2)
  · rw [← hdrop.waiting ch]
    rfl

/-- What was handed out is nothing, unless the catch-up found something. -/
theorem catchUp_none (ch : ChannelId) (h : (r.catchUp ch).2.2 = false) :
    (r.catchUp ch).2.1 = [] := by
  unfold catchUp at h ⊢
  dsimp only at h ⊢
  have hnone := (Bool.or_eq_false_iff.mp h).2
  simpa using hnone

theorem answered_moves (ch : ChannelId) (hd : L.drops ch) :
    Moves L r (r.answered ch).1 (r.answered ch).2 :=
  (resolve_calm ch).moves.afterSilent
    (.single ((catchUp_writes ch).1.dropped hd rfl ⟨rfl, fun _ h => List.not_mem_nil h⟩))

theorem stopAll_moves (hd : ∀ ch, L.drops ch) : Moves L r r.stopAll [] := by
  have hone : ∀ (r : Rules) (ch : ChannelId), Moves L r
      ((r.modify ch fun c => { c with awaiting := false }).catchUp ch).1 [] := by
    intro r ch
    have hmark : Calm r (r.modify ch fun c => { c with awaiting := false }) [] :=
      modify_calm fun c => rfl
    exact hmark.moves.afterSilent
      (.single ((catchUp_writes ch).1.dropped (hd ch) rfl Plain.nil.noJob))
  unfold stopAll
  generalize r.channels = chs
  induction chs generalizing r with
  | nil => exact .refl r
  | cons ch chs ih => exact (hone r ch).afterSilent ih

/-- A flush of the channel speaks its decisions in order: not both lists hold one. -/
def FlushesOne (r : Rules) (ch : ChannelId) : Prop :=
  (r.waiting ch).pending = [] ∨ (r.waiting ch).held = []

theorem catchUp_flushed (r₀ : Rules) (ch : ChannelId) (hok : L.orderly → r.FlushesOne ch) :
    Move L r (r.catchUp ch).1 (r₀.release ch (r.catchUp ch).2.1) := by
  obtain ⟨hw, hds⟩ := catchUp_writes (r := r) ch
  obtain ⟨hv, hj⟩ := speakDecisions_voices (r := r₀) ch (r.catchUp ch).2.1
  refine hw.move (.flushed ?_ hok) hj
  rw [← hds]
  exact hv

theorem flush_moves (ch : ChannelId) (hok : L.orderly → r.FlushesOne ch) :
    Moves L r (r.flush ch).1 (r.flush ch).2 := by
  unfold flush
  dsimp only
  split
  · have hskip : Calm r (r.modify ch fun c => { c with skipReply := true }) [] :=
      modify_calm fun c => rfl
    refine hskip.moves.afterSilent (.single (catchUp_flushed _ ch fun ho => ?_))
    have hone := hok ho
    unfold FlushesOne at hone ⊢
    rwa [hskip.waiting ch]
  · exact .refl r

theorem flushReady_moves (ch : ChannelId) (queued : Bool) (hok : L.orderly → r.FlushesOne ch) :
    Moves L r (r.flushReady ch queued).1 ((r.flushReady ch queued).2.getD []) := by
  unfold flushReady
  dsimp only
  split
  · exact .refl r
  · split
    · have hskip : ∀ r : Rules, Calm r (r.modify ch fun c => { c with skipReply := true }) [] :=
        fun r => modify_calm fun c => rfl
      exact Lib.Path.thenSilent (.single (catchUp_flushed _ ch hok)) (hskip _).moves
    next hnone =>
      rw [Bool.or_eq_true, not_or] at hnone
      have hflush := catchUp_flushed r ch hok
      rw [catchUp_none ch (Bool.eq_false_iff.mpr hnone.1)] at hflush
      exact .single hflush

theorem close_moves (ch : ChannelId) (hd : L.drops ch) : Moves L r (r.close ch) [] := by
  refine .single (Writes.dropped ⟨fun a ha => ?_, ?_, rfl, rfl, rfl⟩ hd rfl Plain.nil.noJob)
  · unfold waiting get close
    rw [Std.ExtTreeMap.getElem?_erase]
    simp [Ne.symm ha]
  · unfold waiting get close
    rw [Std.ExtTreeMap.getElem?_erase]
    simp
    rfl

/-! ## Settings and the question navigation -/

/-- A move that leaves every wait and the buffer as they are. -/
theorem still_move (hw : ∀ a, r'.waiting a = r.waiting a) (hb : r'.buffer = r.buffer)
    (hn : r'.nextDecision = r.nextDecision) (ho : Plain out) : Move L r r' out := by
  refine ⟨⟨"", fun a _ => hw a, ?_⟩, ?_⟩
  · rw [hw, hn]
    exact .calm ho.mute (.inl rfl)
  · rw [hb]
    exact .same ho.noJob

theorem Steered.calm (h : Steered r r') : Calm r r' [] := by
  induction h with
  | refl => exact .refl _
  | set h hc questions readSet hinted ih =>
    refine ih.andThen (set_calm ?_ .nil)
    unfold waiting get
    rw [hc]
    rfl

/-! ## Summaries -/

theorem apply_plain (s : Speech) (rel : Release) : Plain (r.apply s rel) := by
  unfold apply
  split
  · split
    · exact say_plain _ _ true .summary
    · split
      · exact .nil
      · split
        · exact earcon_plain .summaryFailed
        · exact say_plain _ _ true .prose
  · exact .nil

theorem applyAll_plain (s : Speech) (p : Lib.Reorder Release × List Release) :
    Plain (r.applyAll s p).2 :=
  .flatMap (fun rel => apply_plain s rel) p.2

/-- What lands in the buffer writes no wait. -/
theorem land_frame (s : Speech) (seq : Option Nat) (rel : Release) :
    (∀ a, (r.land s seq rel).1.waiting a = r.waiting a) ∧
      (r.land s seq rel).1.nextDecision = r.nextDecision ∧ Plain (r.land s seq rel).2 := by
  cases seq with
  | none => exact ⟨fun a => rfl, rfl, apply_plain s rel⟩
  | some seq => exact ⟨fun a => rfl, rfl, applyAll_plain s _⟩

/-- What a recap of the channel's prose does; the flag says that a job went out. -/
structure Recap (L : Licence) (ch : ChannelId) (r : Rules) (p : Rules × List Action × Bool) :
    Prop where
  others : ∀ a, a ≠ ch → p.1.waiting a = r.waiting a
  nextDecision : p.1.nextDecision = r.nextDecision
  mute : voiced p.2.1 = []
  slots : Slots L p.2.1 r.buffer p.1.buffer
  self : ∃ m, p.1.waiting ch = { r.waiting ch with inflight := m } ∧
    (r.waiting ch).inflight ≤ m ∧ (p.2.2 = true → 0 < m)

theorem Calm.recap (c : Calm r r' out) : Recap L ch r (r', out, false) where
  others a _ := c.waiting a
  nextDecision := c.nextDecision
  mute := c.plain.mute
  slots := c.buffer.symm ▸ .same c.plain.noJob
  self := ⟨(r.waiting ch).inflight, c.waiting ch, Nat.le_refl _, fun h => nomatch h⟩

theorem Recap.before {p : Rules × List Action × Bool} (c : Calm r r' []) (h : Recap L ch r' p) :
    Recap L ch r p where
  others a ha := (h.others a ha).trans (c.waiting a)
  nextDecision := h.nextDecision.trans c.nextDecision
  mute := h.mute
  slots := c.buffer ▸ h.slots
  self := c.waiting ch ▸ h.self

theorem sent_writes (ch : ChannelId) (token : Nat) :
    Writes ch { r.waiting ch with inflight := (r.waiting ch).inflight + 1 } r
      (({ r with nextToken := token } : Rules).set ch (sent (r.get ch) token)) := by
  have hw := set_writes (r := { r with nextToken := token }) ch (sent (r.get ch) token)
  exact ⟨hw.others, hw.self, rfl, rfl, rfl⟩

/-- A dispatch is a recap that sends a job. -/
theorem dispatch_recap (ch : ChannelId) (text : Text) (leadin : Bool) :
    Recap L ch r ((r.dispatch ch text leadin).1, (r.dispatch ch text leadin).2, true) := by
  have hw := sent_writes (r := r) ch (r.nextToken + 1)
  have hself : ∃ m, (({ r with nextToken := r.nextToken + 1 } : Rules).set ch
      (sent (r.get ch) (r.nextToken + 1))).waiting ch = { r.waiting ch with inflight := m } ∧
      (r.waiting ch).inflight ≤ m ∧ (true = true → 0 < m) :=
    ⟨_, hw.self, Nat.le_succ _, fun _ => Nat.succ_pos _⟩
  unfold dispatch
  dsimp only
  split
  · exact ⟨hw.others, rfl, rfl, .leadIn rfl rfl fun seq h => List.not_mem_nil h, hself⟩
  · refine ⟨hw.others, rfl, rfl, .turnEnd rfl rfl (fun seq => ?_) _, hself⟩
    constructor
    · intro h
      cases List.mem_singleton.mp h
      rfl
    · rintro rfl
      exact List.mem_singleton.mpr rfl

theorem landShort_recap (s : Speech) (ch : ChannelId) (rel : Release) :
    Recap L ch r ((r.landShort s rel).1, (r.landShort s rel).2, false) where
  others _ _ := rfl
  nextDecision := rfl
  mute := (applyAll_plain s _).mute
  slots := .short (applyAll_plain s _).noJob rel
  self := ⟨(r.waiting ch).inflight, rfl, Nat.le_refl _, fun h => nomatch h⟩

/-- A recap is one, whether or not a job goes out. -/
theorem maybeSummarize_recap (s : Speech) (ch : ChannelId) (leadin : Bool)
    (focused : Option ChannelId) : Recap L ch r (r.maybeSummarize s ch leadin focused) := by
  unfold maybeSummarize
  dsimp only
  split
  · have hkept := holdKept_calm (r := r) ch
    split
    · exact (hkept.andThen (flushProse_calm ch)).recap
    · exact hkept.recap
  · have htouch := touch_calm (r := r) ch
    generalize r.touch ch = r1 at htouch ⊢
    split
    · exact htouch.recap
    · -- Every way on, the prose kept so far counts as voiced.
      have hset : Calm r1 (r1.set ch { r1.get ch with voiced := (r1.get ch).prose.length }) [] :=
        set_calm rfl .nil
      have hcalm := htouch.andThen hset
      generalize r1.set ch { r1.get ch with voiced := (r1.get ch).prose.length } = r2 at hcalm ⊢
      have hraw : Calm r r2 (r2.speakChunks ch ((r1.get ch).prose.drop (r1.get ch).voiced)) :=
        hcalm.andThen (.emit (speakChunks_plain ch _))
      split
      · exact hraw.recap
      · split
        · split
          · exact hraw.recap
          · exact (landShort_recap s ch _).before hcalm
        · exact (dispatch_recap ch _ leadin).before hcalm

/-! ## Timers and answers -/

/-- Something that voices nothing is emitted before. -/
theorem Spill.prepend {ds : List Decision} (h : Spill ch out ds w w') (ho : voiced o = []) :
    Spill ch (o ++ out) ds w w' := by
  have hv : voiced (o ++ out) = voiced out := by
    rw [voiced_append, ho]
    rfl
  cases h with
  | held busy mute capped =>
    refine .held busy (hv.trans mute) fun d hd => ?_
    rw [asked_append]
    exact List.mem_append_right _ (capped d hd)
  | spoken free voiced => exact .spoken free (hv.trans voiced)

/-- The settle window elapsed: it is no longer armed. -/
theorem settled_move (s : Speech) (ch : ChannelId) (focused : Option ChannelId) :
    Move L r (r.settled s ch focused).1 (r.settled s ch focused).2 ∧
      ((r.settled s ch focused).1.waiting ch).settle = none := by
  have hoff := set_writes (r := r) ch { r.get ch with settleArmed := false }
  unfold settled
  dsimp only
  split
  next hlead =>
    refine ⟨hoff.move (.settleWaits ?_ rfl) Plain.nil.noJob, ?_⟩
    · show ((r.get ch).leadInWait.map LeadInWait.gen).isSome = true
      rw [Option.isSome_map]
      exact hlead
    · rw [hoff.self]
      rfl
  · have htaken := hoff.trans (set_writes ch { r.get ch with settleArmed := false, pending := [] })
    generalize (r.set ch { r.get ch with settleArmed := false }).set ch
      { r.get ch with settleArmed := false, pending := [] } = r1 at htaken ⊢
    have hself : r1.waiting ch = { r.waiting ch with settle := none, pending := [] } := htaken.self
    have hrecap := maybeSummarize_recap (L := L) (r := r1) s ch ((r.get ch).pending ≠ []) focused
    generalize r1.maybeSummarize s ch ((r.get ch).pending ≠ []) focused = m at hrecap ⊢
    obtain ⟨busy, hbusy, hle, hpos⟩ := hrecap.self
    -- The recap's job, if one went out, is what the decisions are held behind.
    have hspill := enqueueAll_spilled (r := m.1) ch m.2.2 (r.get ch).pending
      (fun h => hbusy ▸ hpos h)
    have hs := hspill.spill
    rw [hbusy, hself] at hs
    rw [hself] at hle
    refine ⟨⟨⟨ch, fun a ha => ?_, ?_⟩, ?_⟩, hs.frame.1⟩
    · rw [hspill.others a ha, hrecap.others a ha, htaken.others a ha]
    · rw [hspill.nextDecision, hrecap.nextDecision, htaken.nextDecision]
      exact .settles hle (Spill.prepend hs hrecap.mute)
    · rw [hspill.buffer, ← htaken.buffer]
      exact hrecap.slots.append hspill.noJob

/-- The hold's cap is a move: the decision leaves its wait. -/
theorem capped_move (ch : ChannelId) (decision : Nat) :
    Move L r (r.capped ch decision).1 (r.capped ch decision).2 := by
  unfold capped
  split
  next c hc =>
    split
    next owner items hheld =>
      split
      · have hget : r.waiting ch = c.waiting := by
          unfold waiting get
          rw [hc]
          rfl
        have hw := set_writes (r := r) ch { c with held := none }
        obtain ⟨hv, hj⟩ := speakDecisions_voices (r := r) ch items
        refine hw.move ?_ hj
        have hitems : (r.waiting ch).held = items := by
          rw [hget]
          show (c.held.map Prod.snd).getD [] = items
          rw [hheld]
          rfl
        have hcap : Change L ch (items.flatMap (r.speakDecision ch)) r.nextDecision (r.waiting ch)
            r.nextDecision { r.waiting ch with held := [] } := .capped (hitems.symm ▸ hv)
        rw [hget] at hcap ⊢
        exact hcap
      · exact (Calm.refl r).arms ch |>.move
    · exact (Calm.refl r).arms ch |>.move
  · exact (Calm.refl r).arms ch |>.move

/-- A timer fires. -/
theorem fire_moves (s : Speech) (timer : Timer) (focused : Option ChannelId) :
    Moves L r (r.fire s timer focused).1 (r.fire s timer focused).2 := by
  cases timer with
  | settle ch gen =>
    unfold fire
    dsimp only
    split
    · exact .single (settled_move s ch focused).1
    · exact .refl r
  | holdCap ch decision => exact .single (capped_move ch decision)
  | watchdog seq =>
    refine .single ⟨⟨"", fun a _ => rfl, .calm (applyAll_plain s _).mute (.inl rfl)⟩, ?_⟩
    exact .expire (applyAll_plain s _).noJob seq
  | gap ch gen =>
    unfold fire
    dsimp only
    split
    · exact (releaseGap_arms s ch).moves
    · exact .refl r
  | leadIn ch gen =>
    unfold fire
    dsimp only
    split
    · exact .single (releaseLeadInWait_move ch).1
    · exact .refl r

/-- The answer of `job` leaves nothing held with no summary in flight. -/
def AnswersLast (r : Rules) (job : Job) : Prop :=
  (r.get job.channel).gen = job.gen → (r.get job.channel).inflight = 1 →
    ∀ p, (r.get job.channel).held = some p → p.1 = job.token

/-- The part of an answer before its summary lands, with what is voiced at its end. -/
theorem settleJob_answered (job : Job) (hok : L.orderly → r.AnswersLast job) :
    ∃ w, Writes job.channel w r (r.settleJob job).1 ∧
      ∀ out, voiced out = named job.channel (r.settleJob job).2 →
        Change L job.channel out r.nextDecision (r.waiting job.channel) r.nextDecision w := by
  unfold settleJob
  split
  next c hc =>
    have hget : r.get job.channel = c := by
      unfold get
      rw [hc]
      rfl
    have hw := set_writes (r := r) job.channel { c with
      held := if c.held.any (·.1 == job.token) then none else c.held
      inflight := if c.gen = job.gen then c.inflight - 1 else c.inflight }
    refine ⟨_, hw, fun out hout => ?_⟩
    have hwait : r.waiting job.channel = c.waiting := congrArg Turn.waiting hget
    have hkept : (if c.gen = job.gen then c.inflight - 1 else c.inflight) ≤ c.inflight := by
      split <;> omega
    rw [hwait]
    dsimp only at hout
    by_cases howned : c.held.any (·.1 == job.token) = true
    · rw [if_pos howned] at hout ⊢
      exact .answered hkept (.inl ⟨rfl, hout⟩) fun _ _ => .inl rfl
    · rw [if_neg howned] at hout ⊢
      refine .answered hkept (.inr ⟨rfl, hout⟩) fun ho hbusy => ?_
      have hlast := hok ho
      unfold AnswersLast at hlast
      rw [hget] at hlast
      -- The last job of the generation owns what is held.
      by_cases hone : c.gen = job.gen ∧ c.inflight = 1
      · left
        show (c.held.map Prod.snd).getD [] = []
        cases hheld : c.held with
        | none => rfl
        | some p =>
          have hmine := hlast hone.1 hone.2 p hheld
          simp [hheld, hmine] at howned
      · right
        have hbusy : 0 < c.inflight := hbusy
        show 0 < if c.gen = job.gen then c.inflight - 1 else c.inflight
        split <;> omega
  next hc =>
    exact ⟨_, (Calm.refl r).writes job.channel, fun out hout => .calm hout (.inl rfl)⟩

/-- The summarizer answers. -/
theorem digestDone_moves (s : Speech) (job : Job) (summary : Option Text)
    (hok : L.orderly → r.AnswersLast job) (hlands : ∀ seq, job.seq = some seq → L.lands seq) :
    Moves L r (r.digestDone s job summary).1 (r.digestDone s job summary).2 := by
  obtain ⟨w, hw, hchange⟩ := settleJob_answered (L := L) job hok
  unfold digestDone
  dsimp only
  generalize hrel : (⟨job.channel, job.gen, job.text, job.leadin, summary⟩ : Release) = rel
  generalize r.settleJob job = h at hw hchange ⊢
  obtain ⟨hland, hnext, hplain⟩ := land_frame (r := h.1) s job.seq rel
  obtain ⟨hv, hj⟩ := speakDecisions_voices (r := (h.1.land s job.seq rel).1) job.channel h.2
  refine .single ⟨⟨job.channel, fun a ha => (hland a).trans (hw.others a ha), ?_⟩, ?_⟩
  · rw [hland, hw.self, hnext, hw.nextDecision]
    refine hchange _ ?_
    rw [voiced_append, hplain.mute, hv]
    rfl
  · have hnone := hplain.noJob.append hj
    rw [← hw.buffer]
    cases hseq : job.seq with
    | none =>
      rw [hseq] at hnone
      exact .same hnone
    | some seq =>
      rw [hseq] at hnone
      exact .land (hlands seq hseq) hnone rel

end Rules

end Sonara.L3
