import Sonara.L2.Driving

/-!
# Every operation of the driver is a row of acts

`step_acts` says so operation by operation, with the flag each leaves, so what every act keeps is
kept by every run (`run_fit`). An entry put back with `set_aside` is fed only by a later feed; until
then the flag is down (`DriverOp.fresh`).
-/

namespace Sonara.L2

open Sonara (Text)
open L1 (ItemId QueueMode Control endsOf)

/-- Whether nothing is left to feed after the operation, but for what waits in the reader. -/
def DriverOp.fresh (s : Channels) (b : Bool) : DriverOp → Bool
  | .speak channel _ _ _ _ | .add channel _ _ | .store channel _ _ | .setMuted channel _ =>
    b || channel != ""
  | .close channel | .focus channel | .prioritize channel => b || s.router.isOpen channel
  | .setFocusOnly _ | .authorize _ => true
  | .deliver => b || !s.ended.isEmpty
  | .setAside _ _ aside => b && aside
  | _ => b

namespace Channels

variable {split : L1.Chunking → Text → List Text} {clean : Prop} (b : Bool) (s : Channels)

/-! ## Channels and gates -/

theorem openChannel_acts (channel : ChannelId) (label hostTab : Option String)
    (policy : Option Policy) :
    Acts split clean (b, s) (b, (s.openChannel channel label hostTab policy).1) := by
  unfold openChannel
  split
  · exact .refl
  · exact .single (.calm (.openChannel channel label hostTab policy) trivial)

/-- `close` is made of acts; if the channel was open, the reader is met last. -/
theorem close_acts (quiet : clean → Quiet s.meanwhile) (channel : ChannelId) :
    Acts split clean (b, s) (b || s.router.isOpen channel, (s.close split channel).1) := by
  unfold close
  dsimp only
  cases h : s.router.close channel with
  | mk r ok =>
    cases ok with
    | false =>
      have hclosed : s.router.isOpen channel = false := by
        unfold Router.isOpen
        unfold Router.close at h
        split at h
        next hc => rw [hc]; rfl
        next => cases h
      rw [hclosed, Bool.or_false]
    | true =>
      have hr : s.router.apply (.close channel) = r := congrArg Prod.fst h
      dsimp only
      rw [← hr]
      have hcut : ∀ d, Acts split clean (b, s) (b || s.router.isOpen channel,
          ({ s with router := s.router.apply (.close channel), dropped := d }.cutIf split channel
            none).pump split) := by
        intro d
        have hnote : Acts split clean (b, s) (b, { s with dropped := d }) :=
          .single (.note d s.config)
        have hcut : Acts split clean (b, { s with dropped := d }) _ :=
          cutIf_acts (.close channel) channel nofun (fun a ha => ha.symm) none
        exact Acts.lower (Acts.pump (hnote.trans hcut) quiet) _
      cases s.cutEntry channel with
      | none => exact hcut _
      | some cut => exact hcut _

theorem labelIfMissing_acts (channel : ChannelId) (label : String) :
    Acts split clean (b, s) (b, (s.labelIfMissing channel label).1) := by
  unfold labelIfMissing
  split
  · exact .refl
  · split
    · exact .refl
    · exact .single (.calm (.labelIfMissing channel label) trivial)

/-- A row that tells the router something harmless and feeds. -/
theorem route_pump_acts (quiet : clean → Quiet s.meanwhile) (op : Op) (hfeed : op ≠ .nextFeed)
    (hop : ∀ a, ¬op.Interrupts a) (b' : Bool) :
    Acts split clean (b, s) (b', { s with router := s.router.apply op }.pump split) := by
  have hroute : Acts split clean (b, s) (false, { s with router := s.router.apply op }) :=
    .single (.route op hfeed fun f _ => hop f.channel)
  exact Acts.lower (hroute.pump quiet) b'

/-- `focus` is made of acts; if the channel was open, the reader is met last. -/
theorem focus_acts (quiet : clean → Quiet s.meanwhile) (channel : ChannelId) :
    Acts split clean (b, s) (b || s.router.isOpen channel, (s.focus split channel).1) := by
  unfold focus
  cases h : s.router.setFocus channel with
  | mk r ok =>
    have hr : s.router.apply (.focus channel) = r := congrArg Prod.fst h
    cases ok with
    | false =>
      have hclosed : s.router.isOpen channel = false := by
        unfold Router.setFocus at h
        split at h
        next hc => simpa using hc
        next => cases h
      rw [hclosed, Bool.or_false]
    | true =>
      rw [← hr]
      exact route_pump_acts b s quiet (.focus channel) nofun (fun _ => id) _

/-- `prioritize` is made of acts; if the channel was open, the reader is met last. -/
theorem prioritize_acts (quiet : clean → Quiet s.meanwhile) (channel : ChannelId) :
    Acts split clean (b, s) (b || s.router.isOpen channel, (s.prioritize split channel).1) := by
  unfold prioritize
  cases h : s.router.prioritize channel with
  | mk r ok =>
    have hr : s.router.apply (.prioritize channel) = r := congrArg Prod.fst h
    cases ok with
    | false =>
      have hclosed : s.router.isOpen channel = false := by
        unfold Router.prioritize at h
        split at h
        next hc => simpa using hc
        next => split at h <;> cases h
      rw [hclosed, Bool.or_false]
    | true =>
      rw [← hr]
      exact route_pump_acts b s quiet (.prioritize channel) nofun (fun _ => id) _

/-- `setMuted` is made of acts; the reader is met last. -/
theorem setMuted_acts (quiet : clean → Quiet s.meanwhile) (channel : ChannelId) (muted : Bool) :
    Acts split clean (b, s) (b || channel != "", (s.setMuted split channel muted).1) := by
  unfold setMuted
  split
  next hempty =>
    rw [hempty, bne_self_eq_false, Bool.or_false]
  next hname =>
    dsimp only
    cases muted with
    | false =>
      exact route_pump_acts b s quiet (.setMuted channel false) nofun (fun a ha => nomatch ha.2) _
    | true =>
      have hcut : Acts split clean (b, s) _ :=
        cutIf_acts (.setMuted channel true) channel nofun (fun a ha => ha.1.symm) (some "muted")
      exact Acts.lower (hcut.pump quiet) _

theorem dropDecisions_acts (channel : ChannelId) (which : Resolved) :
    Acts split clean (b, s) (b, (s.dropDecisions channel which).1) :=
  (Relation.ReflTransGen.single (.calm (.dropDecisions channel which) trivial)).trans
    (report_acts b _ _ _ _ _)

theorem setAside_acts (channel : ChannelId) (entry : Nat) (aside : Bool) :
    Acts split clean (b, s) (b && aside, (s.setAside channel entry aside).1) := by
  cases aside with
  | true =>
    rw [Bool.and_true]
    exact .single (.calm (.setAside channel entry true) rfl)
  | false =>
    rw [Bool.and_false]
    exact .single (.route (.setAside channel entry false) nofun fun _ _ => id)

theorem isIdle_acts : Acts split clean (b, s) (b, s.isIdle.1) := by
  unfold isIdle
  split
  · exact .refl
  · exact .single (.calm .hasWork trivial)

/-! ## Text -/

theorem opened_acts (channel : ChannelId) : Acts split clean (b, s) (b, s.opened channel) := by
  unfold opened
  split
  · exact .refl
  · exact .single (.calm (.openChannel channel none none none) trivial)

theorem opened_isOpen (channel : ChannelId) : (s.opened channel).router.isOpen channel = true := by
  unfold opened
  split
  next h => exact h
  next h =>
    unfold Router.openChannel
    rw [if_neg h]
    unfold Router.isOpen Router.channel at h ⊢
    dsimp only
    rw [List.find?_append, Option.not_isSome_iff_eq_none.mp h, Option.none_or]
    simp [Channel.new]

/-- A push into an open channel makes an entry. -/
theorem pushed_some {r : Router} {channel : ChannelId} (h : r.isOpen channel = true) (text : Text)
    (label : Option String) (replace front : Bool) :
    (r.pushWith channel text label replace front).2 ≠ none := by
  unfold Router.pushWith
  dsimp only
  rw [if_neg (by rw [h]; nofun)]
  nofun

/-- An append to an open channel gives an id. -/
theorem appended_some {r : Router} {channel : ChannelId} (h : r.isOpen channel = true) (text : Text)
    (decision heard : Bool) : (r.append channel text decision heard).2 ≠ none := by
  obtain ⟨c, hc⟩ := Router.isOpen_iff.mp h
  have hsome := pushed_some h text none false false
  unfold Router.append
  rw [hc]
  dsimp only
  cases hp : r.pushWith channel text none false false with
  | mk r₁ o =>
    rw [hp] at hsome
    cases o with
    | none => exact absurd rfl hsome
    | some entry => nofun

/-- The end of `push`: the channel is switched to, or fed in its turn. -/
theorem feeds_acts (quiet : clean → Quiet s.meanwhile) (channel : ChannelId) (now : Bool) :
    Acts split clean (b, s)
    (true, (if now then s.switchTo split channel fun r => (r.takeFloor channel).1
      else s.pumpFed split).1) := by
  cases now with
  | true =>
    exact switchTo_acts (Router.Reaches.refl s.router) channel
      fun r => (Router.Reaches.refl r).apply (.takeFloor channel)
  | false => exact .single (.pump quiet)

/-- `push` is made of acts: the channel is opened, the text appended, and the reader met. -/
theorem push_acts (quiet : clean → Quiet s.meanwhile) (channel : ChannelId) (text : Text)
    (mode : Option QueueMode) (interrupt : Bool) (label : Option String) (agent : Option Agent) :
    Acts split clean (b, s) (b || channel != "",
      (s.push split channel text mode interrupt label agent).1) := by
  unfold push
  split
  next hempty =>
    rw [hempty, bne_self_eq_false, Bool.or_false]
  next hname =>
    dsimp only
    have hopen := s.opened_isOpen channel
    have hacts : Acts split clean (b, s) _ := opened_acts b s channel
    have hquiet : clean → Quiet (s.opened channel).meanwhile := fun hclean i hi =>
      quiet hclean i (by rwa [hacts.atFeed] at hi)
    generalize s.opened channel = t at hopen hacts hquiet
    -- The reports of what the text replaces.
    obtain ⟨d, hd⟩ : ∃ d, (if t.replaces channel mode = true then
        t.report channel (t.unread channel) (replacedBy mode) none else t) = { t with dropped :=
        d } := by
      split
      · exact ⟨_, rfl⟩
      · exact ⟨t.dropped, rfl⟩
    have hnote : Acts split clean (b, s) (b, { t with dropped := d }) :=
      hacts.tail (.note d t.config)
    rw [hd]
    dsimp only
    cases agent with
    | some a =>
      have hsome := appended_some hopen text a.decision a.heard
      have hroute : Acts split clean (b, s) (false, { t with
          dropped := d, router := t.router.apply (.append channel text a.decision a.heard) }) :=
        hnote.tail (.route (.append channel text a.decision a.heard) nofun fun _ _ => id)
      dsimp only
      split
      next hnone => exact absurd hnone hsome
      next entry _ =>
        exact Acts.lower (hroute.trans (feeds_acts false _ (by exact hquiet) channel _)) _
    | none =>
      have hsome := pushed_some hopen text label (t.replaces channel mode) interrupt
      have hroute : Acts split clean (b, s) (false, { t with
          dropped := d, router :=
          (t.router.apply (.pushWith channel text label (t.replaces channel mode) interrupt)).apply
            (.authorize channel) }) :=
        (hnote.tail (.route (.pushWith channel text label (t.replaces channel mode) interrupt) nofun
          fun _ _ => id)).tail
          (.route (.authorize channel) nofun fun _ _ => id)
      dsimp only
      split
      next hnone => exact absurd hnone hsome
      next entry _ =>
        exact Acts.lower (hroute.trans (feeds_acts false _ (by exact hquiet) channel _)) _

/-! ## Controls -/

theorem reports_acts (ids : List ChannelId) (reason : String) (s : Channels) :
    Acts split clean (b, s)
    (b, ids.foldl (fun s id => s.report id (s.unread id) reason none) s) := by
  induction ids generalizing s with
  | nil => exact .refl
  | cons id ids ih => exact (report_acts b s _ _ _ _).trans (ih _)

theorem reportCut_acts (channel : ChannelId) (reason : String) :
    Acts split clean (b, s) (b, s.reportCut channel reason) := by
  obtain ⟨d, hd⟩ := reportCut_eq s channel reason
  rw [hd]
  exact .single (.note d s.config)

theorem stopAll_acts (reason : String) : Acts split clean (b, s) (b, s.stopAll split reason) := by
  unfold stopAll
  dsimp only
  have hreports : Acts split clean (b, s) _ := reports_acts b s.router.ids reason s
  generalize s.router.ids.foldl (fun s id => s.report id (s.unread id) reason none) s = t
    at hreports
  cases t.inFlight with
  | none => exact Acts.lower (hreports.tail .stop) b
  | some f => exact Acts.lower ((hreports.trans (reportCut_acts b t f.channel reason)).tail .stop) b

/-- `restart` is made of acts. -/
theorem restart_acts (quiet : clean → Quiet s.meanwhile) :
    Acts split clean (b, s) (b, s.restart split) := by
  unfold restart
  split
  next f _ => exact readFrom_acts b s f.channel none
  next hf =>
    have hmeet : Acts split clean (b, s) (b, s.meet split) := meet_acts b s
    have hf' : (s.meet split).inFlight = none := (meet_own split s).inFlight.trans hf
    generalize s.meet split = t at hmeet hf' ⊢
    dsimp only
    split
    · exact hmeet.trans (tell_acts b t .restart)
    · split
      · exact hmeet.trans (tell_acts b t .restart)
      next e _ =>
        cases h : t.router.replay e with
        | mk r ok =>
          have hr : t.router.apply (.replay e) = r := congrArg Prod.fst h
          cases ok with
          | true =>
            dsimp only
            rw [← hr]
            have hroute : Acts split clean (b, s)
                (false, { t with router := t.router.apply (.replay e) }) :=
              hmeet.tail (.route (.replay e) nofun fun f h => by rw [hf'] at h; cases h)
            exact Acts.lower (hroute.pump quiet) b
          | false =>
            dsimp only
            split
            · exact hmeet
            · exact hmeet.trans (tell_acts b t .restart)

/-- `restartChannel` is made of acts. -/
theorem restartChannel_acts (channel : ChannelId) :
    Acts split clean (b, s) (b, s.restartChannel split channel) := by
  unfold restartChannel
  cases h : s.router.replay channel with
  | mk r ok =>
    have hr : s.router.Reaches r := by
      have := (Router.Reaches.refl s.router).apply (.replay channel)
      rwa [show s.router.apply (.replay channel) = r from congrArg Prod.fst h] at this
    cases ok with
    | false => exact .refl
    | true =>
      dsimp only
      cases s.inFlight with
      | none => exact Acts.lower (.single (.move hr)) b
      | some f =>
        rw [Option.bind_some]
        cases f.entry with
        | none => exact Acts.lower (.single (.move hr)) b
        | some e => exact Acts.lower (.single (.move (hr.apply (.rewind f.channel e)))) b

/-- `control` is made of acts. -/
theorem control_acts (quiet : clean → Quiet s.meanwhile) (k : Control) (channel : Option ChannelId)
    (reason : String) :
    Acts split clean (b, s) (b, (s.control split k channel reason).1) := by
  unfold control
  cases channel with
  | none =>
    cases k <;> first
      | exact stopAll_acts b s reason
      | exact restart_acts b s quiet
      | exact tell_acts b s _
  | some ch =>
    dsimp only
    split
    · exact .refl
    · cases k <;> first
        | (dsimp only
           split
           · exact tell_acts b s _
           · first
             | exact restartChannel_acts b s ch
             | exact .refl)
        | (have hreport : Acts split clean (b, s) _ := report_acts b s ch (s.unread ch) reason none
           have hcut : Acts split clean (b, s.report ch (s.unread ch) reason none) _ :=
             cutIf_acts (.flush (some ch)) ch nofun (fun a ha => nomatch ha) (some reason)
           exact Acts.lower (Acts.pump (hreport.trans hcut) quiet) b)

/-! ## Sections, moves and flushes -/

/-- `back` is made of acts. -/
theorem back_acts (quiet : clean → Quiet s.meanwhile) :
    Acts split clean (b, s) (b, (s.back split).1) := by
  unfold back
  split
  · exact control_acts b s quiet .restart none "stop"
  next f entry _ =>
    have hmeet : Acts split clean (b, s) (b, s.meet split) := meet_acts b s
    generalize s.meet split = s at hmeet ⊢
    dsimp only
    split
    · exact hmeet.trans (tell_acts b s .previous)
    · split
      · have h : Acts split clean (b, s) _ := readFrom_acts b s f.channel none
        split
        next t heq =>
          rw [heq] at h
          exact hmeet.trans h
        next t heq =>
          rw [heq] at h
          exact (hmeet.trans h).trans (tell_acts b t .restart)
      next previous _ =>
        have h : Acts split clean (b, s) _ := stepTo_acts b s f.channel (previous.getD entry)
        split
        next t heq =>
          rw [heq] at h
          exact (hmeet.trans h).trans (tell_acts b t .restart)
        next t heq =>
          rw [heq] at h
          exact hmeet.trans h

/-- `forward` is made of acts. -/
theorem forward_acts : Acts split clean (b, s) (b, (s.forward split).1) := by
  unfold forward
  split
  · exact .refl
  next f entry _ =>
    have hmeet : Acts split clean (b, s) (b, s.meet split) := meet_acts b s
    generalize s.meet split = s at hmeet ⊢
    dsimp only
    split
    · exact hmeet.trans (tell_acts b s .next)
    · split
      · exact hmeet
      next next _ =>
        have h : Acts split clean (b, s) _ := stepTo_acts b s f.channel next
        split
        next t heq =>
          rw [heq] at h
          exact hmeet.trans h
        next t heq =>
          rw [heq] at h
          exact hmeet.trans h

theorem nextChannel_acts : Acts split clean (b, s) (b, (s.nextChannel split).1) := by
  unfold nextChannel
  cases h : s.router.nextChannel with
  | mk r o =>
    have hr : s.router.Reaches r := by
      have := (Router.Reaches.refl s.router).apply .nextChannel
      rwa [show s.router.apply .nextChannel = r from congrArg Prod.fst h] at this
    cases o with
    | none => exact .refl
    | some target => exact Acts.lower (switchTo_acts hr target.1 Router.Reaches.refl) b

/-- What is read is stopped; then there may be something to feed. -/
theorem stopRead_acts (reason : String) :
    Acts split clean (b, s) (false, (s.stopRead split reason).1) ∧
      ((s.stopRead split reason).2 = .nothing →
        Acts split clean (b, s) (b, (s.stopRead split reason).1)) := by
  unfold stopRead
  cases hf : s.inFlight with
  | none =>
    have hmeet : Acts split clean (b, s) (b, s.meet split) := meet_acts b s
    generalize s.meet split = t at hmeet ⊢
    dsimp only
    split
    · exact ⟨Acts.drop (hmeet.trans (tell_acts b t .skip)), nofun⟩
    · exact ⟨Acts.drop hmeet, fun _ => hmeet⟩
  | some f =>
    dsimp only
    have hreport : Acts split clean (b, s) _ :=
      report_acts b s f.channel (s.unread f.channel) reason none
    split
    · exact ⟨hreport.tail
        (.cut (((Router.Reaches.refl _).apply (.flush (some f.channel))).apply .done)), nofun⟩
    · exact ⟨hreport.trans (cutIf_acts (.flush (some f.channel)) f.channel nofun
        (fun a ha => nomatch ha) (some reason)), nofun⟩

theorem flushOther_acts (reason : String) (x : Channels × List ChannelId) (id : ChannelId) :
    Acts split clean (b, x.1) (b, (flushOther reason x id).1) := by
  unfold flushOther
  split
  · exact .refl
  · exact (report_acts b x.1 _ _ _ _).tail (.calm (.flush (some id)) trivial)

theorem flushOthers_acts (reason : String) (ids : List ChannelId) (x : Channels × List ChannelId) :
    Acts split clean (b, x.1) (b, (ids.foldl (flushOther reason) x).1) := by
  induction ids generalizing x with
  | nil => exact .refl
  | cons id ids ih => exact (flushOther_acts b reason x id).trans (ih _)

/-- `flushWith` is made of acts: the read is stopped, then each other channel is flushed. -/
theorem flushWith_acts (quiet : clean → Quiet s.meanwhile) (reason : String)
    (also : ChannelId → Bool) :
    Acts split clean (b, s) (b, (s.flushWith split reason also).1) := by
  unfold flushWith
  dsimp only
  generalize (s.stopRead split reason).1.router.ids.filter _ = ids
  obtain ⟨hstop, hnothing⟩ : Acts split clean (b, s) _ ∧ (_ → Acts split clean (b, s) _) :=
    stopRead_acts b s reason
  have hothers : ∀ b, Acts split clean (b, (s.stopRead split reason).1) _ :=
    fun b => flushOthers_acts b reason ids ((s.stopRead split reason).1, [])
  generalize ids.foldl (flushOther reason) ((s.stopRead split reason).1, []) = y at hothers
  split
  next h => exact (hnothing h).trans (hothers b)
  next h =>
    have hflushed : Acts split clean (b, s) (false, y.1.meet split) :=
      (hstop.trans (hothers false)).trans (meet_acts false y.1)
    generalize y.1.meet split = t at hflushed ⊢
    split
    · exact Acts.lower (Acts.pump (hflushed.trans (tell_acts false t .play)) quiet) b
    · exact Acts.lower (hflushed.pump quiet) b

/-! ## Every operation -/

theorem deliver_acts (quiet : clean → Quiet s.meanwhile) :
    Acts split clean (b, s) (b || !s.ended.isEmpty, s.step split .deliver) := by
  unfold step
  dsimp only
  cases h : s.ended with
  | nil =>
    rw [List.isEmpty_nil, Bool.not_true, Bool.or_false]
  | cons id rest =>
    have hended : Acts split clean (b, s) (false, s.taken id rest) := .single (.ended h)
    exact Acts.lower (hended.pump quiet) _

variable (split) in
/-- **Every operation is a row of acts.** -/
theorem step_acts (quiet : clean → Quiet s.meanwhile) (op : DriverOp) :
    Acts split clean (b, s) (op.fresh s b, s.step split op) := by
  cases op with
  | openChannel channel label hostTab policy =>
    exact openChannel_acts b s channel label hostTab policy
  | close channel => exact close_acts b s quiet channel
  | labelIfMissing channel label => exact labelIfMissing_acts b s channel label
  | focus channel => exact focus_acts b s quiet channel
  | prioritize channel => exact prioritize_acts b s quiet channel
  | speak channel text mode interrupt label =>
    exact push_acts b s quiet channel text mode interrupt label none
  | add channel text decision => exact push_acts b s quiet channel text _ false none _
  | store channel text decision => exact push_acts b s quiet channel text _ false none _
  | endBatch channel => exact .single (.calm (.endBatch channel) trivial)
  | dropDecisions channel which => exact dropDecisions_acts b s channel which
  | setMuted channel muted => exact setMuted_acts b s quiet channel muted
  | setFocusOnly on => exact route_pump_acts b s quiet (.setFocusOnly on) nofun (fun _ => id) true
  | authorize channel =>
    exact route_pump_acts b s quiet (.authorize channel) nofun (fun _ => id) true
  | control k channel reason => exact control_acts b s quiet k channel reason
  | revise channel entry text => exact .single (.calm (.revise channel entry text) trivial)
  | setAside channel entry aside => exact setAside_acts b s channel entry aside
  | readFrom channel entry => exact readFrom_acts b s channel entry
  | back => exact back_acts b s quiet
  | forward => exact forward_acts b s
  | flushWith reason also => exact flushWith_acts b s quiet reason also
  | nextChannel => exact nextChannel_acts b s
  | isIdle => exact isIdle_acts b s
  | configure config => exact .single (.note s.dropped config)
  | reader i => exact .single (.call i)
  | deliver => exact deliver_acts b s quiet

/-! ## Runs -/

/-- The flag after a run. -/
def freshAfter (split : L1.Chunking → Text → List Text) (b : Bool) (s : Channels) :
    List DriverTurn → Bool
  | [] => b
  | t :: ts => freshAfter split (t.op.fresh s b) (s.turn split t) ts

/-- In no operation of the run somebody has the reader read between a look of `pump_fed` that finds
it idle, and the feed. -/
def Clean (ts : List DriverTurn) : Prop := ∀ t ∈ ts, Quiet t.meanwhile

variable {b s}

/-- One operation keeps the fit, whatever others do meanwhile. -/
theorem Fit.turn (F : Fit split clean b s) (t : DriverTurn) (quiet : clean → Quiet t.meanwhile) :
    Fit split clean (t.op.fresh s b) (s.turn split t) := by
  have F' := F.meanwhile t.meanwhile
  have hacts := step_acts split b { s with meanwhile := t.meanwhile } quiet t.op
  exact Fit.meanwhile (hacts.fit F') .none

theorem Fit.run (F : Fit split clean b s) (ts : List DriverTurn) (hclean : clean → Clean ts) :
    Fit split clean (freshAfter split b s ts) (s.run split ts) := by
  induction ts generalizing b s with
  | nil => exact F
  | cons t ts ih =>
    have F' := F.turn t (fun h => hclean h t List.mem_cons_self)
    exact ih F' (fun h u hu => hclean h u (List.mem_cons_of_mem _ hu))

/-- **Every run keeps the fit.** -/
theorem run_fit (config : Config) (ts : List DriverTurn) :
    Fit split (Clean ts) (freshAfter split true (new config) ts) ((new config).run split ts) :=
  (new_fit config).run ts id

/-- A text is one chunk. -/
def oneChunk : L1.Chunking → Text → List Text := fun _ text => [text]

end Channels

end Sonara.L2
