import Sonara.L2.Stored
import Sonara.L3.Mute

/-!
# Runs at another mute level

Calls and runs mirror themselves (`call_mirrors`, `run_mirrors`); what a muted step may
return is `Action.Quiet`.
-/

namespace Sonara.L3

open Sonara Text
open Sonara.L2 (ChannelId)
open Sonara.Prose (Speech)

variable {l : Nat} {o o' : List Action}

/-! ## Calls and runs -/

/-- The call at level `l`: it sets no other level. -/
def Call.atLevel (l : Nat) : Call → Call
  | .setSettings st => .setSettings (st.atLevel l)
  | c => c

def Input.atLevel (l : Nat) : Input → Input
  | .call c => .call (c.atLevel l)
  | i => i

/-- The input leaves the mute level alone and keeps summaries off. -/
def Input.Keeps : Input → Prop
  | .call (.setMuteLevel _) => False
  | .call (.setSettings st) => st.summaries.enabled = false
  | _ => True

def World.atLevel (w : World) (l : Nat) : World := { w with rules := w.rules.atLevel l }

open Rules

variable {s : Speech} {r : Rules}

/-- **A call mirrors itself at any level.** -/
theorem call_mirrors (h : r.settings.muteLevel = 0) (c : Call) (hc : ∀ n, c ≠ .setMuteLevel n) :
    Mirrors l (r.call s (c.atLevel 0)) ((r.atLevel l).call s (c.atLevel l)) := by
  cases c with
  | stream ch turn delta index fin t => exact (stream_mirrors h turn delta index fin t).getD h
  | leadIn ch turn delta t => exact (takeLeadIn_mirrors h turn delta none t).getD h
  | lateLeadIn ch turn delta id t => exact (takeLeadIn_mirrors h turn delta (some id) t).getD h
  | reply ch turn text before t =>
    refine .silent h (call_config (s := s) (.reply ch turn text before t) id) ?_
    show ((r.atLevel l).reply ch turn text before t).getD (r.atLevel l) =
      ((r.reply ch turn text before t).getD r).atLevel l
    unfold reply
    rw [atLevel_stale]
    split
    · rfl
    · dsimp only [Option.getD_some]
      exact atLevel_modify _
  | turnStart ch turn t => exact (turnStart_mirrors h turn t).getD h
  | turnEnd ch turn t => exact (turnEnd_mirrors h turn t).getD h
  | ask ch a => exact ask_mirrors h a
  | tool ch name summary => exact tool_mirrors h name summary
  | answered ch => exact answered_mirrors h
  | stopAll => exact .silent h stopAll_config stopAll_level.1
  | flush ch => exact flush_mirrors h
  | flushReady ch queued => exact flushReady_mirrors h queued
  | takeNewTurn ch => exact .silent h takeNewTurn_config (congrArg Prod.fst takeNewTurn_level)
  | close ch => exact .refl h
  | play e => exact .emit h (earcon_echoes h e)
  | reviewLine ch => exact .emit h (speak_echoes h _ none .review)
  | setMuteLevel level => exact absurd rfl (hc level)
  | setWholeMessages on => exact ⟨h, rfl, .nil⟩
  | setSettings settings => exact ⟨rfl, rfl, .nil⟩
  | bindQuestion ch entry stored =>
    exact .silent h (bindQuestion_steered entry stored).config (bindQuestion_level entry stored)
  | questionShown ch shown =>
    exact .silent h (questionShown_steered s shown).config
      (congrArg Prod.fst (questionShown_level shown))
  | navigate ch step started =>
    exact .silent h (navigate_steered step started).config
      (congrArg Prod.fst (navigate_level step started))
  | questionsUnheard ch => exact .silent h questionsUnheard_steered.config questionsUnheard_level
  | rewindQuestions ch =>
    exact .silent h rewindQuestions_steered.config (congrArg Prod.fst rewindQuestions_level)

/-! ## What a muted step may return -/

/-- The action is one that level `l` lets out. -/
def Action.Quiet (l : Nat) : Action → Prop
  | .speak .. | .summarize _ => l = 0
  | .earcon _ => l < 2
  | _ => True

/-- What level `l` does in place of an audible step is quiet. -/
theorem Echoes.quiet (h : Echoes l o o') : ∀ a ∈ o', a.Quiet l ∨ l = 0 := by
  intro a ha
  by_cases hl : l = 0
  · exact .inr hl
  left
  rw [h.out] at ha
  obtain ⟨b, hb, hab⟩ := List.mem_flatMap.mp ha
  cases b with
  | speak ch text d release kind =>
    have hstore : Action.render l (.speak ch text d release kind) = [.store ch text d kind] :=
      if_neg hl
    rw [hstore, List.mem_singleton] at hab
    subst hab
    trivial
  | earcon e =>
    by_cases h2 : l < 2
    · have hone : Action.render l (.earcon e) = [.earcon e] := if_pos h2
      rw [hone, List.mem_singleton] at hab
      subst hab
      exact h2
    · have hnone : Action.render l (.earcon e) = [] := if_neg h2
      rw [hnone] at hab
      cases hab
  | summarize job =>
    have hmem : job ∈ dispatched o := List.mem_filterMap.mpr ⟨_, hb, rfl⟩
    rw [h.noJob] at hmem
    cases hmem
  | wipe ch resume => rw [List.mem_singleton.mp hab]; trivial
  | store ch text d kind => rw [List.mem_singleton.mp hab]; trivial
  | silence => rw [List.mem_singleton.mp hab]; trivial
  | timer after t => rw [List.mem_singleton.mp hab]; trivial

/-- What a step returns that mirrors itself, while muted. -/
theorem quiet_of_mirrors {f : Rules → Rules × List Action} (hl : 1 ≤ r.settings.muteLevel)
    (hf : ∀ r₀ : Rules, r₀.settings.muteLevel = 0 →
      Mirrors r.settings.muteLevel (f r₀) (f (r₀.atLevel r.settings.muteLevel))) :
    ∀ a ∈ (f r).2, a.Quiet r.settings.muteLevel := by
  intro a ha
  have m := hf (r.atLevel 0) rfl
  have hself : (r.atLevel 0).atLevel r.settings.muteLevel = r := rfl
  rw [hself] at m
  exact (m.echoes.quiet a ha).resolve_right (by omega)

namespace Rules

/-- While muted nothing is sent to the summarizer: the prose is stored. -/
theorem maybeSummarize_quiet (hl : 1 ≤ r.settings.muteLevel) (ch : ChannelId) (leadin : Bool)
    (focused : Option ChannelId) :
    ∀ a ∈ (r.maybeSummarize s ch leadin focused).2.1, a.Quiet r.settings.muteLevel := by
  cases hsum : r.summaries with
  | false =>
    refine quiet_of_mirrors (f := fun r' => if r'.summaries then (r', []) else
      ((r'.maybeSummarize s ch leadin focused).1, (r'.maybeSummarize s ch leadin focused).2.1)) hl
      (fun r₀ h => ?_) |> fun h => by simpa [hsum] using h
    rw [atLevel_summaries]
    split
    · exact .refl h
    next hoff => exact (maybeSummarize_off h (by simpa using hoff) leadin focused).1
  | true =>
    have hspeak : ∀ (r' : Rules) chunks, r'.settings = r.settings →
        ∀ a ∈ r'.speakChunks ch chunks, a.Quiet r.settings.muteLevel := by
      intro r' chunks hset
      have hq := quiet_of_mirrors (r := r') (f := fun r => (r, r.speakChunks ch chunks))
        (by rw [hset]; exact hl) fun r₀ h => .emit h (speakChunks_echoes h chunks)
      rwa [hset] at hq
    have hset : ∀ c, ((r.touch ch).set ch c).settings = r.settings := fun c => by simp
    unfold maybeSummarize
    rw [if_neg (by simp [hsum])]
    dsimp only
    intro a ha
    split at ha
    · exact absurd ha List.not_mem_nil
    · split at ha
      · exact hspeak _ _ (hset _) a ha
      next haloud =>
        exact absurd (show 0 < ((r.touch ch).set ch _).settings.muteLevel by rw [hset]; omega)
          haloud

/-- The end of the settle window is quiet at a level above 0. -/
theorem settled_quiet (hl : 1 ≤ r.settings.muteLevel) (ch : ChannelId)
    (focused : Option ChannelId) :
    ∀ a ∈ (r.settled s ch focused).2, a.Quiet r.settings.muteLevel := by
  unfold settled
  dsimp only
  split
  · exact fun a ha => absurd ha List.not_mem_nil
  · generalize hr : (r.set ch { r.get ch with settleArmed := false }).set ch
      { r.get ch with settleArmed := false, pending := [] } = r₁
    have hset : r₁.settings = r.settings := by rw [← hr]; rfl
    have hm := @maybeSummarize_config r₁ s ch ((r.get ch).pending ≠ []) focused
    have hrecap := maybeSummarize_quiet (s := s) (r := r₁) (by rw [hset]; exact hl) ch
      ((r.get ch).pending ≠ []) focused
    generalize r₁.maybeSummarize s ch ((r.get ch).pending ≠ []) focused = m at hm hrecap ⊢
    have hrest := quiet_of_mirrors (r := m.1) (f := enqueueAll ch m.2.2 (r.get ch).pending)
      (by rw [hm.settings, hset]; exact hl) fun r₀ h => enqueueAll_mirrors h _ _
    rw [hm.settings] at hrest
    rw [hset] at hrest hrecap
    intro a ha
    rcases List.mem_append.mp ha with ha | ha
    · exact hrecap a ha
    · exact hrest a ha

end Rules

/-- **While muted nothing is spoken or summarized**, and at level 2 nothing sounds. -/
theorem step_quiet (w : World) (i : Input) (hl : 1 ≤ w.rules.settings.muteLevel) :
    ∀ a ∈ (w.step s i).2, a.Quiet w.rules.settings.muteLevel := by
  have hnil : ∀ a ∈ ([] : List Action), a.Quiet w.rules.settings.muteLevel :=
    fun a ha => absurd ha List.not_mem_nil
  cases i with
  | call c =>
    show ∀ a ∈ (w.rules.call s c).2, _
    by_cases hset : ∃ n, c = .setMuteLevel n
    · obtain ⟨n, rfl⟩ := hset
      intro a ha
      have ha : a ∈ if 1 ≤ min n muteLevelMax then [Action.silence] else [] := ha
      split at ha
      · rw [List.mem_singleton.mp ha]
        trivial
      · cases ha
    · by_cases hnew : ∃ st, c = .setSettings st
      · obtain ⟨st, rfl⟩ := hnew
        exact hnil
      · have hc : ∀ l, c.atLevel l = c := fun l => by
          cases c <;> first | rfl | exact absurd ⟨_, rfl⟩ hnew
        refine quiet_of_mirrors (f := fun r => r.call s c) hl fun r₀ h => ?_
        have m := call_mirrors (s := s) (l := w.rules.settings.muteLevel) h c fun n h => hset ⟨n, h⟩
        rwa [hc, hc] at m
  | fire k focused =>
    unfold World.step
    dsimp only
    split
    next t _ =>
      show ∀ a ∈ (w.rules.fire s t focused).2, _
      cases t with
      | settle ch gen =>
        unfold fire
        dsimp only
        split
        · exact settled_quiet hl ch focused
        · exact hnil
      | holdCap ch decision =>
        exact quiet_of_mirrors (f := fun r => r.capped ch decision) hl fun r₀ h =>
          capped_mirrors h decision
      | watchdog seq =>
        exact quiet_of_mirrors (f := fun r => r.applyAll s (w.rules.buffer.expire seq)) hl
          fun r₀ h => applyAll_mirrors h _
      | leadIn ch gen =>
        unfold fire
        dsimp only
        split
        · exact quiet_of_mirrors (f := fun r => r.releaseLeadInWait ch) hl
            fun r₀ h => releaseLeadInWait_mirrors h
        · exact hnil
      | gap ch gen =>
        unfold fire
        dsimp only
        split
        · exact quiet_of_mirrors (f := fun r => r.releaseGap s ch) hl fun r₀ h =>
            releaseGap_mirrors h
        · exact hnil
    · exact hnil
  | answer k summary =>
    unfold World.step
    dsimp only
    split
    · exact quiet_of_mirrors (f := fun r => r.digestDone s _ summary) hl
        fun r₀ h => digestDone_mirrors h _ summary
    · exact hnil

/-- One input, with summaries off, at level 0 and at level `l`. -/
theorem step_mirrors {w : World} (h : w.rules.settings.muteLevel = 0)
    (hoff : w.rules.summaries = false) (i : Input) (hi : i.Keeps) :
    (w.step s (i.atLevel 0)).1.rules.settings.muteLevel = 0 ∧
      (w.step s (i.atLevel 0)).1.rules.summaries = false ∧
      ((w.atLevel l).step s (i.atLevel l)).1 = (w.step s (i.atLevel 0)).1.atLevel l ∧
      ((w.atLevel l).step s (i.atLevel l)).2 = render l (w.step s (i.atLevel 0)).2 := by
  have htook : ∀ {w : World} {p q : Rules × List Action}, Mirrors l p q →
      ((w.atLevel l).took q).1 = (w.took p).1.atLevel l ∧ ((w.atLevel l).took q).2 = render l
        (w.took p).2 := by
    rintro w ⟨p₁, po⟩ ⟨q₁, qo⟩ m
    obtain rfl : q₁ = p₁.atLevel l := m.state
    obtain rfl : qo = render l po := m.echoes.out
    have hasked : asked (render l po) = asked po :=
      render_filterMap _ l po (fun _ _ _ _ _ => rfl) (fun _ _ _ _ => rfl) fun _ => rfl
    have hjobs : dispatched (render l po) = dispatched po :=
      render_filterMap _ l po (fun _ _ _ _ _ => rfl) (fun _ _ _ _ => rfl) fun _ => rfl
    unfold World.took
    dsimp only
    rw [hasked, hjobs]
    exact ⟨rfl, rfl⟩
  cases i with
  | call c =>
    have hc : ∀ n, c ≠ .setMuteLevel n := fun n he => by
      subst he
      exact hi
    have m := call_mirrors (s := s) (l := l) h c hc
    refine ⟨m.audible, ?_, htook m⟩
    show (w.rules.call s (c.atLevel 0)).1.summaries = false
    cases c <;> first
      | exact (call_config _ id).summaries.trans hoff
      | exact hi.elim
      | exact hi
      | exact hoff
  | fire k focused =>
    unfold Input.atLevel World.step
    dsimp only
    have htimers : (w.atLevel l).timers = w.timers := rfl
    rw [htimers]
    split
    next t _ =>
      have m := fire_off (s := s) (l := l) h hoff t focused
      exact ⟨m.audible, (fire_config t focused).summaries.trans hoff,
        htook (w := { w with timers := w.timers.eraseIdx k }) m⟩
    · exact ⟨h, hoff, rfl, rfl⟩
  | answer k summary =>
    unfold Input.atLevel World.step
    dsimp only
    have hjobs : (w.atLevel l).jobs = w.jobs := rfl
    rw [hjobs]
    split
    next job _ =>
      have m := digestDone_mirrors (s := s) (l := l) h job summary
      exact ⟨m.audible, (digestDone_config job summary).summaries.trans hoff,
        htook (w := { w with jobs := w.jobs.eraseIdx k }) m⟩
    · exact ⟨h, hoff, rfl, rfl⟩

/-- **A run with summaries off is the same at any level**, its actions rendered. -/
theorem run_mirrors (settings : Settings) (hoff : settings.summaries.enabled = false)
    (is : List Input) (his : ∀ i ∈ is, i.Keeps) :
    let w := (machine s (settings.atLevel 0)).state (is.map (Input.atLevel 0))
    w.rules.settings.muteLevel = 0 ∧ w.rules.summaries = false ∧
      (machine s (settings.atLevel l)).state (is.map (Input.atLevel l)) = w.atLevel l := by
  induction is using List.reverseRecOn with
  | nil => exact ⟨rfl, hoff, rfl⟩
  | append_singleton is i ih =>
    obtain ⟨h, hsum, hstate⟩ := ih fun j hj => his j (List.mem_append_left _ hj)
    obtain ⟨h', hsum', hstep, -⟩ := step_mirrors (s := s) (l := l) h hsum i (his i (by simp))
    simp only [List.map_append, List.map_cons, List.map_nil, Lib.Machine.state_snoc, hstate]
    exact ⟨h', hsum', hstep⟩

/-- **Muting reads nothing and loses nothing.** While muted no input returns a `Speak` or
a `Summarize`, nor at level 2 an earcon; with summaries off a run at level 1 returns what
it returns at level 0, every `Speak` stored; and in the router a text stored read is never
fed unless the user goes back. -/
theorem muted_stored :
    (∀ (s : Speech) (settings : Settings) (is : List Input) (i : Input),
      1 ≤ ((machine s settings).state is).rules.settings.muteLevel →
      ∀ a ∈ (machine s settings).answer is i,
        a.Quiet ((machine s settings).state is).rules.settings.muteLevel) ∧
    (∀ (s : Speech) (settings : Settings) (is : List Input) (i : Input),
      settings.summaries.enabled = false → (∀ j ∈ is ++ [i], j.Keeps) →
      (machine s (settings.atLevel 1)).answer (is.map (Input.atLevel 1)) (i.atLevel 1) =
        ((machine s (settings.atLevel 0)).answer (is.map (Input.atLevel 0)) (i.atLevel 0)).map
          Action.stored) ∧
    ∀ (pre : List L2.Op) (a : ChannelId) (text : Text) (decision : Bool) (e : Nat)
    (seg : List L2.Op),
      ((L2.machine.state pre).append a text decision true).2 = some e →
      (∀ c, (L2.machine.state pre).channel a = some c → c.pending = 0) →
      (L2.machine.state pre).reading.map Prod.fst ≠ some a →
      (∀ op ∈ seg, op.StaysOn) →
      (∀ seg₁ id x seg₂, seg = seg₁ ++ .rewind id x :: seg₂ → x ≠ e ∨
        x ∈ (L2.machine.out (pre ++ .append a text decision true :: seg₁)).filterMap L2.Feed.id?) →
      e ∉ (L2.machine.out (pre ++ .append a text decision true :: seg)).filterMap L2.Feed.id? := by
  refine ⟨fun s settings is i hl => step_quiet _ i hl, fun s settings is i hoff hkeeps => ?_,
    fun pre a text decision e seg h hread hno hstay hrew =>
      (L2.Router.stored_unfed pre h hread hno seg hstay hrew).2⟩
  obtain ⟨h, hsum, hstate⟩ := run_mirrors (s := s) (l := 1) settings hoff is
    fun j hj => hkeeps j (List.mem_append_left _ hj)
  obtain ⟨-, -, -, hout⟩ := step_mirrors (s := s) (l := 1) h hsum i (hkeeps i (by simp))
  unfold Lib.Machine.answer
  rw [hstate, ← render_one]
  exact hout

/-- Muted, a message is stored; read aloud to nobody, the router feeds it to nobody. -/
theorem muted_stored_message :
    (∀ a ∈ (machine .ascii { muteLevel := 1 }).answer []
      (.call (.reply "c" none "Done.".toList none none)), a.Quiet 1) ∧
      1 ∉ (L2.machine.out
        ([.openChannel "c" none none none] ++
          .append "c" "Done.".toList false true :: [.nextFeed])).filterMap
          L2.Feed.id? := by
  refine ⟨muted_stored.1 .ascii { muteLevel := 1 } [] _ (Nat.le_refl 1), ?_⟩
  refine muted_stored.2.2 [.openChannel "c" none none none] "c" "Done.".toList false 1
    [.nextFeed] rfl ?_ ?_ ?_ ?_
  · intro c hc
    obtain rfl := Option.some.inj hc
    rfl
  · decide
  · intro op hop
    rw [List.mem_singleton.mp hop]
    trivial
  · intro seg₁ id x seg₂ hseg
    have hmem : L2.Op.rewind id x ∈ [L2.Op.nextFeed] :=
      hseg ▸ List.mem_append_right _ List.mem_cons_self
    cases List.mem_singleton.mp hmem

end Sonara.L3
