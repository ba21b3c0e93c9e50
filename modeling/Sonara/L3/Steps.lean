import Sonara.L3.Inputs

/-!
# Every input is a path of moves

`Rules.call_moves` collects the methods: a call is a path of moves whose licence drops
decisions of the channel of a `turn_start`, an `answered` or a `close`, and of every
channel for a `stop_all`. With the timers and the answers this gives
`World.step_moves`: an input that happens takes what it names from the world, and the
rest is a path of moves.
-/

namespace Sonara.L3

open Sonara
open Sonara.L2 (ChannelId)
open Sonara.Prose (Speech)

variable {L : Licence} {s : Speech} {r r' : Rules}

/-- What a call needs to keep decisions in order. -/
def Rules.CallsInOrder (s : Speech) (r : Rules) : Call → Prop
  | .ask ch a => r.AsksInOrder s ch a
  | .flush ch | .flushReady ch _ => r.FlushesOne ch
  | _ => True

/-- A call asks a decision in `ch`. -/
def Call.Asks (c : Call) (ch : ChannelId) : Prop := ∃ a, c = .ask ch a

/-- A call drops the decisions that wait in `ch`. -/
def Call.Drops : Call → ChannelId → Prop
  | .turnStart ch _ _, a | .answered ch, a | .close ch, a => a = ch
  | .stopAll, _ => True
  | _, _ => False

namespace Rules

theorem option_moves {o : Option (Rules × List Action)}
    (h : ∀ p, o = some p → Moves L r p.1 p.2) :
    Moves L r (o.getD (r, [])).1 (o.getD (r, [])).2 := by
  cases o with
  | none => exact .refl r
  | some p => exact h p rfl

/-- **A call is a path of moves.** -/
theorem call_moves (s : Speech) (r : Rules) (c : Call) (hok : L.orderly → r.CallsInOrder s c)
    (hask : ∀ ch, c.Asks ch → L.asks ch) (hdrop : ∀ ch, c.Drops ch → L.drops ch) :
    Moves L r (r.call s c).1 (r.call s c).2 := by
  cases c with
  | stream ch turn delta index fin t => exact option_moves fun p h => (stream_arms h).moves
  | leadIn ch turn delta t => exact option_moves fun p h => takeLeadIn_moves h
  | lateLeadIn ch turn delta id t => exact option_moves fun p h => takeLeadIn_moves h
  | reply ch turn text before t =>
    show Moves L r ((r.reply ch turn text before t).getD r) []
    cases h : r.reply ch turn text before t with
    | none => exact .refl r
    | some r' => exact (reply_calm h).moves
  | turnStart ch turn t => exact option_moves fun p h => turnStart_moves h (hdrop ch rfl)
  | turnEnd ch turn t => exact option_moves fun p h => (turnEnd_arms h).moves
  | ask ch a => exact ask_moves s (hask ch ⟨a, rfl⟩) a hok
  | tool ch name summary => exact (tool_arms s ch name summary).moves
  | answered ch => exact answered_moves ch (hdrop ch rfl)
  | stopAll => exact stopAll_moves fun ch => hdrop ch trivial
  | flush ch => exact flush_moves ch hok
  | flushReady ch queued => exact flushReady_moves ch queued hok
  | takeNewTurn ch => exact takeNewTurn_calm.moves
  | close ch => exact close_moves ch (hdrop ch rfl)
  | play e => exact (Calm.emit (earcon_plain e)).moves
  | reviewLine ch =>
    have h : Plain (r.reviewLine ch) := speak_plain ch _ .review
    exact (Calm.emit h).moves
  | setMuteLevel level =>
    refine .single (still_move (fun _ => rfl) rfl rfl ?_)
    show Plain (if 1 ≤ min level muteLevelMax then [.silence] else [])
    split
    · exact ⟨rfl, rfl, fun _ => List.not_mem_nil⟩
    · exact .nil
  | setWholeMessages on => exact .single (still_move (fun _ => rfl) rfl rfl .nil)
  | setSettings settings => exact .single (still_move (fun _ => rfl) rfl rfl .nil)
  | bindQuestion ch entry stored => exact (bindQuestion_steered entry stored).calm.moves
  | questionShown ch shown => exact (questionShown_steered s shown).calm.moves
  | navigate ch step started => exact (navigate_steered step started).calm.moves
  | questionsUnheard ch => exact questionsUnheard_steered.calm.moves
  | rewindQuestions ch => exact rewindQuestions_steered.calm.moves

/-! ## The timers that are needed -/

/-- The rules rely on the timer: without it a decision or a slot could wait for ever. -/
def Needs (r : Rules) : Timer → Prop
  | .settle ch g => (r.waiting ch).settle = some g
  | .leadIn ch g => (r.waiting ch).lead = some g
  | .holdCap ch d => ∃ item ∈ (r.waiting ch).held, item.id = d
  | .watchdog seq => seq ∈ r.buffer.watched
  | .gap _ _ => False

end Rules

/-- A channel's wait relies on no new timer that is not asked for. -/
theorem Change.timers {ch : ChannelId} {out : List Action} {n n' : Nat} {w w' : Waiting}
    (h : Change L ch out n w n' w') :
    (∀ g, w'.settle = some g → w.settle = some g ∨ .settle ch g ∈ L3.asked out) ∧
    (∀ g, w'.lead = some g → w.lead = some g ∨ .leadIn ch g ∈ L3.asked out) ∧
    (∀ d ∈ w'.held, d ∈ w.held ∨ .holdCap ch d.id ∈ L3.asked out) := by
  have harmed : ∀ {settle : Option Nat}, Rearmed ch out w.settle settle →
      ∀ g, settle = some g → w.settle = some g ∨ .settle ch g ∈ L3.asked out := by
    intro settle hs g hg
    rcases hs with rfl | ⟨g', rfl, hm⟩
    · exact .inl hg
    · cases hg
      exact .inr hm
  have hspill : ∀ {w₀ : Waiting} {ds : List Decision}, Spill ch out ds w₀ w' → w₀.held = w.held →
      ∀ d ∈ w'.held, d ∈ w.held ∨ .holdCap ch d.id ∈ L3.asked out := by
    intro w₀ ds hs hheld d hd
    rw [← hheld]
    cases hs with
    | held busy mute capped =>
      rcases List.mem_append.mp hd with hd | hd
      · exact .inl hd
      · exact .inr (capped d hd)
    | spoken free voiced => exact .inl hd
  cases h with
  | calm mute armed => exact ⟨harmed armed, fun g h => .inl h, fun d h => .inl h⟩
  | asked asks mute id armed waits wait =>
    refine ⟨harmed armed, fun g h => ?_, fun d h => .inl h⟩
    rcases waits with rfl | ⟨g', rfl, hm⟩
    · exact .inl h
    · cases h
      exact .inr hm
  | atOnce asks id orderly spill =>
    exact ⟨fun g h => .inl (spill.frame.1 ▸ h), fun g h => .inl (spill.frame.2 ▸ h),
      hspill spill rfl⟩
  | leadSettles mute armed =>
    refine ⟨fun g h => ?_, fun g h => (nomatch h), fun d h => .inl h⟩
    cases h
    exact .inr armed
  | leadGone spill =>
    refine ⟨fun g h => .inl (spill.frame.1 ▸ h), fun g h => ?_, hspill spill rfl⟩
    rw [spill.frame.2] at h
    cases h
  | settleWaits lead mute => exact ⟨fun g h => (nomatch h), fun g h => .inl h, fun d h => .inl h⟩
  | settles busy spill =>
    refine ⟨fun g h => ?_, fun g h => .inl (spill.frame.2 ▸ h), hspill spill rfl⟩
    rw [spill.frame.1] at h
    cases h
  | capped voiced => exact ⟨fun g h => .inl h, fun g h => .inl h, fun d h => (nomatch h)⟩
  | answered kept mine orderly =>
    refine ⟨fun g h => .inl h, fun g h => .inl h, fun d h => ?_⟩
    rcases mine with ⟨rfl, -⟩ | ⟨rfl, -⟩
    · cases h
    · exact .inl h
  | flushed voiced orderly =>
    exact ⟨fun g h => (nomatch h), fun g h => (nomatch h), fun d h => (nomatch h)⟩
  | dropped drops mute =>
    exact ⟨fun g h => (nomatch h), fun g h => (nomatch h), fun d h => (nomatch h)⟩

/-- The buffer watches no new slot without its timer. -/
theorem Slots.watched {out : List Action} {b b' : Lib.Reorder Release} (h : Slots L out b b')
    (ok : b.Ok) {seq : Nat} (hw : seq ∈ b'.watched) :
    seq ∈ b.watched ∨ .watchdog seq ∈ asked out := by
  cases h with
  | same none => exact .inl hw
  | short none rel => exact .inl (Lib.Reorder.allocLand_watched hw)
  | leadIn sent slot dogs => exact .inl hw
  | turnEnd sent slot dogs rel =>
    rcases Lib.Reorder.watch_watched hw with he | hw
    · exact .inr ((dogs seq).mpr he)
    · exact .inl hw
  | land lands none rel => exact .inl (ok.land_watched hw).1
  | expire none seq => exact .inl (Lib.Reorder.expire_watched hw).1

/-- **A move needs no timer that it did not need or ask for.** -/
theorem Move.needs {out : List Action} (m : Move L r r' out) (ok : r.buffer.Ok) {t : Timer}
    (h : r'.Needs t) : r.Needs t ∨ t ∈ asked out := by
  obtain ⟨⟨ch, hothers, hchange⟩, hslots⟩ := m
  obtain ⟨hsettle, hlead, hheld⟩ := hchange.timers
  cases t with
  | settle a g =>
    by_cases ha : a = ch
    · subst ha
      exact hsettle g h
    · exact .inl ((congrArg Waiting.settle (hothers a ha)).symm.trans h)
  | leadIn a g =>
    by_cases ha : a = ch
    · subst ha
      exact hlead g h
    · exact .inl ((congrArg Waiting.lead (hothers a ha)).symm.trans h)
  | holdCap a d =>
    obtain ⟨item, hitem, rfl⟩ := h
    by_cases ha : a = ch
    · subst ha
      exact (hheld item hitem).imp_left fun hm => ⟨item, hm, rfl⟩
    · exact .inl ⟨item, hothers a ha ▸ hitem, rfl⟩
  | watchdog seq => exact hslots.watched ok h
  | gap a g => exact absurd h not_false

namespace Rules

/-- A timer that fired is not needed any more. -/
theorem fire_spent (s : Speech) (t : Timer) (focused : Option ChannelId) :
    ¬(r.fire s t focused).1.Needs t := by
  cases t with
  | settle ch g =>
    unfold fire
    dsimp only
    split
    · intro h
      -- The window that elapsed is armed no more.
      have hnone := (settled_move (L := ⟨True, fun _ => True, fun _ => True, fun _ => True⟩)
        (r := r) s ch focused).2
      exact nomatch hnone.symm.trans h
    next hn =>
      intro h
      refine hn ?_
      have hs : (if (r.get ch).settleArmed then some (r.get ch).settleGen else none) = some g := h
      split at hs
      next harmed =>
        cases hs
        unfold get at harmed ⊢
        cases hc : r.turns[ch]? with
        | none => simp [hc] at harmed
        | some c => simpa [hc] using harmed
      · cases hs
  | leadIn ch g =>
    unfold fire
    dsimp only
    split
    · intro h
      have hnone := (releaseLeadInWait_move (L := ⟨True, fun _ => True, fun _ => True,
        fun _ => True⟩) (r := r) ch).2
      exact nomatch hnone.symm.trans h
    next hn =>
      intro h
      refine hn ?_
      have hs : (r.get ch).leadInWait.map LeadInWait.gen = some g := h
      unfold get at hs
      cases hc : r.turns[ch]? with
      | none => simp [hc] at hs
      | some c =>
        rw [hc] at hs
        obtain ⟨lw, hlw, rfl⟩ := Option.map_eq_some_iff.mp hs
        have hlw : c.leadInWait = some lw := hlw
        simp [hlw]
  | holdCap ch d =>
    rintro ⟨item, hitem, rfl⟩
    unfold fire capped at hitem
    dsimp only at hitem
    have hget : ∀ c, r.turns[ch]? = some c → (r.waiting ch).held = c.heldItems := by
      intro c hc
      unfold waiting get
      rw [hc]
      rfl
    split at hitem
    next c hc =>
      split at hitem
      next owner items hheld =>
        split at hitem
        · rw [waiting_set_self] at hitem
          cases hitem
        next hany =>
          rw [hget c hc, Turn.heldItems, hheld] at hitem
          exact hany (List.any_eq_true.mpr ⟨item, hitem, by simp⟩)
      next hheld =>
        rw [hget c hc, Turn.heldItems, hheld] at hitem
        cases hitem
    next hc =>
      unfold waiting get at hitem
      rw [hc] at hitem
      cases hitem
  | watchdog seq => exact fun h => (Lib.Reorder.expire_watched h).2 rfl
  | gap ch g => exact not_false

end Rules

/-! ## The world -/

/-- An input asks a decision in `ch`. -/
def Input.Asks : Input → ChannelId → Prop
  | .call c => c.Asks
  | _ => fun _ => False

/-- An input drops the decisions that wait in `ch`. -/
def Input.Drops : Input → ChannelId → Prop
  | .call c => c.Drops
  | _ => fun _ => False

namespace World

variable (s : Speech) (w : World)

/-- An input keeps decisions in order. -/
def InOrder : Input → Prop
  | .call c => w.rules.CallsInOrder s c
  | .fire _ _ => True
  | .answer k _ => ∀ job, w.jobs[k]? = some job → w.rules.AnswersLast job

def licence (i : Input) : Licence where
  orderly := w.InOrder s i
  asks := i.Asks
  drops := i.Drops
  lands seq := ∃ job ∈ w.jobs, job.seq = some seq

/-- **An input is a path of moves.** It takes at most one timer, no longer needed, and
one job. -/
theorem step_moves (i : Input) : ∃ timers jobs,
    (w.step s i).1.timers = timers ++ asked (w.step s i).2 ∧
    (w.step s i).1.jobs = jobs ++ dispatched (w.step s i).2 ∧
    (∀ t ∈ w.timers, t ∈ timers ∨ ¬(w.step s i).1.rules.Needs t) ∧
    (∀ job ∈ jobs, job ∈ w.jobs) ∧
    Moves (w.licence s i) w.rules (w.step s i).1.rules (w.step s i).2 := by
  cases i with
  | call c =>
    exact ⟨w.timers, w.jobs, rfl, rfl, fun t ht => .inl ht, fun job h => h,
      Rules.call_moves s w.rules c id (fun _ h => h) (fun _ h => h)⟩
  | fire k focused =>
    unfold step
    dsimp only
    split
    next t ht =>
      refine ⟨w.timers.eraseIdx k, w.jobs, rfl, rfl, fun t' ht' => ?_, fun job h => h,
        Rules.fire_moves s t focused⟩
      by_cases he : t' = t
      · rw [he]
        exact .inr (Rules.fire_spent s t focused)
      · left
        obtain ⟨j, hj, rfl⟩ := List.mem_iff_getElem.mp ht'
        refine List.mem_eraseIdx_iff_getElem.mpr ⟨j, hj, fun hjk => he ?_, rfl⟩
        subst hjk
        exact Option.some.inj ((List.getElem?_eq_getElem hj).symm.trans ht)
    · exact ⟨w.timers, w.jobs, (List.append_nil _).symm, (List.append_nil _).symm,
        fun t ht => .inl ht, fun job h => h, .refl w.rules⟩
  | answer k summary =>
    unfold step
    dsimp only
    split
    next job hjob =>
      have hmem : job ∈ w.jobs := List.mem_of_getElem? hjob
      exact ⟨w.timers, w.jobs.eraseIdx k, rfl, rfl, fun t ht => .inl ht,
        fun _ h => List.mem_of_mem_eraseIdx h,
        Rules.digestDone_moves s job summary (fun ho => ho job hjob)
          fun seq hseq => ⟨job, hmem, hseq⟩⟩
    · exact ⟨w.timers, w.jobs, (List.append_nil _).symm, (List.append_nil _).symm,
        fun t ht => .inl ht, fun job h => h, .refl w.rules⟩

end World

end Sonara.L3
