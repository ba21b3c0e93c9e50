import Sonara.L3.Gens
import Mathlib.Data.List.Induction

/-!
# Inputs as turnovers

A call ages channels one after the other, or closes one (`Turnover`); so does a timer and
an answer. Along a path of turnovers every stamp was there before or is fresh, so a
generation stamps one channel only in a whole run (`state_counted`), and a channel that
is renewed (`Fresh`) has no stamp of before for the rest of the run (`stateFrom_stamps`).
An input that neither gives out nor serves a slot of the summaries leaves the slots
alone and speaks no release (`Turnovers.still`).
-/

namespace Sonara.L3

open Sonara Text
open Sonara.L2 (ChannelId)
open Sonara.Prose (Speech)

namespace Rules

variable {r r' r'' : Rules} {s : Speech} {ch : ChannelId} {out o : List Action} {L : Leave}

/-! ## Stamps over several methods -/

/-- One method ages its channel, or the channel is closed. -/
inductive Turnover (L : Leave) : Rules → Rules → List Action → Prop
  | ages {ch : ChannelId} {r r' : Rules} {out : List Action} (a : Ages L ch r r' out) :
    Turnover L r r' out
  | close (hL : L.starts) (r : Rules) (ch : ChannelId) : Turnover L r (r.close ch) []

abbrev Turnovers (L : Leave) : Rules → Rules → List Action → Prop := Lib.Path (Turnover L)

theorem Ages.turnovers (a : Ages L ch r r' out) : Turnovers L r r' out := .single (.ages a)

/-- Stamps are given out before, each to one channel. -/
structure Counted (r : Rules) : Prop where
  stamps : ∀ {ch g}, r.Stamps ch g → g ≤ r.nextGen
  apart : ∀ {a b g}, r.Stamps a g → r.Stamps b g → a = b
  buffer : ∀ {rel}, r.buffer.Holds rel → rel.gen ≤ r.nextGen

/-- The timers and the jobs asked for have a generation up to `n`. -/
structure Within (n : Nat) (timers : List Timer) (jobs : List Job) : Prop where
  timers : ∀ {t g}, t ∈ timers → t.gen? = some g → g ≤ n
  jobs : ∀ {j}, j ∈ jobs → j.gen ≤ n

theorem Within.mono {n n' : Nat} {ts : List Timer} {js : List Job} (h : Within n ts js)
    (hn : n ≤ n') :
    Within n' ts js :=
  ⟨fun ht hg => (h.timers ht hg).trans hn, fun hj => (h.jobs hj).trans hn⟩

theorem Within.append {n : Nat} {ts us : List Timer} {js ks : List Job} (h : Within n ts js)
    (h' : Within n us ks) : Within n (ts ++ us) (js ++ ks) where
  timers ht hg := by
    rcases List.mem_append.mp ht with ht | ht
    · exact h.timers ht hg
    · exact h'.timers ht hg
  jobs hj := by
    rcases List.mem_append.mp hj with hj | hj
    · exact h.jobs hj
    · exact h'.jobs hj

theorem stamps_congr {b : ChannelId} {g : Nat} (h : r'.turns[b]? = r.turns[b]?) :
    r'.Stamps b g ↔ r.Stamps b g := by
  unfold Stamps get
  rw [Std.ExtTreeMap.mem_iff_isSome_getElem?, Std.ExtTreeMap.mem_iff_isSome_getElem?, h]

theorem close_get? {b : ChannelId} (h : b ≠ ch) : (r.close ch).turns[b]? = r.turns[b]? := by
  unfold close
  dsimp only
  rw [Std.ExtTreeMap.getElem?_erase, if_neg]
  simpa using Ne.symm h

theorem close_not_mem : ch ∉ (r.close ch).turns := by
  unfold close
  simp

theorem close_stamps {a : ChannelId} {g : Nat} (h : (r.close ch).Stamps a g) : r.Stamps a g := by
  by_cases ha : a = ch
  · subst ha
    exact absurd h.1 close_not_mem
  · exact (stamps_congr (close_get? ha)).mp h

/-- A stamp after a method was one before it, or is new. -/
theorem Turnover.stamps {a : ChannelId} {g : Nat} (m : Turnover L r r' out) (h : r'.Stamps a g) :
    r.Dates r'.nextGen a g := by
  cases m with
  | @ages ch _ _ _ m =>
    by_cases ha : a = ch
    · subst ha
      exact m.stamps h
    · exact .inl ((stamps_congr (m.frame ha)).mp h)
  | close hL r ch => exact .inl (close_stamps h)

theorem Turnover.mono (m : Turnover L r r' out) : r.nextGen ≤ r'.nextGen := by
  cases m with
  | ages m => exact m.mono
  | close hL r ch => exact Nat.le_refl _

/-- **One method keeps the count of the generations**, and asks for nothing it did not
count, if the release it brings back was counted. -/
theorem Turnover.counted (m : Turnover L r r' out)
    (hret : ∀ rel, L.returns rel → rel.gen ≤ r.nextGen)
    (h : r.Counted) : r'.Counted ∧ Within r'.nextGen (asked out) (dispatched out) := by
  have hmono := m.mono
  have hdates : ∀ {a g}, r.Dates r'.nextGen a g → g ≤ r'.nextGen := by
    intro a g hg
    rcases hg with hg | hg
    · exact (h.stamps hg).trans hmono
    · exact hg.2
  refine ⟨⟨fun hg => hdates (m.stamps hg), fun {a b g} ha hb => ?_, fun {rel} hrel => ?_⟩, ?_⟩
  · -- A new stamp is larger than every old one, and new ones are all the channel's.
    cases m with
    | @ages ch _ _ _ m =>
      have hold : ∀ {a}, a ≠ ch → r'.Stamps a g → r.Stamps a g :=
        fun hne h => (stamps_congr (m.frame hne)).mp h
      by_cases hach : a = ch
      · by_cases hbch : b = ch
        · rw [hach, hbch]
        · have hb := hold hbch hb
          subst hach
          rcases m.stamps ha with ha | ⟨hlt, -⟩
          · exact h.apart ha hb
          · exact absurd (h.stamps hb) (Nat.not_le.mpr hlt)
      · have ha := hold hach ha
        by_cases hbch : b = ch
        · subst hbch
          rcases m.stamps hb with hb | ⟨hlt, -⟩
          · exact h.apart ha hb
          · exact absurd (h.stamps ha) (Nat.not_le.mpr hlt)
        · exact h.apart ha (hold hbch hb)
    | close hL r ch => exact h.apart (close_stamps ha) (close_stamps hb)
  · cases m with
    | ages m =>
      rcases m.buffer hrel with hrel | hrel | ⟨-, hrel⟩
      · exact (h.buffer hrel).trans hmono
      · exact (hret rel hrel).trans hmono
      · exact hdates hrel
    | close hL r ch => exact h.buffer hrel
  · cases m with
    | ages m => exact ⟨m.timers, fun hj => hdates (m.jobs hj).2⟩
    | close hL r ch =>
      exact ⟨fun ht => absurd ht List.not_mem_nil, fun hj => absurd hj List.not_mem_nil⟩

theorem Turnovers.mono (p : Turnovers L r r' out) : r.nextGen ≤ r'.nextGen :=
  p.lift (R := fun r r' _ => r.nextGen ≤ r'.nextGen) (fun _ => Nat.le_refl _)
    fun h m => h.trans m.mono

theorem Turnovers.stamps {a : ChannelId} {g : Nat} (p : Turnovers L r r' out) (h : r'.Stamps a g) :
    r.Dates r'.nextGen a g := by
  refine (p.lift (R := fun r r' _ => r.nextGen ≤ r'.nextGen ∧ ∀ a g, r'.Stamps a g →
    r.Dates r'.nextGen a g)
    (fun _ => ⟨Nat.le_refl _, fun _ _ h => .inl h⟩) ?_).2 a g h
  intro r₀ r₁ r₂ out o ⟨hmono, hold⟩ m
  refine ⟨hmono.trans m.mono, fun a g h => ?_⟩
  rcases m.stamps h with h | ⟨hlt, hle⟩
  · exact (hold a g h).mono m.mono
  · exact .inr ⟨Nat.lt_of_le_of_lt hmono hlt, hle⟩

/-- A path of turnovers stamps within the generations given out. -/
theorem Turnovers.counted (p : Turnovers L r r' out)
    (hret : ∀ rel, L.returns rel → rel.gen ≤ r.nextGen)
    (h : r.Counted) : r'.Counted ∧ Within r'.nextGen (asked out) (dispatched out) := by
  refine (p.lift (R := fun r r' out => r.nextGen ≤ r'.nextGen ∧
    ((∀ rel, L.returns rel → rel.gen ≤ r.nextGen) → r.Counted →
      r'.Counted ∧ Within r'.nextGen (asked out) (dispatched out)))
      (fun r => ⟨Nat.le_refl _, fun _ h => ⟨h,
        fun ht => absurd ht List.not_mem_nil, fun hj => absurd hj List.not_mem_nil⟩⟩) ?_).2 hret h
  intro r₀ r₁ r₂ out o ⟨hmono, ih⟩ m
  refine ⟨hmono.trans m.mono, fun hret h => ?_⟩
  obtain ⟨hcount, hwithin⟩ := ih hret h
  obtain ⟨hcount', hwithin'⟩ := m.counted (fun rel hrel => (hret rel hrel).trans hmono) hcount
  refine ⟨hcount', ?_⟩
  rw [asked_append, dispatched_append]
  exact (hwithin.mono m.mono).append hwithin'

/-- Where no turn starts and no channel is closed, the clocks stand. -/
theorem Turnovers.clock (p : Turnovers L r r' out) (hL : ¬L.starts) (a : ChannelId) :
    r'.clock a = r.clock a := by
  refine p.lift (R := fun r r' _ => r'.clock a = r.clock a) (fun _ => rfl) ?_
  intro r₀ r₁ r₂ out o ih m
  refine Eq.trans ?_ ih
  cases m with
  | @ages ch _ _ _ m =>
    by_cases ha : a = ch
    · subst ha
      exact m.clock hL
    · unfold Rules.clock get
      rw [m.frame ha]
  | close hs => exact absurd hs hL

/-- What neither gives out nor serves a slot leaves the slots alone and speaks no
release. -/
theorem Turnovers.still (p : Turnovers L r r' out) (hL : ¬L.serves) : Still r r' out := by
  refine p.lift (R := fun r r' out => Still r r' out) (fun r => .refl r) ?_
  intro r₀ r₁ r₂ out o ih m
  refine ih.trans ?_
  cases m with
  | ages m => exact m.still hL
  | close hs r ch => exact ⟨rfl, rfl, (Still.refl r).bare⟩

/-! ## Turns renewed -/

/-- The channel has no stamp up to `n`. -/
def Renewed (n : Nat) (ch : ChannelId) (r : Rules) : Prop := ∀ g, r.Stamps ch g → n < g

/-- A release of a renewed turn's channel is dropped. -/
theorem Renewed.apply {n : Nat} (h : Renewed n ch r) {rel : Release} (hch : rel.channel = ch)
    (hgen : rel.gen ≤ n) : r.apply s rel = [] := by
  unfold Rules.apply
  rw [if_neg]
  intro hg
  obtain ⟨c, hc, hcg⟩ := Option.map_eq_some_iff.mp hg
  obtain ⟨hmem, hget⟩ := mem_of_get? hc
  rw [hch] at hmem hget
  have hlt := h rel.gen ⟨hmem, .inl (by rw [hget, hcg])⟩
  omega

/-- A settle window or a lead-in wait of before a renewal does nothing when it elapses. -/
theorem Renewed.fire {n : Nat} (h : Renewed n ch r) {timer : Timer} {g : Nat}
    (ht : timer = .settle ch g ∨ timer = .leadIn ch g) (hgen : g ≤ n) (focused : Option ChannelId) :
    r.fire s timer focused = (r, []) := by
  unfold Rules.fire
  rcases ht with rfl | rfl
  · dsimp only
    rw [if_neg]
    intro hany
    cases hc : r.turns[ch]? with
    | none =>
      rw [hc] at hany
      cases hany
    | some c =>
      obtain ⟨hmem, hget⟩ := mem_of_get? hc
      rw [hc, Option.any_some, Bool.and_eq_true, beq_iff_eq] at hany
      have hlt := h g ⟨hmem, .inr (.inl (by rw [hget]; exact ⟨hany.2, hany.1.symm⟩))⟩
      omega
  · dsimp only
    rw [if_neg]
    intro hany
    cases hc : r.turns[ch]? with
    | none =>
      rw [hc] at hany
      cases hany
    | some c =>
      obtain ⟨hmem, hget⟩ := mem_of_get? hc
      rw [hc, Option.any_some] at hany
      cases hw : c.leadInWait with
      | none =>
        rw [hw] at hany
        cases hany
      | some w =>
        rw [hw, Option.any_some, beq_iff_eq] at hany
        have hlt := h g ⟨hmem, .inr (.inr ⟨w, by rw [hget]; exact hw, hany.symm⟩)⟩
        omega

/-- Nothing of the channel's summary work is left: no decision waits, no prose is kept,
no window is open. -/
def Cleared (ch : ChannelId) (r : Rules) : Prop :=
  ∀ c, r.turns[ch]? = some c → c.pending = [] ∧ c.held = none ∧ c.leadInWait = none ∧
    c.settleArmed = false ∧ c.prose.drop c.voiced = []

theorem stopAll_turnovers : Turnovers L r r.stopAll [] := by
  unfold stopAll
  generalize r.channels = chs
  induction chs generalizing r with
  | nil => exact .refl r
  | cons ch chs ih =>
    have hone : Ages L ch r ((r.modify ch fun c => { c with awaiting := false }).catchUp ch).1 [] :=
      Ages.andThen (modify_ages fun _ => by exact ⟨id, rfl⟩) catchUp_ages
    exact hone.turnovers.trans ih

/-- Nothing of before `n` is left in the channel. -/
structure Fresh (n : Nat) (ch : ChannelId) (r : Rules) : Prop where
  renewed : Renewed n ch r
  cleared : r.Cleared ch

theorem getD_turnovers {p : Option (Rules × List Action)}
    (h : ∀ q, p = some q → Ages L ch r q.1 q.2) :
    Turnovers L r (p.getD (r, [])).1 (p.getD (r, [])).2 := by
  cases p with
  | none => exact .refl r
  | some q => exact (h q rfl).turnovers

theorem Steered.ages (h : Steered r r') : Turnovers L r r' [] := by
  induction h with
  | refl => exact .refl _
  | @set r' ch c h hc questions readSet hinted ih =>
    obtain ⟨hmem, rfl⟩ := mem_of_get? hc
    have hset : Ages L ch r' (r'.set ch { r'.get ch with
      questions := questions, readSet := readSet, hinted := hinted }) [] := set_ages hmem ⟨id, rfl⟩
    exact ih.thenSilent hset.turnovers

/-- The call starts a turn or closes a channel. -/
def Starts : Call → Prop
  | .turnStart _ _ _ | .close _ => True
  | _ => False

/-- A call turns a channel over only where it starts a turn, or closes it. -/
theorem call_turnovers (c : Call) : Turnovers ⟨fun _ => False, Starts c, False⟩ r (r.call s c).1
    (r.call s c).2 := by
  have set : ∀ (settings : Settings) (whole : Bool), Ages ⟨fun _ => False, Starts c, False⟩ "" r
      { r with settings := settings, whole := whole } [] := fun settings whole =>
    { @Ages.refl "" _ r with still := fun _ => ⟨rfl, rfl, (Still.refl r).bare⟩ }
  cases c with
  | stream ch turn delta index fin t => exact getD_turnovers fun p h => stream_ages h
  | leadIn ch turn delta t => exact getD_turnovers fun p h => takeLeadIn_ages h
  | lateLeadIn ch turn delta id t => exact getD_turnovers fun p h => takeLeadIn_ages h
  | reply ch turn text before t =>
    show Turnovers _ r ((r.reply ch turn text before t).getD r) []
    unfold reply
    split
    · exact .refl r
    · rw [Option.getD_some]
      exact Ages.turnovers (modify_ages fun _ => by exact ⟨id, rfl⟩)
  | turnStart ch turn t => exact getD_turnovers fun p h => turnStart_ages trivial h
  | turnEnd ch turn t => exact getD_turnovers fun p h => turnEnd_ages h
  | ask ch a => exact (ask_ages a).turnovers
  | tool ch name summary => exact (tool_ages name summary).turnovers
  | answered ch => exact (answered_ages).turnovers
  | stopAll => exact stopAll_turnovers
  | flush ch => exact (flush_ages).turnovers
  | flushReady ch queued => exact (flushReady_ages queued).turnovers
  | takeNewTurn ch => exact (takeNewTurn_ages).turnovers
  | close ch => exact .single (.close trivial r ch)
  | play e => exact ((@Ages.refl "" _ r).emit (earcon_idle e)).turnovers
  | reviewLine ch =>
    have hidle : Idle (r.reviewLine ch) := speak_idle _ none fun _ => by decide
    exact ((@Ages.refl ch _ r).emit hidle).turnovers
  | setMuteLevel level =>
    refine Ages.turnovers
      (Ages.emit (set { r.settings with muteLevel := min level muteLevelMax } r.whole) ?_)
    show Idle (if 1 ≤ min level muteLevelMax then [.silence] else [])
    split
    · exact .one ⟨rfl, rfl⟩ not_false
    · exact .nil
  | setWholeMessages on => exact (set r.settings on).turnovers
  | setSettings settings => exact (set settings r.whole).turnovers
  | bindQuestion ch entry stored => exact (bindQuestion_steered entry stored).ages
  | questionShown ch shown => exact (questionShown_steered s shown).ages
  | navigate ch step started => exact (navigate_steered step started).ages
  | questionsUnheard ch => exact questionsUnheard_steered.ages
  | rewindQuestions ch => exact rewindQuestions_steered.ages

end Rules

/-! ## Runs -/

namespace World

variable {s : Speech} {w : World} {ch : ChannelId}

/-- One input is a path of turnovers; what waits after it waited before or is asked for. -/
theorem step_turnovers (w : World) (i : Input) :
    ∃ L : Leave, (∀ rel, L.returns rel → ∃ j ∈ w.jobs, rel.gen = j.gen) ∧
      (L.starts ↔ ∃ c, i = .call c ∧ Rules.Starts c) ∧
      Rules.Turnovers L w.rules (w.step s i).1.rules (w.step s i).2 ∧
      (w.step s i).1.timers ⊆ w.timers ++ asked (w.step s i).2 ∧
      (w.step s i).1.jobs ⊆ w.jobs ++ dispatched (w.step s i).2 := by
  have hrefl : ∀ L : Leave, Rules.Turnovers L w.rules w.rules [] := fun L => .refl _
  have hquiet : ∀ {j : Input}, (∀ c, j ≠ .call c) → (False ↔ ∃ c, j = .call c ∧ Rules.Starts c) :=
      fun h =>
    ⟨False.elim, fun ⟨c, he, _⟩ => h c he⟩
  have herase : ∀ {α : Type} (xs ys : List α) (k : Nat), xs.eraseIdx k ++ ys ⊆ xs ++ ys :=
      fun xs ys k =>
    List.append_subset.mpr ⟨fun x hx => List.mem_append_left _ (List.mem_of_mem_eraseIdx hx),
      List.subset_append_right _ _⟩
  cases i with
  | call c =>
    refine ⟨⟨fun _ => False, Rules.Starts c, False⟩, fun _ h => h.elim, ⟨fun h => ⟨c, rfl, h⟩, ?_⟩,
      Rules.call_turnovers c, fun x hx => hx, fun x hx => hx⟩
    rintro ⟨c', he, hc⟩
    exact Input.call.inj he ▸ hc
  | fire k focused =>
    unfold step
    dsimp only
    split
    next t _ =>
      obtain ⟨ch, hages⟩ := Rules.fire_ages (L := ⟨fun _ => False, False, True⟩) (s := s)
        (r := w.rules) t (fun _ => trivial) focused
      exact ⟨⟨fun _ => False, False, True⟩, fun _ h => h.elim, hquiet (fun _ => nofun),
        hages.turnovers,
        herase _ _ k, fun x hx => hx⟩
    · exact ⟨⟨fun _ => False, False, False⟩, fun _ h => h.elim, hquiet (fun _ => nofun), hrefl _,
        List.subset_append_left _ _, List.subset_append_left _ _⟩
  | answer k summary =>
    unfold step
    dsimp only
    split
    next job hj =>
      refine ⟨⟨fun rel => rel.gen = job.gen, False, True⟩,
        fun rel h => ⟨job, List.mem_of_getElem? hj, h⟩, hquiet (fun _ => nofun),
        (Rules.digestDone_ages trivial job summary rfl).turnovers, fun x hx => hx, herase _ _ k⟩
    · exact ⟨⟨fun _ => False, False, False⟩, fun _ h => h.elim, hquiet (fun _ => nofun), hrefl _,
        List.subset_append_left _ _, List.subset_append_left _ _⟩

/-- The generations out there are counted. -/
structure Counted (w : World) : Prop where
  rules : w.rules.Counted
  within : Rules.Within w.rules.nextGen w.timers w.jobs

theorem step_counted (h : w.Counted) (i : Input) : (w.step s i).1.Counted := by
  obtain ⟨L, hret, -, path, htimers, hjobs⟩ := step_turnovers (s := s) w i
  have hgen : ∀ rel, L.returns rel → rel.gen ≤ w.rules.nextGen := by
    intro rel hrel
    obtain ⟨j, hj, he⟩ := hret rel hrel
    exact he ▸ h.within.jobs hj
  obtain ⟨hcount, hout⟩ := path.counted hgen h.rules
  have hwithin := (h.within.mono path.mono).append hout
  exact ⟨hcount, fun ht hg => hwithin.timers (htimers ht) hg, fun hj => hwithin.jobs (hjobs hj)⟩


end World

variable {s : Speech} {settings : Settings} {ch : ChannelId}

theorem state_counted (s : Speech) (settings : Settings) (is : List Input) :
    ((machine s settings).state is).Counted := by
  have hempty : ∀ {a : ChannelId}, a ∉ (∅ : Std.ExtTreeMap ChannelId Turn) :=
    Std.ExtTreeMap.not_mem_empty
  refine (machine s settings).run_induction (P := fun _ w _ => w.Counted) ⟨⟨?_, ?_, ?_⟩, ?_⟩
    (fun is i h => World.step_counted h i) is
  · exact fun h => absurd h.1 hempty
  · exact fun h => absurd h.1 hempty
  · rintro rel (⟨i, hi⟩ | ⟨i, hi⟩)
    · cases hi
    · cases hi
  · exact ⟨fun h => absurd h List.not_mem_nil, fun h => absurd h List.not_mem_nil⟩


end Sonara.L3
