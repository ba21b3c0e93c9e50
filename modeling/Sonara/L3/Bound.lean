import Sonara.L3.Binding

/-!
# The entry of a question set (`rules.rs`, `lib.rs` of the agent, #283)

The agent carries out the actions of each input in order: a spoken or stored question gets
an entry of its own, and `bind_question` is called with it. `driven` is that loop around
the rules; it keeps which decision each entry was made for (`made`) and which question each
decision asked (`posed`).

A set takes the next question that is spoken in its channel. It is the set's own as long as
no other question waits there when the set starts (`Clear`): then a set without an entry
waits for one decision, its own (`Sound`).
-/

namespace Sonara.L3

open Sonara Text
open Sonara.L2 (ChannelId)
open Sonara.Prose (Speech)

/-- A question that gets an entry: its channel, its decision, and whether it is stored. -/
def Action.binds : Action → Option (ChannelId × Option Nat × Bool)
  | .speak ch _ d _ .question => some (ch, d, false)
  | .store ch _ d .question => some (ch, d, true)
  | _ => none

theorem Action.binds_question {a : Action} {b : ChannelId × Option Nat × Bool}
    (h : a.binds = some b) :
    ∃ text, a.question? = some (b.1, b.2.1, text) := by
  unfold Action.binds at h
  split at h
  next ch text d release =>
    obtain rfl := Option.some.inj h
    exact ⟨text, rfl⟩
  next ch text d =>
    obtain rfl := Option.some.inj h
    exact ⟨text, rfl⟩
  · cases h

/-- An entry, and the decision it was made for. -/
structure Made where
  entry : Nat
  channel : ChannelId
  decision : Option Nat
  deriving DecidableEq, Repr

/-- A decision, and the question that asked it. -/
structure Posed where
  channel : ChannelId
  decision : Nat
  text : Text
  deriving DecidableEq, Repr

/-- The decision that the input asked, if the rules took it for a new one. -/
def Input.poses (i : Input) (r r' : Rules) : List Posed :=
  match i with
  | .call (.ask ch a) =>
    if r'.nextDecision = r.nextDecision + 1 then [⟨ch, r.nextDecision + 1, a.text⟩] else []
  | _ => []

/-- What happens: an input that is not the agent's own `bind_question`. Before each entry it
asks for, other clients may make some; the channels may refuse it (`none`). -/
structure Event where
  input : Input
  gaps : List (Option Nat) := []
  unbound : ∀ ch entry stored, input ≠ .call (.bindQuestion ch entry stored)

/-- The rules in their world, with the agent's account of entries and decisions. -/
structure Driver where
  world : World
  nextEntry : Nat := 0
  made : List Made := []
  posed : List Posed := []

namespace Driver

variable {D : Driver} {ch : ChannelId} {q : QuestionSet}

/-- A question of `ch` got an entry. -/
def bind (D : Driver) (ch : ChannelId) (decision : Option Nat) (stored : Bool)
    (gap : Nat) : Driver :=
  { D with
    world := { D.world with rules := D.world.rules.bindQuestion ch (D.nextEntry + gap) stored }
    nextEntry := D.nextEntry + gap + 1
    made := D.made ++ [⟨D.nextEntry + gap, ch, decision⟩] }

/-- The agent carries out what an input returned. -/
def carryOut : Driver → List Action → List (Option Nat) → Driver
  | D, [], _ => D
  | D, a :: out, gaps =>
    match a.binds with
    | none => D.carryOut out gaps
    | some (ch, decision, stored) =>
      match gaps.head?.getD (some 0) with
      | none => D.carryOut out gaps.tail
      | some gap => (D.bind ch decision stored gap).carryOut out gaps.tail

/-- An input, before what it returned is carried out. -/
def took (s : Speech) (D : Driver) (i : Input) : Driver :=
  { D with
    world := (D.world.step s i).1
    posed := D.posed ++ i.poses D.world.rules (D.world.step s i).1.rules }

/-- An input and all it makes the agent do. -/
def step (s : Speech) (D : Driver) (ev : Event) : Driver × List Action :=
  ((D.took s ev.input).carryOut (D.world.step s ev.input).2 ev.gaps, (D.world.step s ev.input).2)

/-- The entry was made for the decision that the first question of the set asked. -/
def Speaks (D : Driver) (ch : ChannelId) (q : QuestionSet) (entry : Nat) : Prop :=
  ∃ d t, ⟨entry, ch, some d⟩ ∈ D.made ∧ ⟨ch, d, t⟩ ∈ D.posed ∧ q.first = some t

/-- No question of the channel waits when a set starts there. -/
def Clear (D : Driver) (ev : Event) : Prop :=
  ∀ ch a, ev.input = .call (.ask ch a) → a.kind = .question →
    (Rules.steppingSize (!D.world.rules.settings.questionStep) a).isSome →
      D.world.rules.asks ch = []

/-- The invariant, where `P` are the questions that may still be spoken: a set's entry is
its own, and a set without one waits for its own decision only. -/
structure Sound (P : ChannelId → Decision → Prop) (D : Driver) : Prop where
  bound : ∀ ch q entry, D.world.rules.stepping ch = some q → q.entry = some entry →
    D.Speaks ch q entry
  waits : ∀ ch q, D.world.rules.stepping ch = some q → q.entry = none →
    ∃ d t, ⟨ch, d, t⟩ ∈ D.posed ∧ q.first = some t ∧ ∀ x, P ch x → x.id = d

theorem Sound.mono {P P' : ChannelId → Decision → Prop} (h : D.Sound P)
    (hP : ∀ ch x, P' ch x → P ch x) :
    D.Sound P' where
  bound := h.bound
  waits ch q hq hnone := by
    obtain ⟨d, t, hposed, hfirst, hall⟩ := h.waits ch q hq hnone
    exact ⟨d, t, hposed, hfirst, fun x hx => hall x (hP ch x hx)⟩

/-! ## One entry -/

/-- Binding gives a channel's set its entry if it has none, and touches no other. -/
theorem bind_stepping (D : Driver) (ch : ChannelId) (decision : Option Nat)
    (stored : Bool) (gap : Nat)
    (a : ChannelId) : (D.bind ch decision stored gap).world.rules.stepping a =
      if a = ch then (D.world.rules.stepping ch).map fun q =>
        if q.entry.isNone then { q with entry := some (D.nextEntry + gap), heard := !stored } else q
      else D.world.rules.stepping a := by
  show (D.world.rules.bindQuestion ch (D.nextEntry + gap) stored).stepping a = _
  unfold Rules.bindQuestion
  split
  next c hc =>
    obtain ⟨-, rfl⟩ := Rules.mem_of_get? hc
    unfold Rules.stepping
    split
    next ha =>
      subst ha
      rw [Rules.get_set_self]
    next ha => rw [Rules.get_set_ne ha]
  next hc =>
    split
    next ha =>
      subst ha
      unfold Rules.stepping Rules.get
      rw [hc]
      rfl
    · rfl

/-- Binding leaves what waits. -/
theorem bind_asks (D : Driver) (ch : ChannelId) (decision : Option Nat) (stored : Bool) (gap : Nat)
    (a : ChannelId) : (D.bind ch decision stored gap).world.rules.asks a =
    D.world.rules.asks a := by
  show (D.world.rules.bindQuestion ch (D.nextEntry + gap) stored).asks a = _
  unfold Rules.bindQuestion
  split
  next c hc =>
    obtain ⟨-, rfl⟩ := Rules.mem_of_get? hc
    unfold Rules.asks
    by_cases ha : a = ch
    · subst ha
      rw [Rules.get_set_self]
      rfl
    · rw [Rules.get_set_ne ha]
  · rfl

theorem Speaks.later {D' : Driver} {entry : Nat} (h : D.Speaks ch q entry)
    (hmade : D.made ⊆ D'.made) (hposed : D.posed ⊆ D'.posed) : D'.Speaks ch q entry := by
  obtain ⟨d, t, hm, hp, hfirst⟩ := h
  exact ⟨d, t, hmade hm, hposed hp, hfirst⟩

/-- Binding the entry of a waiting question keeps the sets sound. -/
theorem bind_sound {P : ChannelId → Decision → Prop} (h : D.Sound P) {x : Decision} (hx : P ch x)
    (stored : Bool) (gap : Nat) : (D.bind ch (some x.id) stored gap).Sound P := by
  have hmade : D.made ⊆ (D.bind ch (some x.id) stored gap).made := List.subset_append_left _ _
  refine ⟨fun a q entry hq he => ?_, fun a q hq he => ?_⟩
  · rw [bind_stepping] at hq
    split at hq
    next ha =>
      subst ha
      obtain ⟨p, hp, rfl⟩ := Option.map_eq_some_iff.mp hq
      split at he
      next hnone =>
        -- The set takes the entry: the question is the one it waits for.
        obtain ⟨d, t, hposed, hfirst, hall⟩ := h.waits a p hp (Option.isNone_iff_eq_none.mp hnone)
        obtain rfl := Option.some.inj he
        obtain rfl := hall x hx
        refine ⟨x.id, t, List.mem_append_right _ (List.mem_singleton.mpr rfl), hposed, ?_⟩
        rw [if_pos hnone]
        exact hfirst
      next hbound =>
        rw [if_neg hbound]
        exact (h.bound a p entry hp he).later hmade (List.Subset.refl _)
    · exact (h.bound a q entry hq he).later hmade (List.Subset.refl _)
  · rw [bind_stepping] at hq
    split at hq
    next ha =>
      subst ha
      obtain ⟨p, hp, rfl⟩ := Option.map_eq_some_iff.mp hq
      split at he
      · cases he
      next hbound => exact absurd (Option.isNone_iff_eq_none.mpr he) hbound
    · exact h.waits a q hq he

/-! ## All that an input returned -/

/-- Carrying the actions out binds each spoken question to its channel's set. -/
theorem carryOut_sound {P : ChannelId → Decision → Prop} (out : List Action)
    (gaps : List (Option Nat))
    (hsaid : ∀ q ∈ questioned out, ∃ ch x, P ch x ∧ q = (ch, some x.id, x.text)) (h : D.Sound P) :
    (D.carryOut out gaps).Sound P ∧
      ∀ a, (D.carryOut out gaps).world.rules.asks a = D.world.rules.asks a := by
  induction out generalizing D gaps with
  | nil => exact ⟨h, fun a => rfl⟩
  | cons a out ih =>
    have hrest : ∀ q ∈ questioned out, ∃ ch x, P ch x ∧ q = (ch, some x.id, x.text) := by
      refine fun q hq => hsaid q ?_
      rw [← List.singleton_append, questioned_append]
      exact List.mem_append_right _ hq
    unfold carryOut
    split
    · exact ih gaps hrest h
    next ch decision stored hb =>
      obtain ⟨text, htext⟩ := Action.binds_question hb
      obtain ⟨b, x, hx, heq⟩ := hsaid (ch, decision, text)
        (List.mem_filterMap.mpr ⟨a, List.mem_cons_self, htext⟩)
      obtain ⟨rfl, hdecision⟩ := Prod.mk.inj heq
      obtain ⟨rfl, -⟩ := Prod.mk.inj hdecision
      split
      · exact ih gaps.tail hrest h
      next gap _ =>
        obtain ⟨hsound, hasks⟩ := ih gaps.tail hrest (bind_sound h hx stored gap)
        exact ⟨hsound, fun a => (hasks a).trans (bind_asks D ch (some x.id) stored gap a)⟩

/-! ## One input -/

/-- What the rules of a driver do to sets and questions, kept by a method. -/
theorem Sound.leaves {P : ChannelId → Decision → Prop} {D' : Driver}
    {N : ChannelId → Decision → Prop}
    {out : List Action} (h : D.Sound P) (hposed : D.posed ⊆ D'.posed) (hmade : D.made ⊆ D'.made)
    (l : Rules.Leaves N D.world.rules D'.world.rules out) : D'.Sound P := by
  refine ⟨fun ch q entry hq he => ?_, fun ch q hq he => ?_⟩
  · obtain ⟨p, hp, hentry, hfirst⟩ := l.sets ch q hq
    obtain ⟨d, t, hm, hasked, ht⟩ := h.bound ch p entry hp (hentry ▸ he)
    exact ⟨d, t, hmade hm, hposed hasked, hfirst.trans ht⟩
  · obtain ⟨p, hp, hentry, hfirst⟩ := l.sets ch q hq
    obtain ⟨d, t, hasked, ht, hall⟩ := h.waits ch p hp (hentry ▸ he)
    exact ⟨d, t, hposed hasked, hfirst.trans ht, hall⟩

/-- An input starts no set, but for an `ask` of a question, which begins it with its own decision.
-/
theorem step_leaves (s : Speech) (w : World) {i : Input}
    (hbind : ∀ ch entry stored, i ≠ .call (.bindQuestion ch entry stored)) :
    Rules.Leaves (fun _ _ => False) w.rules (w.step s i).1.rules (w.step s i).2 ∨
    ∃ ch a, i = .call (.ask ch a) ∧ a.kind = .question ∧
      (w.step s i).1.rules.nextDecision = w.rules.nextDecision + 1 ∧
      Rules.Leaves (w.rules.Next ch) (w.rules.begins ch
        ((Rules.steppingSize (!w.rules.settings.questionStep) a).map (Rules.newQuestions a)))
        (w.step s i).1.rules (w.step s i).2 := by
  cases i with
  | call c =>
    by_cases hask : ∃ ch a, c = .ask ch a
    · obtain ⟨ch, a, rfl⟩ := hask
      rcases @Rules.ask_leaves w.rules s ch (fun _ _ => False) a with l | ⟨hkind, hnext, l⟩
      · exact .inl l
      · exact .inr ⟨ch, a, rfl, hkind, hnext, l⟩
    · left
      refine Rules.call_leaves c (fun ch a h => hask ⟨ch, a, h⟩) fun ch entry stored h => ?_
      exact hbind ch entry stored (congrArg Input.call h)
  | fire k focused =>
    left
    unfold World.step
    dsimp only
    split
    · exact Rules.fire_leaves _ focused
    · exact .refl w.rules
  | answer k summary =>
    left
    unfold World.step
    dsimp only
    split
    · exact Rules.digestDone_leaves _ summary
    · exact .refl w.rules

/-- The questions that wait. -/
def Waits (D : Driver) (ch : ChannelId) (d : Decision) : Prop := d ∈ D.world.rules.asks ch

/-- The set that `a` starts, if it does, as the agent sees it when the decision is asked. -/
def starts (D : Driver) (a : Ask) : Option QuestionSet :=
  (Rules.steppingSize (!D.world.rules.settings.questionStep) a).map (Rules.newQuestions a)

/-- A set that starts has no entry, and its first text is the question asked. -/
theorem starts_first {a : Ask} (h : D.starts a = some q) :
    (Rules.steppingSize (!D.world.rules.settings.questionStep) a).isSome ∧ q.entry = none ∧
      q.first = some a.text := by
  obtain ⟨n, hn, rfl⟩ := Option.map_eq_some_iff.mp h
  have hpos : 0 < n := by
    unfold Rules.steppingSize Rules.askSet at hn
    split at hn
    next hset =>
      have hsize := (Option.filter_eq_some_iff.mp hset).2
      split at hn
      · cases hn
      · obtain rfl := Option.some.inj hn
        simp at hsize
        omega
    · split at hn
      · cases hn
      · obtain rfl := Option.some.inj hn
        omega
    · obtain rfl := Option.some.inj hn
      omega
  refine ⟨Option.isSome_of_eq_some hn, rfl, ?_⟩
  cases n with
  | zero => exact absurd hpos (Nat.lt_irrefl 0)
  | succ n => rfl

def begun (D : Driver) (ch : ChannelId) (a : Ask) : Driver :=
  { D with
    world := { D.world with rules := D.world.rules.begins ch (D.starts a) }
    posed := D.posed ++ [⟨ch, D.world.rules.nextDecision + 1, a.text⟩] }

/-- A set that starts while no question waits there waits for its own. -/
theorem Sound.begins {a : Ask} (h : D.Sound D.Waits)
    (hfree : (Rules.steppingSize (!D.world.rules.settings.questionStep) a).isSome →
      D.world.rules.asks ch = []) :
    (D.begun ch a).Sound fun b d => D.Waits b d ∨ D.world.rules.Next ch b d := by
  unfold begun
  refine ⟨fun b q entry hq he => ?_, fun b q hq he => ?_⟩
  · dsimp only at hq
    rw [Rules.begins_stepping] at hq
    split at hq
    · rw [(starts_first hq).2.1] at he
      cases he
    · exact (h.bound b q entry hq he).later (List.Subset.refl _) (List.subset_append_left _ _)
  · dsimp only at hq
    rw [Rules.begins_stepping] at hq
    split at hq
    next hb =>
      subst hb
      obtain ⟨hstarts, -, hfirst⟩ := starts_first hq
      refine ⟨D.world.rules.nextDecision + 1, a.text,
        List.mem_append_right _ (List.mem_singleton.mpr rfl),
        hfirst, fun x hx => ?_⟩
      rcases hx with hx | hx
      · unfold Waits at hx
        rw [hfree hstarts] at hx
        cases hx
      · exact hx.2
    next hb =>
      obtain ⟨d, t, hposed, hfirst, hall⟩ := h.waits b q hq he
      refine ⟨d, t, List.mem_append_left _ hposed, hfirst, fun x hx => ?_⟩
      exact hx.elim (hall x) fun hx => absurd hx.1 hb

/-- A step in which nothing is bound too late keeps the sets sound. -/
theorem step_sound (s : Speech) {ev : Event} (hclear : D.Clear ev) (h : D.Sound D.Waits) :
    (D.step s ev).1.Sound (D.step s ev).1.Waits := by
  have hcarried : ∀ P, (D.took s ev.input).Sound P →
      (∀ q ∈ questioned (D.world.step s ev.input).2, ∃ ch x, P ch x ∧ q = (ch, some x.id, x.text)) →
      (∀ ch d, d ∈ (D.world.step s ev.input).1.rules.asks ch → P ch d) →
      (D.step s ev).1.Sound (D.step s ev).1.Waits := by
    intro P hsound hsaid hwaits
    obtain ⟨hdone, hasks⟩ := carryOut_sound (D.world.step s ev.input).2 ev.gaps hsaid hsound
    refine hdone.mono fun ch d hd => hwaits ch d ?_
    exact (hasks ch) ▸ hd
  rcases step_leaves s D.world ev.unbound with l | ⟨ch, a, hi, hkind, hnext, l⟩
  · refine hcarried D.Waits (h.leaves (List.subset_append_left _ _) (List.Subset.refl _) l)
      (fun q hq => ?_)
      fun ch d hd => (l.waits hd).resolve_right id
    obtain ⟨ch, d, hd, rfl⟩ := l.said hq
    exact ⟨ch, d, hd.resolve_right id, rfl⟩
  · have hbegun := @Sound.begins _ ch a h (hclear ch a hi hkind)
    have hposes : ev.input.poses D.world.rules (D.world.step s ev.input).1.rules =
        [⟨ch, D.world.rules.nextDecision + 1, a.text⟩] := by
      rw [hi] at hnext ⊢
      exact if_pos hnext
    refine hcarried _ (hbegun.leaves ?_ (List.Subset.refl _) l) (fun q hq => ?_) fun b d hd => ?_
    · show _ ⊆ D.posed ++ ev.input.poses D.world.rules (D.world.step s ev.input).1.rules
      rw [hposes]
      exact List.Subset.refl _
    · obtain ⟨b, d, hd, rfl⟩ := l.said hq
      rw [Rules.begins_asks] at hd
      exact ⟨b, d, hd, rfl⟩
    · have hwaited := l.waits hd
      rw [Rules.begins_asks] at hwaited
      exact hwaited

end Driver

/-- Every interleaving of inputs, with the agent that carries out what they return. -/
def driven (s : Speech) (settings : Settings) : Lib.Machine Driver Event Action where
  init := { world := { rules := { settings := settings } } }
  step D ev := D.step s ev

namespace Rules

variable {r : Rules} {s : Speech} {ch : ChannelId} {nav : Nav}

/-- Numbering a decision leaves the set. -/
theorem numbered_stepping (r : Rules) (ch : ChannelId) (k : Nat) :
    (r.numbered ch k).1.stepping ch = r.stepping ch := by
  unfold numbered
  split
  next c hc =>
    obtain ⟨-, rfl⟩ := mem_of_get? hc
    split
    · split
      · dsimp only
        split
        · unfold stepping
          rw [get_set_self]
        · rfl
      · rfl
    · rfl
  · rfl

/-- A move lands on the entry of the set. -/
theorem landOn_nav {k : Nat} {edge : Bool} (h : (r.landOn ch k edge).2 = some nav) :
    ∃ q, r.stepping ch = some q ∧ q.entry = some nav.entry := by
  have hnum := r.numbered_stepping ch k
  unfold landOn at h
  dsimp only at h
  split at h
  next text c ht hc =>
    split at h
    next q hq =>
      obtain ⟨entry, he, rfl⟩ := Option.map_eq_some_iff.mp h
      obtain ⟨-, rfl⟩ := mem_of_get? hc
      exact ⟨q, hnum.symm.trans hq, he⟩
    · cases h
  · cases h

/-- A move between questions goes to the entry the set is bound to. -/
theorem navigate_nav {step : Step} {started : Bool}
    (h : (r.navigate ch step started).2 = some nav) :
    ∃ q, r.stepping ch = some q ∧ q.entry = some nav.entry := by
  unfold navigate at h
  split at h
  · split at h
    · cases h
    · split at h
      · exact landOn_nav h
      · split at h
        · split at h
          · exact landOn_nav h
          · exact landOn_nav h
        · exact landOn_nav h
  · cases h

theorem rewindQuestions_nav (h : (r.rewindQuestions ch).2 = some nav) :
    ∃ q, r.stepping ch = some q ∧ q.entry = some nav.entry := by
  unfold rewindQuestions at h
  split at h
  · cases h
  · exact landOn_nav h

/-- A landing is at the entry the channel's set is bound to. -/
theorem questionShown_nav {shown : Shown} (h : (r.questionShown s ch shown).2 = some (.land nav)) :
    ∃ q, r.stepping ch = some q ∧ q.entry = some nav.entry := by
  unfold questionShown at h
  split at h
  · split at h
    · unfold steppingShown at h
      split at h
      · split at h
        · cases h
        · cases h
      · split at h
        · split at h
          · cases h
          · obtain ⟨n, hn, heq⟩ := Option.map_eq_some_iff.mp h
            obtain rfl := ShownMove.land.inj heq
            exact landOn_nav hn
        · cases h
    · unfold readShown at h
      split at h
      · dsimp only at h
        split at h
        · cases h
        · cases h
      · split at h
        · split at h
          · dsimp only at h
            split at h
            · cases h
            · cases h
          · cases h
        · cases h
    · cases h
  · cases h

end Rules

/-- **A bound set shows its own entry** in every run in which no set starts while another
question of its channel waits: the entry was made for the decision that the set's first
question asked, and so was every entry that the navigation revises. -/
theorem questions_bound (s : Speech) (settings : Settings) (evs : List Event)
    (h : (driven s settings).All Driver.Clear evs) (ch : ChannelId) :
    let D := (driven s settings).state evs
    (∀ q entry, D.world.rules.stepping ch = some q → q.entry = some entry → D.Speaks ch q entry) ∧
    ∀ nav, ((∃ step started, (D.world.rules.navigate ch step started).2 = some nav) ∨
        (D.world.rules.rewindQuestions ch).2 = some nav ∨
        ∃ shown, (D.world.rules.questionShown s ch shown).2 = some (.land nav)) →
      ∃ q, D.world.rules.stepping ch = some q ∧ D.Speaks ch q nav.entry := by
  have hnew : ∀ ch, (driven s settings).init.world.rules.stepping ch = none := fun _ => rfl
  have hinit : (driven s settings).init.Sound (driven s settings).init.Waits := by
    refine ⟨fun ch q entry hq => ?_, fun ch q hq => ?_⟩
    · rw [hnew] at hq
      cases hq
    · rw [hnew] at hq
      cases hq
  have hsound : ((driven s settings).state evs).Sound ((driven s settings).state evs).Waits :=
    (driven s settings).run_induction_of (P := fun _ D _ => D.Sound D.Waits) hinit
      (fun _ _ hclear hsound => Driver.step_sound s hclear hsound) evs h
  intro D
  refine ⟨hsound.bound ch, fun nav hnav => ?_⟩
  have hown : ∃ q, D.world.rules.stepping ch = some q ∧ q.entry = some nav.entry := by
    rcases hnav with ⟨step, started, hnav⟩ | hnav | ⟨shown, hnav⟩
    · exact Rules.navigate_nav hnav
    · exact Rules.rewindQuestions_nav hnav
    · exact Rules.questionShown_nav hnav
  obtain ⟨q, hq, he⟩ := hown
  exact ⟨q, hq, hsound.bound ch q nav.entry hq he⟩

/-! ### A question of another set is spoken first -/

/-- A lone question, asked while its lead-in is still to come. -/
def leadInQuestion (text : String) (pending : Bool) : Event where
  input := .call (.ask "c" { kind := .question, text := text.toList, leadInPending := pending })
  unbound := fun _ _ _ h => by cases h

/-- The lead-in does not come. -/
def leadInLate : Event where
  input := .fire 0 none
  unbound := fun _ _ _ h => by cases h

/-- Two questions wait for one lead-in. -/
def twoQuestions : List Event := [leadInQuestion "One" true, leadInQuestion "Two" false, leadInLate]

/-- The set of the second question has the entry of the first: its own comes later. -/
theorem second_takes_first :
    ¬∀ q entry, ((driven .ascii {}).state twoQuestions).world.rules.stepping "c" = some q →
      q.entry = some entry → ((driven .ascii {}).state twoQuestions).Speaks "c" q entry := by
  intro h
  have hset : (((driven .ascii {}).state twoQuestions).world.rules.stepping "c").map
      (fun q => (q.entry, q.first)) = some (some 0, some "Two".toList) := by decide
  have hmade : ((driven .ascii {}).state twoQuestions).made =
    [⟨0, "c", some 1⟩, ⟨1, "c", some 2⟩] := by decide
  have hposed : ((driven .ascii {}).state twoQuestions).posed =
      [⟨"c", 1, "One".toList⟩, ⟨"c", 2, "Two".toList⟩] := by decide
  obtain ⟨q, hq, heq⟩ := Option.map_eq_some_iff.mp hset
  obtain ⟨hentry, hfirst⟩ := Prod.mk.inj heq
  obtain ⟨d, t, hm, hp, ht⟩ := h q 0 hq hentry
  rw [hmade] at hm
  rw [hposed] at hp
  -- The entry is the first decision's, whose question is the other one.
  obtain rfl : d = 1 := by simpa using hm
  obtain rfl := Option.some.inj (hfirst.symm.trans ht)
  revert hp
  decide

/-- The second question is asked once the first was spoken. -/
def questionsInTurn : List Event :=
  [leadInQuestion "One" true, leadInLate, leadInQuestion "Two" false]

/-- Then each set has its own entry. -/
theorem questions_bound_inTurn :
    (driven .ascii {}).All Driver.Clear questionsInTurn ∧
    let D := (driven .ascii {}).state questionsInTurn
    ∀ q entry, D.world.rules.stepping "c" = some q → q.entry = some entry →
      D.Speaks "c" q entry := by
  have hall : (driven .ascii {}).All Driver.Clear questionsInTurn := by
    refine ⟨fun ch a hi _ _ => ?_, fun ch a hi => ?_, fun ch a hi _ _ => ?_, trivial⟩
    · obtain ⟨rfl, -⟩ := Call.ask.inj (Input.call.inj hi)
      decide
    · cases hi
    · obtain ⟨rfl, -⟩ := Call.ask.inj (Input.call.inj hi)
      decide
  exact ⟨hall, (questions_bound .ascii {} questionsInTurn hall "c").1⟩

end Sonara.L3
