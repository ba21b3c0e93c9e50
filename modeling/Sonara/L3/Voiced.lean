import Sonara.L3.Decisions

/-!
# Every decision is voiced once, and in order

The results about whole runs: no decision is stranded or doubled in any run
(`decisions_kept`); they are voiced in the order they were asked in every run whose
steps keep it (`decisions_in_order`), and not in all runs.
-/

namespace Sonara.L3

open Sonara
open Sonara.L2 (ChannelId)
open Sonara.Prose (Speech)

variable {s : Speech} {w : World}

theorem fresh_waiting (settings : Settings) (ch : ChannelId) :
    Rules.waiting { settings := settings } ch = {} := by
  unfold Rules.waiting Rules.get
  rw [show (({ settings := settings } : Rules).turns)[ch]? = none from
    Std.ExtTreeMap.getElem?_empty]
  rfl

theorem waiting_of_turn {r : Rules} {ch : ChannelId} {c : Turn} (h : r.turns[ch]? = some c) :
    r.waiting ch = c.waiting := by
  unfold Rules.waiting Rules.get
  rw [h]
  rfl

/-! ## No decision is stranded or doubled -/

theorem World.Booked.step {v : List (ChannelId × Nat)} (b : Booked v w.rules) (i : Input) :
    Booked (v ++ voiced (w.step s i).2) (w.step s i).1.rules := by
  obtain ⟨_, _, -, -, -, -, hpath⟩ := w.step_moves s i
  exact hpath.booked b

/-- In every run each id is voiced at most once, and not while it waits. -/
theorem state_booked (s : Speech) (settings : Settings) (is : List Input) :
    Booked (voiced ((machine s settings).out is)) ((machine s settings).state is).rules := by
  refine (machine s settings).run_induction
    (P := fun _ w out => Booked (voiced out) w.rules) ?_ (fun is i b => ?_) is
  · have hnone : ∀ ch d, ¬Known [] { settings := settings } ch d := by
      intro ch d h
      rcases h with h | h
      · cases h
      · unfold Rules.ids at h
        rw [fresh_waiting] at h
        cases h
    refine ⟨List.nodup_nil, fun ch => ?_, fun h => absurd (.inr h) (hnone _ _),
      fun h => absurd h (hnone _ _), fun h => absurd h (hnone _ _)⟩
    show ((Rules.waiting { settings := settings } ch).ids).Nodup
    rw [fresh_waiting]
    exact List.nodup_nil
  · rw [voiced_append]
    exact World.Booked.step b i

theorem state_timed (s : Speech) (settings : Settings) (is : List Input) :
    ∀ ch, (((machine s settings).state is).rules.waiting ch).Timed := by
  refine (machine s settings).run_induction
    (P := fun _ w _ => ∀ ch, (w.rules.waiting ch).Timed) (fun ch => ?_) (fun is i h => ?_) is
  · show (Rules.waiting { settings := settings } ch).Timed
    rw [fresh_waiting]
    exact fun h => absurd rfl h
  · obtain ⟨_, _, -, -, -, -, hpath⟩ := ((machine s settings).state is).step_moves s i
    exact hpath.timed h

/-- **No decision is stranded or doubled.** In every state of every run the decisions
that are pending wait for a settle window or a lead-in whose timer is outstanding, and
each that is held has its HoldCap outstanding. Over the run each id is voiced at most
once, and one that waits or is asked still waits, is voiced, or was dropped by a
`turn_start`, an `answered` or a `close` of its channel, or by a `stop_all`. -/
theorem decisions_kept (s : Speech) (settings : Settings) (is : List Input) :
    let w := (machine s settings).state is
    (∀ ch c, w.rules.turns[ch]? = some c →
      (c.pending ≠ [] →
        c.settleArmed = true ∧ .settle ch c.settleGen ∈ w.timers ∨
        ∃ lead, c.leadInWait = some lead ∧ .leadIn ch lead.gen ∈ w.timers) ∧
      ∀ owner items, c.held = some (owner, items) →
        ∀ d ∈ items, .holdCap ch d.id ∈ w.timers) ∧
    ((voiced ((machine s settings).out is)).map Prod.snd).Nodup ∧
    ∀ i, let w' := (machine s settings).state (is ++ [i])
      let out := voiced ((machine s settings).answer is i)
      (∀ ch, ∀ d ∈ w.rules.ids ch, d ∈ w'.rules.ids ch ∨ (ch, d) ∈ out ∨ i.Drops ch) ∧
      ∀ d, w.rules.nextDecision < d → d ≤ w'.rules.nextDecision →
        ∃ ch, i.Asks ch ∧ (d ∈ w'.rules.ids ch ∨ (ch, d) ∈ out) := by
  intro w
  have hsup := state_supplied s settings is
  have hbook := state_booked s settings is
  refine ⟨fun ch c hc => ⟨fun hpend => ?_, fun owner items hheld d hd => ?_⟩, ?_, fun i => ?_⟩
  · have hwait := waiting_of_turn hc
    have htimed := state_timed s settings is ch
    rw [hwait] at htimed
    rcases htimed hpend with hs | hl
    · left
      obtain ⟨g, hg⟩ := Option.isSome_iff_exists.mp hs
      have hneed : w.rules.Needs (.settle ch g) := (congrArg Waiting.settle hwait).trans hg
      have hg : (if c.settleArmed then some c.settleGen else none) = some g := hg
      split at hg
      next harmed =>
        cases hg
        exact ⟨harmed, hsup.timers _ hneed⟩
      · cases hg
    · right
      obtain ⟨g, hg⟩ := Option.isSome_iff_exists.mp hl
      have hneed : w.rules.Needs (.leadIn ch g) := (congrArg Waiting.lead hwait).trans hg
      obtain ⟨lead, hlead, rfl⟩ := Option.map_eq_some_iff.mp hg
      exact ⟨lead, hlead, hsup.timers _ hneed⟩
  · refine hsup.timers (.holdCap ch d.id) ⟨d, ?_, rfl⟩
    rw [waiting_of_turn hc]
    show d ∈ c.heldItems
    unfold Turn.heldItems
    rw [hheld]
    exact hd
  · refine List.Nodup.map_on (fun p hp q hq he => ?_) hbook.once
    obtain ⟨a, d⟩ := p
    obtain ⟨a', d'⟩ := q
    have he : d = d' := he
    subst he
    rw [hbook.owner (.inl hp) (.inl hq)]
  · intro w' out
    obtain ⟨_, _, -, -, -, -, hpath⟩ := w.step_moves s i
    have hacc := hpath.accounted
    have hw' : w' = (w.step s i).1 := (machine s settings).state_snoc is i
    rw [hw']
    refine ⟨fun ch d hd => hacc.kept hd, fun d hlt hle => ?_⟩
    obtain ⟨ch, hask, h⟩ := hacc.given hlt hle
    refine ⟨ch, hask, h.imp_right fun h => h.resolve_right fun hdrop => ?_⟩
    -- An ask drops nothing.
    cases i with
    | call c =>
      obtain ⟨a, rfl⟩ := hask
      exact hdrop
    | fire k focused => exact hask
    | answer k summary => exact hask

/-! ## The order of decisions -/

/-- In a run in order the ids of each channel are voiced in increasing order. -/
theorem state_queued (s : Speech) (settings : Settings) (is : List Input)
    (h : (machine s settings).All (World.InOrder s) is) (ch : ChannelId) :
    Queued (voiced ((machine s settings).out is)) ((machine s settings).state is).rules ch := by
  refine (machine s settings).run_induction_of
    (P := fun _ w out => ∀ ch, Queued (voiced out) w.rules ch) (fun ch => ?_) (fun is i hi q => ?_)
    is h ch
  · have hids : Rules.ids { settings := settings } ch = [] := by
      unfold Rules.ids
      rw [fresh_waiting]
      rfl
    refine ⟨?_, ?_, ?_⟩
    · show ([] ++ Rules.ids { settings := settings } ch).Pairwise (· < ·)
      rw [hids]
      exact .nil
    · show ∀ d ∈ [] ++ Rules.ids { settings := settings } ch, d ≤ 0
      rw [hids]
      exact fun d hd => nomatch hd
    · show (Rules.waiting { settings := settings } ch).Behind
      rw [fresh_waiting]
      exact fun _ => rfl
  · rw [voiced_append]
    obtain ⟨_, _, -, -, -, -, hpath⟩ := ((machine s settings).state is).step_moves s i
    exact hpath.queued hi q

/-- **Decisions are voiced in the order they were asked**, and are held only behind a
summary in flight, in every run whose steps are all in order: no ask is accepted at
once while earlier decisions are pending, no flush finds decisions both pending and
held, and the last job in flight is never answered while decisions are held behind
another one. -/
theorem decisions_in_order (s : Speech) (settings : Settings) (is : List Input)
    (h : (machine s settings).All (World.InOrder s) is) (ch : ChannelId) :
    (voicedIn ch (voiced ((machine s settings).out is))).Pairwise (· < ·) ∧
    ∀ c, ((machine s settings).state is).rules.turns[ch]? = some c →
      ∀ owner items, c.held = some (owner, items) → items ≠ [] → 0 < c.inflight := by
  obtain ⟨horder, -, hbehind⟩ := state_queued s settings is h ch
  refine ⟨(List.pairwise_append.mp horder).1, fun c hc owner items hheld hne => ?_⟩
  rw [waiting_of_turn hc] at hbehind
  refine Nat.pos_of_ne_zero fun hidle => hne ?_
  have hnone : c.heldItems = [] := hbehind hidle
  unfold Turn.heldItems at hnone
  rw [hheld] at hnone
  exact hnone

/-! ### Runs that lose the order -/

/-- Summaries are on. -/
def summarized : Settings := { summaries := { enabled := true } }

def plan (text : String) : Ask := { kind := .plan, text := text.toList }

def prose (text : String) (index : Nat) : Input :=
  .call (.stream "c" none text.toList index false none)

/-- One decision is held behind its lead-in summary. -/
def heldRun : List Input := [prose "Context. " 0, .call (.ask "c" (plan "one")), .fire 0 none]

/-- A second one is pending when both are flushed. -/
def flushedRun : List Input := heldRun ++ [.call (.ask "c" (plan "two")), .call (.flush "c")]

/-- Summaries are turned off while a decision is pending: the next one does not wait. -/
def toggledRun : List Input :=
  [.call (.ask "c" (plan "one")), .call (.setSettings {}), .call (.ask "c" (plan "two")),
    .fire 0 none]

/-- Two summaries are in flight. The second is answered and what is held goes; a third
decision is then held behind it, and the first is answered. -/
def overtakenRun : List Input :=
  heldRun ++ [prose "More. " 1, .call (.ask "c" (plan "two")), .fire 1 none, .answer 1 none,
    .call (.ask "c" (plan "three")), .fire 2 none, .answer 0 none]

/-- In these runs decisions are voiced out of order, or one is held with no summary in
flight. -/
theorem decisions_out_of_order :
    (¬(voicedIn "c" (voiced ((machine .ascii summarized).out flushedRun))).Pairwise (· < ·)) ∧
    (¬(voicedIn "c" (voiced ((machine .ascii summarized).out toggledRun))).Pairwise (· < ·)) ∧
    let c := ((machine .ascii summarized).state overtakenRun).rules.get "c"
    c.held.map (fun p => (p.1, p.2.map Decision.id)) = some (2, [3]) ∧ c.inflight = 0 := by
  decide

/-- A run that is in order: the decision that was held is flushed. -/
theorem decisions_in_order_flushed :
    (machine .ascii summarized).All (World.InOrder .ascii) (heldRun ++ [.call (.flush "c")]) ∧
    (voicedIn "c" (voiced ((machine .ascii summarized).out
      (heldRun ++ [.call (.flush "c")])))).Pairwise (· < ·) := by
  have hall : (machine .ascii summarized).All (World.InOrder .ascii)
      (heldRun ++ [.call (.flush "c")]) := by
    refine ⟨trivial, .inl (.inl ?_), trivial, .inl ?_, trivial⟩
    · decide
    · decide
  exact ⟨hall, (decisions_in_order .ascii summarized _ hall "c").1⟩

end Sonara.L3
