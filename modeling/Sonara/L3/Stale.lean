import Sonara.L3.Applied

/-!
# Messages and work of earlier turns

A message stamped before the channel's latest turn start, or naming a turn that one of
them retired, is refused (`run_clock`); summary work started before the channel's turn
was renewed says nothing any more (`Renewed`). Both are forgotten when the channel is
closed: a channel opened anew under the same name starts with an empty clock, but its
generations are fresh.
-/

namespace Sonara.L3

open Sonara Text
open Sonara.L2 (ChannelId)
open Sonara.Prose (Speech)

/-! ## The clock -/

namespace Clock

/-- A turn starts: the id before, if another one, is retired. -/
def start (k : Clock) (turn : Option String) (t : Option Rat) : Clock where
  latest := t <|> k.latest
  current := turn
  retired := k.retired ++ k.current.toList.filter fun old => decide (turn ≠ some old)

/-- A turn start that was accepted; `none`: the channel closed. -/
def follow (k : Clock) : Option (Option String × Option Rat) → Clock
  | some (turn, t) => k.start turn t
  | none => {}

/-- Only the last `retiredTurns` retired ids are kept. -/
def forget (k : Clock) : Clock :=
  { k with retired := k.retired.drop (k.retired.length - retiredTurns) }

/-- Stamped before the latest turn start, or of a retired turn. -/
def Late (k : Clock) (turn : Option String) (t : Option Rat) : Prop :=
  (∃ t₀ t₁, t = some t₀ ∧ k.latest = some t₁ ∧ t₀ < t₁) ∨ ∃ id, turn = some id ∧ id ∈ k.retired

theorem forget_length (k : Clock) : k.forget.retired.length ≤ retiredTurns := by
  show (k.retired.drop (k.retired.length - retiredTurns)).length ≤ retiredTurns
  rw [List.length_drop]
  omega

/-- Keeping the last few twice is keeping the last few of both. -/
theorem drop_drop_append {α : Type} (xs ys : List α) (n : Nat) :
    let zs := xs.drop (xs.length - n) ++ ys
    zs.drop (zs.length - n) = (xs ++ ys).drop ((xs ++ ys).length - n) := by
  dsimp only
  rcases Nat.le_total xs.length n with h | h
  · rw [Nat.sub_eq_zero_of_le h, List.drop_zero]
  · have hsplit : xs ++ ys = xs.take (xs.length - n) ++ (xs.drop (xs.length - n) ++ ys) := by
      rw [← List.append_assoc, List.take_append_drop]
    have htake : (xs.take (xs.length - n)).length = xs.length - n := by
      rw [List.length_take]
      omega
    have hlen : (xs.drop (xs.length - n) ++ ys).length = n + ys.length := by
      rw [List.length_append, List.length_drop]
      omega
    rw [hsplit]
    generalize xs.drop (xs.length - n) ++ ys = zs at hlen ⊢
    generalize xs.take (xs.length - n) = us at htake ⊢
    rw [List.drop_append]
    have hus : us.drop ((us ++ zs).length - n) = [] := by
      rw [List.drop_eq_nil_iff, List.length_append]
      omega
    rw [hus, List.nil_append, List.length_append]
    congr 1
    omega

theorem forget_forget (k : Clock) : k.forget.forget = k.forget := by
  have hlen := k.forget_length
  show ({ k.forget with
    retired := k.forget.retired.drop (k.forget.retired.length - retiredTurns) } : Clock) = k.forget
  rw [Nat.sub_eq_zero_of_le hlen, List.drop_zero]

theorem forget_start (k : Clock) (turn : Option String) (t : Option Rat) :
    (k.forget.start turn t).forget = (k.start turn t).forget := by
  have hdrop := drop_drop_append k.retired
    (k.current.toList.filter fun old => decide (turn ≠ some old)) retiredTurns
  unfold forget start
  dsimp only at hdrop ⊢
  rw [hdrop]

theorem forget_follow (k : Clock) (e : Option (Option String × Option Rat)) :
    (k.forget.follow e).forget = (k.follow e).forget := by
  cases e with
  | none => rfl
  | some e => exact forget_start k e.1 e.2

end Clock

namespace Rules

variable {r r' r'' : Rules} {s : Speech} {ch : ChannelId} {out o : List Action} {L : Leave}

/-- **What is stale is late by the channel's clock.** -/
theorem stale_iff (turn : Option String) (t : Option Rat) :
    r.stale ch turn t = true ↔ (r.clock ch).Late turn t := by
  have hstale : r.stale ch turn t = (r.get ch).stale turn t := by
    by_cases h : ch ∈ r.turns
    · unfold stale
      rw [get?_of_mem h]
      rfl
    · unfold stale
      rw [Std.ExtTreeMap.getElem?_eq_none h, get_of_not_mem h]
      cases t <;> cases turn <;> rfl
  rw [hstale]
  unfold Turn.stale Clock.Late Rules.clock Turn.clock
  rw [Bool.or_eq_true]
  refine or_congr ?_ ?_
  · cases t with
    | none => simp
    | some t₀ =>
      cases hs : (r.get ch).t with
      | none => simp
      | some t₁ => simp
  · cases turn with
    | none => simp
    | some id => simp

/-- Retiring a turn starts the clock without one, and forgets the oldest. -/
theorem retire_clock (c : Turn) (turn : Option String) (h : c.retired.length ≤ retiredTurns) :
    (retire c turn).clock = Clock.forget { c.clock.start turn none with latest := c.t } := by
  unfold retire Turn.clock Clock.start Clock.forget
  cases hcur : c.current with
  | none =>
    simp only [Option.toList_none, List.filter_nil, List.append_nil]
    rw [Nat.sub_eq_zero_of_le h, List.drop_zero]
  | some old =>
    dsimp only
    by_cases hold : turn = some old
    · rw [if_neg (by simpa using hold)]
      simp only [Option.toList_some, List.filter_cons, hold, ne_eq, not_true_eq_false, decide_false,
        Bool.false_eq_true, if_false, List.filter_nil, List.append_nil]
      rw [Nat.sub_eq_zero_of_le h, List.drop_zero]
    · rw [if_pos hold]
      simp only [Option.toList_some, List.filter_cons, ne_eq, hold, not_false_eq_true,
        decide_true, if_true,
        List.filter_nil]
      by_cases hlen : retiredTurns < (c.retired ++ [old]).length
      · rw [if_pos hlen]
        rw [List.length_append, List.length_singleton] at hlen ⊢
        rw [show c.retired.length + 1 - retiredTurns = 1 by omega, List.drop_one]
      · rw [if_neg hlen, Nat.sub_eq_zero_of_le (Nat.not_lt.mp hlen), List.drop_zero]

/-- An accepted turn start moves the clock on. -/
theorem turnStart_clock {turn : Option String} {t : Option Rat} {p : Rules × List Action}
    (hlen : (r.clock ch).retired.length ≤ retiredTurns) (h : r.turnStart ch turn t = some p) :
    p.1.clock ch = ((r.clock ch).start turn t).forget := by
  unfold turnStart at h
  split at h
  · cases h
  · obtain rfl := Option.some.inj h
    have htouch : (r.gen.1.gen.1.touch ch).clock ch = r.clock ch :=
      ((gen_ages (L := ⟨fun _ => False, False, False⟩)).andThen
        (gen_ages.andThen (touch_ages ch))).clock id
    have hdrop : ∀ r₀ : Rules, (r₀.dropHeld ch).1.clock ch = r₀.clock ch := fun r₀ =>
      (dropHeld_ages (L := ⟨fun _ => False, False, False⟩)).clock id
    have hrenew : (renew turn t ((r.gen.1.gen.1.touch ch).get ch)).clock =
        ((r.clock ch).start turn t).forget := by
      rw [← htouch] at hlen ⊢
      exact retire_clock { (r.gen.1.gen.1.touch ch).get ch with
        assembler := {}, t := t <|> ((r.gen.1.gen.1.touch ch).get ch).t } turn hlen
    have hset : (r.gen.1.gen.1.modify ch (renew turn t)).clock ch =
        ((r.clock ch).start turn t).forget := by
      unfold modify Rules.clock
      rw [get_set_self]
      exact hrenew
    dsimp only
    unfold modify Rules.clock
    rw [get_set_self]
    show ((touch _ ch).get ch).clock = _
    have hlast := (touch_ages (L := ⟨fun _ => False, False, False⟩)
      (r := ((r.gen.1.gen.1.modify ch (renew turn t)).dropHeld ch).1) ch).clock id
    exact hlast.trans ((hdrop _).trans hset)

end Rules

/-! ## Runs -/

/-- The channel, turn id and start time a message is stamped with. -/
def Call.stamp : Call → Option (ChannelId × Option String × Option Rat)
  | .stream ch turn _ _ _ t => some (ch, turn, t)
  | .leadIn ch turn _ t => some (ch, turn, t)
  | .lateLeadIn ch turn _ _ t => some (ch, turn, t)
  | .reply ch turn _ _ t => some (ch, turn, t)
  | .turnStart ch turn t => some (ch, turn, t)
  | .turnEnd ch turn t => some (ch, turn, t)
  | _ => none

/-- The call is not refused as stale. -/
def Rules.accepts (s : Speech) (r : Rules) : Call → Bool
  | .stream ch turn delta index fin t => (r.stream s ch turn delta index fin t).isSome
  | .leadIn ch turn delta t => (r.leadIn s ch turn delta t).isSome
  | .lateLeadIn ch turn delta id t => (r.lateLeadIn s ch turn delta id t).isSome
  | .reply ch turn text before t => (r.reply ch turn text before t).isSome
  | .turnStart ch turn t => (r.turnStart ch turn t).isSome
  | .turnEnd ch turn t => (r.turnEnd s ch turn t).isSome
  | _ => true

namespace World

variable {s : Speech} {w : World} {ch : ChannelId}

/-- What an input tells the channel of its turns: a turn start that is accepted, or that
it closes (`none`). -/
def begins (ch : ChannelId) (w : World) : Input → List (Option (Option String × Option Rat))
  | .call (.turnStart c turn t) =>
    if c = ch ∧ (w.rules.turnStart c turn t).isSome then [some (turn, t)] else []
  | .call (.close c) => if c = ch then [none] else []
  | _ => []
/-- What an input does to a channel's clock. -/
theorem step_clock (i : Input) (hlen : (w.rules.clock ch).retired.length ≤ retiredTurns) :
    (w.step s i).1.rules.clock ch = ((w.begins ch i).foldl Clock.follow
      (w.rules.clock ch)).forget := by
  have hsame : (w.rules.clock ch).forget = w.rules.clock ch := by
    unfold Clock.forget
    rw [Nat.sub_eq_zero_of_le hlen, List.drop_zero]
  obtain ⟨L, -, hstarts, path, -, -⟩ := step_turnovers (s := s) w i
  have hframe : ∀ {r' : Rules}, r'.turns[ch]? = w.rules.turns[ch]? →
      r'.clock ch = (w.rules.clock ch).forget := by
    intro r' h
    rw [hsame]
    unfold Rules.clock Rules.get
    rw [h]
  by_cases hL : L.starts
  · obtain ⟨c, rfl, hc⟩ := hstarts.mp hL
    cases c with
    | turnStart a turn t =>
      show ((w.rules.turnStart a turn t).getD (w.rules, [])).1.clock ch =
        ((if a = ch ∧ (w.rules.turnStart a turn t).isSome then [some (turn, t)] else []).foldl
          Clock.follow (w.rules.clock ch)).forget
      cases hp : w.rules.turnStart a turn t with
      | none =>
        rw [if_neg (by simp)]
        exact hsame.symm
      | some p =>
        by_cases ha : a = ch
        · subst ha
          rw [if_pos ⟨rfl, rfl⟩]
          exact Rules.turnStart_clock hlen hp
        · rw [if_neg fun h => ha h.1]
          exact hframe ((Rules.turnStart_ages (L := ⟨fun _ => False, True, False⟩) trivial hp).frame
            (Ne.symm ha))
    | close a =>
      show (w.rules.close a).clock ch = ((if a = ch then [none] else []).foldl Clock.follow
        (w.rules.clock ch)).forget
      by_cases ha : a = ch
      · subst ha
        rw [if_pos rfl]
        unfold Rules.clock
        rw [Rules.get_of_not_mem Rules.close_not_mem]
        rfl
      · rw [if_neg ha]
        exact hframe (Rules.close_get? (Ne.symm ha))
    | _ => exact hc.elim
  · rw [path.clock hL ch]
    have hnone : w.begins ch i = [] := by
      unfold begins
      split
      next c turn t => exact absurd (hstarts.mpr ⟨_, rfl, trivial⟩) hL
      next c => exact absurd (hstarts.mpr ⟨_, rfl, trivial⟩) hL
      · rfl
    rw [hnone]
    exact hsame.symm

end World

variable {s : Speech} {settings : Settings} {ch : ChannelId}

/-- The channel's turn starts, as the run accepted them since the channel was opened:
the latest start time, the current turn, and every turn retired. -/
def clockOf (s : Speech) (settings : Settings) (ch : ChannelId) (is : List Input) : Clock :=
  (((machine s settings).observe (World.begins ch)).out is).foldl Clock.follow {}

/-- **The rules remember the turn starts of a run**, and the last retired turns. -/
theorem run_clock (is : List Input) :
    ((machine s settings).state is).rules.clock ch = (clockOf s settings ch is).forget := by
  induction is using List.reverseRecOn with
  | nil => rfl
  | append_singleton is i ih =>
    have hlen : (((machine s settings).state is).rules.clock ch).retired.length ≤ retiredTurns := by
      rw [ih]
      exact Clock.forget_length _
    have hfold : ∀ (es : List (Option (Option String × Option Rat))) (k : Clock),
        (es.foldl Clock.follow k.forget).forget = (es.foldl Clock.follow k).forget := by
      intro es
      induction es using List.reverseRecOn with
      | nil => exact Clock.forget_forget
      | append_singleton es e ih' =>
        intro k
        rw [List.foldl_append, List.foldl_append]
        show ((es.foldl Clock.follow k.forget).follow e).forget =
          ((es.foldl Clock.follow k).follow e).forget
        rw [← Clock.forget_follow, ih', Clock.forget_follow]
    rw [Lib.Machine.state_snoc]
    refine (World.step_clock i hlen).trans ?_
    unfold clockOf
    rw [Lib.Machine.observe_out_snoc, List.foldl_append, ih, hfold]
    rfl

/-- A release that is still to come: of a job not answered yet, or one that is parked or
watched. -/
def World.Out (w : World) (rel : Release) : Prop :=
  (∃ job ∈ w.jobs, ∃ summary, rel = job.release summary) ∨ w.rules.buffer.Holds rel

/-- A release that is still to come has a generation that was given out. -/
theorem World.Counted.out {w : World} (h : w.Counted) {rel : Release} (hout : w.Out rel) :
    rel.gen ≤ w.rules.nextGen := by
  rcases hout with ⟨job, hjob, summary, rfl⟩ | hheld
  · exact h.within.jobs hjob
  · exact h.rules.buffer hheld

end Sonara.L3
