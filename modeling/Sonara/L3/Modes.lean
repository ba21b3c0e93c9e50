import Sonara.L3.Plain
import Sonara.L3.Stale

/-!
# The read mode says when, not what

Runs that stream one channel's turn say the same in every read mode but `final`, in
whole messages or not: the same decisions, and between them the same chunks of prose
(`modes_agree`). Each is compared with the run that reads at once.
-/

namespace Sonara.L3

open Sonara Text
open Sonara.L2 (ChannelId)
open Sonara.Prose (Speech)

variable {s : Speech} {ch : ChannelId} {w w₀ : World}

/-- The input is part of the turn `ch` streams: prose, lead-ins, decisions, tools that
say nothing, a turn end, or a timer. -/
def Input.Streams (ch : ChannelId) (v : Verbosity) : Input → Prop
  | .call (.stream c _ _ _ _ _) => c = ch
  | .call (.leadIn c _ _ _) => c = ch
  | .call (.lateLeadIn c _ _ _ _) => c = ch
  | .call (.ask c _) => c = ch
  | .call (.tool c _ _) => c = ch ∧ v ≠ .everything
  | .call (.turnEnd c _ _) => c = ch
  | .fire _ _ => True
  | _ => False

namespace World

/-- The worlds differ by the read mode only, and wait for the channel's timers only. -/
structure Sim (ch : ChannelId) (w w₀ : World) : Prop where
  rules : Rules.Sim ch w.rules w₀.rules
  timers : w₀.timers = w.timers
  own : ∀ t ∈ w.timers, t.Own ch

/-- What two runs say from here on, up to what is held before and after. -/
structure Plays (ch : ChannelId) (held : List (Text × Bool)) (p p₀ : World × List Action) :
    Prop where
  sim : Sim ch p.1 p₀.1
  heard : ∃ now, Renders ch p.2 now ∧
    chunks held ++ itemsOf p₀.2 = now ++ chunks (p.1.rules.get ch).heldProse

theorem took_plays {held : List (Text × Bool)} {q q₀ : Rules × List Action} (h : Sim ch w w₀)
    (m : Rules.Plays ch held q q₀) : Plays ch held (w.took q) (w₀.took q₀) := by
  refine ⟨⟨m.sim, ?_, fun t ht => ?_⟩, m.heard⟩
  · show w₀.timers ++ asked q₀.2 = w.timers ++ asked q.2
    rw [h.timers, m.asked]
  · rcases List.mem_append.mp ht with ht | ht
    · exact h.own t ht
    · rw [m.asked] at ht
      exact m.own t ht

/-- **One input says the same in both worlds**, but for what is held. -/
theorem step_plays (h : Sim ch w w₀) {i : Input} (hi : i.Streams ch w.rules.settings.verbosity) :
    Plays ch (w.rules.get ch).heldProse (w.step s i) (w₀.step s i) := by
  cases i with
  | call c =>
    refine took_plays h ?_
    cases c with
    | stream a turn delta index fin t =>
      obtain rfl : a = ch := hi
      exact (Rules.stream_plays h.rules turn delta index fin t).getD h.rules
    | leadIn a turn delta t =>
      obtain rfl : a = ch := hi
      exact (Rules.takeLeadIn_plays h.rules turn delta none t).getD h.rules
    | lateLeadIn a turn delta id t =>
      obtain rfl : a = ch := hi
      exact (Rules.takeLeadIn_plays h.rules turn delta (some id) t).getD h.rules
    | ask a q =>
      obtain rfl : a = ch := hi
      exact Rules.ask_plays h.rules q
    | tool a name summary =>
      obtain ⟨rfl, hv⟩ : a = ch ∧ w.rules.settings.verbosity ≠ .everything := hi
      exact Rules.tool_plays h.rules hv name summary
    | turnEnd a turn t =>
      obtain rfl : a = ch := hi
      refine Rules.PlaysOr.getD ?_ h.rules
      rcases Rules.turnEnd_plays (s := s) h.rules turn t with hno | ⟨q, q₀, hq, hq₀, m, -⟩
      · exact .inl hno
      · exact .inr ⟨q, q₀, hq, hq₀, m⟩
    | _ => exact hi.elim
  | fire k focused =>
    unfold step
    dsimp only
    rw [h.timers]
    split
    next t ht =>
      have herase : Sim ch { w with timers := w.timers.eraseIdx k }
          { w₀ with timers := w.timers.eraseIdx k } :=
        ⟨h.rules, rfl, fun t ht => h.own t (List.mem_of_mem_eraseIdx ht)⟩
      exact took_plays herase (Rules.fire_plays h.rules (h.own t (List.mem_of_getElem? ht)) focused)
    · exact ⟨h, [], .nil, List.append_nil _⟩
  | answer k summary => exact hi.elim

end World

theorem Input.Streams.keeps {v : Verbosity} {i : Input} (hi : i.Streams ch v) (w : World) :
    (w.step s i).1.rules.settings = w.rules.settings ∧ w.begins ch i = [] := by
  refine ⟨(World.step_config s w i fun c he hc => ?_).settings, ?_⟩
  · subst he
    cases c <;> first | exact hc.elim | exact hi.elim
  · cases i with
    | call c => cases c <;> first | rfl | exact hi.elim
    | fire k focused => rfl
    | answer k summary => rfl

/-- **A run says the same in both worlds**, but for what is held at its end. -/
theorem run_plays {settings settings₀ : Settings} (h : World.Sim ch w w₀) (is : List Input)
    (his : ∀ i ∈ is, i.Streams ch w.rules.settings.verbosity) :
    World.Plays ch (w.rules.get ch).heldProse
      ((machine s settings).stateFrom w is, (machine s settings).outFrom w is)
      ((machine s settings₀).stateFrom w₀ is, (machine s settings₀).outFrom w₀ is) := by
  induction is generalizing w w₀ with
  | nil => exact ⟨h, [], .nil, List.append_nil _⟩
  | cons i is ih =>
    have hi := his i List.mem_cons_self
    have m := World.step_plays (s := s) h hi
    have hset := (hi.keeps (s := s) w).1
    have m' := ih m.sim fun j hj => by
      rw [hset]
      exact his j (List.mem_cons_of_mem _ hj)
    obtain ⟨now, hr, he⟩ := m.heard
    obtain ⟨now', hr', he'⟩ := m'.heard
    refine ⟨m'.sim, now ++ now', hr.append hr', ?_⟩
    have he' : chunks ((w.step s i).1.rules.get ch).heldProse ++
        itemsOf ((machine s settings₀).outFrom (w₀.step s i).1 is) =
          now' ++ chunks (((machine s settings).stateFrom w (i :: is)).rules.get ch).heldProse :=
            he'
    show chunks (w.rules.get ch).heldProse ++
      itemsOf ((w₀.step s i).2 ++ (machine s settings₀).outFrom (w₀.step s i).1 is) = _
    rw [itemsOf_append, ← List.append_assoc, he, List.append_assoc, he', List.append_assoc]

/-- A run of one turn, up to its end. -/
def turnRun (whole : Bool) (is : List Input) (ch : ChannelId) (turn : Option String)
    (t : Option Rat) :
    List Input :=
  .call (.setWholeMessages whole) :: is ++ [.call (.turnEnd ch turn t)]

/-- No message of the turn is stale: no turn started before. -/
theorem streams_fresh {settings : Settings} {v : Verbosity} (whole : Bool) (is : List Input)
    (his : ∀ i ∈ is, i.Streams ch v) (turn : Option String) (t : Option Rat) :
    ((machine s settings).state (.call (.setWholeMessages whole) :: is)).rules.stale ch turn t =
    false := by
  have hclock : clockOf s settings ch (.call (.setWholeMessages whole) :: is) = {} := by
    have hnone : ∀ (is : List Input) (w : World), (∀ i ∈ is, i.Streams ch v) →
        ((machine s settings).observe (World.begins ch)).outFrom w is = [] := by
      intro is
      induction is with
      | nil => exact fun _ _ => rfl
      | cons i is ih =>
        intro w his
        have hi := (his i List.mem_cons_self).keeps (s := s) w
        show w.begins ch i ++ _ = []
        rw [hi.2, List.nil_append]
        exact ih _ fun j hj => his j (List.mem_cons_of_mem _ hj)
    unfold clockOf
    have hout : ((machine s settings).observe (World.begins ch)).out
        (.call (.setWholeMessages whole) :: is) = [] :=
      hnone is _ his
    rw [hout]
    rfl
  rw [Bool.eq_false_iff]
  intro hstale
  rw [Rules.stale_iff, run_clock, hclock] at hstale
  rcases hstale with ⟨t₀, t₁, -, h, -⟩ | ⟨id, -, h⟩
  · cases h
  · exact absurd h List.not_mem_nil

/-- What a run of one turn says, the turn's end apart. -/
theorem turnRun_out (settings : Settings) (whole : Bool) (is : List Input) (turn : Option String)
    (t : Option Rat) :
    (machine s settings).out (turnRun whole is ch turn t) =
      (machine s settings).outFrom ⟨{ settings := settings, whole := whole }, [], []⟩ is ++
        (((machine s settings).stateFrom ⟨{ settings := settings, whole := whole }, [],
          []⟩ is).step s
          (.call (.turnEnd ch turn t))).2 := by
  have hsplit := (machine s settings).outFrom_append
    ⟨{ settings := settings, whole := whole }, [], []⟩ is
    [.call (.turnEnd ch turn t)]
  show [] ++ (machine s settings).outFrom ⟨{ settings := settings, whole := whole }, [], []⟩
    (is ++ [.call (.turnEnd ch turn t)]) = _
  rw [List.nil_append, hsplit]
  show _ ++ (_ ++ []) = _
  rw [List.append_nil]
  rfl

/-- A run of one turn says the items of the run that reads at once. -/
theorem turnRun_renders (s : Speech) {settings : Settings} (hreads : settings.Reads) (whole : Bool)
    (ch : ChannelId)
    (is : List Input) (his : ∀ i ∈ is, i.Streams ch settings.verbosity) (turn : Option String)
    (t : Option Rat) :
    Renders ch ((machine s settings).out (turnRun whole is ch turn t))
      (itemsOf ((machine s settings.plain).out (turnRun false is ch turn t))) := by
  have hsim : World.Sim ch ⟨{ settings := settings, whole := whole }, [], []⟩
      ⟨{ settings := settings.plain, whole := false }, [], []⟩ :=
    ⟨⟨rfl, rfl, hreads, rfl, rfl, Iff.rfl, rfl, rfl, rfl⟩, rfl,
      fun t ht => absurd ht List.not_mem_nil⟩
  have hrun := @run_plays s ch _ _ settings settings.plain hsim is his
  have hfresh : ((machine s settings).stateFrom
    ⟨{ settings := settings, whole := whole }, [], []⟩ is).rules.stale
      ch turn t = false := streams_fresh whole is his turn t
  rw [turnRun_out, turnRun_out]
  generalize (machine s settings).stateFrom ⟨{ settings := settings, whole := whole }, [], []⟩ is =
    w at hrun hfresh ⊢
  generalize (machine s settings.plain).stateFrom
    ⟨{ settings := settings.plain, whole := false }, [], []⟩ is = w₀
    at hrun ⊢
  generalize (machine s settings).outFrom ⟨{ settings := settings, whole := whole }, [], []⟩ is =
    out at hrun ⊢
  generalize (machine s settings.plain).outFrom
    ⟨{ settings := settings.plain, whole := false }, [], []⟩ is = out₀
    at hrun ⊢
  rcases Rules.turnEnd_plays (s := s) hrun.sim.rules turn t with
    ⟨hnone, -⟩ | ⟨q, q₀, hq, hq₀, m, hempty⟩
  · -- The turn end is not stale.
    have hnone : w.rules.turnEnd s ch turn t = none := hnone
    unfold Rules.turnEnd at hnone
    rw [if_neg (by rw [hfresh]; exact Bool.false_ne_true)] at hnone
    cases hnone
  · have hlast : (w.step s (.call (.turnEnd ch turn t))).2 = q.2 := by
      have hq : w.rules.turnEnd s ch turn t = some q := hq
      show ((w.rules.turnEnd s ch turn t).getD (w.rules, [])).2 = q.2
      rw [hq]
      rfl
    have hlast₀ : (w₀.step s (.call (.turnEnd ch turn t))).2 = q₀.2 := by
      have hq₀ : w₀.rules.turnEnd s ch turn t = some q₀ := hq₀
      show ((w₀.rules.turnEnd s ch turn t).getD (w₀.rules, [])).2 = q₀.2
      rw [hq₀]
      rfl
    obtain ⟨now, hr, he⟩ := hrun.heard
    obtain ⟨now', hr', he'⟩ := m.heard
    rw [hlast, hlast₀, itemsOf_append]
    -- Nothing is held at the start, and nothing at the end.
    rw [hempty, chunks_nil, List.append_nil] at he'
    have hstart : itemsOf out₀ = now ++ chunks (w.rules.get ch).heldProse := he
    rw [hstart, List.append_assoc, he']
    exact hr.append hr'

/-- **The read mode changes when prose is heard, and nothing else.** A run of one turn, with
summaries off and nothing muted, speaks the same items in every read mode but `final`, at
any `minqueue`, in whole messages or not: the same decisions and the same chunks of prose
in one order. So the decisions and the words between them are the same. -/
theorem modes_agree (s : Speech) (settings : Settings) (hraw : settings.summaries.enabled = false)
    (hloud : settings.muteLevel = 0) (ch : ChannelId) (is : List Input)
    (his : ∀ i ∈ is, i.Streams ch settings.verbosity) (turn : Option String) (t : Option Rat) :
    ∃ items : List Item, ∀ (mode : ReadMode) (minqueue : Nat) (whole : Bool), mode ≠ .final →
      let out := (machine s { settings with readMode := mode, minqueue := minqueue }).out
        (turnRun whole is ch turn t)
      Renders ch out items ∧ transcript out = items.flatMap Item.tokens := by
  refine ⟨itemsOf ((machine s settings.plain).out (turnRun false is ch turn t)),
    fun mode minqueue whole hne => ?_⟩
  have hreads : Settings.Reads { settings with readMode := mode, minqueue := minqueue } :=
    ⟨hraw, hloud, hne⟩
  have hr := turnRun_renders s hreads whole ch is his turn t
  exact ⟨hr, hr.transcript⟩

/-- A sentence, a plan, and a sentence more. -/
def plannedTurn : List Input :=
  [.call (.stream "c" none "Look. ".toList 0 false none),
    .call (.ask "c" { kind := .plan, text := "one".toList }),
    .call (.stream "c" none "Done.".toList 1 true none)]

/-- The turn above, read at once and in whole messages at the end, says the same. -/
theorem modes_agree_planned :
    ∃ items : List Item, ∀ (mode : ReadMode) (minqueue : Nat) (whole : Bool), mode ≠ .final →
      let out := (machine .ascii { readMode := mode, minqueue := minqueue, verbosity := .readCode }).out
        (turnRun whole plannedTurn "c" none none)
      Renders "c" out items ∧ transcript out = items.flatMap Item.tokens := by
  refine modes_agree .ascii { verbosity := .readCode } rfl rfl "c" plannedTurn
    (fun i hi => ?_) none none
  unfold plannedTurn at hi
  simp only [List.mem_cons, List.not_mem_nil, or_false] at hi
  rcases hi with rfl | rfl | rfl <;> rfl

end Sonara.L3
