import Sonara.L3.Chains
import Sonara.L3.Run
import Sonara.Lib.Path

/-!
# What the rules can do to a channel's decisions and to the summary slots

Every input of a run is a path of `Move`s. A move touches the waiting decisions of at
most one channel (`Change`) and does at most one thing to the reorder buffer
(`Slots`); the invariants of decisions and slots are proved move by move.

Most methods only hold or speak prose: their moves are *calm*. What an input may do
beyond that is its `Licence`: the channels whose decisions it may drop, the slot it
may land in, and whether it keeps decisions in order.
-/

namespace Sonara.L3

open Sonara Text
open Sonara.L2 (ChannelId)
open Sonara.Prose (Speech)

/-! ## The waiting decisions of a channel -/

/-- What decides when a channel's decisions are spoken. -/
structure Waiting where
  /-- The generation of the settle window, while it is armed. -/
  settle : Option Nat := none
  /-- The generation of the wait for a late lead-in. -/
  lead : Option Nat := none
  pending : List Decision := []
  held : List Decision := []
  inflight : Nat := 0

/-- The decisions held behind a summary. -/
def Turn.heldItems (c : Turn) : List Decision := (c.held.map Prod.snd).getD []

def Turn.waiting (c : Turn) : Waiting where
  settle := if c.settleArmed then some c.settleGen else none
  lead := c.leadInWait.map LeadInWait.gen
  pending := c.pending
  held := c.heldItems
  inflight := c.inflight

/-- A channel without turn state waits for nothing. -/
def Rules.waiting (r : Rules) (ch : ChannelId) : Waiting := (r.get ch).waiting

/-- Decisions with the channel they belong to. -/
def named (ch : ChannelId) (ds : List Decision) : List (ChannelId × Nat) :=
  ds.map fun d => (ch, d.id)

/-- What an input may do. -/
structure Licence where
  /-- It keeps the decisions in order. -/
  orderly : Prop
  /-- It may ask a decision in the channel. -/
  asks : ChannelId → Prop
  /-- It may drop the decisions of the channel. -/
  drops : ChannelId → Prop
  /-- It may land in the slot. -/
  lands : Nat → Prop

variable {L : Licence} {ch : ChannelId} {out : List Action} {n : Nat} {w : Waiting}

/-- The decisions `ds` leave their wait: all are held while a summary is in flight, or
all are voiced. -/
inductive Spill (ch : ChannelId) (out : List Action) (ds : List Decision) (w : Waiting) :
    Waiting → Prop
  | held (busy : 0 < w.inflight) (mute : voiced out = [])
      (capped : ∀ d ∈ ds, .holdCap ch d.id ∈ asked out) :
      Spill ch out ds w { w with held := w.held ++ ds }
  | spoken (free : w.inflight = 0 ∨ ds = []) (voiced : voiced out = named ch ds) :
      Spill ch out ds w w

/-- The settle window stays as it is or is armed anew. -/
def Rearmed (ch : ChannelId) (out : List Action) (settle settle' : Option Nat) : Prop :=
  settle' = settle ∨ ∃ g, settle' = some g ∧ .settle ch g ∈ asked out

/-- What one move does to a channel's decisions; `n` is the last id given out. -/
inductive Change (L : Licence) (ch : ChannelId) (out : List Action) (n : Nat) (w : Waiting) :
    Nat → Waiting → Prop
  /-- Prose: the settle window may be armed. -/
  | calm {settle : Option Nat} (mute : voiced out = []) (armed : Rearmed ch out w.settle settle) :
      Change L ch out n w n { w with settle := settle }
  /-- A decision is asked and waits for the settle window or its lead-in. -/
  | asked {d : Decision} {settle lead : Option Nat} (asks : L.asks ch) (mute : voiced out = [])
      (id : d.id = n + 1)
      (armed : Rearmed ch out w.settle settle)
      (waits : lead = w.lead ∨ ∃ g, lead = some g ∧ .leadIn ch g ∈ asked out)
      (wait : settle.isSome ∨ lead.isSome) :
      Change L ch out n w (n + 1)
        { w with settle := settle, lead := lead, pending := w.pending ++ [d] }
  /-- A decision is asked with nothing to wait for. -/
  | atOnce {d : Decision} {w' : Waiting} (asks : L.asks ch) (id : d.id = n + 1)
      (orderly : L.orderly → w.pending = []) (spill : Spill ch out [d] w w') :
      Change L ch out n w (n + 1) w'
  /-- The late lead-in came or was given up: its summary is waited for. -/
  | leadSettles {g : Nat} (mute : voiced out = []) (armed : .settle ch g ∈ asked out) :
      Change L ch out n w n { w with settle := some g, lead := none }
  /-- The late lead-in came or was given up: the decisions go. -/
  | leadGone {w' : Waiting}
      (spill : Spill ch out w.pending { w with lead := none, pending := [] } w') :
      Change L ch out n w n w'
  /-- The settle window elapsed, but the lead-in is still to come. -/
  | settleWaits (lead : w.lead.isSome) (mute : voiced out = []) :
      Change L ch out n w n { w with settle := none }
  /-- The settle window elapsed: a summary may go out, and the decisions go. -/
  | settles {m : Nat} {w' : Waiting} (busy : w.inflight ≤ m)
      (spill : Spill ch out w.pending { w with settle := none, pending := [], inflight := m } w') :
      Change L ch out n w n w'
  /-- A hold cap fired: what is held is spoken. -/
  | capped (voiced : voiced out = named ch w.held) : Change L ch out n w n { w with held := [] }
  /-- A summary was answered: what is held behind it is spoken. -/
  | answered {m : Nat} {held : List Decision} (kept : m ≤ w.inflight)
      (mine : held = [] ∧ voiced out = named ch w.held ∨ held = w.held ∧ voiced out = [])
      (orderly : L.orderly → 0 < w.inflight → held = [] ∨ 0 < m) :
      Change L ch out n w n { w with held := held, inflight := m }
  /-- A flush: everything that waits is spoken. -/
  | flushed (voiced : voiced out = named ch (w.pending ++ w.held))
      (orderly : L.orderly → w.pending = [] ∨ w.held = []) : Change L ch out n w n {}
  /-- Everything that waits is dropped. -/
  | dropped (drops : L.drops ch) (mute : voiced out = []) : Change L ch out n w n {}

/-! ## The summary slots -/

/-- No job goes out and no slot is watched. -/
def NoJob (out : List Action) : Prop := dispatched out = [] ∧ ∀ seq, .watchdog seq ∉ asked out

/-- What one move does to the reorder buffer. -/
inductive Slots (L : Licence) (out : List Action) (b : Lib.Reorder Release) :
    Lib.Reorder Release → Prop
  | same (none : NoJob out) : Slots L out b b
  /-- A short turn takes a slot and lands in it at once. -/
  | short (none : NoJob out) (rel : Release) : Slots L out b (b.alloc.1.land b.alloc.2 rel).1
  /-- The summary of a lead-in goes out, without a slot. -/
  | leadIn {job : Job} (sent : dispatched out = [job]) (slot : job.seq = none)
      (dogs : ∀ seq, .watchdog seq ∉ asked out) : Slots L out b b
  /-- The summary of a turn goes out with a slot that is watched. -/
  | turnEnd {job : Job} (sent : dispatched out = [job]) (slot : job.seq = some b.alloc.2)
      (dogs : ∀ seq, .watchdog seq ∈ asked out ↔ seq = b.alloc.2) (rel : Release) :
      Slots L out b (b.alloc.1.watch b.alloc.2 rel)
  /-- A summary lands in its slot. -/
  | land {seq : Nat} (lands : L.lands seq) (none : NoJob out) (rel : Release) :
      Slots L out b (b.land seq rel).1
  /-- A watched slot is given up. -/
  | expire (none : NoJob out) (seq : Nat) : Slots L out b (b.expire seq).1

/-- One move of the rules. -/
structure Move (L : Licence) (r r' : Rules) (out : List Action) : Prop where
  change : ∃ ch, (∀ a, a ≠ ch → r'.waiting a = r.waiting a) ∧
    Change L ch out r.nextDecision (r.waiting ch) r'.nextDecision (r'.waiting ch)
  slots : Slots L out r.buffer r'.buffer

/-- A path of moves. -/
abbrev Moves (L : Licence) : Rules → Rules → List Action → Prop := Lib.Path (Move L)

/-! ## Calm moves -/

/-- The actions voice no decision and send no job. -/
structure Plain (out : List Action) : Prop where
  mute : voiced out = []
  noJob : NoJob out

theorem Plain.nil : Plain [] := ⟨rfl, rfl, fun _ => List.not_mem_nil⟩

theorem Plain.append {o : List Action} (h : Plain out) (h' : Plain o) : Plain (out ++ o) := by
  refine ⟨by rw [voiced_append, h.mute, h'.mute]; rfl,
    by rw [dispatched_append, h.noJob.1, h'.noJob.1]; rfl, fun seq hm => ?_⟩
  rw [asked_append] at hm
  rcases List.mem_append.mp hm with hm | hm
  · exact h.noJob.2 seq hm
  · exact h'.noJob.2 seq hm

theorem Plain.flatMap {α : Type} {f : α → List Action} (h : ∀ x, Plain (f x)) (xs : List α) :
    Plain (xs.flatMap f) := by
  induction xs with
  | nil => exact .nil
  | cons x xs ih => exact (h x).append ih

namespace Rules

variable {r r' : Rules}

@[simp] theorem get_set (ch a : ChannelId) (c : Turn) :
    (r.set ch c).get a = if ch = a then c else r.get a := by
  unfold get set
  dsimp only
  rw [Std.ExtTreeMap.getElem?_insert]
  by_cases h : ch = a
  · simp [h]
  · simp [h]

theorem get_set_self (ch : ChannelId) (c : Turn) : (r.set ch c).get ch = c := by simp

theorem waiting_set_ne {a : ChannelId} (h : a ≠ ch) (c : Turn) :
    (r.set ch c).waiting a = r.waiting a := by
  unfold waiting
  rw [get_set, if_neg (Ne.symm h)]

theorem waiting_set_self (ch : ChannelId) (c : Turn) : (r.set ch c).waiting ch = c.waiting := by
  unfold waiting
  rw [get_set_self]

/-- Making sure of a channel leaves what waits. -/
theorem waiting_touch (ch a : ChannelId) : (r.touch ch).waiting a = r.waiting a := by
  unfold touch
  split
  · rfl
  next h =>
    unfold waiting get
    dsimp only
    rw [Std.ExtTreeMap.getElem?_insert]
    by_cases ha : ch = a
    · have hnone : r.turns[a]? = none := by
        rw [← ha]
        exact Std.ExtTreeMap.getElem?_eq_none h
      rw [hnone]
      simp [ha]
      rfl
    · simp [ha]

theorem touch_frame (ch : ChannelId) :
    (r.touch ch).buffer = r.buffer ∧ (r.touch ch).nextDecision = r.nextDecision ∧
      (r.touch ch).settings = r.settings := by
  unfold touch
  split
  · exact ⟨rfl, rfl, rfl⟩
  · exact ⟨rfl, rfl, rfl⟩

/-- The waiting decisions stay and nothing notable is emitted. -/
structure Calm (r r' : Rules) (out : List Action) : Prop where
  waiting : ∀ a, r'.waiting a = r.waiting a
  buffer : r'.buffer = r.buffer
  nextDecision : r'.nextDecision = r.nextDecision
  settings : r'.settings = r.settings
  plain : Plain out

theorem Calm.trans {r'' : Rules} {o : List Action} (c : Calm r r' out) (c' : Calm r' r'' o) :
    Calm r r'' (out ++ o) where
  waiting a := (c'.waiting a).trans (c.waiting a)
  buffer := c'.buffer.trans c.buffer
  nextDecision := c'.nextDecision.trans c.nextDecision
  settings := c'.settings.trans c.settings
  plain := c.plain.append c'.plain

/-- Calm steps, the first of which emits nothing. -/
theorem Calm.andThen {r'' : Rules} {o : List Action} (c : Calm r r' []) (c' : Calm r' r'' o) :
    Calm r r'' o :=
  c.trans c'

theorem Calm.refl (r : Rules) : Calm r r [] := ⟨fun _ => rfl, rfl, rfl, rfl, .nil⟩

theorem Calm.emit (h : Plain out) : Calm r r out := ⟨fun _ => rfl, rfl, rfl, rfl, h⟩

theorem touch_calm (ch : ChannelId) : Calm r (r.touch ch) [] :=
  ⟨waiting_touch ch, (touch_frame ch).1, (touch_frame ch).2.1, (touch_frame ch).2.2, .nil⟩

theorem gen_calm : Calm r r.gen.1 [] := ⟨fun _ => rfl, rfl, rfl, rfl, .nil⟩

/-- Prose fields of a channel are written. -/
theorem set_calm {c : Turn} (h : c.waiting = r.waiting ch) (ho : Plain out) :
    Calm r (r.set ch c) out := by
  refine ⟨fun a => ?_, rfl, rfl, rfl, ho⟩
  by_cases ha : a = ch
  · rw [ha, waiting_set_self, h]
  · exact waiting_set_ne ha c

theorem modify_calm {f : Turn → Turn} (h : ∀ c, (f c).waiting = c.waiting) :
    Calm r (r.modify ch f) [] :=
  (touch_calm ch).andThen (set_calm (h _) .nil)

/-! ## Prose -/

theorem say_plain (ch : ChannelId) (text : Text) (release : Bool) (kind : Kind) :
    Plain (r.say ch text none release kind) := by
  unfold say
  split
  · exact .nil
  · split
    · exact ⟨rfl, rfl, fun seq => List.not_mem_nil⟩
    · exact ⟨rfl, rfl, fun seq => List.not_mem_nil⟩

theorem speak_plain (ch : ChannelId) (text : Text) (kind : Kind) :
    Plain (r.speak ch text none kind) :=
  say_plain ch text false kind

theorem earcon_plain (e : Earcon) : Plain (r.earcon e) := by
  unfold earcon
  split
  · exact ⟨rfl, rfl, fun seq => List.not_mem_nil⟩
  · exact .nil

theorem sayProse_plain (ch : ChannelId) (held : List (Text × Bool)) :
    Plain (r.sayProse ch held) := by
  unfold sayProse
  split
  · exact .nil
  · split
    · exact speak_plain ch _ .prose
    · exact .flatMap (fun p => speak_plain ch _ .prose) held

theorem speakChunks_plain (ch : ChannelId) (chunks : List Text) :
    Plain (r.speakChunks ch chunks) := by
  unfold speakChunks
  split
  · exact speak_plain ch _ .prose
  · exact .flatMap (fun t => speak_plain ch t .prose) chunks

theorem dropHeld_calm (ch : ChannelId) : Calm r (r.dropHeld ch).1 [] :=
  (touch_calm ch).andThen (set_calm rfl .nil)

theorem holdKept_calm (ch : ChannelId) : Calm r (r.holdKept ch).1 [] :=
  (touch_calm ch).andThen (set_calm rfl .nil)

theorem flushProseUpto_calm (ch : ChannelId) (m : Nat) :
    Calm r (r.flushProseUpto ch m).1 (r.flushProseUpto ch m).2 :=
  (touch_calm ch).andThen (set_calm rfl (sayProse_plain ch _))

theorem flushProse_calm (ch : ChannelId) : Calm r (r.flushProse ch).1 (r.flushProse ch).2 :=
  (touch_calm ch).andThen (flushProseUpto_calm ch _)

theorem chained_calm : Chained Calm := ⟨.refl, .trans⟩

theorem holdTexts_calm (ch : ChannelId) (texts : List (Text × Bool)) (breaks : Option Nat) :
    Calm r (r.holdTexts ch texts breaks).1 (r.holdTexts ch texts breaks).2 :=
  chained_calm.holdTexts texts breaks (set_calm (by rfl) .nil) (fun _ => flushProse_calm ch)
    fun _ n => flushProseUpto_calm ch n

/-- At most the settle window of `ch` is armed anew. -/
structure Arms (ch : ChannelId) (r r' : Rules) (out : List Action) : Prop where
  others : ∀ a, a ≠ ch → r'.waiting a = r.waiting a
  self : ∃ settle, r'.waiting ch = { r.waiting ch with settle := settle } ∧
    Rearmed ch out (r.waiting ch).settle settle
  buffer : r'.buffer = r.buffer
  nextDecision : r'.nextDecision = r.nextDecision
  settings : r'.settings = r.settings
  plain : Plain out

theorem Calm.arms (c : Calm r r' out) (ch : ChannelId) : Arms ch r r' out :=
  ⟨fun a _ => c.waiting a, ⟨_, c.waiting ch, .inl rfl⟩, c.buffer, c.nextDecision, c.settings,
    c.plain⟩

theorem Arms.refl (ch : ChannelId) (r : Rules) : Arms ch r r [] := (Calm.refl r).arms ch

/-- Arming goes on from step to step. -/
theorem Arms.trans {r'' : Rules} {o : List Action} (a : Arms ch r r' out) (a' : Arms ch r' r'' o) :
    Arms ch r r'' (out ++ o) := by
  refine ⟨fun x hx => (a'.others x hx).trans (a.others x hx), ?_, a'.buffer.trans a.buffer,
    a'.nextDecision.trans a.nextDecision, a'.settings.trans a.settings, a.plain.append a'.plain⟩
  obtain ⟨settle, hw, hs⟩ := a.self
  obtain ⟨settle', hw', hs'⟩ := a'.self
  rw [hw] at hw' hs'
  refine ⟨settle', hw', ?_⟩
  rcases hs' with rfl | ⟨g, rfl, hg⟩
  · rcases hs with rfl | ⟨g, rfl, hg⟩
    · exact .inl rfl
    · exact .inr ⟨g, rfl, asked_append out o ▸ List.mem_append_left _ hg⟩
  · exact .inr ⟨g, rfl, asked_append out o ▸ List.mem_append_right _ hg⟩

/-- A calm step that emits nothing, then one that may arm. -/
theorem Calm.thenArms {r'' : Rules} {o : List Action} (c : Calm r r' []) (a : Arms ch r' r'' o) :
    Arms ch r r'' o :=
  (c.arms ch).trans a

theorem Arms.move (a : Arms ch r r' out) : Move L r r' out := by
  obtain ⟨settle, hw, hs⟩ := a.self
  refine ⟨⟨ch, a.others, ?_⟩, ?_⟩
  · rw [hw, a.nextDecision]
    exact .calm a.plain.mute hs
  · rw [a.buffer]
    exact .same a.plain.noJob

theorem Arms.moves (a : Arms ch r r' out) : Moves L r r' out := .single a.move

theorem Calm.moves (c : Calm r r' out) : Moves L r r' out := (c.arms "").moves

theorem armSettle_arms (ch : ChannelId) : Arms ch r (r.armSettle ch).1 (r.armSettle ch).2 := by
  have hcalm : Calm r (r.gen.1.touch ch) [] := gen_calm.andThen (touch_calm ch)
  refine hcalm.thenArms ⟨fun a ha => waiting_set_ne ha _,
    ⟨some r.gen.2, ?_, .inr ⟨r.gen.2, rfl, ?_⟩⟩,
    rfl, rfl, rfl, rfl, rfl, fun seq h => nomatch List.mem_singleton.mp h⟩
  · exact waiting_set_self ch _
  · exact List.mem_singleton.mpr rfl

theorem chained_arms (ch : ChannelId) : Chained (Arms ch) := ⟨.refl ch, .trans⟩

theorem assemble_arms (s : Speech) (ch : ChannelId) (ds : List Delta) :
    Arms ch r (r.assemble s ch ds).1 (r.assemble s ch ds).2 :=
  (chained_arms ch).assemble ds
    (fun h => ((touch_calm ch).andThen (set_calm (h.same Turn.waiting rfl) .nil)).arms ch)
    (fun _ => armSettle_arms ch) fun texts breaks _ => (holdTexts_calm ch texts breaks).arms ch

theorem releaseGap_arms (s : Speech) (ch : ChannelId) :
    Arms ch r (r.releaseGap s ch).1 (r.releaseGap s ch).2 := by
  have hset : Calm (r.touch ch) ((r.touch ch).set ch
      { (r.touch ch).get ch with order := ((r.touch ch).get ch).order.release.1 }) [] :=
    set_calm rfl .nil
  exact ((touch_calm ch).andThen hset).thenArms (assemble_arms s ch _)

theorem acceptDelta_arms (s : Speech) (ch : ChannelId) (d : Delta) :
    Arms ch r (r.acceptDelta s ch d).1 (r.acceptDelta s ch d).2 := by
  have htimer : ∀ g, Plain [.timer deltaGap (.gap ch g)] := fun g =>
    ⟨rfl, rfl, fun seq h => nomatch List.mem_singleton.mp h⟩
  have hset : ∀ {r' : Rules} {o : DeltaOrder} {out : List Action}, Plain out →
      Calm r' (r'.set ch { r'.get ch with order := o }) out := fun ho => set_calm rfl ho
  have hgen : Calm r (r.touch ch).gen.1 [] := (touch_calm ch).andThen gen_calm
  unfold acceptDelta
  dsimp only
  split
  · exact ((hgen.andThen (hset (htimer _))).arms ch).trans (assemble_arms s ch _)
  · exact ((touch_calm ch).andThen (hset .nil)).thenArms (assemble_arms s ch _)

theorem noteSeen_calm (s : Speech) (ch : ChannelId) (d : Delta) :
    Calm r (r.noteSeen s ch d) [] := by
  refine modify_calm fun c => ?_
  split
  · cases h : c.leadInWait <;> simp [Turn.waiting, Turn.heldItems, h]
  · rfl

/-- A streamed delta arms at most the settle window. -/
theorem streamDelta_arms (s : Speech) (ch : ChannelId) (d : Delta) :
    Arms ch r (r.streamDelta s ch d).1 (r.streamDelta s ch d).2 :=
  (chained_arms ch).streamDelta d ((noteSeen_calm s ch d).arms ch)
    (fun _ => (set_calm (by rfl) .nil).arms ch) (fun _ _ => (set_calm (by rfl) .nil).arms ch)
    (fun _ => releaseGap_arms s ch) fun _ => acceptDelta_arms s ch d

theorem stream_arms {s : Speech} {ch : ChannelId} {turn : Option String} {delta : Text}
    {index : Nat} {fin : Bool} {t : Option Rat} {p : Rules × List Action}
    (h : r.stream s ch turn delta index fin t = some p) : Arms ch r p.1 p.2 :=
  Chained.stream (streamDelta_arms s ch _) h

end Rules

end Sonara.L3
