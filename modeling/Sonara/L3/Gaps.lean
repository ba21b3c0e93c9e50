import Mathlib.Data.Finset.Lattice.Lemmas
import Sonara.L3.Ordered
import Sonara.L3.Stale

/-!
# Gaps and their timers

A gap begins when a delta is held and none was: its timer is asked for, under a fresh
generation (`Begins`). No other method holds anything, or moves the generation while
something is held (`Eases`). So what a channel holds is held under the generation of the
timer asked for when the gap began (`held_since`), and the timer of a gap that ended does
nothing (`ended_fire`).
-/

namespace Sonara.L3

open Sonara Text
open Sonara.L2 (ChannelId)
open Sonara.Prose (Speech Chunk)

/-- The gap a timer is for. -/
def Timer.gap? : Timer → Option (ChannelId × Nat)
  | .gap ch g => some (ch, g)
  | _ => none

/-- The gap timers asked for. -/
def gaps (out : List Action) : List (ChannelId × Nat) := (asked out).filterMap Timer.gap?

theorem gaps_append (out o : List Action) : gaps (out ++ o) = gaps out ++ gaps o := by
  unfold gaps
  rw [asked_append, List.filterMap_append]

theorem Untasked.gaps {out : List Action} (h : Untasked out) : gaps out = [] := by
  unfold L3.gaps
  rw [h.asked]
  rfl

/-! ## One delta -/

namespace DeltaOrder

variable {o : DeltaOrder} {d : Delta}

/-- Deltas are held. -/
def Holds (o : DeltaOrder) : Prop := o.ahead ≠ ∅

theorem not_holds_release (o : DeltaOrder) : ¬o.release.1.Holds := fun h => h rfl

/-- Following the order begins no gap. -/
theorem follow_holds (m : Nat) (o : DeltaOrder) (h : (follow m o).1.Holds) :
    o.Holds ∧ (follow m o).1.gen = o.gen := by
  induction m generalizing o with
  | zero => exact ⟨h, rfl⟩
  | succ m ih =>
    unfold follow at h ⊢
    split at h
    next text fin hget =>
      obtain ⟨-, hgen⟩ := ih _ h
      refine ⟨fun hempty => ?_, hgen⟩
      rw [hempty, Std.ExtTreeMap.getElem?_empty] at hget
      cases hget
    · exact ⟨h, rfl⟩

/-- Starting a block begins no gap. -/
theorem startBlock_holds {index : Nat} (h : (o.startBlock index).1.Holds) :
    o.Holds ∧ (o.startBlock index).1.gen = o.gen := by
  unfold startBlock at h ⊢
  split
  next hzero =>
    rw [if_pos hzero] at h
    by_cases hnext : 0 < o.next
    · rw [if_pos hnext] at h
      exact absurd rfl h
    · rw [if_neg hnext] at h ⊢
      exact ⟨h, rfl⟩
  next hzero =>
    rw [if_neg hzero] at h
    exact ⟨h, rfl⟩

theorem isEmpty_iff : o.ahead.isEmpty = true ↔ ¬o.Holds := by
  unfold Holds
  rw [Std.ExtTreeMap.isEmpty_iff, not_not]

/-- What is held after a delta that begins no gap was held before, under its generation. -/
theorem accept_holds (h : (o.accept d).2.2 = false) (hheld : (o.accept d).1.Holds) :
    o.Holds ∧ (o.accept d).1.gen = o.gen := by
  have hstart : (o.startBlock d.index).1.Holds → o.Holds ∧ (o.startBlock d.index).1.gen = o.gen :=
    startBlock_holds
  unfold accept at h hheld ⊢
  dsimp only at h hheld ⊢
  generalize o.startBlock d.index = p at hstart h hheld ⊢
  generalize hq : (if d.index ≠ p.1.next ∧ d.index ∈ p.1.skipped then
    { p.1 with skipped := p.1.skipped.erase d.index } else p.1) = q at h hheld ⊢
  have hsame : q.ahead = p.1.ahead ∧ q.gen = p.1.gen := by
    rw [← hq]
    split
    · exact ⟨rfl, rfl⟩
    · exact ⟨rfl, rfl⟩
  have hback : q.Holds → o.Holds ∧ q.gen = o.gen := by
    intro hqh
    have hp : p.1.Holds := by
      unfold Holds at hqh ⊢
      rwa [hsame.1] at hqh
    exact ⟨(hstart hp).1, hsame.2.trans (hstart hp).2⟩
  split at hheld
  · exact absurd hheld (not_holds_release q)
  next hnot =>
    rw [if_neg hnot] at h ⊢
    split at hheld
    next hlt =>
      rw [if_pos hlt] at h ⊢
      refine hback fun hempty => ?_
      rw [Std.ExtTreeMap.isEmpty_iff.mpr hempty] at h
      cases h
    next hle =>
      rw [if_neg hle]
      unfold expected at hheld ⊢
      dsimp only at hheld ⊢
      have hfollow := follow_holds q.ahead.size { q with next := after d.index d.fin
                                                         skipped := q.skipped.erase d.index } hheld
      have hempty : ¬(follow q.ahead.size { q with next := after d.index d.fin
                                                   skipped := q.skipped.erase d.index
                                                   }).1.ahead.isEmpty := fun he =>
        isEmpty_iff.mp he hheld
      rw [if_neg hempty]
      obtain ⟨hqh, hgen⟩ := hback hfollow.1
      exact ⟨hqh, hfollow.2.trans hgen⟩

/-- A gap begins where nothing is held, ahead of index 0. -/
theorem accept_begins (h : (o.accept d).2.2 = true) : ¬o.Holds ∧ 0 < d.index := by
  by_cases hzero : d.index = 0
  · have hnext : (o.startBlock d.index).1.next = 0 := by
      unfold startBlock
      rw [if_pos hzero]
    unfold accept at h
    dsimp only at h
    generalize o.startBlock d.index = p at hnext h
    generalize hq : (if d.index ≠ p.1.next ∧ d.index ∈ p.1.skipped then
      { p.1 with skipped := p.1.skipped.erase d.index } else p.1) = q at h
    have hq0 : q.next = 0 := by
      rw [← hq]
      split
      · exact hnext
      · exact hnext
    split at h
    · cases h
    · rw [if_neg (by omega)] at h
      cases h
  · have hstart : o.startBlock d.index = (o, []) := if_neg hzero
    unfold accept at h
    dsimp only at h
    rw [hstart] at h
    dsimp only at h
    generalize hq : (if d.index ≠ o.next ∧ d.index ∈ o.skipped then
      { o with skipped := o.skipped.erase d.index } else o) = q at h
    have hsame : q.ahead = o.ahead := by
      rw [← hq]
      split
      · rfl
      · rfl
    split at h
    · cases h
    · split at h
      · dsimp only at h
        rw [hsame] at h
        exact ⟨isEmpty_iff.mp h, Nat.pos_of_ne_zero hzero⟩
      · cases h

end DeltaOrder

namespace Rules

variable {r r' r'' : Rules} {s : Speech} {ch : ChannelId} {out o : List Action} {L : Leave}

/-! ## Methods that begin no gap -/

def order (r : Rules) (ch : ChannelId) : DeltaOrder := (r.get ch).order

/-- No gap begins: what is held was held before, under the same generation. -/
structure Eases (r r' : Rules) (out : List Action) : Prop where
  none : gaps out = []
  held : ∀ {a}, (r'.order a).Holds → (r.order a).Holds ∧ (r'.order a).gen = (r.order a).gen

theorem Eases.refl (r : Rules) : Eases r r [] := ⟨rfl, fun h => ⟨h, rfl⟩⟩

theorem Eases.trans (e : Eases r r' out) (e' : Eases r' r'' o) : Eases r r'' (out ++ o) where
  none := by rw [gaps_append, e.none, e'.none]; rfl
  held h := by
    obtain ⟨h', hgen'⟩ := e'.held h
    obtain ⟨h'', hgen⟩ := e.held h'
    exact ⟨h'', hgen'.trans hgen⟩

theorem chained_eases : Chained Eases := ⟨.refl, .trans⟩

/-- A silent method, then another. -/
theorem Eases.andThen (e : Eases r r' []) (e' : Eases r' r'' o) : Eases r r'' o := e.trans e'

/-- A method, then a silent one. -/
theorem Eases.thenSilent (e : Eases r r' out) (e' : Eases r' r'' []) : Eases r r'' out := by
  have h := e.trans e'
  rwa [List.append_nil] at h

/-- A silent method that returns actions of its own. -/
theorem Eases.emit (e : Eases r r' []) (h : gaps out = []) : Eases r r' out := ⟨h, e.held⟩

theorem Eases.plus (e : Eases r r' out) (h : gaps o = []) : Eases r r' (out ++ o) :=
  e.trans ((Eases.refl r').emit h)

/-- Rules with the same turns. -/
theorem Eases.sameTurns (e : Eases r r' out) (h : r''.turns = r'.turns) : Eases r r'' out where
  none := e.none
  held {a} ha := by
    have hsame : r''.order a = r'.order a := by
      unfold order get
      rw [h]
    rw [hsame] at ha ⊢
    exact e.held ha

theorem order_touch (a ch : ChannelId) : (r.touch ch).order a = r.order a := by
  unfold touch
  split
  · rfl
  next hnew =>
    by_cases ha : a = ch
    · subst ha
      have hself : ({ r.gen.1 with turns := r.turns.insert a { gen := r.gen.2 } } : Rules).get a =
          { gen := r.gen.2 } := get_set_self (r := r.gen.1) a _
      unfold order
      rw [hself, get_of_not_mem hnew]
    · have hframe : (r.turns.insert ch { gen := r.gen.2 })[a]? = r.turns[a]? :=
        set_frame (r := r) ha { gen := r.gen.2 }
      unfold order get
      exact congrArg (fun c => (Option.getD c { gen := 0 }).order) hframe

theorem order_set_self (c : Turn) : (r.set ch c).order ch = c.order := by
  unfold order
  rw [get_set_self]

theorem order_set_ne {a : ChannelId} (h : a ≠ ch) (c : Turn) :
    (r.set ch c).order a = r.order a := by
  unfold order get
  rw [set_frame h]

theorem touch_eases (ch : ChannelId) : Eases r (r.touch ch) [] := by
  refine ⟨rfl, fun {a} h => ?_⟩
  rw [order_touch] at h ⊢
  exact ⟨h, rfl⟩

theorem set_eases {c : Turn}
    (h : c.order.Holds → (r.order ch).Holds ∧ c.order.gen = (r.order ch).gen) :
    Eases r (r.set ch c) [] := by
  refine ⟨rfl, fun {a} ha => ?_⟩
  by_cases hch : a = ch
  · subst hch
    rw [order_set_self] at ha ⊢
    exact h ha
  · rw [order_set_ne hch] at ha ⊢
    exact ⟨ha, rfl⟩

/-- A turn is written with the order it had. -/
theorem set_same {c : Turn} (h : c.order = r.order ch) : Eases r (r.set ch c) [] := by
  refine set_eases fun hc => ?_
  rw [h] at hc ⊢
  exact ⟨hc, rfl⟩

theorem touchSet_same {c : Turn} (h : c.order = (r.touch ch).order ch) :
    Eases r ((r.touch ch).set ch c) [] := (touch_eases ch).andThen (set_same h)

theorem modify_same {f : Turn → Turn} (h : ∀ c, (f c).order = c.order) :
    Eases r (r.modify ch f) [] :=
  touchSet_same (h _)

theorem gen_eases : Eases r r.gen.1 [] := (Eases.refl r).sameTurns rfl

theorem dropHeld_eases : Eases r (r.dropHeld ch).1 [] :=
  (touch_eases ch).andThen (set_eases fun h => absurd h (DeltaOrder.not_holds_release _))

theorem holdKept_eases : Eases r (r.holdKept ch).1 [] := touchSet_same (by rfl)

theorem flushProseUpto_eases (n : Nat) :
    Eases r (r.flushProseUpto ch n).1 (r.flushProseUpto ch n).2 :=
  Eases.emit (touchSet_same (by rfl)) (sayProse_idle _).gaps

theorem flushProse_eases : Eases r (r.flushProse ch).1 (r.flushProse ch).2 :=
  (touch_eases ch).andThen (flushProseUpto_eases _)

theorem armSettle_eases : Eases r (r.armSettle ch).1 (r.armSettle ch).2 := by
  unfold armSettle
  refine Eases.emit (gen_eases.andThen ?_) rfl
  dsimp only
  exact modify_same fun _ => rfl

theorem holdTexts_eases (texts : List (Text × Bool)) (breaks : Option Nat) :
    Eases r (r.holdTexts ch texts breaks).1 (r.holdTexts ch texts breaks).2 :=
  chained_eases.holdTexts texts breaks (set_same (by rfl)) (fun _ => flushProse_eases)
    fun _ n => flushProseUpto_eases n

theorem assemble_eases (ds : List Delta) :
    Eases r (r.assemble s ch ds).1 (r.assemble s ch ds).2 :=
  chained_eases.assemble ds (fun h => touchSet_same (h.same Turn.order rfl))
    (fun _ => armSettle_eases) fun texts breaks _ => holdTexts_eases texts breaks

theorem releaseGap_eases : Eases r (r.releaseGap s ch).1 (r.releaseGap s ch).2 :=
  ((touch_eases ch).andThen (set_eases fun h => absurd h (DeltaOrder.not_holds_release _))).andThen
    (assemble_eases _)

/-! ## A gap begins -/

/-- A gap begins in `ch`, where nothing was held, and its timer is asked for under a new
generation. -/
structure Begins (ch : ChannelId) (r r' : Rules) (out : List Action) : Prop where
  before : ¬(r.order ch).Holds
  timer : ∃ g, gaps out = [(ch, g)] ∧ r.nextGen < g ∧ g ≤ r'.nextGen ∧
    ((r'.order ch).Holds → (r'.order ch).gen = g)
  others : ∀ {a}, a ≠ ch → (r'.order a).Holds →
    (r.order a).Holds ∧ (r'.order a).gen = (r.order a).gen

/-- What a method does to the gaps. -/
inductive Gapped (r r' : Rules) (out : List Action) : Prop
  | eases (e : Eases r r' out)
  | begins {ch : ChannelId} (b : Begins ch r r' out)

/-- A gap that began stays, through what begins none. -/
theorem Begins.then (b : Begins ch r r' out) (e : Eases r' r'' o)
    (hmono : r'.nextGen ≤ r''.nextGen) :
    Begins ch r r'' (out ++ o) where
  before := b.before
  timer := by
    obtain ⟨g, hgaps, hlt, hle, hgen⟩ := b.timer
    refine ⟨g, by
      rw [gaps_append, hgaps, e.none, List.append_nil], hlt, hle.trans hmono, fun h => ?_⟩
    obtain ⟨h', hsame⟩ := e.held h
    exact hsame.trans (hgen h')
  others hne h := by
    obtain ⟨h', hsame⟩ := e.held h
    obtain ⟨h'', hgen⟩ := b.others hne h'
    exact ⟨h'', hsame.trans hgen⟩

/-- A delta in its order begins no gap. -/
theorem acceptDelta_eases {d : Delta} (h : ((r.order ch).accept d).2.2 = false) :
    Eases r (r.acceptDelta s ch d).1 (r.acceptDelta s ch d).2 := by
  rw [← order_touch (r := r) ch ch] at h
  unfold acceptDelta
  dsimp only
  split
  next hgap =>
    have hgap' : (((r.touch ch).order ch).accept d).2.2 = true := hgap
    rw [h] at hgap'
    cases hgap'
  · have haccept : (((r.touch ch).order ch).accept d).1.Holds →
        ((r.touch ch).order ch).Holds ∧ (((r.touch ch).order ch).accept d).1.gen =
          ((r.touch ch).order ch).gen :=
      DeltaOrder.accept_holds h
    exact ((touch_eases ch).andThen (set_eases (by exact haccept))).andThen (assemble_eases _)

/-- A delta that begins a gap arms the gap's timer under a new generation. -/
theorem acceptDelta_begins {d : Delta} (h : ((r.order ch).accept d).2.2 = true) :
    Begins ch r (r.acceptDelta s ch d).1 (r.acceptDelta s ch d).2 := by
  have hbefore := (DeltaOrder.accept_begins h).1
  rw [← order_touch (r := r) ch ch] at h
  have hmono : r.nextGen ≤ (r.touch ch).nextGen :=
    (touch_ages (L := ⟨fun _ => False, False, False⟩) ch).mono
  unfold acceptDelta
  dsimp only
  split
  · have hset : Begins ch r ((r.touch ch).gen.1.set ch { (r.touch ch).get ch with
        order := { (((r.touch ch).get ch).order.accept d).1 with gen := (r.touch ch).gen.2 } })
          [.timer deltaGap (.gap ch (r.touch ch).gen.2)] := by
      refine ⟨hbefore, ⟨(r.touch ch).gen.2, rfl, Nat.lt_succ_of_le hmono, Nat.le_refl _,
        fun _ => ?_⟩,
        fun {a} ha hheld => ?_⟩
      · rw [order_set_self]
      · rw [order_set_ne ha] at hheld ⊢
        exact ((touch_eases ch).andThen gen_eases).held hheld
    exact hset.then (assemble_eases _) (assemble_ages (L := ⟨fun _ => False, False, False⟩) _).mono
  next hgap => exact absurd h hgap

theorem acceptDelta_gapped (d : Delta) :
    Gapped r (r.acceptDelta s ch d).1 (r.acceptDelta s ch d).2 := by
  cases h : ((r.order ch).accept d).2.2 with
  | false => exact .eases (acceptDelta_eases h)
  | true => exact .begins (acceptDelta_begins h)

/-- No gap begins at index 0. -/
theorem acceptDelta_first {d : Delta} (h : d.index = 0) :
    Eases r (r.acceptDelta s ch d).1 (r.acceptDelta s ch d).2 := by
  refine acceptDelta_eases ?_
  rw [Bool.eq_false_iff]
  intro hgap
  have hpos := (DeltaOrder.accept_begins hgap).2
  omega

/-- A method that keeps the orders, and then one more. -/
theorem Gapped.after (hsame : ∀ a, r'.order a = r.order a) (hmono : r.nextGen ≤ r'.nextGen)
    (g : Gapped r' r'' out) : Gapped r r'' out := by
  cases g with
  | eases e =>
    refine .eases ⟨e.none, fun {a} h => ?_⟩
    rw [← hsame a]
    exact e.held h
  | @begins ch b =>
    obtain ⟨g, hgaps, hlt, hle, hgen⟩ := b.timer
    have hbefore : ¬(r.order ch).Holds := by
      rw [← hsame ch]
      exact b.before
    refine .begins ⟨hbefore, ⟨g, hgaps, Nat.lt_of_le_of_lt hmono hlt, hle, hgen⟩,
      fun {a} ha h => ?_⟩
    · rw [← hsame a]
      exact b.others ha h

theorem noteSeen_eases (d : Delta) : Eases r (r.noteSeen s ch d) [] := by
  refine modify_same fun c => ?_
  split
  · rfl
  · rfl

theorem noteSeen_order (d : Delta) (a : ChannelId) : (r.noteSeen s ch d).order a = r.order a := by
  unfold noteSeen modify
  by_cases ha : a = ch
  · subst ha
    rw [order_set_self, ← order_touch a a]
    split
    · rfl
    · rfl
  · rw [order_set_ne ha, order_touch]

/-- A delta at index 0 begins no gap. -/
theorem streamDelta_first {d : Delta} (h : d.index = 0) :
    Eases r (r.streamDelta s ch d).1 (r.streamDelta s ch d).2 := by
  have hseen : Eases r (r.noteSeen s ch d) [] := noteSeen_eases d
  unfold streamDelta
  dsimp only
  split
  · exact hseen.andThen (set_same (by rfl))
  · split
    · exact hseen
    · split
      · exact hseen.andThen (set_same (by rfl))
      · refine hseen.andThen (Eases.trans ?_ (acceptDelta_first h))
        split
        · exact releaseGap_eases
        · exact .refl _

/-- A delta begins a gap, or none. -/
theorem streamDelta_gapped (d : Delta) :
    Gapped r (r.streamDelta s ch d).1 (r.streamDelta s ch d).2 := by
  by_cases hzero : d.index = 0
  · exact .eases (streamDelta_first hzero)
  · have hseen : Eases r (r.noteSeen s ch d) [] := noteSeen_eases d
    have hmono : r.nextGen ≤ (r.noteSeen s ch d).nextGen :=
      (noteSeen_ages (L := ⟨fun _ => False, False, False⟩) d).mono
    unfold streamDelta
    dsimp only
    rw [if_neg fun h => hzero h.1]
    split
    · exact .eases hseen
    · split
      · exact .eases (hseen.andThen (set_same (by rfl)))
      · rw [if_neg fun h => hzero h.1]
        exact (acceptDelta_gapped d).after (noteSeen_order d) hmono

/-! ## Decisions and lead-ins -/

theorem stream_gapped {turn : Option String} {delta : Text} {index : Nat} {fin : Bool}
    {t : Option Rat} {p : Rules × List Action} (h : r.stream s ch turn delta index fin t = some p) :
    Gapped r p.1 p.2 :=
  Chained.stream (streamDelta_gapped _) h

theorem enqueueOrHold_eases (d : Decision) (digesting : Bool) :
    Eases r (r.enqueueOrHold ch d digesting).1 (r.enqueueOrHold ch d digesting).2 := by
  unfold enqueueOrHold
  dsimp only
  split
  · exact Eases.emit (touchSet_same (by rfl)) rfl
  · exact ((touch_eases ch).andThen flushProse_eases).plus (speakDecision_idle d).gaps

theorem enqueueAll_eases (digesting : Bool) (ds : List Decision) :
    Eases r (enqueueAll ch digesting ds r).1 (enqueueAll ch digesting ds r).2 := by
  induction ds generalizing r with
  | nil => exact .refl r
  | cons d ds ih => exact (enqueueOrHold_eases d digesting).trans ih

theorem releaseLeadInWait_eases : Eases r (r.releaseLeadInWait ch).1
    (r.releaseLeadInWait ch).2 := by
  have hgone : Eases r (r.modify ch fun c => { c with leadInWait := none }) [] :=
    modify_same fun _ => rfl
  unfold releaseLeadInWait
  dsimp only
  split
  · exact hgone.andThen armSettle_eases
  · exact (hgone.andThen (set_same (by rfl))).andThen (enqueueAll_eases false _)

theorem waitLeadIn_eases (a : Ask) : Eases r (r.waitLeadIn ch a).1 (r.waitLeadIn ch a).2 := by
  unfold waitLeadIn
  dsimp only
  split
  · exact touch_eases ch
  · refine Eases.emit (((touch_eases ch).andThen gen_eases).andThen ?_) rfl
    dsimp only
    exact modify_same fun _ => rfl

/-- A streamed lead-in begins no gap. -/
theorem streamLeadIn_eases {turn : Option String} {delta : Text} {t : Option Rat}
    {p : Rules × List Action} (h : r.streamLeadIn s ch turn delta t = some p) :
    Eases r p.1 p.2 :=
  chained_eases.streamLeadIn dropHeld_eases (fun _ _ => touchSet_same (by rfl))
    (fun h => Chained.stream (streamDelta_first rfl) h) (fun _ _ _ => modify_same fun _ => rfl) h

/-- A lead-in begins no gap. -/
theorem takeLeadIn_eases {turn : Option String} {delta : Text} {id : Option String} {t : Option Rat}
    {p : Rules × List Action} (h : r.takeLeadIn s ch turn delta id t = some p) :
    Eases r p.1 p.2 :=
  chained_eases.takeLeadIn streamLeadIn_eases (fun _ => releaseLeadInWait_eases) h

theorem dropBefore_eases (kind : Kind) : Eases r (r.dropBefore ch kind) [] := by
  unfold dropBefore
  split
  · exact dropHeld_eases
  · exact .refl r

theorem extras_eases (a : Ask) : Eases r (r.extras ch a).1 [] := by
  unfold extras
  dsimp only
  split
  · exact .refl r
  · split
    · exact set_same (by rfl)
    · exact .refl r

/-- Accepting a decision begins no gap. -/
theorem accept_eases (a : Ask) (item : Decision) :
    Eases r (r.accept ch a item).1 (r.accept ch a item).2 :=
  chained_eases.accept a item (set_same (by rfl)) (fun _ => waitLeadIn_eases a)
    (fun _ => armSettle_eases) (set_same (by rfl)) (fun _ => enqueueOrHold_eases item false)
    fun _ _ => modify_same fun _ => rfl

theorem pose_eases (a : Ask) {text : Text} (ht : Spoken text) (kind : Kind) :
    Eases r (r.pose ch a text ht kind).1 (r.pose ch a text ht kind).2 := by
  have hdrop : Eases r (r.dropBefore ch kind) [] := dropBefore_eases kind
  have hcount : Eases r { ((r.dropBefore ch kind).extras ch a).1 with
      nextDecision := ((r.dropBefore ch kind).extras ch a).1.nextDecision + 1 } [] :=
    (hdrop.andThen (extras_eases a)).sameTurns rfl
  exact hcount.andThen (accept_eases a _)

theorem keepLater_eases {a : Ask} (hk : r.keepLater ch a = some r') : Eases r r' [] :=
  Chained.keepLater (fun _ => set_same (by rfl)) hk

theorem question_eases (a : Ask) : Eases r (r.question ch a).1 (r.question ch a).2 := by
  refine Eases.emit (set_same (by rfl)) (Untasked.gaps (Idle.toUntasked ?_))
  unfold question
  dsimp only
  split
  · exact .nil
  · exact earcon_idle _

theorem earcon_eases (e : Earcon) : Eases r r (r'.earcon e) :=
  (Eases.refl r).emit (earcon_idle e).gaps

/-- `ask` begins no gap. -/
theorem ask_eases (a : Ask) : Eases r (r.ask s ch a).1 (r.ask s ch a).2 :=
  chained_eases.ask a releaseGap_eases keepLater_eases (question_eases a) (set_same (by rfl))
    (fun _ => earcon_eases _) fun h kind _ => pose_eases a h kind

/-! ## Turns, tools, stop and flush -/

/-- Taking a reply begins no gap. -/
theorem takeReply_eases : Eases r (r.takeReply s ch).1 (r.takeReply s ch).2 :=
  chained_eases.takeReply (touchSet_same (by rfl))
    (fun _ _ => dropHeld_eases.andThen (set_eases fun h => by exact ⟨h, rfl⟩))
    (fun _ ds => assemble_eases ds) fun _ => modify_same fun _ => rfl

/-- A turn's end begins no gap. -/
theorem turnEnd_eases {turn : Option String} {t : Option Rat} {p : Rules × List Action}
    (h : r.turnEnd s ch turn t = some p) : Eases r p.1 p.2 :=
  chained_eases.turnEnd releaseGap_eases (fun _ => takeReply_eases)
    (fun _ => modify_same fun _ => rfl) (fun _ => holdKept_eases) (fun _ => flushProse_eases)
    (fun _ => armSettle_eases) (fun _ => earcon_eases _) h

theorem resolve_eases : Eases r (r.resolve ch) [] := modify_same fun _ => rfl

/-- A tool call begins no gap. -/
theorem tool_eases (name summary : Text) :
    Eases r (r.tool s ch name summary).1 (r.tool s ch name summary).2 :=
  chained_eases.tool name summary resolve_eases (fun _ => modify_same fun _ => rfl)
    (fun _ => releaseGap_eases) (fun _ => flushProse_eases)
    fun r _ _ => (Eases.refl r).emit (toolLine_idle _).gaps

theorem catchUp_eases : Eases r (r.catchUp ch).1 [] := by
  unfold catchUp
  dsimp only
  exact ((gen_eases.andThen gen_eases).andThen dropHeld_eases).andThen (set_same (by rfl))

theorem answered_eases : Eases r (r.answered ch).1 (r.answered ch).2 :=
  (resolve_eases.andThen catchUp_eases).emit rfl

theorem stopAll_eases : Eases r r.stopAll [] :=
  chained_eases.stopAll (fun _ _ => modify_same fun _ => rfl) fun _ _ => catchUp_eases

theorem flush_eases : Eases r (r.flush ch).1 (r.flush ch).2 := by
  unfold flush
  split
  · have hskip : Eases r (r.modify ch fun c => { c with skipReply := true }) [] :=
      modify_same fun _ => rfl
    exact (hskip.andThen catchUp_eases).emit (release_idle _).gaps
  · exact .refl r

theorem flushReady_eases (queued : Bool) :
    Eases r (r.flushReady ch queued).1 ((r.flushReady ch queued).2.getD []) := by
  unfold flushReady
  split
  · exact .refl r
  · dsimp only
    split
    · have hskip : Eases (r.catchUp ch).1
          ((r.catchUp ch).1.modify ch fun c => { c with skipReply := true }) [] :=
        modify_same fun _ => rfl
      exact (catchUp_eases.andThen hskip).emit (release_idle _).gaps
    · exact catchUp_eases

theorem takeNewTurn_eases : Eases r (r.takeNewTurn ch).1 [] := by
  unfold takeNewTurn
  split
  next c hc =>
    obtain ⟨-, rfl⟩ := mem_of_get? hc
    split
    · exact set_same (by rfl)
    · exact .refl r
  · exact .refl r

theorem close_eases : Eases r (r.close ch) [] := by
  refine ⟨rfl, fun {a} h => ?_⟩
  by_cases ha : a = ch
  · subst ha
    unfold order at h
    rw [get_of_not_mem close_not_mem] at h
    exact absurd rfl h
  · have hsame : (r.close ch).order a = r.order a := by
      unfold order get
      rw [close_get? ha]
    rw [hsame] at h ⊢
    exact ⟨h, rfl⟩

theorem renew_order (turn : Option String) (t : Option Rat) (c : Turn) :
    (renew turn t c).order = c.order := by
  unfold renew retire
  dsimp only
  split
  · split
    · rfl
    · rfl
  · rfl

theorem turnStart_eases {turn : Option String} {t : Option Rat} {p : Rules × List Action}
    (h : r.turnStart ch turn t = some p) : Eases r p.1 p.2 := by
  unfold turnStart at h
  split at h
  · cases h
  · obtain rfl := Option.some.inj h
    have hrenew : Eases r (r.gen.1.gen.1.modify ch (renew turn t)) [] :=
      (gen_eases.andThen gen_eases).andThen (modify_same (renew_order turn t))
    have hdrop := hrenew.andThen (@dropHeld_eases _ ch)
    have hempty : ∀ {r₁ : Rules} (g g' : Nat), Eases r₁
        (r₁.modify ch fun c => (emptied c).cancel g g') [] :=
      fun g g' => (touch_eases ch).andThen (set_eases fun h => by exact ⟨h, rfl⟩)
    exact Eases.emit (hdrop.andThen (hempty _ _)) rfl

/-! ## Summaries and timers -/

theorem applyAll_eases (p : Lib.Reorder Release × List Release) :
    Eases r (r.applyAll s p).1 (r.applyAll s p).2 :=
  Eases.emit ((Eases.refl r).sameTurns rfl) (Untasked.flatMap apply_untasked _).gaps

theorem land_eases (seq : Option Nat) (rel : Release) :
    Eases r (r.land s seq rel).1 (r.land s seq rel).2 := by
  unfold land
  cases seq with
  | none => exact (Eases.refl r).emit (apply_untasked rel).gaps
  | some seq => exact applyAll_eases _

theorem dispatch_eases (text : Text) (leadin : Bool) :
    Eases r (r.dispatch ch text leadin).1 (r.dispatch ch text leadin).2 := by
  have hset : Eases r (r.set ch (sent (r.get ch) (r.nextToken + 1))) [] := set_same (by rfl)
  unfold dispatch
  dsimp only
  split
  · exact Eases.emit (hset.sameTurns rfl) rfl
  · exact Eases.emit (hset.sameTurns rfl) rfl

theorem landShort_eases (rel : Release) :
    Eases r (r.landShort s rel).1 (r.landShort s rel).2 := by
  have halloc : Eases r { r with buffer := r.buffer.alloc.1 } [] := (Eases.refl r).sameTurns rfl
  exact halloc.andThen (land_eases (some r.buffer.alloc.2) rel)

/-- A recap begins no gap. -/
theorem maybeSummarize_eases (leadin : Bool) (focused : Option ChannelId) :
    Eases r (r.maybeSummarize s ch leadin focused).1
      (r.maybeSummarize s ch leadin focused).2.1 :=
  chained_eases.maybeSummarize leadin focused holdKept_eases (fun _ => flushProse_eases)
    (touch_eases ch) (touchSet_same (by rfl))
    (fun r _ => (Eases.refl r).emit (speakChunks_idle _).gaps) (fun _ _ => landShort_eases _)
    fun text _ => dispatch_eases text leadin

theorem settled_eases (focused : Option ChannelId) :
    Eases r (r.settled s ch focused).1 (r.settled s ch focused).2 := by
  have hset : Eases r (r.set ch { r.get ch with settleArmed := false }) [] := set_same (by rfl)
  unfold settled
  dsimp only
  split
  · exact hset
  · have htaken : Eases r ((r.set ch { r.get ch with settleArmed := false }).set ch
        { r.get ch with settleArmed := false, pending := [] }) [] := by
      refine hset.andThen (set_same ?_)
      rw [order_set_self]
    exact (htaken.andThen (maybeSummarize_eases _ _)).trans (enqueueAll_eases _ _)

theorem capped_eases (decision : Nat) :
    Eases r (r.capped ch decision).1 (r.capped ch decision).2 := by
  unfold capped
  split
  next c hc =>
    obtain ⟨-, rfl⟩ := mem_of_get? hc
    split
    · split
      · exact Eases.emit (set_same (by rfl)) (Idle.flatMap speakDecision_idle _).gaps
      · exact .refl r
    · exact .refl r
  · exact .refl r

/-- No timer begins a gap. -/
theorem fire_eases (timer : Timer) (focused : Option ChannelId) :
    Eases r (r.fire s timer focused).1 (r.fire s timer focused).2 := by
  unfold fire
  cases timer with
  | settle ch gen =>
    dsimp only
    split
    · exact settled_eases focused
    · exact .refl r
  | holdCap ch decision => exact capped_eases decision
  | watchdog seq => exact applyAll_eases _
  | leadIn ch gen =>
    dsimp only
    split
    · exact releaseLeadInWait_eases
    · exact .refl r
  | gap ch gen =>
    dsimp only
    split
    · exact releaseGap_eases
    · exact .refl r

theorem settleJob_eases (job : Job) : Eases r (r.settleJob job).1 [] := by
  unfold settleJob
  split
  next c hc =>
    obtain ⟨-, rfl⟩ := mem_of_get? hc
    exact set_same (by rfl)
  · exact .refl r

theorem digestDone_eases (job : Job) (summary : Option Text) :
    Eases r (r.digestDone s job summary).1 (r.digestDone s job summary).2 :=
  Eases.plus ((settleJob_eases job).andThen (land_eases job.seq _))
    (Idle.flatMap speakDecision_idle _).gaps

/-! ## Calls -/

theorem Steered.eases (h : Steered r r') : Eases r r' [] := by
  induction h with
  | refl => exact .refl _
  | @set r' ch c h hc questions readSet hinted ih =>
    obtain ⟨-, rfl⟩ := mem_of_get? hc
    exact ih.thenSilent (set_same (by rfl))

theorem getD_eases {p : Option (Rules × List Action)} (h : ∀ q, p = some q → Eases r q.1 q.2) :
    Eases r (p.getD (r, [])).1 (p.getD (r, [])).2 := by
  cases p with
  | none => exact .refl r
  | some q => exact h q rfl

/-- **A call begins a gap or eases the ones there are**; only a streamed delta begins one. -/
theorem call_gapped (c : Call) : Gapped r (r.call s c).1 (r.call s c).2 := by
  cases c with
  | stream ch turn delta index fin t =>
    show Gapped r ((r.stream s ch turn delta index fin t).getD (r, [])).1
      ((r.stream s ch turn delta index fin t).getD (r, [])).2
    cases h : r.stream s ch turn delta index fin t with
    | none => exact .eases (.refl r)
    | some p => exact stream_gapped h
  | leadIn ch turn delta t => exact .eases (getD_eases fun p h => takeLeadIn_eases h)
  | lateLeadIn ch turn delta id t => exact .eases (getD_eases fun p h => takeLeadIn_eases h)
  | reply ch turn text before t =>
    refine .eases ?_
    show Eases r ((r.reply ch turn text before t).getD r) []
    unfold reply
    split
    · exact .refl r
    · rw [Option.getD_some]
      exact modify_same fun _ => rfl
  | turnStart ch turn t => exact .eases (getD_eases fun p h => turnStart_eases h)
  | turnEnd ch turn t => exact .eases (getD_eases fun p h => turnEnd_eases h)
  | ask ch a => exact .eases (ask_eases a)
  | tool ch name summary => exact .eases (tool_eases name summary)
  | answered ch => exact .eases answered_eases
  | stopAll => exact .eases stopAll_eases
  | flush ch => exact .eases flush_eases
  | flushReady ch queued => exact .eases (flushReady_eases queued)
  | takeNewTurn ch => exact .eases takeNewTurn_eases
  | close ch => exact .eases close_eases
  | play e => exact .eases ((Eases.refl r).emit (earcon_idle e).gaps)
  | reviewLine ch =>
    have hidle : Idle (r.reviewLine ch) := speak_idle _ none fun _ => by decide
    exact .eases ((Eases.refl r).emit hidle.gaps)
  | setMuteLevel level =>
    refine .eases (Eases.emit ((Eases.refl r).sameTurns rfl) ?_)
    show gaps (if 1 ≤ min level muteLevelMax then [.silence] else []) = []
    split
    · rfl
    · rfl
  | setWholeMessages on => exact .eases ((Eases.refl r).sameTurns rfl)
  | setSettings settings => exact .eases ((Eases.refl r).sameTurns rfl)
  | bindQuestion ch entry stored => exact .eases (bindQuestion_steered entry stored).eases
  | questionShown ch shown => exact .eases (questionShown_steered s shown).eases
  | navigate ch step started => exact .eases (navigate_steered step started).eases
  | questionsUnheard ch => exact .eases questionsUnheard_steered.eases
  | rewindQuestions ch => exact .eases rewindQuestions_steered.eases

/-! ## A timer of a gap that ended -/

theorem set_get (h : ch ∈ r.turns) : r.set ch (r.get ch) = r := by
  unfold set
  have hsame : r.turns.insert ch (r.get ch) = r.turns := by
    refine Std.ExtTreeMap.ext_getElem? fun a => ?_
    rw [Std.ExtTreeMap.getElem?_insert]
    by_cases ha : ch = a
    · subst ha
      rw [if_pos Std.ReflCmp.compare_self, get?_of_mem h]
    · rw [if_neg (by simpa using ha)]
  rw [hsame]

/-- With nothing held there is nothing to release. -/
theorem releaseGap_nothing (hmem : ch ∈ r.turns) (h : ¬(r.order ch).Holds) :
    r.releaseGap s ch = (r, []) := by
  have hempty : (r.get ch).order.ahead = ∅ := not_not.mp h
  have hheld : (r.get ch).order.held = [] := DeltaOrder.held_empty hempty
  have hmissing : (r.get ch).order.missing = [] := by
    unfold DeltaOrder.missing
    rw [hempty, Std.ExtTreeMap.maxKey?_empty]
    rfl
  have hrelease : (r.get ch).order.release = ((r.get ch).order, []) := by
    unfold DeltaOrder.release
    dsimp only
    rw [hheld, hmissing, if_pos rfl, ← hempty, List.toFinset_nil, Finset.union_empty]
    rfl
  have htouch : r.touch ch = r := if_pos hmem
  unfold releaseGap
  dsimp only
  rw [htouch, hrelease]
  dsimp only
  rw [show ({ r.get ch with order := (r.get ch).order } : Turn) = r.get ch from rfl, set_get hmem]
  exact if_pos rfl

/-- **A gap timer of another generation, or with nothing held, does nothing.** -/
theorem fire_gap {g : Nat} (focused : Option ChannelId)
    (h : (r.order ch).Holds → (r.order ch).gen ≠ g) : r.fire s (.gap ch g) focused = (r, []) := by
  unfold fire
  dsimp only
  split
  next hany =>
    cases hc : r.turns[ch]? with
    | none =>
      rw [hc] at hany
      cases hany
    | some c =>
      obtain ⟨hmem, hget⟩ := mem_of_get? hc
      rw [hc, Option.any_some, beq_iff_eq, ← hget] at hany
      exact releaseGap_nothing hmem fun hheld => h hheld hany
  · rfl

end Rules

/-! ## Runs -/

section Runs

variable {s : Speech} {settings : Settings}

open Rules (Gapped)

/-- An input begins at most one gap. -/
theorem step_gapped (w : World) (i : Input) :
    Gapped w.rules (w.step s i).1.rules (w.step s i).2 := by
  cases i with
  | call c => exact Rules.call_gapped c
  | fire k focused =>
    unfold World.step
    dsimp only
    split
    next t _ => exact .eases (Rules.fire_eases t focused)
    · exact .eases (.refl _)
  | answer k summary =>
    unfold World.step
    dsimp only
    split
    next job _ => exact .eases (Rules.digestDone_eases job summary)
    · exact .eases (.refl _)

/-- The deltas of `ch` held for their order after a run. -/
def orderAfter (s : Speech) (settings : Settings) (ch : ChannelId) (is : List Input) : DeltaOrder :=
  ((machine s settings).state is).rules.order ch

/-- The gap of `ch` that `i` begins after the run `pre` asks for a timer of generation `g`. -/
def AsksGap (s : Speech) (settings : Settings) (ch : ChannelId) (pre : List Input) (i : Input)
    (g : Nat) : Prop := (ch, g) ∈ gaps ((machine s settings).answer pre i)

theorem orderAfter_snoc (ch : ChannelId) (is : List Input) (i : Input) :
    orderAfter s settings ch (is ++ [i]) =
      (((machine s settings).state is).step s i).1.rules.order ch := by
  unfold orderAfter
  rw [Lib.Machine.state_snoc]
  rfl

variable (s settings) in
theorem nextGen_mono (is js : List Input) :
    ((machine s settings).state is).rules.nextGen ≤
    ((machine s settings).state (is ++ js)).rules.nextGen := by
  induction js using List.reverseRecOn with
  | nil => rw [List.append_nil]
  | append_singleton js i ih =>
    rw [← List.append_assoc, Lib.Machine.state_snoc]
    obtain ⟨L, -, -, path, -, -⟩ :=
      World.step_turnovers (s := s) ((machine s settings).state (is ++ js)) i
    exact ih.trans path.mono

/-- A gap begins where nothing is held, under a new generation. -/
theorem AsksGap.begins {ch : ChannelId} {pre : List Input} {i : Input} {g : Nat}
    (h : AsksGap s settings ch pre i g) : ¬(orderAfter s settings ch pre).Holds ∧
      ((machine s settings).state pre).rules.nextGen < g ∧
      g ≤ ((machine s settings).state (pre ++ [i])).rules.nextGen ∧
      ((orderAfter s settings ch (pre ++ [i])).Holds →
        (orderAfter s settings ch (pre ++ [i])).gen = g) := by
  have hstep := step_gapped (s := s) ((machine s settings).state pre) i
  unfold AsksGap at h
  rw [orderAfter_snoc, Lib.Machine.state_snoc]
  cases hstep with
  | eases e =>
    have hnone : gaps ((machine s settings).answer pre i) = [] := e.none
    rw [hnone] at h
    exact absurd h List.not_mem_nil
  | @begins b hb =>
    obtain ⟨g', hgaps, hlt, hle, hgen⟩ := hb.timer
    have hone : gaps ((machine s settings).answer pre i) = [(b, g')] := hgaps
    rw [hone, List.mem_singleton] at h
    obtain ⟨rfl, rfl⟩ := Prod.mk.inj h
    exact ⟨hb.before, hlt, hle, hgen⟩

/-- The channel holds deltas since the gap that asked for the timer `g` began. -/
def HeldSince (s : Speech) (settings : Settings) (ch : ChannelId) (is : List Input)
    (g : Nat) : Prop :=
  ∃ pre i post, is = pre ++ i :: post ∧ ¬(orderAfter s settings ch pre).Holds ∧
    AsksGap s settings ch pre i g ∧ ∀ mid rest, post = mid ++ rest →
      (orderAfter s settings ch (pre ++ i :: mid)).Holds ∧
        (orderAfter s settings ch (pre ++ i :: mid)).gen = g

variable (s settings) in
/-- **What is held waits for the timer its gap asked for.** -/
theorem held_since (ch : ChannelId) (is : List Input) (h : (orderAfter s settings ch is).Holds) :
    HeldSince s settings ch is (orderAfter s settings ch is).gen := by
  induction is using List.reverseRecOn with
  | nil =>
    have hempty : orderAfter s settings ch [] = {} := by
      unfold orderAfter Rules.order
      rw [Rules.get_of_not_mem]
      exact Std.ExtTreeMap.not_mem_empty
    rw [hempty] at h
    exact absurd rfl h
  | append_singleton is i ih =>
    -- The gap was there before, and one more state is held.
    have hon : (orderAfter s settings ch is).Holds →
        (orderAfter s settings ch (is ++ [i])).gen = (orderAfter s settings ch is).gen →
          HeldSince s settings ch (is ++ [i]) (orderAfter s settings ch (is ++ [i])).gen := by
      intro hbefore hgen
      obtain ⟨pre, j, post, rfl, hnot, hask, hmid⟩ := ih hbefore
      rw [← hgen] at hask hmid
      refine ⟨pre, j, post ++ [i], by simp, hnot, hask, fun mid rest hpost => ?_⟩
      rcases List.eq_nil_or_concat rest with rfl | ⟨rest, x, rfl⟩
      · rw [List.append_nil] at hpost
        subst hpost
        have hall : pre ++ j :: (post ++ [i]) = pre ++ j :: post ++ [i] := by simp
        rw [hall]
        exact ⟨h, rfl⟩
      · rw [List.concat_eq_append, ← List.append_assoc] at hpost
        exact hmid mid rest (List.append_inj_left' hpost rfl)
    have hstep := step_gapped (s := s) ((machine s settings).state is) i
    have h' := h
    rw [orderAfter_snoc] at h'
    cases hstep with
    | eases e =>
      obtain ⟨hbefore, hgen⟩ := e.held h'
      exact hon hbefore (by rw [orderAfter_snoc]; exact hgen)
    | @begins b hb =>
      by_cases hch : ch = b
      · subst hch
        obtain ⟨g, hgaps, -, -, hgen⟩ := hb.timer
        refine ⟨is, i, [], rfl, hb.before, ?_, fun mid rest hpost => ?_⟩
        · have hone : gaps ((machine s settings).answer is i) = [(ch, g)] := hgaps
          unfold AsksGap
          rw [hone, orderAfter_snoc, hgen h']
          exact List.mem_singleton.mpr rfl
        · obtain ⟨rfl, -⟩ := List.append_eq_nil_iff.mp hpost.symm
          exact ⟨h, rfl⟩
      · obtain ⟨hbefore, hgen⟩ := hb.others hch h'
        exact hon hbefore (by rw [orderAfter_snoc]; exact hgen)

/-- **The timer of a gap that ended does nothing**, whatever is held since. -/
theorem ended_fire {ch : ChannelId} {pre mid rest : List Input} {i : Input} {g : Nat}
    (hask : AsksGap s settings ch pre i g)
    (hend : ¬(orderAfter s settings ch (pre ++ i :: mid)).Holds) (focused : Option ChannelId) :
    ((machine s settings).state (pre ++ i :: (mid ++ rest))).rules.fire s (.gap ch g) focused =
      (((machine s settings).state (pre ++ i :: (mid ++ rest))).rules, []) := by
  refine Rules.fire_gap focused fun hheld hgen => ?_
  obtain ⟨pre', j, post', hsplit, hnot', hask', hmid'⟩ :=
    held_since s settings ch (pre ++ i :: (mid ++ rest)) hheld
  have hgen' : (orderAfter s settings ch (pre ++ i :: (mid ++ rest))).gen = g := hgen
  rw [hgen'] at hask' hmid'
  obtain ⟨-, -, hle, -⟩ := hask.begins
  obtain ⟨-, hlt', -, -⟩ := hask'.begins
  -- The gap that holds now cannot have begun later: its generation would be larger.
  have hlen : pre'.length ≤ pre.length := by
    by_contra hlong
    obtain ⟨more, rfl⟩ : ∃ more, pre' = pre ++ [i] ++ more := by
      have hpre : pre ++ [i] <+: pre ++ i :: (mid ++ rest) := ⟨mid ++ rest, by simp⟩
      have hpre' : pre' <+: pre ++ i :: (mid ++ rest) := ⟨j :: post', hsplit.symm⟩
      obtain ⟨more, hmore⟩ := List.prefix_of_prefix_length_le hpre hpre' (by
        rw [List.length_append, List.length_singleton]
        omega)
      exact ⟨more, hmore.symm⟩
    have hmono := nextGen_mono s settings (pre ++ [i]) more
    omega
  -- So it held where the other gap had ended.
  obtain ⟨more, hmore⟩ : ∃ more, pre ++ i :: mid = pre' ++ j :: more := by
    have hlong : pre' ++ [j] <+: pre ++ i :: (mid ++ rest) := ⟨post', by rw [hsplit]; simp⟩
    have hshort : pre ++ i :: mid <+: pre ++ i :: (mid ++ rest) := ⟨rest, by simp⟩
    obtain ⟨more, hmore⟩ := List.prefix_of_prefix_length_le hlong hshort (by
      rw [List.length_append, List.length_append, List.length_singleton, List.length_cons]
      omega)
    exact ⟨more, by rw [← hmore]; simp⟩
  have hpost : post' = more ++ rest := by
    have hboth : pre' ++ j :: post' = pre' ++ j :: (more ++ rest) := by
      have hassoc : pre ++ i :: (mid ++ rest) = pre ++ i :: mid ++ rest := by simp
      rw [← hsplit, hassoc, hmore]
      simp
    exact (List.cons.inj (List.append_cancel_left hboth)).2
  rw [hmore] at hend
  exact hend (hmid' more rest hpost).1

open DeltaOrder (Use uses accepted block)

/-- **The deltas of a block go on in index order, none is lost, and every gap has its
timer.** A block goes on in order if nothing is held when it starts and none of its
indices was given up. The timer of a gap that ended, or whose channel was closed since,
releases nothing. -/
theorem deltas_in_order (s : Speech) (settings : Settings) :
    (∀ (n : Nat) (texts : Nat → Text) (o : DeltaOrder) (ds : List Delta), o.next = 0 → o.ahead = ∅ →
      (∀ i, 0 < i → i ≤ n → i ∉ o.skipped) → ds.Perm (block n texts) →
        uses.outFrom o (ds.map .accept) = block n texts ∧
          (uses.stateFrom o (ds.map .accept)).next = 0 ∧
            (uses.stateFrom o (ds.map .accept)).ahead = ∅) ∧
    (∀ us : List Use, (uses.out us ++ (uses.state us).held).Perm (accepted us) ∧
      ∀ i, i ∈ (uses.state us).ahead → (uses.state us).next < i) ∧
    (∀ (ch : ChannelId) (is : List Input), (orderAfter s settings ch is).Holds →
      HeldSince s settings ch is (orderAfter s settings ch is).gen) ∧
    ∀ (ch : ChannelId) (pre mid rest : List Input) (i : Input) (g : Nat)
    (focused : Option ChannelId),
      AsksGap s settings ch pre i g → ¬(orderAfter s settings ch (pre ++ i :: mid)).Holds →
        ((machine s settings).state (pre ++ i :: (mid ++ rest))).rules.fire s (.gap ch g) focused =
          (((machine s settings).state (pre ++ i :: (mid ++ rest))).rules, []) := by
  refine ⟨fun n texts o ds hnext hahead hskipped hds => ?_, DeltaOrder.uses_kept,
    held_since s settings, ?_⟩
  · exact DeltaOrder.block_in_order hnext hahead hskipped hds
  · intro ch pre mid rest i g focused hask hend
    exact ended_fire hask hend focused

/-- Index 1 comes before index 0. -/
theorem deltas_in_order_turned :
    uses.outFrom {} ([⟨[], 1, true⟩, ⟨[], 0, false⟩].map Use.accept) = block 1 fun _ => [] := by
  refine ((deltas_in_order .ascii {}).1 1 (fun _ => []) {} _ rfl rfl
    (fun i _ _ => List.not_mem_nil) ?_).1
  decide

/-- Behind a given-up index 1 the order expects index 0 and holds nothing. -/
theorem given_up : uses.state [.accept ⟨[], 0, false⟩, .accept ⟨[], 2, true⟩, .release] =
    { next := 0, gen := 2, skipped := {1} } := by
  have hmax : (uses.state [.accept ⟨[], 0, false⟩, .accept ⟨[], 2, true⟩]).ahead.maxKey? =
      some 2 := by
    have hahead : (uses.state [.accept ⟨[], 0, false⟩, .accept ⟨[], 2, true⟩]).ahead =
        (∅ : Std.ExtTreeMap Nat (Text × Bool)).insert 2 ([], true) := rfl
    rw [hahead, Std.ExtTreeMap.maxKey?_insert, Std.ExtTreeMap.maxKey?_empty]
    rfl
  have hmissing : (uses.state [.accept ⟨[], 0, false⟩, .accept ⟨[], 2, true⟩]).missing = [1] := by
    unfold DeltaOrder.missing
    rw [hmax]
    decide
  show (uses.state [.accept ⟨[], 0, false⟩, .accept ⟨[], 2, true⟩]).release.1 = _
  unfold DeltaOrder.release
  rw [hmissing]
  rfl

/-- An order that expects index 0 and holds nothing, but gave up index 1: until index 0
comes, a delta of index 1 is taken for the late one and goes on at once. -/
theorem late_before_first :
    ¬∀ (us : List Use) (n : Nat) (texts : Nat → Text) (ds : List Delta),
      (uses.state us).next = 0 → (uses.state us).ahead = ∅ → ds.Perm (block n texts) →
        uses.outFrom (uses.state us) (ds.map .accept) = block n texts := by
  intro h
  have hout := h [.accept ⟨[], 0, false⟩, .accept ⟨[], 2, true⟩, .release] 1 (fun _ => [])
    [⟨[], 1, true⟩, ⟨[], 0, false⟩] (by rw [given_up]) (by rw [given_up]) (by decide)
  rw [given_up] at hout
  have hfirst := congrArg List.head? hout
  revert hfirst
  decide

end Runs

end Sonara.L3
