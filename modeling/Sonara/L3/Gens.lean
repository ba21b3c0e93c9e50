import Sonara.L3.Config
import Sonara.L3.Moves

/-!
# Generations and the turn's clock

Every generation comes from one counter (`nextGen`). A channel's turn is stamped with
the generation of its summary work, of its armed settle window, and of its wait for a
late lead-in (`Turn.Stamp`). What a method does to the stamps of one channel, and to
what the channel remembers of its turn starts (`Clock`), is `Ages`: every method but
`close` and `stop_all` ages one channel and leaves the others alone.
-/

namespace Sonara.L3

open Sonara Text
open Sonara.L2 (ChannelId)
open Sonara.Prose (Speech Chunk)

/-- The turn is stamped with the generation `g`. -/
def Turn.Stamp (c : Turn) (g : Nat) : Prop :=
  g = c.gen ∨ c.settleArmed = true ∧ g = c.settleGen ∨ ∃ w, c.leadInWait = some w ∧ g = w.gen

/-- What a channel remembers of its turn starts. -/
structure Clock where
  /-- Start time of the last turn start that had one. -/
  latest : Option Rat := none
  current : Option String := none
  retired : List String := []

def Turn.clock (c : Turn) : Clock := ⟨c.t, c.current, c.retired⟩

/-- The turn `c'` has no stamp that `c` has not, and the same clock. -/
structure Turn.Tame (c c' : Turn) : Prop where
  stamp : ∀ {g}, c'.Stamp g → c.Stamp g
  clock : c'.clock = c.clock

/-- The generation a timer is compared by. -/
def Timer.gen? : Timer → Option Nat
  | .settle _ g => some g
  | .leadIn _ g => some g
  | _ => none

/-- What an input may do: bring back a release of before, start a turn, give out or serve
the slots of the summaries. -/
structure Leave where
  returns : Release → Prop
  starts : Prop
  serves : Prop

/-- The timer gives out or serves a slot of the summaries. -/
def Timer.Serves : Timer → Prop
  | .settle _ _ | .watchdog _ => True
  | _ => False

/-- The action speaks or stores a release as one: only `apply` returns it. -/
def Action.Released : Action → Prop
  | .speak _ _ _ release _ => release = true
  | .store _ _ decision kind => decision = none ∧ kind = .summary
  | _ => False

/-- The actions ask for no timer and no summary. -/
structure Untasked (out : List Action) : Prop where
  asked : asked out = []
  dispatched : dispatched out = []

theorem Untasked.nil : Untasked [] := ⟨rfl, rfl⟩

theorem Untasked.append {out o : List Action} (h : Untasked out) (h' : Untasked o) :
    Untasked (out ++ o) where
  asked := by
    rw [asked_append, h.asked, h'.asked]
    rfl
  dispatched := by
    rw [dispatched_append, h.dispatched, h'.dispatched]
    rfl

theorem Untasked.flatMap {α : Type} {f : α → List Action} (h : ∀ x, Untasked (f x)) (xs : List α) :
    Untasked (xs.flatMap f) := by
  induction xs with
  | nil => exact .nil
  | cons x xs ih => exact (h x).append ih

/-- They speak no release either. -/
structure Idle (out : List Action) : Prop extends Untasked out where
  bare : ∀ a ∈ out, ¬a.Released

theorem Idle.nil : Idle [] := ⟨.nil, fun _ h => absurd h List.not_mem_nil⟩

theorem Idle.append {out o : List Action} (h : Idle out) (h' : Idle o) : Idle (out ++ o) :=
  ⟨h.toUntasked.append h'.toUntasked, fun a ha =>
    (List.mem_append.mp ha).elim (h.bare a) (h'.bare a)⟩

/-- One action. -/
theorem Idle.one {a : Action} (ho : Untasked [a]) (hb : ¬a.Released) : Idle [a] :=
  ⟨ho, fun _ h => List.mem_singleton.mp h ▸ hb⟩

theorem Idle.flatMap {α : Type} {f : α → List Action} (h : ∀ x, Idle (f x)) (xs : List α) :
    Idle (xs.flatMap f) := by
  induction xs with
  | nil => exact .nil
  | cons x xs ih => exact (h x).append ih

namespace Rules

variable {r r' r'' : Rules} {s : Speech} {ch : ChannelId} {out o : List Action} {L : Leave}

/-- The channel's turn is stamped with the generation `g`. -/
def Stamps (r : Rules) (ch : ChannelId) (g : Nat) : Prop := ch ∈ r.turns ∧ (r.get ch).Stamp g

/-- `g` stamps the channel, or was given out since, up to `n`. -/
def Dates (r : Rules) (n : Nat) (ch : ChannelId) (g : Nat) : Prop :=
  r.Stamps ch g ∨ r.nextGen < g ∧ g ≤ n

def clock (r : Rules) (ch : ChannelId) : Clock := (r.get ch).clock

/-- The slots stand, no summary is sent for, and no release is spoken. -/
structure Still (r r' : Rules) (out : List Action) : Prop where
  buffer : r'.buffer = r.buffer
  dispatched : dispatched out = []
  bare : ∀ a ∈ out, ¬a.Released

theorem Still.refl (r : Rules) : Still r r [] := ⟨rfl, rfl, fun _ h => absurd h List.not_mem_nil⟩

theorem Still.trans (h : Still r r' out) (h' : Still r' r'' o) : Still r r'' (out ++ o) where
  buffer := h'.buffer.trans h.buffer
  dispatched := by
    rw [dispatched_append, h.dispatched, h'.dispatched]
    rfl
  bare a ha := (List.mem_append.mp ha).elim (h.bare a) (h'.bare a)

/-- Actions of its own that speak no release. -/
theorem Still.emit (h : Still r r' []) (ho : Idle out) : Still r r' out :=
  ⟨h.buffer, ho.dispatched, ho.bare⟩

/-- A timer is asked for. -/
theorem Still.timer (h : Still r r' []) (after : Nat) (t : Timer) : Still r r' [.timer after t] :=
  ⟨h.buffer, rfl, fun _ ha => List.mem_singleton.mp ha ▸ not_false⟩

/-- One method, on one channel. -/
structure Ages (L : Leave) (ch : ChannelId) (r r' : Rules) (out : List Action) : Prop where
  mono : r.nextGen ≤ r'.nextGen
  frame : ∀ {b}, b ≠ ch → r'.turns[b]? = r.turns[b]?
  tracks : ch ∈ r.turns → ch ∈ r'.turns
  stamps : ∀ {g}, r'.Stamps ch g → r.Dates r'.nextGen ch g
  timers : ∀ {t g}, t ∈ asked out → t.gen? = some g → g ≤ r'.nextGen
  jobs : ∀ {j}, j ∈ dispatched out → j.channel = ch ∧ r.Dates r'.nextGen ch j.gen
  buffer : ∀ {rel}, r'.buffer.Holds rel →
    r.buffer.Holds rel ∨ L.returns rel ∨ rel.channel = ch ∧ r.Dates r'.nextGen ch rel.gen
  clock : ¬L.starts → r'.clock ch = r.clock ch
  still : ¬L.serves → Still r r' out

theorem Dates.mono {n n' g : Nat} (h : r.Dates n ch g) (hn : n ≤ n') : r.Dates n' ch g := by
  rcases h with h | ⟨hlt, hle⟩
  · exact .inl h
  · exact .inr ⟨hlt, hle.trans hn⟩

/-- What is dated after a method was dated before it. -/
theorem Ages.dates {n g : Nat} (a : Ages L ch r r' out) (h : r'.Dates n ch g)
    (hn : r'.nextGen ≤ n) :
    r.Dates n ch g := by
  rcases h with h | ⟨hlt, hle⟩
  · exact (a.stamps h).mono hn
  · exact .inr ⟨Nat.lt_of_le_of_lt a.mono hlt, hle⟩

theorem Ages.refl (r : Rules) : Ages L ch r r [] where
  mono := Nat.le_refl _
  frame _ := rfl
  tracks h := h
  stamps h := .inl h
  timers h := absurd h List.not_mem_nil
  jobs h := absurd h List.not_mem_nil
  buffer h := .inl h
  clock _ := rfl
  still _ := .refl r

/-- One method after another, on one channel. -/
theorem Ages.trans (a : Ages L ch r r' out) (a' : Ages L ch r' r'' o) :
    Ages L ch r r'' (out ++ o) where
  mono := a.mono.trans a'.mono
  frame h := (a'.frame h).trans (a.frame h)
  tracks h := a'.tracks (a.tracks h)
  stamps h := a.dates (a'.stamps h) a'.mono
  timers h hg := by
    rw [asked_append] at h
    rcases List.mem_append.mp h with h | h
    · exact (a.timers h hg).trans a'.mono
    · exact a'.timers h hg
  jobs h := by
    rw [dispatched_append] at h
    rcases List.mem_append.mp h with h | h
    · exact ⟨(a.jobs h).1, (a.jobs h).2.mono a'.mono⟩
    · exact ⟨(a'.jobs h).1, a.dates (a'.jobs h).2 a'.mono⟩
  buffer h := by
    rcases a'.buffer h with h | h | ⟨hch, hd⟩
    · rcases a.buffer h with h | h | ⟨hch, hd⟩
      · exact .inl h
      · exact .inr (.inl h)
      · exact .inr (.inr ⟨hch, hd.mono a'.mono⟩)
    · exact .inr (.inl h)
    · exact .inr (.inr ⟨hch, a.dates hd a'.mono⟩)
  clock h := (a'.clock h).trans (a.clock h)
  still h := (a.still h).trans (a'.still h)

theorem chained_ages : Chained (Ages L ch) := ⟨.refl, .trans⟩

/-- A silent method, then another. -/
theorem Ages.andThen (a : Ages L ch r r' []) (a' : Ages L ch r' r'' o) : Ages L ch r r'' o :=
  a.trans a'

/-- A method that returns actions of its own, which ask for nothing. -/
theorem Ages.returns (a : Ages L ch r r' []) (ho : Untasked out)
    (hs : ¬L.serves → Still r r' out) : Ages L ch r r' out :=
  { a with
    timers := fun h => by rw [ho.asked] at h; exact absurd h List.not_mem_nil
    jobs := fun h => by rw [ho.dispatched] at h; exact absurd h List.not_mem_nil
    still := hs }

/-- And which speak no release. -/
theorem Ages.emit (a : Ages L ch r r' []) (ho : Idle out) : Ages L ch r r' out :=
  a.returns ho.toUntasked fun h => (a.still h).emit ho

/-- More actions that ask for nothing. -/
theorem Ages.plus (a : Ages L ch r r' out) (ho : Idle o) : Ages L ch r r' (out ++ o) :=
  a.trans ((Ages.refl r').emit ho)

/-! ## Writing a turn -/

theorem mem_set (a : ChannelId) (c : Turn) : a ∈ (r.set ch c).turns ↔ a = ch ∨ a ∈ r.turns := by
  unfold set
  dsimp only
  rw [Std.ExtTreeMap.mem_insert, Std.LawfulEqCmp.compare_eq_iff_eq, eq_comm]

theorem mem_set_self (c : Turn) : ch ∈ (r.set ch c).turns := (mem_set ch c).mpr (.inl rfl)

theorem mem_touch : ch ∈ (r.touch ch).turns := by
  unfold touch
  split
  next h => exact h
  · exact Std.ExtTreeMap.mem_insert_self

theorem touch_of_mem (h : ch ∈ r.turns) : r.touch ch = r := if_pos h

theorem set_frame {b : ChannelId} (h : b ≠ ch) (c : Turn) :
    (r.set ch c).turns[b]? = r.turns[b]? := by
  unfold set
  dsimp only
  rw [Std.ExtTreeMap.getElem?_insert, if_neg]
  simpa using Ne.symm h

/-- Making sure of a channel gives out no stamp. -/
theorem touch_ages (ch : ChannelId) : Ages L ch r (r.touch ch) [] := by
  unfold touch
  split
  · exact .refl r
  next hnew =>
    have hget : ({ r.gen.1 with turns := r.turns.insert ch { gen := r.gen.2 } } : Rules).get ch =
        { gen := r.gen.2 } := get_set_self (r := r.gen.1) ch _
    refine { mono := Nat.le_succ _, frame := fun h => set_frame (r := r.gen.1) h _,
             tracks := fun h => absurd h hnew, stamps := fun {g} h => ?_, buffer := .inl,
             timers := fun h => absurd h List.not_mem_nil, jobs :=
             fun h => absurd h List.not_mem_nil,
             clock := fun _ => ?_, still := fun _ => ⟨rfl, rfl, (Still.refl r).bare⟩ }
    · obtain ⟨-, hg⟩ := h
      rw [hget] at hg
      rcases hg with rfl | ⟨harmed, -⟩ | ⟨w, hw, -⟩
      · exact .inr ⟨Nat.lt_succ_self _, Nat.le_refl _⟩
      · cases harmed
      · cases hw
    · have hold : r.get ch = { gen := 0 } := by
        unfold get
        rw [Std.ExtTreeMap.getElem?_eq_none hnew]
        rfl
      unfold Rules.clock
      rw [hget, hold]
      rfl

/-- A turn is written whose new stamps were given out since `r`. -/
theorem Ages.stamped {c : Turn} (a : Ages L ch r r' []) (h : ch ∈ r'.turns)
    (hc : ∀ {g}, c.Stamp g → (r'.get ch).Stamp g ∨ r.nextGen < g ∧ g ≤ r'.nextGen)
    (hclock : ¬L.starts → c.clock = (r'.get ch).clock) : Ages L ch r (r'.set ch c) [] where
  mono := a.mono
  frame hb := (set_frame hb c).trans (a.frame hb)
  tracks _ := mem_set_self c
  stamps {g} hg := by
    obtain ⟨-, hg⟩ := hg
    rw [get_set_self] at hg
    rcases hc hg with hg | hg
    · exact a.stamps ⟨h, hg⟩
    · exact .inr hg
  timers h := absurd h List.not_mem_nil
  jobs h := absurd h List.not_mem_nil
  buffer h := a.buffer h
  clock hs := by
    refine Eq.trans ?_ (a.clock hs)
    unfold Rules.clock
    rw [get_set_self]
    exact hclock hs
  still hs := ⟨(a.still hs).buffer, rfl, (a.still hs).bare⟩

theorem set_ages {c : Turn} (h : ch ∈ r.turns) (hc : (r.get ch).Tame c) :
    Ages L ch r (r.set ch c) [] :=
  (Ages.refl r).stamped h (fun hg => .inl (hc.stamp hg)) fun _ => hc.clock

theorem touchSet_ages {c : Turn} (hc : ((r.touch ch).get ch).Tame c) :
    Ages L ch r ((r.touch ch).set ch c) [] :=
  (touch_ages ch).andThen (set_ages mem_touch hc)

theorem modify_ages {f : Turn → Turn} (hf : ∀ c : Turn, c.Tame (f c)) :
    Ages L ch r (r.modify ch f) [] :=
  touchSet_ages (hf _)

theorem gen_ages : Ages L ch r r.gen.1 [] where
  mono := Nat.le_succ _
  frame _ := rfl
  tracks h := h
  stamps h := .inl h
  timers h := absurd h List.not_mem_nil
  jobs h := absurd h List.not_mem_nil
  buffer h := .inl h
  clock _ := rfl
  still _ := ⟨rfl, rfl, (Still.refl r).bare⟩

theorem mem_modify {f : Turn → Turn} : ch ∈ (r.modify ch f).turns := mem_set_self _

/-! ## Prose -/

theorem say_untasked (text : Text) (d : Option Nat) (release : Bool) (kind : Kind) :
    Untasked (r.say ch text d release kind) := by
  unfold say
  split
  · exact .nil
  · split
    · exact ⟨rfl, rfl⟩
    · exact ⟨rfl, rfl⟩

theorem speak_idle (text : Text) (d : Option Nat) {kind : Kind} (h : d = none → kind ≠ .summary) :
    Idle (r.speak ch text d kind) := by
  refine ⟨say_untasked text d false kind, fun a ha => ?_⟩
  unfold speak say at ha
  split at ha
  · exact absurd ha List.not_mem_nil
  · split at ha
    · rw [List.mem_singleton.mp ha]
      exact Bool.false_ne_true
    · rw [List.mem_singleton.mp ha]
      exact fun hr => h hr.1 hr.2

theorem prose_idle (text : Text) : Idle (r.speak ch text none .prose) :=
  speak_idle text none fun _ => by decide

theorem earcon_idle (e : Earcon) : Idle (r.earcon e) := by
  unfold earcon
  split
  · exact .one ⟨rfl, rfl⟩ not_false
  · exact .nil

theorem speakDecision_idle (d : Decision) : Idle (r.speakDecision ch d) :=
  speak_idle d.text _ fun h => by cases h

theorem release_idle (ds : List Decision) : Idle (r.release ch ds) := .flatMap speakDecision_idle ds

theorem sayProse_idle (held : List (Text × Bool)) : Idle (r.sayProse ch held) := by
  unfold sayProse
  split
  · exact .nil
  · split
    · exact prose_idle _
    · exact .flatMap (fun p => prose_idle _) held

theorem speakChunks_idle (chunks : List Text) : Idle (r.speakChunks ch chunks) := by
  unfold speakChunks
  split
  · exact prose_idle _
  · exact .flatMap (fun t => prose_idle t) chunks

theorem apply_untasked (rel : Release) : Untasked (r.apply s rel) := by
  unfold apply
  split
  · split
    · exact say_untasked _ none true .summary
    · split
      · exact .nil
      · split
        · exact (earcon_idle _).toUntasked
        · exact say_untasked _ none true .prose
  · exact .nil

theorem dropHeld_ages : Ages L ch r (r.dropHeld ch).1 [] := touchSet_ages ⟨id, rfl⟩

theorem takeKept_tame (c : Turn) : c.Tame c.takeKept.1 := ⟨fun h => h, rfl⟩

theorem holdKept_ages : Ages L ch r (r.holdKept ch).1 [] := by
  have hkept := takeKept_tame ((r.touch ch).get ch)
  unfold holdKept
  dsimp only
  generalize ((r.touch ch).get ch).takeKept = k at hkept ⊢
  exact touchSet_ages ⟨hkept.stamp, hkept.clock⟩

theorem flushProseUpto_ages (n : Nat) :
    Ages L ch r (r.flushProseUpto ch n).1 (r.flushProseUpto ch n).2 :=
  Ages.emit (touchSet_ages (by exact ⟨id, rfl⟩)) (sayProse_idle _)

theorem flushProse_ages : Ages L ch r (r.flushProse ch).1 (r.flushProse ch).2 :=
  (touch_ages ch).andThen (flushProseUpto_ages _)

theorem armSettle_ages : Ages L ch r (r.armSettle ch).1 (r.armSettle ch).2 := by
  have htouch : Ages L ch r (r.gen.1.touch ch) [] := gen_ages.andThen (touch_ages ch)
  have hgen : r.gen.2 ≤ (r.gen.1.touch ch).nextGen := (touch_ages (L := L) (r := r.gen.1) ch).mono
  have hset : Ages L ch r (r.armSettle ch).1 [] := by
    refine htouch.stamped mem_touch (fun {g} hg => ?_) fun _ => rfl
    rcases hg with rfl | ⟨-, rfl⟩ | hw
    · exact .inl (.inl rfl)
    · exact .inr ⟨Nat.lt_succ_self _, hgen⟩
    · exact .inl (.inr (.inr hw))
  refine { hset with timers := fun {t g} ht hg => ?_, jobs := fun h => absurd h List.not_mem_nil,
                     still := fun hs => (hset.still hs).timer _ _ }
  have ht : t = .settle ch r.gen.2 := List.mem_singleton.mp ht
  rw [ht] at hg
  obtain rfl : r.gen.2 = g := Option.some.inj hg
  exact hgen

theorem holdTexts_ages (h : ch ∈ r.turns) (texts : List (Text × Bool)) (breaks : Option Nat) :
    Ages L ch r (r.holdTexts ch texts breaks).1 (r.holdTexts ch texts breaks).2 :=
  chained_ages.holdTexts texts breaks (set_ages h (by exact ⟨id, rfl⟩)) (fun _ => flushProse_ages)
    fun _ n => flushProseUpto_ages n

theorem tame_of_reads {c c' : Turn} (h : c.Reads c') : c.Tame c' :=
  ⟨fun {g} hg => (h.same (Turn.Stamp · g) rfl).mp hg, h.same Turn.clock rfl⟩

theorem assemble_ages (ds : List Delta) :
    Ages L ch r (r.assemble s ch ds).1 (r.assemble s ch ds).2 :=
  chained_ages.assemble ds (fun h => touchSet_ages (tame_of_reads h)) (fun _ => armSettle_ages)
    fun texts breaks h => holdTexts_ages h texts breaks

theorem releaseGap_ages : Ages L ch r (r.releaseGap s ch).1 (r.releaseGap s ch).2 :=
  Ages.andThen (touchSet_ages (by exact ⟨id, rfl⟩)) (assemble_ages _)

/-- Accepting a delta stamps with new generations only. -/
theorem acceptDelta_ages (d : Delta) : Ages L ch r (r.acceptDelta s ch d).1
    (r.acceptDelta s ch d).2 := by
  have hgap : ∀ {r' : Rules} {g : Nat}, Ages L ch r r' [] →
      Ages L ch r r' [.timer deltaGap (.gap ch g)] := by
    intro r' g a
    refine { a with timers := fun {t g'} ht hg => ?_, jobs := fun h => absurd h List.not_mem_nil,
                    still := fun hs => (a.still hs).timer _ _ }
    have ht : t = .gap ch g := List.mem_singleton.mp ht
    rw [ht] at hg
    cases hg
  unfold acceptDelta
  dsimp only
  split
  · refine Ages.trans (hgap ?_) (assemble_ages _)
    exact ((touch_ages ch).andThen gen_ages).andThen
      (set_ages (r := (r.touch ch).gen.1) mem_touch ⟨id, rfl⟩)
  · exact Ages.andThen (touchSet_ages (by exact ⟨id, rfl⟩)) (assemble_ages _)

theorem noteSeen_ages (d : Delta) : Ages L ch r (r.noteSeen s ch d) [] := by
  refine modify_ages fun c => ?_
  split
  · refine ⟨fun {g} hg => ?_, rfl⟩
    rcases hg with hg | hg | ⟨w, hw, rfl⟩
    · exact .inl hg
    · exact .inr (.inl hg)
    · obtain ⟨w₀, hw₀, rfl⟩ := Option.map_eq_some_iff.mp hw
      exact .inr (.inr ⟨w₀, hw₀, rfl⟩)
  · exact ⟨id, rfl⟩

/-- A delta stamps with new generations only. -/
theorem streamDelta_ages (d : Delta) :
    Ages L ch r (r.streamDelta s ch d).1 (r.streamDelta s ch d).2 :=
  chained_ages.streamDelta d (noteSeen_ages d) (fun h => set_ages h ⟨id, rfl⟩)
    (fun _ h => set_ages h ⟨id, rfl⟩) (fun _ => releaseGap_ages) fun _ => acceptDelta_ages d

theorem stream_ages {turn : Option String} {delta : Text} {index : Nat} {fin : Bool}
    {t : Option Rat} {p : Rules × List Action} (h : r.stream s ch turn delta index fin t = some p) :
    Ages L ch r p.1 p.2 :=
  Chained.stream (streamDelta_ages _) h

/-! ## Decisions and lead-ins -/

theorem enqueueOrHold_ages (d : Decision) (digesting : Bool) :
    Ages L ch r (r.enqueueOrHold ch d digesting).1 (r.enqueueOrHold ch d digesting).2 := by
  unfold enqueueOrHold
  dsimp only
  split
  · have hset : Ages L ch r ((r.touch ch).set ch { (r.touch ch).get ch with
        held := some (((r.touch ch).get ch).lastToken,
          (((r.touch ch).get ch).held.map Prod.snd).getD [] ++ [d]) }) [] :=
      touchSet_ages (by exact ⟨id, rfl⟩)
    refine { hset with
      timers := fun {t g} ht hg => ?_, jobs := fun h => absurd h List.not_mem_nil,
      still := fun hs => (hset.still hs).timer _ _ }
    rw [List.mem_singleton.mp ht] at hg
    cases hg
  · exact ((touch_ages ch).andThen flushProse_ages).plus (speakDecision_idle d)

theorem enqueueAll_ages (digesting : Bool) (ds : List Decision) :
    Ages L ch r (enqueueAll ch digesting ds r).1 (enqueueAll ch digesting ds r).2 := by
  induction ds generalizing r with
  | nil => exact .refl r
  | cons d ds ih => exact (enqueueOrHold_ages d digesting).trans ih

theorem releaseLeadInWait_ages :
    Ages L ch r (r.releaseLeadInWait ch).1 (r.releaseLeadInWait ch).2 := by
  have hgone : ∀ c : Turn, c.Tame { c with leadInWait := none } := by
    intro c
    refine ⟨fun {g} hg => ?_, rfl⟩
    rcases hg with hg | hg | ⟨w, hw, -⟩
    · exact .inl hg
    · exact .inr (.inl hg)
    · cases hw
  unfold releaseLeadInWait
  dsimp only
  split
  · exact (modify_ages hgone).andThen armSettle_ages
  · exact ((modify_ages hgone).andThen (set_ages mem_modify (by exact ⟨id, rfl⟩))).andThen
      (enqueueAll_ages false _)

/-- A wait for a lead-in stamps with a new generation. -/
theorem waitLeadIn_ages (a : Ask) : Ages L ch r (r.waitLeadIn ch a).1 (r.waitLeadIn ch a).2 := by
  unfold waitLeadIn
  dsimp only
  split
  · exact touch_ages ch
  · -- The wait is stamped with a fresh generation.
    have htouch : Ages L ch r ((r.touch ch).gen.1.touch ch) [] :=
      ((touch_ages ch).andThen gen_ages).andThen (touch_ages ch)
    have hlt : r.nextGen < (r.touch ch).gen.2 :=
      Nat.lt_succ_of_le (touch_ages (L := L) (r := r) ch).mono
    have hgen : (r.touch ch).gen.2 ≤ ((r.touch ch).gen.1.touch ch).nextGen :=
      (touch_ages (L := L) (r := (r.touch ch).gen.1) ch).mono
    have hset : Ages L ch r ((r.touch ch).gen.1.modify ch fun c =>
        { c with leadInWait := some { gen := (r.touch ch).gen.2, id := a.leadInId } }) [] := by
      refine htouch.stamped mem_touch (fun {g} hg => ?_) fun _ => rfl
      rcases hg with rfl | harmed | ⟨w, hw, rfl⟩
      · exact .inl (.inl rfl)
      · exact .inl (.inr (.inl harmed))
      · obtain rfl := Option.some.inj hw
        exact .inr ⟨hlt, hgen⟩
    refine { hset with timers := fun {t g} ht hg => ?_, jobs := fun h => absurd h List.not_mem_nil,
                       still := fun hs => (hset.still hs).timer _ _ }
    have ht : t = .leadIn ch (r.touch ch).gen.2 := List.mem_singleton.mp ht
    rw [ht] at hg
    obtain rfl : (r.touch ch).gen.2 = g := Option.some.inj hg
    exact hgen

theorem streamLeadIn_ages {turn : Option String} {delta : Text} {t : Option Rat}
    {p : Rules × List Action} (h : r.streamLeadIn s ch turn delta t = some p) :
    Ages L ch r p.1 p.2 :=
  chained_ages.streamLeadIn dropHeld_ages (fun _ _ => touchSet_ages (by exact ⟨id, rfl⟩))
    stream_ages (fun _ _ _ => modify_ages fun _ => ⟨id, rfl⟩) h

/-- A lead-in stamps with new generations only. -/
theorem takeLeadIn_ages {turn : Option String} {delta : Text} {id : Option String} {t : Option Rat}
    {p : Rules × List Action} (h : r.takeLeadIn s ch turn delta id t = some p) :
    Ages L ch r p.1 p.2 :=
  chained_ages.takeLeadIn streamLeadIn_ages (fun _ => releaseLeadInWait_ages) h

theorem dropBefore_ages (kind : Kind) : Ages L ch r (r.dropBefore ch kind) [] := by
  unfold dropBefore
  split
  · exact dropHeld_ages
  · exact .refl r

theorem extras_ages (h : ch ∈ r.turns) (a : Ask) : Ages L ch r (r.extras ch a).1 [] := by
  unfold extras
  dsimp only
  split
  · exact .refl r
  · split
    · exact set_ages h ⟨id, rfl⟩
    · exact .refl r

/-- Accepting a decision stamps with new generations only. -/
theorem accept_ages (h : ch ∈ r.turns) (a : Ask) (item : Decision) :
    Ages L ch r (r.accept ch a item).1 (r.accept ch a item).2 :=
  chained_ages.accept a item (set_ages h (by exact ⟨id, rfl⟩)) (fun _ => waitLeadIn_ages a)
    (fun _ => armSettle_ages) (set_ages h (by exact ⟨id, rfl⟩))
    (fun _ => enqueueOrHold_ages item false) fun _ _ => modify_ages fun _ => ⟨id, rfl⟩

/-- The count of decisions is no generation. -/
theorem Ages.countDecision (a : Ages L ch r r' []) (n : Nat) :
    Ages L ch r { r' with nextDecision := n } [] :=
  { a with still := fun hs => ⟨(a.still hs).buffer, rfl, (a.still hs).bare⟩ }

theorem pose_ages (h : ch ∈ r.turns) (a : Ask) {text : Text} (ht : Spoken text) (kind : Kind) :
    Ages L ch r (r.pose ch a text ht kind).1 (r.pose ch a text ht kind).2 := by
  have hdrop : Ages L ch r (r.dropBefore ch kind) [] := dropBefore_ages kind
  have hextras : Ages L ch r ((r.dropBefore ch kind).extras ch a).1 [] :=
    hdrop.andThen (extras_ages (hdrop.tracks h) a)
  have hcount : Ages L ch r { ((r.dropBefore ch kind).extras ch a).1 with
      nextDecision := ((r.dropBefore ch kind).extras ch a).1.nextDecision + 1 }
      [] := hextras.countDecision _
  exact hcount.andThen (accept_ages (hcount.tracks h) a _)

theorem keepLater_ages (h : ch ∈ r.turns) {a : Ask} (hk : r.keepLater ch a = some r') :
    Ages L ch r r' [] :=
  Chained.keepLater (fun _ => set_ages h ⟨id, rfl⟩) hk

theorem assemble_mem (h : ch ∈ r.turns) (ds : List Delta) : ch ∈ (r.assemble s ch ds).1.turns :=
  (assemble_ages (L := ⟨fun _ => False, False, False⟩) ds).tracks h

theorem releaseGap_mem : ch ∈ (r.releaseGap s ch).1.turns := assemble_mem (mem_set_self _) _

theorem question_ages (h : ch ∈ r.turns) (a : Ask) :
    Ages L ch r (r.question ch a).1 (r.question ch a).2 := by
  refine Ages.emit (set_ages h (by exact ⟨id, rfl⟩)) ?_
  unfold question
  dsimp only
  split
  · exact .nil
  · exact earcon_idle _

theorem earcon_ages (e : Earcon) : Ages L ch r r (r'.earcon e) :=
  (Ages.refl r).emit (earcon_idle e)

/-- `ask` stamps with new generations only. -/
theorem ask_ages (a : Ask) : Ages L ch r (r.ask s ch a).1 (r.ask s ch a).2 := by
  have hmem : ch ∈ (r.releaseGap s ch).1.turns := releaseGap_mem
  refine chained_ages.ask a releaseGap_ages (keepLater_ages hmem) (question_ages hmem a)
    (set_ages hmem ⟨id, rfl⟩) (fun _ => earcon_ages _) fun h kind hr => ?_
  rcases hr with rfl | rfl
  · exact pose_ages hmem a h kind
  · exact pose_ages (mem_set_self _) a h kind

/-! ## Turns, tools, stop and flush -/

theorem takeReply_ages : Ages L ch r (r.takeReply s ch).1 (r.takeReply s ch).2 :=
  chained_ages.takeReply (touchSet_ages ⟨id, rfl⟩)
    (fun _ _ => dropHeld_ages.andThen (set_ages (mem_set_self _) (by exact ⟨id, rfl⟩)))
    (fun _ ds => assemble_ages ds) fun _ => modify_ages fun _ => ⟨id, rfl⟩

/-- A turn's end stamps with new generations only. -/
theorem turnEnd_ages {turn : Option String} {t : Option Rat} {p : Rules × List Action}
    (h : r.turnEnd s ch turn t = some p) : Ages L ch r p.1 p.2 :=
  chained_ages.turnEnd releaseGap_ages (fun _ => takeReply_ages)
    (fun _ => modify_ages fun _ => ⟨id, rfl⟩) (fun _ => holdKept_ages) (fun _ => flushProse_ages)
    (fun _ => armSettle_ages) (fun _ => earcon_ages _) h

theorem toolLine_idle (text : Text) : Idle (r.speak ch text none .tool) :=
  speak_idle text none fun _ => by decide

/-- A tool call stamps with new generations only. -/
theorem tool_ages (name summary : Text) :
    Ages L ch r (r.tool s ch name summary).1 (r.tool s ch name summary).2 :=
  chained_ages.tool name summary (modify_ages fun _ => ⟨id, rfl⟩)
    (fun _ => modify_ages fun _ => ⟨id, rfl⟩) (fun _ => releaseGap_ages) (fun _ => flushProse_ages)
    fun r _ text => (Ages.refl r).emit (toolLine_idle text)

theorem cancel_stamp {c : Turn} {gen settleGen g : Nat} (h : (c.cancel gen settleGen).Stamp g) :
    g = gen := by
  rcases h with h | ⟨harmed, -⟩ | ⟨w, hw, -⟩
  · exact h
  · cases harmed
  · cases hw

/-- Two generations are given out, and then the channel's turn is cancelled with the first. -/
theorem Ages.cancelled {c : Turn} (a : Ages L ch r.gen.1.gen.1 r' []) (h : ch ∈ r'.turns)
    (hclock : ¬L.starts → c.clock = (r'.get ch).clock) :
    Ages L ch r (r'.set ch (c.cancel r.gen.2 r.gen.1.gen.2)) [] := by
  have hmono : r.nextGen + 1 + 1 ≤ r'.nextGen := a.mono
  refine ((gen_ages.andThen gen_ages).andThen a).stamped h (fun {g} hg => ?_) hclock
  rw [cancel_stamp hg]
  refine .inr ⟨Nat.lt_succ_self _, ?_⟩
  show r.nextGen + 1 ≤ r'.nextGen
  omega

theorem catchUp_ages : Ages L ch r (r.catchUp ch).1 [] := by
  have hdrop : Ages L ch r.gen.1.gen.1 (r.gen.1.gen.1.dropHeld ch).1 [] := dropHeld_ages
  have hmem : ch ∈ (r.gen.1.gen.1.dropHeld ch).1.turns := mem_set_self _
  unfold catchUp
  dsimp only
  exact hdrop.cancelled hmem fun _ => rfl

theorem answered_ages : Ages L ch r (r.answered ch).1 (r.answered ch).2 :=
  have hres : Ages L ch r (r.resolve ch) [] :=
    modify_ages fun _ => ⟨id, rfl⟩
  (hres.andThen catchUp_ages).emit (.one ⟨rfl, rfl⟩ not_false)

theorem flush_ages : Ages L ch r (r.flush ch).1 (r.flush ch).2 := by
  unfold flush
  split
  · exact Ages.emit (Ages.andThen (modify_ages fun _ => by exact ⟨id, rfl⟩) catchUp_ages)
      (release_idle _)
  · exact .refl r

theorem flushReady_ages (queued : Bool) :
    Ages L ch r (r.flushReady ch queued).1 ((r.flushReady ch queued).2.getD []) := by
  unfold flushReady
  split
  · exact .refl r
  · dsimp only
    split
    · have hskip : Ages L ch (r.catchUp ch).1
          ((r.catchUp ch).1.modify ch fun c => { c with skipReply := true }) [] :=
        modify_ages fun _ => ⟨id, rfl⟩
      exact (catchUp_ages.andThen hskip).emit (release_idle _)
    · exact catchUp_ages

theorem mem_of_get? {c : Turn} (h : r.turns[ch]? = some c) : ch ∈ r.turns ∧ r.get ch = c := by
  refine ⟨?_, ?_⟩
  · rw [Std.ExtTreeMap.mem_iff_isSome_getElem?, h]
    rfl
  · unfold get
    rw [h]
    rfl

theorem get_of_not_mem (h : ch ∉ r.turns) : r.get ch = { gen := 0 } := by
  unfold get
  rw [Std.ExtTreeMap.getElem?_eq_none h]
  rfl

theorem get?_of_mem (h : ch ∈ r.turns) : r.turns[ch]? = some (r.get ch) := by
  rw [Std.ExtTreeMap.mem_iff_isSome_getElem?] at h
  unfold get
  cases hc : r.turns[ch]? with
  | none =>
    rw [hc] at h
    cases h
  | some c => rfl

theorem takeNewTurn_ages : Ages L ch r (r.takeNewTurn ch).1 [] := by
  unfold takeNewTurn
  split
  next c hc =>
    obtain ⟨hmem, rfl⟩ := mem_of_get? hc
    split
    · exact set_ages hmem ⟨id, rfl⟩
    · exact .refl r
  · exact .refl r

theorem retire_stamp {c : Turn} {turn : Option String} {g : Nat} (h : (retire c turn).Stamp g) :
    c.Stamp g := by
  unfold retire at h
  dsimp only at h
  split at h
  · split at h
    · exact h
    · exact h
  · exact h

theorem renew_stamp {c : Turn} {turn : Option String} {t : Option Rat} {g : Nat}
    (h : (renew turn t c).Stamp g) : c.Stamp g :=
  retire_stamp (c := { c with assembler := {}, t := t <|> c.t }) h

theorem turnStart_ages (hL : L.starts) {turn : Option String} {t : Option Rat}
    {p : Rules × List Action} (h : r.turnStart ch turn t = some p) : Ages L ch r p.1 p.2 := by
  unfold turnStart at h
  split at h
  · cases h
  · obtain rfl := Option.some.inj h
    have hrenew : Ages L ch r.gen.1.gen.1 (r.gen.1.gen.1.modify ch (renew turn t)) [] :=
      (touch_ages ch).stamped mem_touch (fun hg => .inl (renew_stamp hg)) fun h => absurd hL h
    have hdrop := hrenew.andThen dropHeld_ages
    exact Ages.emit (Ages.cancelled (hdrop.andThen (touch_ages ch)) mem_touch fun h => absurd hL h)
      (.one ⟨rfl, rfl⟩ not_false)

/-! ## Summaries and timers -/

/-- A release of the channel lands, of a generation that dates. -/
theorem land_ages (hL : L.serves) (seq : Option Nat) {rel : Release}
    (h : L.returns rel ∨ rel.channel = ch ∧ r.Dates r.nextGen ch rel.gen) :
    Ages L ch r (r.land s seq rel).1 (r.land s seq rel).2 := by
  unfold land
  cases seq with
  | none => exact (Ages.refl r).returns (apply_untasked rel) fun h => absurd hL h
  | some seq =>
    refine Ages.returns ?_ (.flatMap apply_untasked _) fun h => absurd hL h
    refine { Ages.refl r with buffer := fun {x} hx => ?_, still := fun h => absurd hL h }
    rcases Lib.Reorder.land_holds hx with hx | rfl
    · exact .inl hx
    · exact .inr h

/-- A dispatch stamps with new generations only, and its slot is served. -/
theorem dispatch_ages (hL : L.serves) (h : ch ∈ r.turns) (text : Text) (leadin : Bool) :
    Ages L ch r (r.dispatch ch text leadin).1 (r.dispatch ch text leadin).2 := by
  have hsent : Ages L ch r ({ r with nextToken := r.nextToken + 1 }.set ch
      (sent (r.get ch) (r.nextToken + 1))) [] := by
    have hset : Ages L ch r (r.set ch (sent (r.get ch) (r.nextToken + 1))) [] :=
      set_ages h ⟨id, rfl⟩
    exact { hset with still := fun h => absurd hL h }
  have hdate : r.Dates r.nextGen ch (r.get ch).gen := .inl ⟨h, .inl rfl⟩
  unfold dispatch
  dsimp only
  split
  · refine { hsent with timers := fun h => absurd h List.not_mem_nil, jobs := fun {j} hj => ?_,
                        still := fun h => absurd hL h }
    rw [List.mem_singleton.mp hj]
    exact ⟨rfl, hdate⟩
  · refine { hsent with
      timers := fun {t g} ht hg => ?_, jobs := fun {j} hj => ?_, buffer := fun {x} hx => ?_,
      still := fun h => absurd hL h }
    · rw [List.mem_singleton.mp ht] at hg
      cases hg
    · rw [List.mem_singleton.mp hj]
      exact ⟨rfl, hdate⟩
    · rcases Lib.Reorder.watch_holds hx with hx | rfl
      · exact .inl hx
      · exact .inr (.inr ⟨rfl, hdate⟩)

/-- A short turn's release lands, of a generation that dates. -/
theorem landShort_ages (hL : L.serves) {rel : Release} (hch : rel.channel = ch)
    (h : r.Stamps ch rel.gen) : Ages L ch r (r.landShort s rel).1 (r.landShort s rel).2 := by
  have hland := land_ages (L := L) (s := s) (r := { r with buffer := r.buffer.alloc.1 })
    hL (some r.buffer.alloc.2) (.inr ⟨hch, .inl h⟩)
  exact { hland with still := fun h => absurd hL h }

/-- A recap stamps with new generations only. -/
theorem maybeSummarize_ages (hL : L.serves) (leadin : Bool) (focused : Option ChannelId) :
    Ages L ch r (r.maybeSummarize s ch leadin focused).1
      (r.maybeSummarize s ch leadin focused).2.1 := by
  refine chained_ages.maybeSummarize leadin focused holdKept_ages (fun _ => flushProse_ages)
    (touch_ages ch) (touchSet_ages ⟨id, rfl⟩) (fun r _ => (Ages.refl r).emit (speakChunks_idle _))
    (fun {r₁} text hr => landShort_ages hL rfl ?_) fun text hmem => dispatch_ages hL hmem text leadin
  -- The turn that is recapped still has its generation.
  rw [hr]
  refine ⟨mem_set_self _, .inl ?_⟩
  rw [get_set_self]

/-- The end of the settle window stamps with new generations only. -/
theorem settled_ages (hL : L.serves) (h : ch ∈ r.turns) (focused : Option ChannelId) :
    Ages L ch r (r.settled s ch focused).1 (r.settled s ch focused).2 := by
  have hoff : (r.get ch).Tame { r.get ch with settleArmed := false } := by
    refine ⟨fun {g} hg => ?_, rfl⟩
    rcases hg with hg | ⟨harmed, -⟩ | hg
    · exact .inl hg
    · cases harmed
    · exact .inr (.inr hg)
  have hset : Ages L ch r (r.set ch { r.get ch with settleArmed := false }) [] := set_ages h hoff
  unfold settled
  dsimp only
  split
  · exact hset
  · have htaken : Ages L ch r ((r.set ch { r.get ch with settleArmed := false }).set ch
        { r.get ch with settleArmed := false, pending := [] }) [] := by
      refine hset.andThen (set_ages (mem_set_self _) ?_)
      rw [get_set_self]
      exact ⟨id, rfl⟩
    exact (htaken.andThen (maybeSummarize_ages hL _ _)).trans (enqueueAll_ages _ _)

theorem capped_ages (decision : Nat) : Ages L ch r (r.capped ch decision).1
    (r.capped ch decision).2 := by
  unfold capped
  split
  next c hc =>
    obtain ⟨hmem, rfl⟩ := mem_of_get? hc
    split
    · split
      · exact Ages.emit (set_ages hmem (by exact ⟨id, rfl⟩)) (.flatMap speakDecision_idle _)
      · exact .refl r
    · exact .refl r
  · exact .refl r

/-- A timer fires: it ages its channel; a watchdog ages none. -/
theorem fire_ages (timer : Timer) (hL : timer.Serves → L.serves) (focused : Option ChannelId) :
    ∃ ch, Ages L ch r (r.fire s timer focused).1 (r.fire s timer focused).2 := by
  have hmem : ∀ {ch : ChannelId} {f : Turn → Bool}, r.turns[ch]?.any f = true → ch ∈ r.turns := by
    intro ch f h
    cases hc : r.turns[ch]? with
    | none =>
      rw [hc] at h
      cases h
    | some c => exact (mem_of_get? hc).1
  unfold fire
  cases timer with
  | settle ch gen =>
    refine ⟨ch, ?_⟩
    dsimp only
    split
    next h => exact settled_ages (hL trivial) (hmem h) focused
    · exact .refl r
  | holdCap ch decision => exact ⟨ch, capped_ages decision⟩
  | watchdog seq =>
    refine ⟨"", Ages.returns ?_ (.flatMap apply_untasked _) fun h => absurd (hL trivial) h⟩
    exact { Ages.refl r with
      buffer := fun hx => .inl (Lib.Reorder.expire_holds hx), still :=
      fun h => absurd (hL trivial) h }
  | leadIn ch gen =>
    refine ⟨ch, ?_⟩
    dsimp only
    split
    · exact releaseLeadInWait_ages
    · exact .refl r
  | gap ch gen =>
    refine ⟨ch, ?_⟩
    dsimp only
    split
    · exact releaseGap_ages
    · exact .refl r

theorem settleJob_ages (job : Job) : Ages L job.channel r (r.settleJob job).1 [] := by
  unfold settleJob
  split
  next c hc =>
    obtain ⟨hmem, rfl⟩ := mem_of_get? hc
    exact set_ages hmem ⟨id, rfl⟩
  · exact .refl r

/-- The summarizer answers: the release of its job comes back. -/
theorem digestDone_ages (hL : L.serves) (job : Job) (summary : Option Text)
    (h : L.returns ⟨job.channel, job.gen, job.text, job.leadin, summary⟩) :
    Ages L job.channel r (r.digestDone s job summary).1 (r.digestDone s job summary).2 :=
  Ages.plus ((settleJob_ages job).andThen (land_ages hL job.seq (.inl h)))
    (.flatMap speakDecision_idle _)

end Rules

end Sonara.L3
