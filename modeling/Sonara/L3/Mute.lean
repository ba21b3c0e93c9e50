import Sonara.L3.Config

/-!
# Muting is invisible to the rules

The rules read the mute level in `say`, `earcon` and `maybe_summarize` only. `Mirrors`
relates a call at level 0 with the same call at level `l`: the same state but for the
level, and the actions rendered for the level (`render`). Each method gets one such
lemma; `maybe_summarize` mirrors with summaries off, and speaks nothing while muted.
-/

namespace Sonara.L3

open Sonara Text
open Sonara.L2 (ChannelId)
open Sonara.Prose (Speech)

/-! ## Levels -/

def Settings.atLevel (st : Settings) (l : Nat) : Settings := { st with muteLevel := l }

/-- What becomes of an action of level 0 at level `l`. -/
def Action.render (l : Nat) : Action → List Action
  | .speak ch text d release kind =>
    if l = 0 then [.speak ch text d release kind] else [.store ch text d kind]
  | .earcon e => if l < 2 then [.earcon e] else []
  | a => [a]

def render (l : Nat) (out : List Action) : List Action := out.flatMap (Action.render l)

/-- A `Speak` as the `Store` it is while muted. -/
def Action.stored : Action → Action
  | .speak ch text d _ kind => .store ch text d kind
  | a => a

variable {l : Nat} {out o o' : List Action}

theorem render_append : render l (out ++ o) = render l out ++ render l o := List.flatMap_append

/-- At level 1 every `Speak` is stored and nothing else changes. -/
theorem render_one (out : List Action) : render 1 out = out.map Action.stored := by
  induction out with
  | nil => rfl
  | cons a out ih =>
    have hone : Action.render 1 a = [a.stored] := by cases a <;> rfl
    show Action.render 1 a ++ render 1 out = _
    rw [hone, ih]
    rfl

/-- Rendering keeps what is asked for. -/
theorem render_filterMap {β : Type} (f : Action → Option β) (l : Nat) (out : List Action)
    (hspeak : ∀ ch text d release kind, f (.speak ch text d release kind) = none)
    (hstore : ∀ ch text d kind, f (.store ch text d kind) = none)
    (hearcon : ∀ e, f (.earcon e) = none) : (render l out).filterMap f = out.filterMap f := by
  induction out with
  | nil => rfl
  | cons a out ih =>
    have hone : (Action.render l a).filterMap f = [a].filterMap f := by
      cases a with
      | speak ch text d release kind =>
        by_cases hl : l = 0 <;> simp [Action.render, hl, hspeak, hstore]
      | earcon e => by_cases hl : l < 2 <;> simp [Action.render, hl, hearcon]
      | _ => rfl
    show (Action.render l a ++ render l out).filterMap f = _
    rw [List.filterMap_append, hone, ih, ← List.filterMap_append]
    rfl

/-- The actions of one step at level 0, and the same at level `l`. -/
structure Echoes (l : Nat) (o o' : List Action) : Prop where
  out : o' = render l o
  noJob : dispatched o = []

theorem Echoes.nil : Echoes l [] [] := ⟨rfl, rfl⟩

theorem Echoes.append {x x' : List Action} (h : Echoes l o o') (h' : Echoes l x x') :
    Echoes l (o ++ x) (o' ++ x') :=
  ⟨by rw [h.out, h'.out, render_append], by rw [dispatched_append, h.noJob, h'.noJob]; rfl⟩

theorem Echoes.flatMap {α : Type} {f g : α → List Action} (h : ∀ x, Echoes l (f x) (g x))
    (xs : List α) : Echoes l (xs.flatMap f) (xs.flatMap g) := by
  induction xs with
  | nil => exact .nil
  | cons x xs ih => exact (h x).append ih

theorem Echoes.timer (after : Nat) (t : Timer) : Echoes l [.timer after t] [.timer after t] :=
  ⟨rfl, rfl⟩

theorem Echoes.wipe (ch : ChannelId) (resume : Bool) :
    Echoes l [.wipe ch resume] [.wipe ch resume] :=
  ⟨rfl, rfl⟩

namespace Rules

def atLevel (r : Rules) (l : Nat) : Rules := { r with settings := r.settings.atLevel l }

variable {r r' : Rules} {s : Speech} {ch : ChannelId}

@[simp] theorem atLevel_turns : (r.atLevel l).turns = r.turns := rfl
@[simp] theorem atLevel_get : (r.atLevel l).get ch = r.get ch := rfl
@[simp] theorem atLevel_whole : (r.atLevel l).whole = r.whole := rfl
@[simp] theorem atLevel_summaries : (r.atLevel l).summaries = r.summaries := rfl
@[simp] theorem atLevel_muteLevel : (r.atLevel l).settings.muteLevel = l := rfl
@[simp] theorem atLevel_gen : (r.atLevel l).gen = (r.gen.1.atLevel l, r.gen.2) := rfl
@[simp] theorem atLevel_set (c : Turn) : (r.atLevel l).set ch c = (r.set ch c).atLevel l := rfl
@[simp] theorem atLevel_stale (turn : Option String) (t : Option Rat) :
    (r.atLevel l).stale ch turn t = r.stale ch turn t := rfl

@[simp] theorem atLevel_touch : (r.atLevel l).touch ch = (r.touch ch).atLevel l := by
  by_cases h : ch ∈ r.turns
  · simp [touch, h]
  · simp [touch, h]
    rfl

@[simp] theorem atLevel_modify (f : Turn → Turn) :
    (r.atLevel l).modify ch f = (r.modify ch f).atLevel l := by
  unfold modify
  simp only [atLevel_touch, atLevel_get, atLevel_set]

@[simp] theorem touch_settings : (r.touch ch).settings = r.settings := (touch_config ch).settings
@[simp] theorem set_settings (c : Turn) : (r.set ch c).settings = r.settings := rfl
@[simp] theorem gen_settings : r.gen.1.settings = r.settings := rfl
@[simp] theorem modify_settings (f : Turn → Turn) : (r.modify ch f).settings = r.settings :=
  touch_settings

/-! ## What is said -/

theorem say_echoes (h : r.settings.muteLevel = 0) (text : Text) (d : Option Nat) (release : Bool)
    (kind : Kind) : Echoes l (r.say ch text d release kind)
    ((r.atLevel l).say ch text d release kind) := by
  unfold say
  rw [h, atLevel_muteLevel]
  split
  · exact .nil
  · refine ⟨?_, rfl⟩
    by_cases hl : l = 0 <;> simp [render, Action.render, hl]

theorem speak_echoes (h : r.settings.muteLevel = 0) (text : Text) (d : Option Nat) (kind : Kind) :
    Echoes l (r.speak ch text d kind) ((r.atLevel l).speak ch text d kind) :=
  say_echoes h text d false kind

theorem speakDecision_echoes (h : r.settings.muteLevel = 0) (d : Decision) :
    Echoes l (r.speakDecision ch d) ((r.atLevel l).speakDecision ch d) :=
  speak_echoes h d.text (some d.id) d.kind

theorem earcon_echoes (h : r.settings.muteLevel = 0) (e : Earcon) :
    Echoes l (r.earcon e) ((r.atLevel l).earcon e) := by
  unfold earcon
  rw [atLevel_muteLevel, if_pos (by omega)]
  refine ⟨?_, rfl⟩
  by_cases hl : l < 2 <;> simp [render, Action.render, hl]

theorem sayProse_echoes (h : r.settings.muteLevel = 0) (held : List (Text × Bool)) :
    Echoes l (r.sayProse ch held) ((r.atLevel l).sayProse ch held) := by
  unfold sayProse
  split
  · exact .nil
  · rw [atLevel_whole]
    split
    · exact speak_echoes h _ none .prose
    · exact .flatMap (fun p => speak_echoes h _ none .prose) held

theorem speakChunks_echoes (h : r.settings.muteLevel = 0) (chunks : List Text) :
    Echoes l (r.speakChunks ch chunks) ((r.atLevel l).speakChunks ch chunks) := by
  unfold speakChunks
  rw [atLevel_whole]
  split
  · exact speak_echoes h _ none .prose
  · exact .flatMap (fun t => speak_echoes h t none .prose) chunks

theorem release_echoes (h : r.settings.muteLevel = 0) (ds : List Decision) :
    Echoes l (r.release ch ds) ((r.atLevel l).release ch ds) :=
  .flatMap (fun d => speakDecision_echoes h d) ds

/-! ## Steps -/

/-- A step from level 0 led to `p`, the same step at level `l` to `q`. -/
structure Mirrors (l : Nat) (p q : Rules × List Action) : Prop where
  audible : p.1.settings.muteLevel = 0
  state : q.1 = p.1.atLevel l
  echoes : Echoes l p.2 q.2

variable {p q : Rules × List Action}

theorem Mirrors.refl (h : r.settings.muteLevel = 0) : Mirrors l (r, []) (r.atLevel l, []) :=
  ⟨h, rfl, .nil⟩

/-- A change of the state that says nothing. -/
theorem Mirrors.silent (h : r.settings.muteLevel = 0) (hc : SameConfig r r') {r'' : Rules}
    (hlevel : r'' = r'.atLevel l) : Mirrors l (r', []) (r'', []) :=
  ⟨by rw [hc.settings, h], hlevel, .nil⟩

theorem Mirrors.emit (h : r.settings.muteLevel = 0) (e : Echoes l o o') :
    Mirrors l (r, o) (r.atLevel l, o') := ⟨h, rfl, e⟩

/-- Steps one after the other. -/
theorem Mirrors.seq (m : Mirrors l p q) {g : Rules → Rules × List Action}
    (hg : ∀ r, r.settings.muteLevel = 0 → Mirrors l (g r) (g (r.atLevel l))) :
    Mirrors l ((g p.1).1, p.2 ++ (g p.1).2) ((g q.1).1, q.2 ++ (g q.1).2) := by
  have m' := hg p.1 m.audible
  rw [m.state]
  exact ⟨m'.audible, m'.state, m.echoes.append m'.echoes⟩

/-- A change of the state that the level does not matter to. -/
theorem Mirrors.after (m : Mirrors l p q) {g : Rules → Rules}
    (hg : ∀ r, r.settings.muteLevel = 0 → (g r).settings.muteLevel = 0 ∧ g
      (r.atLevel l) = (g r).atLevel l) :
    Mirrors l (g p.1, p.2) (g q.1, q.2) := by
  obtain ⟨h, hs⟩ := hg p.1 m.audible
  rw [m.state]
  exact ⟨h, hs, m.echoes⟩

theorem Mirrors.modify (m : Mirrors l p q) (f : Turn → Turn) :
    Mirrors l (p.1.modify ch f, p.2) (q.1.modify ch f, q.2) :=
  m.after (g := fun r => r.modify ch f) fun r h => ⟨by rw [modify_settings, h], atLevel_modify f⟩

/-- More is said before. -/
theorem Mirrors.prepend (m : Mirrors l p q) (e : Echoes l o o') :
    Mirrors l (p.1, o ++ p.2) (q.1, o' ++ q.2) :=
  ⟨m.audible, m.state, e.append m.echoes⟩

theorem Mirrors.append (m : Mirrors l p q) (e : Echoes l o o') :
    Mirrors l (p.1, p.2 ++ o) (q.1, q.2 ++ o') :=
  ⟨m.audible, m.state, m.echoes.append e⟩

/-! ## Prose -/

@[simp] theorem atLevel_dropHeld : (r.atLevel l).dropHeld ch =
    ((r.dropHeld ch).1.atLevel l, (r.dropHeld ch).2) := by
  unfold dropHeld
  simp only [atLevel_touch, atLevel_get, atLevel_set]

@[simp] theorem atLevel_holdKept : (r.atLevel l).holdKept ch =
    ((r.holdKept ch).1.atLevel l, (r.holdKept ch).2) := by
  unfold holdKept
  simp only [atLevel_touch, atLevel_get, atLevel_set]

@[simp] theorem dropHeld_settings : (r.dropHeld ch).1.settings = r.settings :=
  (dropHeld_config ch).settings
@[simp] theorem holdKept_settings : (r.holdKept ch).1.settings = r.settings :=
  (holdKept_config ch).settings

theorem flushProseUpto_mirrors (h : r.settings.muteLevel = 0) (n : Nat) :
    Mirrors l (r.flushProseUpto ch n) ((r.atLevel l).flushProseUpto ch n) := by
  unfold flushProseUpto
  simp only [atLevel_touch, atLevel_get, atLevel_set]
  exact .emit (by simp [h]) (sayProse_echoes (by simp [h]) _)

theorem flushProse_mirrors (h : r.settings.muteLevel = 0) :
    Mirrors l (r.flushProse ch) ((r.atLevel l).flushProse ch) := by
  unfold flushProse
  simp only [atLevel_touch, atLevel_get]
  exact flushProseUpto_mirrors (by simp [h]) _

theorem armSettle_mirrors (h : r.settings.muteLevel = 0) :
    Mirrors l (r.armSettle ch) ((r.atLevel l).armSettle ch) := by
  unfold armSettle
  simp only [atLevel_gen, atLevel_modify]
  exact .emit (by simp [h]) (.timer _ _)

theorem speakReady_mirrors (h : r.settings.muteLevel = 0) (paraEnd : Bool) (upto : Nat) :
    Mirrors l (r.speakReady ch paraEnd upto) ((r.atLevel l).speakReady ch paraEnd upto) := by
  have hready : (r.atLevel l).isReady ((r.atLevel l).get ch) = r.isReady (r.get ch) := rfl
  unfold speakReady
  rw [hready]
  split
  · exact flushProse_mirrors h
  · split
    · exact flushProseUpto_mirrors h upto
    · exact .refl h

theorem holdTexts_mirrors (h : r.settings.muteLevel = 0) (texts : List (Text × Bool))
    (breaks : Option Nat) :
    Mirrors l (r.holdTexts ch texts breaks) ((r.atLevel l).holdTexts ch texts breaks) := by
  have hmode : (r.atLevel l).settings.readMode = r.settings.readMode := rfl
  unfold holdTexts
  simp only [atLevel_whole, hmode, atLevel_get, atLevel_set]
  split
  · exact .refl h
  · exact speakReady_mirrors (by simp [h]) _ _

theorem settleAgain_mirrors (h : r.settings.muteLevel = 0) :
    Mirrors l (r.settleAgain ch) ((r.atLevel l).settleAgain ch) := by
  unfold settleAgain
  rw [atLevel_get]
  split
  · exact armSettle_mirrors h
  · exact .refl h

theorem assemble_mirrors (h : r.settings.muteLevel = 0) (ds : List Delta) :
    Mirrors l (r.assemble s ch ds) ((r.atLevel l).assemble s ch ds) := by
  have hcut : ((r.touch ch).atLevel l).cut s ch ds = (r.touch ch).cut s ch ds := rfl
  unfold assemble
  simp only [atLevel_touch, hcut, atLevel_summaries, atLevel_set]
  split
  · exact .refl h
  · split
    · exact settleAgain_mirrors (by simp [h])
    · exact holdTexts_mirrors (by simp [h]) _ _

theorem releaseGap_mirrors (h : r.settings.muteLevel = 0) :
    Mirrors l (r.releaseGap s ch) ((r.atLevel l).releaseGap s ch) := by
  unfold releaseGap
  simp only [atLevel_touch, atLevel_get, atLevel_set]
  exact assemble_mirrors (by simp [h]) _

theorem acceptDelta_mirrors (h : r.settings.muteLevel = 0) (d : Delta) :
    Mirrors l (r.acceptDelta s ch d) ((r.atLevel l).acceptDelta s ch d) := by
  unfold acceptDelta
  simp only [atLevel_touch, atLevel_get, atLevel_gen, atLevel_set]
  split
  · exact (assemble_mirrors (by simp [h]) _).prepend (.timer _ _)
  · exact assemble_mirrors (by simp [h]) _

/-- A streamed delta acts alike at every level, but for what the level stores. -/
theorem streamDelta_mirrors (h : r.settings.muteLevel = 0) (d : Delta) :
    Mirrors l (r.streamDelta s ch d) ((r.atLevel l).streamDelta s ch d) := by
  have hseen : (r.atLevel l).noteSeen s ch d = (r.noteSeen s ch d).atLevel l := atLevel_modify _
  have h' : (r.noteSeen s ch d).settings.muteLevel = 0 := by
    rw [noteSeen]
    simp [h]
  unfold streamDelta
  simp only [hseen, atLevel_get, atLevel_set]
  split
  · exact .refl (by simp [h'])
  · split
    · exact .refl h'
    · split
      · exact .refl (by simp [h'])
      · refine Mirrors.seq (g := fun r => r.acceptDelta s ch d) ?_ fun r hr =>
          acceptDelta_mirrors hr d
        split
        · exact releaseGap_mirrors h'
        · exact .refl h'

/-- A message that a stale stamp rejects at both levels. -/
def MirrorsOr (l : Nat) (p q : Option (Rules × List Action)) : Prop :=
  (p = none ∧ q = none) ∨ ∃ p' q', p = some p' ∧ q = some q' ∧ Mirrors l p' q'

theorem MirrorsOr.getD {p q : Option (Rules × List Action)} (m : MirrorsOr l p q)
    (h : r.settings.muteLevel = 0) : Mirrors l (p.getD (r, [])) (q.getD (r.atLevel l, [])) := by
  rcases m with ⟨rfl, rfl⟩ | ⟨p', q', rfl, rfl, m⟩
  · exact .refl h
  · exact m

theorem stream_mirrors (h : r.settings.muteLevel = 0) (turn : Option String) (delta : Text)
    (index : Nat) (fin : Bool) (t : Option Rat) :
    MirrorsOr l (r.stream s ch turn delta index fin t)
    ((r.atLevel l).stream s ch turn delta index fin t) := by
  unfold stream
  rw [atLevel_stale]
  split
  · exact .inl ⟨rfl, rfl⟩
  · exact .inr ⟨_, _, rfl, rfl, streamDelta_mirrors h _⟩

theorem enqueueOrHold_mirrors (h : r.settings.muteLevel = 0) (d : Decision) (digesting : Bool) :
    Mirrors l (r.enqueueOrHold ch d digesting) ((r.atLevel l).enqueueOrHold ch d digesting) := by
  have hset : ∀ r : Rules, (r.atLevel l).settings.summaries = r.settings.summaries := fun _ => rfl
  unfold enqueueOrHold
  simp only [atLevel_touch, atLevel_get, atLevel_set, hset]
  split
  · exact .emit (by simp [h]) (.timer _ _)
  · exact (flushProse_mirrors (by simp [h])).append (speakDecision_echoes (by simp [h]) d)

theorem enqueueAll_mirrors (h : r.settings.muteLevel = 0) (digesting : Bool) (ds : List Decision) :
    Mirrors l (enqueueAll ch digesting ds r) (enqueueAll ch digesting ds (r.atLevel l)) := by
  induction ds generalizing r with
  | nil => exact .refl h
  | cons d ds ih =>
    exact (enqueueOrHold_mirrors h d digesting).seq (g := enqueueAll ch digesting ds)
      fun r hr => ih hr

theorem releaseLeadInWait_mirrors (h : r.settings.muteLevel = 0) :
    Mirrors l (r.releaseLeadInWait ch) ((r.atLevel l).releaseLeadInWait ch) := by
  unfold releaseLeadInWait
  simp only [atLevel_modify, atLevel_summaries, atLevel_get, atLevel_set]
  split
  · exact armSettle_mirrors (by simp [h])
  · exact enqueueAll_mirrors (by simp [h]) _ _

theorem waitLeadIn_mirrors (h : r.settings.muteLevel = 0) (a : Ask) :
    Mirrors l (r.waitLeadIn ch a) ((r.atLevel l).waitLeadIn ch a) := by
  unfold waitLeadIn
  simp only [atLevel_touch, atLevel_get, atLevel_gen, atLevel_modify]
  split
  · exact .refl (by simp [h])
  · exact .emit (by simp [h]) (.timer _ _)

/-- A streamed lead-in acts alike at every level, or is stale at each. -/
theorem streamLeadIn_mirrors (h : r.settings.muteLevel = 0) (turn : Option String) (delta : Text)
    (t : Option Rat) :
    MirrorsOr l (r.streamLeadIn s ch turn delta t)
    ((r.atLevel l).streamLeadIn s ch turn delta t) := by
  have hmode : (r.atLevel l).settings.readMode = r.settings.readMode := rfl
  -- In `read_mode` `final` what is held is dropped at both levels.
  have hdrop : (if r.settings.readMode = .final then (r.dropHeld ch).1.atLevel l else r.atLevel l) =
      (if r.settings.readMode = .final then (r.dropHeld ch).1 else r).atLevel l := by
    split <;> rfl
  have hset : (if r.settings.readMode = .final then (r.dropHeld ch).1 else r).settings =
      r.settings := by
    split <;> simp
  unfold streamLeadIn
  simp only [hmode, atLevel_dropHeld, hdrop, atLevel_touch, atLevel_get, atLevel_set]
  generalize hr : (if r.settings.readMode = .final then (r.dropHeld ch).1 else r) = r₁ at hset ⊢
  rcases stream_mirrors (l := l) (s := s)
    (r := (r₁.touch ch).set ch { (r₁.touch ch).get ch with skipReply := false })
      (by simp [hset, h]) turn delta 0 true t with ⟨hp, hq⟩ | ⟨p, q, hp, hq, m⟩
  · rw [hp, hq]
    exact .inl ⟨rfl, rfl⟩
  · rw [hp, hq]
    exact .inr ⟨_, _, rfl, rfl, m.modify _⟩

/-- A lead-in acts alike at every level, or is stale at each. -/
theorem takeLeadIn_mirrors (h : r.settings.muteLevel = 0) (turn : Option String) (delta : Text)
    (id : Option String) (t : Option Rat) :
    MirrorsOr l (r.takeLeadIn s ch turn delta id t)
    ((r.atLevel l).takeLeadIn s ch turn delta id t) := by
  have hturns : (r.atLevel l).turns[ch]? = r.turns[ch]? := rfl
  unfold takeLeadIn
  rw [atLevel_stale, hturns]
  dsimp only
  split
  · exact .inl ⟨rfl, rfl⟩
  · split
    · exact .inr ⟨_, _, rfl, rfl, .refl h⟩
    · -- What is read, and then the decisions that waited for it.
      have hwait : ∀ {p q : Option (Rules × List Action)} (b : Bool), MirrorsOr l p q →
          MirrorsOr l
            (p.map fun p => if b then ((p.1.releaseLeadInWait ch).1,
              p.2 ++ (p.1.releaseLeadInWait ch).2) else p)
            (q.map fun p => if b then ((p.1.releaseLeadInWait ch).1,
              p.2 ++ (p.1.releaseLeadInWait ch).2) else p) := by
        rintro p q b (⟨rfl, rfl⟩ | ⟨p', q', rfl, rfl, m⟩)
        · exact .inl ⟨rfl, rfl⟩
        · refine .inr ⟨_, _, rfl, rfl, ?_⟩
          cases b with
          | true =>
            exact m.seq (g := fun r => r.releaseLeadInWait ch) fun r hr =>
              releaseLeadInWait_mirrors hr
          | false => exact m
      refine hwait _ ?_
      split
      · exact .inr ⟨_, _, rfl, rfl, .refl h⟩
      · split
        · exact streamLeadIn_mirrors h turn delta t
        · exact .inr ⟨_, _, rfl, rfl, .refl h⟩

/-! ## Turns -/

theorem takeReply_mirrors (h : r.settings.muteLevel = 0) :
    Mirrors l (r.takeReply s ch) ((r.atLevel l).takeReply s ch) := by
  have hmode : ∀ r : Rules, (r.atLevel l).settings.readMode = r.settings.readMode := fun _ => rfl
  unfold takeReply
  simp only [atLevel_touch, atLevel_get, atLevel_set, hmode, atLevel_dropHeld]
  split
  · split
    · exact .refl (by simp [h])
    · exact (assemble_mirrors (by simp [h]) _).modify _
  · exact .refl (by simp [h])

theorem turnStart_mirrors (h : r.settings.muteLevel = 0) (turn : Option String) (t : Option Rat) :
    MirrorsOr l (r.turnStart ch turn t) ((r.atLevel l).turnStart ch turn t) := by
  unfold turnStart
  simp only [atLevel_stale, atLevel_gen, atLevel_modify, atLevel_dropHeld]
  split
  · exact .inl ⟨rfl, rfl⟩
  · exact .inr ⟨_, _, rfl, rfl, .emit (by simp [h]) (.wipe _ _)⟩

/-- The end of a turn: its earcon, the held prose, and a summary is waited for. -/
theorem flushAndArm_mirrors (m : Mirrors l (r, o) (r', o')) :
    let end_ (r : Rules) :=
      if r.summaries then (r.flushProse ch).1.armSettle ch else ((r.flushProse ch).1, [])
    Mirrors l ((end_ r).1, r.earcon .turnDone ++ o ++ (r.flushProse ch).2 ++ (end_ r).2)
      ((end_ r').1, r'.earcon .turnDone ++ o' ++ (r'.flushProse ch).2 ++ (end_ r').2) := by
  have hstate : r' = r.atLevel l := m.state
  subst hstate
  have hflush := (m.prepend (earcon_echoes m.audible .turnDone)).seq
    (g := fun r => r.flushProse ch) fun r hr => flushProse_mirrors hr
  dsimp only
  rw [atLevel_summaries]
  split
  · exact hflush.seq (g := fun r => r.armSettle ch) fun r hr => armSettle_mirrors hr
  · rw [List.append_nil, List.append_nil]
    exact hflush

/-- A turn's end acts alike at every level, or is stale at each. -/
theorem turnEnd_mirrors (h : r.settings.muteLevel = 0) (turn : Option String) (t : Option Rat) :
    MirrorsOr l (r.turnEnd s ch turn t) ((r.atLevel l).turnEnd s ch turn t) := by
  unfold turnEnd
  rw [atLevel_stale]
  split
  · exact .inl ⟨rfl, rfl⟩
  · refine .inr ⟨_, _, rfl, rfl, ?_⟩
    -- The gap's deltas, then the reply, then the turn is marked ended.
    have hgap : Mirrors l (r.releaseGap s ch) ((r.atLevel l).releaseGap s ch) :=
      releaseGap_mirrors h
    have hreply := hgap.seq
      (g := fun r => r.takeReply s ch) fun r hr => takeReply_mirrors hr
    have hended := @Mirrors.modify l ch _ _ hreply fun c =>
      { c with released := true, ended := true, batchCut := false }
    have hkept := hended.after (g := fun r => if r.summaries then r else (r.holdKept ch).1)
        fun r hr => by
      rw [atLevel_summaries, atLevel_holdKept]
      split
      · exact ⟨hr, rfl⟩
      · exact ⟨by simp [hr], rfl⟩
    have harm := @flushAndArm_mirrors l _ _ _ _ ch hkept
    simp only [List.append_assoc] at harm ⊢
    exact harm

/-! ## Decisions -/

theorem keepLater_level (a : Ask) :
    (r.atLevel l).keepLater ch a = (r.keepLater ch a).map fun r => r.atLevel l := by
  have hstep : (r.atLevel l).settings.questionStep = r.settings.questionStep := rfl
  unfold keepLater
  rw [hstep, atLevel_get]
  split
  · split
    · dsimp only
      split
      · split <;> rfl
      · rfl
    · rfl
  · rfl

theorem question_mirrors (h : r.settings.muteLevel = 0) (a : Ask) :
    Mirrors l (r.question ch a) ((r.atLevel l).question ch a) := by
  have hstep : (r.atLevel l).settings.questionStep = r.settings.questionStep := rfl
  unfold question
  rw [hstep, atLevel_get]
  dsimp only
  rw [atLevel_set]
  refine .emit (by simp [h]) ?_
  split
  · exact .nil
  · exact earcon_echoes h .choice

@[simp] theorem atLevel_dropBefore (kind : Kind) :
    (r.atLevel l).dropBefore ch kind = (r.dropBefore ch kind).atLevel l := by
  have hmode : (r.atLevel l).settings.readMode = r.settings.readMode := rfl
  unfold dropBefore
  rw [hmode, atLevel_get, atLevel_dropHeld]
  split <;> rfl

@[simp] theorem atLevel_extras (a : Ask) :
    (r.atLevel l).extras ch a = ((r.extras ch a).1.atLevel l, (r.extras ch a).2) := by
  have hstep : (r.atLevel l).settings.questionStep = r.settings.questionStep := rfl
  have hverb : (r.atLevel l).settings.verbosity = r.settings.verbosity := rfl
  unfold extras
  rw [hstep, hverb, atLevel_get]
  dsimp only
  split
  · rfl
  · split <;> rfl

@[simp] theorem dropBefore_settings (kind : Kind) : (r.dropBefore ch kind).settings = r.settings :=
  (dropBefore_config kind).settings

@[simp] theorem extras_settings (a : Ask) : (r.extras ch a).1.settings = r.settings :=
  (extras_config a).settings

/-- Accepting a decision acts alike at every level. -/
theorem accept_mirrors (h : r.settings.muteLevel = 0) (a : Ask) (item : Decision) :
    Mirrors l (r.accept ch a item) ((r.atLevel l).accept ch a item) := by
  have hmode : (r.atLevel l).settings.readMode = r.settings.readMode := rfl
  unfold accept
  rw [atLevel_summaries, atLevel_get, hmode]
  dsimp only
  split
  · refine Mirrors.seq (g := fun r => r.armSettle ch) ?_ fun r hr => armSettle_mirrors hr
    rw [atLevel_set]
    split
    · exact waitLeadIn_mirrors (by simp [h]) a
    · exact .refl (by simp [h])
  · split
    · rw [atLevel_set]
      exact waitLeadIn_mirrors (by simp [h]) a
    · split
      · rw [atLevel_set]
        exact (enqueueOrHold_mirrors (by simp [h]) item false).modify _
      · exact enqueueOrHold_mirrors h item false

theorem pose_mirrors (h : r.settings.muteLevel = 0) (a : Ask) {text : Text} (hs : Spoken text)
    (kind : Kind) : Mirrors l (r.pose ch a text hs kind)
    ((r.atLevel l).pose ch a text hs kind) := by
  unfold pose
  simp only [atLevel_dropBefore, atLevel_extras]
  exact accept_mirrors (r := { ((r.dropBefore ch kind).extras ch a).1 with
    nextDecision := ((r.dropBefore ch kind).extras ch a).1.nextDecision + 1 }) (by simp [h]) a _

/-- `ask` acts alike at every level. -/
theorem ask_mirrors (h : r.settings.muteLevel = 0) (a : Ask) :
    Mirrors l (r.ask s ch a) ((r.atLevel l).ask s ch a) := by
  have m : Mirrors l (r.releaseGap s ch) ((r.atLevel l).releaseGap s ch) := releaseGap_mirrors h
  generalize hp : r.releaseGap s ch = p at m
  generalize hq : (r.atLevel l).releaseGap s ch = q at m
  obtain ⟨p₁, po⟩ := p
  obtain ⟨q₁, qo⟩ := q
  have haud : p₁.settings.muteLevel = 0 := m.audible
  obtain rfl : q₁ = p₁.atLevel l := m.state
  have hstep : (p₁.atLevel l).settings.questionStep = p₁.settings.questionStep := rfl
  unfold ask
  rw [hp, hq]
  dsimp only
  rw [keepLater_level]
  cases hk : p₁.keepLater ch a with
  | some r' =>
    refine ⟨?_, rfl, m.echoes⟩
    rw [← haud]
    exact congrArg Settings.muteLevel (keepLater_config hk).settings
  | none =>
    rw [Option.map_none]
    dsimp only
    cases hkind : a.kind with
    | question =>
      have mq := (@question_mirrors l _ ch haud a).prepend m.echoes
      have mp := mq.seq (g := fun r => r.pose ch a (questionLine (!p₁.settings.questionStep) a)
        (questionLine_spoken (!p₁.settings.questionStep) a) .question) fun r hr =>
        pose_mirrors hr a _ _
      exact mp
    | permission =>
      dsimp only
      rw [atLevel_get]
      split
      · exact ⟨by simp [haud], rfl, m.echoes⟩
      · exact (pose_mirrors haud a _ _).prepend (m.echoes.append (earcon_echoes haud .permission))
    | plan => exact (pose_mirrors haud a _ _).prepend m.echoes

/-! ## Tools, answers, stop and flush -/

@[simp] theorem atLevel_resolve : (r.atLevel l).resolve ch = (r.resolve ch).atLevel l :=
  atLevel_modify _
@[simp] theorem resolve_settings : (r.resolve ch).settings = r.settings := modify_settings _

/-- A tool call acts alike at every level. -/
theorem tool_mirrors (h : r.settings.muteLevel = 0) (name summary : Text) :
    Mirrors l (r.tool s ch name summary) ((r.atLevel l).tool s ch name summary) := by
  have hset : ∀ r : Rules, (r.atLevel l).settings.verbosity = r.settings.verbosity ∧
      (r.atLevel l).settings.readMode = r.settings.readMode := fun _ => ⟨rfl, rfl⟩
  have hr : (r.resolve ch).settings.muteLevel = 0 := by simp [h]
  unfold tool
  rw [atLevel_resolve]
  dsimp only
  rw [atLevel_get, (hset _).1, (hset _).2, atLevel_whole]
  split
  · exact .refl hr
  · split
    · exact .emit hr (speak_echoes hr _ none .tool)
    · have hw : (if (r.resolve ch).whole then (r.resolve ch).atLevel l
          else ((r.resolve ch).atLevel l).modify ch fun c => { c with released := true }) =
            (if (r.resolve ch).whole then r.resolve ch
              else (r.resolve ch).modify ch fun c => { c with released := true }).atLevel l := by
        split
        · rfl
        · exact atLevel_modify _
      have h' : (if (r.resolve ch).whole then r.resolve ch
          else (r.resolve ch).modify ch fun c => { c with released := true }).settings.muteLevel =
          0 := by
        split <;> simp [h]
      rw [hw]
      have hgap := @releaseGap_mirrors l _ s ch h'
      have m := hgap.seq
        (g := fun r => r.flushProse ch) fun r hr => flushProse_mirrors hr
      exact m.append (speak_echoes h' _ none .tool)

@[simp] theorem atLevel_catchUp :
    (r.atLevel l).catchUp ch = ((r.catchUp ch).1.atLevel l, (r.catchUp ch).2) := by
  unfold catchUp
  simp only [atLevel_gen, atLevel_dropHeld, atLevel_get, atLevel_summaries]
  rfl

@[simp] theorem catchUp_settings : (r.catchUp ch).1.settings = r.settings := by
  unfold catchUp
  simp

theorem answered_mirrors (h : r.settings.muteLevel = 0) :
    Mirrors l (r.answered ch) ((r.atLevel l).answered ch) := by
  unfold answered
  rw [atLevel_resolve, atLevel_catchUp]
  exact .emit (by simp [h]) (.wipe ch false)

/-- Stopping acts alike at every level. -/
theorem stopAll_level : (r.atLevel l).stopAll = r.stopAll.atLevel l ∧
    r.stopAll.settings = r.settings := by
  have hfold : ∀ (chs : List ChannelId) (r : Rules),
      chs.foldl (fun r ch => ((r.modify ch fun c => { c with awaiting := false }).catchUp ch).1)
        (r.atLevel l) =
        (chs.foldl (fun r ch => ((r.modify ch fun c => { c with awaiting := false }).catchUp ch).1)
          r).atLevel l ∧
      (chs.foldl (fun r ch => ((r.modify ch fun c => { c with awaiting := false }).catchUp ch).1)
        r).settings =
        r.settings := by
    intro chs
    induction chs with
    | nil => exact fun r => ⟨rfl, rfl⟩
    | cons ch chs ih =>
      intro r
      obtain ⟨h1, h2⟩ := ih ((r.modify ch fun c => { c with awaiting := false }).catchUp ch).1
      rw [List.foldl_cons, List.foldl_cons, atLevel_modify, atLevel_catchUp, h1, h2]
      exact ⟨rfl, by simp⟩
  exact hfold r.channels r

theorem flush_mirrors (h : r.settings.muteLevel = 0) :
    Mirrors l (r.flush ch) ((r.atLevel l).flush ch) := by
  have htracks : (r.atLevel l).tracks ch = r.tracks ch := rfl
  unfold flush
  rw [htracks]
  split
  · simp only [atLevel_modify, atLevel_catchUp]
    exact .emit (by simp [h]) (release_echoes (by simp [h]) _)
  · exact .refl h

theorem flushReady_mirrors (h : r.settings.muteLevel = 0) (queued : Bool) :
    Mirrors l ((r.flushReady ch queued).1, (r.flushReady ch queued).2.getD [])
      (((r.atLevel l).flushReady ch queued).1, ((r.atLevel l).flushReady ch queued).2.getD []) := by
  have htracks : (r.atLevel l).tracks ch = r.tracks ch := rfl
  have hwriting : (r.atLevel l).writing ch = r.writing ch := rfl
  unfold flushReady
  rw [htracks, hwriting, atLevel_catchUp]
  split
  · exact .refl h
  · dsimp only
    split
    · rw [atLevel_modify]
      exact .emit (by simp [h]) (release_echoes (by simp [h]) _)
    · exact .refl (by simp [h])

theorem takeNewTurn_level : (r.atLevel l).takeNewTurn ch =
    ((r.takeNewTurn ch).1.atLevel l, (r.takeNewTurn ch).2) := by
  have hturns : (r.atLevel l).turns[ch]? = r.turns[ch]? := rfl
  unfold takeNewTurn
  rw [hturns]
  split
  · split <;> rfl
  · rfl

/-! ## Summaries -/

/-- A release acts alike at every level, but for what the level stores. -/
theorem apply_echoes (h : r.settings.muteLevel = 0) (rel : Release) :
    Echoes l (r.apply s rel) ((r.atLevel l).apply s rel) := by
  have hturns : (r.atLevel l).turns[rel.channel]? = r.turns[rel.channel]? := rfl
  unfold apply
  rw [hturns]
  split
  · split
    · exact say_echoes h _ none true .summary
    · split
      · exact .nil
      · split
        · exact earcon_echoes h .summaryFailed
        · exact say_echoes h _ none true .prose
  · exact .nil

theorem applyAll_mirrors (h : r.settings.muteLevel = 0) (x : Lib.Reorder Release × List Release) :
    Mirrors l (r.applyAll s x) ((r.atLevel l).applyAll s x) :=
  .emit h (.flatMap (fun rel => apply_echoes h rel) x.2)

theorem land_mirrors (h : r.settings.muteLevel = 0) (seq : Option Nat) (rel : Release) :
    Mirrors l (r.land s seq rel) ((r.atLevel l).land s seq rel) := by
  unfold land
  cases seq with
  | none => exact .emit h (apply_echoes h rel)
  | some seq => exact applyAll_mirrors h _

theorem settleJob_level (job : Job) : (r.atLevel l).settleJob job =
    ((r.settleJob job).1.atLevel l, (r.settleJob job).2) ∧
    (r.settleJob job).1.settings = r.settings := by
  have hturns : (r.atLevel l).turns[job.channel]? = r.turns[job.channel]? := rfl
  unfold settleJob
  rw [hturns]
  split <;> exact ⟨rfl, rfl⟩

theorem digestDone_mirrors (h : r.settings.muteLevel = 0) (job : Job) (summary : Option Text) :
    Mirrors l (r.digestDone s job summary) ((r.atLevel l).digestDone s job summary) := by
  obtain ⟨hj, hset⟩ := settleJob_level (r := r) (l := l) job
  have m := land_mirrors (l := l) (s := s) (r := (r.settleJob job).1) (by rw [hset, h]) job.seq
    ⟨job.channel, job.gen, job.text, job.leadin, summary⟩
  unfold digestDone
  rw [hj]
  dsimp only
  rw [m.state]
  exact ⟨m.audible, rfl, m.echoes.append (.flatMap (fun d => speakDecision_echoes m.audible d) _)⟩

theorem capped_mirrors (h : r.settings.muteLevel = 0) (decision : Nat) :
    Mirrors l (r.capped ch decision) ((r.atLevel l).capped ch decision) := by
  have hturns : (r.atLevel l).turns[ch]? = r.turns[ch]? := rfl
  unfold capped
  rw [hturns]
  split
  · split
    · split
      · exact .emit (by simp [h]) (.flatMap (fun d => speakDecision_echoes h d) _)
      · exact .refl h
    · exact .refl h
  · exact .refl h

/-- With summaries off the prose kept for one is spoken. -/
theorem maybeSummarize_off (h : r.settings.muteLevel = 0) (hoff : r.summaries = false)
    (leadin : Bool) (focused : Option ChannelId) :
    Mirrors l ((r.maybeSummarize s ch leadin focused).1, (r.maybeSummarize s ch leadin focused).2.1)
      (((r.atLevel l).maybeSummarize s ch leadin focused).1,
        ((r.atLevel l).maybeSummarize s ch leadin focused).2.1) ∧
    ((r.atLevel l).maybeSummarize s ch leadin focused).2.2 = false ∧
      (r.maybeSummarize s ch leadin focused).2.2 = false := by
  unfold maybeSummarize
  simp only [atLevel_summaries, hoff, Bool.not_false, if_true, atLevel_holdKept]
  split
  · exact ⟨flushProse_mirrors (by simp [h]), rfl, rfl⟩
  · exact ⟨.refl (by simp [h]), rfl, rfl⟩

/-- The recap of a settle window and the decisions behind it. -/
theorem recap_off (h : r.settings.muteLevel = 0) (hoff : r.summaries = false) (leadin : Bool)
    (focused : Option ChannelId) (ds : List Decision) :
    let recap (r : Rules) : Rules × List Action :=
      let m := r.maybeSummarize s ch leadin focused
      ((enqueueAll ch m.2.2 ds m.1).1, m.2.1 ++ (enqueueAll ch m.2.2 ds m.1).2)
    Mirrors l (recap r) (recap (r.atLevel l)) := by
  obtain ⟨m, hq, hp⟩ := maybeSummarize_off (l := l) (s := s) h hoff leadin focused
  dsimp only
  rw [hp, hq]
  exact m.seq (g := enqueueAll ch false ds) fun r hr => enqueueAll_mirrors hr false ds

theorem settled_off (h : r.settings.muteLevel = 0) (hoff : r.summaries = false)
    (focused : Option ChannelId) :
    Mirrors l (r.settled s ch focused) ((r.atLevel l).settled s ch focused) := by
  unfold settled
  rw [atLevel_get]
  dsimp only
  split
  · exact .refl (by simp [h])
  · exact recap_off (s := s) (l := l)
      (r := (r.set ch { r.get ch with settleArmed := false }).set ch
        { r.get ch with settleArmed := false, pending := [] }) (by simp [h]) hoff _ focused _

/-- Without summaries a timer acts alike at every level. -/
theorem fire_off (h : r.settings.muteLevel = 0) (hoff : r.summaries = false) (timer : Timer)
    (focused : Option ChannelId) :
    Mirrors l (r.fire s timer focused) ((r.atLevel l).fire s timer focused) := by
  have hturns : ∀ ch : ChannelId, (r.atLevel l).turns[ch]? = r.turns[ch]? := fun _ => rfl
  unfold fire
  cases timer with
  | settle ch gen =>
    dsimp only
    rw [hturns]
    split
    · exact settled_off h hoff focused
    · exact .refl h
  | holdCap ch decision => exact capped_mirrors h decision
  | watchdog seq => exact applyAll_mirrors h _
  | leadIn ch gen =>
    dsimp only
    rw [hturns]
    split
    · exact releaseLeadInWait_mirrors h
    · exact .refl h
  | gap ch gen =>
    dsimp only
    rw [hturns]
    split
    · exact releaseGap_mirrors h
    · exact .refl h

/-! ## The question navigation -/

theorem bindQuestion_level (entry : Nat) (stored : Bool) :
    (r.atLevel l).bindQuestion ch entry stored = (r.bindQuestion ch entry stored).atLevel l := by
  have hturns : (r.atLevel l).turns[ch]? = r.turns[ch]? := rfl
  unfold bindQuestion
  rw [hturns]
  split <;> rfl

theorem numbered_level (k : Nat) :
    (r.atLevel l).numbered ch k = ((r.numbered ch k).1.atLevel l, (r.numbered ch k).2) := by
  have hturns : (r.atLevel l).turns[ch]? = r.turns[ch]? := rfl
  have hverb : (r.atLevel l).settings.verbosity = r.settings.verbosity := rfl
  unfold numbered
  rw [hturns, hverb]
  split
  · split
    · split
      · dsimp only
        split <;> rfl
      · rfl
    · rfl
  · rfl

theorem landOn_level (k : Nat) (edge : Bool) :
    (r.atLevel l).landOn ch k edge = ((r.landOn ch k edge).1.atLevel l,
      (r.landOn ch k edge).2) := by
  unfold landOn
  rw [numbered_level]
  dsimp only
  have hturns : ((r.numbered ch k).1.atLevel l).turns[ch]? = (r.numbered ch k).1.turns[ch]? := rfl
  rw [hturns]
  split
  · split <;> rfl
  · rfl

/-- Navigating acts alike at every level. -/
theorem navigate_level (step : Step) (started : Bool) :
    (r.atLevel l).navigate ch step started =
      ((r.navigate ch step started).1.atLevel l, (r.navigate ch step started).2) := by
  have hquestions : (r.atLevel l).questions? ch = r.questions? ch := rfl
  unfold navigate
  rw [hquestions]
  split
  · split
    · rfl
    · split
      · exact landOn_level 0 false
      · split
        · split
          · exact landOn_level _ false
          · exact landOn_level _ true
        · exact landOn_level _ false
  · rfl

theorem questionsUnheard_level :
    (r.atLevel l).questionsUnheard ch = (r.questionsUnheard ch).atLevel l := by
  have hturns : (r.atLevel l).turns[ch]? = r.turns[ch]? := rfl
  unfold questionsUnheard
  rw [hturns]
  split <;> rfl

theorem rewindQuestions_level :
    (r.atLevel l).rewindQuestions ch = ((r.rewindQuestions ch).1.atLevel l,
      (r.rewindQuestions ch).2) := by
  have hentry : (r.atLevel l).questionEntry ch = r.questionEntry ch := rfl
  unfold rewindQuestions
  rw [hentry]
  split
  · rfl
  · exact landOn_level 0 false

/-- Showing a question acts alike at every level. -/
theorem questionShown_level (shown : Shown) :
    (r.atLevel l).questionShown s ch shown =
      ((r.questionShown s ch shown).1.atLevel l, (r.questionShown s ch shown).2) := by
  have hturns : (r.atLevel l).turns[ch]? = r.turns[ch]? := rfl
  unfold questionShown
  rw [hturns]
  split
  · split
    · unfold steppingShown
      split
      · split <;> rfl
      · split
        · split
          · rfl
          · rw [landOn_level]
        · rfl
    · unfold readShown
      split
      · rfl
      · split
        · split <;> rfl
        · rfl
    · rfl
  · rfl

end Rules

end Sonara.L3
