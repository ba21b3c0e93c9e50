import Sonara.L3.Chains
import Sonara.L3.Stale
import Sonara.L3.Steps

/-!
# The questions that wait, and the sets they start

What each method does to a channel's stepping question set and to the question decisions
that wait there (`Leaves`). Only a question that is asked starts a set or waits anew; every
other method keeps a set's first question and its entry, or drops the set, and what it
speaks as a question waited before (`call_leaves`, `ask_asks`).
-/

namespace Sonara.L3

open Sonara Text
open Sonara.L2 (ChannelId)
open Sonara.Prose (Speech Chunk)

/-- A question that is spoken or stored. -/
def Action.question? : Action → Option (ChannelId × Option Nat × Text)
  | .speak ch text d _ .question => some (ch, d, text)
  | .store ch text d .question => some (ch, d, text)
  | _ => none

/-- The questions spoken or stored, in order. -/
def questioned (out : List Action) : List (ChannelId × Option Nat × Text) :=
  out.filterMap Action.question?

theorem questioned_append (out o : List Action) :
    questioned (out ++ o) = questioned out ++ questioned o :=
  List.filterMap_append

/-- Nothing is spoken or stored as a question. -/
def Unasked (out : List Action) : Prop := questioned out = []

theorem Unasked.append {out o : List Action} (h : Unasked out) (h' : Unasked o) :
    Unasked (out ++ o) := by
  unfold Unasked at *
  rw [questioned_append, h, h']
  rfl

theorem Unasked.flatMap {α : Type} {f : α → List Action} (h : ∀ x, Unasked (f x)) (xs : List α) :
    Unasked (xs.flatMap f) := by
  induction xs with
  | nil => rfl
  | cons x xs ih =>
    rw [List.flatMap_cons]
    exact (h x).append ih

/-- The question decisions that wait. -/
def Turn.asks (c : Turn) : List Decision := (c.heldItems ++ c.pending).filter (·.kind = .question)

theorem Turn.mem_asks {c : Turn} {d : Decision} :
    d ∈ c.asks ↔ (d ∈ c.heldItems ∨ d ∈ c.pending) ∧ d.kind = .question := by
  unfold Turn.asks
  rw [List.mem_filter, List.mem_append, decide_eq_true_eq]

/-- The first question of a set. -/
def QuestionSet.first (q : QuestionSet) : Option Text := q.texts.head?.join

/-- A set goes on with its entry and its first question, or is gone. -/
def Kept (q q' : Option QuestionSet) : Prop :=
  ∀ p', q' = some p' → ∃ p, q = some p ∧ p'.entry = p.entry ∧ p'.first = p.first

theorem Kept.refl (q : Option QuestionSet) : Kept q q := fun p' h => ⟨p', h, rfl, rfl⟩

theorem Kept.gone (q : Option QuestionSet) : Kept q none := fun _ h => by cases h

theorem Kept.trans {q q' q'' : Option QuestionSet} (h : Kept q q') (h' : Kept q' q'') :
    Kept q q'' := by
  intro p'' hp''
  obtain ⟨p', hp', hentry', hfirst'⟩ := h' p'' hp''
  obtain ⟨p, hp, hentry, hfirst⟩ := h p' hp'
  exact ⟨p, hp, hentry'.trans hentry, hfirst'.trans hfirst⟩

namespace Rules

variable {r r' r'' : Rules} {s : Speech} {ch : ChannelId} {out o : List Action}
  {N : ChannelId → Decision → Prop}

def asks (r : Rules) (ch : ChannelId) : List Decision := (r.get ch).asks

/-- The set `ch` steps through. -/
def stepping (r : Rules) (ch : ChannelId) : Option QuestionSet := (r.get ch).questions

/-- A method that starts no set: what waits as a question, or is spoken as one, waited
before or is one of `N`. -/
structure Leaves (N : ChannelId → Decision → Prop) (r r' : Rules) (out : List Action) : Prop where
  sets : ∀ ch, Kept (r.stepping ch) (r'.stepping ch)
  waits : ∀ {ch d}, d ∈ r'.asks ch → d ∈ r.asks ch ∨ N ch d
  said : ∀ {q}, q ∈ questioned out → ∃ ch d, (d ∈ r.asks ch ∨ N ch d) ∧ q = (ch, some d.id, d.text)

theorem Leaves.refl (r : Rules) : Leaves N r r [] :=
  ⟨fun _ => .refl _, fun h => .inl h, fun h => absurd h List.not_mem_nil⟩

theorem Leaves.trans (l : Leaves N r r' out) (l' : Leaves N r' r'' o) :
    Leaves N r r'' (out ++ o) where
  sets ch := (l.sets ch).trans (l'.sets ch)
  waits h := (l'.waits h).elim l.waits .inr
  said {q} h := by
    rw [questioned_append, List.mem_append] at h
    rcases h with h | h
    · exact l.said h
    · obtain ⟨ch, d, hd, rfl⟩ := l'.said h
      exact ⟨ch, d, hd.elim l.waits .inr, rfl⟩

theorem chained_leaves : Chained (Leaves N) := ⟨.refl, .trans⟩

/-- A silent method, then another. -/
theorem Leaves.andThen (l : Leaves N r r' []) (l' : Leaves N r' r'' o) : Leaves N r r'' o :=
  l.trans l'

/-- A method, then a silent one. -/
theorem Leaves.thenSilent (l : Leaves N r r' out) (l' : Leaves N r' r'' []) :
    Leaves N r r'' out := by
  have h := l.trans l'
  rwa [List.append_nil] at h

/-- A silent method that returns actions of its own. -/
theorem Leaves.emit (l : Leaves N r r' []) (h : Unasked out) : Leaves N r r' out where
  sets := l.sets
  waits := l.waits
  said {q} hq := by
    rw [h] at hq
    cases hq

theorem Leaves.plus (l : Leaves N r r' out) (h : Unasked o) : Leaves N r r' (out ++ o) :=
  l.trans ((Leaves.refl r').emit h)

theorem Leaves.plusBefore (l : Leaves N r r' out) (h : Unasked o) : Leaves N r r' (o ++ out) :=
  ((Leaves.refl r).emit h).trans l

/-- Rules with the same turns. -/
theorem Leaves.sameTurns (l : Leaves N r r' out) (h : r''.turns = r'.turns) :
    Leaves N r r'' out where
  sets ch := by
    unfold stepping get
    rw [h]
    exact l.sets ch
  waits {ch d} hd := by
    unfold asks get at hd
    rw [h] at hd
    exact l.waits hd
  said := l.said

/-- What may be new was waiting all along. -/
theorem Leaves.absorb (l : Leaves (fun ch d => d ∈ r.asks ch ∨ N ch d) r r' out) :
    Leaves N r r' out where
  sets := l.sets
  waits h := (l.waits h).elim .inl id
  said h := by
    obtain ⟨ch, d, hd, rfl⟩ := l.said h
    exact ⟨ch, d, hd.elim .inl id, rfl⟩

/-! ## One turn is written -/

/-- Making sure of a channel changes no question and no wait. -/
theorem get_touch (a ch : ChannelId) : ((r.touch ch).get a).questions = (r.get a).questions ∧
    ((r.touch ch).get a).asks = (r.get a).asks := by
  unfold touch
  split
  · exact ⟨rfl, rfl⟩
  next hnew =>
    by_cases ha : a = ch
    · subst ha
      have hself : ({ r.gen.1 with turns := r.turns.insert a { gen := r.gen.2 } } : Rules).get a =
          { gen := r.gen.2 } := @get_set_self r.gen.1 a _
      rw [hself, get_of_not_mem hnew]
      exact ⟨rfl, rfl⟩
    · have hframe : ({ r.gen.1 with turns := r.turns.insert ch { gen := r.gen.2 } } : Rules).get a =
          r.get a := by
        unfold get
        exact congrArg (fun c => Option.getD c { gen := 0 })
          (@set_frame r ch a ha { gen := r.gen.2 })
      rw [hframe]
      exact ⟨rfl, rfl⟩

theorem get_set_ne {a : ChannelId} (h : a ≠ ch) (c : Turn) : (r.set ch c).get a = r.get a := by
  unfold get
  rw [set_frame h]

theorem touch_leaves (ch : ChannelId) : Leaves N r (r.touch ch) [] := by
  refine ⟨fun a => ?_, fun {a d} h => .inl ?_, fun h => absurd h List.not_mem_nil⟩
  · unfold stepping
    rw [(get_touch a ch).1]
    exact .refl _
  · unfold asks at h ⊢
    rwa [(get_touch a ch).2] at h

/-- Writing a turn whose set goes on and whose questions were waiting starts no set. -/
theorem set_leaves {c : Turn} (hsets : Kept (r.stepping ch) c.questions)
    (hasks : ∀ d ∈ c.asks, d ∈ r.asks ch ∨ N ch d) : Leaves N r (r.set ch c) [] := by
  refine ⟨fun a => ?_, fun {a d} h => ?_, fun h => absurd h List.not_mem_nil⟩
  · by_cases ha : a = ch
    · subst ha
      unfold stepping
      rw [get_set_self]
      exact hsets
    · unfold stepping
      rw [get_set_ne ha]
      exact .refl _
  · by_cases ha : a = ch
    · subst ha
      unfold asks at h
      rw [get_set_self] at h
      exact hasks d h
    · unfold asks at h
      rw [get_set_ne ha] at h
      exact .inl h

/-- What the sets and the waiting questions of a turn read. -/
def key (c : Turn) : Option QuestionSet × Option (Nat × List Decision) × List Decision :=
  (c.questions, c.held, c.pending)

theorem key_eq {c c' : Turn} (h : key c = key c') :
    c.questions = c'.questions ∧ c.asks = c'.asks := by
  obtain ⟨hq, hw⟩ := Prod.mk.inj h
  obtain ⟨hh, hp⟩ := Prod.mk.inj hw
  refine ⟨hq, ?_⟩
  unfold Turn.asks Turn.heldItems
  rw [hh, hp]

/-- A turn is written with the set and the decisions it had. -/
theorem setKey_leaves {c : Turn} (h : key c = key (r.get ch)) : Leaves N r (r.set ch c) [] := by
  obtain ⟨hq, ha⟩ := key_eq h
  refine set_leaves ?_ fun d hd => .inl ?_
  · rw [hq]
    exact .refl _
  · rw [ha] at hd
    exact hd

theorem touchSetKey_leaves {c : Turn} (h : key c = key ((r.touch ch).get ch)) :
    Leaves N r ((r.touch ch).set ch c) [] := (touch_leaves ch).andThen (setKey_leaves h)

theorem modifyKey_leaves {f : Turn → Turn} (h : ∀ c, key (f c) = key c) :
    Leaves N r (r.modify ch f) [] :=
  touchSetKey_leaves (h _)

/-- A turn that drops its set and some of its decisions. -/
theorem modify_leaves {f : Turn → Turn} (hsets : ∀ c, Kept c.questions (f c).questions)
    (hasks : ∀ c, ∀ d ∈ (f c).asks, d ∈ c.asks) : Leaves N r (r.modify ch f) [] :=
  (touch_leaves ch).andThen (set_leaves (hsets _) fun d hd => .inl (hasks _ d hd))

theorem gen_leaves : Leaves N r r.gen.1 [] := (Leaves.refl r).sameTurns rfl

/-! ## What is said -/

/-- What is said is no question, unless it is one. -/
theorem say_unasked (text : Text) (d : Option Nat) (release : Bool) {kind : Kind}
    (h : kind ≠ .question) :
    Unasked (r.say ch text d release kind) := by
  unfold say
  split
  · rfl
  · split
    · cases kind with
      | question => exact absurd rfl h
      | _ => rfl
    · cases kind with
      | question => exact absurd rfl h
      | _ => rfl

theorem speak_unasked (text : Text) (d : Option Nat) {kind : Kind} (h : kind ≠ .question) :
    Unasked (r.speak ch text d kind) := say_unasked text d false h

theorem earcon_unasked (e : Earcon) : Unasked (r.earcon e) := by
  unfold earcon
  split
  · rfl
  · rfl

theorem sayProse_unasked (held : List (Text × Bool)) : Unasked (r.sayProse ch held) := by
  unfold sayProse
  split
  · rfl
  · split
    · exact speak_unasked _ none (by decide)
    · exact .flatMap (fun p => speak_unasked _ none (by decide)) held

theorem speakChunks_unasked (chunks : List Text) : Unasked (r.speakChunks ch chunks) := by
  unfold speakChunks
  split
  · exact speak_unasked _ none (by decide)
  · exact .flatMap (fun t => speak_unasked t none (by decide)) chunks

theorem apply_unasked (rel : Release) : Unasked (r.apply s rel) := by
  unfold apply
  split
  · split
    · exact say_unasked _ none true (by decide)
    · split
      · rfl
      · split
        · exact earcon_unasked _
        · exact say_unasked _ none true (by decide)
  · rfl

/-- A decision is spoken as the question it is, or as none. -/
theorem speakDecision_said {d : Decision} {q : ChannelId × Option Nat × Text}
    (h : q ∈ questioned (r.speakDecision ch d)) :
    d.kind = .question ∧ q = (ch, some d.id, d.text) := by
  by_cases hk : d.kind = .question
  · refine ⟨hk, ?_⟩
    unfold speakDecision speak say at h
    rw [if_neg d.spoken.trim_ne_nil, hk] at h
    split at h
    · exact List.mem_singleton.mp h
    · exact List.mem_singleton.mp h
  · have hnone : Unasked (r.speakDecision ch d) := speak_unasked d.text _ hk
    rw [hnone] at h
    cases h

/-- Then decisions that wait, or may be new, are spoken. -/
theorem Leaves.speaks (l : Leaves N r r' out) (ch : ChannelId) (ds : List Decision)
    {o : List Action} (h : ∀ d ∈ ds, d.kind = .question → d ∈ r.asks ch ∨ N ch d)
    (ho : ∀ {q}, q ∈ questioned o → ∃ d ∈ ds, d.kind = .question ∧ q = (ch, some d.id, d.text)) :
    Leaves N r r' (out ++ o) where
  sets := l.sets
  waits := l.waits
  said {q} hq := by
    rw [questioned_append, List.mem_append] at hq
    rcases hq with hq | hq
    · exact l.said hq
    · obtain ⟨d, hd, hk, rfl⟩ := ho hq
      exact ⟨ch, d, h d hd hk, rfl⟩

theorem speakDecisions_said {ds : List Decision} {q : ChannelId × Option Nat × Text}
    (h : q ∈ questioned (ds.flatMap (r.speakDecision ch))) :
    ∃ d ∈ ds, d.kind = .question ∧ q = (ch, some d.id, d.text) := by
  obtain ⟨a, ha, hq⟩ := List.mem_filterMap.mp h
  obtain ⟨d, hd, ha⟩ := List.mem_flatMap.mp ha
  exact ⟨d, hd, speakDecision_said (List.mem_filterMap.mpr ⟨a, ha, hq⟩)⟩

/-! ## Prose -/

theorem dropHeld_leaves : Leaves N r (r.dropHeld ch).1 [] := touchSetKey_leaves (by rfl)

theorem holdKept_leaves : Leaves N r (r.holdKept ch).1 [] := touchSetKey_leaves (by rfl)

theorem flushProseUpto_leaves (n : Nat) :
    Leaves N r (r.flushProseUpto ch n).1 (r.flushProseUpto ch n).2 :=
  Leaves.emit (touchSetKey_leaves (by rfl)) (sayProse_unasked _)

theorem flushProse_leaves : Leaves N r (r.flushProse ch).1 (r.flushProse ch).2 :=
  (touch_leaves ch).andThen (flushProseUpto_leaves _)

theorem armSettle_leaves : Leaves N r (r.armSettle ch).1 (r.armSettle ch).2 := by
  unfold armSettle
  refine Leaves.emit (gen_leaves.andThen ?_) rfl
  dsimp only
  exact modifyKey_leaves fun _ => rfl

theorem holdTexts_leaves (texts : List (Text × Bool)) (breaks : Option Nat) :
    Leaves N r (r.holdTexts ch texts breaks).1 (r.holdTexts ch texts breaks).2 :=
  chained_leaves.holdTexts texts breaks (setKey_leaves (by rfl)) (fun _ => flushProse_leaves)
    fun _ n => flushProseUpto_leaves n

/-- Assembling deltas starts no set. -/
theorem assemble_leaves (ds : List Delta) :
    Leaves N r (r.assemble s ch ds).1 (r.assemble s ch ds).2 :=
  chained_leaves.assemble ds (fun h => touchSetKey_leaves (h.same key rfl))
    (fun _ => armSettle_leaves) fun texts breaks _ => holdTexts_leaves texts breaks

theorem releaseGap_leaves : Leaves N r (r.releaseGap s ch).1 (r.releaseGap s ch).2 :=
  Leaves.andThen (touchSetKey_leaves (by rfl)) (assemble_leaves _)

theorem acceptDelta_leaves (d : Delta) :
    Leaves N r (r.acceptDelta s ch d).1 (r.acceptDelta s ch d).2 := by
  unfold acceptDelta
  dsimp only
  split
  · have hset : Leaves N r ((r.touch ch).gen.1.set ch { (r.touch ch).get ch with
        order := { (((r.touch ch).get ch).order.accept d).1 with gen := (r.touch ch).gen.2 } })
        [] :=
      ((touch_leaves ch).andThen gen_leaves).andThen (setKey_leaves (by rfl))
    exact (hset.andThen (assemble_leaves _)).plusBefore (o := [_]) rfl
  · exact Leaves.andThen (touchSetKey_leaves (by rfl)) (assemble_leaves _)

theorem noteSeen_leaves (d : Delta) : Leaves N r (r.noteSeen s ch d) [] := by
  refine modifyKey_leaves fun c => ?_
  split
  · rfl
  · rfl

/-- A delta starts no question set. -/
theorem streamDelta_leaves (d : Delta) :
    Leaves N r (r.streamDelta s ch d).1 (r.streamDelta s ch d).2 :=
  chained_leaves.streamDelta d (noteSeen_leaves d) (fun _ => setKey_leaves (by rfl))
    (fun _ _ => setKey_leaves (by rfl)) (fun _ => releaseGap_leaves) fun _ => acceptDelta_leaves d

theorem stream_leaves {turn : Option String} {delta : Text} {index : Nat} {fin : Bool}
    {t : Option Rat} {p : Rules × List Action} (h : r.stream s ch turn delta index fin t = some p) :
    Leaves N r p.1 p.2 :=
  Chained.stream (streamDelta_leaves _) h

/-! ## Decisions and lead-ins -/

theorem heldItems_append (c : Turn) (token : Nat) (item d : Decision) :
    d ∈ ({ c with held := some (token, (c.held.map Prod.snd).getD [] ++ [item]) } : Turn).asks →
      d ∈ c.asks ∨ d = item ∧ item.kind = .question := by
  intro h
  obtain ⟨hd, hk⟩ := Turn.mem_asks.mp h
  rcases hd with hd | hd
  · rcases List.mem_append.mp hd with hd | hd
    · exact .inl (Turn.mem_asks.mpr ⟨.inl hd, hk⟩)
    · rw [List.mem_singleton] at hd
      exact .inr ⟨hd, hd ▸ hk⟩
  · exact .inl (Turn.mem_asks.mpr ⟨.inr hd, hk⟩)

theorem pending_append (c : Turn) (item d : Decision) :
    d ∈ ({ c with pending := c.pending ++ [item] } : Turn).asks →
    d ∈ c.asks ∨ d = item ∧ item.kind = .question := by
  intro h
  obtain ⟨hd, hk⟩ := Turn.mem_asks.mp h
  rcases hd with hd | hd
  · exact .inl (Turn.mem_asks.mpr ⟨.inl hd, hk⟩)
  · rcases List.mem_append.mp hd with hd | hd
    · exact .inl (Turn.mem_asks.mpr ⟨.inr hd, hk⟩)
    · rw [List.mem_singleton] at hd
      exact .inr ⟨hd, hd ▸ hk⟩

/-- A decision that is spoken or held is the only new one. -/
theorem enqueueOrHold_leaves {d : Decision} (digesting : Bool) (h : d.kind = .question → N ch d) :
    Leaves N r (r.enqueueOrHold ch d digesting).1 (r.enqueueOrHold ch d digesting).2 := by
  unfold enqueueOrHold
  dsimp only
  split
  · refine Leaves.emit ((touch_leaves ch).andThen (set_leaves (.refl _) fun x hx => ?_)) rfl
    refine (heldItems_append _ _ d x hx).imp_right ?_
    rintro ⟨rfl, hk⟩
    exact h hk
  · refine ((touch_leaves ch).andThen flushProse_leaves).speaks ch [d] (fun x hx hk => ?_)
      fun hq => ?_
    · rw [List.mem_singleton.mp hx] at hk ⊢
      exact .inr (h hk)
    · obtain ⟨hk, rfl⟩ := speakDecision_said hq
      exact ⟨d, List.mem_cons_self, hk, rfl⟩

theorem enqueueAll_leaves (digesting : Bool) {ds : List Decision}
    (h : ∀ d ∈ ds, d.kind = .question → N ch d) :
    Leaves N r (enqueueAll ch digesting ds r).1 (enqueueAll ch digesting ds r).2 := by
  induction ds generalizing r with
  | nil => exact .refl r
  | cons d ds ih =>
    exact (enqueueOrHold_leaves digesting (h d List.mem_cons_self)).trans
      (ih fun x hx => h x (List.mem_cons_of_mem d hx))

/-- The pending decisions leave their wait. -/
theorem pending_leaves {r₁ r₂ : Rules} {digesting : Bool}
    (l : Leaves (fun a d => d ∈ r.asks a ∨ N a d) r r₁ [])
    (l' : Leaves (fun a d => d ∈ r.asks a ∨ N a d)
      (r₁.set ch { r₁.get ch with pending := [] }) r₂ out) :
    Leaves N r (enqueueAll ch digesting (r₁.get ch).pending r₂).1
      (out ++ (enqueueAll ch digesting (r₁.get ch).pending r₂).2) := by
  have hempty : Leaves (fun a d => d ∈ r.asks a ∨ N a d) r₁
      (r₁.set ch { r₁.get ch with pending := [] }) [] := by
    refine set_leaves (.refl _) fun d hd => .inl ?_
    obtain ⟨hd, hk⟩ := Turn.mem_asks.mp hd
    exact Turn.mem_asks.mpr ⟨hd.imp id fun h => absurd h List.not_mem_nil, hk⟩
  refine Leaves.absorb (((l.andThen hempty).andThen l').trans
    (enqueueAll_leaves digesting fun d hd hk => ?_))
  have hwaited : d ∈ r.asks ch ∨ d ∈ r.asks ch ∨ N ch d := l.waits (Turn.mem_asks.mpr ⟨.inr hd, hk⟩)
  exact hwaited.elim .inl id

theorem releaseLeadInWait_leaves : Leaves N r (r.releaseLeadInWait ch).1
    (r.releaseLeadInWait ch).2 := by
  have hgone : Leaves N r (r.modify ch fun c => { c with leadInWait := none }) [] :=
    modifyKey_leaves fun _ => rfl
  have hgone' : Leaves (fun a d => d ∈ r.asks a ∨ N a d) r
      (r.modify ch fun c => { c with leadInWait := none }) [] :=
    modifyKey_leaves fun _ => rfl
  unfold releaseLeadInWait
  generalize (r.modify ch fun c => { c with leadInWait := none }) = r₁ at hgone hgone' ⊢
  dsimp only
  split
  · exact hgone.andThen armSettle_leaves
  · have hpending := @pending_leaves r ch [] N r₁ _ false hgone' (.refl _)
    rwa [List.nil_append] at hpending

theorem waitLeadIn_leaves (a : Ask) : Leaves N r (r.waitLeadIn ch a).1 (r.waitLeadIn ch a).2 := by
  unfold waitLeadIn
  dsimp only
  split
  · exact touch_leaves ch
  · refine Leaves.emit (((touch_leaves ch).andThen gen_leaves).andThen ?_) rfl
    dsimp only
    exact modifyKey_leaves fun _ => rfl

theorem streamLeadIn_leaves {turn : Option String} {delta : Text} {t : Option Rat}
    {p : Rules × List Action} (h : r.streamLeadIn s ch turn delta t = some p) :
    Leaves N r p.1 p.2 :=
  chained_leaves.streamLeadIn dropHeld_leaves (fun _ _ => touchSetKey_leaves (by rfl))
    stream_leaves (fun _ _ _ => modifyKey_leaves fun _ => rfl) h

/-- A lead-in starts no question set. -/
theorem takeLeadIn_leaves {turn : Option String} {delta : Text} {id : Option String}
    {t : Option Rat} {p : Rules × List Action} (h : r.takeLeadIn s ch turn delta id t = some p) :
    Leaves N r p.1 p.2 :=
  chained_leaves.takeLeadIn streamLeadIn_leaves (fun _ => releaseLeadInWait_leaves) h

theorem dropBefore_leaves (kind : Kind) : Leaves N r (r.dropBefore ch kind) [] := by
  unfold dropBefore
  split
  · exact dropHeld_leaves
  · exact .refl r

theorem extras_leaves (a : Ask) : Leaves N r (r.extras ch a).1 [] := by
  unfold extras
  dsimp only
  split
  · exact .refl r
  · split
    · exact setKey_leaves (by rfl)
    · exact .refl r

/-- Accepting a decision leaves it waiting or speaks it, and nothing else that is new. -/
theorem accept_leaves (a : Ask) {item : Decision} (h : item.kind = .question → N ch item) :
    Leaves N r (r.accept ch a item).1 (r.accept ch a item).2 := by
  refine chained_leaves.accept a item (set_leaves (.refl _) fun d hd => ?_)
    (fun _ => waitLeadIn_leaves a) (fun _ => armSettle_leaves) (setKey_leaves (by rfl))
    (fun _ => enqueueOrHold_leaves false h) fun _ _ => modifyKey_leaves fun _ => rfl
  refine (pending_append _ item d hd).imp_right ?_
  rintro ⟨rfl, hk⟩
  exact h hk

/-- What is asked is the next decision. -/
theorem pose_leaves (a : Ask) {text : Text} (ht : Spoken text) (kind : Kind)
    (h : ∀ d : Decision, d.id = r.nextDecision + 1 → d.kind = kind → kind = .question → N ch d) :
    Leaves N r (r.pose ch a text ht kind).1 (r.pose ch a text ht kind).2 := by
  have hcalm := (dropBefore_calm (r := r) ch kind).andThen (extras_calm ch a)
  have hcount : Leaves N r { ((r.dropBefore ch kind).extras ch a).1 with
      nextDecision := ((r.dropBefore ch kind).extras ch a).1.nextDecision + 1 } [] :=
    ((dropBefore_leaves kind).andThen (extras_leaves a)).sameTurns rfl
  refine hcount.andThen (accept_leaves a fun hk => h _ ?_ rfl hk)
  exact congrArg (· + 1) hcalm.nextDecision

/-- A later question of a set leaves the first as it is. -/
theorem keepLater_leaves {a : Ask} (hk : r.keepLater ch a = some r') : Leaves N r r' [] := by
  unfold keepLater at hk
  split at hk
  next i n hset =>
    split at hk
    next hpos =>
      dsimp only at hk
      split at hk
      next q hq =>
        split at hk
        next hn =>
          obtain rfl := Option.some.inj hk
          refine set_leaves (fun p' hp' => ⟨q, hq, ?_⟩) fun d hd => .inl hd
          obtain rfl := Option.some.inj hp'
          refine ⟨rfl, ?_⟩
          unfold QuestionSet.first
          dsimp only
          cases ht : q.texts with
          | nil => rfl
          | cons t ts =>
            cases i with
            | zero => exact absurd hpos.1 (Nat.lt_irrefl 0)
            | succ i => rfl
        · cases hk
      · cases hk
    · cases hk
  · cases hk

/-! ## Turns, tools, stop and flush -/

/-- Taking a reply starts no question set. -/
theorem takeReply_leaves : Leaves N r (r.takeReply s ch).1 (r.takeReply s ch).2 :=
  chained_leaves.takeReply (touchSetKey_leaves (by rfl))
    (fun _ _ => dropHeld_leaves.andThen (setKey_leaves (by rfl)))
    (fun _ ds => assemble_leaves ds) fun _ => modifyKey_leaves fun _ => rfl

/-- A turn's end starts no question set. -/
theorem turnEnd_leaves {turn : Option String} {t : Option Rat} {p : Rules × List Action}
    (h : r.turnEnd s ch turn t = some p) : Leaves N r p.1 p.2 :=
  chained_leaves.turnEnd releaseGap_leaves (fun _ => takeReply_leaves)
    (fun _ => modifyKey_leaves fun _ => rfl) (fun _ => holdKept_leaves)
    (fun _ => flushProse_leaves) (fun _ => armSettle_leaves)
    (fun _ => (Leaves.refl r).emit (earcon_unasked _)) h

theorem resolve_leaves : Leaves N r (r.resolve ch) [] :=
  modify_leaves (fun _ => .gone _) fun _ _ h => h

/-- A tool call starts no question set. -/
theorem tool_leaves (name summary : Text) :
    Leaves N r (r.tool s ch name summary).1 (r.tool s ch name summary).2 :=
  chained_leaves.tool name summary resolve_leaves (fun _ => modifyKey_leaves fun _ => rfl)
    (fun _ => releaseGap_leaves) (fun _ => flushProse_leaves)
    fun r _ text => (Leaves.refl r).emit (speak_unasked text none (by decide))

/-- What a catch-up drops it hands out: it waited before. -/
theorem catchUp_leaves : Leaves N r (r.catchUp ch).1 [] ∧
    ∀ d ∈ (r.catchUp ch).2.1, d.kind = .question → d ∈ r.asks ch := by
  have hdrop : Leaves (fun _ _ => False) r (r.gen.1.gen.1.dropHeld ch).1 [] :=
    (gen_leaves.andThen gen_leaves).andThen dropHeld_leaves
  have hdrop' : Leaves N r (r.gen.1.gen.1.dropHeld ch).1 [] :=
    (gen_leaves.andThen gen_leaves).andThen dropHeld_leaves
  unfold catchUp
  dsimp only
  generalize (r.gen.1.gen.1.dropHeld ch).1 = r₁ at hdrop hdrop'
  refine ⟨hdrop'.andThen (set_leaves (.refl _) fun d hd => ?_), fun d hd hk => ?_⟩
  · obtain ⟨hd, -⟩ := Turn.mem_asks.mp hd
    rcases hd with hd | hd
    · cases hd
    · cases hd
  · have hwaited : d ∈ r.asks ch ∨ False :=
      hdrop.waits (Turn.mem_asks.mpr ⟨(List.mem_append.mp hd).symm, hk⟩)
    exact hwaited.resolve_right id

theorem answered_leaves : Leaves N r (r.answered ch).1 (r.answered ch).2 :=
  (resolve_leaves.andThen catchUp_leaves.1).emit rfl

theorem stopAll_leaves : Leaves N r r.stopAll [] :=
  chained_leaves.stopAll (fun _ _ => modifyKey_leaves fun _ => rfl) fun _ _ => catchUp_leaves.1

theorem flush_leaves : Leaves N r (r.flush ch).1 (r.flush ch).2 := by
  unfold flush
  split
  · have hskip : Leaves N r (r.modify ch fun c => { c with skipReply := true }) [] :=
      modifyKey_leaves fun _ => rfl
    have hskip' : Leaves (fun _ _ => False) r
        (r.modify ch fun c => { c with skipReply := true }) [] :=
      modifyKey_leaves fun _ => rfl
    obtain ⟨hcaught, hdecisions⟩ :=
      @catchUp_leaves (r.modify ch fun c => { c with skipReply := true }) ch N
    refine (hskip.andThen hcaught).speaks ch _ (fun d hd hk => .inl ?_) speakDecisions_said
    exact (hskip'.waits (hdecisions d hd hk)).resolve_right id
  · exact .refl r

theorem flushReady_leaves (queued : Bool) :
    Leaves N r (r.flushReady ch queued).1 ((r.flushReady ch queued).2.getD []) := by
  obtain ⟨hcaught, hdecisions⟩ := @catchUp_leaves r ch N
  unfold flushReady
  split
  · exact .refl r
  · dsimp only
    split
    · have hskip : Leaves N (r.catchUp ch).1
          ((r.catchUp ch).1.modify ch fun c => { c with skipReply := true }) [] :=
        modifyKey_leaves fun _ => rfl
      exact (hcaught.andThen hskip).speaks ch _
        (fun d hd hk => .inl (hdecisions d hd hk)) speakDecisions_said
    · exact hcaught

theorem takeNewTurn_leaves : Leaves N r (r.takeNewTurn ch).1 [] := by
  unfold takeNewTurn
  split
  next c hc =>
    obtain ⟨-, rfl⟩ := mem_of_get? hc
    split
    · exact setKey_leaves (by rfl)
    · exact .refl r
  · exact .refl r

/-- Closing a channel starts no question set. -/
theorem close_leaves : Leaves N r (r.close ch) [] := by
  have hget : ∀ a, (r.close ch).get a = if a = ch then { gen := 0 } else r.get a := by
    intro a
    split
    next ha =>
      rw [ha]
      exact get_of_not_mem close_not_mem
    next ha =>
      unfold get
      rw [close_get? ha]
  refine ⟨fun a => ?_, fun {a d} h => .inl ?_, fun h => absurd h List.not_mem_nil⟩
  · unfold stepping
    rw [hget]
    split
    · exact .gone _
    · exact .refl _
  · unfold asks at h
    rw [hget] at h
    split at h
    · cases h
    · exact h

theorem renew_asks (turn : Option String) (t : Option Rat) (c : Turn) :
    (renew turn t c).questions = none ∧ (renew turn t c).asks = c.asks := by
  unfold renew retire
  dsimp only
  split
  · split
    · exact ⟨rfl, rfl⟩
    · exact ⟨rfl, rfl⟩
  · exact ⟨rfl, rfl⟩

/-- A turn's start starts no question set. -/
theorem turnStart_leaves {turn : Option String} {t : Option Rat} {p : Rules × List Action}
    (h : r.turnStart ch turn t = some p) : Leaves N r p.1 p.2 := by
  unfold turnStart at h
  split at h
  · cases h
  · obtain rfl := Option.some.inj h
    have hrenew : Leaves N r (r.gen.1.gen.1.modify ch (renew turn t)) [] := by
      refine (gen_leaves.andThen gen_leaves).andThen (modify_leaves (fun c => ?_) fun c d hd => ?_)
      · rw [(renew_asks turn t c).1]
        exact .gone _
      · rw [(renew_asks turn t c).2] at hd
        exact hd
    have hdrop := hrenew.andThen (@dropHeld_leaves _ ch N)
    have hempty : ∀ {r₁ : Rules} (g g' : Nat), Leaves N r₁
        (r₁.modify ch fun c => (emptied c).cancel g g') [] := by
      refine fun g g' => modify_leaves (fun c => .refl _) fun c d hd => ?_
      obtain ⟨hd, -⟩ := Turn.mem_asks.mp hd
      rcases hd with hd | hd
      · cases hd
      · cases hd
    exact Leaves.emit (hdrop.andThen (hempty _ _)) rfl

/-! ## Summaries and timers -/

theorem applyAll_leaves (p : Lib.Reorder Release × List Release) :
    Leaves N r (r.applyAll s p).1 (r.applyAll s p).2 :=
  Leaves.emit ((Leaves.refl r).sameTurns rfl) (Unasked.flatMap apply_unasked _)

theorem land_leaves (seq : Option Nat) (rel : Release) :
    Leaves N r (r.land s seq rel).1 (r.land s seq rel).2 := by
  unfold land
  cases seq with
  | none => exact (Leaves.refl r).emit (apply_unasked rel)
  | some seq => exact applyAll_leaves _

theorem dispatch_leaves (text : Text) (leadin : Bool) :
    Leaves N r (r.dispatch ch text leadin).1 (r.dispatch ch text leadin).2 := by
  have hset : Leaves N r (r.set ch (sent (r.get ch) (r.nextToken + 1))) [] := setKey_leaves (by rfl)
  unfold dispatch
  dsimp only
  split
  · exact Leaves.emit (hset.sameTurns rfl) rfl
  · exact Leaves.emit (hset.sameTurns rfl) rfl

theorem landShort_leaves (rel : Release) :
    Leaves N r (r.landShort s rel).1 (r.landShort s rel).2 := by
  have halloc : Leaves N r { r with buffer := r.buffer.alloc.1 } [] := (Leaves.refl r).sameTurns rfl
  exact halloc.andThen (land_leaves (some r.buffer.alloc.2) rel)

/-- A recap starts no question set. -/
theorem maybeSummarize_leaves (leadin : Bool) (focused : Option ChannelId) :
    Leaves N r (r.maybeSummarize s ch leadin focused).1
      (r.maybeSummarize s ch leadin focused).2.1 :=
  chained_leaves.maybeSummarize leadin focused holdKept_leaves (fun _ => flushProse_leaves)
    (touch_leaves ch) (touchSetKey_leaves (by rfl))
    (fun r _ => (Leaves.refl r).emit (speakChunks_unasked _)) (fun _ _ => landShort_leaves _)
    fun text _ => dispatch_leaves text leadin

/-- The end of the settle window starts no question set. -/
theorem settled_leaves (focused : Option ChannelId) :
    Leaves N r (r.settled s ch focused).1 (r.settled s ch focused).2 := by
  unfold settled
  dsimp only
  split
  · exact setKey_leaves (by rfl)
  · have hemptied : Leaves (fun a d => d ∈ r.asks a ∨ N a d) r
        ((r.set ch { r.get ch with settleArmed := false }).set ch
          { r.get ch with settleArmed := false, pending := [] }) [] := by
      have hdisarm : Leaves (fun a d => d ∈ r.asks a ∨ N a d) r
          (r.set ch { r.get ch with settleArmed := false }) [] := setKey_leaves (by rfl)
      refine hdisarm.andThen (set_leaves ?_ fun d hd => .inl ?_)
      · unfold stepping
        rw [get_set_self]
        exact .refl _
      · unfold asks
        rw [get_set_self]
        obtain ⟨hd, hk⟩ := Turn.mem_asks.mp hd
        exact Turn.mem_asks.mpr ⟨hd.imp id fun h => absurd h List.not_mem_nil, hk⟩
    generalize (r.set ch { r.get ch with settleArmed := false }).set ch
      { r.get ch with settleArmed := false, pending := [] } = r₁ at hemptied ⊢
    refine Leaves.absorb ((hemptied.andThen (maybeSummarize_leaves _ focused)).trans
      (enqueueAll_leaves _ fun d hd hk => .inl ?_))
    exact Turn.mem_asks.mpr ⟨.inr hd, hk⟩

/-- The hold's cap starts no question set. -/
theorem capped_leaves (decision : Nat) :
    Leaves N r (r.capped ch decision).1 (r.capped ch decision).2 := by
  unfold capped
  split
  next c hc =>
    obtain ⟨-, rfl⟩ := mem_of_get? hc
    split
    next token items hheld =>
      have hitems : ∀ d ∈ items, d.kind = .question → d ∈ r.asks ch := by
        refine fun d hd hk => Turn.mem_asks.mpr ⟨.inl ?_, hk⟩
        unfold Turn.heldItems
        rw [hheld]
        exact hd
      split
      · have hgone : Leaves N r (r.set ch { r.get ch with held := none }) [] := by
          refine set_leaves (.refl _) fun d hd => .inl ?_
          obtain ⟨hd, hk⟩ := Turn.mem_asks.mp hd
          exact Turn.mem_asks.mpr ⟨hd.imp (fun h => absurd h List.not_mem_nil) id, hk⟩
        have hspeaks := hgone.speaks ch items (fun d hd hk => .inl (hitems d hd hk))
          (speakDecisions_said (r := r))
        rwa [List.nil_append] at hspeaks
      · exact .refl r
    · exact .refl r
  · exact .refl r

/-- No timer starts a question set. -/
theorem fire_leaves (timer : Timer) (focused : Option ChannelId) :
    Leaves N r (r.fire s timer focused).1 (r.fire s timer focused).2 := by
  unfold fire
  cases timer with
  | settle ch gen =>
    dsimp only
    split
    · exact settled_leaves focused
    · exact .refl r
  | holdCap ch decision => exact capped_leaves decision
  | watchdog seq => exact applyAll_leaves _
  | leadIn ch gen =>
    dsimp only
    split
    · exact releaseLeadInWait_leaves
    · exact .refl r
  | gap ch gen =>
    dsimp only
    split
    · exact releaseGap_leaves
    · exact .refl r

/-- The decisions behind a job are taken out of their wait. -/
theorem settleJob_leaves (job : Job) : Leaves N r (r.settleJob job).1 [] ∧
    ∀ d ∈ (r.settleJob job).2, d.kind = .question → d ∈ r.asks job.channel := by
  unfold settleJob
  split
  next c hc =>
    obtain ⟨-, rfl⟩ := mem_of_get? hc
    refine ⟨set_leaves (.refl _) fun d hd => .inl ?_, fun d hd hk => ?_⟩
    · obtain ⟨hd, hk⟩ := Turn.mem_asks.mp hd
      refine Turn.mem_asks.mpr ⟨hd.imp_left fun hd => ?_, hk⟩
      unfold Turn.heldItems at hd ⊢
      dsimp only at hd
      split at hd
      · cases hd
      · exact hd
    · dsimp only at hd
      split at hd
      · exact Turn.mem_asks.mpr ⟨.inl hd, hk⟩
      · cases hd
  · exact ⟨.refl r, fun d hd => absurd hd List.not_mem_nil⟩

theorem digestDone_leaves (job : Job) (summary : Option Text) :
    Leaves N r (r.digestDone s job summary).1 (r.digestDone s job summary).2 := by
  obtain ⟨hjob, htaken⟩ := @settleJob_leaves r N job
  exact (hjob.andThen (land_leaves job.seq _)).speaks job.channel _
    (fun d hd hk => .inl (htaken d hd hk))
    speakDecisions_said

/-! ## The navigation -/

/-- A turn is written with another place in its set. -/
theorem steer_leaves {c : Turn} (hc : r.turns[ch]? = some c) {questions : Option QuestionSet}
    (h : Kept c.questions questions) (readSet : Option ReadSet) (hinted : Bool) :
    Leaves N r (r.set ch { c with questions := questions, readSet := readSet, hinted := hinted })
    [] := by
  obtain ⟨-, rfl⟩ := mem_of_get? hc
  exact set_leaves h fun d hd => .inl hd

theorem numbered_leaves (k : Nat) : Leaves N r (r.numbered ch k).1 [] := by
  unfold numbered
  split
  next c hc =>
    split
    · split
      · dsimp only
        split
        · exact steer_leaves hc (.refl _) c.readSet _
        · exact .refl r
      · exact .refl r
    · exact .refl r
  · exact .refl r

theorem landOn_leaves (k : Nat) (edge : Bool) : Leaves N r (r.landOn ch k edge).1 [] := by
  have hnum : Leaves N r (r.numbered ch k).1 [] := numbered_leaves k
  unfold landOn
  dsimp only
  split
  next text c ht hc =>
    split
    next q hq =>
      refine hnum.andThen (steer_leaves hc (fun p' hp' => ⟨q, hq, ?_⟩) c.readSet c.hinted)
      obtain rfl := Option.some.inj hp'
      exact ⟨rfl, rfl⟩
    · exact hnum
  · exact hnum

theorem navigate_leaves (step : Step) (started : Bool) :
    Leaves N r (r.navigate ch step started).1 [] := by
  unfold navigate
  split
  · split
    · exact .refl r
    · split
      · exact landOn_leaves 0 false
      · split
        · split
          · exact landOn_leaves _ false
          · exact landOn_leaves _ true
        · exact landOn_leaves _ false
  · exact .refl r

theorem questionsUnheard_leaves : Leaves N r (r.questionsUnheard ch) [] := by
  unfold questionsUnheard
  split
  next c hc =>
    refine steer_leaves hc (fun p' hp' => ?_) c.readSet c.hinted
    obtain ⟨q, hq, rfl⟩ := Option.map_eq_some_iff.mp hp'
    exact ⟨q, hq, rfl, rfl⟩
  · exact .refl r

theorem rewindQuestions_leaves : Leaves N r (r.rewindQuestions ch).1 [] := by
  unfold rewindQuestions
  split
  · exact .refl r
  · exact landOn_leaves 0 false

/-- Showing a question starts no question set. -/
theorem questionShown_leaves (shown : Shown) : Leaves N r (r.questionShown s ch shown).1 [] := by
  unfold questionShown
  split
  next c hc =>
    split
    next q hq =>
      unfold steppingShown
      split
      · split
        · exact .refl r
        · refine steer_leaves hc (fun p' hp' => ⟨q, hq, ?_⟩) c.readSet c.hinted
          obtain rfl := Option.some.inj hp'
          exact ⟨rfl, rfl⟩
      · split
        · split
          · exact .refl r
          · exact landOn_leaves _ false
        · exact .refl r
    · unfold readShown
      split
      · exact steer_leaves hc (.refl _) _ c.hinted
      · split
        · split
          · exact steer_leaves hc (.refl _) _ c.hinted
          · exact .refl r
        · exact .refl r
    · exact .refl r
  · exact .refl r

/-! ## A question is asked -/

/-- The set of `ch` is exchanged. -/
def begins (r : Rules) (ch : ChannelId) (questions : Option QuestionSet) : Rules :=
  r.set ch { r.get ch with questions := questions }

theorem begins_stepping (r : Rules) (ch : ChannelId) (questions : Option QuestionSet)
    (a : ChannelId) :
    (r.begins ch questions).stepping a = if a = ch then questions else r.stepping a := by
  unfold begins stepping
  split
  next h =>
    subst h
    rw [get_set_self]
  next h => rw [get_set_ne h]

theorem begins_asks (r : Rules) (ch : ChannelId) (questions : Option QuestionSet) (a : ChannelId) :
    (r.begins ch questions).asks a = r.asks a := by
  unfold begins asks
  by_cases h : a = ch
  · subst h
    rw [get_set_self]
    rfl
  · rw [get_set_ne h]

/-- What leaves the sets alone does so whatever set is there. -/
theorem Leaves.begins (l : Leaves N r r' out) (ch : ChannelId) (questions : Option QuestionSet) :
    Leaves N (r.begins ch questions) (r'.begins ch questions) out where
  sets a := by
    rw [begins_stepping, begins_stepping]
    split
    · exact .refl _
    · exact l.sets a
  waits {a d} hd := by
    rw [begins_asks] at hd ⊢
    exact l.waits hd
  said {q} hq := by
    obtain ⟨a, d, hd, rfl⟩ := l.said hq
    rw [← begins_asks r ch questions a] at hd
    exact ⟨a, d, hd, rfl⟩

/-- A question is asked: the set it starts, if it does, replaces the one that was there. -/
theorem question_leaves (a : Ask) :
    Leaves N (r.begins ch ((steppingSize (!r.settings.questionStep) a).map (newQuestions a)))
      (r.question ch a).1 (r.question ch a).2 := by
  have hown : ∀ c : Turn, c.questions = (steppingSize (!r.settings.questionStep) a).map
    (newQuestions a) →
      c.asks = (r.get ch).asks → Leaves N
        (r.begins ch ((steppingSize (!r.settings.questionStep) a).map (newQuestions a)))
          (r.set ch c) [] := by
    intro c hq hasks
    refine ⟨fun b => ?_, fun {b d} hd => .inl ?_, fun h => absurd h List.not_mem_nil⟩
    · rw [begins_stepping]
      unfold stepping
      split
      next h =>
        subst h
        rw [get_set_self, hq]
        exact .refl _
      next h =>
        rw [get_set_ne h]
        exact .refl _
    · rw [begins_asks]
      unfold asks at hd ⊢
      by_cases h : b = ch
      · subst h
        rw [get_set_self, hasks] at hd
        exact hd
      · rwa [get_set_ne h] at hd
  unfold question
  dsimp only
  refine Leaves.emit (hown _ (by rfl) (by rfl)) ?_
  split
  · rfl
  · exact earcon_unasked _

theorem pose_nextDecision (a : Ask) {text : Text} (ht : Spoken text) (kind : Kind) :
    (r.pose ch a text ht kind).1.nextDecision = r.nextDecision + 1 := by
  have hcalm := (dropBefore_calm (r := r) ch kind).andThen (extras_calm ch a)
  let L : Licence := ⟨False, fun _ => True, fun _ => True, fun _ => True⟩
  have hasks : L.asks ch := trivial
  have haccepted := fun item r => accept_accepted hasks a item r False.elim
  exact (haccepted _ _).nextDecision.trans (congrArg (· + 1) hcalm.nextDecision)

/-- The question that is asked next. -/
def Next (r : Rules) (ch : ChannelId) (a : ChannelId) (d : Decision) : Prop :=
  a = ch ∧ d.id = r.nextDecision + 1

/-- **An ask starts no set and lets no question wait, or it is the next question:** the set
it starts replaces the one that was there, and nothing else waits anew. -/
theorem ask_leaves (a : Ask) :
    Leaves N r (r.ask s ch a).1 (r.ask s ch a).2 ∨
    a.kind = .question ∧ (r.ask s ch a).1.nextDecision = r.nextDecision + 1 ∧
      Leaves (r.Next ch)
      (r.begins ch ((steppingSize (!r.settings.questionStep) a).map (newQuestions a)))
        (r.ask s ch a).1 (r.ask s ch a).2 := by
  have hgap := releaseGap_arms (r := r) s ch
  have hleaves : ∀ {M}, Leaves M r (r.releaseGap s ch).1 (r.releaseGap s ch).2 := releaseGap_leaves
  unfold ask
  dsimp only
  generalize r.releaseGap s ch = g at hgap hleaves ⊢
  split
  next r' hr' => exact .inl (hleaves.thenSilent (keepLater_leaves hr'))
  · split
    next hkind =>
      refine .inr ⟨hkind, ?_, ?_⟩
      · rw [pose_nextDecision, (question_calm ch a).nextDecision, hgap.nextDecision]
      · have hfree : Leaves (r.Next ch) r g.1 g.2 := hleaves
        have hbegun := hfree.begins ch
          ((steppingSize (!r.settings.questionStep) a).map (newQuestions a))
        rw [← hgap.settings] at hbegun ⊢
        refine (hbegun.trans (question_leaves a)).trans
          (pose_leaves a _ _ fun d hd _ _ => ⟨rfl, ?_⟩)
        rw [hd]
        exact congrArg (· + 1) hgap.nextDecision
    · left
      split
      · exact hleaves.thenSilent (setKey_leaves (by rfl))
      · refine (hleaves.plus (earcon_unasked _)).trans (pose_leaves a _ _ fun d _ _ h => ?_)
        cases h
    · exact .inl (hleaves.trans (pose_leaves a _ _ fun d _ _ h => by cases h))

/-! ## Every other call -/

theorem reply_leaves {turn : Option String} {text : Text} {before : Option Text} {t : Option Rat}
    (h : r.reply ch turn text before t = some r') : Leaves N r r' [] := by
  unfold reply at h
  dsimp only at h
  split at h
  · cases h
  · obtain rfl := Option.some.inj h
    exact modifyKey_leaves fun _ => rfl

theorem option_leaves {o : Option (Rules × List Action)}
    (h : ∀ p, o = some p → Leaves N r p.1 p.2) :
    Leaves N r (o.getD (r, [])).1 (o.getD (r, [])).2 := by
  cases o with
  | none => exact .refl r
  | some p => exact h p rfl

/-- **A call that asks nothing and binds nothing starts no set**, and lets no question wait. -/
theorem call_leaves (c : Call) (hask : ∀ ch a, c ≠ .ask ch a)
    (hbind : ∀ ch e b, c ≠ .bindQuestion ch e b) :
    Leaves N r (r.call s c).1 (r.call s c).2 := by
  cases c with
  | stream ch turn delta index fin t => exact option_leaves fun p h => stream_leaves h
  | leadIn ch turn delta t => exact option_leaves fun p h => takeLeadIn_leaves h
  | lateLeadIn ch turn delta id t => exact option_leaves fun p h => takeLeadIn_leaves h
  | reply ch turn text before t =>
    show Leaves N r ((r.reply ch turn text before t).getD r) []
    cases h : r.reply ch turn text before t with
    | none => exact .refl r
    | some r' => exact reply_leaves h
  | turnStart ch turn t => exact option_leaves fun p h => turnStart_leaves h
  | turnEnd ch turn t => exact option_leaves fun p h => turnEnd_leaves h
  | ask ch a => exact absurd rfl (hask ch a)
  | tool ch name summary => exact tool_leaves name summary
  | answered ch => exact answered_leaves
  | stopAll => exact stopAll_leaves
  | flush ch => exact flush_leaves
  | flushReady ch queued => exact flushReady_leaves queued
  | takeNewTurn ch => exact takeNewTurn_leaves
  | close ch => exact close_leaves
  | play e => exact (Leaves.refl r).emit (earcon_unasked e)
  | reviewLine ch =>
    have hsaid : Unasked (r.reviewLine ch) := speak_unasked _ none (by decide)
    exact (Leaves.refl r).emit hsaid
  | setMuteLevel level =>
    refine Leaves.emit ((Leaves.refl r).sameTurns rfl) ?_
    show Unasked (if 1 ≤ min level muteLevelMax then [.silence] else [])
    split
    · rfl
    · rfl
  | setWholeMessages on => exact (Leaves.refl r).sameTurns rfl
  | setSettings settings => exact (Leaves.refl r).sameTurns rfl
  | bindQuestion ch entry stored => exact absurd rfl (hbind ch entry stored)
  | questionShown ch shown => exact questionShown_leaves shown
  | navigate ch step started => exact navigate_leaves step started
  | questionsUnheard ch => exact questionsUnheard_leaves
  | rewindQuestions ch => exact rewindQuestions_leaves

end Rules

end Sonara.L3
