import Sonara.L3.Rules

/-!
# Methods that call methods

What a method does to the rules and returns goes before what the next one does and
returns. A relation between the rules before a method, the rules after it and the actions
it returned is `Chained` when it holds of doing nothing, and of one method after another.
Such a relation holds of a method as soon as it holds of the methods it calls: that is
said here once for each method that calls others, and the families of facts about the
methods (what they arm, stamp, hold or leave waiting) only look at the methods that
write.
-/

namespace Sonara.L3

open Sonara Text
open Sonara.L2 (ChannelId)
open Sonara.Prose (Speech Chunk)

/-! ## What the assembly of a text writes -/

/-- The turn `c'` is `c` but for its text: the prose cut so far, what is voiced of it, and
where the assembler stands. -/
def Turn.Reads (c c' : Turn) : Prop :=
  c' = { c with assembler := c'.assembler, prose := c'.prose, newPara := c'.newPara,
                lastIndex := c'.lastIndex, voiced := c'.voiced }

theorem Turn.Reads.refl (c : Turn) : c.Reads c := rfl

theorem Turn.Reads.trans {c c' c'' : Turn} (h : c.Reads c') (h' : c'.Reads c'') : c.Reads c'' := by
  unfold Turn.Reads at h h' ⊢
  rw [h] at h'
  exact h'

/-- What does not look at the text is as it was. -/
theorem Turn.Reads.same {α : Type} {c c' : Turn} (h : c.Reads c') (f : Turn → α)
    (hf : ∀ {assembler prose newPara lastIndex voiced},
      f { c with assembler := assembler, prose := prose, newPara := newPara,
                 lastIndex := lastIndex, voiced := voiced } = f c) : f c' = f c :=
  (congrArg f h).trans hf

theorem cutChunk_reads (skipCode : Bool) (k : Rules.Cut) (c : Chunk) :
    k.turn.Reads (Rules.cutChunk skipCode k c).turn := by
  cases c with
  | text t => rfl
  | code summary lines stop => cases skipCode <;> rfl
  | paragraphBreak => rfl

theorem cutDelta_reads (s : Speech) (skipCode : Bool) (k : Rules.Cut) (d : Delta) :
    k.turn.Reads (Rules.cutDelta s skipCode k d).turn := by
  have hfold : ∀ (cs : List Chunk) (k : Rules.Cut),
      k.turn.Reads (cs.foldl (Rules.cutChunk skipCode) k).turn := by
    intro cs
    induction cs with
    | nil => exact fun k => .refl k.turn
    | cons c cs ih => exact fun k => (cutChunk_reads skipCode k c).trans (ih _)
  have hcut := hfold (k.turn.assembler.feed s d.text d.index d.fin).2
    { k with turn := { k.turn with
        newPara := k.turn.newPara || (d.index = 0 && k.turn.lastIndex.any (· ≠ 0))
        lastIndex := some d.index, assembler := (k.turn.assembler.feed s d.text d.index d.fin).1 } }
  have hread := Turn.Reads.trans (c := k.turn) (by rfl) hcut
  unfold Rules.cutDelta
  dsimp only
  split
  · exact hread.trans (by rfl)
  · exact hread

/-- Cutting deltas writes the text of the turn. -/
theorem cut_reads (s : Speech) (r : Rules) (ch : ChannelId) (ds : List Delta) :
    (r.get ch).Reads (r.cut s ch ds).turn := by
  have hfold : ∀ (ds : List Delta) (skipCode : Bool) (k : Rules.Cut),
      k.turn.Reads (ds.foldl (Rules.cutDelta s skipCode) k).turn := by
    intro ds skipCode
    induction ds with
    | nil => exact fun k => .refl k.turn
    | cons d ds ih => exact fun k => (cutDelta_reads s skipCode k d).trans (ih _)
  refine Turn.Reads.trans ?_ (hfold ds _ _)
  dsimp only
  split
  · exact .refl _
  · rfl

/-! ## Relations that methods keep -/

/-- A relation that holds of doing nothing, and of one method after another. -/
structure Chained (P : Rules → Rules → List Action → Prop) : Prop where
  refl : ∀ r, P r r []
  trans : ∀ {r r' r'' : Rules} {out o : List Action}, P r r' out → P r' r'' o → P r r'' (out ++ o)

namespace Chained

variable {P : Rules → Rules → List Action → Prop} {r r' r'' : Rules} {s : Speech} {ch : ChannelId}
  {out o : List Action}

/-- A silent method, then another. -/
theorem andThen (C : Chained P) (h : P r r' []) (h' : P r' r'' o) : P r r'' o := C.trans h h'

/-- A method, then a silent one. -/
theorem thenSilent (C : Chained P) (h : P r r' out) (h' : P r' r'' []) : P r r'' out := by
  have h := C.trans h h'
  rwa [List.append_nil] at h

/-- Held chunks: all are spoken, those before a paragraph end, or none. -/
theorem holdTexts (C : Chained P) (texts : List (Text × Bool)) (breaks : Option Nat)
    (hhold : P r (r.set ch { r.get ch with heldProse := (r.get ch).heldProse ++ texts }) [])
    (hflush : ∀ r, P r (Rules.flushProse r ch).1 (r.flushProse ch).2)
    (hupto : ∀ (r : Rules) (n : Nat), P r (r.flushProseUpto ch n).1 (r.flushProseUpto ch n).2) :
    P r (r.holdTexts ch texts breaks).1 (r.holdTexts ch texts breaks).2 := by
  unfold Rules.holdTexts
  dsimp only
  split
  · exact C.refl r
  · refine C.andThen hhold ?_
    unfold Rules.speakReady
    split
    · exact hflush _
    · split
      · exact hupto _ _
      · exact C.refl _

/-- Deltas are assembled: the turn's text is written, and then prose is spoken or held, or the
settle window is armed again. -/
theorem assemble (C : Chained P) (ds : List Delta)
    (hread : ∀ {c}, ((r.touch ch).get ch).Reads c → P r ((r.touch ch).set ch c) [])
    (harm : ∀ r, P r (Rules.armSettle r ch).1 (r.armSettle ch).2)
    (htexts : ∀ {r : Rules} (texts : List (Text × Bool)) (breaks : Option Nat), ch ∈ r.turns →
      P r (r.holdTexts ch texts breaks).1 (r.holdTexts ch texts breaks).2) :
    P r (r.assemble s ch ds).1 (r.assemble s ch ds).2 := by
  have hcut := cut_reads s (r.touch ch) ch ds
  unfold Rules.assemble
  split
  · exact C.refl r
  · dsimp only
    split
    · unfold Rules.settleAgain
      split
      · exact C.andThen (hread hcut) (harm _)
      · exact hread hcut
    · exact C.andThen (hread (hcut.trans (by rfl)))
        (htexts _ _ Std.ExtTreeMap.mem_insert_self)

/-- A delta is the lead-in again, or of a reply that is skipped, or it is accepted after the gap
a new block ends. -/
theorem streamDelta (C : Chained P) (d : Delta) (hseen : P r (r.noteSeen s ch d) [])
    (hlead : ∀ {r : Rules}, ch ∈ r.turns → P r (r.set ch { r.get ch with leadIn := none }) [])
    (hskip : ∀ {r : Rules} (a : Prose.Assembler), ch ∈ r.turns →
      P r (r.set ch { r.get ch with assembler := a }) [])
    (hgap : ∀ r, P r (Rules.releaseGap s r ch).1 (r.releaseGap s ch).2)
    (haccept : ∀ r, P r (Rules.acceptDelta s r ch d).1 (r.acceptDelta s ch d).2) :
    P r (r.streamDelta s ch d).1 (r.streamDelta s ch d).2 := by
  have hmem : ch ∈ (r.noteSeen s ch d).turns := Std.ExtTreeMap.mem_insert_self
  unfold Rules.streamDelta
  dsimp only
  split
  · exact C.andThen hseen (hlead hmem)
  · split
    · exact hseen
    · split
      · exact C.andThen hseen (hskip _ hmem)
      · refine C.andThen hseen (C.trans ?_ (haccept _))
        split
        · exact hgap _
        · exact C.refl _

/-- What holds of a delta holds of a message that is not stale. -/
theorem stream {turn : Option String} {delta : Text} {index : Nat} {fin : Bool} {t : Option Rat}
    {p : Rules × List Action}
    (h : P r (r.streamDelta s ch ⟨delta, index, fin⟩).1 (r.streamDelta s ch ⟨delta, index, fin⟩).2)
    (hp : r.stream s ch turn delta index fin t = some p) : P r p.1 p.2 := by
  unfold Rules.stream at hp
  split at hp
  · cases hp
  · obtain rfl := Option.some.inj hp
    exact h

/-! ## Lead-ins and decisions -/

/-- The text of a lead-in is read like a first delta, whatever was flushed. -/
theorem streamLeadIn (C : Chained P) {turn : Option String} {delta : Text} {t : Option Rat}
    {p : Rules × List Action} (hdrop : P r (r.dropHeld ch).1 [])
    (hskip : ∀ (r : Rules) (b : Bool),
      P r ((r.touch ch).set ch { (r.touch ch).get ch with skipReply := b }) [])
    (hread : ∀ {r q}, Rules.stream s r ch turn delta 0 true t = some q → P r q.1 q.2)
    (hmark : ∀ (r : Rules) (b : Bool) (l : Option Text),
      P r (r.modify ch fun c => { c with skipReply := b, leadIn := l }) [])
    (h : r.streamLeadIn s ch turn delta t = some p) : P r p.1 p.2 := by
  unfold Rules.streamLeadIn at h
  obtain ⟨q, hq, rfl⟩ := Option.map_eq_some_iff.mp h
  have hdropped : P r (if r.settings.readMode = .final then (r.dropHeld ch).1 else r) [] := by
    split
    · exact hdrop
    · exact C.refl r
  dsimp only
  exact C.thenSilent (C.andThen (C.andThen hdropped (hskip _ _)) (hread hq)) (hmark _ _ _)

/-- A lead-in is read or was read, and then the question that waited for it goes. -/
theorem takeLeadIn (C : Chained P) {turn : Option String} {delta : Text} {id : Option String}
    {t : Option Rat} {p : Rules × List Action}
    (hread : ∀ {q}, r.streamLeadIn s ch turn delta t = some q → P r q.1 q.2)
    (hgo : ∀ r, P r (Rules.releaseLeadInWait r ch).1 (r.releaseLeadInWait ch).2)
    (h : r.takeLeadIn s ch turn delta id t = some p) : P r p.1 p.2 := by
  unfold Rules.takeLeadIn at h
  dsimp only at h
  split at h
  · cases h
  · split at h
    · obtain rfl := Option.some.inj h
      exact C.refl r
    · obtain ⟨q, hq, rfl⟩ := Option.map_eq_some_iff.mp h
      have hq : P r q.1 q.2 := by
        split at hq
        · obtain rfl := Option.some.inj hq
          exact C.refl r
        · split at hq
          · exact hread hq
          · obtain rfl := Option.some.inj hq
            exact C.refl r
      split
      · exact C.trans hq (hgo _)
      · exact hq

/-- A decision is accepted: it waits for the settle window or its lead-in, or it is spoken or
held. -/
theorem accept (C : Chained P) (a : Ask) (item : Decision)
    (hwaits : P r (r.set ch { r.get ch with pending := (r.get ch).pending ++ [item] }) [])
    (hlead : ∀ r, P r (Rules.waitLeadIn r ch a).1 (r.waitLeadIn ch a).2)
    (harm : ∀ r, P r (Rules.armSettle r ch).1 (r.armSettle ch).2)
    (hclear : P r (r.set ch { r.get ch with heldProse := [] }) [])
    (hhold : ∀ r, P r (Rules.enqueueOrHold r ch item false).1 (r.enqueueOrHold ch item false).2)
    (hback : ∀ (r : Rules) (l : List (Text × Bool)),
      P r (r.modify ch fun c => { c with heldProse := l }) []) :
    P r (r.accept ch a item).1 (r.accept ch a item).2 := by
  unfold Rules.accept
  dsimp only
  split
  · refine C.trans ?_ (harm _)
    split
    · exact C.andThen hwaits (hlead _)
    · exact hwaits
  · split
    · exact C.andThen hwaits (hlead _)
    · split
      · exact C.thenSilent (C.andThen hclear (hhold _)) (hback _ _)
      · exact hhold r

/-- A later question of a set is only noted in the set. -/
theorem keepLater (h : ∀ q, P r (r.set ch { r.get ch with questions := some q }) []) {a : Ask}
    (hk : r.keepLater ch a = some r') : P r r' [] := by
  unfold Rules.keepLater at hk
  split at hk
  · split at hk
    · dsimp only at hk
      split at hk
      · split at hk
        · obtain rfl := Option.some.inj hk
          exact h _
        · cases hk
      · cases hk
    · cases hk
  · cases hk

/-- An ask, once the gap was released: a later question of a set is noted, any other is posed. -/
theorem ask (C : Chained P) (a : Ask) (hgap : P r (r.releaseGap s ch).1 (r.releaseGap s ch).2)
    (hlater : ∀ {r'}, (r.releaseGap s ch).1.keepLater ch a = some r' →
      P (r.releaseGap s ch).1 r' [])
    (hquestion : P (r.releaseGap s ch).1 ((r.releaseGap s ch).1.question ch a).1
      ((r.releaseGap s ch).1.question ch a).2)
    (hmark : P (r.releaseGap s ch).1 ((r.releaseGap s ch).1.set ch
      { (r.releaseGap s ch).1.get ch with awaiting := false }) [])
    (hearcon : ∀ r, P r r (Rules.earcon r .permission))
    (hpose : ∀ {r' : Rules} {text : Text} (h : Spoken text) (kind : Kind),
      r' = (r.releaseGap s ch).1 ∨ r' = ((r.releaseGap s ch).1.question ch a).1 →
        P r' (r'.pose ch a text h kind).1 (r'.pose ch a text h kind).2) :
    P r (r.ask s ch a).1 (r.ask s ch a).2 := by
  unfold Rules.ask
  dsimp only
  split
  next hk => exact C.thenSilent hgap (hlater hk)
  · split
    · exact C.trans (C.trans hgap hquestion) (hpose _ _ (.inr rfl))
    · split
      · exact C.thenSilent hgap hmark
      · exact C.trans (C.trans hgap (hearcon _)) (hpose _ _ (.inl rfl))
    · exact C.trans hgap (hpose _ _ (.inl rfl))

/-! ## Turns, tools, stop and flush -/

/-- The reply of a turn replaces what was held, or is forgotten. -/
theorem takeReply (C : Chained P)
    (hclear : P r ((r.touch ch).set ch { (r.touch ch).get ch with reply := none }) [])
    (hrestart : ∀ (r : Rules) (text : Text),
      P r ((r.dropHeld ch).1.set ch (Rules.restart ((r.dropHeld ch).1.get ch) text)) [])
    (hread : ∀ r ds, P r (Rules.assemble s r ch ds).1 (r.assemble s ch ds).2)
    (hback : ∀ r : Rules,
      P r (r.modify ch fun c => { c with assembler := {}, lastIndex := none }) []) :
    P r (r.takeReply s ch).1 (r.takeReply s ch).2 := by
  unfold Rules.takeReply
  dsimp only
  split
  · split
    · exact hclear
    · exact C.thenSilent (C.andThen (C.andThen hclear (hrestart _ _)) (hread _ _)) (hback _)
  · exact hclear

/-- A turn's end releases the gap, takes the reply, and speaks what is held or arms the settle
window. -/
theorem turnEnd (C : Chained P) {turn : Option String} {t : Option Rat} {p : Rules × List Action}
    (hgap : P r (r.releaseGap s ch).1 (r.releaseGap s ch).2)
    (hreply : ∀ r, P r (Rules.takeReply s r ch).1 (r.takeReply s ch).2)
    (hended : ∀ r : Rules, P r
      (r.modify ch fun c => { c with released := true, ended := true, batchCut := false }) [])
    (hkept : ∀ r, P r (Rules.holdKept r ch).1 [])
    (hflush : ∀ r, P r (Rules.flushProse r ch).1 (r.flushProse ch).2)
    (harm : ∀ r, P r (Rules.armSettle r ch).1 (r.armSettle ch).2)
    (hearcon : ∀ r', P r r (Rules.earcon r' .turnDone))
    (h : r.turnEnd s ch turn t = some p) : P r p.1 p.2 := by
  unfold Rules.turnEnd at h
  split at h
  · cases h
  · obtain rfl := Option.some.inj h
    have hreplied := C.trans hgap (hreply (r.releaseGap s ch).1)
    generalize r.releaseGap s ch = g at hreplied ⊢
    generalize g.1.takeReply s ch = q at hreplied ⊢
    have hdone := C.thenSilent hreplied (hended q.1)
    generalize (q.1.modify ch fun c =>
      { c with released := true, ended := true, batchCut := false }) = r₁ at hdone ⊢
    have hall : P r (if r₁.summaries then r₁ else (r₁.holdKept ch).1) (g.2 ++ q.2) := by
      split
      · exact hdone
      · exact C.thenSilent hdone (hkept _)
    dsimp only
    generalize (if r₁.summaries then r₁ else (r₁.holdKept ch).1) = r₂ at hall ⊢
    have hspoken := C.trans (C.trans (hearcon r₂) hall) (hflush r₂)
    rw [← List.append_assoc] at hspoken
    split
    · exact C.trans hspoken (harm _)
    · exact C.thenSilent (by rwa [List.append_nil]) (C.refl _)

/-- A tool call resolves the question, and its line goes after the prose that is held. -/
theorem tool (C : Chained P) (name summary : Text) (hres : P r (r.resolve ch) [])
    (hreleased : ∀ r : Rules, P r (r.modify ch fun c => { c with released := true }) [])
    (hgap : ∀ r, P r (Rules.releaseGap s r ch).1 (r.releaseGap s ch).2)
    (hflush : ∀ r, P r (Rules.flushProse r ch).1 (r.flushProse ch).2)
    (hline : ∀ (r r' : Rules) (text : Text), P r r (r'.speak ch text none .tool)) :
    P r (r.tool s ch name summary).1 (r.tool s ch name summary).2 := by
  unfold Rules.tool
  dsimp only
  generalize r.resolve ch = r₁ at hres ⊢
  split
  · exact hres
  · split
    · exact C.andThen hres (hline _ _ _)
    · have hnow : P r (if r₁.whole then r₁ else r₁.modify ch fun c =>
          { c with released := true }) [] := by
        split
        · exact hres
        · exact C.andThen hres (hreleased _)
      exact C.trans (C.trans (C.andThen hnow (hgap _)) (hflush _)) (hline _ _ _)

/-- A stop catches every channel up. -/
theorem stopAll (C : Chained P)
    (hmark : ∀ (r : Rules) ch, P r (r.modify ch fun c => { c with awaiting := false }) [])
    (hcatch : ∀ (r : Rules) ch, P r (r.catchUp ch).1 []) : P r r.stopAll [] := by
  unfold Rules.stopAll
  generalize r.channels = chs
  induction chs generalizing r with
  | nil => exact C.refl r
  | cons ch chs ih => exact C.andThen (C.andThen (hmark r ch) (hcatch _ ch)) ih

/-! ## Summaries -/

/-- A recap speaks what is kept, lands a short turn, or dispatches a job. -/
theorem maybeSummarize (C : Chained P) (leadin : Bool) (focused : Option ChannelId)
    (hkept : P r (r.holdKept ch).1 [])
    (hflush : ∀ r, P r (Rules.flushProse r ch).1 (r.flushProse ch).2)
    (htouch : P r (r.touch ch) [])
    (hvoiced : P r ((r.touch ch).set ch
      { (r.touch ch).get ch with voiced := ((r.touch ch).get ch).prose.length }) [])
    (hsay : ∀ (r : Rules) chunks, P r r (r.speakChunks ch chunks))
    (hshort : ∀ {r₁ : Rules} (text : Text), r₁ = (r.touch ch).set ch
        { (r.touch ch).get ch with voiced := ((r.touch ch).get ch).prose.length } →
      P r₁ (r₁.landShort s ⟨ch, ((r.touch ch).get ch).gen, text, false, none⟩).1
        (r₁.landShort s ⟨ch, ((r.touch ch).get ch).gen, text, false, none⟩).2)
    (hjob : ∀ {r₁ : Rules} (text : Text), ch ∈ r₁.turns →
      P r₁ (r₁.dispatch ch text leadin).1 (r₁.dispatch ch text leadin).2) :
    P r (r.maybeSummarize s ch leadin focused).1 (r.maybeSummarize s ch leadin focused).2.1 := by
  unfold Rules.maybeSummarize
  split
  · dsimp only
    split
    · exact C.andThen hkept (hflush _)
    · exact hkept
  · dsimp only
    split
    · exact htouch
    · have hmem : ch ∈ ((r.touch ch).set ch
          { (r.touch ch).get ch with voiced := ((r.touch ch).get ch).prose.length }).turns :=
        Std.ExtTreeMap.mem_insert_self
      have hshort := fun text => hshort text rfl
      generalize ((r.touch ch).set ch
        { (r.touch ch).get ch with voiced := ((r.touch ch).get ch).prose.length }) =
        r₁ at hvoiced hmem hshort ⊢
      split
      · exact C.andThen hvoiced (hsay _ _)
      · split
        · split
          · exact C.andThen hvoiced (hsay _ _)
          · exact C.andThen hvoiced (hshort _)
        · exact C.andThen hvoiced (hjob _ hmem)

end Chained

end Sonara.L3
