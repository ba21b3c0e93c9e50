import Sonara.L3.Rules

/-!
# The question navigation (`rules.rs`, #283, #323)

A question set moves only among its own questions: these methods write the sets and
the `hinted` mark of one channel's turn and nothing else (`Turn.Steered`).
-/

namespace Sonara.L3

open Sonara Text
open Sonara.L2 (ChannelId)
open Sonara.Prose (Speech)

/-- Which of `texts` the screen's `shown` is: equal once folded, else the one starting
with it (a cut-off screen, at least 20 bytes). -/
def matchText (s : Speech) (texts : List (Option Text)) (shown : Text) : Option Nat :=
  let f := fold s shown
  let folded := texts.map (·.map (fold s))
  if f = [] then none
  else match folded.findIdx? (· = some f) with
    | some i => some i
    | none =>
      if 20 ≤ (f.map Char.utf8Size).sum then folded.findIdx? fun t => t.any (f.isPrefixOf ·)
      else none

namespace Rules

variable (s : Speech) (r : Rules)

/-- The question set of `ch`. -/
def questions? (ch : ChannelId) : Option QuestionSet := r.turns[ch]?.bind Turn.questions

/-- The entry showing `ch`'s question set, once it was spoken. -/
def questionEntry (ch : ChannelId) : Option Nat := (r.questions? ch).bind QuestionSet.entry

/-- The driver spoke (or stored) a question in `ch` as entry `entry`. -/
def bindQuestion (ch : ChannelId) (entry : Nat) (stored : Bool) : Rules :=
  match r.turns[ch]? with
  | some c =>
    let readSet := c.readSet.map fun q =>
      match (List.range q.size).find? fun i =>
          (q.entries[i]?.join).isNone && (q.texts[i]?.join).isSome with
      | some i => { q with entries := q.entries.set i (some entry) }
      | none => q
    let questions := c.questions.map fun q =>
      if q.entry.isNone then { q with entry := some entry, heard := !stored } else q
    r.set ch { c with readSet := readSet, questions := questions }
  | none => r

/-- The text of question `k` of `ch`'s set, with its extras. -/
def numbered (ch : ChannelId) (k : Nat) : Rules × Option Text :=
  match r.turns[ch]? with
  | some c =>
    match c.questions with
    | some q =>
      match q.bodies[k]?.join with
      | some body =>
        let everything := r.settings.verbosity = .everything
        let once := if c.hinted then [] else q.hintOnce.toList
        let extras := q.notes.toList ++ if everything then q.hint.toList ++ once else []
        let text := if 2 ≤ q.size then Decision.numberedQuestion k q.size body else body
        (if everything then r.set ch { c with hinted := c.hinted || q.hintOnce.isSome } else r,
          some (Decision.withExtras text extras))
      | none => (r, none)
    | none => (r, none)
  | none => (r, none)

/-- Move `ch`'s question set to question `k`. -/
def landOn (ch : ChannelId) (k : Nat) (edge : Bool) : Rules × Option Nav :=
  let p := r.numbered ch k
  match p.2, p.1.turns[ch]? with
  | some text, some c =>
    match c.questions with
    | some q =>
      (p.1.set ch { c with questions := some { q with current := k, heard := true } },
        q.entry.map fun entry => ⟨entry, text, k, q.size, edge⟩)
    | none => (p.1, none)
  | _, _ => (p.1, none)

/-- The question navigation. -/
def navigate (ch : ChannelId) (step : Step) (started : Bool) : Rules × Option Nav :=
  match r.questions? ch with
  | some q =>
    if q.entry.isNone then (r, none)
    else if !(started && q.heard) then r.landOn ch 0 false
    else match step with
      | .next =>
        match (List.range q.size).find? fun k =>
            q.current + 1 ≤ k && (q.bodies[k]?.join).isSome with
        | some k => r.landOn ch k false
        | none => r.landOn ch q.current true
      | .previous =>
        let k := (List.range q.current).reverse.find? fun k => (q.bodies[k]?.join).isSome
        r.landOn ch (k.getD 0) false
  | none => (r, none)

/-- `ch`'s question set was skipped before it was heard. -/
def questionsUnheard (ch : ChannelId) : Rules :=
  match r.turns[ch]? with
  | some c => r.set ch { c with questions := c.questions.map fun q => { q with heard := false } }
  | none => r

/-- Up on a message with a question set: question 1 again. -/
def rewindQuestions (ch : ChannelId) : Rules × Option Nav :=
  if (r.questionEntry ch).isNone then (r, none) else r.landOn ch 0 false

/-- The terminal shows `shown` of a stepping set. -/
def steppingShown (ch : ChannelId) (c : Turn) (q : QuestionSet) : Shown → Rules × Option ShownMove
  | .review =>
    if q.reviewed then (r, none)
    else (r.set ch { c with questions := some { q with reviewed := true } }, some .review)
  | .text t =>
    match matchText s q.texts t with
    | some k =>
      if k = q.current ∨ q.entry.isNone then (r, none)
      else
        let p := r.landOn ch k false
        (p.1, p.2.map .land)
    | none => (r, none)

/-- The terminal shows `shown` of a set read in order. -/
def readShown (ch : ChannelId) (c : Turn) (q : ReadSet) : Shown → Rules × Option ShownMove
  | .review =>
    let q' := { q with following := true, current := q.size, reviewed := true }
    (r.set ch { c with readSet := some q' },
      if q.reviewed then none else some .review)
  | .text t =>
    match matchText s q.texts t with
    | some k =>
      match q.entries[k]?.join with
      | some entry =>
        let q' := { q with following := true, current := k }
        (r.set ch { c with readSet := some q' },
          if k = q.current then none else some (.entry entry k q.size))
      | none => (r, none)
    | none => (r, none)

/-- The terminal shows `shown` of `ch`'s question set. -/
def questionShown (ch : ChannelId) (shown : Shown) : Rules × Option ShownMove :=
  match r.turns[ch]? with
  | some c =>
    match c.questions, c.readSet with
    | some q, _ => r.steppingShown s ch c q shown
    | none, some q => r.readShown s ch c q shown
    | none, none => (r, none)
  | none => (r, none)

/-! ## What the navigation writes -/

/-- `r'` is `r` but for one channel's question sets and hint mark. -/
inductive Steered : Rules → Rules → Prop
  | refl (r : Rules) : Steered r r
  | set {r r' : Rules} {ch : ChannelId} {c : Turn} (h : Steered r r') (hc : r'.turns[ch]? = some c)
      (questions : Option QuestionSet) (readSet : Option ReadSet) (hinted : Bool) :
      Steered r (r'.set ch { c with questions := questions, readSet := readSet, hinted := hinted })

variable {r} {ch : ChannelId}

theorem bindQuestion_steered (entry : Nat) (stored : Bool) :
    Steered r (r.bindQuestion ch entry stored) := by
  unfold bindQuestion
  split
  next c hc => exact .set (.refl r) hc _ _ c.hinted
  · exact .refl r

theorem numbered_steered (ch : ChannelId) (k : Nat) : Steered r (r.numbered ch k).1 := by
  unfold numbered
  split
  next c hc =>
    split
    next q hq =>
      split
      · dsimp only
        split
        · exact .set (.refl r) hc c.questions c.readSet _
        · exact .refl r
      · exact .refl r
    · exact .refl r
  · exact .refl r

theorem landOn_steered (k : Nat) (edge : Bool) : Steered r (r.landOn ch k edge).1 := by
  have hnum := numbered_steered (r := r) ch k
  unfold landOn
  dsimp only
  split
  next text c ht hc =>
    split
    · exact .set hnum hc _ c.readSet c.hinted
    · exact hnum
  · exact hnum

theorem navigate_steered (step : Step) (started : Bool) :
    Steered r (r.navigate ch step started).1 := by
  unfold navigate
  split
  · split
    · exact .refl r
    · split
      · exact landOn_steered 0 false
      · split
        · split
          · exact landOn_steered _ false
          · exact landOn_steered _ true
        · exact landOn_steered _ false
  · exact .refl r

theorem questionsUnheard_steered : Steered r (r.questionsUnheard ch) := by
  unfold questionsUnheard
  split
  next c hc => exact .set (.refl r) hc _ c.readSet c.hinted
  · exact .refl r

theorem rewindQuestions_steered : Steered r (r.rewindQuestions ch).1 := by
  unfold rewindQuestions
  split
  · exact .refl r
  · exact landOn_steered 0 false

/-- Showing a question steers its channel only. -/
theorem questionShown_steered (shown : Shown) : Steered r (r.questionShown s ch shown).1 := by
  unfold questionShown
  split
  next c hc =>
    split
    next q _ _ _ =>
      unfold steppingShown
      split
      · split
        · exact .refl r
        · exact .set (.refl r) hc _ c.readSet c.hinted
      · split
        · split
          · exact .refl r
          · exact landOn_steered _ false
        · exact .refl r
    next q _ _ =>
      unfold readShown
      split
      · exact .set (.refl r) hc c.questions _ c.hinted
      · split
        · split
          · exact .set (.refl r) hc c.questions _ c.hinted
          · exact .refl r
        · exact .refl r
    · exact .refl r
  · exact .refl r

end Rules

end Sonara.L3
