import Mathlib.Logic.Function.Basic
import Sonara.External.Hold

/-!
# What the hold keeps from the provider, and what it does not drop

A chunk past its look at the hold knows that while the generation stands, a hold that is
up has its cancel still to come (`Inv.unheld`): so a request that starts with the
generation as marked does not start in a hold that has been raised. And a generation that
moved without the reader was moved by a raise that moved the epoch after the mark
(`Inv.moved`), so `cut_by_hold` sees it.

Both need something the code does not see to. A streamed request starts without a look at
the generation (`stream_leaks`). And a raise that has moved the epoch when the chunk reads
it, and has not yet moved the generation when the chunk reads that, cuts the chunk without
a trace once it is lifted (`raise_drops`). `Sound` leaves out these two.
-/

namespace Sonara.External

variable {w w' : World} {e : Event} {m : Mark}

/-- The mark of a chunk that has one. -/
def Phase.mark : Phase → Option Mark
  | .outside | .epochRead _ | .done _ => none
  | .marked m | .unheld m | .current m | .asking m _ | .waiting m _ | .first m _
  | .listening m _ | .sleeping m _ | .playing m _ | .cut m | .lifted m => some m

/-- The chunk has looked at the hold. -/
def Phase.Looked : Phase → Prop
  | .outside | .epochRead _ | .done _ | .marked _ => False
  | _ => True

/-- The chunk is being cut. -/
def Phase.Cut : Phase → Prop
  | .cut _ | .lifted _ => True
  | _ => False

/-- `Hold::set` has moved the epoch for a raise, and will move the generation. -/
def World.Ending (w : World) : Prop :=
  (w.setter = .epochMoved ∧ w.held = false) ∨ w.setter = .raised true

/-- The generation moved for a reason that shows: the reader cancelled, or a raise moved
the epoch since the mark. -/
def World.Shows (w : World) (m : Mark) : Prop := w.readerCancelled = true ∨ m.epoch < w.epoch

/-- The invariant of the runs of the condition below. -/
structure Inv (w : World) : Prop where
  /-- A hold that is up stays up until a release begins. -/
  silenced : w.silenced = true → w.held = true ∧
    (w.setter = .idle ∨ w.setter = .epochMoved ∨ w.setter = .raised false)
  settled : w.setter = .raised false ∨ w.setter = .raised true ∨ w.setter = .ended →
    w.held = true
  epochs : ∀ n, w.chunk = .epochRead n → n ≤ w.epoch
  marks : ∀ m, w.chunk.mark = some m → m.epoch ≤ w.epoch ∧ m.gen ≤ w.gen
  unheld : ∀ m, w.chunk.mark = some m → w.chunk.Looked → w.gen = m.gen → w.held = true →
    w.setter = .raised true
  ending : ∀ m, w.chunk.mark = some m → w.Ending → m.epoch < w.epoch
  moved : ∀ m, w.chunk.mark = some m → w.gen ≠ m.gen ∨ w.chunk.Cut → w.Shows m
  dropped : w.chunk = .done .cancelled → w.readerCancelled = true
  quiet : ∀ b ∈ w.requests, b = false

/-- The start state keeps the invariant: no chunk has a mark. -/
theorem Started.inv (h : Started w) : Inv w where
  silenced hs := ⟨h.silenced hs, .inl h.idle⟩
  settled hs := by
    rw [h.idle] at hs
    simp at hs
  epochs n hn := by
    rw [h.outside] at hn
    cases hn
  marks m hm := by
    rw [h.outside] at hm
    cases hm
  unheld m hm := by
    rw [h.outside] at hm
    cases hm
  ending m hm := by
    rw [h.outside] at hm
    cases hm
  moved m hm := by
    rw [h.outside] at hm
    cases hm
  dropped hd := by
    rw [h.outside] at hd
    cases hd
  quiet b hb := by
    rw [h.unsent] at hb
    cases hb

/-- A streamed request starts only while the generation stands, and the chunk does not
read the generation between the two moves of one raise whose epoch it has read. -/
def Sound (w : World) : Event → Prop
  | .start => ∀ m a, w.chunk = .asking m a → a.streamed = true → w.gen = m.gen
  | .readGen => ∀ n, w.chunk = .epochRead n → w.Ending → n < w.epoch
  | _ => True

/-! ## Steps of the chunk -/

/-- A step of the chunk with the mark it has, to a point past its look at the hold. -/
theorem Inv.goto (h : Inv w) {p : Phase} (hm : ∀ m, p.mark = some m → w.chunk.mark = some m)
    (hl : ∀ m, p.mark = some m → p.Looked → w.gen = m.gen → w.held = true → w.setter = .raised true)
    (hc : ∀ m, p.mark = some m → p.Cut → w.Shows m)
    (he : ∀ n, p ≠ .epochRead n) (hd : p = .done .cancelled → w.readerCancelled = true) :
    Inv (w.goto p) where
  silenced := h.silenced
  settled := h.settled
  epochs n hn := absurd hn (he n)
  marks m hp := h.marks m (hm m hp)
  unheld := hl
  ending m hp := h.ending m (hm m hp)
  moved m hp hor := hor.elim (fun hg => h.moved m (hm m hp) (.inl hg)) (hc m hp)
  dropped := hd
  quiet := h.quiet

/-- A step to a point with the same mark, neither a cut nor an end. -/
theorem Inv.on (h : Inv w) (hm : w.chunk.mark = some m) (hl : w.chunk.Looked) {p : Phase}
    (hp : p.mark = some m ∨ p = .done .answered) (hc : ¬p.Cut) (he : ∀ n, p ≠ .epochRead n) :
    Inv (w.goto p) := by
  rcases hp with hp | rfl
  · refine h.goto (fun n hn => ?_) (fun n hn _ => ?_) (fun _ _ hcut => absurd hcut hc) he ?_
    · rw [hm, ← hp]
      exact hn
    · obtain rfl := Option.some.inj (hp.symm.trans hn)
      exact h.unheld m hm hl
    · rintro rfl
      cases hp
  · refine h.goto ?_ ?_ ?_ he (by simp)
    all_goals
      intro n hn
      cases hn

/-- Cut because the generation moved. -/
theorem Inv.cut (h : Inv w) (hm : w.chunk.mark = some m) (hg : w.gen ≠ m.gen) :
    Inv (w.goto (.cut m)) := by
  have hsame : ∀ n, (Phase.cut m).mark = some n → n = m := fun n hn => (Option.some.inj hn).symm
  refine h.goto (fun n hn => ?_) (fun n hn _ heq => ?_) (fun n hn _ => ?_) (by simp) (by simp)
  · rw [hsame n hn]
    exact hm
  · rw [hsame n hn] at heq
    exact absurd heq hg
  · rw [hsame n hn]
    exact h.moved m hm (.inl hg)

/-- A look at the generation, in front of a step to `p`. -/
theorem Inv.unlessCut (h : Inv w) (hm : w.chunk.mark = some m) (hl : w.chunk.Looked) {p : Phase}
    (hp : p.mark = some m ∨ p = .done .answered) (hc : ¬p.Cut) (he : ∀ n, p ≠ .epochRead n) :
    Inv (w.unlessCut m (w.goto p)) := by
  unfold World.unlessCut
  split
  · exact h.on hm hl hp hc he
  next hg => exact h.cut hm hg

/-- While the generation stands, a chunk past its look is not silenced. -/
theorem Inv.loud (h : Inv w) (hm : w.chunk.mark = some m) (hl : w.chunk.Looked)
    (hg : w.gen = m.gen) : w.silenced = false := by
  rw [← Bool.not_eq_true]
  intro hs
  obtain ⟨hheld, hset⟩ := h.silenced hs
  rw [h.unheld m hm hl hg hheld] at hset
  simp at hset

/-- A request that starts while nothing is silenced. -/
theorem Inv.send (h : Inv w) (hs : w.silenced = false) : Inv w.send where
  silenced := h.silenced
  settled := h.settled
  epochs := h.epochs
  marks := h.marks
  unheld := h.unheld
  ending := h.ending
  moved := h.moved
  dropped := h.dropped
  quiet b hb := by
    rcases List.mem_append.mp hb with hb | hb
    · exact h.quiet b hb
    · rw [List.mem_singleton.mp hb]
      exact hs

/-- What an answer leads to has the mark, or is the end. -/
theorem after_mark (m : Mark) (a : Ask) (whole : Bool) (answer : Answer) :
    ((World.after m a whole answer).mark = some m ∨
      World.after m a whole answer = .done .answered) ∧
      ¬(World.after m a whole answer).Cut ∧ ∀ n, World.after m a whole answer ≠ .epochRead n := by
  cases answer with
  | ok =>
    simp only [World.after]
    split <;> simp [Phase.mark, Phase.Cut]
  | retryAfter =>
    simp only [World.after]
    split <;> simp [Phase.mark, Phase.Cut]
  | adapts =>
    unfold World.after
    by_cases hleft : a.adapted < if a.streamed then MAX_ADAPTS + 1 else MAX_ADAPTS
    · simp [hleft, Phase.mark, Phase.Cut]
    · simp [hleft, Phase.Cut]
  | failed => simp [World.after, Phase.Cut]

/-! ## Steps of the hold and of the reader -/

/-- A step outside the chunk. -/
theorem Inv.outside (h : Inv w) (hchunk : w'.chunk = w.chunk) (hreq : w'.requests = w.requests)
    (hcan : w.readerCancelled = true → w'.readerCancelled = true)
    (hepoch : w.epoch ≤ w'.epoch) (hgen : w.gen ≤ w'.gen)
    (silenced : w'.silenced = true → w'.held = true ∧
      (w'.setter = .idle ∨ w'.setter = .epochMoved ∨ w'.setter = .raised false))
    (settled : w'.setter = .raised false ∨ w'.setter = .raised true ∨ w'.setter = .ended →
      w'.held = true)
    (unheld : ∀ m, w.chunk.mark = some m → w.chunk.Looked → w'.gen = m.gen → w'.held = true →
      w'.setter = .raised true)
    (ending : ∀ m, w.chunk.mark = some m → w'.Ending → m.epoch < w'.epoch)
    (moved : w'.gen = w.gen ∨ ∀ m, w.chunk.mark = some m → w'.Shows m) : Inv w' where
  silenced := silenced
  settled := settled
  epochs n hn := Nat.le_trans (h.epochs n (hchunk ▸ hn)) hepoch
  marks m hm := by
    have hle := h.marks m (hchunk ▸ hm)
    exact ⟨Nat.le_trans hle.1 hepoch, Nat.le_trans hle.2 hgen⟩
  unheld m hm hl := unheld m (hchunk ▸ hm) (hchunk ▸ hl)
  ending m hm := ending m (hchunk ▸ hm)
  moved m hm hor := by
    rw [hchunk] at hm hor
    rcases moved with hg | hs
    · rw [hg] at hor
      exact (h.moved m hm hor).imp hcan fun hlt => Nat.lt_of_lt_of_le hlt hepoch
    · exact hs m hm
  dropped hd := hcan (h.dropped (hchunk ▸ hd))
  quiet b hb := h.quiet b (hreq ▸ hb)

/-- `Hold::set` moves the epoch: it was idle, so no mark had the hold up unseen. -/
theorem Inv.moveEpoch (h : Inv w) (hs : step w .moveEpoch = some w') : Inv w' := by
  simp only [step] at hs
  split at hs
  next hidle =>
    obtain rfl := Option.some.inj hs
    refine h.outside rfl rfl id (Nat.le_succ _) (Nat.le_refl _)
      (fun hsil => ⟨(h.silenced hsil).1, .inr (.inl rfl)⟩) (by simp) (fun m hm hl hg hheld => ?_)
      (fun m hm _ => Nat.lt_succ_of_le (h.marks m hm).1) (.inl rfl)
    have := h.unheld m hm hl hg hheld
    rw [hidle] at this
    cases this
  · cases hs

/-- A hold that goes up has its cancel still to come; one that was up already has not. -/
theorem Inv.raise (h : Inv w) (hs : step w .raise = some w') : Inv w' := by
  simp only [step] at hs
  split at hs
  next hepoch =>
    obtain rfl := Option.some.inj hs
    refine h.outside rfl rfl id (Nat.le_refl _) (Nat.le_refl _) (fun hsil => ⟨rfl, ?_⟩)
      (fun _ => rfl) (fun m hm hl hg _ => ?_) (fun m hm hend => ?_) (.inl rfl)
    · have hheld := (h.silenced hsil).1
      exact .inr (.inr (congrArg (fun b => Setter.raised (!b)) hheld))
    · cases hheld : w.held with
      | false => rfl
      | true =>
        have := h.unheld m hm hl hg hheld
        rw [hepoch] at this
        cases this
    · cases hheld : w.held with
      | false => exact h.ending m hm (.inl ⟨hepoch, hheld⟩)
      | true =>
        rcases hend with ⟨hset, -⟩ | hset
        · cases hset
        · rw [hheld] at hset
          cases hset
  · cases hs

/-- The cancel of a raise: the generation leaves every mark, and the epoch shows it. -/
theorem Inv.endRequests (h : Inv w) (hs : step w .endRequests = some w') : Inv w' := by
  simp only [step] at hs
  split at hs
  next hraised =>
    obtain rfl := Option.some.inj hs
    refine h.outside rfl rfl id (Nat.le_refl _) (Nat.le_succ _) (fun hsil => ?_)
      (fun _ => h.settled (.inr (.inl hraised))) (fun m hm hl hg _ => ?_) (fun m hm hend => ?_)
      (.inr fun m hm => .inr (h.ending m hm (.inr hraised)))
    · have hset := (h.silenced hsil).2
      rw [hraised] at hset
      simp at hset
    · have := (h.marks m hm).2
      have hg : w.gen + 1 = m.gen := hg
      omega
    · rcases hend with ⟨hset, -⟩ | hset <;> cases hset
  · cases hs

/-- `set(true)` returns: no mark with this generation was past its look. -/
theorem Inv.raised (h : Inv w) (hs : step w .raised = some w') : Inv w' := by
  simp only [step] at hs
  split at hs
  next hdone =>
    obtain rfl := Option.some.inj hs
    have hheld : w.held = true := h.settled (hdone.imp_right .inr)
    refine h.outside rfl rfl id (Nat.le_refl _) (Nat.le_refl _) (fun _ => ⟨hheld, .inl rfl⟩)
      (by simp) (fun m hm hl hg _ => ?_) (fun m hm hend => ?_) (.inl rfl)
    · have := h.unheld m hm hl hg hheld
      rcases hdone with hset | hset <;> rw [hset] at this <;> cases this
    · rcases hend with ⟨hset, -⟩ | hset <;> cases hset
  · cases hs

theorem Inv.release (h : Inv w) (hs : step w .release = some w') : Inv w' := by
  simp only [step] at hs
  split at hs
  next hidle =>
    obtain rfl := Option.some.inj hs
    refine h.outside rfl rfl id (Nat.le_refl _) (Nat.le_refl _) (by simp) (by simp)
      (fun m hm hl hg hheld => ?_) (fun m hm hend => ?_) (.inl rfl)
    · have := h.unheld m hm hl hg hheld
      rw [hidle] at this
      cases this
    · rcases hend with ⟨hset, -⟩ | hset <;> cases hset
  · cases hs

theorem Inv.lower (h : Inv w) (hs : step w .lower = some w') : Inv w' := by
  simp only [step] at hs
  split at hs
  next hrel =>
    obtain rfl := Option.some.inj hs
    refine h.outside rfl rfl id (Nat.le_refl _) (Nat.le_refl _) (fun hsil => ?_)
      (by simp) (by simp) (fun m hm hend => ?_) (.inl rfl)
    · have hset := (h.silenced hsil).2
      rw [hrel] at hset
      simp at hset
    · rcases hend with ⟨hset, -⟩ | hset <;> cases hset
  · cases hs

/-- A release returns. -/
theorem Inv.lowered (h : Inv w) (hs : step w .lowered = some w') : Inv w' := by
  simp only [step] at hs
  split at hs
  next hrel =>
    obtain rfl := Option.some.inj hs
    refine h.outside rfl rfl id (Nat.le_refl _) (Nat.le_refl _) (fun hsil => ?_)
      (by simp) (fun m hm hl hg hheld => ?_) (fun m hm hend => ?_) (.inl rfl)
    · have hset := (h.silenced hsil).2
      rw [hrel] at hset
      simp at hset
    · have := h.unheld m hm hl hg hheld
      rw [hrel] at this
      cases this
    · rcases hend with ⟨hset, -⟩ | hset <;> cases hset
  · cases hs

/-- The reader's cancel shows by itself. -/
theorem Inv.readerCancel (h : Inv w) (hs : step w .readerCancel = some w') : Inv w' := by
  obtain rfl := Option.some.inj hs
  refine h.outside rfl rfl (fun _ => rfl) (Nat.le_refl _) (Nat.le_succ _) h.silenced h.settled
    (fun m hm hl hg _ => ?_) h.ending (.inr fun m _ => .inl rfl)
  have := (h.marks m hm).2
  have hg : w.gen + 1 = m.gen := hg
  omega

/-! ## The looks and the requests of the chunk -/

/-- The epoch is read before the generation. -/
theorem Inv.readEpoch (h : Inv w) (hs : step w .readEpoch = some w') : Inv w' := by
  simp only [step] at hs
  split at hs
  next hp =>
    obtain rfl := Option.some.inj hs
    have hnone : ∀ m, (Phase.epochRead w.epoch).mark ≠ some m := fun m hm => by cases hm
    refine ⟨h.silenced, h.settled, fun n hn => ?_, fun m hm => absurd hm (hnone m),
      fun m hm => absurd hm (hnone m), fun m hm => absurd hm (hnone m),
      fun m hm => absurd hm (hnone m), fun hd => ?_, h.quiet⟩
    · have hn : w.epoch = n := Phase.epochRead.inj hn
      exact Nat.le_of_eq hn.symm
    · cases hd
  · cases hs

/-- The mark is whole: its generation is the present one, and its epoch has not been passed over. -/
theorem Inv.readGen (h : Inv w) (hsound : Sound w .readGen)
    (hs : step w .readGen = some w') : Inv w' := by
  simp only [step] at hs
  split at hs
  next n hp =>
    obtain rfl := Option.some.inj hs
    have hsame : ∀ m, (Phase.marked ⟨n, w.gen⟩).mark = some m → m = ⟨n, w.gen⟩ :=
      fun m hm => (Option.some.inj hm).symm
    refine ⟨h.silenced, h.settled, fun k hk => ?_, fun m hm => ?_,
      fun m hm hl => hl.elim, fun m hm hend => ?_, fun m hm hor => ?_, fun hd => ?_, h.quiet⟩
    · cases hk
    · rw [hsame m hm]
      exact ⟨h.epochs n hp, Nat.le_refl _⟩
    · rw [hsame m hm]
      exact hsound n hp hend
    · rw [hsame m hm] at hor
      exact hor.elim (fun hne => absurd rfl hne) False.elim
    · cases hd
  · cases hs

/-- The look at the hold: only a chunk that finds it down goes on. -/
theorem Inv.checkHeld (h : Inv w) (hs : step w .checkHeld = some w') : Inv w' := by
  simp only [step] at hs
  split at hs
  next m hp =>
    obtain rfl := Option.some.inj hs
    have hm : w.chunk.mark = some m := by rw [hp]; rfl
    cases hheld : w.held with
    | true =>
      rw [if_pos rfl]
      refine h.goto ?_ ?_ ?_ (by simp) (by simp)
      all_goals
        intro n hn
        cases hn
    | false =>
      rw [if_neg (by decide)]
      refine h.goto (fun n hn => hm.trans hn) (fun n hn _ _ htrue => ?_) (fun n hn hc => hc.elim)
        (by simp) (by simp)
      rw [hheld] at htrue
      cases htrue
  · cases hs

theorem Inv.checkGen (h : Inv w) (hs : step w .checkGen = some w') : Inv w' := by
  simp only [step] at hs
  split at hs
  next m hp =>
    obtain rfl := Option.some.inj hs
    exact h.unlessCut (by rw [hp]; rfl) (by rw [hp]; trivial) (.inl rfl) id (by simp)
  · cases hs

/-- However the chunk is routed it keeps its mark, or ends answered. -/
theorem Inv.configured (h : Inv w) (route : Route)
    (hs : step w (.configured route) = some w') : Inv w' := by
  simp only [step] at hs
  split at hs
  next m hp =>
    have hm : w.chunk.mark = some m := by rw [hp]; rfl
    have hl : w.chunk.Looked := by rw [hp]; trivial
    cases route with
    | «local» =>
      obtain rfl := Option.some.inj hs
      exact h.on hm hl (.inr rfl) id (by simp)
    | whole parts =>
      obtain rfl := Option.some.inj hs
      exact h.on hm hl (.inl rfl) id (by simp)
    | stream =>
      obtain rfl := Option.some.inj hs
      exact h.on hm hl (.inl rfl) id (by simp)
  · cases hs

/-- A request starts while the generation stands, so not while silenced. -/
theorem Inv.start (h : Inv w) (hsound : Sound w .start)
    (hs : step w .start = some w') : Inv w' := by
  simp only [step] at hs
  split at hs
  next m a hp =>
    have hm : w.chunk.mark = some m := by rw [hp]; rfl
    have hl : w.chunk.Looked := by rw [hp]; trivial
    split at hs
    next hstream =>
      obtain rfl := Option.some.inj hs
      exact (h.send (h.loud hm hl (hsound m a hp hstream))).on hm hl (.inl rfl) id (by simp)
    next hwhole =>
      obtain rfl := Option.some.inj hs
      unfold World.unlessCut
      split
      next hg => exact (h.send (h.loud hm hl hg)).on hm hl (.inl rfl) id (by simp)
      next hg => exact h.cut hm hg
  · cases hs

theorem Inv.reply (h : Inv w) (answer : Answer)
    (hs : step w (.reply answer) = some w') : Inv w' := by
  simp only [step] at hs
  split at hs
  next m a hp =>
    obtain rfl := Option.some.inj hs
    obtain ⟨hmark, hcut, hread⟩ := after_mark m a false answer
    exact h.unlessCut (by rw [hp]; rfl) (by rw [hp]; trivial) hmark hcut hread
  · cases hs

theorem Inv.slept (h : Inv w) (past : Bool) (hs : step w (.slept past) = some w') : Inv w' := by
  simp only [step] at hs
  split at hs
  next m a hp =>
    obtain rfl := Option.some.inj hs
    refine h.unlessCut (by rw [hp]; rfl) (by rw [hp]; trivial) (.inl ?_) ?_ ?_
    all_goals cases past <;> simp [Phase.mark, Phase.Cut]
  · cases hs

theorem Inv.look (h : Inv w) (hs : step w .look = some w') : Inv w' := by
  simp only [step] at hs
  split at hs
  next m a hp =>
    obtain rfl := Option.some.inj hs
    exact h.unlessCut (by rw [hp]; rfl) (by rw [hp]; trivial) (.inl rfl) id (by simp)
  · cases hs

/-- An event of the stream leads on with the same mark. -/
theorem Inv.hear (h : Inv w) (x : Heard) (whole : Bool)
    (hs : step w (.hear x whole) = some w') : Inv w' := by
  simp only [step] at hs
  split at hs
  next m a hp =>
    have hm : w.chunk.mark = some m := by rw [hp]; rfl
    have hl : w.chunk.Looked := by rw [hp]; trivial
    cases x with
    | nothing =>
      obtain rfl := Option.some.inj hs
      exact h.on hm hl (.inl rfl) id (by simp)
    | audio =>
      obtain rfl := Option.some.inj hs
      exact h.on hm hl (.inl rfl) id (by simp)
    | answer answer =>
      obtain rfl := Option.some.inj hs
      obtain ⟨hmark, hcut, hread⟩ := after_mark m a whole answer
      exact h.on hm hl hmark hcut hread
  · cases hs

theorem Inv.next (h : Inv w) (past : Bool) (hs : step w (.next past) = some w') : Inv w' := by
  simp only [step] at hs
  split at hs
  next m hp =>
    obtain rfl := Option.some.inj hs
    exact h.on (by rw [hp]; rfl) (by rw [hp]; trivial) (.inl rfl) id (by simp)
  next m hp =>
    obtain rfl := Option.some.inj hs
    refine h.unlessCut (by rw [hp]; rfl) (by rw [hp]; trivial) ?_ ?_ ?_
    all_goals cases past <;> simp [Phase.mark, Phase.Cut]
  · cases hs

/-- The look of `cut_by_hold` at the hold: a chunk that finds it down has shown why it was cut. -/
theorem Inv.checkCut (h : Inv w) (hs : step w .checkCut = some w') : Inv w' := by
  simp only [step] at hs
  split at hs
  next m hp =>
    obtain rfl := Option.some.inj hs
    have hm : w.chunk.mark = some m := by rw [hp]; rfl
    have hl : w.chunk.Looked := by rw [hp]; trivial
    have hshows : w.Shows m := h.moved m hm (.inr (by rw [hp]; trivial))
    split
    · exact h.on hm hl (.inr rfl) id (by simp)
    · refine h.goto (fun n hn => hm.trans hn) (fun n hn _ => ?_) (fun n hn _ => ?_)
        (by simp) (by simp)
      · obtain rfl : m = n := Option.some.inj hn
        exact h.unheld m hm hl
      · obtain rfl : m = n := Option.some.inj hn
        exact hshows
  · cases hs

/-- A chunk is dropped when the epoch has not moved: then it was the reader who cancelled. -/
theorem Inv.checkEpoch (h : Inv w) (hs : step w .checkEpoch = some w') : Inv w' := by
  simp only [step] at hs
  split at hs
  next m hp =>
    obtain rfl := Option.some.inj hs
    have hm : w.chunk.mark = some m := by rw [hp]; rfl
    have hshows : w.Shows m := h.moved m hm (.inr (by rw [hp]; trivial))
    refine h.goto ?_ ?_ ?_ (by simp) (fun hd => ?_)
    · intro n hn
      cases hn
    · intro n hn
      cases hn
    · intro n hn
      cases hn
    · -- the epoch has not moved, so it was the reader
      by_cases hepoch : w.epoch ≠ m.epoch
      · rw [if_pos hepoch] at hd
        cases hd
      · rcases hshows with hc | hlt
        · exact hc
        · omega
  · cases hs

/-- **Every step keeps the invariant**, if it is sound. -/
theorem step_inv (h : Inv w) (hsound : Sound w e) (hs : step w e = some w') : Inv w' := by
  cases e with
  | moveEpoch => exact h.moveEpoch hs
  | raise => exact h.raise hs
  | endRequests => exact h.endRequests hs
  | raised => exact h.raised hs
  | release => exact h.release hs
  | lower => exact h.lower hs
  | lowered => exact h.lowered hs
  | readerCancel => exact h.readerCancel hs
  | readEpoch => exact h.readEpoch hs
  | readGen => exact h.readGen hsound hs
  | checkHeld => exact h.checkHeld hs
  | checkGen => exact h.checkGen hs
  | configured route => exact h.configured route hs
  | start => exact h.start hsound hs
  | reply answer => exact h.reply answer hs
  | slept past => exact h.slept past hs
  | look => exact h.look hs
  | hear x whole => exact h.hear x whole hs
  | next past => exact h.next past hs
  | checkCut => exact h.checkCut hs
  | checkEpoch => exact h.checkEpoch hs

/-- **Of a chunk whose run is sound**, no request starts while the hold is silenced, and it
is dropped only when the reader cancelled. -/
theorem hold_keeps {w₀ : World} {es : List Event} (h : Started w₀)
    (hs : external.Meets Sound w₀ es) (hr : external.run w₀ es = some w) :
    (∀ b ∈ w.requests, b = false) ∧ (w.chunk = .done .cancelled → w.readerCancelled = true) := by
  have hi : Inv w :=
    external.run_invariant_of (P := Inv) (fun _ _ _ hc hi hstep => step_inv hi hc hstep) hs h.inv hr
  exact ⟨hi.quiet, hi.dropped⟩

/-! ## The two races -/

/-- Nothing is held, and nothing has been asked for. -/
def calm : World where
  epoch := 0
  held := false
  gen := 0
  setter := .idle
  chunk := .outside
  silenced := false
  readerCancelled := false
  requests := []

theorem calm_started : Started calm := ⟨rfl, rfl, rfl, by simp [calm]⟩

/-- The hold is raised between the chunk's last look and the start of its stream. -/
def leak : List Event :=
  [.readEpoch, .readGen, .checkHeld, .checkGen, .configured .stream,
    .moveEpoch, .raise, .endRequests, .raised, .start]

/-- The chunk is marked while a raise is between its epoch and its cancel, and looks at the
hold once it is lifted. -/
def drop : List Event :=
  [.moveEpoch, .readEpoch, .readGen, .raise, .endRequests, .raised, .release, .lower, .lowered,
    .checkHeld, .checkGen, .checkCut, .checkEpoch]

/-- **The hold's races.** A request starts while silenced; and a chunk that the reader did
not cancel is dropped. -/
theorem hold_races : Started calm ∧
    (∃ w, external.run calm leak = some w ∧ w.requests = [true]) ∧
    ∃ w, external.run calm drop = some w ∧ w.chunk = .done .cancelled ∧
      w.readerCancelled = false :=
  ⟨calm_started, ⟨_, rfl, rfl⟩, _, rfl, rfl, rfl⟩

/-- A chunk's stream has started when the hold is raised, and it is spoken locally. -/
def muted : List Event :=
  [.readEpoch, .readGen, .checkHeld, .checkGen, .configured .stream, .start,
    .moveEpoch, .raise, .endRequests, .raised, .look, .checkCut]

/-- A stream that has started when the hold is raised is cut, and spoken locally. -/
theorem hold_keeps_muted : ∃ w, external.run calm muted = some w ∧ (∀ b ∈ w.requests, b = false) ∧
    w.chunk = .done .answered := by
  have hread : ∀ n, Phase.epochRead 0 = .epochRead n →
      { calm with chunk := .epochRead 0 }.Ending → n < 0 := by
    rintro n - (⟨hset, -⟩ | hset) <;> cases hset
  have hstart : ∀ m a, Phase.asking ⟨0, 0⟩ ⟨true, 1, false, 0⟩ = .asking m a →
      a.streamed = true → 0 = m.gen := by
    intro m a hm _
    obtain ⟨rfl, -⟩ := Phase.asking.inj hm
    rfl
  have hs : external.Meets Sound calm muted :=
    .cons trivial rfl (.cons hread rfl (.cons trivial rfl (.cons trivial rfl (.cons trivial rfl
      (.cons hstart rfl (.cons trivial rfl (.cons trivial rfl (.cons trivial rfl
        (.cons trivial rfl (.cons trivial rfl (.cons trivial rfl trivial)))))))))))
  exact ⟨_, rfl, (hold_keeps calm_started hs rfl).1, rfl⟩

end Sonara.External
