import Sonara.Worker.Prompt
import Sonara.L1.Prefetch

/-!
# The worker's loop follows the reader

`Tracks` says, at any point inside a batch of effects, where the chunk is that the
reader has loaded: it waits, it is in the output, or its failure is on the way to
the reader. It speaks about the loop so far and about the reader at the same point of
its own call, so it is kept effect by effect, along the atoms a call is made of.

A chunk has ended for the output once the output reported so; `ended` are those gens.
-/

namespace Sonara.Worker

open Sonara (Text)
open Sonara.CodeSpeech (kind)
open Sonara.L1

/-! ## The output's account -/

/-- The gen a call loads. -/
def OutputCall.loads? : OutputCall → Option Nat
  | .play _ _ _ g | .playOpen _ _ _ g => some g
  | _ => none

/-- The gens the output was given, in order. -/
def given (out : List OutputCall) : List Nat := out.filterMap OutputCall.loads?

/-- What the output has loaded after one more call. -/
def OutputCall.after (held : Option Nat) : OutputCall → Option Nat
  | .play _ _ _ g | .playOpen _ _ _ g => some g
  | .stop => none
  | _ => held

/-- The gen the output was last given, unless it was stopped since. -/
def inOutput (out : List OutputCall) : Option Nat := out.foldl OutputCall.after none

/-- A call that neither loads a chunk nor stops. -/
def OutputCall.Plain (c : OutputCall) : Prop := c.loads? = none ∧ c ≠ .stop

@[simp] theorem given_snoc (out : List OutputCall) (c : OutputCall) :
    given (out ++ [c]) = given out ++ c.loads?.toList := by
  rw [given, List.filterMap_append]
  cases h : c.loads? with
  | none => simp [h, given]
  | some g => simp [h, given]

@[simp] theorem inOutput_snoc (out : List OutputCall) (c : OutputCall) :
    inOutput (out ++ [c]) = c.after (inOutput out) := by
  rw [inOutput, List.foldl_append]
  rfl

theorem OutputCall.Plain.after {c : OutputCall} (h : c.Plain) (held : Option Nat) :
    c.after held = held := by
  obtain ⟨hl, hs⟩ := h
  cases c with
  | play => cases hl
  | playOpen => cases hl
  | stop => exact absurd rfl hs
  | _ => rfl

theorem OutputCall.Plain.given {c : OutputCall} (h : c.Plain) (out : List OutputCall) :
    given (out ++ [c]) = given out := by
  rw [given_snoc, h.1]
  exact List.append_nil _

theorem OutputCall.Plain.inOutput {c : OutputCall} (h : c.Plain) (out : List OutputCall) :
    inOutput (out ++ [c]) = inOutput out := by
  rw [inOutput_snoc, h.after]

/-- What the output holds, it was given. -/
theorem given_of_inOutput {out : List OutputCall} {g : Nat} (h : inOutput out = some g) :
    g ∈ given out := by
  induction out using List.reverseRecOn with
  | nil => cases h
  | append_singleton out c ih =>
    rw [given_snoc]
    rw [inOutput_snoc] at h
    cases c with
    | play pcm i k g' =>
      exact List.mem_append_right _ (by simp_all [OutputCall.after, OutputCall.loads?])
    | playOpen pcm i k g' =>
      exact List.mem_append_right _ (by simp_all [OutputCall.after, OutputCall.loads?])
    | stop => cases h
    | _ => exact List.mem_append_left _ (ih h)

/-! ## The invariant -/

/-- What holds of the slots and of the gens given out, whether or not the loaded
chunk was handed over yet. -/
structure Books (ended : Nat → Prop) (l : Loop) (r : Reader) : Prop where
  bound : ∀ g ∈ given l.output, g ≤ r.gen
  loadedBound : ∀ g, r.loaded = some g → g ≤ r.gen
  /-- Only what was given can have ended. -/
  past : ∀ g, ended g → g ∈ given l.output
  /-- A failure is about a chunk the output never got. -/
  pending : ∀ e ∈ l.pending,
    (∃ reason, e = .failed e.gen reason) ∧ e.gen ∉ given l.output ∧ e.gen ≤ r.gen
  /-- A slot for every chunk requested, and no other. -/
  audio : ∀ p, l.audio p ≠ none ↔ p ∈ r.requested
  pauseAfter : ∀ p ∈ l.pauseAfter, p ∈ r.requested
  /-- `load` always found a slot. -/
  missed : l.missed = []

/-- A chunk that waits is the one the reader loaded, and nothing was done about it
yet. -/
structure Waits (l : Loop) (r : Reader) (w : Waiting) : Prop where
  loaded : r.loaded = some w.gen
  fresh : w.gen ∉ given l.output
  unreported : ∀ e ∈ l.pending, e.gen ≠ w.gen
  requested : (w.item, w.chunk) ∈ r.requested
  current : ∃ cur, r.current = some cur ∧ cur.item.id = w.item ∧ cur.chunk = w.chunk

/-- Where the loaded chunk is. -/
structure Tracks (ended : Nat → Prop) (l : Loop) (r : Reader) : Prop extends Books ended l r where
  waits : ∀ w, l.waiting = some w → Waits l r w
  holds : ∀ g, inOutput l.output = some g → ¬ended g → r.loaded = some g
  owed : ∀ g, r.loaded = some g → (∃ w, l.waiting = some w ∧ w.gen = g) ∨
    (inOutput l.output = some g ∧ ¬ended g) ∨ ∃ e ∈ l.pending, e.gen = g

variable {ended : Nat → Prop} {l l' : Loop} {r r' : Reader} {now : Nat}

/-- The loops agree in what `Tracks` reads. -/
structure SameLoop (l l' : Loop) : Prop where
  waiting : l'.waiting = l.waiting
  pending : l'.pending = l.pending
  audio : ∀ p, l'.audio p ≠ none ↔ l.audio p ≠ none
  pauseAfter : ∀ p ∈ l'.pauseAfter, p ∈ l.pauseAfter
  missed : l'.missed = l.missed
  given : given l'.output = given l.output
  inOutput : inOutput l'.output = inOutput l.output

theorem SameLoop.plain {c : OutputCall} (h : c.Plain) (l : Loop) : SameLoop l (l.call c) :=
  ⟨rfl, rfl, fun _ => Iff.rfl, fun _ hp => hp, rfl, h.given _, h.inOutput _⟩

theorem Books.sameLoop (B : Books ended l r) (s : SameLoop l l') : Books ended l' r := by
  refine ⟨fun g hg => B.bound g (s.given ▸ hg), B.loadedBound, fun g hg => s.given ▸ B.past g hg,
    fun e he => ?_, fun p => (s.audio p).trans (B.audio p),
    fun p hp => B.pauseAfter p (s.pauseAfter p hp),
    s.missed.trans B.missed⟩
  rw [s.given]
  exact B.pending e (s.pending ▸ he)

theorem Waits.sameLoop {w : Waiting} (W : Waits l r w) (s : SameLoop l l') : Waits l' r w :=
  ⟨W.loaded, by rw [s.given]; exact W.fresh, fun e he => W.unreported e (s.pending ▸ he),
    W.requested, W.current⟩

theorem Tracks.sameLoop (T : Tracks ended l r) (s : SameLoop l l') : Tracks ended l' r := by
  refine ⟨T.toBooks.sameLoop s, fun w hw => (T.waits w (s.waiting ▸ hw)).sameLoop s, fun g hg => ?_,
    fun g hg => ?_⟩
  · exact T.holds g (s.inOutput ▸ hg)
  · rw [s.waiting, s.inOutput, s.pending]
    exact T.owed g hg

/-- The readers agree in what `Tracks` reads. -/
structure SameReader (r r' : Reader) : Prop where
  gen : r'.gen = r.gen
  loaded : r'.loaded = r.loaded
  requested : r'.requested = r.requested
  current : ∀ cur, r.current = some cur →
    ∃ cur', r'.current = some cur' ∧ cur'.item.id = cur.item.id ∧ cur'.chunk = cur.chunk

theorem Tracks.sameReader (T : Tracks ended l r) (s : SameReader r r') : Tracks ended l r' := by
  refine ⟨⟨fun g hg => s.gen ▸ T.bound g hg,
    fun g hg => s.gen ▸ T.loadedBound g (s.loaded ▸ hg), T.past,
    fun e he => s.gen ▸ T.pending e he, fun p => s.requested ▸ T.audio p,
    fun p hp => s.requested ▸ T.pauseAfter p hp, T.missed⟩, fun w hw => ?_,
    fun g hg he => s.loaded ▸ T.holds g hg he, fun g hg => T.owed g (s.loaded ▸ hg)⟩
  obtain ⟨hl, hf, hu, hr, cur, hc, hi, hk⟩ := T.waits w hw
  obtain ⟨cur', hc', hi', hk'⟩ := s.current cur hc
  exact ⟨s.loaded.trans hl, hf, hu, s.requested ▸ hr, cur', hc', hi'.trans hi, hk'.trans hk⟩

/-- With nothing loaded nothing waits and the output holds nothing that goes on. -/
theorem Tracks.unloaded (T : Tracks ended l r) (h : r.loaded = none) :
    l.waiting = none ∧ ∀ g, inOutput l.output = some g → ended g := by
  refine ⟨?_, fun g hg => ?_⟩
  · cases hw : l.waiting with
    | none => rfl
    | some w =>
      have hl := (T.waits w hw).loaded
      rw [h] at hl
      cases hl
  · by_contra hne
    have hl := T.holds g hg hne
    rw [h] at hl
    cases hl

/-- What waits was never given to the output, so the output plays nothing. -/
theorem Tracks.waitingDone {w : Waiting} (T : Tracks ended l r) (hw : l.waiting = some w) :
    ∀ g, inOutput l.output = some g → ended g := by
  intro g hg
  by_contra hne
  have W := T.waits w hw
  have hl : r.loaded = some g := T.holds g hg hne
  have heq : w.gen = g := Option.some.inj (W.loaded.symm.trans hl)
  exact W.fresh (heq ▸ given_of_inOutput hg)

/-- Nothing loaded, nothing waiting and the output done: nothing to track. -/
theorem Books.idle (B : Books ended l r) (h : r.loaded = none) (hw : l.waiting = none)
    (hin : ∀ g, inOutput l.output = some g → ended g) : Tracks ended l r := by
  refine ⟨B, fun w hw' => ?_, fun g hg hne => absurd (hin g hg) hne, fun g hg => ?_⟩
  · rw [hw] at hw'
    cases hw'
  · rw [h] at hg
    cases hg

/-- **A load settles where the loaded chunk is.** -/
theorem Books.load {item : ItemId} {chunk gen : Nat} (B : Books ended l r) (hw : l.waiting = none)
    (hin : ∀ g, inOutput l.output = some g → ended g)
    (W : Waits l r { item := item, chunk := chunk, gen := gen, paused := false }) :
    Tracks ended (l.load now item chunk gen) r := by
  have hload := l.loaded now item chunk gen
  generalize l.load now item chunk gen = l' at hload
  have hgen : gen ≤ r.gen := B.loadedBound gen W.loaded
  have hne : ¬ended gen := fun he => W.fresh (B.past gen he)
  -- the chunk went to the output
  have out : ∀ c : OutputCall, c.loads? = some gen → ∀ hold opened,
      Tracks ended { l with opened := opened, hold := hold, output := l.output ++ [c] } r := by
    intro c hc hold opened
    have hafter : inOutput (l.output ++ [c]) = some gen := by
      rw [inOutput_snoc]
      cases c with
      | play | playOpen => exact hc
      | _ => cases hc
    have hgiven : ∀ g, g ∈ given (l.output ++ [c]) ↔ g ∈ given l.output ∨ g = gen := by
      intro g
      rw [given_snoc, hc]
      exact List.mem_append.trans (or_congr_right List.mem_singleton)
    refine ⟨⟨fun g hg => ?_, B.loadedBound, fun g hg => (hgiven g).mpr (.inl (B.past g hg)),
      fun e he => ?_, B.audio, B.pauseAfter, B.missed⟩, fun w hw' => ?_, fun g hg _ => ?_,
      fun g hg => ?_⟩
    · rcases (hgiven g).mp hg with hg | rfl
      · exact B.bound g hg
      · exact hgen
    · obtain ⟨hf, hn, hle⟩ := B.pending e he
      refine ⟨hf, fun hg => ?_, hle⟩
      exact ((hgiven _).mp hg).elim hn (W.unreported e he)
    · have hw'' : l.waiting = some w := hw'
      rw [hw] at hw''
      cases hw''
    · exact W.loaded.trans (hafter.symm.trans hg)
    · obtain rfl : gen = g := Option.some.inj (W.loaded.symm.trans hg)
      exact .inr (.inl ⟨hafter, hne⟩)
  cases hload with
  | parked hold synth kept why =>
    refine ⟨⟨B.bound, B.loadedBound, B.past, B.pending, B.audio, B.pauseAfter, B.missed⟩,
      fun w hw' => ?_,
      fun g hg he => absurd (hin g hg) he, fun g hg => ?_⟩
    · obtain rfl := Option.some.inj hw'
      exact ⟨W.loaded, W.fresh, W.unreported, W.requested, W.current⟩
    · exact .inl ⟨_, rfl, Option.some.inj (W.loaded.symm.trans hg)⟩
  | played hold pcm => exact out _ rfl hold none
  | streamed hold pcm => exact out _ rfl hold _
  | failed hold reason =>
    refine ⟨⟨B.bound, B.loadedBound, B.past, fun e he => ?_, B.audio, B.pauseAfter, B.missed⟩,
      fun w hw' => ?_, fun g hg he => absurd (hin g hg) he, fun g hg => ?_⟩
    · rcases List.mem_append.mp he with he | he
      · exact B.pending e he
      · rw [List.mem_singleton.mp he]
        exact ⟨⟨reason, rfl⟩, W.fresh, hgen⟩
    · have hw'' : l.waiting = some w := hw'
      rw [hw] at hw''
      cases hw''
    · refine .inr (.inr ⟨_, List.mem_append_right _ (List.mem_singleton.mpr rfl), ?_⟩)
      exact Option.some.inj (W.loaded.symm.trans hg)
  | missing hold reason kept nothing => exact absurd nothing ((B.audio _).mpr W.requested)

/-- Load the chunk that waits. -/
theorem Tracks.reload {w : Waiting} (T : Tracks ended l r) (hw : l.waiting = some w) :
    Tracks ended ({ l with waiting := none }.load now w.item w.chunk w.gen) r := by
  have W := T.waits w hw
  have hdone := T.waitingDone hw
  exact Books.load (l := { l with waiting := none })
    ⟨T.bound, T.loadedBound, T.past, T.pending, T.audio, T.pauseAfter, T.missed⟩ rfl hdone
    ⟨W.loaded, W.fresh, W.unreported, W.requested, W.current⟩

/-! ## The effects of a call -/

theorem Loop.applyAll_append (l : Loop) (fx es : List Effect) :
    l.applyAll now (fx ++ es) = (l.applyAll now fx).applyAll now es :=
  List.foldl_append ..

theorem sameLoop_refl (l : Loop) : SameLoop l l :=
  ⟨rfl, rfl, fun _ => Iff.rfl, fun _ hp => hp, rfl, rfl, rfl⟩

theorem SameLoop.trans {l'' : Loop} (s : SameLoop l l') (t : SameLoop l' l'') : SameLoop l l'' :=
  ⟨t.waiting.trans s.waiting, t.pending.trans s.pending, fun p => (t.audio p).trans (s.audio p),
    fun p hp => s.pauseAfter p (t.pauseAfter p hp), t.missed.trans s.missed, t.given.trans s.given,
    t.inOutput.trans s.inOutput⟩

theorem OutputCall.plain_setVolume (v : UInt8) : (OutputCall.setVolume v).Plain := ⟨rfl, nofun⟩

theorem sameLoop_volume (l : Loop) (v v' : UInt8) (muted : Bool) :
    SameLoop l ({ l with volume := v, muted := muted }.call (.setVolume v')) :=
  ⟨rfl, rfl, fun _ => Iff.rfl, fun _ hp => hp, rfl,
    (OutputCall.plain_setVolume v').given _, (OutputCall.plain_setVolume v').inOutput _⟩

/-- Effects about no item and not for the transport leave the account alone. -/
theorem sameLoop_silent {e : Effect} (h : e.Silent) (l : Loop) :
    SameLoop l (Loop.apply now l e) := by
  cases e with
  | mute => exact sameLoop_volume l l.volume 0 true
  | unmute => exact sameLoop_volume l l.volume l.volume false
  | setVolume v =>
    rw [Loop.apply]
    dsimp only
    split
    · exact sameLoop_volume l v v l.muted
    · exact ⟨rfl, rfl, fun _ => Iff.rfl, fun _ hp => hp, rfl, rfl, rfl⟩
  | emit ev =>
    cases ev with
    | state s => exact ⟨rfl, rfl, fun _ => Iff.rfl, fun _ hp => hp, rfl, rfl, rfl⟩
    | item id phase => exact h.elim
  | _ => exact h.elim

theorem sameLoop_silents {es : List Effect} (h : ∀ e ∈ es, e.Silent) (l : Loop) :
    SameLoop l (l.applyAll now es) := by
  induction es generalizing l with
  | nil => exact sameLoop_refl l
  | cons e es ih =>
    exact (sameLoop_silent (h e (List.mem_cons_self ..)) l).trans
      (ih (fun e' he' => h e' (List.mem_cons_of_mem _ he')) _)

/-- An item's end takes its slots with it, as it takes its requests. -/
theorem Books.forgetItem {id : ItemId} (B : Books ended l r) (gen : r'.gen = r.gen)
    (loaded : r'.loaded = r.loaded)
    (requested : r'.requested = r.requested.filter (fun p => p.1 ≠ id)) :
    Books ended (l.forgetItem id) r' := by
  refine ⟨fun g hg => gen ▸ B.bound g hg, fun g hg => gen ▸ B.loadedBound g (loaded ▸ hg), B.past,
    fun e he => gen ▸ B.pending e he, fun p => ?_, fun p hp => ?_, B.missed⟩
  · rw [requested, Finset.mem_filter, ← B.audio p]
    show (if p.1 = id then none else l.audio p) ≠ none ↔ _
    by_cases hp : p.1 = id
    · simp [hp]
    · simp [hp]
  · rw [requested, Finset.mem_filter]
    obtain ⟨hm, hne⟩ := Finset.mem_filter.mp hp
    exact ⟨B.pauseAfter p hm, by simpa using hne⟩

/-- An item that is not the waiting chunk's ends. -/
theorem Tracks.forgetOther {id : ItemId} (T : Tracks ended l r) (gen : r'.gen = r.gen)
    (loaded : r'.loaded = r.loaded)
    (requested : r'.requested = r.requested.filter (fun p => p.1 ≠ id))
    (current : r'.current = r.current)
    (other : ∀ cur, r.current = some cur → cur.item.id ≠ id) :
    Tracks ended (l.forgetItem id) r' := by
  refine ⟨T.toBooks.forgetItem gen loaded requested, fun w hw => ?_, fun g hg he => ?_,
    fun g hg => ?_⟩
  · obtain ⟨hl, hf, hu, hr, cur, hc, hi, hk⟩ := T.waits w hw
    refine ⟨loaded.trans hl, hf, hu, ?_, cur, current.trans hc, hi, hk⟩
    rw [requested, Finset.mem_filter]
    exact ⟨hr, by simpa [← hi] using other cur hc⟩
  · exact loaded.trans (T.holds g hg he)
  · exact T.owed g (loaded ▸ hg)

/-- The effect of a final phase. -/
theorem apply_ended (l : Loop) (id : ItemId) {phase : ItemPhase} (h : phase.Final) :
    SameLoop (l.forgetItem id) (Loop.apply now l (.emit (.item id phase))) := by
  have hne : phase ≠ .started := by
    rintro rfl
    exact h
  have happ : Loop.apply now l (.emit (.item id phase)) =
      (l.forgetItem id).broadcast (.event (.item id phase)) := by
    rw [Loop.apply, if_neg hne]
  rw [happ]
  exact ⟨rfl, rfl, fun _ => Iff.rfl, fun _ hp => hp, rfl, rfl, rfl⟩

variable {fin : Current → ItemPhase → Prop} {c c' : Call} {h : List Effect}

/-- **Every atom's effects keep track of the loaded chunk.** -/
theorem Atom.tracks (a : Atom fin c c') (L : Ledger c.r (h ++ c.fx)) (S : Synths c.r (h ++ c.fx))
    (T : Tracks ended (l.applyAll now c.fx) c.r) : Tracks ended (l.applyAll now c'.fx) c'.r := by
  -- one more effect
  have one : ∀ e : Effect, ∀ r' : Reader,
      Tracks ended (Loop.apply now (l.applyAll now c.fx) e) r' →
      Tracks ended (l.applyAll now (c.fx ++ [e])) r' := by
    intro e r' ht
    rw [Loop.applyAll_append]
    exact ht
  generalize hm : l.applyAll now c.fx = m at T one
  have same : ∀ {r' : Reader}, r'.gen = c.r.gen → r'.loaded = c.r.loaded →
      r'.requested = c.r.requested → r'.current = c.r.current → Tracks ended m r' :=
    fun hg hl hr hc => T.sameReader ⟨hg, hl, hr, fun cur hcur => ⟨cur, hc.trans hcur, rfl, rfl⟩⟩
  cases a with
  | @view r' es sameCore silent =>
    rw [show l.applyAll now (c.fx ++ es) = m.applyAll now es by rw [Loop.applyAll_append, hm]]
    exact (same sameCore.gen sameCore.loaded sameCore.requested sameCore.current).sameLoop
      (sameLoop_silents silent m)
  | flag p w unloaded =>
    rw [show l.applyAll now c.fx = m from hm]
    exact same rfl rfl rfl rfl
  | pauseOutput quiet loaded playing =>
    refine one _ _ ?_
    rw [Loop.apply]
    have T' : Tracks ended m { c.r with paused := true } := same rfl rfl rfl rfl
    split
    next w hw =>
      -- the flag of what waits changes, nothing else
      have W := T'.waits w hw
      refine ⟨⟨T'.bound, T'.loadedBound, T'.past, T'.pending, T'.audio, T'.pauseAfter, T'.missed⟩,
        fun w' hw' => ?_, T'.holds, fun g hg => ?_⟩
      · obtain rfl := Option.some.inj hw'
        exact ⟨W.loaded, W.fresh, W.unreported, W.requested, W.current⟩
      · exact .inl ⟨_, rfl, Option.some.inj (W.loaded.symm.trans hg)⟩
    next => exact T'.sameLoop (.plain (c := .pause) ⟨rfl, by simp⟩ m)
  | resumeOutput quiet loaded paused =>
    refine one _ _ ?_
    rw [Loop.apply]
    have T' : Tracks ended m { c.r with paused := false, stepWait := false } := same rfl rfl rfl rfl
    split
    next w hw =>
      split
      · exact T'.reload hw
      next =>
        have W := T'.waits w hw
        refine ⟨⟨T'.bound, T'.loadedBound, T'.past, T'.pending, T'.audio, T'.pauseAfter, T'.missed⟩,
          fun w' hw' => ?_, T'.holds, fun g hg => ?_⟩
        · obtain rfl := Option.some.inj hw'
          exact ⟨W.loaded, W.fresh, W.unreported, W.requested, W.current⟩
        · exact .inl ⟨_, rfl, Option.some.inj (W.loaded.symm.trans hg)⟩
    next => exact T'.sameLoop (.plain (c := .resume) ⟨rfl, by simp⟩ m)
  | stopOutput quiet loaded =>
    refine one _ _ ?_
    rw [Loop.apply]
    dsimp only
    have B : Books ended m { c.r with loaded := none } :=
      ⟨T.bound, by simp, T.past, T.pending, T.audio, T.pauseAfter, T.missed⟩
    split
    next w hw =>
      -- what waits was never in the output: it just goes
      have hdone := T.waitingDone hw
      exact Books.idle
        ⟨B.bound, B.loadedBound, B.past, B.pending, B.audio, B.pauseAfter, B.missed⟩ rfl rfl hdone
    next hw =>
      have hgiven : given (m.output ++ [.stop]) = given m.output := by
        rw [given_snoc]
        exact List.append_nil _
      refine Books.idle ⟨fun g hg => B.bound g (hgiven ▸ hg), B.loadedBound,
        fun g hg => hgiven.symm ▸ B.past g hg, fun e he => ?_, B.audio, B.pauseAfter,
        B.missed⟩ rfl hw
        (fun g hg => ?_)
      · show (∃ reason, e = .failed e.gen reason) ∧ e.gen ∉ given (m.output ++ [.stop]) ∧ _
        rw [hgiven]
        exact B.pending e he
      · have hnone : inOutput (m.output ++ [.stop]) = some g := hg
        rw [inOutput_snoc] at hnone
        cases hnone
  | @retire cur phase quiet unloaded current final allowed =>
    refine one _ _ (Tracks.sameLoop ?_ (apply_ended m cur.item.id final))
    obtain ⟨hw, hin⟩ := T.unloaded unloaded
    exact Books.idle (T.toBooks.forgetItem rfl rfl rfl) unloaded hw hin
  | @dropFront it rest queue =>
    refine one _ _ (Tracks.sameLoop ?_ (apply_ended m it.id trivial))
    refine T.forgetOther rfl rfl rfl rfl (fun cur hcur heq => ?_)
    -- the ids of the live items differ
    have hnd := L.nodup
    rw [Reader.ids, Ledger.live_eq_cons hcur, queue] at hnd
    simp [heq] at hnd
  | refuse =>
    refine one _ _ (Tracks.sameLoop ?_ (apply_ended m c.r.nextId trivial))
    -- nothing was ever requested for an id not handed out
    have hnew : c.r.nextId ∉ c.r.ids := fun hmem => absurd (L.live _ hmem).2 (Nat.lt_irrefl _)
    have hother : ∀ p ∈ c.r.requested, p.1 ≠ c.r.nextId := by
      intro p hp hid
      exact hnew (hid ▸ S.live p hp)
    have hnone : c.r.requested = c.r.requested.filter (fun p => p.1 ≠ c.r.nextId) :=
      (Finset.filter_true_of_mem hother).symm
    exact T.forgetOther rfl rfl hnone rfl
      (fun cur hcur hid => hnew (hid ▸ Ledger.mem_ids_current hcur))
  | admitBack id chunks =>
    rw [show l.applyAll now c.fx = m from hm]
    exact same rfl rfl rfl rfl
  | admitFront id chunks =>
    rw [show l.applyAll now c.fx = m from hm]
    exact same rfl rfl rfl rfl
  | @start it rest idle unloaded queue =>
    refine one _ _ ?_
    have T' : Tracks ended m
        { c.r with
          queue := rest
          released := false
          current := some { item := it, chunk := 0, playedAny := false } } :=
      T.sameReader ⟨rfl, rfl, rfl, fun cur hcur => absurd hcur (by rw [idle]; simp)⟩
    exact T'.sameLoop ⟨rfl, rfl, fun _ => Iff.rfl, fun _ hp => hp, rfl, rfl, rfl⟩
  | @request it i t live chunk fresh =>
    refine one _ _ ?_
    have hslot : ∀ p, Function.update m.audio (it.id, i) (some Slot.pending) p ≠ none ↔
        p ∈ insert (it.id, i) c.r.requested := by
      intro p
      rw [Finset.mem_insert]
      by_cases hp : p = (it.id, i)
      · simp [hp]
      · rw [Function.update_of_ne hp, T.audio p]
        exact ⟨.inr, fun hor => hor.resolve_left hp⟩
    have hsub : ∀ p ∈ (if kind t = .line ∧ 0 < m.code.pauseMs then insert (it.id, i) m.pauseAfter
        else m.pauseAfter), p ∈ insert (it.id, i) c.r.requested := by
      intro p hp
      rw [Finset.mem_insert]
      split at hp
      · exact (Finset.mem_insert.mp hp).imp_right (T.pauseAfter p)
      · exact .inr (T.pauseAfter p hp)
    exact ⟨⟨T.bound, T.loadedBound, T.past, T.pending, hslot, hsub, T.missed⟩,
      fun w hw =>
        have W := T.waits w hw
        ⟨W.loaded, W.fresh, W.unreported, Finset.mem_insert_of_mem W.requested, W.current⟩,
      T.holds, T.owed⟩
  | @play cur unloaded unpaused current requested =>
    refine one _ _ ?_
    rw [Loop.apply]
    obtain ⟨-, hin⟩ := T.unloaded unloaded
    -- a gen above every gen given out is new to everyone
    refine Books.load (l := { m with waiting := none })
      ⟨fun g hg => Nat.le_succ_of_le (T.bound g hg), fun g hg => ?_, T.past,
        fun e he => ?_, T.audio,
        T.pauseAfter, T.missed⟩ rfl hin ⟨rfl, fun hg => ?_, fun e he => ?_, requested, cur,
        current, rfl, rfl⟩
    · exact Nat.le_of_eq (Option.some.inj hg).symm
    · obtain ⟨hf, hn, hle⟩ := T.pending e he
      exact ⟨hf, hn, Nat.le_succ_of_le hle⟩
    · exact absurd (T.bound _ hg) (Nat.not_succ_le_self _)
    · exact Nat.ne_of_lt (Nat.lt_succ_of_le (T.pending e he).2.2)
  | @moveChunk cur i quiet unloaded current inRange =>
    rw [show l.applyAll now c.fx = m from hm]
    obtain ⟨hw, hin⟩ := T.unloaded unloaded
    exact Books.idle ⟨T.bound, T.loadedBound, T.past, T.pending, T.audio, T.pauseAfter, T.missed⟩
      unloaded hw hin

end Sonara.Worker
