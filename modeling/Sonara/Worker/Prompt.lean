import Sonara.Lib.Except
import Sonara.Worker.Loop

/-!
# A chunk whose audio is there does not wait

`load` is called from five places, and each of them has taken `waiting` before.
`Loaded` says once what it can leave behind. From it follows, for any effects the
reader may return, that a chunk waits with its audio there only for two reasons: the
user paused it, or a start hold keeps an item's first chunk back (`Prompt`); and
`releaseHold` hands that one over once the hold is over.
-/

namespace Sonara.Worker

open Sonara (Text)
open Sonara.L1

/-- What `load` leaves behind. A hold that is over is dropped on the way. -/
inductive Loaded (now : Nat) (l : Loop) (item : ItemId) (chunk gen : Nat) : Loop → Prop
  /-- Held back, or still being made. -/
  | parked (hold : Option Nat) (synth : List SynthCall) (kept : hold = l.hold ∨ hold = none)
      (why : (chunk = 0 ∧ hold.isSome) ∨ l.audio (item, chunk) = some .pending) :
      Loaded now l item chunk gen
        { l with
          opened := none
          hold := hold
          synth := synth
          waiting := some { item := item, chunk := chunk, gen := gen, paused := false } }
  | played (hold : Option Nat) (pcm : List PcmChunk) (kept : hold = l.hold ∨ hold = none)
      (ready : l.audio (item, chunk) = some (.ready (.ok pcm))) :
      Loaded now l item chunk gen
        { l with
          opened := none
          hold := hold
          output := l.output ++ [.play pcm item chunk gen] }
  | streamed (hold : Option Nat) (pcm : List PcmChunk) (kept : hold = l.hold ∨ hold = none)
      (streaming : l.audio (item, chunk) = some (.streaming pcm)) :
      Loaded now l item chunk gen
        { l with
          opened := some (item, chunk, gen)
          hold := hold
          output := l.output ++ [.playOpen pcm item chunk gen] }
  | failed (hold : Option Nat) (reason : String) (kept : hold = l.hold ∨ hold = none)
      (ready : l.audio (item, chunk) = some (.ready (.error reason))) :
      Loaded now l item chunk gen
        { l with
          opened := none
          hold := hold
          pending := l.pending ++ [.failed gen reason] }
  | missing (hold : Option Nat) (reason : String) (kept : hold = l.hold ∨ hold = none)
      (nothing : l.audio (item, chunk) = none) :
      Loaded now l item chunk gen
        { l with
          opened := none
          hold := hold
          pending := l.pending ++ [.failed gen reason]
          missed := l.missed ++ [gen] }

namespace Loop

variable {l : Loop} {now : Nat}

theorem held_cases (l : Loop) (now : Nat) :
    (l.held now = (true, l) ∧ ∃ till, l.hold = some till ∧ now < till) ∨
      l.held now = (false, { l with hold := none }) := by
  unfold held
  split
  next till htill =>
    by_cases hlt : now < till
    · exact .inl ⟨if_pos hlt, till, htill, hlt⟩
    · exact .inr (if_neg hlt)
  next => exact .inr rfl

/-- With no hold in the way `load` goes by the slot. -/
theorem loaded_free (l : Loop) (now : Nat) (item : ItemId) (chunk gen : Nat) (hold : Option Nat)
    (kept : hold = l.hold ∨ hold = none) :
    Loaded now l item chunk gen
      (match l.audio (item, chunk) with
        | some (.ready (.ok pcm)) =>
          { l with opened := none, hold := hold }.call (.play pcm item chunk gen)
        | some (.streaming pcm) =>
          { { l with opened := none, hold := hold }.call (.playOpen pcm item chunk gen) with
            opened := some (item, chunk, gen) }
        | some (.ready (.error reason)) => { l with opened := none, hold := hold }.fail gen reason
        | some .pending =>
          { l with
            opened := none
            hold := hold
            waiting := some { item := item, chunk := chunk, gen := gen, paused := false } }.ask
            (.promote item chunk)
        | none =>
          { { l with opened := none, hold := hold }.fail gen "chunk was never synthesized" with
            missed := l.missed ++ [gen] }) := by
  split
  next hs => exact .played hold _ kept hs
  next hs => exact .streamed hold _ kept hs
  next hs => exact .failed hold _ kept hs
  next hs => exact .parked hold _ kept (.inr hs)
  next hs => exact .missing hold _ kept hs

/-- What a load does: it opens, plays, waits or fails. -/
theorem loaded (l : Loop) (now : Nat) (item : ItemId) (chunk gen : Nat) :
    Loaded now l item chunk gen (l.load now item chunk gen) := by
  unfold load
  by_cases h0 : chunk = 0
  · rcases held_cases { l with opened := none } now with ⟨hh, till, htill, hlt⟩ | hh
    · simp only [h0, hh, if_true]
      have hsome : l.hold.isSome := by rw [show l.hold = some till from htill]; rfl
      split
      · exact .parked l.hold _ (.inl rfl) (.inl ⟨rfl, hsome⟩)
      · exact .parked l.hold l.synth (.inl rfl) (.inl ⟨rfl, hsome⟩)
    · simp only [h0, hh, if_true]
      exact l.loaded_free now item 0 gen none (.inr rfl)
  · simp only [h0, if_false]
    exact l.loaded_free now item chunk gen l.hold (.inl rfl)

/-! ## Rules for what every effect keeps -/

/-- What every effect keeps, whatever the reader and the failures are, a batch of
effects keeps, with the failures told to the reader after it. -/
theorem run_keeps {P : Loop → Prop} (effect : ∀ l e, P l → P (apply now l e))
    (around : ∀ (l : Loop) r p, P l → P { l with reader := r, pending := p }) (fx : List Effect)
    (h : P l) : P (l.run now fx) := by
  have hall : ∀ (fx : List Effect) (l : Loop), P l → P (l.applyAll now fx) := by
    intro fx
    induction fx with
    | nil => exact fun _ h => h
    | cons e fx ih => exact fun l h => ih _ (effect l e h)
  have hdrain : ∀ (fuel : Nat) (l : Loop), P l → P (drainUpTo now fuel l) := by
    intro fuel
    induction fuel with
    | zero => exact fun _ h => h
    | succ fuel ih =>
      intro l h
      unfold drainUpTo
      split
      · exact h
      · exact ih _ (hall _ _ (around l _ _ h))
  exact hdrain _ _ (hall fx l h)

theorem carry_keeps {P : Loop → Prop} (effect : ∀ l e, P l → P (apply now l e))
    (around : ∀ (l : Loop) r p, P l → P { l with reader := r, pending := p }) (c : Call)
    (h : P l) : P (l.carry now c) :=
  run_keeps effect around c.fx (around l c.r l.pending h)

theorem drain_keeps {P : Loop → Prop} (effect : ∀ l e, P l → P (apply now l e))
    (around : ∀ (l : Loop) r p, P l → P { l with reader := r, pending := p })
    (h : P l) : P (l.drain now) :=
  run_keeps effect around [] h

/-! ## The hold -/

end Loop

/-! ## What `set` leaves -/

/-- What an accepted `set` does. -/
inductive Setting (now : Nat) (l : Loop) : Loop → Prop
  /-- The engine is the current one. -/
  | same : Setting now l l
  | volume (v : UInt8) : Setting now l (l.carry now (l.reader.setVolume v))
  | rate (v : UInt32) : Setting now l (l.carry now (l.reader.setRate v))
  | voice (v : Option String) : Setting now l (l.carry now (l.reader.setVoice v))
  | engine (e : Engine) : Setting now l (l.switchEngine now e)

/-- `set` is one of the settings' changes. -/
theorem Loop.set_cases {l l' : Loop} {now : Nat} {registry : Registry} {key : Key} {value : Value}
    (h : l.set registry now key value = .ok l') : Setting now l l' := by
  cases key with
  | volume =>
    obtain ⟨n, -, h⟩ := Lib.bind_ok h
    obtain ⟨v, -, h⟩ := Lib.bind_ok h
    exact Except.ok.inj h ▸ .volume v
  | rate =>
    obtain ⟨n, -, h⟩ := Lib.bind_ok h
    obtain ⟨v, -, h⟩ := Lib.bind_ok h
    exact Except.ok.inj h ▸ .rate v
  | voice =>
    cases value with
    | null => exact Except.ok.inj h ▸ .voice none
    | text t =>
      obtain ⟨voice, -, h⟩ := Lib.bind_ok h
      exact Except.ok.inj h ▸ .voice voice
    | number n => cases h
  | engine =>
    cases value with
    | text id =>
      obtain ⟨engine, -, h⟩ := Lib.bind_ok h
      by_cases he : engine.ref = l.engine.ref
      · rw [if_pos he] at h
        exact Except.ok.inj h ▸ .same
      · rw [if_neg he] at h
        exact Except.ok.inj h ▸ .engine engine
    | null => cases h
    | number n => cases h

/-! ## Nothing waits that could be handed over -/

/-- A chunk that waits unpaused with its audio there is an item's first, under a
hold; and nothing waits while a chunk plays as it arrives. -/
structure Prompt (l : Loop) : Prop where
  excl : l.opened = none ∨ l.waiting = none
  held : ∀ w, l.waiting = some w → w.paused = false → l.isHere w = true →
    w.chunk = 0 ∧ l.hold.isSome

namespace Prompt

variable {l : Loop} {now : Nat}

/-- With nothing waiting there is nothing to hand over. -/
theorem idle (h : l.waiting = none) : Prompt l := by
  refine ⟨.inr h, fun w hw => ?_⟩
  rw [h] at hw
  cases hw

/-- A load with nothing waiting is prompt: it opens, or waits for its slot. -/
theorem load (hw : l.waiting = none) (item : ItemId) (chunk gen : Nat) :
    Prompt (l.load now item chunk gen) := by
  have hl := l.loaded now item chunk gen
  generalize l.load now item chunk gen = l' at hl
  cases hl with
  | parked hold synth kept why =>
    refine ⟨.inl rfl, fun w hw' _ hhere => ?_⟩
    obtain rfl := Option.some.inj hw'
    rcases why with hheld | hpending
    · exact hheld
    · have hno : Option.any Slot.here (l.audio (item, chunk)) = true := hhere
      rw [hpending] at hno
      cases hno
  | played => exact idle hw
  | streamed => exact idle hw
  | failed => exact idle hw
  | missing => exact idle hw

/-- An effect keeps the loop prompt. -/
theorem apply (l : Loop) (e : Effect) (h : Prompt l) : Prompt (Loop.apply now l e) := by
  cases e with
  | synthesize item chunk text =>
    refine ⟨h.excl, fun w hw hp hhere => h.held w hw hp ?_⟩
    have hhere' : (Function.update l.audio (item, chunk) (some .pending) (w.item, w.chunk)).any
        Slot.here = true := hhere
    by_cases heq : (w.item, w.chunk) = (item, chunk)
    · rw [heq, Function.update_self] at hhere'
      cases hhere'
    · rwa [Function.update_of_ne heq] at hhere'
  | playChunk item chunk gen => exact load rfl item chunk gen
  | pauseOutput =>
    rw [Loop.apply]
    split
    next w hw =>
      refine ⟨h.excl.imp_right fun hn => absurd hw (by rw [hn]; simp), fun w' hw' hp => ?_⟩
      obtain rfl := Option.some.inj hw'
      cases hp
    next hw => exact idle hw
  | resumeOutput =>
    rw [Loop.apply]
    split
    next w hw =>
      split
      · exact load rfl _ _ _
      next hhere =>
        refine ⟨h.excl.imp_right fun hn => absurd hw (by rw [hn]; simp), fun w' hw' _ hh => ?_⟩
        obtain rfl := Option.some.inj hw'
        exact absurd hh hhere
    next hw => exact idle hw
  | stopOutput =>
    rw [Loop.apply]
    dsimp only
    split
    · exact idle rfl
    next hw => exact idle hw
  | setVolume v =>
    rw [Loop.apply]
    dsimp only
    split <;> exact ⟨h.excl, h.held⟩
  | emit e =>
    cases e with
    | state s => exact ⟨h.excl, h.held⟩
    | item id phase =>
      show Prompt ((if phase = ItemPhase.started then l else l.forgetItem id).broadcast _)
      split
      · exact ⟨h.excl, h.held⟩
      · refine ⟨h.excl.imp_left fun ho => ?_, fun w hw hp hhere => h.held w hw hp ?_⟩
        · show l.opened.filter _ = none
          rw [ho]
          rfl
        · -- a slot that is still there was there before
          have hhere' : (if w.item = id then none else l.audio (w.item, w.chunk)).any
              Slot.here = true := hhere
          split at hhere'
          · cases hhere'
          · exact hhere'
  | mute => exact ⟨h.excl, h.held⟩
  | unmute => exact ⟨h.excl, h.held⟩

theorem around (l : Loop) (r : Reader) (p : List AudioEvent) (h : Prompt l) :
    Prompt { l with reader := r, pending := p } :=
  ⟨h.excl, h.held⟩

theorem run (fx : List Effect) (h : Prompt l) : Prompt (l.run now fx) :=
  Loop.run_keeps apply around fx h

theorem carry (c : Call) (h : Prompt l) : Prompt (l.carry now c) :=
  Loop.carry_keeps apply around c h

theorem drain (h : Prompt l) : Prompt (l.drain now) := Loop.drain_keeps apply around h

/-! ### Messages -/

/-- The slot of another chunk is as before. -/
theorem isHere_update (l : Loop) {item : ItemId} {chunk : Nat} (s : Slot) {w : Waiting}
    (hne : ¬(w.item = item ∧ w.chunk = chunk)) :
    { l with audio := Function.update l.audio (item, chunk) (some s) }.isHere w = l.isHere w := by
  have hne' : (w.item, w.chunk) ≠ (item, chunk) := fun heq => hne (Prod.mk.inj heq)
  show (Function.update l.audio (item, chunk) (some s) (w.item, w.chunk)).any Slot.here = _
  rw [Function.update_of_ne hne']
  rfl

theorem opened_idle {o : ItemId × Nat × Nat} (h : Prompt l) (ho : l.opened = some o) :
    l.waiting = none := by
  rcases h.excl with hn | hn
  · rw [hn] at ho
    cases ho
  · exact hn

/-- A chunk that is wanted keeps the loop prompt. -/
theorem wanted (item : ItemId) (chunk : Nat) (s : Slot) (h : Prompt l) :
    Prompt ({ l with audio := Function.update l.audio (item, chunk) (some s) }.wanted now item
      chunk) := by
  unfold Loop.wanted
  split
  next w hw =>
    split
    · exact (load rfl _ _ _).drain
    next hne =>
      refine ⟨h.excl, fun w' hw' hp hhere => h.held w' hw' hp ?_⟩
      obtain rfl : w = w' := Option.some.inj (hw.symm.trans hw')
      rwa [isHere_update l s (fun heq => hne ⟨heq.1, heq.2, hp⟩)] at hhere
  next hw => exact idle hw

theorem keep (item : ItemId) (chunk : Nat) (parts : List PcmChunk) (pcm : PcmChunk)
    (h : Prompt l) : Prompt (l.keep now item chunk parts pcm) := by
  unfold Loop.keep
  dsimp only
  split
  next i c gen ho =>
    split
    · exact idle (h.opened_idle ho)
    · exact h.wanted item chunk _
  next => exact h.wanted item chunk _

theorem part (item : ItemId) (chunk : Nat) (pcm : PcmChunk) (h : Prompt l) :
    Prompt (l.part now item chunk pcm) := by
  unfold Loop.part
  split
  · exact h.keep item chunk _ pcm
  · exact h.keep item chunk _ pcm
  · exact h

/-- A slot that is filled is handed over at once, if the chunk waits for it. -/
theorem ready (item : ItemId) (chunk : Nat) (s : Slot) (h : Prompt l) :
    Prompt ({ l with audio := Function.update l.audio (item, chunk) (some s) }.ready now item
      chunk) := by
  unfold Loop.ready
  split
  next w hw =>
    split
    · split
      next hp _ =>
        -- paused by the user: it stays
        refine ⟨h.excl, fun w' hw' hp' => ?_⟩
        obtain rfl : w = w' := Option.some.inj (hw.symm.trans hw')
        rw [hp] at hp'
        cases hp'
      · exact (load rfl _ _ _).drain
    next hne =>
      refine ⟨h.excl, fun w' hw' hp hhere => h.held w' hw' hp ?_⟩
      obtain rfl : w = w' := Option.some.inj (hw.symm.trans hw')
      rwa [isHere_update l s hne] at hhere
  next hw => exact idle hw

/-- A chunk that has arrived keeps the loop prompt. -/
theorem arrived (item : ItemId) (chunk : Nat) (s : Slot) (pause : Option PcmChunk)
    (h : Prompt l) :
    Prompt ({ l with audio := Function.update l.audio (item, chunk) (some s) }.arrived now item
      chunk pause) := by
  unfold Loop.arrived
  split
  next i c gen ho =>
    split
    · have hw : l.waiting = none := h.opened_idle ho
      dsimp only
      split <;> exact idle hw
    · exact h.ready item chunk s
  next => exact h.ready item chunk s

/-- The waiting chunk, its slot and the hold decide. -/
theorem congr {l' : Loop} (h : Prompt l) (opened : l'.opened = l.opened)
    (waiting : l'.waiting = l.waiting) (audio : l'.audio = l.audio)
    (hold : l.hold.isSome → l'.hold.isSome) : Prompt l' := by
  refine ⟨by rw [opened, waiting]; exact h.excl, fun w hw hp hhere => ?_⟩
  have hhere' : l.isHere w = true := by
    rw [Loop.isHere, ← audio]
    exact hhere
  obtain ⟨h0, hsome⟩ := h.held w (waiting ▸ hw) hp hhere'
  exact ⟨h0, hold hsome⟩

theorem chunkDone (item : ItemId) (chunk : Nat) (result : Except String (List PcmChunk))
    (h : Prompt l) : Prompt (l.chunkDone now item chunk result) := by
  unfold Loop.chunkDone
  split
  · exact h
  · dsimp only
    split
    · exact arrived item chunk _ _ (l := Loop.broadcast _ _) (h.congr rfl rfl rfl id)
    · exact arrived item chunk _ _ (h.congr rfl rfl rfl id)

/-- Releasing the hold keeps the loop prompt. -/
theorem releaseHold (h : Prompt l) : Prompt (l.releaseHold now) := by
  unfold Loop.releaseHold
  split
  · exact h
  · rcases l.held_cases now with ⟨hh, -⟩ | hh
    · rw [hh]
      exact h
    · rw [hh]
      dsimp only
      split
      next w hw =>
        split
        · exact (load rfl _ _ _).drain
        next hne =>
          refine ⟨h.excl, fun w' hw' hp hhere => ?_⟩
          obtain rfl : w = w' := Option.some.inj (hw.symm.trans hw')
          exact absurd ⟨hp, hhere⟩ hne
      next hw => exact idle hw

theorem switchEngine (engine : Engine) (h : Prompt l) : Prompt (l.switchEngine now engine) := by
  unfold Loop.switchEngine
  dsimp only
  split
  · split
    · exact run _ (h.congr rfl rfl rfl id)
    · exact run _ (h.congr rfl rfl rfl id)
  · exact run _ (h.congr rfl rfl rfl id)

theorem set {l' : Loop} {registry : Registry} {key : Key} {value : Value} (h : Prompt l)
    (hs : l.set registry now key value = .ok l') : Prompt l' := by
  cases Loop.set_cases hs with
  | same => exact h
  | volume v => exact h.carry _
  | rate v => exact h.carry _
  | voice v => exact h.carry _
  | engine e => exact h.switchEngine e

variable {split : Chunking → Text → List Text}

/-- Handling a message keeps the loop prompt. -/
theorem handle {registry : Registry} (m : Msg) (h : Prompt l) :
    Prompt (l.handle split registry now m) := by
  cases m with
  | speak text mode interrupt label voice => exact carry _ (h.congr rfl rfl rfl id)
  | control c => exact h.carry _
  | set key value =>
    unfold Loop.handle
    dsimp only
    split
    next hs => exact h.set hs
    next => exact h
  | query => exact h
  | clip samples sampleRate => exact h.congr rfl rfl rfl id
  | holdStart till => exact h.congr rfl rfl rfl fun _ => rfl
  | code code => exact carry _ (h.congr rfl rfl rfl id)
  | audio e => exact h.carry _
  | synthesized done =>
    cases done with
    | part item chunk pcm => exact h.part item chunk pcm
    | chunk item chunk engine result => exact h.chunkDone item chunk result
    | warmFailed engine message error => exact h.congr rfl rfl rfl id
  | shutdown =>
    show Prompt ((l.carry now (l.reader.control .stop)).ask .shutdown)
    have hstop := @Prompt.carry l now (l.reader.control .stop) h
    generalize l.carry now (l.reader.control .stop) = l' at hstop ⊢
    exact hstop.congr rfl rfl rfl id

theorem handled (t : Turn) (h : Prompt l) : Prompt (l.handled split t) := by
  unfold Loop.handled
  split
  · exact h.handle _
  · exact h

theorem turn (t : Turn) (h : Prompt l) : Prompt (l.turn split t) := (h.handled t).releaseHold

end Prompt

end Sonara.Worker
