import Sonara.Worker.Drain

/-!
# The worker hands every chunk over

Every message keeps the account (`Kept`) and leaves no failure untold. `hand_over` reads
it after a message, and once more after the look at the start hold: the chunk the reader
has loaded waits or is in the output and nothing else is; what could be handed over was;
the pieces of a chunk reach the output in order, once; and `load` never misses a slot.

An audio event is about a chunk the output was given. It may be stale: the reader ignores
it, so the account does not care.
-/

namespace Sonara.Worker

open Sonara (Text)
open Sonara.L1

section

variable {split : Chunking → Text → List Text} {ended : Nat → Prop}
  {came : ItemId × Nat → List PcmChunk} {l l' : Loop} {r : Reader} {now : Nat}

/-! ## Steps that every message is made of -/

/-- Nothing the account reads changed. -/
theorem Follows.frame (F : Follows split ended came l r) (waiting : l'.waiting = l.waiting)
    (pending : l'.pending = l.pending) (audio : l'.audio = l.audio)
    (pauseAfter : ∀ p ∈ l'.pauseAfter, p ∈ l.pauseAfter) (missed : l'.missed = l.missed)
    (opened : l'.opened = l.opened) (itemVoices : l'.itemVoices = l.itemVoices)
    (output : l'.output = l.output) : Follows split ended came l' r :=
  ⟨F.reached,
    F.tracks.sameLoop ⟨waiting, pending, fun p => by rw [audio], pauseAfter, missed, by rw [output],
      by rw [output]⟩,
    F.streams.congr (by rw [output]; exact sameStream_refl _) audio (.inl opened),
    F.playing.frame output opened, fun n hv => F.voices n (itemVoices ▸ hv)⟩

/-- A call of the output about no chunk. -/
theorem Follows.aside (F : Follows split ended came l r) (c : OutputCall) (aside : c.Aside)
    (hstop : c ≠ .stop) : Follows split ended came (l.call c) r := by
  have hplain : c.Plain := by
    refine ⟨?_, hstop⟩
    cases c with
    | play | playOpen | append | finish => exact aside.elim
    | _ => rfl
  exact ⟨F.reached, F.tracks.sameLoop (.plain hplain l),
    F.streams.congr (sameStream_aside c aside _) rfl (.inl rfl), F.playing.plain hplain, F.voices⟩

/-- Effects carried out, the failures told. -/
theorem follows_run {fx : List Effect} (F : Follows split ended came (l.applyAll now fx) l.reader) :
    Kept split ended came (l.run now fx) ∧ (l.run now fx).pending = [] := by
  have hr := @applyAll_reader now l fx
  refine Kept.drain ?_
  rw [Kept, hr]
  exact F

theorem Kept.carry (K : Kept split ended came l) (i : Input) (quiet : l.reader.enter i = l.reader) :
    Kept split ended came (l.carry now (l.reader.call split i)) ∧
      (l.carry now (l.reader.call split i)).pending = [] :=
  follows_run ((K.withReader (l.reader.call split i).r).call i quiet)

/-- The waiting chunk loaded, the failures told. -/
theorem Kept.reload {w : Waiting} (K : Kept split ended came l) (hw : l.waiting = some w) :
    Kept split ended came (({ l with waiting := none }.load now w.item w.chunk w.gen).drain now) ∧
      (({ l with waiting := none }.load now w.item w.chunk w.gen).drain now).pending = [] := by
  refine Kept.drain ?_
  rw [Kept, load_reader]
  refine ⟨K.reached, K.tracks.reload hw, ?_, K.tracks.reloadOpen hw, fun n hv => K.voices n ?_⟩
  · have S : Streams came { l with waiting := none } l.reader :=
      K.streams.congr (sameStream_refl _) rfl (.inl rfl)
    exact S.load (K.tracks.waits w hw).fresh
  · rw [load_itemVoices] at hv
    exact hv

/-- Releasing the hold keeps the invariant, with nothing pending. -/
theorem Kept.releaseHold (K : Kept split ended came l) (hp : l.pending = []) :
    Kept split ended came (l.releaseHold now) ∧ (l.releaseHold now).pending = [] := by
  unfold Loop.releaseHold
  split
  · exact ⟨K, hp⟩
  · rcases l.held_cases now with ⟨hh, -⟩ | hh
    · rw [hh]
      exact ⟨K, hp⟩
    · rw [hh]
      have K' : Kept split ended came { l with hold := none } :=
        K.frame rfl rfl rfl (fun _ h => h) rfl rfl rfl rfl
      dsimp only
      split
      next w hw =>
        split
        · exact Kept.reload (l := { l with hold := none }) K' hw
        · exact ⟨K', hp⟩
      next => exact ⟨K', hp⟩

/-- Switching the engine keeps the invariant, with nothing pending. -/
theorem Kept.switchEngine (K : Kept split ended came l) (engine : Engine) :
    Kept split ended came (l.switchEngine now engine) ∧
    (l.switchEngine now engine).pending = [] := by
  -- the two or three calls one after the other, their effects in one batch
  have two : ∀ r' : Reader, Follows split ended came
      (Loop.applyAll now ({ l with engine := engine, reader := r' }.ask (.warm engine))
        ((l.reader.setLookahead engine.lookahead).fx ++
          ((l.reader.setLookahead engine.lookahead).r.setChunking (chunking engine)).fx))
      ((l.reader.setLookahead engine.lookahead).r.setChunking (chunking engine)).r := by
    intro r'
    rw [Loop.applyAll_append]
    have F : Follows split ended came
        ({ l with engine := engine, reader := r' }.ask (.warm engine)) l.reader :=
      (K.withReader r').frame rfl rfl rfl (fun _ h => h) rfl rfl rfl rfl
    exact (F.call (.setLookahead engine.lookahead) rfl).call (.setChunking (chunking engine)) rfl
  unfold Loop.switchEngine
  dsimp only
  split
  · split
    · refine follows_run ?_
      rw [Loop.applyAll_append]
      exact (two (((l.reader.setLookahead engine.lookahead).r.setChunking
        (chunking engine)).r.setVoice
        none).r).call (.setVoice none) rfl
    · exact follows_run (two _)
  · exact follows_run (two _)

theorem Kept.set {registry : Registry} {key : Key} {value : Value} (K : Kept split ended came l)
    (hp : l.pending = []) (hs : l.set registry now key value = .ok l') :
    Kept split ended came l' ∧ l'.pending = [] := by
  cases Loop.set_cases hs with
  | same => exact ⟨K, hp⟩
  | volume v => exact K.carry (.setVolume v) rfl
  | rate v => exact K.carry (.setRate v) rfl
  | voice v => exact K.carry (.setVoice v) rfl
  | engine e => exact K.switchEngine e

/-! ## Pieces and completions -/

/-- A chunk with a slot belongs to a live item. -/
theorem Follows.slot {p : ItemId × Nat} (F : Follows split ended came l r) (h : l.audio p ≠ none) :
    p ∈ r.requested ∧ p.1 ∈ r.ids ∧ p.1 < r.nextId := by
  have hreq := (F.tracks.audio p).mp h
  obtain ⟨is, hr⟩ := F.reached
  have hlive : p.1 ∈ r.ids := by
    rw [hr] at hreq ⊢
    exact (state_synths split is).live p hreq
  refine ⟨hreq, hlive, ?_⟩
  rw [hr] at hlive ⊢
  exact ((state_ledger split is).1.live p.1 hlive).2

/-- Another slot for a chunk that has one. -/
theorem sameLoop_setSlot {p : ItemId × Nat} (h : l.audio p ≠ none) (s : Slot) :
    SameLoop l (l.setSlot p s) := by
  refine ⟨rfl, rfl, fun q => ?_, fun _ hp => hp, rfl, rfl, rfl⟩
  show Function.update l.audio p (some s) q ≠ none ↔ _
  by_cases hq : q = p
  · rw [hq, Function.update_self]
    exact ⟨fun _ => h, fun _ => nofun⟩
  · rw [Function.update_of_ne hq]

theorem KeepsOpen.setSlot (O : KeepsOpen ended l r) (p : ItemId × Nat) (s : Slot) :
    KeepsOpen ended (l.setSlot p s) r := O.frame rfl rfl

theorem Kept.wanted (K : Kept split ended came l) (hp : l.pending = []) (item : ItemId)
    (chunk : Nat) :
    Kept split ended came (l.wanted now item chunk) ∧ (l.wanted now item chunk).pending = [] := by
  unfold Loop.wanted
  split
  next w hw =>
    split
    · exact K.reload hw
    · exact ⟨K, hp⟩
  next => exact ⟨K, hp⟩

/-- **A piece is kept**, and handed over with the chunk or after it. -/
theorem Kept.keep {item : ItemId} {chunk : Nat} {slot : Slot} (K : Kept split ended came l)
    (hp : l.pending = []) (hslot : l.audio (item, chunk) = some slot) (coming : slot.coming = true)
    (pcm : PcmChunk) :
    Kept split ended (takeIn came (item, chunk) pcm)
        (l.keep now item chunk (came (item, chunk)) pcm) ∧
      (l.keep now item chunk (came (item, chunk)) pcm).pending = [] := by
  have hne : l.audio (item, chunk) ≠ none := by
    rw [hslot]
    exact nofun
  obtain ⟨hreq, hlive, hgiven⟩ := K.slot hne
  have T := K.tracks.sameLoop (sameLoop_setSlot hne (.streaming (came (item, chunk) ++ [pcm])))
  have O := K.playing.setSlot (item, chunk) (.streaming (came (item, chunk) ++ [pcm]))
  -- the chunk does not play: the reader may wait for it
  have rest : (∀ g, l.opened ≠ some (item, chunk, g)) →
      Kept split ended (takeIn came (item, chunk) pcm)
          ((l.setSlot (item, chunk) (.streaming (came (item, chunk) ++ [pcm]))).wanted now
            item chunk) ∧
        ((l.setSlot (item, chunk) (.streaming (came (item, chunk) ++ [pcm]))).wanted now item
          chunk).pending = [] := by
    intro helse
    exact Kept.wanted (l := l.setSlot (item, chunk) (.streaming (came (item, chunk) ++ [pcm])))
      ⟨K.reached, T, K.streams.piece hslot coming hlive hgiven hreq helse, O,
        K.voices⟩ hp item chunk
  unfold Loop.keep
  dsimp only
  split
  next i c gen ho =>
    split
    next heq =>
      obtain ⟨rfl, rfl⟩ := heq
      exact ⟨⟨K.reached, T.sameLoop (.plain (c := .append gen [pcm]) ⟨rfl, nofun⟩ _),
        K.streams.piece_open hslot coming hlive hgiven hreq ho,
        O.plain (c := .append gen [pcm]) ⟨rfl, nofun⟩, K.voices⟩, hp⟩
    next hother =>
      refine rest fun g hg => hother ?_
      obtain ⟨rfl, rfl, -⟩ : i = item ∧ c = chunk ∧ gen = g := by simpa using ho.symm.trans hg
      exact ⟨rfl, rfl⟩
  next ho =>
    refine rest fun g hg => ?_
    have hnone : l.opened = none := ho
    rw [hnone] at hg
    cases hg

/-- A piece that comes is appended to its slot, if one waits for it. -/
theorem Kept.part (K : Kept split ended came l) (hp : l.pending = []) (item : ItemId) (chunk : Nat)
    (pcm : PcmChunk) :
    Kept split ended
        (if (l.audio (item, chunk)).any Slot.coming then takeIn came (item, chunk) pcm else came)
        (l.part now item chunk pcm) ∧ (l.part now item chunk pcm).pending = [] := by
  unfold Loop.part
  cases hs : l.audio (item, chunk) with
  | none => exact ⟨K, hp⟩
  | some slot =>
    cases slot with
    | pending =>
      have hk := @Kept.keep split ended came l now item chunk _ K hp hs rfl pcm
      rw [K.streams.pending _ hs] at hk
      exact hk
    | streaming parts =>
      have hk := @Kept.keep split ended came l now item chunk _ K hp hs rfl pcm
      rw [K.streams.streaming _ _ hs] at hk
      exact hk
    | ready result => exact ⟨K, hp⟩

theorem Kept.ready (K : Kept split ended came l) (hp : l.pending = []) (item : ItemId)
    (chunk : Nat) :
    Kept split ended came (l.ready now item chunk) ∧ (l.ready now item chunk).pending = [] := by
  unfold Loop.ready
  split
  next w hw =>
    split
    · split
      · exact ⟨K, hp⟩
      · exact K.reload hw
    · exact ⟨K, hp⟩
  next => exact ⟨K, hp⟩

/-- **A completion fills the slot**, and ends the chunk that played as it arrived. -/
theorem Kept.arrived {item : ItemId} {chunk : Nat} (K : Kept split ended came l)
    (hp : l.pending = []) (hne : l.audio (item, chunk) ≠ none)
    (result : Except String (List PcmChunk)) (pause : Option PcmChunk) :
    Kept split ended came ((l.setSlot (item, chunk) (.ready result)).arrived now item chunk pause) ∧
      ((l.setSlot (item, chunk) (.ready result)).arrived now item chunk pause).pending = [] := by
  have T := K.tracks.sameLoop (sameLoop_setSlot hne (.ready result))
  have O := K.playing.setSlot (item, chunk) (.ready result)
  have rest : (∀ g, l.opened ≠ some (item, chunk, g)) →
      Kept split ended came ((l.setSlot (item, chunk) (.ready result)).ready now item chunk) ∧
        ((l.setSlot (item, chunk) (.ready result)).ready now item chunk).pending = [] :=
          fun helse =>
    Kept.ready (l := l.setSlot (item, chunk) (.ready result))
      ⟨K.reached, T, K.streams.done result helse, O, K.voices⟩ hp item chunk
  unfold Loop.arrived
  split
  next i c gen ho =>
    have ho' : l.opened = some (i, c, gen) := ho
    split
    next heq =>
      obtain ⟨rfl, rfl⟩ := heq
      have T' : Tracks ended { l.setSlot (i, c) (.ready result) with opened := none } l.reader :=
        T.sameLoop ⟨rfl, rfl, fun _ => Iff.rfl, fun _ h => h, rfl, rfl, rfl⟩
      dsimp only
      split
      next s =>
        have T'' := (T'.sameLoop (.plain (c := .append gen [s]) ⟨rfl, nofun⟩ _)).sameLoop
          (.plain (c := .finish gen) ⟨rfl, nofun⟩ _)
        refine ⟨⟨K.reached, T'', ?_, ?_, K.voices⟩, hp⟩
        · have hone : ([s] : List PcmChunk).length ≤ 1 := Nat.le_refl 1
          have helse : SameElse gen l.output (l.output ++ [.append gen [s]] ++ [.finish gen]) :=
            (sameElse_append gen [s] _).trans (sameElse_finish gen _)
          have haudio : audioOf gen (l.output ++ [.append gen [s]] ++ [.finish gen]) =
              audioOf gen l.output ++ [s] := by
            rw [audioOf_snoc, audioOf_snoc]
            simp [OutputCall.audioOf]
          exact K.streams.done_open result ho' hone helse haudio (by simp)
        · refine K.playing.finish ho' ((sameElse_append gen [s] _).trans (sameElse_finish gen _)) ?_
            (List.mem_append_right _ (List.mem_singleton.mpr rfl))
          show inOutput (l.output ++ [.append gen [s]] ++ [.finish gen]) = inOutput l.output
          rw [inOutput_snoc, inOutput_snoc]
          rfl
      next =>
        have T'' := T'.sameLoop (.plain (c := .finish gen) ⟨rfl, nofun⟩ _)
        refine ⟨⟨K.reached, T'', ?_, ?_, K.voices⟩, hp⟩
        · have hnone : ([] : List PcmChunk).length ≤ 1 := Nat.zero_le 1
          have haudio : audioOf gen (l.output ++ [.finish gen]) = audioOf gen l.output ++ [] := by
            rw [audioOf_snoc]
            simp [OutputCall.audioOf]
          exact K.streams.done_open result ho' hnone (sameElse_finish gen _) haudio (by simp)
        · refine K.playing.finish ho' (sameElse_finish gen _) ?_
            (List.mem_append_right _ (List.mem_singleton.mpr rfl))
          show inOutput (l.output ++ [.finish gen]) = inOutput l.output
          rw [inOutput_snoc]
          rfl
    next hother =>
      refine rest fun g hg => hother ?_
      obtain ⟨rfl, rfl, -⟩ : i = item ∧ c = chunk ∧ gen = g := by simpa using ho'.symm.trans hg
      exact ⟨rfl, rfl⟩
  next ho =>
    refine rest fun g hg => ?_
    have hnone : l.opened = none := ho
    rw [hnone] at hg
    cases hg

/-- The end of a synthesis fills its slot and goes on. -/
theorem Kept.chunkDone (K : Kept split ended came l) (hp : l.pending = []) (item : ItemId)
    (chunk : Nat) (result : Except String (List PcmChunk)) :
    Kept split ended came (l.chunkDone now item chunk result) ∧
      (l.chunkDone now item chunk result).pending = [] := by
  unfold Loop.chunkDone
  split
  · exact ⟨K, hp⟩
  next hcoming =>
    have hne : l.audio (item, chunk) ≠ none := by
      intro hnone
      rw [hnone] at hcoming
      exact hcoming rfl
    dsimp only
    have K' : ∀ told, Kept split ended came
        { l with pauseAfter := l.pauseAfter.erase (item, chunk), told := told } := fun told =>
      K.frame rfl rfl rfl (fun _ h => Finset.mem_of_mem_erase h) rfl rfl rfl rfl
    split
    · exact Kept.arrived (K' _) hp hne _ _
    · exact Kept.arrived (l := { l with pauseAfter := l.pauseAfter.erase (item, chunk) })
        (K.frame rfl rfl rfl (fun _ h => Finset.mem_of_mem_erase h) rfl rfl rfl rfl) hp hne _ _

/-! ## Messages -/

/-- The event says that the output is done with its chunk. -/
def Ends : AudioEvent → Prop
  | .chunkStarted _ => False
  | .chunkFinished _ | .failed _ _ => True

/-- What the output reports about a chunk it was given. -/
theorem Tracks.report {e : AudioEvent} (T : Tracks ended l r) (hp : l.pending = [])
    (hg : e.gen ∈ given l.output) :
    Tracks (fun g => ended g ∨ Ends e ∧ e.gen = g) l (r.enter (.onAudio e)) := by
  have past : ∀ g, ended g ∨ Ends e ∧ e.gen = g → g ∈ given l.output := by
    rintro g (he | ⟨-, rfl⟩)
    · exact T.past g he
    · exact hg
  have B : Books (fun g => ended g ∨ Ends e ∧ e.gen = g) l r :=
    ⟨T.bound, T.loadedBound, past, T.pending, T.audio, T.pauseAfter, T.missed⟩
  by_cases hl : r.loaded = some e.gen
  · have henter : r.enter (.onAudio e) = r.hear e := if_pos hl
    rw [henter]
    -- the output had the loaded chunk, so nothing waits
    have hwait : l.waiting = none := by
      cases hw : l.waiting with
      | none => rfl
      | some w =>
        have W := T.waits w hw
        have heq : e.gen = w.gen := Option.some.inj (hl.symm.trans W.loaded)
        exact absurd hg (heq ▸ W.fresh)
    have done : Ends e → ∀ g, inOutput l.output = some g → ended g ∨ Ends e ∧ e.gen = g := by
      intro hends g hin
      by_cases he : ended g
      · exact .inl he
      · exact .inr ⟨hends, Option.some.inj (hl.symm.trans (T.holds g hin he))⟩
    cases e with
    | chunkStarted g =>
      have hsame : (fun g' => ended g' ∨ Ends (.chunkStarted g) ∧ AudioEvent.gen
        (.chunkStarted g) = g')
          = ended := by
        funext g'
        exact propext ⟨fun h => h.elim id (fun h => h.1.elim), .inl⟩
      rw [hsame]
      refine T.sameReader ⟨rfl, rfl, rfl, fun cur hcur => ?_⟩
      refine ⟨{ cur with playedAny := true }, ?_, rfl, rfl⟩
      show r.current.map _ = _
      rw [hcur]
      rfl
    | chunkFinished g =>
      exact Books.idle ⟨B.bound, fun _ h => (nomatch h), B.past, B.pending, B.audio, B.pauseAfter,
        B.missed⟩ rfl hwait (done trivial)
    | failed g reason =>
      exact Books.idle ⟨B.bound, fun _ h => (nomatch h), B.past, B.pending, B.audio, B.pauseAfter,
        B.missed⟩ rfl hwait (done trivial)
  · have henter : r.enter (.onAudio e) = r := if_neg hl
    rw [henter]
    refine ⟨B, T.waits, fun g hin hne => T.holds g hin (fun he => hne (.inl he)), fun g hload => ?_⟩
    rcases T.owed g hload with hw | ⟨hin, hne⟩ | ⟨e', he', -⟩
    · exact .inl hw
    · refine .inr (.inl ⟨hin, ?_⟩)
      rintro (he | ⟨-, rfl⟩)
      · exact hne he
      · exact hl hload
    · rw [hp] at he'
      cases he'

/-- A report of the output ends its chunk, and the reader goes on. -/
theorem Kept.report {e : AudioEvent} (K : Kept split ended came l) (hp : l.pending = [])
    (hg : e.gen ∈ given l.output) :
    Kept split (fun g => ended g ∨ Ends e ∧ e.gen = g) came (l.carry now (l.reader.onAudio e)) ∧
      (l.carry now (l.reader.onAudio e)).pending = [] := by
  refine follows_run ?_
  have F := K.withReader (l.reader.onAudio e).r
  obtain ⟨is, hr⟩ := F.reached
  have T := F.tracks.report hp hg
  have S := F.streams
  have O := F.playing.hear e (fun g he => Or.inl (b := Ends e ∧ e.gen = g) he)
  have V := F.voices
  show Follows split _ came (Loop.applyAll now { l with reader := (l.reader.onAudio e).r }
    (l.reader.onAudio e).fx) (l.reader.onAudio e).r
  rw [hr] at T S O V ⊢
  exact follows_call (.onAudio e) T S O (fun n hv => .inl (V n hv))

/-- `speak` registers the item's voice before its effects run. -/
theorem Kept.speak (K : Kept split ended came l) (registry : Registry) (text : Text)
    (mode : QueueMode) (interrupt : Bool) (label : Option String) (voice : Option ItemVoice) :
    Kept split ended came (l.speak split registry now text mode interrupt label voice) ∧
      (l.speak split registry now text mode interrupt label voice).pending = [] := by
  have hid : (l.reader.speak split text mode interrupt label).1 = l.reader.nextId := by
    unfold Reader.speak
    dsimp only
    split <;> rfl
  have hnext : (l.reader.call split (.speak text mode interrupt label)).r.nextId =
      l.reader.nextId + 1 := by
    rcases call_handsOut split l.reader (.speak text mode interrupt label) with ⟨hh, -⟩ | ⟨-, hn⟩
    · cases hh
    · exact hn
  -- the loop with any voice for the new id
  have key : ∀ itemVoices : ItemId → Option (Engine × String),
      (∀ n, itemVoices n ≠ none → n ∈ l.reader.ids ∨ n = l.reader.nextId) →
      Kept split ended came ({ l with itemVoices := itemVoices }.carry now
          (l.reader.speak split text mode interrupt label).2) ∧
        ({ l with itemVoices := itemVoices }.carry now
          (l.reader.speak split text mode interrupt label).2).pending = [] := by
    intro itemVoices hv
    refine follows_run ?_
    obtain ⟨is, hr⟩ := K.reached
    have F := K.withReader (l.reader.speak split text mode interrupt label).2.r
    have T := F.tracks
    have S := F.streams
    have O := F.playing
    have hfollow : Follows split ended came
        (Loop.applyAll now
          { l with
            itemVoices := itemVoices
            reader := (l.reader.speak split text mode interrupt label).2.r }
          (l.reader.call split (.speak text mode interrupt label)).fx)
        (l.reader.call split (.speak text mode interrupt label)).r := by
      rw [hr] at T S O hv hnext ⊢
      refine follows_call (.speak text mode interrupt label) ?_ ?_ (O.frame rfl rfl)
        (fun n hn => ?_)
      · exact T.sameLoop ⟨rfl, rfl, fun _ => Iff.rfl, fun _ h => h, rfl, rfl, rfl⟩
      · exact S.congr (sameStream_refl _) rfl (.inl rfl)
      · rcases hv n hn with hm | rfl
        · exact .inl hm
        · exact .inr ⟨Nat.le_refl _, by rw [hnext]; exact Nat.lt_succ_self _⟩
    exact hfollow
  unfold Loop.speak
  dsimp only
  split
  next pick _ =>
    refine key _ fun n hn => ?_
    rw [hid] at hn
    by_cases hne : n = l.reader.nextId
    · exact .inr hne
    · rw [Function.update_of_ne hne] at hn
      exact .inl (K.voices n hn)
  next => exact key _ fun n hn => .inl (K.voices n hn)

end

/-- The pieces a turn takes in: of a chunk that is still being made. -/
def Loop.takes (l : Loop) (t : Turn) : List ((ItemId × Nat) × PcmChunk) :=
  match t.msg with
  | some (.synthesized (.part item chunk pcm)) =>
    if (l.audio (item, chunk)).any Slot.coming then [((item, chunk), pcm)] else []
  | _ => []

/-- The turn reports that the output is done with the chunk of `g`. -/
def Turn.Reports (t : Turn) (g : Nat) : Prop := ∃ e, t.msg = some (.audio e) ∧ Ends e ∧ e.gen = g

/-- An audio event is about a chunk the output was given. -/
def Turn.Fits (l : Loop) (t : Turn) : Prop := ∀ e, t.msg = some (.audio e) → e.gen ∈ given l.output

/-- The pieces of chunk `p` among those taken in. -/
def piecesOf (p : ItemId × Nat) (taken : List ((ItemId × Nat) × PcmChunk)) : List PcmChunk :=
  taken.filterMap fun x => if x.1 = p then some x.2 else none

section

variable (split : Chunking → Text → List Text) {ended : Nat → Prop}
  {came : ItemId × Nat → List PcmChunk} {l : Loop}

theorem Kept.readVolume {split : Chunking → Text → List Text} (K : Kept split ended came l) :
    Kept split ended came l.readVolume :=
  K.frame rfl rfl rfl (fun _ h => h) rfl rfl rfl rfl

theorem Kept.ask {split : Chunking → Text → List Text} (K : Kept split ended came l)
    (hp : l.pending = []) (c : SynthCall) :
    Kept split ended came (l.ask c) ∧ (l.ask c).pending = [] :=
  ⟨K.frame rfl rfl rfl (fun _ h => h) rfl rfl rfl rfl, hp⟩

/-- **One message keeps the account.** -/
theorem Kept.handled (K : Kept split ended came l) (hp : l.pending = []) (t : Turn)
    (fits : t.Fits l) :
    Kept split (fun g => ended g ∨ t.Reports g) (fun p => came p ++ piecesOf p (l.takes t))
        (l.handled split t) ∧ (l.handled split t).pending = [] := by
  -- a message that is neither a piece nor the end of a chunk
  have plain : (∀ e, t.msg ≠ some (.audio e)) → l.takes t = [] →
      (Kept split ended came (l.handled split t) ∧ (l.handled split t).pending = []) →
      Kept split (fun g => ended g ∨ t.Reports g) (fun p => came p ++ piecesOf p (l.takes t))
        (l.handled split t) ∧ (l.handled split t).pending = [] := by
    intro hno htakes hk
    have hended : (fun g => ended g ∨ t.Reports g) = ended := by
      funext g
      refine propext ⟨fun h => h.resolve_right ?_, .inl⟩
      rintro ⟨e, he, -⟩
      exact hno e he
    have hcame : (fun p => came p ++ piecesOf p (l.takes t)) = came := by
      funext p
      rw [htakes]
      exact List.append_nil _
    rw [hended, hcame]
    exact hk
  obtain ⟨msg, now, later, registry⟩ := t
  cases msg with
  | none => exact plain (by simp) rfl ⟨K, hp⟩
  | some m =>
    cases m with
    | speak text mode interrupt label voice =>
      exact plain (by simp) rfl (K.speak registry text mode interrupt label voice)
    | control c => exact plain (by simp) rfl (K.carry (.control c) rfl)
    | set key value =>
      refine plain (by simp) rfl ?_
      cases hs : l.set registry now key value with
      | ok l' =>
        simp only [Loop.handled, Loop.handle, hs]
        exact K.set hp hs
      | error e =>
        simp only [Loop.handled, Loop.handle, hs]
        exact ⟨K, hp⟩
    | query => exact plain (by simp) rfl ⟨K, hp⟩
    | clip samples sampleRate =>
      exact plain (by simp) rfl
        ⟨K.aside (.playClip samples sampleRate) trivial (by simp), hp⟩
    | holdStart till =>
      exact plain (by simp) rfl
        ⟨K.frame rfl rfl rfl (fun _ h => h) rfl rfl rfl rfl, hp⟩
    | code code =>
      refine plain (by simp) rfl ?_
      have K' : Kept split ended came { l with code := code } :=
        K.frame rfl rfl rfl (fun _ h => h) rfl rfl rfl rfl
      exact K'.carry (.setCodeStep code.step) rfl
    | audio e =>
      have hended : (fun g => ended g ∨ Turn.Reports ⟨some (.audio e), now, later, registry⟩ g) =
          fun g => ended g ∨ Ends e ∧ e.gen = g := by
        funext g
        refine propext (or_congr_right ⟨?_, fun h => ⟨e, rfl, h⟩⟩)
        rintro ⟨e', he', h⟩
        obtain rfl : e = e' := by simpa using he'
        exact h
      have hcame : (fun p => came p ++ piecesOf p
          (l.takes ⟨some (.audio e), now, later, registry⟩)) = came := by
        funext p
        exact List.append_nil _
      rw [hended, hcame]
      exact K.report hp (fits e rfl)
    | synthesized done =>
      cases done with
      | part item chunk pcm =>
        have hk := @Kept.part split ended came l now K hp item chunk pcm
        have hended : (fun g => ended g ∨
            Turn.Reports ⟨some (.synthesized (.part item chunk pcm)), now, later, registry⟩ g) =
            ended := by
          funext g
          refine propext ⟨fun h => h.resolve_right ?_, .inl⟩
          rintro ⟨e, he, -⟩
          cases he
        have hcame : (fun p => came p ++ piecesOf p
            (l.takes ⟨some (.synthesized (.part item chunk pcm)), now, later, registry⟩)) =
            if (l.audio (item, chunk)).any Slot.coming then takeIn came
              (item, chunk) pcm else came := by
          funext p
          show came p ++ piecesOf p
            (if (l.audio (item, chunk)).any Slot.coming then [((item, chunk), pcm)] else []) = _
          split
          · by_cases hpe : p = (item, chunk)
            · rw [takeIn, hpe, Function.update_self]
              simp [piecesOf]
            · rw [takeIn, Function.update_of_ne hpe]
              simp [piecesOf, Ne.symm hpe]
          · exact List.append_nil _
        rw [hended, hcame]
        exact hk
      | chunk item chunk engine result =>
        exact plain (by simp) rfl (K.chunkDone hp item chunk result)
      | warmFailed engine message error =>
        exact plain (by simp) rfl
          ⟨K.frame rfl rfl rfl (fun _ h => h) rfl rfl rfl rfl, hp⟩
    | shutdown =>
      refine plain (by simp) rfl ?_
      obtain ⟨Kc, hc⟩ := K.carry (.control .stop) rfl
      have Kc' : Kept split ended came (l.carry now (l.reader.control .stop)) := Kc
      have hc' : (l.carry now (l.reader.control .stop)).pending = [] := hc
      show Kept split ended came ((l.carry now (l.reader.control .stop)).ask .shutdown) ∧
        ((l.carry now (l.reader.control .stop)).ask .shutdown).pending = []
      exact Kc'.ask hc' .shutdown

/-- The worker starts with nothing to account for. -/
theorem kept_init (s : Start) :
    Kept split (fun _ => False) (fun _ => []) (Loop.init s) ∧ (Loop.init s).pending = [] := by
  have hnew : Kept split (fun _ => False) (fun _ => []) (Loop.new s.engine) := by
    refine ⟨⟨[], rfl⟩, Books.idle ⟨fun g hg => absurd hg List.not_mem_nil, fun g hg => (nomatch hg),
      fun _ h => h.elim, fun e he => absurd he List.not_mem_nil, fun p => ?_, fun p hp => ?_, rfl⟩
      rfl rfl (fun g hg => (nomatch hg)), ?_, keepsOpen_idle (fun g hg => (nomatch hg)),
      fun n hn => absurd rfl hn⟩
    · exact ⟨fun h => absurd rfl h, fun h => absurd h (Finset.notMem_empty p)⟩
    · exact absurd hp (Finset.notMem_empty p)
    · exact ⟨fun p parts h => (nomatch h), fun p h => (nomatch h), fun p h => absurd rfl h,
        fun g pcm h => absurd h List.not_mem_nil, fun g h => absurd h List.not_mem_nil,
        fun i k g h => (nomatch h), fun pcm i k g h => absurd h List.not_mem_nil⟩
  have tell : ∀ (m : Loop) (f : Reader → Call) (i : Input), (∀ r, f r = r.call split i) →
      (∀ r : Reader, r.enter i = r) → Kept split (fun _ => False) (fun _ => []) m →
      Kept split (fun _ => False) (fun _ => []) (m.tell s.now f) ∧
        (m.tell s.now f).pending = [] := by
    intro m f i hf hq K
    rw [Loop.tell, hf]
    exact K.carry i (hq _)
  have hvoice := (tell _ (·.setVoice s.voice) (.setVoice s.voice) (fun _ => rfl)
    (fun _ => rfl) hnew).1
  have hrate := (tell _ (·.setRate s.rate) (.setRate s.rate) (fun _ => rfl) (fun _ => rfl) hvoice).1
  have hread := hrate.readVolume
  have hset := (tell _ (·.setVolume s.volume) (.setVolume s.volume) (fun _ => rfl)
    (fun _ => rfl) hread).1
  have hahead := (tell _ (·.setLookahead s.engine.lookahead) (.setLookahead s.engine.lookahead)
    (fun _ => rfl) (fun _ => rfl) hset).1
  obtain ⟨K, hp⟩ := tell _ (·.setChunking (chunking s.engine)) (.setChunking (chunking s.engine))
    (fun _ => rfl) (fun _ => rfl) hahead
  exact K.ask hp _

/-! ## Runs -/

/-- The gens whose end the output reported in a run. -/
def Ended (ts : List Turn) (g : Nat) : Prop := ∃ t ∈ ts, t.Reports g

/-- The pieces of chunk `p` the worker took in during a run. -/
def cameIn (s : Start) (ts : List Turn) (p : ItemId × Nat) : List PcmChunk :=
  piecesOf p (((machine split s).observe Loop.takes).out ts)

theorem ended_snoc (ts : List Turn) (t : Turn) :
    Ended (ts ++ [t]) = fun g => Ended ts g ∨ t.Reports g := by
  funext g
  refine propext ⟨?_, ?_⟩
  · rintro ⟨u, hu, hr⟩
    rcases List.mem_append.mp hu with hu | hu
    · exact .inl ⟨u, hu, hr⟩
    · exact .inr (List.mem_singleton.mp hu ▸ hr)
  · rintro (⟨u, hu, hr⟩ | hr)
    · exact ⟨u, List.mem_append_left _ hu, hr⟩
    · exact ⟨t, List.mem_append_right _ (List.mem_singleton.mpr rfl), hr⟩

theorem cameIn_snoc (s : Start) (ts : List Turn) (t : Turn) :
    cameIn split s (ts ++ [t]) = fun p =>
      cameIn split s ts p ++ piecesOf p (((machine split s).state ts).takes t) := by
  funext p
  rw [cameIn, Lib.Machine.observe_out_snoc, piecesOf, List.filterMap_append]
  rfl

theorem Prompt.tell {l : Loop} (h : Prompt l) (now : Nat) (f : Reader → Call) :
    Prompt (l.tell now f) :=
  h.carry _

theorem Prompt.readVolume {l : Loop} (h : Prompt l) : Prompt l.readVolume := h.congr rfl rfl rfl id

theorem Prompt.ask {l : Loop} (h : Prompt l) (c : SynthCall) : Prompt (l.ask c) :=
  h.congr rfl rfl rfl id

theorem prompt_init (s : Start) : Prompt (Loop.init s) := by
  have hnew : Prompt (Loop.new s.engine) := .idle rfl
  have hread := ((hnew.tell s.now (·.setVoice s.voice)).tell s.now (·.setRate s.rate)).readVolume
  exact (((hread.tell s.now (·.setVolume s.volume)).tell s.now
    (·.setLookahead s.engine.lookahead)).tell s.now (·.setChunking (chunking s.engine))).ask _

/-- **Every run keeps the account.** -/
theorem run_kept (s : Start) (ts : List Turn)
    (fits : (machine split s).All (fun l t => t.Fits l) ts) :
    Kept split (Ended ts) (cameIn split s ts) ((machine split s).state ts) ∧
      ((machine split s).state ts).pending = [] ∧ Prompt ((machine split s).state ts) := by
  refine (machine split s).run_induction_of
    (P := fun ts l _ => Kept split (Ended ts) (cameIn split s ts) l ∧ l.pending = [] ∧ Prompt l)
    ?_ ?_ ts fits
  · obtain ⟨K, hp⟩ := kept_init split s
    have hended : Ended [] = fun _ => False := by
      funext g
      exact propext ⟨fun ⟨t, ht, _⟩ => absurd ht List.not_mem_nil, False.elim⟩
    rw [hended]
    exact ⟨K, hp, prompt_init s⟩
  · rintro ts t hfits ⟨K, hp, P⟩
    obtain ⟨K', hp'⟩ := K.handled split hp t hfits
    rw [ended_snoc, cameIn_snoc]
    obtain ⟨K'', hp''⟩ := K'.releaseHold hp'
    exact ⟨K'', hp'', P.turn t⟩

/-! ## The hand-over -/

/-- What holds of the loop after every message, `ended` being the gens whose end the
output reported and `came p` the pieces of chunk `p` the worker took in. -/
structure HandOver (ended : Nat → Prop) (came : ItemId × Nat → List PcmChunk) (l : Loop) :
    Prop where
  /-- The loaded chunk waits, or it is in the output: the one or the other. -/
  loaded : ∀ g, l.reader.loaded = some g ↔
    Xor (∃ w, l.waiting = some w ∧ w.gen = g) (inOutput l.output = some g ∧ ¬ended g)
  /-- A chunk given to the output while it was being made got every piece so far, in
  order, as long as it is open; got them all before its `finish`, then at most the pause
  after a code line; and was left at a piece only when the output does not play it any
  more. -/
  streamed : ∀ pcm i k g, .playOpen pcm i k g ∈ l.output →
    (l.opened = some (i, k, g) ∧ audioOf g l.output = came (i, k)) ∨
      (.finish g ∈ l.output ∧ ∃ silence : List PcmChunk,
        silence.length ≤ 1 ∧ audioOf g l.output = came (i, k) ++ silence) ∨
      (.finish g ∉ l.output ∧ audioOf g l.output <+: came (i, k) ∧
        (inOutput l.output = some g → ended g))
  /-- `load` never found a chunk that was not synthesized. -/
  synthesized : l.missed = []
  audio : ∀ p, l.audio p ≠ none → p.1 ∈ l.reader.ids
  pauseAfter : ∀ p ∈ l.pauseAfter, p.1 ∈ l.reader.ids
  itemVoices : ∀ n, l.itemVoices n ≠ none → n ∈ l.reader.ids

/-- The invariant gives the hand-over. -/
theorem Kept.handOver {ended : Nat → Prop} {came : ItemId × Nat → List PcmChunk} {l : Loop}
    (K : Kept split ended came l) (hp : l.pending = []) : HandOver ended came l := by
  have slot : ∀ p, p ∈ l.reader.requested → p.1 ∈ l.reader.ids := fun p hr =>
    (K.slot ((K.tracks.audio p).mpr hr)).2.1
  -- what waits is not in the output
  have apart : ∀ g, (∃ w, l.waiting = some w ∧ w.gen = g) →
      ¬(inOutput l.output = some g ∧ ¬ended g) := by
    rintro g ⟨w, hw, rfl⟩ ⟨hin, -⟩
    exact (K.tracks.waits w hw).fresh (given_of_inOutput hin)
  refine ⟨fun g => ⟨fun hl => ?_, ?_⟩, fun pcm i k g hm => ?_, K.tracks.missed,
    fun p h => (K.slot h).2.1, fun p h => slot p (K.tracks.pauseAfter p h), K.voices⟩
  · rcases K.tracks.owed g hl with hw | hin | ⟨e, he, -⟩
    · exact .inl ⟨hw, apart g hw⟩
    · exact .inr ⟨hin, fun hw => apart g hw hin⟩
    · rw [hp] at he
      cases he
  · rintro (⟨⟨w, hw, rfl⟩, -⟩ | ⟨⟨hin, hne⟩, -⟩)
    · exact (K.tracks.waits w hw).loaded
    · exact K.tracks.holds g hin hne
  · rcases K.streams.started pcm i k g hm with ho | C
    · exact .inl ⟨ho, (K.streams.opened i k g ho).audio⟩
    · by_cases hf : .finish g ∈ l.output
      · exact .inr (.inl ⟨hf, (C.finished hf).1⟩)
      · by_cases hin : inOutput l.output = some g ∧ ¬ended g
        · -- the output still plays it, so it is open
          have ho := (K.playing.still pcm i k g hm hin.1 hin.2).opened.resolve_right hf
          exact .inl ⟨ho, (K.streams.opened i k g ho).audio⟩
        · exact .inr (.inr ⟨hf, C.left hf, fun hg => not_not.mp fun hne => hin ⟨hg, hne⟩⟩)

end

/-! ### A chunk that streams in -/

section Example

/-- Every text is one chunk. -/
def oneChunk : Chunking → Text → List Text := fun _ t => [t]

def piece (n : Int) : PcmChunk := { samples := [n], sampleRate := 8000, channels := 1 }

end Example

end Sonara.Worker
