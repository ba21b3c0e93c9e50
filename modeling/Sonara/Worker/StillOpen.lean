import Sonara.Worker.Streams

/-!
# What plays as it arrives is kept open

A chunk given to the output while it was being made is played from the pieces the worker
appends. While the output still plays it, the worker may not lose sight of it: it is the
opened chunk, so the next piece is appended, or its `finish` was sent. `KeepsOpen` says so,
and that the reader still reads its item, which is why the end of another item leaves the
opened chunk alone.
-/

namespace Sonara.Worker

open Sonara (Text)
open Sonara.L1

/-- The worker still hands chunk `(i, k)` over under gen `g`, or it handed all of it over. -/
structure StillOpen (l : Loop) (r : Reader) (i : ItemId) (k g : Nat) : Prop where
  opened : l.opened = some (i, k, g) ∨ .finish g ∈ l.output
  current : ∃ cur, r.current = some cur ∧ cur.item.id = i

/-- Whatever was given as it arrived and is what the output plays is still open. -/
structure KeepsOpen (ended : Nat → Prop) (l : Loop) (r : Reader) : Prop where
  still : ∀ pcm i k g, .playOpen pcm i k g ∈ l.output → inOutput l.output = some g → ¬ended g →
    StillOpen l r i k g

variable {ended : Nat → Prop} {l l' : Loop} {r r' : Reader} {now : Nat}

/-- The output plays nothing, so there is nothing to keep open. -/
theorem keepsOpen_idle (done : ∀ g, inOutput l.output = some g → ended g) :
    KeepsOpen ended l r :=
  ⟨fun _ _ _ g _ hg hne => absurd (done g hg) hne⟩

/-- A step that opens nothing in the output and drops the opened chunk only with its
`finish`. -/
theorem KeepsOpen.step (O : KeepsOpen ended l r)
    (started : ∀ pcm i k g, .playOpen pcm i k g ∈ l'.output → .playOpen pcm i k g ∈ l.output)
    (held : inOutput l'.output = inOutput l.output)
    (finished : ∀ g, .finish g ∈ l.output → .finish g ∈ l'.output)
    (opened : ∀ i k g, l.opened = some (i, k, g) → (∃ cur, r.current = some cur ∧ cur.item.id = i) →
      l'.opened = some (i, k, g) ∨ .finish g ∈ l'.output)
    (current : ∀ cur, r.current = some cur →
      ∃ cur', r'.current = some cur' ∧ cur'.item.id = cur.item.id) :
    KeepsOpen ended l' r' := by
  refine ⟨fun pcm i k g hm hin hne => ?_⟩
  obtain ⟨hopen, cur, hc, hid⟩ := O.still pcm i k g (started pcm i k g hm) (held ▸ hin) hne
  obtain ⟨cur', hc', hid'⟩ := current cur hc
  refine ⟨?_, cur', hc', hid'.trans hid⟩
  rcases hopen with ho | hf
  · exact opened i k g ho ⟨cur, hc, hid⟩
  · exact .inr (finished g hf)

/-- The log of the output and the opened chunk are as they were. -/
theorem KeepsOpen.same (O : KeepsOpen ended l r) (output : l'.output = l.output)
    (opened : l'.opened = l.opened)
    (current : ∀ cur, r.current = some cur →
      ∃ cur', r'.current = some cur' ∧ cur'.item.id = cur.item.id) :
    KeepsOpen ended l' r' :=
  O.step (fun _ _ _ _ h => output ▸ h) (by rw [output]) (fun _ h => output.symm ▸ h)
    (fun _ _ _ h _ => .inl (opened.trans h)) current

theorem KeepsOpen.frame (O : KeepsOpen ended l r) (output : l'.output = l.output)
    (opened : l'.opened = l.opened) : KeepsOpen ended l' r :=
  O.same output opened (fun cur hc => ⟨cur, hc, rfl⟩)

/-- One more call of the output, which starts no chunk. -/
theorem KeepsOpen.plain {c : OutputCall} (O : KeepsOpen ended l r) (h : c.Plain) :
    KeepsOpen ended (l.call c) r := by
  refine O.step (fun pcm i k g hm => ?_) (h.inOutput _) (fun g hf => List.mem_append_left _ hf)
    (fun _ _ _ ho _ => .inl ho) (fun cur hc => ⟨cur, hc, rfl⟩)
  refine (List.mem_append.mp hm).resolve_right (fun heq => ?_)
  have hc : c.loads? = none := h.1
  rw [← List.mem_singleton.mp heq] at hc
  cases hc

/-- The chunk that played as it arrived is finished. -/
theorem KeepsOpen.finish {i : ItemId} {k gen : Nat} (O : KeepsOpen ended l r)
    (playing : l.opened = some (i, k, gen)) (els : SameElse gen l.output l'.output)
    (held : inOutput l'.output = inOutput l.output) (finished : .finish gen ∈ l'.output) :
    KeepsOpen ended l' r := by
  refine O.step (fun pcm i' k' g h => (els.started pcm i' k' g).mp h) held (fun g hf => ?_)
    (fun i' k' g ho _ => ?_) (fun cur hc => ⟨cur, hc, rfl⟩)
  · by_cases hg : g = gen
    · exact hg ▸ finished
    · exact (els.finished g hg).mpr hf
  · obtain ⟨-, -, rfl⟩ : i = i' ∧ k = k' ∧ gen = g := by simpa using playing.symm.trans ho
    exact .inr finished

/-- The output ended more gens, and the reader heard of it. -/
theorem KeepsOpen.hear {ended' : Nat → Prop} (O : KeepsOpen ended l r) (e : AudioEvent)
    (more : ∀ g, ended g → ended' g) : KeepsOpen ended' l (r.enter (.onAudio e)) := by
  have O' : KeepsOpen ended' l r :=
    ⟨fun pcm i k g hm hin hne => O.still pcm i k g hm hin (fun he => hne (more g he))⟩
  refine O'.same rfl rfl (fun cur hc => ?_)
  have hmark : r.markPlayed.current = some { cur with playedAny := true } := by
    show r.current.map _ = _
    rw [hc]
    rfl
  by_cases hl : r.loaded = some e.gen
  · have henter : r.enter (.onAudio e) = r.hear e := if_pos hl
    rw [henter]
    cases e with
    | chunkStarted g => exact ⟨_, hmark, rfl⟩
    | chunkFinished g => exact ⟨_, hmark, rfl⟩
    | failed g reason => exact ⟨cur, hc, rfl⟩
  · have henter : r.enter (.onAudio e) = r := if_neg hl
    rw [henter]
    exact ⟨cur, hc, rfl⟩

/-- **A load opens what it hands over.** -/
theorem keepsOpen_load {item : ItemId} {chunk gen : Nat}
    (done : ∀ g, inOutput l.output = some g → ended g) (fresh : gen ∉ given l.output)
    (current : ∃ cur, r.current = some cur ∧ cur.item.id = item) :
    KeepsOpen ended (l.load now item chunk gen) r := by
  have hload := l.loaded now item chunk gen
  generalize l.load now item chunk gen = l' at hload
  -- what was given before was given under another gen
  have old : ∀ pcm i k g, .playOpen pcm i k g ∈ l.output → g ≠ gen := by
    rintro pcm i k g hm rfl
    exact fresh (List.mem_filterMap.mpr ⟨_, hm, rfl⟩)
  have holds : ∀ c : OutputCall, c.loads? = some gen → ∀ g,
      inOutput (l.output ++ [c]) = some g → g = gen := by
    intro c hc g hg
    rw [inOutput_snoc] at hg
    cases c with
    | play | playOpen => exact (Option.some.inj hg).symm.trans (Option.some.inj hc)
    | _ => cases hc
  cases hload with
  | parked => exact keepsOpen_idle done
  | played hold pcm' =>
    refine ⟨fun pcm i k g hm hin _ => ?_⟩
    rcases List.mem_append.mp hm with hm | hm
    · exact absurd (holds _ rfl g hin) (old pcm i k g hm)
    · cases List.mem_singleton.mp hm
  | streamed hold pcm' =>
    refine ⟨fun pcm i k g hm hin _ => ?_⟩
    rcases List.mem_append.mp hm with hm | hm
    · exact absurd (holds _ rfl g hin) (old pcm i k g hm)
    · cases List.mem_singleton.mp hm
      exact ⟨.inl rfl, current⟩
  | failed => exact keepsOpen_idle done
  | missing => exact keepsOpen_idle done

/-- Load the chunk that waits. -/
theorem Tracks.reloadOpen {w : Waiting} (T : Tracks ended l r) (hw : l.waiting = some w) :
    KeepsOpen ended ({ l with waiting := none }.load now w.item w.chunk w.gen) r := by
  have W := T.waits w hw
  obtain ⟨cur, hc, hid, -⟩ := W.current
  have hdone := T.waitingDone hw
  exact keepsOpen_load (l := { l with waiting := none }) hdone W.fresh ⟨cur, hc, hid⟩

/-- Another item ends. -/
theorem KeepsOpen.forgetOther {n : ItemId} {phase : ItemPhase} (O : KeepsOpen ended l r)
    (final : phase.Final) (current : r'.current = r.current)
    (other : ∀ cur, r.current = some cur → cur.item.id ≠ n) :
    KeepsOpen ended (Loop.apply now l (.emit (.item n phase))) r' := by
  have hne : phase ≠ .started := by
    intro h
    rw [h] at final
    exact final
  rw [Loop.apply, if_neg hne]
  refine O.step (fun _ _ _ _ h => h) rfl (fun _ h => h) (fun i k g ho hcur => .inl ?_)
    (fun cur hc => ⟨cur, current.trans hc, rfl⟩)
  obtain ⟨cur, hc, hid⟩ := hcur
  have hi : i ≠ n := hid ▸ other cur hc
  show l.opened.filter (fun (o : ItemId × Nat × Nat) => o.1 ≠ n) = some (i, k, g)
  rw [ho]
  simp [hi]

/-- Silent effects leave an open chunk open. -/
theorem KeepsOpen.silents {es : List Effect} (O : KeepsOpen ended l r)
    (hs : ∀ e ∈ es, e.Silent) : KeepsOpen ended (l.applyAll now es) r := by
  induction es generalizing l with
  | nil => exact O
  | cons e es ih =>
    refine ih (l := Loop.apply now l e) ?_ (fun e' he' => hs e' (List.mem_cons_of_mem _ he'))
    have he := hs e (List.mem_cons_self ..)
    cases e with
    | mute =>
      have O' : KeepsOpen ended { l with muted := true } r := O.frame rfl rfl
      exact O'.plain (OutputCall.plain_setVolume 0)
    | unmute =>
      have O' : KeepsOpen ended { l with muted := false } r := O.frame rfl rfl
      exact O'.plain (OutputCall.plain_setVolume l.volume)
    | setVolume v =>
      rw [Loop.apply]
      dsimp only
      have O' : KeepsOpen ended { l with volume := v } r := O.frame rfl rfl
      split
      · exact O'.plain (OutputCall.plain_setVolume v)
      · exact O'
    | emit ev =>
      cases ev with
      | state s => exact O.frame rfl rfl
      | item id phase => exact he.elim
    | _ => exact he.elim

variable {fin : Current → ItemPhase → Prop} {c c' : Call} {h : List Effect}

/-- **Every atom's effects keep the playing chunk open.** -/
theorem Atom.keepsOpen (a : Atom fin c c') (L : Ledger c.r (h ++ c.fx))
    (T : Tracks ended (l.applyAll now c.fx) c.r)
    (O : KeepsOpen ended (l.applyAll now c.fx) c.r) :
    KeepsOpen ended (l.applyAll now c'.fx) c'.r := by
  have one : ∀ e : Effect, ∀ r' : Reader,
      KeepsOpen ended (Loop.apply now (l.applyAll now c.fx) e) r' →
      KeepsOpen ended (l.applyAll now (c.fx ++ [e])) r' := by
    intro e r' ht
    rw [Loop.applyAll_append]
    exact ht
  generalize hm : l.applyAll now c.fx = m at T O one
  have same : ∀ {m' : Loop} {r' : Reader}, m'.output = m.output → m'.opened = m.opened →
      r'.current = c.r.current → KeepsOpen ended m' r' :=
    fun ho hp hc => O.same ho hp (fun cur hcur => ⟨cur, hc.trans hcur, rfl⟩)
  cases a with
  | @view r' es sameCore silent =>
    rw [show l.applyAll now (c.fx ++ es) = m.applyAll now es by rw [Loop.applyAll_append, hm]]
    exact (same rfl rfl sameCore.current).silents silent
  | flag =>
    rw [show l.applyAll now c.fx = m from hm]
    exact same rfl rfl rfl
  | pauseOutput =>
    refine one _ _ ?_
    rw [Loop.apply]
    have O' : KeepsOpen ended m { c.r with paused := true } := same rfl rfl rfl
    split
    · exact same rfl rfl rfl
    · exact O'.plain (c := .pause) ⟨rfl, by simp⟩
  | resumeOutput =>
    refine one _ _ ?_
    rw [Loop.apply]
    have T' : Tracks ended m { c.r with paused := false, stepWait := false } :=
      T.sameReader ⟨rfl, rfl, rfl, fun cur hcur => ⟨cur, hcur, rfl, rfl⟩⟩
    have O' : KeepsOpen ended m { c.r with paused := false, stepWait := false } :=
      same rfl rfl rfl
    split
    next w hw =>
      split
      · exact T'.reloadOpen hw
      · exact same rfl rfl rfl
    next => exact O'.plain (c := .resume) ⟨rfl, by simp⟩
  | stopOutput =>
    refine one _ _ ?_
    rw [Loop.apply]
    dsimp only
    split
    next w hw => exact keepsOpen_idle (T.waitingDone hw)
    next =>
      refine keepsOpen_idle (fun g hg => ?_)
      have hnone : inOutput (m.output ++ [.stop]) = some g := hg
      rw [inOutput_snoc] at hnone
      cases hnone
  | retire quiet unloaded current final =>
    refine one _ _ (keepsOpen_idle fun g hg => ?_)
    rw [(apply_ended m _ final).inOutput] at hg
    exact (T.unloaded unloaded).2 g hg
  | @dropFront it rest queue =>
    refine one _ _ (O.forgetOther trivial rfl (fun cur hcur heq => ?_))
    -- the ids of the live items differ
    have hnd := L.nodup
    rw [Reader.ids, Ledger.live_eq_cons hcur, queue] at hnd
    simp [heq] at hnd
  | refuse =>
    refine one _ _ (O.forgetOther trivial rfl (fun cur hcur heq => ?_))
    have hlive := L.live _ (Ledger.mem_ids_current hcur)
    exact absurd hlive.2 (by rw [heq]; exact Nat.lt_irrefl _)
  | admitBack =>
    rw [show l.applyAll now c.fx = m from hm]
    exact same rfl rfl rfl
  | admitFront =>
    rw [show l.applyAll now c.fx = m from hm]
    exact same rfl rfl rfl
  | start idle unloaded =>
    refine one _ _ (keepsOpen_idle fun g hg => ?_)
    exact (T.unloaded unloaded).2 g hg
  | request =>
    refine one _ _ ?_
    exact same rfl rfl rfl
  | @play cur unloaded unpaused current requested =>
    refine one _ _ ?_
    rw [Loop.apply]
    exact keepsOpen_load (l := { m with waiting := none }) (T.unloaded unloaded).2
      (fun hg => absurd (T.bound _ hg) (Nat.not_succ_le_self _)) ⟨cur, current, rfl⟩
  | moveChunk quiet unloaded current =>
    rw [show l.applyAll now c.fx = m from hm]
    exact keepsOpen_idle (T.unloaded unloaded).2

end Sonara.Worker
