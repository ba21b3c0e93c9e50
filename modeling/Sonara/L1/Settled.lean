import Sonara.L1.Reader

/-!
# The reader between calls: never stuck, never paused with nothing to read

Between two calls the pause flag, the loaded chunk, the step wait and the current
item fit together (`Settled`). Inside a call they need not: `endCurrent` leaves
the queue waiting with no current item, `lineStep` unpauses before it moves. So
each method below is specified by what it *leaves behind* from the states it is
called in, and `call_settled` assembles them.

The frame lemmas come first: `request`, `prefetch` and `finish` touch only
`requested` and `shown`.
-/

namespace Sonara.L1

open Sonara (Text)
open Sonara.CodeSpeech (CodeKind)

/-- The transport fields of a reader between calls. -/
structure Settled (r : Reader) : Prop where
  /-- With no current item nothing waits and nothing is paused. -/
  idle : r.current = none → r.queue = [] ∧ r.paused = false
  /-- A loaded chunk belongs to a current item. -/
  loaded : r.loaded.isSome → r.current.isSome
  /-- A current item that is not paused has a chunk loaded. -/
  playing : r.current.isSome → r.paused = false → r.loaded.isSome
  /-- A step wait is a pause before a chunk is played. -/
  stepWait : r.stepWait = true → r.paused = true ∧ r.loaded = none

theorem Settled.stepWait_current {r : Reader} (h : Settled r) (hw : r.stepWait = true) :
    r.current.isSome := by
  cases hc : r.current with
  | some _ => rfl
  | none =>
    have hp := (h.stepWait hw).1
    rw [(h.idle hc).2] at hp
    cases hp

theorem Settled.paused_current {r : Reader} (h : Settled r) (hp : r.paused = true) :
    r.current.isSome := by
  cases hc : r.current with
  | some _ => rfl
  | none =>
    rw [(h.idle hc).2] at hp
    cases hp

/-- Nothing is loaded with no current item. -/
theorem Settled.unloaded {r : Reader} (h : Settled r) (hc : r.current = none) :
    r.loaded = none := by
  cases hl : r.loaded with
  | none => rfl
  | some g =>
    have hcur := h.loaded (by rw [hl]; rfl)
    rw [hc] at hcur
    cases hcur

/-- The transport fields agree. -/
structure SameTransport (r r' : Reader) : Prop where
  current : r'.current.isSome = r.current.isSome
  queue : r'.queue = r.queue
  paused : r'.paused = r.paused
  loaded : r'.loaded = r.loaded
  stepWait : r'.stepWait = r.stepWait

/-- Settled is about the transport. -/
theorem Settled.congr {r r' : Reader} (h : Settled r) (e : SameTransport r r') : Settled r' := by
  have hnone : r'.current = none → r.current = none := fun hc => by
    have := e.current
    rw [hc] at this
    simpa using this.symm
  refine ⟨fun hc => ?_, fun hl => ?_, fun hc hp => ?_, fun hw => ?_⟩
  · rw [e.queue, e.paused]
    exact h.idle (hnone hc)
  · rw [e.current]
    exact h.loaded (e.loaded ▸ hl)
  · rw [e.loaded]
    exact h.playing (e.current ▸ hc) (e.paused ▸ hp)
  · rw [e.paused, e.loaded]
    exact h.stepWait (e.stepWait ▸ hw)

namespace Call

/-! ## Frames -/

/-- A request only adds to `requested`. -/
theorem request_r (c : Call) (n : ItemId) (i : Nat) (t : Text) :
    (c.request n i t).r = { c.r with requested := insert (n, i) c.r.requested } := by
  unfold request
  split
  next h => rw [Finset.insert_eq_of_mem h]
  next => rfl

theorem requests_r (l : List (ItemId × Nat × Text)) (c : Call) :
    ∃ q, c.r.requested ⊆ q ∧
      (l.foldl (fun c (id, chunk, text) => c.request id chunk text) c).r
        = { c.r with requested := q } := by
  induction l generalizing c with
  | nil => exact ⟨c.r.requested, Finset.Subset.refl _, rfl⟩
  | cons e l ih =>
    obtain ⟨q, hsub, hq⟩ := ih (c.request e.1 e.2.1 e.2.2)
    rw [request_r] at hsub hq
    exact ⟨q, (Finset.subset_insert _ _).trans hsub, hq⟩

/-- `prefetch` only adds to `requested`. -/
theorem prefetch_r (c : Call) :
    ∃ q, c.r.requested ⊆ q ∧ c.prefetch.r = { c.r with requested := q } := by
  unfold prefetch
  split
  · exact requests_r _ c
  · exact ⟨c.r.requested, Finset.Subset.refl _, rfl⟩

/-- `finish` only adds to `requested` and sets `shown`. -/
theorem finish_r (c : Call) :
    ∃ q s, c.r.requested ⊆ q ∧ c.finish.r = { c.r with requested := q, shown := s } := by
  obtain ⟨q, hsub, hq⟩ := c.prefetch_r
  unfold finish
  dsimp only
  split
  · exact ⟨q, _, hsub, by rw [hq]⟩
  · exact ⟨q, c.r.shown, hsub, by rw [hq]⟩

theorem finish_settled {c : Call} (h : Settled c.r) : Settled c.finish.r := by
  obtain ⟨q, s, _, hr⟩ := c.finish_r
  rw [hr]
  exact h.congr ⟨rfl, rfl, rfl, rfl, rfl⟩

/-- `stopOutput` leaves nothing loaded and nothing else changed. -/
theorem stopOutput_r (c : Call) : c.stopOutput.r = { c.r with loaded := none } := by
  unfold stopOutput
  split
  next => rfl
  next h =>
    have hl : c.r.loaded = none := by simpa using h
    show c.r = { c.r with loaded := none }
    rw [← hl]

/-- The reader after `endCurrent`, with a current item. -/
theorem endCurrent_r {c : Call} {cur : Current} (hc : c.r.current = some cur) (phase : ItemPhase) :
    (c.endCurrent phase).r =
      { c.r with
        loaded := none
        current := none
        requested := c.r.requested.filter (fun p => p.1 ≠ cur.item.id)
        last := some cur.item } := by
  have hc' : c.stopOutput.r.current = some cur := by rw [stopOutput_r]; exact hc
  unfold endCurrent
  dsimp only
  rw [hc']
  dsimp only
  unfold forget emitItem push
  dsimp only
  rw [stopOutput_r]

/-- The reader after the queue was dropped. -/
theorem dropAll_r (l : List Item) (c : Call) (hq : c.r.queue = l) :
    ∃ q, (dropAll l c).r = { c.r with queue := [], requested := q } := by
  induction l generalizing c with
  | nil =>
    refine ⟨c.r.requested, ?_⟩
    show c.r = { c.r with queue := [] }
    rw [← hq]
  | cons it rest ih =>
    obtain ⟨q, h⟩ := ih ({ c with r := { c.r with queue := rest } }.forget it.id .skipped) rfl
    exact ⟨q, h⟩

theorem dropQueue_r (c : Call) :
    ∃ q, c.dropQueue.r = { c.r with queue := [], requested := q } :=
  dropAll_r _ c rfl

/-! ## What the transitions leave behind -/

/-- Playing the current chunk settles the reader: the chunk is loaded unless a
pause holds it. -/
theorem beginChunk_settled {c : Call} (hc : c.r.current.isSome) (hl : c.r.loaded = none)
    (hw : c.r.stepWait = true → c.r.paused = true) : Settled c.beginChunk.r := by
  obtain ⟨cur, hcur⟩ := Option.isSome_iff_exists.mp hc
  unfold beginChunk
  rw [hcur]
  dsimp only
  rw [request_r]
  dsimp only
  split
  next hp =>
    rw [request_r]
    exact ⟨fun h => absurd h (by rw [hcur]; simp), fun h => absurd h (by rw [hl]; simp),
      fun _ h => absurd h (by rw [hp]; simp), fun _ => ⟨hp, hl⟩⟩
  next hp =>
    refine ⟨fun h => absurd h (by rw [hcur]; simp), fun _ => ?_, fun _ _ => rfl, fun h => ?_⟩
    · rw [hcur]; rfl
    · exact absurd (hw h) hp

/-- `endWait` clears a step wait. -/
theorem endWait_r (c : Call) :
    ∃ p, c.endWait.r = { c.r with stepWait := false, paused := p } := by
  unfold endWait
  split
  next => exact ⟨false, rfl⟩
  next h =>
    have hw : c.r.stepWait = false := by simpa using h
    exact ⟨c.r.paused, by rw [← hw]⟩

/-- `startNext` settles the reader: the front item plays or waits for Play, or
the reader is idle and unpaused. -/
theorem startNext_settled {c : Call} (hc : c.r.current = none) (hl : c.r.loaded = none) :
    Settled c.startNext.r := by
  obtain ⟨p, hr⟩ := c.endWait_r
  unfold startNext
  dsimp only
  split
  next item rest hq =>
    refine beginChunk_settled rfl ?_ ?_
    · show c.endWait.r.loaded = none
      rw [hr]; exact hl
    · intro hw
      have hw' : c.endWait.r.stepWait = true := hw
      rw [hr] at hw'
      cases hw'
  next hq =>
    rw [hr] at hq ⊢
    refine ⟨fun _ => ⟨hq, rfl⟩, fun h => ?_, fun h => ?_, fun h => (nomatch h)⟩
    · exact absurd h (by dsimp only; rw [hl]; simp)
    · exact absurd h (by dsimp only; rw [hc]; simp)

theorem skip_settled {c : Call} (hc : c.r.current.isSome) : Settled c.skip.r := by
  obtain ⟨cur, hcur⟩ := Option.isSome_iff_exists.mp hc
  unfold skip
  refine startNext_settled ?_ ?_ <;> rw [endCurrent_r hcur]

/-- `unrelease` clears `released` or changes nothing. -/
theorem unrelease_r (c : Call) (k : CodeKind) :
    ∃ b, (c.unrelease k).r = { c.r with released := b } := by
  unfold unrelease
  split
  · exact ⟨false, rfl⟩
  · exact ⟨c.r.released, rfl⟩

/-- `waitStep` sets both flags or changes nothing. -/
theorem waitStep_cases (c : Call) (b : Bool) :
    c.waitStep b = { c with r := { c.r with paused := true, stepWait := true } } ∨
      c.waitStep b = c := by
  unfold waitStep
  split
  · exact .inl rfl
  · exact .inr rfl

/-- A move settles: it loads its chunk, waits at a line, or stays paused. -/
theorem moveTo_settled {c : Call} (hc : c.r.current.isSome) (dest : Nat) :
    Settled (c.moveTo dest).r := by
  obtain ⟨p, hr⟩ := c.endWait_r
  obtain ⟨cur, hcur⟩ := Option.isSome_iff_exists.mp hc
  have hs : c.endWait.stopOutput.r =
      { c.r with stepWait := false, paused := p, loaded := none } := by
    rw [stopOutput_r, hr]
  have hset : c.endWait.stopOutput.r.setChunk dest = { c.r with
      stepWait := false, paused := p, loaded := none, current :=
      some { cur with chunk := dest } } := by
    rw [hs]
    simp only [Reader.setChunk, hcur, Option.map_some]
  obtain ⟨b, hb⟩ := unrelease_r ⟨c.endWait.stopOutput.r.setChunk dest, c.endWait.stopOutput.fx⟩
    ((c.endWait.stopOutput.r.setChunk dest).kindAt dest)
  unfold moveTo
  refine beginChunk_settled ?_ ?_ ?_ <;> (dsimp only; rw [hb, hset])
  · rfl
  · exact fun hw => (nomatch hw)

/-- `advance` from an ended chunk settles the reader. -/
theorem advance_settled {c : Call} (hc : c.r.current.isSome) (hl : c.r.loaded = none)
    (hw : c.r.stepWait = true → c.r.paused = true) : Settled c.advance.r := by
  obtain ⟨cur, hcur⟩ := Option.isSome_iff_exists.mp hc
  unfold advance
  rw [hcur]
  dsimp only
  split
  next =>
    -- At the next chunk, with or without a step wait.
    have hstep : ∀ (d : Call) (b : Bool), d.r.current.isSome → d.r.loaded = none →
        (d.r.stepWait = true → d.r.paused = true) → Settled (d.waitStep b).beginChunk.r := by
      intro d b hdc hdl hdw
      rcases d.waitStep_cases b with h | h <;> rw [h]
      · exact beginChunk_settled hdc hdl (fun _ => rfl)
      · exact beginChunk_settled hdc hdl hdw
    obtain ⟨b, hb⟩ := unrelease_r
      ⟨{ c.r with current := some { cur with chunk := cur.chunk + 1 } }, c.fx⟩
      (CodeSpeech.kind (cur.item.chunkAt (cur.chunk + 1)))
    apply hstep <;> rw [hb]
    exacts [rfl, hl, hw]
  next =>
    refine startNext_settled ?_ ?_ <;> rw [endCurrent_r hcur]

theorem resume_settled {c : Call} (hc : c.r.current.isSome) : Settled c.resume.r := by
  unfold resume
  dsimp only
  split
  next hl =>
    refine ⟨fun h => absurd h ?_, fun _ => hc, fun _ _ => hl, fun h => (nomatch h)⟩
    show c.r.current ≠ none
    exact Option.isSome_iff_ne_none.mp hc
  next hl => exact beginChunk_settled hc (by simpa using hl) (fun h => (nomatch h))

/-- A pause settles. -/
theorem pause_settled {c : Call} (h : Settled c.r) : Settled c.pause.r := by
  unfold pause
  dsimp only
  split
  next hn =>
    refine ⟨h.idle, h.loaded, h.playing, fun hw => (nomatch hw)⟩
  next hn =>
    have hc : c.r.current.isSome := by
      cases hcur : c.r.current with
      | some _ => rfl
      | none => simp [hcur] at hn
    have hne : c.r.current ≠ none := Option.isSome_iff_ne_none.mp hc
    split
    next =>
      exact ⟨fun hi => absurd hi hne, h.loaded, fun _ hp => (nomatch hp), fun hw => (nomatch hw)⟩
    next =>
      exact ⟨fun hi => absurd hi hne, h.loaded, fun _ hp => (nomatch hp), fun hw => (nomatch hw)⟩

/-- A stop leaves nothing loaded. -/
theorem stop_settled {c : Call} (h : Settled c.r) : Settled c.stop.r := by
  unfold stop
  dsimp only
  split
  next => exact h.congr ⟨rfl, rfl, rfl, rfl, rfl⟩
  next =>
    split
    next hc =>
      obtain ⟨cur, hcur⟩ := Option.isSome_iff_exists.mp hc
      obtain ⟨q, hq⟩ := dropQueue_r
        (Call.endCurrent ⟨{ c.r with last := none }, c.fx⟩ .skipped)
      rw [endCurrent_r (c := ⟨{ c.r with last := none }, c.fx⟩) hcur] at hq
      rw [hq]
      exact ⟨fun _ => ⟨rfl, rfl⟩, fun h => (nomatch h), fun h => (nomatch h), fun h => (nomatch h)⟩
    next hc =>
      have hcn : c.r.current = none := by simpa using hc
      have hl : c.r.loaded = none := h.unloaded hcn
      obtain ⟨q, hq⟩ := dropQueue_r ⟨{ c.r with last := none }, c.fx⟩
      rw [hq]
      refine ⟨fun _ => ⟨rfl, rfl⟩, fun h => ?_, fun h => ?_, fun h => (nomatch h)⟩
      · exact absurd h (by dsimp only; rw [hl]; simp)
      · exact absurd h (by dsimp only; rw [hcn]; simp)

/-- A step by lines settles. -/
theorem lineStep_settled {c : Call} (h : Settled c.r) (next : Bool) :
    Settled (c.lineStep next).r := by
  unfold lineStep
  split
  next => exact h
  next cur hcur =>
    split
    next => exact h
    next =>
      have hc : c.r.current.isSome := by rw [hcur]; rfl
      dsimp only
      split
      next => exact skip_settled (by exact hc)
      next => exact moveTo_settled (by exact hc) _

theorem restart_settled {c : Call} (h : Settled c.r) : Settled c.restart.r := by
  unfold restart
  split
  next hc => exact moveTo_settled hc 0
  next hc =>
    have hcn : c.r.current = none := by simpa using hc
    split
    next => exact h
    next =>
      exact startNext_settled hcn (h.unloaded hcn)

theorem play_settled {c : Call} (hc : c.r.current.isSome) : Settled c.play.r := by
  unfold play releaseCode
  split <;> exact resume_settled hc

/-- Every control settles. -/
theorem control_settled {c : Call} (h : Settled c.r) (k : Control) : Settled (c.control k).r := by
  cases k with
  | play =>
    show Settled (if c.r.paused then c.play else c).r
    split
    next hp => exact play_settled (h.paused_current hp)
    next => exact h
  | pause => exact pause_settled h
  | toggle =>
    show Settled (if c.r.paused then c.play else c.pause).r
    split
    next hp => exact play_settled (h.paused_current hp)
    next => exact pause_settled h
  | stop => exact stop_settled h
  | skip =>
    show Settled (if c.r.current.isSome then c.skip else c).r
    split
    next hc => exact skip_settled hc
    next => exact h
  | previous =>
    show Settled c.previous.r
    unfold previous
    split
    next => exact h
    next cur hcur => exact moveTo_settled (by rw [hcur]; rfl) _
  | next =>
    show Settled c.next.r
    unfold next
    split
    next => exact h
    next cur hcur =>
      have hc : c.r.current.isSome := by rw [hcur]; rfl
      split
      · exact moveTo_settled hc _
      · exact skip_settled hc
  | restart => exact restart_settled h
  | mute =>
    show Settled (if (!c.r.muted) = true then _ else c).r
    split
    · exact h.congr ⟨rfl, rfl, rfl, rfl, rfl⟩
    · exact h
  | unmute =>
    show Settled (if c.r.muted = true then _ else c).r
    split
    · exact h.congr ⟨rfl, rfl, rfl, rfl, rfl⟩
    · exact h
  | nextLine => exact lineStep_settled h true
  | previousLine => exact lineStep_settled h false

end Call

/-! ## Every call -/

theorem new_settled : Settled Reader.new :=
  ⟨fun _ => ⟨rfl, rfl⟩, fun h => (nomatch h), fun h => (nomatch h), fun h => (nomatch h)⟩

/-- A new item settles, whether it is queued, begun or interrupts. -/
theorem Call.enqueue_settled {c : Call} (hl : c.r.loaded.isSome → c.r.current.isSome)
    (hp : c.r.current.isSome → c.r.paused = false → c.r.loaded.isSome)
    (hw : c.r.stepWait = true → c.r.paused = true ∧ c.r.loaded = none) (item : Item)
    (interrupt : Bool) : Settled (c.enqueue item interrupt).r := by
  unfold enqueue
  split
  next hi =>
    obtain ⟨cur, hcur⟩ := Option.isSome_iff_exists.mp (Bool.and_eq_true_iff.mp hi).2
    refine startNext_settled ?_ ?_
    · show (c.endCurrent .skipped).r.current = none
      rw [endCurrent_r hcur]
    · show (c.endCurrent .skipped).r.loaded = none
      rw [endCurrent_r hcur]
  next hi =>
    dsimp only
    split
    next hn =>
      have hcn : c.r.current = none := Option.isNone_iff_eq_none.mp hn
      refine startNext_settled hcn ?_
      cases hload : c.r.loaded with
      | none => exact hload
      | some g =>
        have hcur := hl (by rw [hload]; rfl)
        rw [hcn] at hcur
        cases hcur
    next hn =>
      have hne : c.r.current ≠ none := fun hc => hn (Option.isNone_iff_eq_none.mpr hc)
      exact ⟨fun hc => absurd hc hne, hl, hp, hw⟩

/-- `speak` settles. -/
theorem speak_settled (split : Chunking → Text → List Text) {r : Reader} (h : Settled r)
    (text : Text) (mode : QueueMode) (interrupt : Bool) (label : Option String) :
    Settled (r.speak split text mode interrupt label).2.r := by
  unfold Reader.speak
  dsimp only
  split
  next => exact h.congr ⟨rfl, rfl, rfl, rfl, rfl⟩
  next =>
    apply Call.finish_settled
    split
    next =>
      obtain ⟨q, hq⟩ := Call.dropQueue_r (Call.bump ⟨r, []⟩ (r.nextId + 1))
      apply Call.enqueue_settled <;> rw [hq]
      exacts [h.loaded, h.playing, h.stepWait]
    next => exact Call.enqueue_settled h.loaded h.playing h.stepWait _ _

/-- A report of the output settles. -/
theorem onAudio_settled {r : Reader} (h : Settled r) (e : AudioEvent) :
    Settled (r.onAudio e).r := by
  unfold Reader.onAudio
  split
  next => exact h
  next hg =>
    have hl : r.loaded = some e.gen := not_not.mp hg
    have hc : r.current.isSome := h.loaded (by rw [hl]; rfl)
    have hw : r.stepWait = true → r.paused = true := fun hw => (h.stepWait hw).1
    have hm : r.markPlayed.current.isSome := by
      obtain ⟨cur, hcur⟩ := Option.isSome_iff_exists.mp hc
      simp [Reader.markPlayed, hcur]
    split
    next => exact Call.finish_settled (h.congr ⟨by rw [hm, hc], rfl, rfl, rfl, rfl⟩)
    next => exact Call.finish_settled (Call.advance_settled hm rfl hw)
    next => exact Call.finish_settled (Call.advance_settled hc rfl hw)

/-- **One call keeps the reader settled.** -/
theorem call_settled (split : Chunking → Text → List Text) {r : Reader} (h : Settled r)
    (i : Input) : Settled (r.call split i).r := by
  cases i with
  | speak text mode interrupt label => exact speak_settled split h text mode interrupt label
  | control k => exact Call.finish_settled (Call.control_settled h k)
  | onAudio e => exact onAudio_settled h e
  | setVolume v =>
    refine Call.finish_settled ?_
    split
    · exact h.congr ⟨rfl, rfl, rfl, rfl, rfl⟩
    · exact h
  | setRate v => exact Call.finish_settled (h.congr ⟨rfl, rfl, rfl, rfl, rfl⟩)
  | setVoice v => exact Call.finish_settled (h.congr ⟨rfl, rfl, rfl, rfl, rfl⟩)
  | setLookahead n => exact Call.finish_settled (h.congr ⟨rfl, rfl, rfl, rfl, rfl⟩)
  | setChunking k => exact Call.finish_settled (h.congr ⟨rfl, rfl, rfl, rfl, rfl⟩)
  | setCodeStep on =>
    refine Call.finish_settled ?_
    split
    next hb =>
      exact Call.resume_settled (h.stepWait_current (Bool.and_eq_true_iff.mp hb).2)
    next => exact h.congr ⟨rfl, rfl, rfl, rfl, rfl⟩

/-- Every reachable reader is settled. -/
theorem state_settled (split : Chunking → Text → List Text) (is : List Input) :
    Settled ((machine split).state is) :=
  (machine split).run_induction (P := fun _ r _ => Settled r) new_settled
    (fun _ i h => call_settled split h i) is

end Sonara.L1
