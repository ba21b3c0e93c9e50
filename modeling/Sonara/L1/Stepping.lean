import Sonara.L1.Lifecycle

/-!
# Step mode (#295)

What a call does to where the reader is and to `released` is one of four things
(`Reads`): the reader leaves the item or its release ends, it stays, Play releases the
code it waits at, or a released reader goes on to a line. So a release holds within the
block it was given for, unless a call takes it across what is no line (`Within`,
`run_through`). The user's pause is kept by every call that does not play
(`call_holds`), and at a step wait nothing plays the chunk waited at but a control or
`set_code_step` (`waits_silent`).
-/

namespace Sonara.L1

open Sonara (Text)
open Sonara.CodeSpeech (CodeKind kind)

/-- Chunk `i` is a code line. -/
def Item.Line (it : Item) (i : Nat) : Prop := kind (it.chunkAt i) = .line

instance (it : Item) (i : Nat) : Decidable (it.Line i) := by
  unfold Item.Line
  infer_instance

/-- The item being read and the chunk. -/
def Reader.place (r : Reader) : Option (Item × Nat) := r.current.map fun c => (c.item, c.chunk)

theorem Reader.place_eq {r : Reader} {it : Item} {k : Nat} :
    r.place = some (it, k) ↔ ∃ b, r.current = some ⟨it, k, b⟩ := by
  unfold Reader.place
  rw [Option.map_eq_some_iff]
  constructor
  · rintro ⟨⟨it', k', b⟩, hc, he⟩
    obtain ⟨rfl, rfl⟩ := Prod.mk.inj he
    exact ⟨b, hc⟩
  · rintro ⟨b, hc⟩
    exact ⟨_, hc, rfl⟩

theorem Reader.place_none {r : Reader} : r.place = none ↔ r.current = none := by
  unfold Reader.place
  exact Option.map_eq_none_iff

theorem Reader.kindAt_eq {r : Reader} {cur : Current} (h : r.current = some cur) (i : Nat) :
    r.kindAt i = kind (cur.item.chunkAt i) := by
  unfold Reader.kindAt Item.chunkAt
  rw [h, Option.bind_some, List.getD_eq_getElem?_getD]
  cases cur.item.chunks[i]? with
  | none => rfl
  | some t => rfl

/-- The audio of the loaded chunk ended. -/
def Ends (r : Reader) (i : Input) : Prop :=
  ∃ g, r.loaded = some g ∧ (i = .onAudio (.chunkFinished g) ∨ ∃ reason, i = .onAudio
    (.failed g reason))

/-- Where the inputs take a reader within its item. -/
inductive Goes (r : Reader) (k : Nat) : Input → Nat → Prop
  | ended {i : Input} (h : Ends r i) : Goes r k i (k + 1)
  | next : Goes r k (.control .next) (k + 1)
  | previous : Goes r k (.control .previous) (k - 1)
  | restart : Goes r k (.control .restart) 0

/-- Play, or Toggle. -/
def Plays (i : Input) : Prop := i = .control .play ∨ i = .control .toggle

/-- NextLine, or PreviousLine. -/
def Lines (i : Input) : Prop := i = .control .nextLine ∨ i = .control .previousLine

/-- What a call does to the place and to `released`. -/
inductive Reads (r : Reader) (i : Input) (r' : Reader) : Prop
  | leaves (h : r'.place = none ∨ r'.released = false)
  | stays (place : r'.place = r.place) (released : r'.released = r.released)
      (outside : Lines i → r.place ≠ none → r.inCode = false)
  | lets (plays : Plays i) (wait : r.stepWait = true) (place : r'.place = r.place)
  | goes {it : Item} {k dest : Nat} (start : r.place = some (it, k))
    (land : r'.place = some (it, dest))
      (released : r.released = true) (line : it.Line dest) (how : Goes r k i dest)

namespace Call

/-! ## What the transitions leave behind -/

theorem finish_place (c : Call) : c.finish.r.place = c.r.place := by
  obtain ⟨q, s, -, hr⟩ := c.finish_r
  rw [hr]
  rfl

theorem finish_released (c : Call) : c.finish.r.released = c.r.released := by
  obtain ⟨q, s, -, hr⟩ := c.finish_r
  rw [hr]

theorem beginChunk_r (c : Call) : ∃ q g l, c.beginChunk.r =
    { c.r with requested := q, gen := g, loaded := l } := by
  unfold beginChunk
  split
  · exact ⟨c.r.requested, c.r.gen, c.r.loaded, rfl⟩
  · dsimp only
    split
    · rw [request_r]
      exact ⟨_, c.r.gen, c.r.loaded, rfl⟩
    · rw [request_r]
      exact ⟨_, _, _, rfl⟩

/-- A step wait ends; the user's pause stays. -/
theorem endWait_paused (c : Call) : ∃ p, c.endWait.r = { c.r with stepWait := false, paused := p } ∧
    (c.r.stepWait = false → p = c.r.paused) := by
  unfold endWait
  split
  next h => exact ⟨false, rfl, fun hw => by rw [h] at hw; cases hw⟩
  next h =>
    have hw : c.r.stepWait = false := by simpa using h
    exact ⟨c.r.paused, by rw [← hw], fun _ => rfl⟩

/-- A jump keeps the release for a line only. -/
theorem moveTo_r {c : Call} {cur : Current} (hc : c.r.current = some cur) (dest : Nat) :
    ∃ p q g l, (c.moveTo dest).r = { c.r with
      current := some { cur with chunk := dest }, stepWait := false, paused := p
      released := c.r.released && decide (cur.item.Line dest)
      requested := q, gen := g, loaded := l } ∧ (c.r.stepWait = false → p = c.r.paused) := by
  obtain ⟨p, hr, hp⟩ := c.endWait_paused
  have hset : c.endWait.stopOutput.r.setChunk dest = { c.r with
      stepWait := false, paused := p, loaded := none, current :=
      some { cur with chunk := dest } } := by
    rw [stopOutput_r, hr]
    simp only [Reader.setChunk, hc, Option.map_some]
  have hkind : (c.endWait.stopOutput.r.setChunk dest).kindAt dest = kind
      (cur.item.chunkAt dest) := by
    have hcur : (c.endWait.stopOutput.r.setChunk dest).current = some
        { cur with chunk := dest } := by
      rw [hset]
    exact Reader.kindAt_eq hcur dest
  unfold moveTo
  dsimp only
  rw [hkind]
  obtain ⟨q, g, l, hbegin⟩ := (Call.unrelease ⟨c.endWait.stopOutput.r.setChunk dest,
    c.endWait.stopOutput.fx⟩ (kind (cur.item.chunkAt dest))).beginChunk_r
  refine ⟨p, q, g, l, ?_, hp⟩
  rw [hbegin]
  unfold unrelease
  by_cases hline : kind (cur.item.chunkAt dest) = .line
  · have hyes : decide (cur.item.Line dest) = true := decide_eq_true hline
    rw [if_neg (not_not.mpr hline), hyes, Bool.and_true]
    dsimp only
    rw [hset]
  · have hno : decide (cur.item.Line dest) = false := decide_eq_false hline
    rw [if_pos hline, hno, Bool.and_false]
    dsimp only
    rw [hset]

/-- The next item starts, unreleased. -/
theorem startNext_r {c : Call} {item : Item} {rest : List Item} (h : c.r.queue = item :: rest) :
    ∃ p q g l, c.startNext.r = { c.r with
      current := some { item := item, chunk := 0, playedAny := false }, queue := rest
      released := false, stepWait := false, paused := p, requested := q, gen := g, loaded := l } ∧
        (c.r.stepWait = false → p = c.r.paused) := by
  obtain ⟨p, hr, hp⟩ := c.endWait_paused
  have hq : c.endWait.r.queue = item :: rest := by
    rw [hr]
    exact h
  unfold startNext
  dsimp only
  rw [hq]
  dsimp only
  obtain ⟨q, g, l, hbegin⟩ := (⟨{ ({ c.endWait with r := { c.endWait.r with
    queue := rest, released := false } }.emitItem item.id .started).r with
      current := some { item := item, chunk := 0, playedAny := false } },
    ({ c.endWait with r := { c.endWait.r with
      queue := rest, released := false } }.emitItem item.id .started).fx⟩ : Call).beginChunk_r
  refine ⟨p, q, g, l, ?_, hp⟩
  rw [hbegin]
  unfold emitItem push
  dsimp only
  rw [hr]

/-- With no item left the reader is idle. -/
theorem startNext_idle {c : Call} (h : c.r.queue = []) :
    c.startNext.r = { c.r with stepWait := false, paused := false } := by
  obtain ⟨p, hr, -⟩ := c.endWait_paused
  have hq : c.endWait.r.queue = [] := by
    rw [hr]
    exact h
  unfold startNext
  dsimp only
  split
  next item rest hitem =>
    rw [hq] at hitem
    cases hitem
  · exact congrArg (fun r : Reader => { r with paused := false }) hr

/-- The next item starts, unreleased, or the reader is idle. -/
theorem startNext_leaves {c : Call} (hc : c.r.current = none) :
    c.startNext.r.place = none ∨ c.startNext.r.released = false := by
  cases hq : c.r.queue with
  | nil =>
    left
    rw [startNext_idle hq]
    exact Reader.place_none.mpr hc
  | cons item rest =>
    obtain ⟨p, q, g, l, hr, -⟩ := startNext_r hq
    right
    rw [hr]

theorem endCurrent_current (c : Call) (phase : ItemPhase) :
    (c.endCurrent phase).r.current = none := by
  cases hc : c.r.current with
  | some cur => rw [endCurrent_r hc]
  | none =>
    have hstop : c.stopOutput.r.current = none := by
      rw [stopOutput_r]
      exact hc
    unfold endCurrent
    dsimp only
    rw [hstop]
    exact hstop

theorem skip_leaves (c : Call) : c.skip.r.place = none ∨ c.skip.r.released = false :=
  startNext_leaves (endCurrent_current c .skipped)

theorem resume_place (c : Call) : c.resume.r.place = c.r.place ∧
    c.resume.r.released = c.r.released := by
  unfold resume
  dsimp only
  split
  · exact ⟨rfl, rfl⟩
  · obtain ⟨q, g, l, hbegin⟩ :=
      (⟨{ c.r with paused := false, stepWait := false }, c.fx⟩ : Call).beginChunk_r
    rw [hbegin]
    exact ⟨rfl, rfl⟩

theorem pause_place (c : Call) : c.pause.r.place = c.r.place ∧
    c.pause.r.released = c.r.released := by
  unfold pause
  dsimp only
  split
  · exact ⟨rfl, rfl⟩
  · split
    · exact ⟨rfl, rfl⟩
    · exact ⟨rfl, rfl⟩

/-! ## The place and the release -/

variable {c : Call} {r : Reader} {i : Input}

/-- A jump of the input. -/
theorem moveTo_reads {it : Item} {k dest : Nat} (h : c.r.place = some (it, k))
    (how : Goes c.r k i dest) :
    Reads c.r i (c.moveTo dest).r := by
  obtain ⟨b, hc⟩ := Reader.place_eq.mp h
  obtain ⟨p, q, g, l, hr, -⟩ := moveTo_r hc dest
  by_cases hkeep : c.r.released = true ∧ it.Line dest
  · exact .goes h (by rw [hr]; rfl) hkeep.1 hkeep.2 how
  · refine .leaves (.inr ?_)
    rw [hr]
    show (c.r.released && decide (it.Line dest)) = false
    rw [Bool.and_eq_false_iff]
    by_cases hrel : c.r.released = true
    · exact .inr (decide_eq_false fun hl => hkeep ⟨hrel, hl⟩)
    · exact .inl (by simpa using hrel)

/-- Playing reads on from the place, or releases the step wait. -/
theorem play_reads (hi : Plays i) : Reads c.r i c.play.r := by
  unfold play
  obtain ⟨hplace, hrel⟩ := c.releaseCode.resume_place
  by_cases hw : c.r.stepWait = true
  · have hcode : c.releaseCode = { c with r := { c.r with released := true } } := if_pos hw
    refine .lets hi hw (hplace.trans ?_)
    rw [hcode]
    rfl
  · have hcode : c.releaseCode = c := if_neg hw
    rw [hcode] at hplace hrel ⊢
    refine .stays hplace hrel fun hlines => ?_
    rcases hi with rfl | rfl
    · rcases hlines with h | h <;> cases h
    · rcases hlines with h | h <;> cases h

/-- A line step in code ends the release. -/
theorem lineStep_reads (next : Bool) : Reads c.r i (c.lineStep next).r := by
  unfold lineStep
  split
  next hc => exact .leaves (.inl (Reader.place_none.mpr hc))
  next cur hc =>
    split
    next hcode => exact .stays rfl rfl fun _ _ => by simpa using hcode
    next hcode =>
      dsimp only
      split
      · exact .leaves (skip_leaves _)
      · obtain ⟨p, q, g, l, hr, -⟩ := moveTo_r (c := ⟨{ c.r with
          paused := false, stepWait := false, released := false }, c.fx⟩) hc
          (lineTarget c.r cur next)
        refine .leaves (.inr ?_)
        rw [hr]
        rfl

/-- A stop leaves no place. -/
theorem stop_leaves (c : Call) : c.stop.r.place = none := by
  rw [Reader.place_none]
  unfold stop
  dsimp only
  split
  next hidle =>
    rw [Bool.and_eq_true, Option.isNone_iff_eq_none] at hidle
    exact hidle.1
  next =>
    split
    · obtain ⟨q, hq⟩ := dropQueue_r (Call.endCurrent ⟨{ c.r with last := none }, c.fx⟩ .skipped)
      rw [hq]
      exact endCurrent_current _ .skipped
    next hc =>
      obtain ⟨q, hq⟩ := dropQueue_r ⟨{ c.r with last := none }, c.fx⟩
      rw [hq]
      exact Option.not_isSome_iff_eq_none.mp hc

theorem restart_reads : Reads c.r (.control .restart) c.restart.r := by
  unfold restart
  split
  next hc =>
    obtain ⟨cur, hcur⟩ := Option.isSome_iff_exists.mp hc
    exact moveTo_reads (Reader.place_eq.mpr ⟨cur.playedAny, hcur⟩) .restart
  next hc =>
    have hnone : c.r.current = none := Option.not_isSome_iff_eq_none.mp hc
    split
    · exact .leaves (.inl (Reader.place_none.mpr hnone))
    · exact .leaves (startNext_leaves hnone)

/-- A control reads from where it says. -/
theorem control_reads (k : Control) : Reads c.r (.control k) (c.control k).r := by
  have hstay : ¬Lines (.control k) → ∀ {r' : Reader}, r'.place = c.r.place →
    r'.released = c.r.released →
      Reads c.r (.control k) r' := fun hno _ hp hr => .stays hp hr fun h => absurd h hno
  have hline : k ≠ .nextLine → k ≠ .previousLine → ¬Lines (.control k) := by
    rintro hn hp (h | h)
    · exact hn (Input.control.inj h)
    · exact hp (Input.control.inj h)
  cases k with
  | play =>
    show Reads c.r _ (if c.r.paused then c.play else c).r
    split
    · exact play_reads (.inl rfl)
    · exact hstay (hline (by simp) (by simp)) rfl rfl
  | pause => exact hstay (hline (by simp) (by simp)) c.pause_place.1 c.pause_place.2
  | toggle =>
    show Reads c.r _ (if c.r.paused then c.play else c.pause).r
    split
    · exact play_reads (.inr rfl)
    · exact hstay (hline (by simp) (by simp)) c.pause_place.1 c.pause_place.2
  | stop => exact .leaves (.inl c.stop_leaves)
  | skip =>
    show Reads c.r _ (if c.r.current.isSome then c.skip else c).r
    split
    · exact .leaves (skip_leaves c)
    · exact hstay (hline (by simp) (by simp)) rfl rfl
  | previous =>
    show Reads c.r _ c.previous.r
    unfold previous
    split
    next hc => exact .leaves (.inl (Reader.place_none.mpr hc))
    next cur hc => exact moveTo_reads (Reader.place_eq.mpr ⟨cur.playedAny, hc⟩) .previous
  | next =>
    show Reads c.r _ c.next.r
    unfold next
    split
    next hc => exact .leaves (.inl (Reader.place_none.mpr hc))
    next cur hc =>
      split
      · exact moveTo_reads (Reader.place_eq.mpr ⟨cur.playedAny, hc⟩) .next
      · exact .leaves (skip_leaves c)
  | restart => exact restart_reads
  | mute =>
    show Reads c.r _ (if (!c.r.muted) = true then _ else c).r
    split
    · exact hstay (hline (by simp) (by simp)) rfl rfl
    · exact hstay (hline (by simp) (by simp)) rfl rfl
  | unmute =>
    show Reads c.r _ (if c.r.muted = true then _ else c).r
    split
    · exact hstay (hline (by simp) (by simp)) rfl rfl
    · exact hstay (hline (by simp) (by simp)) rfl rfl
  | nextLine => exact lineStep_reads true
  | previousLine => exact lineStep_reads false

/-- The next chunk, or the item's end. -/
theorem advance_reads {r₀ : Reader} (he : Ends r₀ i) (hplace : c.r.place = r₀.place)
    (hrel : c.r.released = r₀.released) : Reads r₀ i c.advance.r := by
  have hback : Reads r₀ i c.advance.r ∨ c.r.current = none := by
    unfold advance
    split
    next hc => exact .inr hc
    next cur hc =>
      have hstart : r₀.place = some (cur.item, cur.chunk) := by
        rw [← hplace]
        exact Reader.place_eq.mpr ⟨cur.playedAny, hc⟩
      refine .inl ?_
      split
      · -- At the next chunk, with or without a step wait.
        have hnext : ∀ (d : Call) (b : Bool), ∃ q g l p w, (d.waitStep b).beginChunk.r =
            { d.r with paused := p, stepWait := w, requested := q, gen := g, loaded := l } := by
          intro d b
          obtain ⟨q, g, l, hr⟩ := (d.waitStep b).beginChunk_r
          rcases d.waitStep_cases b with h | h
          · rw [h] at hr ⊢
            exact ⟨q, g, l, true, true, hr⟩
          · rw [h] at hr ⊢
            exact ⟨q, g, l, d.r.paused, d.r.stepWait, hr⟩
        dsimp only
        obtain ⟨q, g, l, p, w, hr⟩ := hnext
          (Call.unrelease ⟨{ c.r with current := some { cur with chunk := cur.chunk + 1 } }, c.fx⟩
            (kind (cur.item.chunkAt (cur.chunk + 1))))
          (!c.r.released && waits (kind (cur.item.chunkAt cur.chunk))
            (kind (cur.item.chunkAt (cur.chunk + 1))))
        rw [hr]
        unfold unrelease
        by_cases hkeep : c.r.released = true ∧ cur.item.Line (cur.chunk + 1)
        · have hline : kind (cur.item.chunkAt (cur.chunk + 1)) = .line := hkeep.2
          rw [if_neg (not_not.mpr hline)]
          exact .goes hstart rfl (hrel ▸ hkeep.1) hkeep.2 (.ended he)
        · refine .leaves (.inr ?_)
          split
          · rfl
          next hline =>
            have hno : ¬c.r.released = true := fun hrel => hkeep ⟨hrel, not_not.mp hline⟩
            simpa using hno
      · exact .leaves (startNext_leaves (endCurrent_current c _))
  rcases hback with h | h
  · exact h
  · refine .leaves (.inl ?_)
    unfold advance
    rw [h]
    exact Reader.place_none.mpr h

end Call

/-! ## Every call -/

theorem Reads.of_enter {r r' r'' : Reader} {i : Input} (h : Reads r i r')
    (hplace : r''.place = r'.place) (hrel : r''.released = r'.released) : Reads r i r'' := by
  cases h with
  | leaves h => exact .leaves (h.imp (fun h => hplace.trans h) fun h => hrel.trans h)
  | stays place released outside => exact .stays (hplace.trans place) (hrel.trans released) outside
  | lets plays wait place => exact .lets plays wait (hplace.trans place)
  | goes start land released line how => exact .goes start (hplace.trans land) released line how

theorem Reads.finish {r : Reader} {i : Input} {c : Call} (h : Reads r i c.r) :
    Reads r i c.finish.r :=
  h.of_enter c.finish_place c.finish_released

theorem markPlayed_place (r : Reader) : r.markPlayed.place = r.place := by
  unfold Reader.markPlayed Reader.place
  rw [Option.map_map]
  rfl

theorem enqueue_reads {r : Reader} {i : Input} {c : Call} (hi : ¬Lines i) (item : Item)
    (interrupt : Bool) (hplace : c.r.place = r.place) (hrel : c.r.released = r.released) :
    Reads r i (c.enqueue item interrupt).r := by
  unfold Call.enqueue
  split
  · exact .leaves (Call.startNext_leaves (c.endCurrent_current .skipped))
  · dsimp only
    split
    next hnone => exact .leaves (Call.startNext_leaves (Option.isNone_iff_eq_none.mp hnone))
    · exact .stays hplace hrel fun h => absurd h hi

/-- **One call**, told by the place and the release. -/
theorem call_reads (split : Chunking → Text → List Text) (r : Reader) (i : Input) :
    Reads r i (r.call split i).r := by
  have hsame : ¬Lines i → ∀ {r' : Reader}, r'.place = r.place → r'.released = r.released →
      Reads r i r' := fun hno _ hp hr => .stays hp hr fun h => absurd h hno
  cases i with
  | speak text mode interrupt label =>
    have hno : ¬Lines (.speak text mode interrupt label) := by
      rintro (h | h)
      · cases h
      · cases h
    show Reads r _ (r.speak split text mode interrupt label).2.r
    unfold Reader.speak
    dsimp only
    split
    · exact hsame hno rfl rfl
    · refine Reads.finish ?_
      split
      · obtain ⟨q, hq⟩ := Call.dropQueue_r (Call.bump ⟨r, []⟩ (r.nextId + 1))
        exact enqueue_reads hno _ _ (by rw [hq]; rfl) (by rw [hq]; rfl)
      · exact enqueue_reads hno _ _ rfl rfl
  | control k => exact (Call.control_reads (c := ⟨r, []⟩) k).finish
  | onAudio e =>
    have hno : ¬Lines (.onAudio e) := by
      rintro (h | h)
      · cases h
      · cases h
    show Reads r _ (r.onAudio e).r
    unfold Reader.onAudio
    split
    · exact hsame hno rfl rfl
    next hg =>
      have hload : r.loaded = some e.gen := not_not.mp hg
      cases e with
      | chunkStarted g => exact (hsame hno (markPlayed_place r) rfl).finish
      | chunkFinished g =>
        exact (Call.advance_reads (c := ⟨{ r.markPlayed with loaded := none }, []⟩)
          ⟨g, hload, .inl rfl⟩ (markPlayed_place r) rfl).finish
      | failed g reason =>
        exact (Call.advance_reads (c := ⟨{ r with loaded := none }, []⟩)
          ⟨g, hload, .inr ⟨reason, rfl⟩⟩ rfl rfl).finish
  | setVolume v =>
    refine Reads.finish ?_
    split
    · exact hsame (by rintro (h | h) <;> cases h) rfl rfl
    · exact hsame (by rintro (h | h) <;> cases h) rfl rfl
  | setRate v => exact Reads.finish (hsame (by rintro (h | h) <;> cases h) rfl rfl)
  | setVoice v => exact Reads.finish (hsame (by rintro (h | h) <;> cases h) rfl rfl)
  | setLookahead n => exact Reads.finish (hsame (by rintro (h | h) <;> cases h) rfl rfl)
  | setChunking k => exact Reads.finish (hsame (by rintro (h | h) <;> cases h) rfl rfl)
  | setCodeStep on =>
    refine Reads.finish ?_
    split
    · obtain ⟨hplace, hrel⟩ := Call.resume_place ⟨{ r with codeStep := on }, []⟩
      exact hsame (by rintro (h | h) <;> cases h) hplace hrel
    · exact hsame (by rintro (h | h) <;> cases h) rfl rfl

/-! ## A release -/

/-- The chunks from the one waited at, `w`, to `k` are lines of one block. -/
structure SameBlock (it : Item) (w k : Nat) : Prop where
  before : ∀ j, k ≤ j → j < w → it.Line j
  behind : ∀ j, w < j → j ≤ k → it.Line j
  line : w < k → it.Line w

theorem SameBlock.refl (it : Item) (w : Nat) : SameBlock it w w :=
  ⟨fun _ h h' => absurd h' (Nat.not_lt.mpr h), fun _ h h' => absurd h (Nat.not_lt.mpr h'),
    fun h => absurd h (Nat.lt_irrefl w)⟩

/-- A step of a released reader: it does not go from what is no line on to a line, and not
to a first line of another block; it steps by lines in code only. -/
structure Within (r : Reader) (i : Input) : Prop where
  forth : ∀ it k, r.place = some (it, k) → r.released = true → Ends r i ∨ i = .control .next →
    it.Line (k + 1) → it.Line k
  back : ∀ it k, r.place = some (it, k) → r.released = true → i = .control .restart →
    it.Line 0 → ∀ j, j < k → it.Line j
  lines : r.released = true → r.place ≠ none → Lines i → r.inCode = true

/-- A released reader that goes on to a line stays in its block. -/
theorem SameBlock.goes {r : Reader} {i : Input} {it : Item} {w k dest : Nat} (h : SameBlock it w k)
    (hw : Within r i) (hplace : r.place = some (it, k)) (hrel : r.released = true)
    (hline : it.Line dest) (how : Goes r k i dest) : SameBlock it w dest := by
  have forth : it.Line k → it.Line (k + 1) → SameBlock it w (k + 1) := by
    intro hk hnext
    refine ⟨fun j hj hjw => h.before j (by omega) hjw, fun j hwj hj => ?_, fun hlt => ?_⟩
    · by_cases he : j = k + 1
      · rw [he]
        exact hnext
      · exact h.behind j hwj (by omega)
    · by_cases he : w = k
      · rw [he]
        exact hk
      · exact h.line (by omega)
  cases how with
  | ended hend => exact forth (hw.forth it k hplace hrel (.inl hend) hline) hline
  | next => exact forth (hw.forth it k hplace hrel (.inr rfl) hline) hline
  | previous =>
    refine ⟨fun j hj hjw => ?_, fun j hwj hj => h.behind j hwj (by omega),
      fun hlt => h.line (by omega)⟩
    by_cases he : j = k - 1
    · rw [he]
      exact hline
    · exact h.before j (by omega) hjw
  | restart =>
    have hfirst := hw.back it k hplace hrel rfl hline
    refine ⟨fun j _ hjw => ?_, fun j hwj hj => absurd hwj (by omega),
      fun hlt => absurd hlt (by omega)⟩
    by_cases hjk : j < k
    · exact hfirst j hjk
    · exact h.before j (by omega) hjw

section Runs

variable (split : Chunking → Text → List Text)

/-- The reader after a run. -/
abbrev after (is : List Input) : Reader := (machine split).state is

/-- A released reader reads the block that Play or Toggle released at a step wait: since
then it read this item only, and from the chunk waited at lines of one block only, with no
NextLine or PreviousLine. -/
def Through (is : List Input) : Prop :=
  ∀ it k, (after split is).place = some (it, k) → (after split is).released = true →
    ∃ pre i post w, is = pre ++ i :: post ∧ Plays i ∧ (after split pre).stepWait = true ∧
      (after split pre).place = some (it, w) ∧
      (∀ mid rest, post = mid ++ rest →
        ∃ j, (after split (pre ++ i :: mid)).place = some (it, j) ∧ SameBlock it w j) ∧
      ∀ j ∈ post, ¬Lines j

/-- **A release holds within its block**, in every run whose steps stay within. -/
theorem run_through {is : List Input} (h : (machine split).All Within is) : Through split is := by
  induction is using List.reverseRecOn with
  | nil =>
    intro it k _ hrel
    cases hrel
  | append_singleton is i ih =>
    obtain ⟨hall, hlast⟩ := ((machine split).allFrom_snoc (machine split).init is i).mp h
    have hlast : Within (after split is) i := hlast
    have hstep := call_reads split (after split is) i
    have hsnoc : after split (is ++ [i]) = ((after split is).call split i).r :=
      (machine split).state_snoc is i
    -- The release given before goes on, at the chunk `j`.
    have hon : ∀ {it : Item} {k j : Nat}, (after split is).place = some (it, k) →
        (after split is).released = true → (after split (is ++ [i])).place = some (it, j) →
          ¬Lines i → (∀ {w}, SameBlock it w k → SameBlock it w j) →
        ∃ pre i₀ post w, is ++ [i] = pre ++ i₀ :: post ∧ Plays i₀ ∧
          (after split pre).stepWait = true ∧
          (after split pre).place = some (it, w) ∧
          (∀ mid rest, post = mid ++ rest →
            ∃ j, (after split (pre ++ i₀ :: mid)).place = some (it, j) ∧ SameBlock it w j) ∧
          ∀ j ∈ post, ¬Lines j := by
      intro it k j hplace hrel hland hno hblock
      obtain ⟨pre, i₀, post, w, rfl, hplays, hwait, hw, hmid, hlines⟩ := ih hall it k hplace hrel
      refine ⟨pre, i₀, post ++ [i],
        w, by simp, hplays, hwait, hw, fun mid rest hpost => ?_, fun x hx => ?_⟩
      · rcases List.eq_nil_or_concat rest with rfl | ⟨rest, x, rfl⟩
        · rw [List.append_nil] at hpost
          subst hpost
          have hjoin : pre ++ i₀ :: (post ++ [i]) = pre ++ i₀ :: post ++ [i] := by simp
          rw [hjoin]
          obtain ⟨k', hk', hsame⟩ := hmid post [] (List.append_nil post).symm
          rw [hplace] at hk'
          obtain rfl : k = k' := (Prod.mk.inj (Option.some.inj hk')).2
          exact ⟨j, hland, hblock hsame⟩
        · rw [List.concat_eq_append, ← List.append_assoc] at hpost
          exact hmid mid rest (List.append_inj_left' hpost rfl)
      · rcases List.mem_append.mp hx with hx | hx
        · exact hlines x hx
        · rw [List.mem_singleton.mp hx]
          exact hno
    intro it k hplace hrel
    have hland := hplace
    rw [hsnoc] at hplace hrel
    cases hstep with
    | leaves hleft =>
      rcases hleft with hleft | hleft
      · rw [hleft] at hplace
        cases hplace
      · rw [hleft] at hrel
        cases hrel
    | stays place released outside =>
      rw [place] at hplace
      rw [released] at hrel
      have hsome : (after split is).place ≠ none := by
        rw [hplace]
        exact nofun
      refine hon hplace hrel hland (fun hl => ?_) id
      have hin := hlast.lines hrel hsome hl
      rw [outside hl hsome] at hin
      cases hin
    | lets plays wait place =>
      rw [place] at hplace
      refine ⟨is, i, [], k, rfl, plays, wait, hplace, fun mid rest hpost => ?_, fun j hj =>
        absurd hj List.not_mem_nil⟩
      obtain ⟨rfl, -⟩ := List.append_eq_nil_iff.mp hpost.symm
      exact ⟨k, hland, .refl it k⟩
    | @goes it' k₀ dest start land released line how =>
      rw [land] at hplace
      obtain ⟨rfl, rfl⟩ := Prod.mk.inj (Option.some.inj hplace)
      refine hon start released hland (fun hl => ?_) fun hb => hb.goes hlast start released line how
      cases how with
      | ended he =>
        obtain ⟨g, -, hi⟩ := he
        rcases hl with rfl | rfl
        · rcases hi with hi | ⟨_, hi⟩ <;> cases hi
        · rcases hi with hi | ⟨_, hi⟩ <;> cases hi
      | next => rcases hl with hl | hl <;> cases hl
      | previous => rcases hl with hl | hl <;> cases hl
      | restart => rcases hl with hl | hl <;> cases hl

end Runs

end Sonara.L1
