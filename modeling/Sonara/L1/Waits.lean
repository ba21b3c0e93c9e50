import Sonara.L1.Stepping

/-!
# Where step mode waits

At a step wait only a control or `set_code_step` plays the chunk waited at
(`waits_silent`); `set_code_step(false)` plays it at once (`step_off_plays`). A pause the
user made is no step wait, and every call that neither plays nor steps by lines keeps it,
but for going idle (`call_keeps`, `run_held`). A release is bounded by its block in the runs
whose released steps stay within it (`step_mode`); a restart can leave it
(`restart_carries_release`).
-/

namespace Sonara.L1

open Sonara (Text)
open Sonara.CodeSpeech (CodeKind kind)

/-- The reader waits at chunk `k` in step mode. -/
structure Awaits (it : Item) (k : Nat) (r : Reader) : Prop where
  place : r.place = some (it, k)
  wait : r.stepWait = true

/-- The user paused. -/
structure Held (r : Reader) : Prop where
  paused : r.paused = true
  noWait : r.stepWait = false

/-- Neither a control nor `set_code_step`. -/
def Calm (i : Input) : Prop := (∀ k, i ≠ .control k) ∧ ∀ on, i ≠ .setCodeStep on

namespace Call

/-! ## A step wait begins -/

/-- Step mode waits at the next chunk. -/
theorem advance_waits {c : Call} {cur : Current} (hc : c.r.current = some cur)
    (hlen : cur.chunk + 1 < cur.item.chunks.length) (hon : c.r.codeStep = true)
    (hrel : c.r.released = false) (hp : c.r.paused = false)
    (hwaits : waits (kind (cur.item.chunkAt cur.chunk))
      (kind (cur.item.chunkAt (cur.chunk + 1))) = true) :
    Awaits cur.item (cur.chunk + 1) c.advance.r := by
  unfold advance
  rw [hc]
  dsimp only
  have hflag : (!c.r.released && waits (kind (cur.item.chunkAt cur.chunk))
      (kind (cur.item.chunkAt (cur.chunk + 1)))) = true := by
    rw [hrel, hwaits]
    rfl
  rw [if_pos hlen, hflag]
  obtain ⟨b, hb⟩ := unrelease_r ⟨{ c.r with current := some { cur with chunk := cur.chunk + 1 } },
    c.fx⟩
    (kind (cur.item.chunkAt (cur.chunk + 1)))
  generalize Call.unrelease ⟨{ c.r with current := some { cur with chunk := cur.chunk + 1 } }, c.fx⟩
    (kind (cur.item.chunkAt (cur.chunk + 1))) = d at hb ⊢
  have hwait : d.waitStep true = { d with r := { d.r with paused := true, stepWait := true } } := by
    refine if_pos ?_
    rw [hb]
    dsimp only
    rw [hon, hp]
    rfl
  obtain ⟨q, g, l, hr⟩ := (d.waitStep true).beginChunk_r
  rw [hwait] at hr ⊢
  rw [hr]
  refine ⟨?_, rfl⟩
  show d.r.place = some (cur.item, cur.chunk + 1)
  rw [hb]
  rfl

/-! ## The user's pause -/

/-- The user's pause holds, or the reader is idle; no step wait begins. -/
def Keeps (r : Reader) : Prop := Held r ∨ r.place = none ∧ r.stepWait = false

theorem startNext_keeps {c : Call} (h : Held c.r) (hc : c.r.current = none) :
    Keeps c.startNext.r := by
  cases hq : c.r.queue with
  | nil =>
    right
    rw [startNext_idle hq]
    exact ⟨Reader.place_none.mpr hc, rfl⟩
  | cons item rest =>
    obtain ⟨p, q, g, l, hr, hp⟩ := startNext_r hq
    left
    rw [hr]
    exact ⟨(hp h.noWait).trans h.paused, rfl⟩

theorem startNext_noWait (c : Call) : c.startNext.r.stepWait = false := by
  cases hq : c.r.queue with
  | nil => rw [startNext_idle hq]
  | cons item rest =>
    obtain ⟨p, q, g, l, hr, -⟩ := startNext_r hq
    rw [hr]

/-- Ending an item keeps the user's pause. -/
theorem endCurrent_held {c : Call} (h : Held c.r) (phase : ItemPhase) :
    Held (c.endCurrent phase).r := by
  have hstop : Held c.stopOutput.r := by
    rw [stopOutput_r]
    exact ⟨h.paused, h.noWait⟩
  cases hc : c.r.current with
  | some cur =>
    rw [endCurrent_r hc]
    exact ⟨h.paused, h.noWait⟩
  | none =>
    have hnone : c.stopOutput.r.current = none := by
      rw [stopOutput_r]
      exact hc
    unfold endCurrent
    dsimp only
    rw [hnone]
    exact hstop

theorem skip_keeps {c : Call} (h : Held c.r) : Keeps c.skip.r :=
  startNext_keeps (endCurrent_held h .skipped) (endCurrent_current c .skipped)

theorem moveTo_held {c : Call} (h : Held c.r) {cur : Current} (hc : c.r.current = some cur)
    (dest : Nat) :
    Held (c.moveTo dest).r := by
  obtain ⟨p, q, g, l, hr, hp⟩ := moveTo_r hc dest
  rw [hr]
  exact ⟨(hp h.noWait).trans h.paused, rfl⟩

/-- Going on keeps the user's pause, or leaves the reader idle. -/
theorem advance_keeps {c : Call} (h : Held c.r) : Keeps c.advance.r := by
  unfold advance
  split
  next hc => exact .inr ⟨Reader.place_none.mpr hc, h.noWait⟩
  next cur hc =>
    split
    · -- Paused, no step wait begins.
      have hnext : ∀ (d : Call) (b : Bool), Held d.r → Held (d.waitStep b).beginChunk.r := by
        intro d b hd
        have hno : d.waitStep b = d := if_neg (by rw [hd.paused]; simp)
        obtain ⟨q, g, l, hr⟩ := d.beginChunk_r
        rw [hno, hr]
        exact ⟨hd.paused, hd.noWait⟩
      dsimp only
      refine .inl (hnext _ _ ?_)
      obtain ⟨b, hb⟩ :=
        unrelease_r ⟨{ c.r with current := some { cur with chunk := cur.chunk + 1 } }, c.fx⟩
        (kind (cur.item.chunkAt (cur.chunk + 1)))
      rw [hb]
      exact ⟨h.paused, h.noWait⟩
    · exact startNext_keeps (endCurrent_held h _) (endCurrent_current c _)

theorem resume_noWait (c : Call) : c.resume.r.stepWait = false := by
  unfold resume
  dsimp only
  split
  · rfl
  · obtain ⟨q, g, l, hr⟩ :=
      (⟨{ c.r with paused := false, stepWait := false }, c.fx⟩ : Call).beginChunk_r
    rw [hr]

/-- Under the user's pause a step by lines begins no wait. -/
theorem lineStep_noWait {c : Call} (h : Held c.r) (next : Bool) :
    (c.lineStep next).r.stepWait = false := by
  unfold lineStep
  split
  · exact h.noWait
  next cur hc =>
    split
    · exact h.noWait
    · dsimp only
      split
      · exact startNext_noWait _
      · obtain ⟨p, q, g, l, hr, -⟩ := moveTo_r (c := ⟨{ c.r with
          paused := false, stepWait := false, released := false }, c.fx⟩) hc
          (lineTarget c.r cur next)
        rw [hr]

/-- A pause of the current item is the user's. -/
theorem pause_held {c : Call} (h : c.r.current ≠ none) : Held c.pause.r := by
  unfold pause
  dsimp only
  split
  next hp =>
    rw [Bool.or_eq_true, Option.isNone_iff_eq_none] at hp
    exact ⟨hp.resolve_left h, rfl⟩
  · split
    · exact ⟨rfl, rfl⟩
    · exact ⟨rfl, rfl⟩

/-- A control that neither plays nor steps lines keeps the user's pause. -/
theorem control_keeps {c : Call} (h : Held c.r) (hcur : c.r.current ≠ none) {k : Control}
    (hplay : ¬Plays (.control k)) (hline : ¬Lines (.control k)) : Keeps (c.control k).r := by
  obtain ⟨cur, hc⟩ := Option.ne_none_iff_exists'.mp hcur
  cases k with
  | play => exact absurd (.inl rfl) hplay
  | pause => exact .inl (pause_held hcur)
  | toggle => exact absurd (.inr rfl) hplay
  | stop =>
    refine .inr ⟨stop_leaves c, ?_⟩
    show c.stop.r.stepWait = false
    unfold stop
    dsimp only
    split
    · exact h.noWait
    · rfl
  | skip =>
    show Keeps (if c.r.current.isSome then c.skip else c).r
    split
    · exact skip_keeps h
    · exact .inl h
  | previous =>
    show Keeps c.previous.r
    unfold previous
    rw [hc]
    exact .inl (moveTo_held h hc _)
  | next =>
    show Keeps c.next.r
    unfold next
    rw [hc]
    dsimp only
    split
    · exact .inl (moveTo_held h hc _)
    · exact skip_keeps h
  | restart =>
    show Keeps c.restart.r
    unfold restart
    rw [if_pos (by rw [hc]; rfl)]
    exact .inl (moveTo_held h hc 0)
  | mute =>
    show Keeps (if (!c.r.muted) = true then _ else c).r
    split
    · exact .inl ⟨h.paused, h.noWait⟩
    · exact .inl h
  | unmute =>
    show Keeps (if c.r.muted = true then _ else c).r
    split
    · exact .inl ⟨h.paused, h.noWait⟩
    · exact .inl h
  | nextLine => exact absurd (.inl rfl) hline
  | previousLine => exact absurd (.inr rfl) hline

/-- Nothing that waits by itself begins out of the user's pause. -/
theorem control_noWait {c : Call} (h : Held c.r) (hcur : c.r.current ≠ none) (k : Control) :
    (c.control k).r.stepWait = false := by
  have hkeep : ∀ {r : Reader}, Keeps r → r.stepWait = false :=
    fun hk => hk.elim Held.noWait And.right
  cases k with
  | play =>
    show (if c.r.paused then c.play else c).r.stepWait = false
    rw [if_pos h.paused]
    exact resume_noWait _
  | toggle =>
    show (if c.r.paused then c.play else c.pause).r.stepWait = false
    rw [if_pos h.paused]
    exact resume_noWait _
  | nextLine => exact lineStep_noWait h true
  | previousLine => exact lineStep_noWait h false
  | pause =>
    exact hkeep (control_keeps h hcur (by rintro (h | h) <;> cases h)
      (by rintro (h | h) <;> cases h))
  | stop =>
    exact hkeep (control_keeps h hcur (by rintro (h | h) <;> cases h)
      (by rintro (h | h) <;> cases h))
  | skip =>
    exact hkeep (control_keeps h hcur (by rintro (h | h) <;> cases h)
      (by rintro (h | h) <;> cases h))
  | previous =>
    exact hkeep (control_keeps h hcur (by rintro (h | h) <;> cases h)
      (by rintro (h | h) <;> cases h))
  | next =>
    exact hkeep (control_keeps h hcur (by rintro (h | h) <;> cases h)
      (by rintro (h | h) <;> cases h))
  | restart =>
    exact hkeep (control_keeps h hcur (by rintro (h | h) <;> cases h)
      (by rintro (h | h) <;> cases h))
  | mute =>
    exact hkeep (control_keeps h hcur (by rintro (h | h) <;> cases h)
      (by rintro (h | h) <;> cases h))
  | unmute =>
    exact hkeep (control_keeps h hcur (by rintro (h | h) <;> cases h)
      (by rintro (h | h) <;> cases h))

theorem finish_keeps {c : Call} (h : Keeps c.r) : Keeps c.finish.r := by
  obtain ⟨q, s, -, hr⟩ := c.finish_r
  rw [hr]
  exact h.imp (fun h => ⟨h.paused, h.noWait⟩) id

theorem enqueue_keeps {c : Call} (h : Held c.r) (hcur : c.r.current ≠ none) (item : Item)
    (interrupt : Bool) :
    Keeps (c.enqueue item interrupt).r := by
  unfold enqueue
  split
  · have hheld := endCurrent_held h .skipped
    exact startNext_keeps ⟨hheld.paused, hheld.noWait⟩ (endCurrent_current c .skipped)
  · dsimp only
    split
    next hnone => exact absurd (Option.isNone_iff_eq_none.mp hnone) hcur
    · exact .inl ⟨h.paused, h.noWait⟩

end Call

/-! ## Every call -/

/-- **The user's pause is kept** by every call but Play, Toggle and a line step, or the
reader goes idle. -/
theorem call_keeps (split : Chunking → Text → List Text) {r : Reader} (hs : Settled r) (h : Held r)
    {i : Input} (hplay : ¬Plays i) (hline : ¬Lines i) : Call.Keeps (r.call split i).r := by
  have hcur : r.current ≠ none := Option.isSome_iff_ne_none.mp (hs.paused_current h.paused)
  cases i with
  | speak text mode interrupt label =>
    show Call.Keeps (r.speak split text mode interrupt label).2.r
    unfold Reader.speak
    dsimp only
    split
    · exact .inl ⟨h.paused, h.noWait⟩
    · refine Call.finish_keeps ?_
      split
      · obtain ⟨q, hq⟩ := Call.dropQueue_r (Call.bump ⟨r, []⟩ (r.nextId + 1))
        refine Call.enqueue_keeps ?_ ?_ _ _
        · rw [hq]
          exact ⟨h.paused, h.noWait⟩
        · rw [hq]
          exact hcur
      · exact Call.enqueue_keeps ⟨h.paused, h.noWait⟩ hcur _ _
  | control k => exact Call.finish_keeps (Call.control_keeps (c := ⟨r, []⟩) h hcur hplay hline)
  | onAudio e =>
    show Call.Keeps (r.onAudio e).r
    unfold Reader.onAudio
    split
    · exact .inl h
    · cases e with
      | chunkStarted g => exact Call.finish_keeps (.inl ⟨h.paused, h.noWait⟩)
      | chunkFinished g =>
        exact Call.finish_keeps (Call.advance_keeps
          (c := ⟨{ r.markPlayed with loaded := none }, []⟩)
          ⟨h.paused, h.noWait⟩)
      | failed g reason =>
        exact Call.finish_keeps (Call.advance_keeps (c := ⟨{ r with loaded := none }, []⟩)
          ⟨h.paused, h.noWait⟩)
  | setVolume v =>
    refine Call.finish_keeps ?_
    split
    · exact .inl ⟨h.paused, h.noWait⟩
    · exact .inl h
  | setRate v => exact Call.finish_keeps (.inl ⟨h.paused, h.noWait⟩)
  | setVoice v => exact Call.finish_keeps (.inl ⟨h.paused, h.noWait⟩)
  | setLookahead n => exact Call.finish_keeps (.inl ⟨h.paused, h.noWait⟩)
  | setChunking k => exact Call.finish_keeps (.inl ⟨h.paused, h.noWait⟩)
  | setCodeStep on =>
    refine Call.finish_keeps ?_
    rw [if_neg (by rw [h.noWait]; simp)]
    exact .inl ⟨h.paused, h.noWait⟩

/-- **No call makes a step wait of the user's pause.** -/
theorem call_noWait (split : Chunking → Text → List Text) {r : Reader} (hs : Settled r) (h : Held r)
    (i : Input) : (r.call split i).r.stepWait = false := by
  have hcur : r.current ≠ none := Option.isSome_iff_ne_none.mp (hs.paused_current h.paused)
  have hkeep : ¬Plays i → ¬Lines i → (r.call split i).r.stepWait = false := fun hp hl =>
    (call_keeps split hs h hp hl).elim Held.noWait And.right
  cases i with
  | control k =>
    obtain ⟨q, s, -, hr⟩ := (Call.control ⟨r, []⟩ k).finish_r
    show (r.control k).r.stepWait = false
    unfold Reader.control
    rw [hr]
    exact Call.control_noWait h hcur k
  | speak => exact hkeep (by rintro (h | h) <;> cases h) (by rintro (h | h) <;> cases h)
  | onAudio => exact hkeep (by rintro (h | h) <;> cases h) (by rintro (h | h) <;> cases h)
  | setVolume => exact hkeep (by rintro (h | h) <;> cases h) (by rintro (h | h) <;> cases h)
  | setRate => exact hkeep (by rintro (h | h) <;> cases h) (by rintro (h | h) <;> cases h)
  | setVoice => exact hkeep (by rintro (h | h) <;> cases h) (by rintro (h | h) <;> cases h)
  | setLookahead => exact hkeep (by rintro (h | h) <;> cases h) (by rintro (h | h) <;> cases h)
  | setChunking => exact hkeep (by rintro (h | h) <;> cases h) (by rintro (h | h) <;> cases h)
  | setCodeStep => exact hkeep (by rintro (h | h) <;> cases h) (by rintro (h | h) <;> cases h)

/-! ## At a step wait -/

theorem Awaits.finish {it : Item} {k : Nat} {c : Call} (h : Awaits it k c.r) :
    Awaits it k c.finish.r := by
  obtain ⟨q, s, -, hr⟩ := c.finish_r
  refine ⟨c.finish_place.trans h.place, ?_⟩
  rw [hr]
  exact h.wait

/-- A line, or the announcement before one, ended: the reader waits at the next chunk. -/
theorem ended_awaits (split : Chunking → Text → List Text) {r : Reader} (hs : Settled r) {i : Input}
    (hend : Ends r i) {it : Item} {k : Nat} (hplace : r.place = some (it, k))
    (hon : r.codeStep = true)
    (hrel : r.released = false) (hfree : ¬Held r) (hlen : k + 1 < it.chunks.length)
    (hwaits : Call.waits (kind (it.chunkAt k)) (kind (it.chunkAt (k + 1))) = true) :
    Awaits it (k + 1) (r.call split i).r := by
  obtain ⟨g, hload, hi⟩ := hend
  obtain ⟨b, hc⟩ := Reader.place_eq.mp hplace
  have hnoWait : r.stepWait = false := by
    cases hw : r.stepWait with
    | false => rfl
    | true =>
      have hnone := (hs.stepWait hw).2
      rw [hload] at hnone
      cases hnone
  have hpaused : r.paused = false := by
    cases hp : r.paused with
    | false => rfl
    | true => exact absurd ⟨hp, hnoWait⟩ hfree
  have hheard : ∀ e : AudioEvent, e.gen = g → ¬r.loaded ≠ some e.gen := fun e he => by
    rw [he]
    exact not_not.mpr hload
  rcases hi with rfl | ⟨reason, rfl⟩
  · show Awaits it (k + 1) (r.onAudio (.chunkFinished g)).r
    unfold Reader.onAudio
    rw [if_neg (hheard _ rfl)]
    have hmark : r.markPlayed.current = some ⟨it, k, true⟩ := by
      unfold Reader.markPlayed
      rw [hc]
      rfl
    exact (Call.advance_waits (c := ⟨{ r.markPlayed with loaded := none }, []⟩) hmark hlen hon
      hrel hpaused
      hwaits).finish
  · show Awaits it (k + 1) (r.onAudio (.failed g reason)).r
    unfold Reader.onAudio
    rw [if_neg (hheard _ rfl)]
    exact (Call.advance_waits (c := ⟨{ r with loaded := none }, []⟩) hc hlen hon hrel hpaused
      hwaits).finish

/-- The items an interrupt leaves: the new one, and what was queued. -/
theorem interrupt_ids {c : Call} {item : Item} (h : c.r.current ≠ none) {n : ItemId}
    (hn : n ≠ item.id) (hqueue : n ∉ c.r.queue.map Item.id) : n ∉ (c.enqueue item true).r.ids := by
  obtain ⟨cur, hc⟩ := Option.ne_none_iff_exists'.mp h
  have hq : ((c.endCurrent .skipped).pushFront item).r.queue = item :: c.r.queue := by
    show item :: (c.endCurrent .skipped).r.queue = _
    rw [Call.endCurrent_r hc]
  obtain ⟨p, q, g, l, hr, -⟩ := Call.startNext_r hq
  unfold Call.enqueue
  rw [if_pos (by rw [hc]; rfl), hr]
  unfold Reader.ids Reader.live
  intro hmem
  rcases List.mem_cons.mp hmem with hmem | hmem
  · exact hn hmem
  · exact hqueue hmem

/-- **A calm call leaves the wait**, or interrupts its item. -/
theorem calm_awaits (split : Chunking → Text → List Text) {r : Reader} {h : List Effect}
    (hs : Settled r)
    (hl : Ledger r h) {it : Item} {k : Nat} (ha : Awaits it k r) {i : Input} (hi : Calm i) :
    Awaits it k (r.call split i).r ∨ it.id ∉ (r.call split i).r.ids := by
  obtain ⟨b, hc⟩ := Reader.place_eq.mp ha.place
  cases i with
  | speak text mode interrupt label =>
    show Awaits it k (r.speak split text mode interrupt label).2.r ∨
      it.id ∉ (r.speak split text mode interrupt label).2.r.ids
    have hlive : it.id ∈ r.ids := Ledger.mem_ids_current hc
    have hnew : it.id ≠ r.nextId := Nat.ne_of_lt (hl.live _ hlive).2
    have hqueue : it.id ∉ r.queue.map Item.id := by
      have hnodup := hl.nodup
      unfold Reader.ids at hnodup
      rw [Ledger.live_eq_cons hc, List.map_cons, List.nodup_cons] at hnodup
      exact hnodup.1
    have hids : ∀ c : Call, c.finish.r.ids = c.r.ids := by
      intro c
      obtain ⟨q, s, -, hr⟩ := c.finish_r
      rw [hr]
      rfl
    -- Whether or not the queue was dropped before.
    have hput : ∀ (c : Call) (item : Item), c.r.current = r.current → c.r.stepWait = r.stepWait →
        item.id = r.nextId → it.id ∉ c.r.queue.map Item.id →
          Awaits it k (c.enqueue item interrupt).finish.r ∨
            it.id ∉ (c.enqueue item interrupt).finish.r.ids := by
      intro c item hcur hwait hid hq
      rw [hids]
      cases interrupt with
      | true =>
        refine .inr (interrupt_ids ?_ (hid ▸ hnew) hq)
        rw [hcur, hc]
        exact nofun
      | false =>
        left
        refine Awaits.finish ?_
        unfold Call.enqueue
        rw [if_neg (by simp)]
        dsimp only
        have hsome : ¬(c.pushBack item).r.current.isNone = true := by
          show ¬c.r.current.isNone = true
          rw [hcur, hc]
          exact Bool.false_ne_true
        rw [if_neg hsome]
        refine ⟨?_, hwait.trans ha.wait⟩
        show c.r.current.map _ = _
        rw [hcur]
        exact ha.place
    unfold Reader.speak
    dsimp only
    split
    · exact .inl ⟨ha.place, ha.wait⟩
    · split
      · obtain ⟨q, hq⟩ := Call.dropQueue_r (Call.bump ⟨r, []⟩ (r.nextId + 1))
        refine hput _ _ ?_ ?_ rfl ?_
        · rw [hq]
          rfl
        · rw [hq]
          rfl
        · rw [hq]
          exact List.not_mem_nil
      · exact hput _ _ rfl rfl rfl hqueue
  | control k => exact absurd rfl (hi.1 k)
  | onAudio e =>
    left
    show Awaits it k (r.onAudio e).r
    unfold Reader.onAudio
    rw [if_pos (by rw [(hs.stepWait ha.wait).2]; exact nofun)]
    exact ha
  | setVolume v =>
    left
    refine Awaits.finish ?_
    split
    · exact ⟨ha.place, ha.wait⟩
    · exact ha
  | setRate v => exact .inl (Awaits.finish ⟨ha.place, ha.wait⟩)
  | setVoice v => exact .inl (Awaits.finish ⟨ha.place, ha.wait⟩)
  | setLookahead n => exact .inl (Awaits.finish ⟨ha.place, ha.wait⟩)
  | setChunking k => exact .inl (Awaits.finish ⟨ha.place, ha.wait⟩)
  | setCodeStep on => exact absurd rfl (hi.2 on)

/-- `finish` only pushes. -/
theorem Call.finish_fx (c : Call) : ∃ t, c.finish.fx = c.fx ++ t := by
  have hrequest : ∀ (d : Call) (n : ItemId) (i : Nat) (x : Text), ∃ t, (d.request n i x).fx =
      d.fx ++ t := by
    intro d n i x
    unfold Call.request
    split
    · exact ⟨[], (List.append_nil _).symm⟩
    · exact ⟨_, rfl⟩
  have hrequests : ∀ (l : List (ItemId × Nat × Text)) (d : Call),
      ∃ t, (l.foldl (fun c e => c.request e.1 e.2.1 e.2.2) d).fx = d.fx ++ t := by
    intro l
    induction l with
    | nil => exact fun d => ⟨[], (List.append_nil _).symm⟩
    | cons e l ih =>
      intro d
      obtain ⟨t, ht⟩ := hrequest d e.1 e.2.1 e.2.2
      obtain ⟨u, hu⟩ := ih (d.request e.1 e.2.1 e.2.2)
      exact ⟨t ++ u, hu.trans (by rw [ht, List.append_assoc])⟩
  have hprefetch : ∃ t, c.prefetch.fx = c.fx ++ t := by
    unfold Call.prefetch
    split
    · exact hrequests _ c
    · exact ⟨[], (List.append_nil _).symm⟩
  obtain ⟨t, ht⟩ := hprefetch
  unfold Call.finish
  dsimp only
  split
  · exact ⟨t ++ _, by rw [← List.append_assoc, ← ht]⟩
  · exact ⟨t, ht⟩

/-- Out of a step wait, step mode off plays the chunk waited at. -/
theorem setCodeStep_off {r : Reader} {it : Item} {k : Nat} {b : Bool}
    (hc : r.current = some ⟨it, k, b⟩) (hw : r.stepWait = true) (hload : r.loaded = none) :
    .playChunk it.id k (r.gen + 1) ∈ (r.setCodeStep false).fx ∧
      (r.setCodeStep false).r.paused = false ∧ (r.setCodeStep false).r.stepWait = false := by
  generalize hfree : (⟨{ r with codeStep := false, paused := false, stepWait := false },
    []⟩ : Call) = c
  have hcur : c.r.current = some ⟨it, k, b⟩ := by rw [← hfree]; exact hc
  have hpaused : c.r.paused = false := by rw [← hfree]
  have hwait : c.r.stepWait = false := by rw [← hfree]
  have hgen : c.r.gen = r.gen := by rw [← hfree]
  have hcall : r.setCodeStep false = c.beginChunk.finish := by
    rw [← hfree]
    unfold Reader.setCodeStep
    dsimp only
    rw [if_pos (by rw [hw]; rfl)]
    unfold Call.resume
    exact congrArg Call.finish (if_neg (by rw [hload]; exact Bool.false_ne_true))
  have hplay : .playChunk it.id k (r.gen + 1) ∈ c.beginChunk.fx := by
    unfold Call.beginChunk
    rw [hcur]
    dsimp only
    rw [Call.request_r, if_neg (by rw [hpaused]; exact Bool.false_ne_true)]
    dsimp only
    rw [hgen]
    exact List.mem_append_right _ List.mem_cons_self
  obtain ⟨t, ht⟩ := c.beginChunk.finish_fx
  obtain ⟨q, s, -, hr⟩ := c.beginChunk.finish_r
  obtain ⟨q', g, l, hb⟩ := c.beginChunk_r
  rw [hcall, ht, hr, hb]
  exact ⟨List.mem_append_left t hplay, hpaused, hwait⟩

section Runs

variable (split : Chunking → Text → List Text)

/-- An item that ended is never live again. -/
theorem gone_stays {n : ItemId} (is js : List Input) (hgiven : (after split is).Given n)
    (h : n ∉ (after split is).ids) : n ∉ (after split (is ++ js)).ids := by
  have hend := (state_ledger split is).1.ended n hgiven h
  obtain ⟨p, hp, hphases⟩ := hend.phases
  have hl := (state_ledger split (is ++ js)).1
  -- What is live has at most started.
  have hlive : n ∈ (after split (is ++ js)).ids →
      p ∉ phases n ((machine split).out (is ++ js)) := by
    intro hmem
    obtain ⟨it, hit, rfl⟩ := List.mem_map.mp hmem
    rcases List.mem_append.mp hit with hit | hit
    · obtain ⟨cur, hcur, rfl⟩ := List.mem_map.mp hit
      rw [hl.reading cur (Option.mem_toList.mp hcur)]
      intro hin
      rw [List.mem_singleton.mp hin] at hp
      exact hp
    · rw [hl.waiting it hit]
      exact List.not_mem_nil
  intro hmem
  refine hlive hmem ?_
  rw [Lib.Machine.out_append, phases_append]
  refine List.mem_append_left _ ?_
  rcases hphases with he | he
  · rw [he]
    exact List.mem_cons_self
  · rw [he]
    exact List.mem_cons_of_mem _ List.mem_cons_self

theorem given_snoc {n : ItemId} {is : List Input} (h : (after split is).Given n) (i : Input) :
    (after split (is ++ [i])).Given n := by
  have hsnoc : after split (is ++ [i]) = ((after split is).call split i).r :=
    (machine split).state_snoc is i
  rw [hsnoc]
  rcases call_handsOut split (after split is) i with ⟨-, hn⟩ | ⟨-, hn⟩
  · exact ⟨h.1, by rw [hn]; exact h.2⟩
  · exact ⟨h.1, by rw [hn]; exact Nat.lt_succ_of_lt h.2⟩

/-- The chunk a call plays is loaded after it. -/
theorem played_loaded {is : List Input} {i : Input} {n : ItemId} {k g : Nat}
    (h : .playChunk n k g ∈ (machine split).answer is i) :
    (after split (is ++ [i])).loaded = some g ∧
      ∃ it, (after split (is ++ [i])).place = some (it, k) ∧ it.id = n := by
  have hsnoc : after split (is ++ [i]) = ((after split is).call split i).r :=
    (machine split).state_snoc is i
  have hopened := (call_path split (state_inRange split is) (state_settled split is) i).opened
    (opened_nil _)
  obtain ⟨hload, -, cur, hcur, rfl, rfl⟩ := hopened.played n k g h
  rw [hsnoc]
  exact ⟨hload, cur.item, Reader.place_eq.mpr ⟨cur.playedAny, hcur⟩, rfl⟩

/-- **At a step wait nothing plays the chunk waited at** but a control or `set_code_step`. -/
theorem waits_silent {is : List Input} {it : Item} {k : Nat} (ha : Awaits it k (after split is))
    {js : List Input} (hjs : ∀ j ∈ js, Calm j) (g : Nat) :
    .playChunk it.id k g ∉ (machine split).outFrom (after split is) js ∧
      (after split (is ++ js)).Given it.id ∧
        (Awaits it k (after split (is ++ js)) ∨ it.id ∉ (after split (is ++ js)).ids) := by
  induction js using List.reverseRecOn with
  | nil =>
    rw [List.append_nil]
    obtain ⟨b, hc⟩ := Reader.place_eq.mp ha.place
    have hgiven : (after split is).Given it.id :=
      (state_ledger split is).1.live _ (Ledger.mem_ids_current hc)
    exact ⟨List.not_mem_nil, hgiven, .inl ha⟩
  | append_singleton js j ih =>
    obtain ⟨hquiet, hgiven, hstate⟩ := ih fun x hx => hjs x (List.mem_append_left [j] hx)
    have hcalm := hjs j (List.mem_append_right js List.mem_cons_self)
    have hsnoc : after split (is ++ js ++ [j]) = ((after split (is ++ js)).call split j).r :=
      (machine split).state_snoc (is ++ js) j
    have hnext : Awaits it k (after split (is ++ js ++ [j])) ∨
        it.id ∉ (after split (is ++ js ++ [j])).ids := by
      rcases hstate with hwait | hgone
      · rw [hsnoc]
        exact calm_awaits split (state_settled split _) (state_ledger split _).1 hwait hcalm
      · exact .inr (gone_stays split (is ++ js) [j] hgiven hgone)
    rw [← List.append_assoc]
    refine ⟨?_, given_snoc split hgiven j, hnext⟩
    rw [Lib.Machine.outFrom_append]
    intro hmem
    rcases List.mem_append.mp hmem with hmem | hmem
    · exact hquiet hmem
    · have hanswer : Effect.playChunk it.id k g ∈ (machine split).answer (is ++ js) j := by
        have hone : (machine split).outFrom ((machine split).stateFrom (after split is) js) [j] =
            (machine split).answer (is ++ js) j ++ [] := by
          rw [← Lib.Machine.state_append]
          rfl
        rw [hone, List.append_nil] at hmem
        exact hmem
      obtain ⟨hload, it', hplace, hid⟩ := played_loaded split hanswer
      rcases hnext with hwait | hgone
      · have hnone := ((state_settled split (is ++ js ++ [j])).stepWait hwait.wait).2
        rw [hload] at hnone
        cases hnone
      · obtain ⟨b', hc'⟩ := Reader.place_eq.mp hplace
        exact hgone (hid ▸ Ledger.mem_ids_current hc')

/-- **The user's pause over a run**: it holds, or the reader went idle. -/
theorem run_held {is : List Input} (h : Held (after split is)) {js : List Input}
    (hjs : ∀ j ∈ js, ¬Plays j ∧ ¬Lines j) : Held (after split (is ++ js)) ∨
      ∃ mid rest, js = mid ++ rest ∧ (after split (is ++ mid)).place = none := by
  induction js using List.reverseRecOn with
  | nil =>
    rw [List.append_nil]
    exact .inl h
  | append_singleton js j ih =>
    have hlast := hjs j (List.mem_append_right js List.mem_cons_self)
    have hsnoc : after split (is ++ js ++ [j]) = ((after split (is ++ js)).call split j).r :=
      (machine split).state_snoc (is ++ js) j
    rcases ih fun x hx => hjs x (List.mem_append_left [j] hx) with hheld | ⟨mid, rest, rfl, hnone⟩
    · have hkeeps := call_keeps split (state_settled split (is ++ js)) hheld hlast.1 hlast.2
      rw [← hsnoc, List.append_assoc] at hkeeps
      rcases hkeeps with hkeeps | ⟨hnone, -⟩
      · exact .inl hkeeps
      · exact .inr ⟨js ++ [j], [], (List.append_nil _).symm, hnone⟩
    · exact .inr ⟨mid, rest ++ [j], by simp, hnone⟩

/-- **Step mode off at a step wait plays at once.** -/
theorem step_off_plays {is : List Input} (h : (after split is).stepWait = true) :
    ∃ it k g, (after split is).place = some (it, k) ∧
      .playChunk it.id k g ∈ (machine split).answer is (.setCodeStep false) ∧
        (after split (is ++ [.setCodeStep false])).paused = false ∧
          (after split (is ++ [.setCodeStep false])).stepWait = false := by
  have hs := state_settled split is
  have hsnoc : after split (is ++ [.setCodeStep false]) = ((after split is).setCodeStep false).r :=
    (machine split).state_snoc is (.setCodeStep false)
  have hsome : (after split is).current.isSome := hs.stepWait_current h
  have hload : (after split is).loaded = none := (hs.stepWait h).2
  obtain ⟨⟨it, k, b⟩, hc⟩ := Option.isSome_iff_exists.mp hsome
  obtain ⟨hplay, hp, hw⟩ := setCodeStep_off hc h hload
  rw [hsnoc]
  exact ⟨it, k, (after split is).gen + 1, Reader.place_eq.mpr ⟨b, hc⟩, hplay, hp, hw⟩

/-! ## Every run -/

/-- The audio of chunk `k` ended at a step wait: of the announcement before a line, or of a
line. -/
def Steps (it : Item) (k : Nat) : Prop :=
  kind (it.chunkAt k) = .start ∧ it.Line (k + 1) ∨ it.Line k

theorem Steps.waits {it : Item} {k : Nat} (h : Steps it k) :
    Call.waits (kind (it.chunkAt k)) (kind (it.chunkAt (k + 1))) = true := by
  rcases h with ⟨hstart, hline⟩ | hline
  · have hline : kind (it.chunkAt (k + 1)) = .line := hline
    rw [hstart, hline]
    rfl
  · have hline : kind (it.chunkAt k) = .line := hline
    rw [hline]
    rfl

/-- **Step mode** (#295), after the run `is`. -/
structure StepMode (is : List Input) : Prop where
  /-- After an announcement or a line nothing plays the next chunk by itself. -/
  waits : ∀ i it k, (after split is).codeStep = true → Ends (after split is) i →
    (after split is).place = some (it, k) → k + 1 < it.chunks.length → Steps it k →
    ¬Held (after split is) → (after split is).released = false →
    ∀ js : List Input, (∀ j ∈ js, Calm j) → ∀ g,
      .playChunk it.id (k + 1) g ∉ (machine split).outFrom (after split is) (i :: js)
  /-- A release holds within its block. -/
  through : Through split is
  /-- Pause, and Toggle while the reader plays, are the user's pause. -/
  held : ∀ k, k = .pause ∨ k = .toggle ∧ (after split is).paused = false →
    (after split is).current ≠ none → Held (after split (is ++ [.control k]))
  /-- The user's pause is never turned into a step wait. -/
  noWait : Held (after split is) → ∀ i, (after split (is ++ [i])).stepWait = false
  /-- It holds until Play, Toggle, a line step or idle. -/
  keeps : Held (after split is) → ∀ js : List Input, (∀ j ∈ js, ¬Plays j ∧ ¬Lines j) →
    Held (after split (is ++ js)) ∨
      ∃ mid rest, js = mid ++ rest ∧ (after split (is ++ mid)).place = none
  /-- Step mode off at a step wait plays the chunk waited at. -/
  off : (after split is).stepWait = true → ∃ it k g, (after split is).place = some (it, k) ∧
    .playChunk it.id k g ∈ (machine split).answer is (.setCodeStep false) ∧
      (after split (is ++ [.setCodeStep false])).paused = false ∧
        (after split (is ++ [.setCodeStep false])).stepWait = false

/-- At a step wait the next chunk is not played, whatever calm inputs come. -/
theorem ended_silent {is : List Input} {i : Input} {it : Item} {k : Nat}
    (hon : (after split is).codeStep = true) (hend : Ends (after split is) i)
    (hplace : (after split is).place = some (it, k)) (hlen : k + 1 < it.chunks.length)
    (hsteps : Steps it k) (hfree : ¬Held (after split is))
    (hrel : (after split is).released = false)
    {js : List Input} (hjs : ∀ j ∈ js, Calm j) (g : Nat) :
    .playChunk it.id (k + 1) g ∉ (machine split).outFrom (after split is) (i :: js) := by
  have hsnoc : after split (is ++ [i]) = ((after split is).call split i).r :=
    (machine split).state_snoc is i
  have hwait : Awaits it (k + 1) (after split (is ++ [i])) := by
    rw [hsnoc]
    exact ended_awaits split (state_settled split is) hend hplace hon hrel hfree hlen hsteps.waits
  have hlater := (waits_silent split hwait hjs g).1
  have hcons : (machine split).outFrom (after split is) (i :: js) =
      (machine split).answer is i ++ (machine split).outFrom (after split (is ++ [i])) js := by
    rw [hsnoc]
    rfl
  rw [hcons]
  intro hmem
  rcases List.mem_append.mp hmem with hmem | hmem
  · -- The reader waits: its call loaded nothing.
    have hload := (played_loaded split hmem).1
    rw [((state_settled split (is ++ [i])).stepWait hwait.wait).2] at hload
    cases hload
  · exact hlater hmem

/-- A pause, or a toggle while it reads, is the user's pause. -/
theorem pauses {is : List Input} {k : Control}
    (hk : k = .pause ∨ k = .toggle ∧ (after split is).paused = false)
    (hcur : (after split is).current ≠ none) : Held (after split (is ++ [.control k])) := by
  have hsnoc : after split (is ++ [.control k]) = (Call.control ⟨after split is, []⟩ k).finish.r :=
    (machine split).state_snoc is (.control k)
  have hpause : Held (Call.control ⟨after split is, []⟩ k).r := by
    rcases hk with rfl | ⟨rfl, hplaying⟩
    · exact Call.pause_held (c := ⟨after split is, []⟩) hcur
    · show Held (if (after split is).paused = true then _ else Call.pause ⟨after split is, []⟩).r
      rw [if_neg (by rw [hplaying]; exact Bool.false_ne_true)]
      exact Call.pause_held (c := ⟨after split is, []⟩) hcur
  obtain ⟨q, s, -, hr⟩ := (Call.control ⟨after split is, []⟩ k).finish_r
  rw [hsnoc, hr]
  exact ⟨hpause.paused, hpause.noWait⟩

/-- **Step mode**, in every run whose released steps stay within their block. -/
theorem step_mode {is : List Input} (h : (machine split).All Within is) : StepMode split is where
  waits _ _ _ hon hend hplace hlen hsteps hfree hrel _ hjs g :=
    ended_silent split hon hend hplace hlen hsteps hfree hrel hjs g
  through := run_through split h
  held _ hk hcur := pauses split hk hcur
  noWait hheld i := by
    have hsnoc : after split (is ++ [i]) = ((after split is).call split i).r :=
      (machine split).state_snoc is i
    rw [hsnoc]
    exact call_noWait split (state_settled split is) hheld i
  keeps hheld _ hjs := run_held split hheld hjs
  off hwait := step_off_plays split hwait

end Runs

section Block

instance (i : Input) : Decidable (Plays i) := by
  unfold Plays
  infer_instance

/-- A message cut into a line, an announcement and its two lines. -/
def lineThenBlock : Chunking → Text → List Text :=
  fun _ _ => ["\uE000A.".toList, "\uE001B.".toList, "\uE000b.".toList, "\uE000c.".toList]

/-- Step mode on; `b` waits behind its announcement, and Play lets it go. -/
def releasedAtB : List Input :=
  [.setCodeStep true, .speak "A. B. b. c.".toList .append false none, .onAudio (.chunkFinished 1),
    .control .nextLine, .onAudio (.chunkFinished 2), .control .play]

/-- `b`'s lines read through after Play: the released reader goes on to `c`. -/
theorem step_mode_block : StepMode lineThenBlock
    (releasedAtB ++ [.onAudio (.chunkFinished 3)]) := by
  refine step_mode lineThenBlock ?_
  -- Up to Play no step is one of a released reader.
  have hfree : ∀ {r : Reader} {i : Input}, r.released = false → Within r i := by
    intro r i h
    have hno : r.released ≠ true := by
      rw [h]
      exact Bool.false_ne_true
    exact ⟨fun _ _ _ hrel => absurd hrel hno, fun _ _ _ hrel => absurd hrel hno,
      fun hrel => absurd hrel hno⟩
  refine ⟨hfree rfl, hfree rfl, hfree rfl, hfree rfl, hfree rfl, hfree rfl, ?_, trivial⟩
  constructor
  case forth =>
    intro it k hplace _ _ _
    obtain ⟨rfl, rfl⟩ := Prod.mk.inj (Option.some.inj hplace)
    decide
  case back =>
    intro it k _ _ h
    cases h
  case lines =>
    rintro _ _ (h | h)
    · cases h
    · cases h

/-- **A restart carries a release into another block**: from `b` to the line before the
announcement. -/
theorem restart_carries_release : ¬∀ split is, StepMode split is := by
  intro hall
  generalize hrun : releasedAtB ++ [.control .restart] = run
  obtain ⟨it, hplace, hline⟩ : ∃ it, (after lineThenBlock run).place = some (it, 0) ∧
      ¬it.Line 1 := by
    rw [← hrun]
    exact ⟨_, rfl, by decide⟩
  have hrel : (after lineThenBlock run).released = true := by
    rw [← hrun]
    rfl
  obtain ⟨pre, i, post, w, hcut, hplays, -, hw, hmid, -⟩ :=
    (hall lineThenBlock run).through it 0 hplace hrel
  -- The one Play of the run is at `b`.
  have hat : run[pre.length]? = some i := by
    rw [hcut, List.getElem?_append_right (Nat.le_refl _), Nat.sub_self]
    rfl
  have hpre : pre.length = 5 := by
    have hlt : pre.length < 7 := (List.getElem?_eq_some_iff.mp hat).1.trans_le
      (by rw [← hrun]; decide)
    have hone : ∀ n < 7, ∀ x ∈ run[n]?, Plays x → n = 5 := by
      rw [← hrun]
      decide
    exact hone _ hlt i hat hplays
  have hstart : pre = releasedAtB.take 5 := by
    have htake : pre = run.take pre.length := by
      rw [hcut, List.take_left]
    rw [htake, hpre, ← hrun]
    rfl
  have hw : w = 2 := by
    rw [hstart] at hw
    exact (Prod.mk.inj (Option.some.inj hw)).2.symm
  obtain ⟨j, hj, hblock⟩ := hmid post [] (List.append_nil post).symm
  rw [← hcut, hplace] at hj
  have hj : j = 0 := (Prod.mk.inj (Option.some.inj hj)).2.symm
  rw [hj, hw] at hblock
  exact hline (hblock.before 1 (by decide) (by decide))

end Block

end Sonara.L1
