import Sonara.L1.Atoms
import Sonara.L1.Settled

/-!
# Every call is a path of atoms

`call_path`: a call of a settled reader whose indices are in range is a path of
atoms, from the reader as the input's report leaves it (`Reader.enter`: an audio
event about the loaded chunk unloads it or marks its item played) to what the
call returns. The lemmas follow the methods; each says what it needs of the call
so far: `Quiet` before anything is ended, moved or stopped, nothing loaded before
a chunk is played.
-/

namespace Sonara.L1

open Sonara (Text)
open Sonara.CodeSpeech (CodeKind)
open Relation (ReflTransGen)

variable {fin : Current → ItemPhase → Prop}

theorem Item.getElem?_chunkAt {it : Item} {i : Nat} (h : i < it.chunks.length) :
    it.chunks[i]? = some (it.chunkAt i) := by
  simp [Item.chunkAt, h]

theorem Reader.mem_live_current {r : Reader} {cur : Current} (h : r.current = some cur) :
    cur.item ∈ r.live := by
  simp [Reader.live, h]

theorem Reader.mem_live_queue {r : Reader} {it : Item} (h : it ∈ r.queue) : it ∈ r.live :=
  List.mem_append_right _ h

/-! ## Quiet calls -/

theorem quiet_nil (r : Reader) : Call.Quiet ⟨r, []⟩ := fun e he => by cases he

theorem Call.Quiet.snoc {c : Call} (h : c.Quiet) {r : Reader} {e : Effect} (he : ¬e.Opens) :
    Call.Quiet ⟨r, c.fx ++ [e]⟩ := by
  intro e' he'
  rcases List.mem_append.mp he' with h' | h'
  · exact h e' h'
  · rw [List.mem_singleton.mp h']; exact he

theorem Call.Quiet.congr {c c' : Call} (h : c.Quiet) (e : c'.fx = c.fx) : c'.Quiet := by
  intro x hx
  exact h x (e ▸ hx)

theorem Call.stopOutput_quiet {c : Call} (h : c.Quiet) : c.stopOutput.Quiet := by
  unfold Call.stopOutput
  split
  · exact h.snoc id
  · exact h

theorem Call.dropAll_quiet (l : List Item) {c : Call} (h : c.Quiet) : (Call.dropAll l c).Quiet := by
  induction l generalizing c with
  | nil => exact h
  | cons it rest ih => exact ih (h.snoc id)

namespace Call

/-! ## Paths of the methods -/

/-- Settings, `released` and Restart's item: one `view`. -/
theorem path_view {c : Call} {r' : Reader} (same : SameCore c.r r') :
    Path fin c ⟨r', c.fx⟩ := by
  have a : Atom fin c ⟨r', c.fx ++ []⟩ := .view same (by simp)
  rw [List.append_nil] at a
  exact .single a

theorem path_request {c : Call} {it : Item} {i : Nat} {t : Text} (hl : it ∈ c.r.live)
    (ht : it.chunks[i]? = some t) : Path fin c (c.request it.id i t) := by
  unfold request
  split
  next => exact .refl
  next h => exact .single (.request hl ht h)

/-- Requests of chunks of live items. -/
theorem path_requests (l : List (ItemId × Nat × Text)) {c : Call}
    (h : ∀ e ∈ l, ∃ it ∈ c.r.live, it.id = e.1 ∧ it.chunks[e.2.1]? = some e.2.2) :
    Path fin c (l.foldl (fun c (id, chunk, text) => c.request id chunk text) c) := by
  induction l generalizing c with
  | nil => exact .refl
  | cons e l ih =>
    obtain ⟨it, hlive, hid, ht⟩ := h e (List.mem_cons_self ..)
    have hfirst : Path fin c (c.request e.1 e.2.1 e.2.2) := by
      rw [← hid]
      exact path_request hlive ht
    refine hfirst.trans (ih ?_)
    intro e' he'
    rw [request_r]
    exact h e' (List.mem_cons_of_mem _ he')

/-- What lies ahead belongs to live items. -/
theorem ahead_live {r : Reader} {cur : Current} (hc : r.current = some cur)
    {e : ItemId × Nat × Text} (he : e ∈ ahead r cur) :
    ∃ it ∈ r.live, it.id = e.1 ∧ it.chunks[e.2.1]? = some e.2.2 := by
  rcases List.mem_append.mp he with he | he
  · obtain ⟨p, hp, rfl⟩ := List.mem_map.mp he
    have hmem := List.mem_zipIdx_iff_getElem?.mp (List.mem_of_mem_drop hp)
    exact ⟨cur.item, Reader.mem_live_current hc, rfl, hmem⟩
  · obtain ⟨it, hit, he⟩ := List.mem_flatMap.mp he
    obtain ⟨p, hp, rfl⟩ := List.mem_map.mp he
    exact ⟨it, Reader.mem_live_queue hit, rfl, List.mem_zipIdx_iff_getElem?.mp hp⟩

theorem path_prefetch (c : Call) : Path fin c c.prefetch := by
  unfold prefetch
  split
  next cur _ hcur =>
    refine path_requests _ (fun e he => ahead_live hcur (List.mem_of_mem_take he))
  next => exact .refl

theorem path_finish (c : Call) : Path fin c c.finish := by
  refine (path_prefetch c).trans ?_
  unfold finish
  dsimp only
  split
  next =>
    refine .single (.view ⟨rfl, rfl, rfl, rfl, .inl rfl, rfl, rfl, rfl⟩ ?_)
    intro e he
    rw [List.mem_singleton.mp he]
    trivial
  next => exact .refl

/-- Beginning a chunk is a path: it loads the chunk, or waits at a line. -/
theorem path_beginChunk {c : Call} (h : InRange c.r) (hl : c.r.loaded = none) :
    Path fin c c.beginChunk := by
  unfold beginChunk
  split
  next => exact .refl
  next cur hcur =>
    have hreq : Path fin c (c.request cur.item.id cur.chunk (cur.item.chunkAt cur.chunk)) :=
      path_request (Reader.mem_live_current hcur) (Item.getElem?_chunkAt (h.current cur hcur))
    dsimp only
    split
    next => exact hreq
    next hp =>
      refine hreq.tail (.play ?_ ?_ ?_ ?_) <;> rw [request_r] at *
      · exact hl
      · simpa using hp
      · exact hcur
      · exact Finset.mem_insert_self _ _

theorem path_stopOutput {c : Call} (hq : c.Quiet) : Path fin c c.stopOutput := by
  unfold stopOutput
  split
  next hl => exact .single (.stopOutput hq hl)
  next => exact .refl

theorem path_endCurrent {c : Call} (hq : c.Quiet) {phase : ItemPhase} (hp : phase.Final)
    (ha : ∀ cur, c.r.current = some cur → fin cur phase) : Path fin c (c.endCurrent phase) := by
  refine (path_stopOutput hq).trans ?_
  have hr := c.stopOutput_r
  unfold endCurrent
  dsimp only
  split
  next => exact .refl
  next cur hcur =>
    have hload : c.stopOutput.r.loaded = none := by rw [hr]
    have hcur' : c.r.current = some cur := by rw [hr] at hcur; exact hcur
    exact .single (.retire (c.stopOutput_quiet hq) hload hcur hp (ha cur hcur'))

theorem path_dropAll (l : List Item) {c : Call} (hq : c.r.queue = l) :
    Path fin c (dropAll l c) := by
  induction l generalizing c with
  | nil => exact .refl
  | cons it rest ih => exact .head (.dropFront hq) (ih rfl)

theorem path_dropQueue (c : Call) : Path fin c c.dropQueue := path_dropAll _ rfl

theorem path_endWait {c : Call} (hw : c.r.stepWait = true → c.r.loaded = none) :
    Path fin c c.endWait := by
  unfold endWait
  split
  next h => exact .single (.flag false false (hw h))
  next => exact .refl

theorem endWait_fx (c : Call) : c.endWait.fx = c.fx := by
  unfold endWait
  split <;> rfl

/-- Starting the next item is a path. -/
theorem path_startNext {c : Call} (h : InRange c.r) (hc : c.r.current = none)
    (hl : c.r.loaded = none) : Path fin c c.startNext := by
  have hwait : Path fin c c.endWait := path_endWait (fun _ => hl)
  obtain ⟨p, hr⟩ := c.endWait_r
  have hl' : c.endWait.r.loaded = none := by rw [hr]; exact hl
  have hc' : c.endWait.r.current = none := by rw [hr]; exact hc
  refine hwait.trans ?_
  unfold startNext
  dsimp only
  split
  next item rest hqueue =>
    have hstart : Atom fin c.endWait _ := .start hc' hl' hqueue
    refine .head hstart (path_beginChunk ?_ hl')
    exact hstart.inRange (Path.inRange hwait h)
  next => exact .single (.flag false c.endWait.r.stepWait hl')

theorem path_skip {c : Call} (h : InRange c.r) (hq : c.Quiet) (hc : c.r.current.isSome)
    (ha : ∀ cur, fin cur .skipped) : Path fin c c.skip := by
  obtain ⟨cur, hcur⟩ := Option.isSome_iff_exists.mp hc
  have hend : Path fin c (c.endCurrent .skipped) := path_endCurrent hq trivial (fun _ _ => ha _)
  refine hend.trans (path_startNext (Path.inRange hend h) ?_ ?_) <;> rw [endCurrent_r hcur]

theorem path_unrelease (c : Call) (k : CodeKind) : Path fin c (c.unrelease k) := by
  unfold unrelease
  split
  · exact path_view ⟨rfl, rfl, rfl, rfl, .inl rfl, rfl, rfl, rfl⟩
  · exact .refl

/-- Moving to a chunk is a path: what plays is stopped, and the chunk begins. -/
theorem path_moveTo {c : Call} {cur : Current} (h : InRange c.r) (hq : c.Quiet)
    (hcur : c.r.current = some cur) (hw : c.r.stepWait = true → c.r.loaded = none) {dest : Nat}
    (hd : dest < cur.item.chunks.length) : Path fin c (c.moveTo dest) := by
  obtain ⟨p, hr⟩ := c.endWait_r
  have hs : c.endWait.stopOutput.r =
      { c.r with stepWait := false, paused := p, loaded := none } := by
    rw [stopOutput_r, hr]
  have hwait : Path fin c c.endWait := path_endWait hw
  have hq' : c.endWait.Quiet := hq.congr c.endWait_fx
  have hstop : Path fin c c.endWait.stopOutput := hwait.trans (path_stopOutput hq')
  have hcur' : c.endWait.stopOutput.r.current = some cur := by rw [hs]; exact hcur
  have hset : c.endWait.stopOutput.r.setChunk dest
      = { c.endWait.stopOutput.r with current := some { cur with chunk := dest } } := by
    simp only [Reader.setChunk, hcur', Option.map_some]
  have hmove : Atom fin c.endWait.stopOutput
      ⟨c.endWait.stopOutput.r.setChunk dest, c.endWait.stopOutput.fx⟩ := by
    rw [hset]
    exact .moveChunk (stopOutput_quiet hq') (by rw [hs]) hcur' hd
  have hto := (hstop.tail hmove).trans
    (path_unrelease _ ((c.endWait.stopOutput.r.setChunk dest).kindAt dest))
  obtain ⟨b, hb⟩ := unrelease_r ⟨c.endWait.stopOutput.r.setChunk dest, c.endWait.stopOutput.fx⟩
    ((c.endWait.stopOutput.r.setChunk dest).kindAt dest)
  refine hto.trans (path_beginChunk (Path.inRange hto h) ?_)
  rw [hb, hset, hs]

theorem path_waitStep {c : Call} (hl : c.r.loaded = none) (b : Bool) :
    Path fin c (c.waitStep b) := by
  rcases c.waitStep_cases b with h | h <;> rw [h]
  exact .single (.flag true true hl)

/-- Going on is a path: the next chunk begins, or the item ends and the next starts. -/
theorem path_advance {c : Call} (h : InRange c.r) (hq : c.Quiet) (hl : c.r.loaded = none)
    (ha : ∀ cur, c.r.current = some cur → cur.item.chunks.length ≤ cur.chunk + 1 →
      fin cur (if cur.playedAny then .finished else .failed)) : Path fin c c.advance := by
  unfold advance
  split
  next => exact .refl
  next cur hcur =>
    split
    next hlt =>
      have hmove : Atom fin c _ := .moveChunk hq hl hcur hlt
      have hto := (ReflTransGen.single hmove).trans
        (path_unrelease _ (CodeSpeech.kind (cur.item.chunkAt (cur.chunk + 1))))
      obtain ⟨b, hb⟩ := unrelease_r
        ⟨{ c.r with current := some { cur with chunk := cur.chunk + 1 } }, c.fx⟩
        (CodeSpeech.kind (cur.item.chunkAt (cur.chunk + 1)))
      have hwait := hto.trans (path_waitStep (by rw [hb]; exact hl)
        (!c.r.released && waits (CodeSpeech.kind (cur.item.chunkAt cur.chunk))
          (CodeSpeech.kind (cur.item.chunkAt (cur.chunk + 1)))))
      refine hwait.trans (path_beginChunk (Path.inRange hwait h) ?_)
      rcases waitStep_cases (Call.unrelease
          ⟨{ c.r with current := some { cur with chunk := cur.chunk + 1 } }, c.fx⟩
          (CodeSpeech.kind (cur.item.chunkAt (cur.chunk + 1))))
        (!c.r.released && waits (CodeSpeech.kind (cur.item.chunkAt cur.chunk))
          (CodeSpeech.kind (cur.item.chunkAt (cur.chunk + 1)))) with hw | hw <;>
        (rw [hw]; dsimp only; rw [hb]; exact hl)
    next hlt =>
      have hphase : (if cur.playedAny then ItemPhase.finished else .failed).Final := by
        split <;> trivial
      have hend : Path fin c _ := path_endCurrent hq hphase (fun cur' hcur' => by
        obtain rfl := Option.some.inj (hcur.symm.trans hcur')
        exact ha cur hcur (Nat.le_of_not_lt hlt))
      refine hend.trans (path_startNext (Path.inRange hend h) ?_ ?_) <;> rw [endCurrent_r hcur]

theorem path_resume {c : Call} (h : InRange c.r) (hq : c.Quiet) (hp : c.r.paused = true) :
    Path fin c c.resume := by
  unfold resume
  dsimp only
  split
  next hl => exact .single (.resumeOutput hq hl hp)
  next hl =>
    have hl' : c.r.loaded = none := by simpa using hl
    have hflag : Atom fin c _ := .flag false false hl'
    exact .head hflag (path_beginChunk (hflag.inRange h) hl')

theorem path_play {c : Call} (h : InRange c.r) (hq : c.Quiet) (hp : c.r.paused = true) :
    Path fin c c.play := by
  unfold play releaseCode
  split
  next =>
    have hv : Path fin c ⟨{ c.r with released := true }, c.fx⟩ :=
      path_view ⟨rfl, rfl, rfl, rfl, .inl rfl, rfl, rfl, rfl⟩
    exact hv.trans (path_resume (Path.inRange hv h) hq hp)
  next => exact path_resume h hq hp

/-- A pause is a path. -/
theorem path_pause {c : Call} (hq : c.Quiet) : Path fin c c.pause := by
  have hview : Path fin c ⟨{ c.r with stepWait := false }, c.fx⟩ :=
    path_view ⟨rfl, rfl, rfl, rfl, .inl rfl, rfl, rfl, rfl⟩
  refine hview.trans ?_
  unfold pause
  dsimp only
  split
  next => exact .refl
  next hn =>
    have hp : c.r.paused = false := by
      cases hpa : c.r.paused with
      | false => rfl
      | true => simp [hpa] at hn
    split
    next hl => exact .single (.pauseOutput hq hl hp)
    next hl => exact .single (.flag true false (by simpa using hl))

/-- A stop is a path: every item ends skipped. -/
theorem path_stop {c : Call} (hs : Settled c.r) (hq : c.Quiet)
    (ha : ∀ cur, fin cur .skipped) : Path fin c c.stop := by
  have hlast : Path fin c ⟨{ c.r with last := none }, c.fx⟩ :=
    path_view ⟨rfl, rfl, rfl, rfl, .inr rfl, rfl, rfl, rfl⟩
  refine hlast.trans ?_
  -- After the queue is dropped nothing is loaded: only flags are left.
  have htail : ∀ d : Call, d.r.loaded = none →
      Path fin d { d.dropQueue with
        r := { d.dropQueue.r with last := none, paused := false, stepWait := false } } := by
    intro d hd
    obtain ⟨q, hr⟩ := d.dropQueue_r
    have hview : Path fin d.dropQueue ⟨{ d.dropQueue.r with last := none }, d.dropQueue.fx⟩ :=
      path_view ⟨rfl, rfl, rfl, rfl, .inr rfl, rfl, rfl, rfl⟩
    refine (path_dropQueue d).trans (hview.tail (.flag false false ?_))
    show d.dropQueue.r.loaded = none
    rw [hr]
    exact hd
  unfold stop
  dsimp only
  split
  next => exact .refl
  next =>
    split
    next hc =>
      obtain ⟨cur, hcur⟩ := Option.isSome_iff_exists.mp hc
      have hend : Path fin ⟨{ c.r with last := none }, c.fx⟩
          (Call.endCurrent ⟨{ c.r with last := none }, c.fx⟩ .skipped) :=
        path_endCurrent (c := ⟨{ c.r with last := none }, c.fx⟩) hq trivial (fun cur _ => ha cur)
      refine hend.trans (htail _ ?_)
      rw [endCurrent_r (c := ⟨{ c.r with last := none }, c.fx⟩) hcur]
    next hc => exact htail _ (hs.unloaded (by simpa using hc))

/-! ### Line steps

`lineStep` clears the flags before it stops the output, the atoms after; nothing
in between reads them. -/

/-- The flags a line step clears. -/
def lineFlags (c : Call) : Call :=
  { c with r := { c.r with paused := false, stepWait := false, released := false } }

theorem lineFlags_stopOutput (c : Call) : c.lineFlags.stopOutput = c.stopOutput.lineFlags := by
  unfold stopOutput lineFlags
  split <;> rfl

theorem stopOutput_stopOutput (c : Call) : c.stopOutput.stopOutput = c.stopOutput := by
  have h : c.stopOutput.r.loaded = none := by rw [stopOutput_r]
  rw [stopOutput, h]
  rfl

theorem path_lineFlags {c : Call} (hl : c.r.loaded = none) : Path fin c c.lineFlags :=
  .head (.flag false false hl) (path_view ⟨rfl, rfl, rfl, rfl, .inl rfl, rfl, rfl, rfl⟩)

/-- The call once a line step has stopped the output and cleared the flags. -/
theorem path_stopped {c : Call} (hq : c.Quiet) : Path fin c c.stopOutput.lineFlags :=
  (path_stopOutput hq).trans (path_lineFlags (by rw [stopOutput_r]))

/-- A step by lines is a path within the item. -/
theorem path_lineStep {c : Call} (h : InRange c.r) (hq : c.Quiet)
    (ha : ∀ cur, fin cur .skipped) (next : Bool) : Path fin c (c.lineStep next) := by
  unfold lineStep
  split
  next => exact .refl
  next cur hcur =>
    split
    next => exact .refl
    next =>
      have hstopped : Path fin c c.stopOutput.lineFlags := path_stopped hq
      have hrange := Path.inRange hstopped h
      have hq' : c.stopOutput.lineFlags.Quiet := (c.stopOutput_quiet hq).congr rfl
      have hcur' : c.stopOutput.lineFlags.r.current = some cur := by
        show c.stopOutput.r.current = some cur
        rw [stopOutput_r]; exact hcur
      have hagain : c.stopOutput.lineFlags.stopOutput = c.lineFlags.stopOutput := by
        rw [lineFlags_stopOutput, stopOutput_stopOutput, lineFlags_stopOutput]
      show Path fin c (if lineTarget c.r cur next ≥ cur.item.chunks.length then c.lineFlags.skip
        else c.lineFlags.moveTo (lineTarget c.r cur next))
      split
      next =>
        have hskip : c.stopOutput.lineFlags.skip = c.lineFlags.skip := by
          unfold skip endCurrent
          dsimp only
          rw [hagain]
        rw [← hskip]
        exact hstopped.trans (path_skip hrange hq' (by rw [hcur']; rfl) ha)
      next hd =>
        have hmove : c.stopOutput.lineFlags.moveTo (lineTarget c.r cur next)
            = c.lineFlags.moveTo (lineTarget c.r cur next) := by
          have e1 : c.stopOutput.lineFlags.endWait = c.stopOutput.lineFlags := rfl
          have e2 : c.lineFlags.endWait = c.lineFlags := rfl
          unfold moveTo
          rw [e1, e2, hagain]
        rw [← hmove]
        exact hstopped.trans
          (path_moveTo hrange hq' hcur' (fun hw => (nomatch hw)) (Nat.lt_of_not_le hd))

/-- A restart is a path: the item is queued again first and begins. -/
theorem path_restart {c : Call} (h : InRange c.r) (hs : Settled c.r) (hq : c.Quiet) :
    Path fin c c.restart := by
  unfold restart
  split
  next hc =>
    obtain ⟨cur, hcur⟩ := Option.isSome_iff_exists.mp hc
    exact path_moveTo h hq hcur (fun hw => (hs.stepWait hw).2)
      (Nat.lt_of_le_of_lt (Nat.zero_le _) (h.current cur hcur))
  next hc =>
    have hcn : c.r.current = none := by simpa using hc
    split
    next => exact .refl
    next item hlast =>
      have hview : Path fin c ⟨{ c.r with last := none }, c.fx⟩ :=
        path_view ⟨rfl, rfl, rfl, rfl, .inr rfl, rfl, rfl, rfl⟩
      have hadmit : Path fin c ((Call.bump ⟨{ c.r with last := none }, c.fx⟩
          (c.r.nextId + 1)).pushFront { item with id := c.r.nextId }) :=
        hview.tail (.admitFront rfl (h.last item hlast))
      exact hadmit.trans (path_startNext (Path.inRange hadmit h) hcn (hs.unloaded hcn))

/-- Every control is a path. -/
theorem path_control {c : Call} (h : InRange c.r) (hs : Settled c.r) (hq : c.Quiet)
    (ha : ∀ cur, fin cur .skipped) (k : Control) : Path fin c (c.control k) := by
  have hw : c.r.stepWait = true → c.r.loaded = none := fun hw => (hs.stepWait hw).2
  cases k with
  | play =>
    show Path fin c (if c.r.paused then c.play else c)
    split
    next hp => exact path_play h hq hp
    next => exact .refl
  | pause => exact path_pause hq
  | toggle =>
    show Path fin c (if c.r.paused then c.play else c.pause)
    split
    next hp => exact path_play h hq hp
    next => exact path_pause hq
  | stop => exact path_stop hs hq ha
  | skip =>
    show Path fin c (if c.r.current.isSome then c.skip else c)
    split
    next hc => exact path_skip h hq hc ha
    next => exact .refl
  | previous =>
    show Path fin c c.previous
    unfold previous
    split
    next => exact .refl
    next cur hcur =>
      exact path_moveTo h hq hcur hw (Nat.lt_of_le_of_lt (Nat.sub_le _ _) (h.current cur hcur))
  | next =>
    show Path fin c c.next
    unfold next
    split
    next => exact .refl
    next cur hcur =>
      split
      next hlt => exact path_moveTo h hq hcur hw hlt
      next => exact path_skip h hq (by rw [hcur]; rfl) ha
  | restart => exact path_restart h hs hq
  | mute =>
    show Path fin c (if (!c.r.muted) = true then _ else c)
    split
    · exact .single (.view ⟨rfl, rfl, rfl, rfl, .inl rfl, rfl, rfl, rfl⟩ (by simp [Effect.Silent]))
    · exact .refl
  | unmute =>
    show Path fin c (if c.r.muted = true then _ else c)
    split
    · exact .single (.view ⟨rfl, rfl, rfl, rfl, .inl rfl, rfl, rfl, rfl⟩ (by simp [Effect.Silent]))
    · exact .refl
  | nextLine => exact path_lineStep h hq ha true
  | previousLine => exact path_lineStep h hq ha false

/-! ### Admission

`speak` takes the new id before it drops or ends anything; admitting the item is
one atom, after. Nothing in between reads `nextId`. -/

theorem stopOutput_bump (c : Call) (n : ItemId) : (c.bump n).stopOutput = c.stopOutput.bump n := by
  unfold stopOutput bump
  split <;> rfl

theorem endCurrent_bump (c : Call) (n : ItemId) (phase : ItemPhase) :
    (c.bump n).endCurrent phase = (c.endCurrent phase).bump n := by
  unfold endCurrent
  dsimp only
  rw [stopOutput_bump]
  cases hc : c.stopOutput.r.current with
  | none =>
    have hc' : (c.stopOutput.bump n).r.current = none := hc
    rw [hc']
  | some cur =>
    have hc' : (c.stopOutput.bump n).r.current = some cur := hc
    rw [hc']
    rfl

theorem dropAll_bump (l : List Item) (c : Call) (n : ItemId) :
    dropAll l (c.bump n) = (dropAll l c).bump n := by
  induction l generalizing c with
  | nil => rfl
  | cons it rest ih => exact ih ({ c with r := { c.r with queue := rest } }.forget it.id .skipped)

theorem dropQueue_bump (c : Call) (n : ItemId) : (c.bump n).dropQueue = c.dropQueue.bump n :=
  dropAll_bump _ c n

/-- A new item is queued, or interrupts the ones there. -/
theorem path_enqueue {c : Call} (h : InRange c.r) (hq : c.Quiet)
    (hl : c.r.current = none → c.r.loaded = none) (ha : ∀ cur, fin cur .skipped) {item : Item}
    (hid : item.id = c.r.nextId) (hchunks : item.chunks ≠ []) (interrupt : Bool) :
    Path fin c ((c.bump (c.r.nextId + 1)).enqueue item interrupt) := by
  unfold enqueue
  split
  next hi =>
    obtain ⟨cur, hcur⟩ := Option.isSome_iff_exists.mp (Bool.and_eq_true_iff.mp hi).2
    have hcur' : c.r.current = some cur := hcur
    have hend : Path fin c (c.endCurrent .skipped) :=
      path_endCurrent hq trivial (fun _ _ => ha _)
    have hr := endCurrent_r hcur' .skipped
    have hadmit : Path fin c (((c.endCurrent .skipped).bump (c.r.nextId + 1)).pushFront item) := by
      refine hend.tail ?_
      have hn : (c.endCurrent .skipped).r.nextId = c.r.nextId := by rw [hr]
      have a : Atom fin (c.endCurrent .skipped) _ := .admitFront (hid.trans hn.symm) hchunks
      rw [hn] at a
      exact a
    rw [endCurrent_bump]
    refine hadmit.trans (path_startNext (Path.inRange hadmit h) ?_ ?_)
    · show (c.endCurrent .skipped).r.current = none
      rw [hr]
    · show (c.endCurrent .skipped).r.loaded = none
      rw [hr]
  next hi =>
    have hadmit : Path fin c ((c.bump (c.r.nextId + 1)).pushBack item) :=
      .single (.admitBack hid hchunks)
    dsimp only
    split
    next hn =>
      have hcn : c.r.current = none := Option.isNone_iff_eq_none.mp hn
      exact hadmit.trans (path_startNext (Path.inRange hadmit h) hcn (hl hcn))
    next => exact hadmit

/-- `speak` is a path: refused, queued or begun. -/
theorem path_speak (split : Chunking → Text → List Text) {r : Reader} (h : InRange r)
    (hs : Settled r) (ha : ∀ cur, fin cur .skipped) (text : Text) (mode : QueueMode)
    (interrupt : Bool) (label : Option String) :
    Path fin ⟨r, []⟩ (r.speak split text mode interrupt label).2 := by
  unfold Reader.speak
  dsimp only
  split
  next => exact .single .refuse
  next hne =>
    have hchunks : split r.chunking text ≠ [] := fun he => hne (by rw [he]; rfl)
    refine .trans ?_ (path_finish _)
    split
    next =>
      rw [dropQueue_bump]
      have hdrop : Path fin ⟨r, []⟩ (Call.dropQueue ⟨r, []⟩) := path_dropQueue _
      obtain ⟨q, hr⟩ := dropQueue_r ⟨r, []⟩
      have hn : (Call.dropQueue ⟨r, []⟩).r.nextId = r.nextId := by rw [hr]
      have henq : Path fin (Call.dropQueue ⟨r, []⟩)
          (((Call.dropQueue ⟨r, []⟩).bump ((Call.dropQueue ⟨r, []⟩).r.nextId + 1)).enqueue
            { id := r.nextId, label := label, text := text, chunks := split r.chunking text }
            interrupt) :=
        path_enqueue (Path.inRange hdrop h) (dropAll_quiet _ (quiet_nil r))
          (by rw [hr]; exact hs.unloaded) ha hn.symm hchunks interrupt
      rw [hn] at henq
      exact hdrop.trans henq
    next => exact path_enqueue h (quiet_nil r) hs.unloaded ha rfl hchunks interrupt

end Call

/-! ## Every call -/

/-- The reader once it took in an audio event about the loaded chunk. -/
def Reader.hear (r : Reader) : AudioEvent → Reader
  | .chunkStarted _ => r.markPlayed
  | .chunkFinished _ => { r.markPlayed with loaded := none }
  | .failed _ _ => { r with loaded := none }

/-- The reader once it took in what the input reports: an audio event about the
loaded chunk; a stale one is ignored. -/
def Reader.enter (r : Reader) : Input → Reader
  | .onAudio e => if r.loaded = some e.gen then r.hear e else r
  | _ => r

/-- How the current item may end in a call: skipped, or, when the audio of its
last chunk ended, by whether a chunk of it was played. -/
def Ending (r : Reader) (i : Input) (cur : Current) (phase : ItemPhase) : Prop :=
  phase = .skipped ∨
    ∃ e, i = .onAudio e ∧ r.loaded = some e.gen ∧ (r.enter i).current = some cur ∧
      cur.item.chunks.length ≤ cur.chunk + 1 ∧
      phase = if cur.playedAny then .finished else .failed

theorem markPlayed_inRange {r : Reader} (h : InRange r) : InRange r.markPlayed := by
  refine ⟨fun cur hcur => ?_, h.queue, h.last⟩
  obtain ⟨cur', hcur', rfl⟩ := Option.map_eq_some_iff.mp hcur
  exact h.current cur' hcur'

theorem enter_inRange {r : Reader} (h : InRange r) (i : Input) : InRange (r.enter i) := by
  cases i with
  | onAudio e =>
    show InRange (if r.loaded = some e.gen then r.hear e else r)
    split
    · cases e with
      | chunkStarted g => exact markPlayed_inRange h
      | chunkFinished g => exact ⟨(markPlayed_inRange h).current, h.queue, h.last⟩
      | failed g reason => exact ⟨h.current, h.queue, h.last⟩
    · exact h
  | _ => exact h

/-- A report of the output is a path from where it was entered. -/
theorem path_onAudio {r : Reader} (h : InRange r) (e : AudioEvent) :
    Path (Ending r (.onAudio e)) ⟨r.enter (.onAudio e), []⟩ (r.onAudio e) := by
  have hin := enter_inRange h (.onAudio e)
  by_cases hg : r.loaded = some e.gen
  · have henter : r.enter (.onAudio e) = r.hear e := if_pos hg
    have hend : ∀ cur, (r.hear e).current = some cur →
        cur.item.chunks.length ≤ cur.chunk + 1 →
        Ending r (.onAudio e) cur (if cur.playedAny then .finished else .failed) :=
      fun cur hcur hlen => .inr ⟨e, rfl, hg, by rw [henter]; exact hcur, hlen, rfl⟩
    rw [henter] at hin ⊢
    unfold Reader.onAudio
    rw [if_neg (not_not.mpr hg)]
    cases e with
    | chunkStarted g => exact Call.path_finish _
    | chunkFinished g =>
      exact (Call.path_advance hin (quiet_nil _) rfl hend).trans (Call.path_finish _)
    | failed g reason =>
      exact (Call.path_advance hin (quiet_nil _) rfl hend).trans (Call.path_finish _)
  · have henter : r.enter (.onAudio e) = r := if_neg hg
    rw [henter]
    unfold Reader.onAudio
    rw [if_pos hg]

/-- A setter that only the settings see. -/
theorem path_setting {r r' : Reader} (same : SameCore r r') :
    Path fin ⟨r, []⟩ (Call.finish ⟨r', []⟩) :=
  (Call.path_view same).trans (Call.path_finish _)

/-- **Every call is a path of atoms.** -/
theorem call_path (split : Chunking → Text → List Text) {r : Reader} (h : InRange r)
    (hs : Settled r) (i : Input) : Path (Ending r i) ⟨r.enter i, []⟩ (r.call split i) := by
  have ha : ∀ cur, Ending r i cur .skipped := fun _ => .inl rfl
  cases i with
  | speak text mode interrupt label => exact Call.path_speak split h hs ha text mode interrupt label
  | control k => exact (Call.path_control h hs (quiet_nil r) ha k).trans (Call.path_finish _)
  | onAudio e => exact path_onAudio h e
  | setVolume v =>
    refine .trans ?_ (Call.path_finish _)
    split
    · exact .single (.view ⟨rfl, rfl, rfl, rfl, .inl rfl, rfl, rfl, rfl⟩ (by simp [Effect.Silent]))
    · exact .refl
  | setRate v => exact path_setting ⟨rfl, rfl, rfl, rfl, .inl rfl, rfl, rfl, rfl⟩
  | setVoice v => exact path_setting ⟨rfl, rfl, rfl, rfl, .inl rfl, rfl, rfl, rfl⟩
  | setLookahead n => exact path_setting ⟨rfl, rfl, rfl, rfl, .inl rfl, rfl, rfl, rfl⟩
  | setChunking k => exact path_setting ⟨rfl, rfl, rfl, rfl, .inl rfl, rfl, rfl, rfl⟩
  | setCodeStep on =>
    refine .trans ?_ (Call.path_finish _)
    have hview : Path (Ending r (.setCodeStep on)) ⟨r, []⟩ ⟨{ r with codeStep := on }, []⟩ :=
      Call.path_view ⟨rfl, rfl, rfl, rfl, .inl rfl, rfl, rfl, rfl⟩
    refine hview.trans ?_
    split
    next hb =>
      exact Call.path_resume (Path.inRange hview h) (quiet_nil _)
        (hs.stepWait (Bool.and_eq_true_iff.mp hb).2).1
    next => exact .refl

theorem new_inRange : InRange Reader.new :=
  ⟨fun _ h => (nomatch h), fun _ h => (nomatch h), fun _ h => (nomatch h)⟩

/-- Every reachable reader's indices are in range. -/
theorem state_inRange (split : Chunking → Text → List Text) (is : List Input) :
    InRange ((machine split).state is) :=
  (machine split).run_induction (P := fun _ r _ => InRange r) new_inRange
    (fun is i h => Path.inRange (call_path split h (state_settled split is) i)
      (enter_inRange h i)) is

end Sonara.L1
