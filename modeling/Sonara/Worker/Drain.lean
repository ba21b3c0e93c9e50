import Sonara.Worker.Follows

/-!
# Telling the reader the failures found

A load that finds a failed synthesis only notes it; `drain` tells the reader, whose answer
may load the next chunk, which may have failed too. The loop ends: every failure told moves
the reader to the next chunk or the next item (`left_failed`), and its answer asks for at
most one more load (`asks_failed`). So the fuel of `drain` lasts until no failure is left,
and the account holds through it.
-/

namespace Sonara.Worker

open Sonara (Text)
open Sonara.L1

/-! ## At most one load -/

/-- The effects that may load a chunk. -/
def asks : Effect → Bool
  | .playChunk _ _ _ | .resumeOutput => true
  | _ => false

theorem load_pending (l : Loop) (now : Nat) (item : ItemId) (chunk gen : Nat) :
    (l.load now item chunk gen).pending.length ≤ l.pending.length + 1 := by
  have hl := l.loaded now item chunk gen
  generalize l.load now item chunk gen = l' at hl
  cases hl with
  | parked => exact Nat.le_succ _
  | played => exact Nat.le_succ _
  | streamed => exact Nat.le_succ _
  | failed => simp
  | missing => simp

/-- An effect notes a failure only if it may load. -/
theorem apply_pending (now : Nat) (l : Loop) (e : Effect) :
    (Loop.apply now l e).pending.length ≤ l.pending.length + (if asks e then 1 else 0) := by
  cases e with
  | playChunk item chunk gen => exact load_pending _ now item chunk gen
  | pauseOutput =>
    rw [Loop.apply]
    split <;> exact Nat.le_refl _
  | resumeOutput =>
    rw [Loop.apply]
    split
    · split
      · exact load_pending _ now _ _ _
      · exact Nat.le_succ _
    · exact Nat.le_succ _
  | stopOutput =>
    rw [Loop.apply]
    dsimp only
    split <;> exact Nat.le_refl _
  | setVolume v =>
    rw [Loop.apply]
    dsimp only
    split <;> exact Nat.le_refl _
  | emit e =>
    cases e with
    | state s => exact Nat.le_refl _
    | item id phase =>
      show (if phase = ItemPhase.started then l else l.forgetItem id).pending.length ≤ _
      split <;> exact Nat.le_refl _
  | synthesize => exact Nat.le_refl _
  | mute => exact Nat.le_refl _
  | unmute => exact Nat.le_refl _

theorem applyAll_pending (now : Nat) (l : Loop) (fx : List Effect) :
    (l.applyAll now fx).pending.length ≤ l.pending.length + fx.countP asks := by
  induction fx generalizing l with
  | nil => exact Nat.le_refl _
  | cons e fx ih =>
    have h1 := ih (Loop.apply now l e)
    have h2 := apply_pending now l e
    rw [List.countP_cons]
    have h3 : (l.applyAll now (e :: fx)).pending.length =
      ((Loop.apply now l e).applyAll now fx).pending.length := rfl
    omega

/-- The loads a call asked for: none while nothing is loaded, else the one that opened
the loaded chunk. -/
def AskedOnce (c : Call) : Prop :=
  (c.fx.countP asks = 0 ∧ c.r.loaded = none) ∨
    (c.fx.countP asks = 1 ∧ ¬c.Quiet ∧ c.r.loaded.isSome)

theorem Call.Quiet.mono {c c' : Call} {es : List Effect} (hc : c'.fx = c.fx ++ es)
    (h : ¬c.Quiet) : ¬c'.Quiet := by
  intro hq
  refine h fun e he => hq e ?_
  rw [hc]
  exact List.mem_append_left _ he

/-- Every atom keeps one load a call at most. -/
theorem Atom.askedOnce {fin : Current → ItemPhase → Prop} {c c' : Call} (a : Atom fin c c')
    (h : AskedOnce c) : AskedOnce c' := by
  -- effects that ask for nothing, the loaded chunk as before
  have same : ∀ {r' : Reader} {es : List Effect}, r'.loaded = c.r.loaded →
      (∀ e ∈ es, asks e = false) → AskedOnce ⟨r', c.fx ++ es⟩ := by
    intro r' es hl he
    have hz : es.countP asks = 0 := List.countP_eq_zero.mpr fun e hm => by simp [he e hm]
    unfold AskedOnce
    rw [List.countP_append, hz, Nat.add_zero, hl]
    exact h.imp_right fun ⟨hn, hq, hs⟩ => ⟨hn, Call.Quiet.mono (c := c) rfl hq, hs⟩
  have still : ∀ {r' : Reader}, r'.loaded = c.r.loaded → AskedOnce ⟨r', c.fx⟩ := by
    intro r' hl
    unfold AskedOnce
    rw [hl]
    exact h
  -- with a chunk loaded the call is not quiet any more
  have noise : c.Quiet → c.r.loaded.isSome → False := by
    intro hq hs
    rcases h with ⟨-, hn⟩ | ⟨-, hnq, -⟩
    · rw [hn] at hs
      cases hs
    · exact hnq hq
  cases a with
  | view s silent =>
    refine same s.loaded fun e he => ?_
    have hs := silent e he
    cases e with
    | playChunk => exact hs.elim
    | resumeOutput => exact hs.elim
    | _ => rfl
  | flag => exact still rfl
  | pauseOutput quiet loaded => exact (noise quiet loaded).elim
  | resumeOutput quiet loaded => exact (noise quiet loaded).elim
  | stopOutput quiet loaded => exact (noise quiet loaded).elim
  | retire => exact same rfl (by simp [asks])
  | dropFront => exact same rfl (by simp [asks])
  | refuse => exact same rfl (by simp [asks])
  | admitBack => exact still rfl
  | admitFront => exact still rfl
  | start => exact same rfl (by simp [asks])
  | request => exact same rfl (by simp [asks])
  | @play cur unloaded =>
    rcases h with ⟨hz, -⟩ | ⟨-, -, hs⟩
    · refine .inr ⟨?_, fun hq => ?_, rfl⟩
      · show (c.fx ++ [_]).countP asks = 1
        rw [List.countP_append, hz]
        rfl
      · exact hq (.playChunk cur.item.id cur.chunk (c.r.gen + 1))
          (List.mem_append_right _ (List.mem_singleton.mpr rfl)) trivial
    · rw [unloaded] at hs
      cases hs
  | moveChunk => exact still rfl

/-- **The answer to a failure asks for at most one load.** -/
theorem asks_failed {r : Reader} (hr : InRange r) (hs : Settled r) (gen : Nat) (reason : String) :
    (r.onAudio (.failed gen reason)).fx.countP asks ≤ 1 := by
  by_cases hg : r.loaded = some gen
  · have hp := call_path (fun _ _ => []) hr hs (.onAudio (.failed gen reason))
    have henter : (r.enter (.onAudio (.failed gen reason))).loaded = none := by
      show (if r.loaded = some gen then r.hear (.failed gen reason) else r).loaded = none
      rw [if_pos hg]
      rfl
    have h := hp.invariant (P := AskedOnce) Atom.askedOnce (.inl ⟨rfl, henter⟩)
    have h' : AskedOnce (r.onAudio (.failed gen reason)) := h
    rcases h' with ⟨hz, -⟩ | ⟨hone, -⟩ <;> omega
  · have hfx : r.onAudio (.failed gen reason) = ⟨r, []⟩ := by
      unfold Reader.onAudio
      exact if_pos hg
    rw [hfx]
    exact Nat.zero_le _

/-! ## Every failure moves the reader on -/

theorem beginChunk_queue (c : Call) : c.beginChunk.r.queue = c.r.queue := by
  unfold Call.beginChunk
  split
  · rfl
  · dsimp only
    split <;> rw [Call.request_r]

/-- The item at the front is read from its start; with none left nothing is. -/
theorem left_startNext {c : Call} (hc : c.r.current = none) :
    left c.startNext.r = (c.r.queue.map fun it => 1 + it.chunks.length).sum := by
  cases hq : c.r.queue with
  | nil =>
    obtain ⟨p, hr⟩ := c.endWait_r
    have hq' : c.endWait.r.queue = [] := by rw [hr]; exact hq
    have hcur : c.endWait.r.current = none := by rw [hr]; exact hc
    unfold Call.startNext
    dsimp only
    rw [hq']
    dsimp only
    unfold left
    rw [hcur]
    rfl
  | cons it rest =>
    have hcur := Call.startNext_current hq
    have hrest : c.startNext.r.queue = rest := by
      obtain ⟨p, hr⟩ := c.endWait_r
      have hq' : c.endWait.r.queue = it :: rest := by rw [hr]; exact hq
      unfold Call.startNext
      dsimp only
      rw [hq']
      dsimp only
      rw [beginChunk_queue]
      rfl
    unfold left
    rw [hcur, hrest, List.map_cons, List.sum_cons]
    rfl

/-- The step wait and `released` touch neither the items nor the place. -/
theorem Call.stepFlags (c : Call) (k : CodeSpeech.CodeKind) (b : Bool) :
    ((c.unrelease k).waitStep b).r.current = c.r.current ∧
      ((c.unrelease k).waitStep b).r.queue = c.r.queue := by
  obtain ⟨p, hp⟩ := c.unrelease_r k
  rcases (c.unrelease k).waitStep_cases b with h | h
  · rw [h]
    dsimp only
    rw [hp]
    exact ⟨rfl, rfl⟩
  · rw [h, hp]
    exact ⟨rfl, rfl⟩

/-- `advance` moves on. -/
theorem left_advance {c : Call} {cur : Current} (hc : c.r.current = some cur) :
    left c.advance.r < left c.r := by
  have hleft : left c.r = 1 + (cur.item.chunks.length - cur.chunk) +
      (c.r.queue.map fun it => 1 + it.chunks.length).sum := by
    unfold left
    rw [hc]
    rfl
  unfold Call.advance
  rw [hc]
  dsimp only
  split
  next hlt =>
    -- the next chunk of the same item
    have hlast : ∀ d : Call, d.r.current = some { cur with chunk := cur.chunk + 1 } →
        d.r.queue = c.r.queue → left d.beginChunk.r < left c.r := by
      intro d hd hq
      rw [hleft]
      unfold left
      rw [Call.beginChunk_current, beginChunk_queue, hd, hq]
      show 1 + (cur.item.chunks.length - (cur.chunk + 1)) + _ < _
      omega
    obtain ⟨hd, hq⟩ := Call.stepFlags ⟨{ c.r with
      current := some { cur with chunk := cur.chunk + 1 } }, c.fx⟩ _ _
    exact hlast _ hd hq
  next =>
    -- the next item
    have hend : ∀ phase, (c.endCurrent phase).r.current = none ∧
        (c.endCurrent phase).r.queue = c.r.queue := by
      intro phase
      rw [Call.endCurrent_r hc]
      exact ⟨rfl, rfl⟩
    rw [left_startNext (hend _).1, (hend _).2, hleft]
    omega

theorem left_finish (c : Call) : left c.finish.r = left c.r := by
  obtain ⟨q, s, -, hr⟩ := c.finish_r
  rw [hr]
  rfl

/-- **A failure told moves the reader on.** -/
theorem left_failed {r : Reader} (hs : Settled r) {gen : Nat} (reason : String)
    (hg : r.loaded = some gen) : left (r.onAudio (.failed gen reason)).r < left r := by
  obtain ⟨cur, hcur⟩ := Option.isSome_iff_exists.mp (hs.loaded (by rw [hg]; rfl))
  have hcall : r.onAudio (.failed gen reason) =
      (Call.advance ⟨{ r with loaded := none }, []⟩).finish := by
    unfold Reader.onAudio
    exact if_neg (not_not.mpr hg)
  rw [hcall, left_finish]
  exact left_advance (c := ⟨{ r with loaded := none }, []⟩) hcur

/-! ## The account through a drain -/

section

variable {split : Chunking → Text → List Text} {ended : Nat → Prop}
  {came : ItemId × Nat → List PcmChunk} {l : Loop} {now : Nat}

/-- What the loop owes its own reader. -/
abbrev Kept (split : Chunking → Text → List Text) (ended : Nat → Prop)
    (came : ItemId × Nat → List PcmChunk) (l : Loop) : Prop :=
  Follows split ended came l l.reader

/-- Taking the first failure, the reader hears that its chunk ended or ignores it. -/
theorem Tracks.hear {e : AudioEvent} {rest : List AudioEvent} {r : Reader} (T : Tracks ended l r)
    (hp : l.pending = e :: rest) :
    Tracks ended { l with pending := rest } (r.enter (.onAudio e)) := by
  obtain ⟨⟨reason, hf⟩, hfresh, -⟩ := T.pending e (by rw [hp]; exact List.mem_cons_self ..)
  have hrest : ∀ e' ∈ rest, e' ∈ l.pending := fun e' he' => by
    rw [hp]
    exact List.mem_cons_of_mem _ he'
  have B : Books ended { l with pending := rest } r :=
    ⟨T.bound, T.loadedBound, T.past, fun e' he' => T.pending e' (hrest e' he'), T.audio,
      T.pauseAfter,
      T.missed⟩
  by_cases hg : r.loaded = some e.gen
  · have henter : r.enter (.onAudio e) = { r with loaded := none } := by
      rw [hf] at hg ⊢
      exact if_pos hg
    rw [henter]
    refine Books.idle ⟨B.bound, fun g hg' => (nomatch hg'), B.past, B.pending, B.audio,
      B.pauseAfter,
      B.missed⟩ rfl ?_ (fun g hin => ?_)
    · cases hw : l.waiting with
      | none => rfl
      | some w =>
        -- the reader waits for this failure, not for a load
        have W := T.waits w hw
        have heq : e.gen = w.gen := Option.some.inj (hg.symm.trans W.loaded)
        exact absurd heq (W.unreported e (by rw [hp]; exact List.mem_cons_self ..))
    · by_contra hne
      have heq : e.gen = g := Option.some.inj (hg.symm.trans (T.holds g hin hne))
      exact hfresh (heq ▸ given_of_inOutput hin)
  · have henter : r.enter (.onAudio e) = r := if_neg hg
    rw [henter]
    refine ⟨B, fun w hw => ?_, T.holds, fun g hl => ?_⟩
    · have W := T.waits w hw
      exact ⟨W.loaded, W.fresh, fun e' he' => W.unreported e' (hrest e' he'),
        W.requested, W.current⟩
    · rcases T.owed g hl with hw | hin | ⟨e', he', heq⟩
      · exact .inl hw
      · exact .inr (.inl hin)
      · rw [hp] at he'
        rcases List.mem_cons.mp he' with rfl | he'
        · exact absurd (heq ▸ hl) hg
        · exact .inr (.inr ⟨e', he', heq⟩)

/-- One round of `drain`. -/
theorem Kept.round {e : AudioEvent} {rest : List AudioEvent} (K : Kept split ended came l)
    (hp : l.pending = e :: rest) :
    Kept split ended came (Loop.applyAll now
      { l with pending := rest, reader := (l.reader.onAudio e).r } (l.reader.onAudio e).fx) := by
  obtain ⟨is, hr⟩ := K.reached
  have T := K.tracks.hear hp
  have O := K.playing.hear e (fun _ he => he)
  have S : Streams came { l with pending := rest } l.reader :=
    K.streams.congr (sameStream_refl _) rfl (.inl rfl)
  rw [hr] at T S O
  have F : Follows split ended came
      (Loop.applyAll now { l with pending := rest, reader := (l.reader.onAudio e).r }
        (l.reader.onAudio e).fx) (l.reader.onAudio e).r := by
    rw [hr]
    refine follows_call (.onAudio e) ?_ ?_ (O.frame rfl rfl)
      (fun n hv => .inl (hr ▸ K.voices n hv))
    · exact ⟨⟨T.bound, T.loadedBound, T.past, T.pending, T.audio, T.pauseAfter, T.missed⟩,
        fun w hw =>
          have W := T.waits w hw
          ⟨W.loaded, W.fresh, W.unreported, W.requested, W.current⟩,
        T.holds, T.owed⟩
    · exact S.congr (sameStream_refl _) rfl (.inl rfl)
  have hreader := @applyAll_reader now
    { l with pending := rest, reader := (l.reader.onAudio e).r } (l.reader.onAudio e).fx
  rw [Kept, hreader]
  exact F

/-- **The failures noted are told, all of them.** -/
theorem Kept.drainUpTo (K : Kept split ended came l) (fuel : Nat)
    (hfuel : l.pending.length + left l.reader ≤ fuel) :
    Kept split ended came (Loop.drainUpTo now fuel l) ∧
    (Loop.drainUpTo now fuel l).pending = [] := by
  induction fuel generalizing l with
  | zero =>
    have hzero : l.pending.length = 0 := by omega
    exact ⟨K, List.eq_nil_of_length_eq_zero hzero⟩
  | succ fuel ih =>
    unfold Loop.drainUpTo
    split
    next hp => exact ⟨K, hp⟩
    next e rest hp =>
      refine ih (K.round hp) ?_
      obtain ⟨⟨reason, hf⟩, -⟩ := K.tracks.pending e (by rw [hp]; exact List.mem_cons_self ..)
      obtain ⟨is, hr⟩ := K.reached
      have hin : InRange l.reader := hr ▸ state_inRange split is
      have hset : Settled l.reader := hr ▸ state_settled split is
      have hlen : l.pending.length = rest.length + 1 := by rw [hp]; rfl
      have happly := applyAll_pending now
        { l with pending := rest, reader := (l.reader.onAudio e).r }
        (l.reader.onAudio e).fx
      have happly' : (Loop.applyAll now { l with pending := rest, reader := (l.reader.onAudio e).r }
        (l.reader.onAudio e).fx).pending.length ≤ rest.length +
        (l.reader.onAudio e).fx.countP asks :=
        happly
      rw [applyAll_reader]
      show _ + left (l.reader.onAudio e).r ≤ fuel
      by_cases hg : l.reader.loaded = some e.gen
      · have hasks : (l.reader.onAudio e).fx.countP asks ≤ 1 := by
          rw [hf]
          exact asks_failed hin hset _ _
        have hleft : left (l.reader.onAudio e).r < left l.reader := by
          rw [hf]
          exact left_failed hset reason hg
        omega
      · -- a stale failure: the reader does not answer
        have hcall : l.reader.onAudio e = ⟨l.reader, []⟩ := by
          unfold Reader.onAudio
          exact if_pos hg
        have hasks : (l.reader.onAudio e).fx.countP asks = 0 := by rw [hcall]; rfl
        have hleft : left (l.reader.onAudio e).r = left l.reader := by rw [hcall]
        omega

theorem Kept.drain (K : Kept split ended came l) :
    Kept split ended came (l.drain now) ∧ (l.drain now).pending = [] :=
  K.drainUpTo _ (Nat.le_refl _)

end

end Sonara.Worker
