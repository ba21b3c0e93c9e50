import Sonara.L1.Ledger

/-!
# The life of an item

From `speak` to its final phase, over every run of a new reader:

* `handedOut_eq`: the ids handed out are 1, 2, 3, ... in the order of the calls;
* the ledger (`state_ledger`): what was emitted of each of them;
* `Marked`: `playedAny` of the current item says whether a chunk of it `Reported`
  that it started or finished, and so decides between `Finished` and `Failed`.

`lifecycle` puts them together.
-/

namespace Sonara.L1

open Sonara (Text)

variable (split : Chunking → Text → List Text)

/-! ## The id counter -/

namespace Call

@[simp] theorem request_nextId (c : Call) (n : ItemId) (i : Nat) (t : Text) :
    (c.request n i t).r.nextId = c.r.nextId := by
  rw [request_r]

@[simp] theorem finish_nextId (c : Call) : c.finish.r.nextId = c.r.nextId := by
  obtain ⟨q, s, _, h⟩ := c.finish_r
  rw [h]

@[simp] theorem stopOutput_nextId (c : Call) : c.stopOutput.r.nextId = c.r.nextId := by
  rw [stopOutput_r]

@[simp] theorem endWait_nextId (c : Call) : c.endWait.r.nextId = c.r.nextId := by
  obtain ⟨p, h⟩ := c.endWait_r
  rw [h]

@[simp] theorem unrelease_nextId (c : Call) (k : CodeSpeech.CodeKind) :
    (c.unrelease k).r.nextId = c.r.nextId := by
  obtain ⟨b, h⟩ := c.unrelease_r k
  rw [h]

@[simp] theorem waitStep_nextId (c : Call) (b : Bool) : (c.waitStep b).r.nextId = c.r.nextId := by
  rcases c.waitStep_cases b with h | h <;> rw [h]

@[simp] theorem dropQueue_nextId (c : Call) : c.dropQueue.r.nextId = c.r.nextId := by
  obtain ⟨q, h⟩ := c.dropQueue_r
  rw [h]

@[simp] theorem endCurrent_nextId (c : Call) (phase : ItemPhase) :
    (c.endCurrent phase).r.nextId = c.r.nextId := by
  unfold endCurrent
  dsimp only
  split
  · exact c.stopOutput_nextId
  · exact c.stopOutput_nextId

@[simp] theorem beginChunk_nextId (c : Call) : c.beginChunk.r.nextId = c.r.nextId := by
  unfold beginChunk
  split
  · rfl
  · dsimp only
    split <;> simp

@[simp] theorem startNext_nextId (c : Call) : c.startNext.r.nextId = c.r.nextId := by
  unfold startNext
  dsimp only
  split
  · rw [beginChunk_nextId]
    exact c.endWait_nextId
  · exact c.endWait_nextId

@[simp] theorem skip_nextId (c : Call) : c.skip.r.nextId = c.r.nextId := by
  simp [skip]

@[simp] theorem moveTo_nextId (c : Call) (dest : Nat) : (c.moveTo dest).r.nextId = c.r.nextId := by
  unfold moveTo
  rw [beginChunk_nextId, unrelease_nextId]
  exact c.endWait.stopOutput_nextId.trans c.endWait_nextId

@[simp] theorem advance_nextId (c : Call) : c.advance.r.nextId = c.r.nextId := by
  unfold advance
  split
  · rfl
  · split <;> simp

@[simp] theorem resume_nextId (c : Call) : c.resume.r.nextId = c.r.nextId := by
  unfold resume
  dsimp only
  split <;> simp [push]

@[simp] theorem play_nextId (c : Call) : c.play.r.nextId = c.r.nextId := by
  unfold play releaseCode
  split <;> simp

@[simp] theorem pause_nextId (c : Call) : c.pause.r.nextId = c.r.nextId := by
  unfold pause
  dsimp only
  split
  · rfl
  · split <;> rfl

@[simp] theorem stop_nextId (c : Call) : c.stop.r.nextId = c.r.nextId := by
  unfold stop
  dsimp only
  split
  · rfl
  · split <;> simp

@[simp] theorem lineStep_nextId (c : Call) (next : Bool) :
    (c.lineStep next).r.nextId = c.r.nextId := by
  unfold lineStep
  split
  · rfl
  · split
    · rfl
    · dsimp only
      split <;> simp

/-- Only Restart, of the last item when nothing is read, takes an id. -/
theorem control_nextId (c : Call) {k : Control} (h : k ≠ .restart) :
    (c.control k).r.nextId = c.r.nextId := by
  cases k with
  | restart => exact absurd rfl h
  | play =>
    show (if c.r.paused then c.play else c).r.nextId = _
    split <;> simp
  | pause => exact c.pause_nextId
  | toggle =>
    show (if c.r.paused then c.play else c.pause).r.nextId = _
    split <;> simp
  | stop => exact c.stop_nextId
  | skip =>
    show (if c.r.current.isSome then c.skip else c).r.nextId = _
    split <;> simp
  | previous =>
    show c.previous.r.nextId = _
    unfold previous
    split <;> simp
  | next =>
    show c.next.r.nextId = _
    unfold next
    split
    · rfl
    · split <;> simp
  | mute =>
    show (if (!c.r.muted) = true then _ else c).r.nextId = _
    split <;> rfl
  | unmute =>
    show (if c.r.muted = true then _ else c).r.nextId = _
    split <;> rfl
  | nextLine => exact c.lineStep_nextId true
  | previousLine => exact c.lineStep_nextId false

theorem enqueue_nextId (c : Call) (item : Item) (interrupt : Bool) :
    (c.enqueue item interrupt).r.nextId = c.r.nextId := by
  unfold enqueue
  split
  · simp [pushFront]
  · dsimp only
    split <;> simp [pushBack]

/-! ### The item a start makes current -/

theorem beginChunk_current (c : Call) : c.beginChunk.r.current = c.r.current := by
  unfold beginChunk
  split
  · rfl
  · dsimp only
    split <;> rw [request_r]

theorem startNext_current {c : Call} {item : Item} {rest : List Item}
    (h : c.r.queue = item :: rest) :
    c.startNext.r.current = some { item := item, chunk := 0, playedAny := false } := by
  obtain ⟨p, hr⟩ := c.endWait_r
  have hq : c.endWait.r.queue = item :: rest := by rw [hr]; exact h
  unfold startNext
  dsimp only
  rw [hq]
  dsimp only
  rw [beginChunk_current]

end Call

theorem onAudio_nextId (r : Reader) (e : AudioEvent) : (r.onAudio e).r.nextId = r.nextId := by
  unfold Reader.onAudio
  split
  · rfl
  · split <;> simp [Reader.markPlayed]

/-- The id a call hands out: `speak` returns it, and Restart gives it to the last
item when nothing is read. -/
def Reader.handsOut (r : Reader) : Input → List ItemId
  | .speak text mode interrupt label => [(r.speak split text mode interrupt label).1]
  | .control .restart =>
    if r.current.isNone && r.last.isSome then
      ((r.control .restart).r.current.map (·.item.id)).toList
    else []
  | _ => []

/-- The ids handed out in a run, in order. -/
def handedOut (is : List Input) : List ItemId :=
  ((machine split).observe (Reader.handsOut split)).out is

/-- A restart hands out one id, or none. -/
theorem restart_handsOut (r : Reader) :
    (Reader.handsOut split r (.control .restart) = [] ∧ (r.control .restart).r.nextId = r.nextId) ∨
      (Reader.handsOut split r (.control .restart) = [r.nextId] ∧
        (r.control .restart).r.nextId = r.nextId + 1) := by
  have hfin : (r.control .restart).r.nextId = (Call.restart ⟨r, []⟩).r.nextId :=
    Call.finish_nextId _
  rw [hfin]
  show ((if r.current.isNone && r.last.isSome then _ else []) = [] ∧ _) ∨
    ((if r.current.isNone && r.last.isSome then _ else []) = [r.nextId] ∧ _)
  unfold Call.restart
  cases hc : r.current with
  | some cur => exact .inl ⟨rfl, by simp⟩
  | none =>
    cases hl : r.last with
    | none => exact .inl ⟨rfl, rfl⟩
    | some item =>
      refine .inr ⟨?_, by simp [Call.pushFront, Call.bump]⟩
      have hcall : Call.restart ⟨r, []⟩ = ((Call.bump ⟨{ r with last := none }, []⟩
          (r.nextId + 1)).pushFront { item with id := r.nextId }).startNext := by
        unfold Call.restart
        simp [hc, hl]
      obtain ⟨q, s, _, hf⟩ := (Call.restart ⟨r, []⟩).finish_r
      have hcur : (r.control .restart).r.current = (Call.restart ⟨r, []⟩).r.current := by
        show (Call.restart ⟨r, []⟩).finish.r.current = _
        rw [hf]
      rw [hcur, hcall, Call.startNext_current rfl]
      rfl

/-- A call hands out the next id and counts it, or hands out none. -/
theorem call_handsOut (r : Reader) (i : Input) :
    (r.handsOut split i = [] ∧ (r.call split i).r.nextId = r.nextId) ∨
      (r.handsOut split i = [r.nextId] ∧ (r.call split i).r.nextId = r.nextId + 1) := by
  cases i with
  | speak text mode interrupt label =>
    show _ ∨ ([(r.speak split text mode interrupt label).1] = _ ∧ _)
    refine .inr ?_
    show _ ∧ (r.speak split text mode interrupt label).2.r.nextId = _
    unfold Reader.speak
    dsimp only
    split
    · exact ⟨rfl, rfl⟩
    · refine ⟨rfl, ?_⟩
      rw [Call.finish_nextId, Call.enqueue_nextId]
      split
      · exact Call.dropQueue_nextId _
      · rfl
  | control k =>
    by_cases hk : k = .restart
    · rw [hk]
      exact restart_handsOut split r
    · have hn : (r.control k).r.nextId = r.nextId :=
        (Call.finish_nextId _).trans (Call.control_nextId ⟨r, []⟩ hk)
      refine .inl ⟨?_, hn⟩
      cases k with
      | restart => exact absurd rfl hk
      | _ => rfl
  | onAudio e => exact .inl ⟨rfl, onAudio_nextId r e⟩
  | setVolume v =>
    refine .inl ⟨rfl, (Call.finish_nextId _).trans ?_⟩
    split <;> rfl
  | setRate v => exact .inl ⟨rfl, Call.finish_nextId _⟩
  | setVoice v => exact .inl ⟨rfl, Call.finish_nextId _⟩
  | setLookahead n => exact .inl ⟨rfl, Call.finish_nextId _⟩
  | setChunking k => exact .inl ⟨rfl, Call.finish_nextId _⟩
  | setCodeStep on =>
    refine .inl ⟨rfl, (Call.finish_nextId _).trans ?_⟩
    split <;> simp

/-- **The ids handed out count up from 1.** -/
theorem handedOut_eq (is : List Input) :
    handedOut split is = List.range' 1 (((machine split).state is).nextId - 1) ∧
      1 ≤ ((machine split).state is).nextId := by
  induction is using List.reverseRecOn with
  | nil => exact ⟨rfl, Nat.le_refl 1⟩
  | append_singleton is i ih =>
    obtain ⟨ih, hpos⟩ := ih
    have hstate : (machine split).state (is ++ [i]) = (((machine split).state is).call split i).r :=
      Lib.Machine.state_snoc ..
    have hout : handedOut split (is ++ [i])
        = handedOut split is ++ ((machine split).state is).handsOut split i :=
      Lib.Machine.observe_out_snoc ..
    rw [hstate, hout, ih]
    rcases call_handsOut split ((machine split).state is) i with ⟨hh, hn⟩ | ⟨hh, hn⟩ <;> rw [hh, hn]
    · exact ⟨List.append_nil _, hpos⟩
    · refine ⟨?_, Nat.le_add_left ..⟩
      obtain ⟨k, hk⟩ := Nat.exists_eq_add_of_le' hpos
      rw [hk, Nat.add_sub_cancel, Nat.add_sub_cancel, List.range'_concat, Nat.one_mul, Nat.add_comm]

theorem mem_handedOut {is : List Input} {n : ItemId} :
    n ∈ handedOut split is ↔ ((machine split).state is).Given n := by
  obtain ⟨he, hpos⟩ := handedOut_eq split is
  rw [he, List.mem_range'_1, Reader.Given, Nat.add_sub_cancel' hpos]

/-! ## The ledger of a run -/

/-- What an input reports changes neither the ids nor which chunk is current. -/
structure SameItems (r r' : Reader) : Prop where
  nextId : r'.nextId = r.nextId
  queue : r'.queue = r.queue
  gen : r'.gen = r.gen
  current : r'.current.map (fun c => (c.item, c.chunk)) = r.current.map (fun c => (c.item, c.chunk))
  loaded : r'.loaded = none ∨ r'.loaded = r.loaded

/-- Entering an input leaves the items. -/
theorem enter_same (r : Reader) (i : Input) : SameItems r (r.enter i) := by
  have hmark : r.markPlayed.current.map (fun c => (c.item, c.chunk)) =
      r.current.map (fun c => (c.item, c.chunk)) := by
    rw [Reader.markPlayed, Option.map_map]
    rfl
  cases i with
  | onAudio e =>
    show SameItems r (if r.loaded = some e.gen then r.hear e else r)
    split
    · cases e with
      | chunkStarted g => exact ⟨rfl, rfl, rfl, hmark, .inr rfl⟩
      | chunkFinished g => exact ⟨rfl, rfl, rfl, hmark, .inl rfl⟩
      | failed g reason => exact ⟨rfl, rfl, rfl, rfl, .inl rfl⟩
    · exact ⟨rfl, rfl, rfl, rfl, .inr rfl⟩
  | _ => exact ⟨rfl, rfl, rfl, rfl, .inr rfl⟩

theorem SameItems.ledger {r r' : Reader} {h : List Effect} (e : SameItems r r') (L : Ledger r h) :
    Ledger r' h := by
  have hc : r'.current.map (·.item) = r.current.map (·.item) := by
    have := congrArg (Option.map Prod.fst) e.current
    rwa [Option.map_map, Option.map_map] at this
  have L' : Ledger r' (h ++ []) :=
    L.quiet e.nextId e.queue hc (fun e he => absurd he List.not_mem_nil)
  rwa [List.append_nil] at L'

/-- The loads are those of the items. -/
theorem SameItems.loads {r r' : Reader} {h : List Effect} (e : SameItems r r') (P : Loads r h) :
    Loads r' h := by
  have P' : Loads r' (h ++ []) := by
    refine P.frame e.gen (fun e he => absurd he List.not_mem_nil)
      (e.loaded.imp_right fun hl => ⟨hl, ?_⟩)
    intro cur hcur
    have hm : r'.current.map (fun c => (c.item, c.chunk)) = some (cur.item, cur.chunk) := by
      rw [e.current, hcur]
      rfl
    obtain ⟨cur', hcur', heq⟩ := Option.map_eq_some_iff.mp hm
    obtain ⟨hitem, hchunk⟩ := Prod.mk.inj heq
    exact ⟨cur', hcur', by rw [hitem], hchunk⟩
  rwa [List.append_nil] at P'

/-- One call keeps the ledger and the loaded chunk's account. -/
theorem call_ledger {r : Reader} {h : List Effect} (hr : InRange r) (hs : Settled r)
    (L : Ledger r h) (P : Loads r h) (i : Input) :
    Ledger (r.call split i).r (h ++ (r.call split i).fx) ∧
      Loads (r.call split i).r (h ++ (r.call split i).fx) := by
  have hpath := call_path split hr hs i
  have e := enter_same r i
  have hnil : h = h ++ (⟨r.enter i, []⟩ : Call).fx := (List.append_nil h).symm
  refine ⟨hpath.invariant (P := fun c => Ledger c.r (h ++ c.fx)) Atom.ledger ?_,
    hpath.invariant (P := fun c => Loads c.r (h ++ c.fx)) Atom.loads ?_⟩
  · rw [← hnil]
    exact e.ledger L
  · rw [← hnil]
    exact e.loads P

/-- **The ledger of every run.** -/
theorem state_ledger (is : List Input) :
    Ledger ((machine split).state is) ((machine split).out is) ∧
      Loads ((machine split).state is) ((machine split).out is) := by
  refine (machine split).run_induction (P := fun _ r h => Ledger r h ∧ Loads r h) ⟨?_, ?_⟩
    (fun is i h => call_ledger split (state_inRange split is) (state_settled split is) h.1 h.2 i) is
  · exact ⟨Nat.le_refl 1, List.nodup_nil, fun _ hn => absurd hn List.not_mem_nil,
      fun _ he => absurd he List.not_mem_nil, fun _ hi => absurd hi List.not_mem_nil,
      fun _ hc => (nomatch hc), fun n hn _ => absurd hn.2 (Nat.not_lt.mpr hn.1)⟩
  · exact ⟨fun _ _ _ hm => absurd hm List.not_mem_nil, fun _ _ _ hm => absurd hm List.not_mem_nil,
      fun _ hl => (nomatch hl)⟩

/-! ## What was heard of an item -/

/-- The event says that its chunk was heard: it started or it finished. -/
def AudioEvent.Heard : AudioEvent → Prop
  | .chunkStarted _ | .chunkFinished _ => True
  | .failed _ _ => False

/-- In the run `is` some chunk of item `n` reported that it started or finished.
A report is about the chunk loaded then; a stale event is none. -/
def Reported (is : List Input) (n : ItemId) : Prop :=
  ∃ pre e k, pre ++ [.onAudio e] <+: is ∧ e.Heard ∧
    ((machine split).state pre).loaded = some e.gen ∧
    .playChunk n k e.gen ∈ (machine split).out pre

/-- Input `i` reports, to reader `r` after the effects `h`, that a chunk of `n`
started or finished. -/
def ReportsNow (r : Reader) (h : List Effect) (i : Input) (n : ItemId) : Prop :=
  ∃ e k, i = .onAudio e ∧ e.Heard ∧ r.loaded = some e.gen ∧ .playChunk n k e.gen ∈ h

/-- An item is reported in a run, or by its last input. -/
theorem reported_snoc (is : List Input) (i : Input) (n : ItemId) :
    Reported split (is ++ [i]) n ↔ Reported split is n ∨
      ReportsNow ((machine split).state is) ((machine split).out is) i n := by
  constructor
  · rintro ⟨pre, e, k, hp, hh, hl, hm⟩
    rcases List.prefix_concat_iff.mp hp with heq | hp
    · obtain ⟨rfl, hi⟩ := List.append_inj' heq rfl
      obtain rfl := (List.cons.inj hi).1
      exact .inr ⟨e, k, rfl, hh, hl, hm⟩
    · exact .inl ⟨pre, e, k, hp, hh, hl, hm⟩
  · rintro (⟨pre, e, k, hp, hh, hl, hm⟩ | ⟨e, k, rfl, hh, hl, hm⟩)
    · exact ⟨pre, e, k, hp.trans (List.prefix_append ..), hh, hl, hm⟩
    · exact ⟨is, e, k, List.prefix_refl _, hh, hl, hm⟩

/-- `playedAny` marks exactly the items `rep` holds of. -/
structure Marked (rep : ItemId → Prop) (r : Reader) : Prop where
  current : ∀ cur, r.current = some cur → (cur.playedAny = true ↔ rep cur.item.id)
  queue : ∀ it ∈ r.queue, ¬rep it.id
  fresh : ∀ n, r.nextId ≤ n → ¬rep n

/-- Every atom keeps `playedAny` on exactly the items that were reported. -/
theorem Atom.marked {fin : Current → ItemPhase → Prop} {c c' : Call} {rep : ItemId → Prop}
    (a : Atom fin c c') (M : Marked rep c.r) : Marked rep c'.r := by
  cases a with
  | view same silent =>
    exact ⟨fun cur hc => M.current cur (same.current ▸ hc),
      fun it hi => M.queue it (same.queue ▸ hi),
      fun n hn => M.fresh n (same.nextId ▸ hn)⟩
  | flag => exact ⟨M.current, M.queue, M.fresh⟩
  | pauseOutput => exact ⟨M.current, M.queue, M.fresh⟩
  | resumeOutput => exact ⟨M.current, M.queue, M.fresh⟩
  | stopOutput => exact ⟨M.current, M.queue, M.fresh⟩
  | retire => exact ⟨fun _ hc => (nomatch hc), M.queue, M.fresh⟩
  | dropFront queue =>
    exact ⟨M.current, fun it hi => M.queue it (queue ▸ List.mem_cons_of_mem _ hi), M.fresh⟩
  | refuse => exact ⟨M.current, M.queue, fun n hn => M.fresh n (Nat.le_of_succ_le hn)⟩
  | admitBack id chunks =>
    refine ⟨M.current, fun it hi => ?_, fun n hn => M.fresh n (Nat.le_of_succ_le hn)⟩
    rcases List.mem_append.mp hi with hi | hi
    · exact M.queue it hi
    · rw [List.mem_singleton.mp hi]
      exact M.fresh _ (Nat.le_of_eq id.symm)
  | admitFront id chunks =>
    refine ⟨M.current, fun it hi => ?_, fun n hn => M.fresh n (Nat.le_of_succ_le hn)⟩
    rcases List.mem_cons.mp hi with rfl | hi
    · exact M.fresh _ (Nat.le_of_eq id.symm)
    · exact M.queue it hi
  | start idle unloaded queue =>
    refine ⟨fun cur hc => ?_, fun it hi => M.queue it (queue ▸ List.mem_cons_of_mem _ hi), M.fresh⟩
    obtain rfl := Option.some.inj hc
    exact ⟨fun hp => (nomatch hp), fun hr => absurd hr (M.queue _ (queue ▸ List.mem_cons_self ..))⟩
  | request => exact ⟨M.current, M.queue, M.fresh⟩
  | play => exact ⟨M.current, M.queue, M.fresh⟩
  | @moveChunk cur i quiet unloaded current inRange =>
    refine ⟨fun cur' hc => ?_, M.queue, M.fresh⟩
    obtain rfl := Option.some.inj hc
    exact M.current cur current

/-- Taking in a report marks the item it is about. -/
theorem enter_marked {r : Reader} {h : List Effect} {rep : ItemId → Prop} (L : Ledger r h)
    (P : Loads r h) (M : Marked rep r) (i : Input) :
    Marked (fun n => rep n ∨ ReportsNow r h i n) (r.enter i) := by
  -- Without a report about the loaded chunk nothing is marked.
  have hkeep : (∀ n, ¬ReportsNow r h i n) → (r.enter i).current = r.current →
      Marked (fun n => rep n ∨ ReportsNow r h i n) (r.enter i) := by
    intro hno hc
    have e := enter_same r i
    refine ⟨fun cur hcur => ?_, fun it hi hor => ?_, fun n hn hor => ?_⟩
    · exact (M.current cur (hc ▸ hcur)).trans ⟨.inl, fun hor => hor.resolve_right (hno _)⟩
    · exact M.queue it (e.queue ▸ hi) (hor.resolve_right (hno _))
    · exact M.fresh n (e.nextId ▸ hn) (hor.resolve_right (hno _))
  cases i with
  | onAudio e =>
    by_cases hg : r.loaded = some e.gen
    · have henter : r.enter (.onAudio e) = r.hear e := if_pos hg
      by_cases hh : e.Heard
      · obtain ⟨cur, hcur, hplay⟩ := P.played _ hg
        have hnow : ∀ n, ReportsNow r h (.onAudio e) n ↔ n = cur.item.id := by
          intro n
          constructor
          · rintro ⟨e', k, he, -, hl, hm⟩
            obtain ⟨cur', hcur', hid, -⟩ := P.only n k _ hm hl
            obtain rfl := Option.some.inj (hcur.symm.trans hcur')
            exact hid.symm
          · rintro rfl
            exact ⟨e, _, rfl, hh, hg, hplay⟩
        have hmark : (r.enter (.onAudio e)).current = some { cur with playedAny := true } := by
          rw [henter]
          cases e with
          | failed g reason => exact hh.elim
          | _ => simp [Reader.hear, Reader.markPlayed, hcur]
        have e' := enter_same r (.onAudio e)
        have hcons : (cur.item.id :: r.queue.map (·.id)).Nodup := by
          have hn := L.nodup
          rw [Reader.ids, Ledger.live_eq_cons hcur] at hn
          exact hn
        refine ⟨fun c hc => ?_, fun it hi hor => ?_, fun n hn hor => ?_⟩
        · obtain rfl := Option.some.inj (hmark.symm.trans hc)
          exact ⟨fun _ => .inr ((hnow _).mpr rfl), fun _ => rfl⟩
        · rw [e'.queue] at hi
          rcases hor with hr | hr
          · exact M.queue it hi hr
          · rw [hnow] at hr
            exact (List.nodup_cons.mp hcons).1 (hr ▸ List.mem_map_of_mem hi)
        · rw [e'.nextId] at hn
          rcases hor with hr | hr
          · exact M.fresh n hn hr
          · rw [hnow] at hr
            have hlt := (L.live _ (Ledger.mem_ids_current hcur)).2
            exact absurd hn (Nat.not_le.mpr (hr ▸ hlt))
      · refine hkeep (fun n hn => ?_) ?_
        · obtain ⟨e', k, he, hh', -⟩ := hn
          obtain rfl := Input.onAudio.inj he
          exact hh hh'
        · rw [henter]
          cases e with
          | failed g reason => rfl
          | _ => exact absurd trivial hh
    · refine hkeep (fun n hn => ?_) ?_
      · obtain ⟨e', k, he, -, hl, -⟩ := hn
        obtain rfl := Input.onAudio.inj he
        exact hg hl
      · rw [show r.enter (.onAudio e) = r from if_neg hg]
  | _ => exact hkeep (fun n hn => by obtain ⟨e', k, he, -⟩ := hn; cases he) rfl

/-- **`playedAny` says what was reported of the current item.** -/
theorem state_marked (is : List Input) :
    Marked (Reported split is) ((machine split).state is) := by
  induction is using List.reverseRecOn with
  | nil =>
    have hno : ∀ n, ¬Reported split [] n := by
      rintro n ⟨pre, e, k, hp, -⟩
      exact absurd (List.prefix_nil.mp hp) (by simp)
    exact ⟨fun _ hc => (nomatch hc), fun _ hi => absurd hi List.not_mem_nil, fun n _ => hno n⟩
  | append_singleton is i ih =>
    have L := state_ledger split is
    have hs := state_settled split is
    have hrep : Reported split (is ++ [i]) = fun n => Reported split is n ∨
        ReportsNow ((machine split).state is) ((machine split).out is) i n :=
      funext fun n => propext (reported_snoc split is i n)
    have hstate : (machine split).state (is ++ [i]) = (((machine split).state is).call split i).r :=
      Lib.Machine.state_snoc ..
    rw [hstate, hrep]
    exact (call_path split (state_inRange split is) hs i).invariant
      (P := fun c => Marked _ c.r) Atom.marked (enter_marked L.1 L.2 ih i)

/-! ## How an item ends -/

/-- A phase a call reports: `Started`, `Skipped`, or one the call may end an item
with. -/
theorem Path.phase {fin : Current → ItemPhase → Prop} {c c' : Call} (p : Path fin c c')
    (hc : c.fx = []) {n : ItemId} {phase : ItemPhase} (h : .emit (.item n phase) ∈ c'.fx) :
    phase = .started ∨ phase = .skipped ∨ ∃ cur, fin cur phase ∧ cur.item.id = n := by
  have hkeep : ∀ {d d' : Call}, Atom fin d d' →
      (∀ n phase, Effect.emit (.item n phase) ∈ d.fx →
        phase = .started ∨ phase = .skipped ∨ ∃ cur, fin cur phase ∧ cur.item.id = n) →
      ∀ n phase, Effect.emit (.item n phase) ∈ d'.fx →
        phase = .started ∨ phase = .skipped ∨ ∃ cur, fin cur phase ∧ cur.item.id = n := by
    intro d d' a ih n phase hm
    have hsnoc : ∀ {e : Effect}, Effect.emit (.item n phase) ∈ d.fx ++ [e] →
        (e = .emit (.item n phase) → phase = .started ∨ phase = .skipped ∨
          ∃ cur, fin cur phase ∧ cur.item.id = n) →
        phase = .started ∨ phase = .skipped ∨ ∃ cur, fin cur phase ∧ cur.item.id = n := by
      intro e he hnew
      rcases List.mem_append.mp he with he | he
      · exact ih n phase he
      · exact hnew (List.mem_singleton.mp he).symm
    cases a with
    | view same silent =>
      rcases List.mem_append.mp hm with hm | hm
      · exact ih n phase hm
      · exact (silent _ hm).elim
    | flag => exact ih n phase hm
    | pauseOutput => exact hsnoc hm (fun h => nomatch h)
    | resumeOutput => exact hsnoc hm (fun h => nomatch h)
    | stopOutput => exact hsnoc hm (fun h => nomatch h)
    | @retire cur phase' quiet unloaded current final allowed =>
      refine hsnoc hm (fun h => ?_)
      obtain ⟨rfl, rfl⟩ : cur.item.id = n ∧ phase' = phase := by simpa using h
      exact .inr (.inr ⟨cur, allowed, rfl⟩)
    | dropFront =>
      refine hsnoc hm (fun h => ?_)
      exact .inr (.inl (Event.item.inj (Effect.emit.inj h)).2.symm)
    | refuse =>
      refine hsnoc hm (fun h => ?_)
      exact .inr (.inl (Event.item.inj (Effect.emit.inj h)).2.symm)
    | admitBack => exact ih n phase hm
    | admitFront => exact ih n phase hm
    | start =>
      refine hsnoc hm (fun h => ?_)
      exact .inl (Event.item.inj (Effect.emit.inj h)).2.symm
    | request => exact hsnoc hm (fun h => nomatch h)
    | play => exact hsnoc hm (fun h => nomatch h)
    | moveChunk => exact ih n phase hm
  refine p.invariant (P := fun d => ∀ n phase, Effect.emit (.item n phase) ∈ d.fx →
    phase = .started ∨ phase = .skipped ∨ ∃ cur, fin cur phase ∧ cur.item.id = n) hkeep ?_ n phase h
  intro n phase hm
  rw [hc] at hm
  exact absurd hm List.not_mem_nil

/-- A phase of an item is an event that was emitted. -/
theorem mem_phases {n : ItemId} {p : ItemPhase} {h : List Effect} :
    p ∈ phases n h ↔ .emit (.item n p) ∈ h := by
  rw [phases, List.mem_filterMap]
  constructor
  · rintro ⟨e, he, hp⟩
    cases e with
    | emit ev =>
      cases ev with
      | state s => cases hp
      | item m q =>
        obtain ⟨rfl, rfl⟩ : m = n ∧ q = p := by simpa [Effect.phaseOf] using hp
        exact he
    | _ => cases hp
  · intro hm
    exact ⟨_, hm, if_pos rfl⟩

/-- An item that is not live has no phase yet or has ended. -/
theorem Ledger.phases_not_live {r : Reader} {h : List Effect} (L : Ledger r h) {n : ItemId}
    (hn : n ∉ r.ids) : phases n h = [] ∨ Ended n h := by
  by_cases hg : r.Given n
  · exact .inr (L.ended n hg hn)
  · exact .inl (phases_eq_nil (fun e he hne => hg (L.named e he n hne)))

/-- In one call `Started` is reported of exactly the item that becomes current. -/
theorem Ledger.started_iff {r r' : Reader} {h es : List Effect} (L : Ledger r h)
    (L' : Ledger r' (h ++ es)) (O : Opened ⟨r', es⟩) (n : ItemId) :
    .emit (.item n .started) ∈ es ↔ r'.current.map (·.item.id) = some n ∧
      r.current.map (·.item.id) ≠ some n := by
  have hafter : ∀ cur, r'.current = some cur → cur.item.id = n →
      phases n h ++ phases n es = [.started] := by
    intro cur hcur hid
    rw [← phases_append, ← hid]
    exact L'.reading cur hcur
  constructor
  · intro hm
    obtain ⟨cur, hcur, hid⟩ := O.started n hm
    refine ⟨by rw [hcur]; exact congrArg some hid, fun hbefore => ?_⟩
    obtain ⟨cur₀, hcur₀, hid₀⟩ := Option.map_eq_some_iff.mp hbefore
    have htwice := hafter cur hcur hid
    rw [← hid₀, L.reading cur₀ hcur₀, hid₀] at htwice
    have hnil : phases n es = [] := (List.cons.inj htwice).2
    have hin := mem_phases.mpr hm
    rw [hnil] at hin
    exact List.not_mem_nil hin
  · rintro ⟨hnow, hbefore⟩
    obtain ⟨cur, hcur, hid⟩ := Option.map_eq_some_iff.mp hnow
    have hall := hafter cur hcur hid
    have hnone : phases n h = [] := by
      by_cases hlive : n ∈ r.ids
      · obtain ⟨it, hit, hitn⟩ := List.mem_map.mp hlive
        rcases List.mem_append.mp hit with hit | hit
        · obtain ⟨cur₀, hcur₀, rfl⟩ := List.mem_map.mp hit
          rw [Option.mem_toList] at hcur₀
          refine absurd ?_ hbefore
          rw [hcur₀]
          exact congrArg some hitn
        · rw [← hitn]
          exact L.waiting it hit
      · rcases L.phases_not_live hlive with hnil | hended
        · exact hnil
        · obtain ⟨p, hp, hph | hph⟩ := hended.phases
          · rw [hph] at hall
            rw [(List.cons.inj hall).1] at hp
            exact hp.elim
          · rw [hph] at hall
            cases (List.cons.inj hall).2
    rw [hnone] at hall
    exact mem_phases.mp
      (by rw [show phases n es = [.started] from hall]; exact List.mem_singleton.mpr rfl)

/-- The life of every item in a run. -/
structure Lifecycle (is : List Input) : Prop where
  /-- Every id handed out is larger than all earlier ones. -/
  increasing : (handedOut split is).Pairwise (· < ·)
  /-- The live items and the items the effects name were handed out. -/
  live : ∀ it ∈ ((machine split).state is).live, it.id ∈ handedOut split is
  distinct : (((machine split).state is).live.map (·.id)).Nodup
  named : ∀ e ∈ (machine split).out is, ∀ n, e.item? = some n → n ∈ handedOut split is
  /-- No phase while queued, `Started` while current. -/
  queued : ∀ it ∈ ((machine split).state is).queue, phases it.id ((machine split).out is) = []
  current : ∀ cur, ((machine split).state is).current = some cur →
    phases cur.item.id ((machine split).out is) = [.started]
  /-- Every other item ended, and nothing named it since. -/
  ended : ∀ n ∈ handedOut split is, (∀ it ∈ ((machine split).state is).live, it.id ≠ n) →
    Ended n ((machine split).out is)
  started : ∀ i n, .emit (.item n .started) ∈ (machine split).answer is i ↔
    ((machine split).state (is ++ [i])).current.map (·.item.id) = some n ∧
      ((machine split).state is).current.map (·.item.id) ≠ some n
  finished : ∀ i n, .emit (.item n .finished) ∈ (machine split).answer is i →
    Reported split (is ++ [i]) n
  /-- An item fails when the audio of its last chunk ends and none was heard. -/
  failed : ∀ i n, .emit (.item n .failed) ∈ (machine split).answer is i →
    ¬Reported split (is ++ [i]) n ∧ ∃ e cur, i = .onAudio e ∧
      ((machine split).state is).loaded = some e.gen ∧
      ((machine split).state is).current = some cur ∧ cur.item.id = n ∧
      cur.item.chunks.length ≤ cur.chunk + 1
  idle : ((machine split).state is).current = none → ((machine split).state is).queue = []

/-- **The life of every item, in every run.** -/
theorem lifecycle (is : List Input) : Lifecycle split is := by
  obtain ⟨L, P⟩ := state_ledger split is
  have hs := state_settled split is
  have hr := state_inRange split is
  have hphase : ∀ i n p, Effect.emit (.item n p) ∈ (machine split).answer is i → p ≠ .started →
      p ≠ .skipped → ∃ cur, Ending ((machine split).state is) i cur p ∧ cur.item.id = n := by
    intro i n p hm h1 h2
    exact (((call_path split hr hs i).phase rfl hm).resolve_left h1).resolve_left h2
  have hmarked : ∀ i, Marked (Reported split (is ++ [i])) (((machine split).state is).enter i) := by
    intro i
    rw [show Reported split (is ++ [i]) = _ from funext fun n =>
      propext (reported_snoc split is i n)]
    exact enter_marked L P (state_marked split is) i
  refine ⟨?_, fun it hi => ?_, L.nodup, fun e he n hn => ?_, L.waiting, L.reading,
    fun n hn hlive => ?_, fun i n => ?_, fun i n hm => ?_, fun i n hm => ?_,
    fun hc => (hs.idle hc).1⟩
  · rw [(handedOut_eq split is).1]
    exact List.pairwise_lt_range'
  · exact (mem_handedOut split).mpr (L.live _ (List.mem_map_of_mem hi))
  · exact (mem_handedOut split).mpr (L.named e he n hn)
  · refine L.ended n ((mem_handedOut split).mp hn) (fun hmem => ?_)
    obtain ⟨it, hit, hid⟩ := List.mem_map.mp hmem
    exact hlive it hit hid
  · have L' := (state_ledger split (is ++ [i])).1
    rw [Lib.Machine.out_snoc] at L'
    refine L.started_iff L' ?_ n
    rw [Lib.Machine.state_snoc]
    exact (call_path split hr hs i).opened (opened_nil _)
  · obtain ⟨cur, hend, rfl⟩ := hphase i n _ hm nofun nofun
    rcases hend with hsk | ⟨e, rfl, hl, hcur, hlen, hp⟩
    · cases hsk
    · refine ((hmarked _).current cur hcur).mp ?_
      by_contra hno
      rw [if_neg hno] at hp
      cases hp
  · obtain ⟨cur, hend, rfl⟩ := hphase i n _ hm nofun nofun
    rcases hend with hsk | ⟨e, rfl, hl, hcur, hlen, hp⟩
    · cases hsk
    · have hunplayed : cur.playedAny ≠ true := by
        intro hyes
        rw [if_pos hyes] at hp
        cases hp
      refine ⟨fun hrep => hunplayed (((hmarked _).current cur hcur).mpr hrep), e, ?_⟩
      have hsame := (enter_same ((machine split).state is) (.onAudio e)).current
      rw [hcur] at hsame
      obtain ⟨cur', hcur', heq⟩ := Option.map_eq_some_iff.mp hsame.symm
      obtain ⟨hitem, hchunk⟩ := Prod.mk.inj heq
      exact ⟨cur', rfl, hl, hcur', by rw [hitem], by rw [hitem, hchunk]; exact hlen⟩

end Sonara.L1
