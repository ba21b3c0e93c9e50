import Sonara.L1.Waits

/-!
# How items end, and what is shown

The ledger says which items end in a call (`endsOf`): an item that is live no more ended
(`Ledger.gone`), one that ended is live no more (`Ledger.ended_gone`), and the
current item is never queued again (`Ledger.current_not_queued`).

The state shown is the reader's own after every call (`state_synced`).
-/

namespace Sonara.L1

open Sonara (Text)

/-- An end among the effects is an item told with a phase other than started. -/
theorem mem_endsOf {n : ItemId} {fx : List Effect} :
    n ∈ endsOf fx ↔ ∃ p, p ≠ .started ∧ .emit (.item n p) ∈ fx := by
  unfold endsOf
  rw [List.mem_filterMap]
  constructor
  · rintro ⟨e, he, hn⟩
    cases e with
    | emit ev =>
      cases ev with
      | state s => cases hn
      | item m p =>
        dsimp only at hn
        split at hn
        · cases hn
        next hp =>
          obtain rfl := Option.some.inj hn
          exact ⟨p, hp, he⟩
    | _ => cases hn
  · rintro ⟨p, hp, he⟩
    exact ⟨_, he, if_neg hp⟩

/-! ## The ledger's account -/

namespace Ledger

variable {r r' : Reader} {h es : List Effect} {n : ItemId}

/-- A live item has at most started. -/
theorem phases_live (L : Ledger r h) (hn : n ∈ r.ids) :
    phases n h = [] ∨ phases n h = [.started] := by
  obtain ⟨it, hit, rfl⟩ := List.mem_map.mp hn
  rcases List.mem_append.mp hit with hit | hit
  · obtain ⟨cur, hcur, rfl⟩ := List.mem_map.mp hit
    exact .inr (L.reading cur (Option.mem_toList.mp hcur))
  · exact .inl (L.waiting it hit)

/-- No final phase of a live item was reported. -/
theorem started_only (L : Ledger r h) (hn : n ∈ r.ids) {p : ItemPhase}
    (hp : .emit (.item n p) ∈ h) :
    p = .started := by
  have hmem := mem_phases.mpr hp
  rcases L.phases_live hn with hnil | hone
  · rw [hnil] at hmem
    cases hmem
  · rw [hone] at hmem
    exact List.mem_singleton.mp hmem

/-- What ended is not live. -/
theorem ended_gone (L : Ledger r' (h ++ es)) (hn : n ∈ endsOf es) : n ∉ r'.ids := by
  intro hlive
  obtain ⟨p, hp, he⟩ := mem_endsOf.mp hn
  exact hp (L.started_only hlive (List.mem_append_right h he))

/-- What is not live ended, now or before. -/
theorem ended_now (L' : Ledger r' (h ++ es)) (hgiven : r'.Given n) (hgone : n ∉ r'.ids)
    (before : ∀ p, .emit (.item n p) ∈ h → p = .started) : n ∈ endsOf es := by
  obtain ⟨p, hfinal, hphases⟩ := (L'.ended n hgiven hgone).phases
  have hp : p ≠ .started := by
    rintro rfl
    exact hfinal
  have hmem : p ∈ phases n (h ++ es) := by
    rcases hphases with hphases | hphases <;> rw [hphases]
    · exact List.mem_singleton_self p
    · exact List.mem_cons_of_mem _ (List.mem_singleton_self p)
  rcases List.mem_append.mp (mem_phases.mp hmem) with he | he
  · exact absurd (before p he) hp
  · exact mem_endsOf.mpr ⟨p, hp, he⟩

/-- What is live no more ended. -/
theorem gone (L : Ledger r h) (L' : Ledger r' (h ++ es)) (hgiven : r'.Given n) (hlive : n ∈ r.ids)
    (hgone : n ∉ r'.ids) : n ∈ endsOf es :=
  L'.ended_now hgiven hgone fun _ => L.started_only hlive

/-- What got its id now and is not live ended. -/
theorem born (L : Ledger r h) (L' : Ledger r' (h ++ es)) (hgiven : r'.Given n) (hnew : ¬r.Given n)
    (hgone : n ∉ r'.ids) : n ∈ endsOf es :=
  L'.ended_now hgiven hgone fun _ he => absurd (L.named _ he n rfl) hnew

/-- What is live was live as soon as it had its id. -/
theorem live_before (L : Ledger r h) (L' : Ledger r' (h ++ es)) (hgiven : r.Given n)
    (hlive : n ∈ r'.ids) :
    n ∈ r.ids := by
  by_contra hno
  obtain ⟨p, hfinal, hphases⟩ := (L.ended n hgiven hno).phases
  have hmem : p ∈ phases n h := by
    rcases hphases with hphases | hphases <;> rw [hphases]
    · exact List.mem_singleton_self p
    · exact List.mem_cons_of_mem _ (List.mem_singleton_self p)
  have hstarted := L'.started_only hlive (List.mem_append_left es (mem_phases.mp hmem))
  rw [hstarted] at hfinal
  exact hfinal

/-- An item that was current is current for as long as it is live. -/
theorem current_not_queued (L : Ledger r h) (L' : Ledger r' (h ++ es)) {cur : Current}
    (hcur : r.current = some cur) (hlive : cur.item.id ∈ r'.ids) :
    ∃ cur', r'.current = some cur' ∧ cur'.item.id = cur.item.id := by
  obtain ⟨it, hit, hid⟩ := List.mem_map.mp hlive
  rcases List.mem_append.mp hit with hit | hit
  · obtain ⟨cur', hcur', rfl⟩ := List.mem_map.mp hit
    exact ⟨cur', Option.mem_toList.mp hcur', hid⟩
  · have hnone := L'.waiting it hit
    have hone := L.reading cur hcur
    rw [hid, phases_append, hone] at hnone
    cases hnone

end Ledger

/-! ## Cuts -/

namespace Call

/-- `endCurrent` reports the end of the current item. -/
theorem endCurrent_fx {c : Call} {cur : Current} (hc : c.r.current = some cur) (phase : ItemPhase) :
    .emit (.item cur.item.id phase) ∈ (c.endCurrent phase).fx := by
  have hc' : c.stopOutput.r.current = some cur := by
    rw [stopOutput_r]
    exact hc
  unfold endCurrent
  dsimp only
  rw [hc']
  exact List.mem_append_right _ (List.mem_singleton_self _)

/-- Beginning a chunk only adds effects. -/
theorem beginChunk_fx (c : Call) : ∃ t, c.beginChunk.fx = c.fx ++ t := by
  have hrequest : ∀ (n : ItemId) (i : Nat) (x : Text), ∃ t, (c.request n i x).fx = c.fx ++ t := by
    intro n i x
    unfold request
    split
    · exact ⟨[], (List.append_nil _).symm⟩
    · exact ⟨_, rfl⟩
  unfold beginChunk
  cases c.r.current with
  | none => exact ⟨[], (List.append_nil _).symm⟩
  | some cur =>
    obtain ⟨t, ht⟩ := hrequest cur.item.id cur.chunk (cur.item.chunkAt cur.chunk)
    dsimp only
    split
    · exact ⟨t, ht⟩
    · exact ⟨t ++ _, by rw [← List.append_assoc, ← ht]⟩

/-- Starting the next item only adds effects. -/
theorem startNext_fx (c : Call) : ∃ t, c.startNext.fx = c.fx ++ t := by
  unfold startNext
  dsimp only
  split
  next item rest _ =>
    obtain ⟨t, ht⟩ := beginChunk_fx ⟨{ ({ c.endWait with r := { c.endWait.r with
      queue := rest, released := false } }.emitItem item.id .started).r with
      current := some { item := item, chunk := 0, playedAny := false } },
      ({ c.endWait with r := { c.endWait.r with queue := rest, released := false } }.emitItem
        item.id .started).fx⟩
    refine ⟨.emit (.item item.id .started) :: t, ht.trans ?_⟩
    show (c.endWait.fx ++ [_]) ++ t = _
    rw [endWait_fx, List.append_assoc]
    rfl
  · exact ⟨[], (endWait_fx c).trans (List.append_nil _).symm⟩

end Call

variable {r : Reader} {cur : Current}

/-- **A skip ends the current item.** -/
theorem skip_ends (hc : r.current = some cur) : cur.item.id ∈ endsOf (r.control .skip).fx := by
  refine mem_endsOf.mpr ⟨.skipped, nofun, ?_⟩
  have hskip : Call.control ⟨r, []⟩ .skip = (Call.endCurrent ⟨r, []⟩ .skipped).startNext :=
    if_pos (by rw [hc]; rfl)
  obtain ⟨t, ht⟩ := Call.startNext_fx (Call.endCurrent ⟨r, []⟩ .skipped)
  obtain ⟨u, hu⟩ := Call.finish_fx (Call.control ⟨r, []⟩ .skip)
  unfold Reader.control
  rw [hu, hskip, ht]
  exact List.mem_append_left _ (List.mem_append_left _
    (Call.endCurrent_fx (c := ⟨r, []⟩) hc .skipped))

/-- **A stop ends all that is live.** -/
theorem stop_idle (r : Reader) : (r.control .stop).r.current = none ∧
    (r.control .stop).r.queue = [] := by
  obtain ⟨q, s, -, hr⟩ := Call.finish_r (Call.control ⟨r, []⟩ .stop)
  unfold Reader.control
  rw [hr]
  show (Call.stop ⟨r, []⟩).r.current = none ∧ (Call.stop ⟨r, []⟩).r.queue = []
  unfold Call.stop
  dsimp only
  split
  next h =>
    obtain ⟨hc, hq⟩ := Bool.and_eq_true_iff.mp h
    exact ⟨Option.isNone_iff_eq_none.mp hc, List.isEmpty_iff.mp hq⟩
  · split
    next hc =>
      obtain ⟨q, hdrop⟩ := Call.dropQueue_r (Call.endCurrent ⟨{ r with last := none }, []⟩ .skipped)
      rw [hdrop]
      exact ⟨Call.endCurrent_current _ .skipped, rfl⟩
    next hc =>
      obtain ⟨q, hdrop⟩ := Call.dropQueue_r ⟨{ r with last := none }, []⟩
      rw [hdrop]
      exact ⟨Option.not_isSome_iff_eq_none.mp hc, rfl⟩

section

variable (split : Chunking → Text → List Text)

/-- A text with nothing to speak is refused: it ends at once. -/
theorem speak_refused {text : Text} (h : (split r.chunking text).isEmpty = true) (mode : QueueMode)
    (interrupt : Bool) (label : Option String) : r.speak split text mode interrupt label =
      (r.nextId, ⟨{ r with nextId := r.nextId + 1 }, [.emit (.item r.nextId .skipped)]⟩) := by
  unfold Reader.speak
  dsimp only
  rw [if_pos h]
  rfl

/-- **What is spoken is current at once**, in an idle reader or with an interrupt. -/
theorem speak_current {text : Text} (h : (split r.chunking text).isEmpty = false) {interrupt : Bool}
    (hnow : r.current = none ∧ r.queue = [] ∨ interrupt = true ∧ r.current ≠ none)
    (label : Option String) :
    ∃ cur', (r.speak split text .append interrupt label).2.r.current = some cur' ∧
    cur'.item.id = r.nextId := by
  unfold Reader.speak
  dsimp only
  rw [if_neg (Bool.eq_false_iff.mp h), if_neg nofun]
  obtain ⟨q, s, -, hr⟩ := Call.finish_r (Call.enqueue (Call.bump ⟨r, []⟩ (r.nextId + 1))
    { id := r.nextId, label := label, text := text, chunks := split r.chunking text } interrupt)
  rw [hr]
  dsimp only
  unfold Call.enqueue
  rcases hnow with ⟨hc, hq⟩ | ⟨rfl, hc⟩
  · have hno : (Call.bump ⟨r, []⟩ (r.nextId + 1)).r.current = none := hc
    rw [if_neg (by rw [hno, Option.isSome_none, Bool.and_false]; nofun), if_pos (by
      show r.current.isNone = true
      rw [hc]
      rfl)]
    exact ⟨_, Call.startNext_current (by
      show r.queue ++ [_] = _
      rw [hq]
      rfl), rfl⟩
  · have hsome : r.current.isSome = true := Option.isSome_iff_ne_none.mpr hc
    rw [if_pos (by rw [Bool.true_and]; exact hsome)]
    exact ⟨_, Call.startNext_current rfl, rfl⟩

/-- A reader of some run. -/
def Reached (r : Reader) : Prop := ∃ is, (machine split).state is = r

/-- What one call changes of the items. -/
structure Carries (r r' : Reader) (fx : List Effect) : Prop where
  reached : Reached split r'
  given : ∀ n, r.Given n → r'.Given n
  live : ∀ n ∈ r'.ids, r'.Given n
  /-- An item that is live now and had its id before was live before. -/
  before : ∀ n, r.Given n → n ∈ r'.ids → n ∈ r.ids
  gone : ∀ n ∈ r.ids, n ∉ r'.ids → n ∈ endsOf fx
  /-- An id handed out now is live, or its item ended at once. -/
  born : ∀ n, r'.Given n → ¬r.Given n → n ∉ r'.ids → n ∈ endsOf fx
  ended : ∀ n ∈ endsOf fx, r'.Given n ∧ n ∉ r'.ids
  current : ∀ n, r.current.map (·.item.id) = some n → n ∈ r'.ids →
    r'.current.map (·.item.id) = some n

/-- **What every call changes of the items.** -/
theorem call_carries (h : Reached split r) (i : Input) :
    Carries split r (r.call split i).r (r.call split i).fx := by
  obtain ⟨is, rfl⟩ := h
  have L := (state_ledger split is).1
  have L' := (state_ledger split (is ++ [i])).1
  rw [Lib.Machine.out_snoc, Lib.Machine.state_snoc] at L'
  have hgiven : ∀ n, ((machine split).state is).Given n →
      ((((machine split).state is).call split i).r).Given n := by
    intro n hn
    rcases call_handsOut split ((machine split).state is) i with ⟨-, hnext⟩ | ⟨-, hnext⟩
    · exact ⟨hn.1, by rw [hnext]; exact hn.2⟩
    · exact ⟨hn.1, by rw [hnext]; exact Nat.lt_succ_of_lt hn.2⟩
  refine ⟨⟨is ++ [i], (machine split).state_snoc is i⟩, hgiven, L'.live,
    fun n hn hlive => L.live_before L' hn hlive,
    fun n hlive hgone => L.gone L' (hgiven n (L.live n hlive)) hlive hgone,
    fun n hn hnew hgone => L.born L' hn hnew hgone, fun n hn => ⟨?_, L'.ended_gone hn⟩,
    fun n hcur hlive => ?_⟩
  · obtain ⟨p, -, he⟩ := mem_endsOf.mp hn
    exact L'.named _ (List.mem_append_right _ he) n rfl
  · obtain ⟨cur, hc, rfl⟩ := Option.map_eq_some_iff.mp hcur
    obtain ⟨cur', hc', hid⟩ := L.current_not_queued L' hc hlive
    exact Option.map_eq_some_iff.mpr ⟨cur', hc', hid⟩

/-- What is spoken gets the next id. -/
theorem Reached.speak_id (h : Reached split r) (text : Text) (mode : QueueMode) (interrupt : Bool)
    (label : Option String) : (r.speak split text mode interrupt label).1 = r.nextId ∧
      (r.speak split text mode interrupt label).2.r.Given r.nextId := by
  have hid : (r.speak split text mode interrupt label).1 = r.nextId := by
    unfold Reader.speak
    dsimp only
    split <;> rfl
  obtain ⟨is, rfl⟩ := h
  refine ⟨hid, (state_ledger split is).1.pos, ?_⟩
  rcases call_handsOut split ((machine split).state is) (.speak text mode interrupt label) with
    ⟨hno, -⟩ | ⟨-, hnext⟩
  · cases hno
  · exact Nat.lt_of_lt_of_eq (Nat.lt_succ_self _) hnext.symm

/-- With no current item nothing is live. -/
theorem Reached.idle (h : Reached split r) (hc : r.current = none) : r.queue = [] ∧ r.ids = [] := by
  obtain ⟨is, rfl⟩ := h
  have hq := ((state_settled split is).idle hc).1
  refine ⟨hq, ?_⟩
  unfold Reader.ids
  rw [Ledger.live_eq_queue hc, hq]
  rfl

/-! ## What is shown -/

/-- The state shown is the reader's. -/
def Synced (r : Reader) : Prop := r.snapshot r.shown.seq = r.shown

theorem finish_synced (c : Call) : Synced c.finish.r := by
  unfold Call.finish Synced
  dsimp only
  split
  · rfl
  next h => exact not_not.mp h

/-- Every call keeps the reader in step with what it told. -/
theorem call_synced (h : Synced r) (i : Input) : Synced (r.call split i).r := by
  cases i with
  | speak text mode interrupt label =>
    show Synced (r.speak split text mode interrupt label).2.r
    unfold Reader.speak
    dsimp only
    split
    · exact h
    · exact finish_synced _
  | control k => exact finish_synced _
  | onAudio e =>
    show Synced (r.onAudio e).r
    unfold Reader.onAudio
    split
    · exact h
    · cases e <;> exact finish_synced _
  | setVolume v => exact finish_synced _
  | setRate v => exact finish_synced _
  | setVoice v => exact finish_synced _
  | setLookahead n => exact finish_synced _
  | setChunking k => exact finish_synced _
  | setCodeStep on => exact finish_synced _

theorem state_synced (is : List Input) : Synced ((machine split).state is) :=
  (machine split).run_induction (P := fun _ r _ => Synced r) rfl
    (fun _ i h => call_synced split h i) is

theorem Reached.synced (h : Reached split r) : Synced r := by
  obtain ⟨is, rfl⟩ := h
  exact state_synced split is

/-- The item shown is the current one. -/
theorem Synced.nowPlaying (h : Synced r) :
    r.shown.nowPlaying.map NowPlaying.itemId = r.current.map (·.item.id) := by
  rw [← h]
  show (r.current.map _).map _ = _
  rw [Option.map_map]
  rfl

theorem Synced.queued (h : Synced r) : r.shown.queued = r.queue.length := by
  rw [← h]
  rfl

end

end Sonara.L1
