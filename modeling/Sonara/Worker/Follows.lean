import Sonara.Worker.StillOpen

/-!
# The loop follows a call of the reader

`Follows` bundles what the loop owes the reader between two effects: where the loaded
chunk is, the streams, that what plays as it arrives is kept open, and the items with a
voice of their own. A call of the reader is a
path of atoms, each atom's effects keep the bundle, so the call does
(`Follows.call`).
-/

namespace Sonara.Worker

open Sonara (Text)
open Sonara.L1

/-! ## What effects do not touch -/

section Fields

variable {l : Loop} {now : Nat}

theorem load_reader (l : Loop) (item : ItemId) (chunk gen : Nat) :
    (l.load now item chunk gen).reader = l.reader := by
  have hl := l.loaded now item chunk gen
  generalize l.load now item chunk gen = l' at hl
  cases hl <;> rfl

theorem load_itemVoices (l : Loop) (item : ItemId) (chunk gen : Nat) :
    (l.load now item chunk gen).itemVoices = l.itemVoices := by
  have hl := l.loaded now item chunk gen
  generalize l.load now item chunk gen = l' at hl
  cases hl <;> rfl

/-- An effect leaves the reader. -/
theorem apply_reader (l : Loop) (e : Effect) : (Loop.apply now l e).reader = l.reader := by
  cases e with
  | playChunk item chunk gen => exact load_reader _ item chunk gen
  | pauseOutput =>
    rw [Loop.apply]
    split <;> rfl
  | resumeOutput =>
    rw [Loop.apply]
    split
    · split
      · exact load_reader _ _ _ _
      · rfl
    · rfl
  | stopOutput =>
    rw [Loop.apply]
    dsimp only
    split <;> rfl
  | setVolume v =>
    rw [Loop.apply]
    dsimp only
    split <;> rfl
  | emit e =>
    cases e with
    | state s => rfl
    | item id phase =>
      show (if phase = ItemPhase.started then l else l.forgetItem id).reader = l.reader
      split <;> rfl
  | _ => rfl

theorem applyAll_reader (l : Loop) (fx : List Effect) : (l.applyAll now fx).reader = l.reader := by
  induction fx generalizing l with
  | nil => rfl
  | cons e fx ih => exact (ih _).trans (apply_reader l e)

/-- A voice of an item's own goes with the item, and only then. -/
theorem apply_itemVoices (l : Loop) (e : Effect) (n : ItemId)
    (h : (Loop.apply now l e).itemVoices n ≠ none) :
    l.itemVoices n ≠ none ∧ ∀ id phase, e = .emit (.item id phase) → phase.Final → n ≠ id := by
  have same : (Loop.apply now l e).itemVoices = l.itemVoices →
      (∀ id phase, e ≠ .emit (.item id phase)) →
      l.itemVoices n ≠ none ∧ ∀ id phase, e = .emit (.item id phase) → phase.Final → n ≠ id :=
    fun hs he => ⟨hs ▸ h, fun id phase heq => absurd heq (he id phase)⟩
  cases e with
  | playChunk item chunk gen => exact same (load_itemVoices _ _ _ _) (by simp)
  | pauseOutput =>
    refine same ?_ (by simp)
    rw [Loop.apply]
    split <;> rfl
  | resumeOutput =>
    refine same ?_ (by simp)
    rw [Loop.apply]
    split
    · split
      · exact load_itemVoices _ _ _ _
      · rfl
    · rfl
  | stopOutput =>
    refine same ?_ (by simp)
    rw [Loop.apply]
    dsimp only
    split <;> rfl
  | setVolume v =>
    refine same ?_ (by simp)
    rw [Loop.apply]
    dsimp only
    split <;> rfl
  | emit e =>
    cases e with
    | state s => exact same rfl (by simp)
    | item id phase =>
      have h' : (if phase = ItemPhase.started then l else l.forgetItem id).itemVoices n ≠ none := h
      by_cases hs : phase = ItemPhase.started
      · rw [if_pos hs] at h'
        refine ⟨h', fun id' phase' heq hf => ?_⟩
        obtain ⟨rfl, rfl⟩ : id = id' ∧ phase = phase' := by simpa using heq
        rw [hs] at hf
        exact hf.elim
      · rw [if_neg hs] at h'
        have h'' : Function.update l.itemVoices id none n ≠ none := h'
        by_cases hn : n = id
        · rw [hn, Function.update_self] at h''
          exact absurd rfl h''
        · rw [Function.update_of_ne hn] at h''
          refine ⟨h'', fun id' phase' heq _ => ?_⟩
          obtain ⟨rfl, rfl⟩ : id = id' ∧ phase = phase' := by simpa using heq
          exact hn
  | synthesize => exact same rfl (by simp)
  | mute => exact same rfl (by simp)
  | unmute => exact same rfl (by simp)

theorem applyAll_itemVoices (l : Loop) (fx : List Effect) (n : ItemId)
    (h : (l.applyAll now fx).itemVoices n ≠ none) : l.itemVoices n ≠ none := by
  induction fx generalizing l with
  | nil => exact h
  | cons e fx ih => exact (apply_itemVoices l e n (ih _ h)).1

end Fields

/-! ## One call of the reader -/

/-- Every voice of its own belongs to a live item or to an id not handed out yet. -/
def Voices (l : Loop) (r : Reader) : Prop := ∀ n, l.itemVoices n ≠ none → n ∈ r.ids ∨ r.nextId ≤ n

section Calls

variable {fin : Current → ItemPhase → Prop} {c c' : Call} {h : List Effect} {l : Loop} {now : Nat}

/-- Every atom keeps the voices with the items that live. -/
theorem Atom.voices (a : Atom fin c c')
    (V : Voices (l.applyAll now c.fx) c.r) : Voices (l.applyAll now c'.fx) c'.r := by
  have same : ∀ {r' : Reader} {es : List Effect}, r'.nextId = c.r.nextId → r'.live = c.r.live →
      Voices (l.applyAll now (c.fx ++ es)) r' := by
    intro r' es hn hl n hv
    rw [Loop.applyAll_append] at hv
    rw [Reader.ids, hl, hn]
    exact V n (applyAll_itemVoices _ es n hv)
  have quiet : ∀ {r' : Reader}, r'.nextId = c.r.nextId → r'.live = c.r.live →
      Voices (l.applyAll now c.fx) r' := by
    intro r' hn hl n hv
    rw [Reader.ids, hl, hn]
    exact V n hv
  -- an item leaves with its final phase
  have leave : ∀ {r' : Reader} {it : Item} {phase : ItemPhase}, phase.Final →
      r'.nextId = c.r.nextId → c.r.live.Perm (it :: r'.live) →
      Voices (l.applyAll now (c.fx ++ [.emit (.item it.id phase)])) r' := by
    intro r' it phase hf hn hp n hv
    have hv' : (Loop.apply now (l.applyAll now c.fx)
        (.emit (.item it.id phase))).itemVoices n ≠ none := by
      rw [Loop.applyAll_append] at hv
      exact hv
    obtain ⟨hv, hne⟩ := apply_itemVoices _ _ n hv'
    have hids : c.r.ids.Perm (it.id :: r'.ids) := hp.map _
    rw [hn]
    refine (V n hv).imp_left fun hm => ?_
    exact (List.mem_cons.mp (hids.mem_iff.mp hm)).resolve_left (hne it.id phase rfl hf)
  -- an item comes under the next id
  have joins : ∀ {r' : Reader} {it : Item}, it.id = c.r.nextId → r'.nextId = c.r.nextId + 1 →
      r'.live.Perm (it :: c.r.live) → Voices (l.applyAll now c.fx) r' := by
    intro r' it hid hn hp n hv
    have hids : r'.ids.Perm (it.id :: c.r.ids) := hp.map _
    rcases V n hv with hm | hle
    · exact .inl (hids.mem_iff.mpr (List.mem_cons_of_mem _ hm))
    · rcases Nat.eq_or_lt_of_le hle with heq | hlt
      · exact .inl (hids.mem_iff.mpr (by rw [hid, heq]; exact List.mem_cons_self ..))
      · exact .inr (by rw [hn]; exact hlt)
  cases a with
  | view s silent =>
    exact same s.nextId (by rw [Reader.live, Reader.live, s.current, s.queue])
  | flag => exact quiet rfl rfl
  | pauseOutput => exact same rfl rfl
  | resumeOutput => exact same rfl rfl
  | stopOutput => exact same rfl rfl
  | @retire cur phase quiet unloaded current final =>
    exact leave final rfl (by rw [Ledger.live_eq_cons current]; exact .refl _)
  | @dropFront it rest queue =>
    refine leave trivial rfl ?_
    rw [Reader.live, queue]
    exact List.perm_middle
  | refuse =>
    intro n hv
    have hv' : (Loop.apply now (l.applyAll now c.fx)
        (.emit (.item c.r.nextId .skipped))).itemVoices n ≠ none := by
      rw [Loop.applyAll_append] at hv
      exact hv
    obtain ⟨hv', hne⟩ := apply_itemVoices _ _ n hv'
    refine (V n hv').imp_right fun hle => ?_
    have hn : n ≠ c.r.nextId := hne c.r.nextId .skipped rfl trivial
    exact Nat.lt_of_le_of_ne hle hn.symm
  | @admitBack it id chunks =>
    refine joins id rfl ?_
    show (c.r.current.toList.map (·.item) ++ (c.r.queue ++ [it])).Perm (it :: c.r.live)
    rw [← List.append_assoc]
    exact List.perm_append_singleton ..
  | @admitFront it id chunks => exact joins id rfl List.perm_middle
  | @start it rest idle unloaded queue =>
    refine same rfl ?_
    rw [Ledger.live_eq_queue idle, queue]
    rfl
  | request => exact same rfl rfl
  | play => exact same rfl rfl
  | @moveChunk cur i q unloaded current =>
    refine quiet rfl ?_
    rw [Ledger.live_eq_cons current]
    rfl

end Calls

/-- The loop so far and the reader of a run: every account is in order. -/
structure Follows (split : Chunking → Text → List Text) (ended : Nat → Prop)
    (came : ItemId × Nat → List PcmChunk) (l : Loop) (r : Reader) : Prop where
  reached : ∃ is, r = (L1.machine split).state is
  tracks : Tracks ended l r
  streams : Streams came l r
  playing : KeepsOpen ended l r
  voices : ∀ n, l.itemVoices n ≠ none → n ∈ r.ids

section

variable {split : Chunking → Text → List Text} {ended : Nat → Prop}
  {came : ItemId × Nat → List PcmChunk} {l l' : Loop} {r r' : Reader} {now : Nat}

/-- **One call of the reader, its effects carried out.** The loop may already hold the
voice of the item this call admits. -/
theorem follows_call {is : List Input} (i : Input)
    (T : Tracks ended l (((L1.machine split).state is).enter i))
    (S : Streams came l ((L1.machine split).state is))
    (O : KeepsOpen ended l (((L1.machine split).state is).enter i))
    (V : ∀ n, l.itemVoices n ≠ none → n ∈ ((L1.machine split).state is).ids ∨
      ((L1.machine split).state is).nextId ≤ n ∧
        n < (((L1.machine split).state is).call split i).r.nextId) :
    Follows split ended came (l.applyAll now (((L1.machine split).state is).call split i).fx)
      (((L1.machine split).state is).call split i).r := by
  generalize hr : (L1.machine split).state is = r at T S O V
  generalize hh : (L1.machine split).out is = h
  have hin : InRange r := hr ▸ state_inRange split is
  have hset : Settled r := hr ▸ state_settled split is
  have L : Ledger r h := by rw [← hr, ← hh]; exact (state_ledger split is).1
  have Y : Synths r h := by rw [← hr, ← hh]; exact state_synths split is
  have e := enter_same r i
  have elater : Later r (r.enter i) := by
    refine ⟨Nat.le_of_eq e.nextId.symm, fun n _ hg => ?_, fun p hp => .inl ?_⟩
    · rw [Reader.ids, e.live]
      exact hg
    · rw [enter_requested]
      exact hp
  have hinit : Ledger (r.enter i) (h ++ []) ∧ Synths (r.enter i) (h ++ []) ∧
      Tracks ended (l.applyAll now []) (r.enter i) ∧ Streams came (l.applyAll now []) (r.enter i) ∧
      KeepsOpen ended (l.applyAll now []) (r.enter i) ∧ Voices (l.applyAll now []) (r.enter i) := by
    refine ⟨by rw [List.append_nil]; exact e.ledger L,
      Y.frame e.live (enter_requested r i) (fun _ he => absurd he List.not_mem_nil), T,
      S.later elater, O, fun n hv => ?_⟩
    rw [Reader.ids, e.live, e.nextId]
    exact (V n hv).imp_right (·.1)
  obtain ⟨-, -, T', S', O', V'⟩ := (call_path split hin hset i).invariant
    (P := fun c => Ledger c.r (h ++ c.fx) ∧ Synths c.r (h ++ c.fx) ∧
      Tracks ended (l.applyAll now c.fx) c.r ∧ Streams came (l.applyAll now c.fx) c.r ∧
      KeepsOpen ended (l.applyAll now c.fx) c.r ∧ Voices (l.applyAll now c.fx) c.r)
    (fun a h => by
      obtain ⟨L, Y, T, S, O, V⟩ := h
      exact ⟨a.ledger L, a.synths L Y, Atom.tracks a L Y T, Atom.streams a L T S,
        Atom.keepsOpen a L T O, Atom.voices a V⟩) hinit
  refine ⟨⟨is ++ [i], ?_⟩, T', S', O', fun n hv => (V' n hv).resolve_right (fun hle => ?_)⟩
  · rw [Lib.Machine.state_snoc, hr]
    rfl
  · -- a voice still there was there before, under an id below the next one
    have hv₀ := applyAll_itemVoices l _ n hv
    have hnext : r.nextId ≤ (r.call split i).r.nextId := by
      rcases call_handsOut split r i with ⟨-, hn⟩ | ⟨-, hn⟩
      · exact Nat.le_of_eq hn.symm
      · exact hn ▸ Nat.le_succ _
    rcases V n hv₀ with hm | ⟨-, hlt⟩
    · exact absurd hle (Nat.not_le_of_lt (Nat.lt_of_lt_of_le (L.live n hm).2 hnext))
    · exact absurd hle (Nat.not_le_of_lt hlt)

/-- The reader in the loop's own field is not what the account is about. -/
theorem Follows.withReader (F : Follows split ended came l r) (r' : Reader) :
    Follows split ended came { l with reader := r' } r :=
  ⟨F.reached, ⟨⟨F.tracks.bound, F.tracks.loadedBound, F.tracks.past, F.tracks.pending,
      F.tracks.audio, F.tracks.pauseAfter, F.tracks.missed⟩,
      fun w hw =>
        have W := F.tracks.waits w hw
        ⟨W.loaded, W.fresh, W.unreported, W.requested, W.current⟩,
      F.tracks.holds, F.tracks.owed⟩,
    F.streams.congr (sameStream_refl _) rfl (.inl rfl), F.playing.frame rfl rfl, F.voices⟩

theorem Follows.call (F : Follows split ended came l r) (i : Input) (quiet : r.enter i = r) :
    Follows split ended came (l.applyAll now (r.call split i).fx) (r.call split i).r := by
  obtain ⟨is, rfl⟩ := F.reached
  exact follows_call i (quiet.symm ▸ F.tracks) F.streams (quiet.symm ▸ F.playing)
    (fun n hv => .inl (F.voices n hv))

end

end Sonara.Worker
