import Sonara.Worker.Tracks

/-!
# Streamed pieces reach the output in order, once

A chunk of a streaming engine may be played while it is still being made: what came is
handed over by `play_open`, every later piece is appended, and `finish` follows the
last. `came p` are the pieces of chunk `p` the worker took in so far. `Streams` ties them
to the slots and to what the output was given under each gen.
-/

namespace Sonara.Worker

open Sonara (Text)
open Sonara.L1

/-! ## What the output was given under a gen -/

/-- The audio a call hands over under gen `g`. -/
def OutputCall.audioOf (g : Nat) : OutputCall → List PcmChunk
  | .play pcm _ _ g' | .playOpen pcm _ _ g' | .append g' pcm => if g' = g then pcm else []
  | _ => []

/-- The audio the output was given under gen `g`, in order. -/
def audioOf (g : Nat) (out : List OutputCall) : List PcmChunk := out.flatMap (OutputCall.audioOf g)

@[simp] theorem audioOf_snoc (g : Nat) (out : List OutputCall) (c : OutputCall) :
    audioOf g (out ++ [c]) = audioOf g out ++ c.audioOf g := by
  rw [audioOf, List.flatMap_append]
  simp [audioOf]

/-- A call about no chunk. -/
def OutputCall.Aside : OutputCall → Prop
  | .pause | .resume | .stop | .setVolume _ | .playClip _ _ => True
  | _ => False

/-- Both logs say the same about every chunk. -/
structure SameStream (out out' : List OutputCall) : Prop where
  given : given out' = given out
  audio : ∀ g, audioOf g out' = audioOf g out
  started : ∀ pcm i c g, OutputCall.playOpen pcm i c g ∈ out' ↔ .playOpen pcm i c g ∈ out
  appended : ∀ g pcm, OutputCall.append g pcm ∈ out' ↔ .append g pcm ∈ out
  finished : ∀ g, OutputCall.finish g ∈ out' ↔ .finish g ∈ out

theorem sameStream_refl (out : List OutputCall) : SameStream out out :=
  ⟨rfl, fun _ => rfl, fun _ _ _ _ => Iff.rfl, fun _ _ => Iff.rfl, fun _ => Iff.rfl⟩

/-- A call aside leaves the streams. -/
theorem sameStream_aside (c : OutputCall) (h : c.Aside) (out : List OutputCall) :
    SameStream out (out ++ [c]) := by
  have mem : ∀ d : OutputCall, ¬d.Aside → (d ∈ out ++ [c] ↔ d ∈ out) := by
    intro d hd
    rw [List.mem_append, List.mem_singleton]
    exact or_iff_left (fun heq => hd (heq ▸ h))
  refine ⟨?_, fun g => ?_, fun pcm i k g => mem _ id, fun g pcm => mem _ id, fun g => mem _ id⟩
  · rw [given_snoc]
    cases c with
    | play | playOpen | append | finish => exact h.elim
    | _ => exact List.append_nil _
  · rw [audioOf_snoc]
    cases c with
    | play | playOpen | append | finish => exact h.elim
    | _ => exact List.append_nil _

/-! ## The invariant -/

/-- Chunk `p` is made, or its item is gone: no piece of it can come any more. -/
def Made (l : Loop) (r : Reader) (p : ItemId × Nat) : Prop :=
  (∃ result, l.audio p = some (.ready result)) ∨ (p.1 < r.nextId ∧ p.1 ∉ r.ids)

/-- The output plays chunk `(i, k)` under gen `g` as it arrives: it was given every
piece that came. -/
structure OpenAs (came : ItemId × Nat → List PcmChunk) (l : Loop) (i : ItemId) (k g : Nat) :
    Prop where
  streaming : ∃ parts, l.audio (i, k) = some (.streaming parts)
  audio : audioOf g l.output = came (i, k)
  unfinished : .finish g ∉ l.output
  given : g ∈ given l.output
  only : ∀ pcm i' k', .playOpen pcm i' k' g ∈ l.output → i' = i ∧ k' = k

/-- Gen `g` is not played as it arrives any more. It was left at a piece, or it was
given all pieces, and at most the silence after a code line, before its `finish`. -/
structure ClosedAs (came : ItemId × Nat → List PcmChunk) (l : Loop) (r : Reader) (i : ItemId)
    (k g : Nat) : Prop where
  left : .finish g ∉ l.output → audioOf g l.output <+: came (i, k)
  finished : .finish g ∈ l.output →
    (∃ silence : List PcmChunk, silence.length ≤ 1 ∧ audioOf g l.output = came (i, k) ++ silence) ∧
      Made l r (i, k)

/-- The pieces that came, the slots and the output. -/
structure Streams (came : ItemId × Nat → List PcmChunk) (l : Loop) (r : Reader) : Prop where
  streaming : ∀ p parts, l.audio p = some (.streaming parts) → came p = parts
  pending : ∀ p, l.audio p = some .pending → came p = []
  /-- Pieces came only for chunks that were requested. -/
  known : ∀ p, came p ≠ [] → p.1 < r.nextId ∧ (p ∈ r.requested ∨ p.1 ∉ r.ids)
  appended : ∀ g pcm, .append g pcm ∈ l.output → g ∈ given l.output
  finished : ∀ g, .finish g ∈ l.output → g ∈ given l.output
  opened : ∀ i k g, l.opened = some (i, k, g) → OpenAs came l i k g
  started : ∀ pcm i k g, .playOpen pcm i k g ∈ l.output →
    l.opened = some (i, k, g) ∨ ClosedAs came l r i k g

variable {came : ItemId × Nat → List PcmChunk} {ended : Nat → Prop} {l l' : Loop}
  {r r' : Reader} {now : Nat}

/-- What a reader only adds to: ids handed out, and items gone. -/
structure Later (r r' : Reader) : Prop where
  nextId : r.nextId ≤ r'.nextId
  gone : ∀ n, n < r.nextId → n ∉ r.ids → n ∉ r'.ids
  requested : ∀ p ∈ r.requested, p ∈ r'.requested ∨ p.1 ∉ r'.ids

theorem Made.later {p : ItemId × Nat} (h : Made l r p) (s : Later r r') : Made l r' p :=
  h.imp_right fun hg => ⟨Nat.lt_of_lt_of_le hg.1 s.nextId, s.gone p.1 hg.1 hg.2⟩

theorem ClosedAs.later {i : ItemId} {k g : Nat} (C : ClosedAs came l r i k g) (s : Later r r') :
    ClosedAs came l r' i k g :=
  ⟨C.left, fun hf => ⟨(C.finished hf).1, (C.finished hf).2.later s⟩⟩

theorem Streams.later (S : Streams came l r) (s : Later r r') : Streams came l r' := by
  refine ⟨S.streaming, S.pending, fun p hp => ?_, S.appended, S.finished, S.opened,
    fun pcm i k g hm => (S.started pcm i k g hm).imp_right (·.later s)⟩
  obtain ⟨hlt, hor⟩ := S.known p hp
  exact ⟨Nat.lt_of_lt_of_le hlt s.nextId,
    hor.elim (s.requested p) (fun hn => .inr (s.gone p.1 hlt hn))⟩

/-- What the output plays as it arrives may be left there. -/
theorem OpenAs.close {i : ItemId} {k g : Nat} (O : OpenAs came l i k g) : ClosedAs came l r i k g :=
  ⟨fun _ => O.audio ▸ List.prefix_refl _, fun hf => absurd hf O.unfinished⟩

theorem ClosedAs.sameStream {i : ItemId} {k g : Nat} (C : ClosedAs came l r i k g)
    (s : SameStream l.output l'.output) (made : Made l r (i, k) → Made l' r (i, k)) :
    ClosedAs came l' r i k g := by
  refine ⟨fun hf => ?_, fun hf => ?_⟩
  · rw [s.audio]
    exact C.left (fun h => hf ((s.finished g).mpr h))
  · rw [s.audio]
    obtain ⟨ha, hm⟩ := C.finished ((s.finished g).mp hf)
    exact ⟨ha, made hm⟩

theorem OpenAs.sameStream {i : ItemId} {k g : Nat} (O : OpenAs came l i k g)
    (s : SameStream l.output l'.output) (slot : l'.audio (i, k) = l.audio (i, k)) :
    OpenAs came l' i k g :=
  ⟨slot.symm ▸ O.streaming, (s.audio g).trans O.audio, fun h => O.unfinished ((s.finished g).mp h),
    s.given.symm ▸ O.given, fun pcm i' k' hm => O.only pcm i' k' ((s.started pcm i' k' g).mp hm)⟩

/-- Only the slots, `opened` and the output count; `opened` may be dropped. -/
theorem Streams.congr (S : Streams came l r) (s : SameStream l.output l'.output)
    (audio : l'.audio = l.audio) (opened : l'.opened = l.opened ∨ l'.opened = none) :
    Streams came l' r := by
  have made : ∀ p, Made l r p → Made l' r p := fun p h => by
    unfold Made
    rw [audio]
    exact h
  refine ⟨fun p parts h => S.streaming p parts (audio ▸ h), fun p h => S.pending p (audio ▸ h),
    S.known, fun g pcm h => ?_, fun g h => ?_, fun i k g ho => ?_, fun pcm i k g hm => ?_⟩
  · rw [s.given]
    exact S.appended g pcm ((s.appended g pcm).mp h)
  · rw [s.given]
    exact S.finished g ((s.finished g).mp h)
  · rcases opened with hsame | hnone
    · exact (S.opened i k g (hsame ▸ ho)).sameStream s (by rw [audio])
    · rw [hnone] at ho
      cases ho
  · rcases S.started pcm i k g ((s.started pcm i k g).mp hm) with ho | hc
    · rcases opened with hsame | hnone
      · exact .inl (hsame.trans ho)
      · exact .inr ((S.opened i k g ho).close.sameStream s (made _))
    · exact .inr (hc.sameStream s (made _))

/-- A chunk that is requested has no pieces yet. -/
theorem Streams.synthesize {n : ItemId} {k : Nat} {t : Text} (S : Streams came l r)
    (live : n ∈ r.ids) (fresh : (n, k) ∉ r.requested) (nothing : l.audio (n, k) = none) :
    Streams came (l.synthesize n k t) r := by
  have hnone : came (n, k) = [] := by
    by_contra hne
    rcases (S.known _ hne).2 with hr | hg
    · exact fresh hr
    · exact hg live
  have slot : ∀ {p s}, (l.synthesize n k t).audio p = some s →
      l.audio p = some s ∨ p = (n, k) ∧ s = .pending := by
    intro p s hs
    have hs' : Function.update l.audio (n, k) (some Slot.pending) p = some s := hs
    by_cases hp : p = (n, k)
    · rw [hp, Function.update_self] at hs'
      exact .inr ⟨hp, (Option.some.inj hs').symm⟩
    · rw [Function.update_of_ne hp] at hs'
      exact .inl hs'
  have kept : ∀ {p s}, l.audio p = some s → (l.synthesize n k t).audio p = some s := by
    intro p s hs
    have hp : p ≠ (n, k) := by
      rintro rfl
      rw [nothing] at hs
      cases hs
    show Function.update l.audio (n, k) (some Slot.pending) p = some s
    rw [Function.update_of_ne hp]
    exact hs
  have made : ∀ p, Made l r p → Made (l.synthesize n k t) r p :=
    fun p h => h.imp_left fun ⟨result, hr⟩ => ⟨result, kept hr⟩
  refine ⟨fun p parts h => ?_, fun p h => ?_, S.known, S.appended, S.finished, fun i c g ho => ?_,
    fun pcm i c g hm => ?_⟩
  · rcases slot h with h | ⟨-, h⟩
    · exact S.streaming p parts h
    · cases h
  · rcases slot h with h | ⟨rfl, -⟩
    · exact S.pending p h
    · exact hnone
  · have O := S.opened i c g ho
    obtain ⟨parts, hparts⟩ := O.streaming
    exact ⟨⟨parts, kept hparts⟩, O.audio, O.unfinished, O.given, O.only⟩
  · exact (S.started pcm i c g hm).imp_right fun C => C.sameStream (sameStream_refl _) (made _)

/-- An item that is gone takes its slots. -/
theorem Streams.forgetItem {n : ItemId} (S : Streams came l r) (given : n < r.nextId)
    (gone : n ∉ r.ids) : Streams came (l.forgetItem n) r := by
  have slot : ∀ {p s}, (l.forgetItem n).audio p = some s → l.audio p = some s := by
    intro p s hs
    have hs' : (if p.1 = n then none else l.audio p) = some s := hs
    split at hs'
    · cases hs'
    · exact hs'
  have kept : ∀ {p}, p.1 ≠ n → (l.forgetItem n).audio p = l.audio p := fun hp => if_neg hp
  have made : ∀ p, Made l r p → Made (l.forgetItem n) r p := by
    rintro p (⟨result, hr⟩ | hg)
    · by_cases hp : p.1 = n
      · exact .inr ⟨hp ▸ given, hp ▸ gone⟩
      · exact .inl ⟨result, (kept hp).trans hr⟩
    · exact .inr hg
  have opened : ∀ {i k g}, (l.forgetItem n).opened = some (i, k, g) →
      l.opened = some (i, k, g) ∧ i ≠ n := by
    intro i k g ho
    have ho' : l.opened.filter (fun (o : ItemId × Nat × Nat) => o.1 ≠ n) = some (i, k, g) := ho
    obtain ⟨hm, hp⟩ := Option.filter_eq_some_iff.mp ho'
    exact ⟨hm, by simpa using hp⟩
  refine ⟨fun p parts h => S.streaming p parts (slot h), fun p h => S.pending p (slot h), S.known,
    S.appended, S.finished, fun i k g ho => ?_, fun pcm i k g hm => ?_⟩
  · obtain ⟨ho', hne⟩ := opened ho
    exact (S.opened i k g ho').sameStream (sameStream_refl _) (kept (p := (i, k)) hne)
  · rcases S.started pcm i k g hm with ho | hc
    · by_cases hi : i = n
      · exact .inr ((S.opened i k g ho).close.sameStream (sameStream_refl _) (made _))
      · refine .inl ?_
        show l.opened.filter (fun (o : ItemId × Nat × Nat) => o.1 ≠ n) = some (i, k, g)
        rw [ho]
        simp [hi]
    · exact .inr (hc.sameStream (sameStream_refl _) (made _))

/-- Nothing was handed over under a gen the output was not given. -/
theorem Streams.silent {g : Nat} (S : Streams came l r) (h : g ∉ given l.output) :
    audioOf g l.output = [] ∧ .finish g ∉ l.output := by
  refine ⟨?_, fun hf => h (S.finished g hf)⟩
  rw [audioOf, List.flatMap_eq_nil_iff]
  intro c hc
  have mem : ∀ g', c.loads? = some g' → g' ∈ given l.output := fun g' hl =>
    List.mem_filterMap.mpr ⟨c, hc, hl⟩
  have other : ∀ g', g' ∈ given l.output → g' ≠ g := by
    rintro g' hm rfl
    exact h hm
  cases c with
  | play pcm i k g' => exact if_neg (other g' (mem g' rfl))
  | playOpen pcm i k g' => exact if_neg (other g' (mem g' rfl))
  | append g' pcm => exact if_neg (other g' (S.appended g' pcm hc))
  | _ => rfl

/-- **A load under a new gen** hands over what came of a chunk still being made. -/
theorem Streams.load {item : ItemId} {chunk gen : Nat} (S : Streams came l r)
    (fresh : gen ∉ given l.output) : Streams came (l.load now item chunk gen) r := by
  have hload := l.loaded now item chunk gen
  generalize l.load now item chunk gen = l' at hload
  -- whatever played as it arrived is left
  have closed : ∀ pcm i k g, .playOpen pcm i k g ∈ l.output → ClosedAs came l r i k g :=
    fun pcm i k g hm => (S.started pcm i k g hm).elim (fun ho => (S.opened i k g ho).close) id
  have still : ∀ {hold waiting synth pending missed}, Streams came
      { l with
        opened := none
        hold := hold
        waiting := waiting
        synth := synth
        pending := pending
        missed := missed } r :=
    S.congr (sameStream_refl _) rfl (.inr rfl)
  have other : ∀ g ∈ given l.output, g ≠ gen := by
    rintro g hg rfl
    exact fresh hg
  have loads : ∀ pcm i k g, .playOpen pcm i k g ∈ l.output → g ∈ given l.output :=
    fun pcm i k g hm => List.mem_filterMap.mpr ⟨_, hm, rfl⟩
  -- one more call that loads a chunk under the new gen
  have out : ∀ c : OutputCall, c.loads? = some gen → ∀ hold opened,
      (∀ i k g, opened = some (i, k, g) →
        OpenAs came { l with opened := opened, hold := hold, output := l.output ++ [c] } i k g) →
      (∀ pcm i k g, .playOpen pcm i k g = c → opened = some (i, k, g)) →
      Streams came { l with opened := opened, hold := hold, output := l.output ++ [c] } r := by
    intro c hc hold opened hopen hnew
    have hgiven : ∀ g ∈ given l.output, g ∈ given (l.output ++ [c]) := by
      intro g hg
      rw [given_snoc]
      exact List.mem_append_left _ hg
    have nofinish : ∀ g, .finish g ∈ l.output ++ [c] → .finish g ∈ l.output := by
      intro g hm
      refine (List.mem_append.mp hm).resolve_right (fun heq => ?_)
      rw [← List.mem_singleton.mp heq] at hc
      cases hc
    refine ⟨S.streaming, S.pending, S.known, fun g pcm hm => ?_,
      fun g hm => hgiven g (S.finished g (nofinish g hm)),
      hopen, fun pcm i k g hm => ?_⟩
    · refine hgiven g (S.appended g pcm ((List.mem_append.mp hm).resolve_right (fun heq => ?_)))
      rw [← List.mem_singleton.mp heq] at hc
      cases hc
    · rcases List.mem_append.mp hm with hm | hm
      · -- what was given before is not touched
        have C := closed pcm i k g hm
        have hne : g ≠ gen := other g (loads pcm i k g hm)
        have haudio : audioOf g (l.output ++ [c]) = audioOf g l.output := by
          rw [audioOf_snoc]
          cases c with
          | play p' i' k' g' =>
            obtain rfl : g' = gen := Option.some.inj hc
            simp [OutputCall.audioOf, hne.symm]
          | playOpen p' i' k' g' =>
            obtain rfl : g' = gen := Option.some.inj hc
            simp [OutputCall.audioOf, hne.symm]
          | _ => cases hc
        refine .inr ⟨fun hf => ?_, fun hf => ?_⟩
        · show audioOf g (l.output ++ [c]) <+: _
          rw [haudio]
          exact C.left (fun h => hf (List.mem_append_left _ h))
        · show (∃ silence : List PcmChunk, _ ∧ audioOf g (l.output ++ [c]) = _) ∧ _
          rw [haudio]
          exact C.finished (nofinish g hf)
      · exact .inl (hnew pcm i k g (List.mem_singleton.mp hm))
  cases hload with
  | parked => exact still
  | played hold pcm =>
    exact out _ rfl hold none (fun _ _ _ ho => (nomatch ho)) (fun _ _ _ _ heq => (nomatch heq))
  | streamed hold pcm kept streaming =>
    refine out _ rfl hold _ (fun i k g ho => ?_) (fun pcm' i k g heq => ?_)
    · obtain ⟨rfl, rfl, rfl⟩ : item = i ∧ chunk = k ∧ gen = g := by simpa using ho
      obtain ⟨hnone, hnf⟩ := S.silent fresh
      refine ⟨⟨pcm, streaming⟩, ?_, fun hf => ?_, ?_, fun pcm' i' k' hm => ?_⟩
      · show audioOf gen (l.output ++ [.playOpen pcm item chunk gen]) = _
        rw [audioOf_snoc, hnone, S.streaming _ _ streaming]
        simp [OutputCall.audioOf]
      · exact hnf (by simpa using hf)
      · show gen ∈ given (l.output ++ [.playOpen pcm item chunk gen])
        rw [given_snoc]
        exact List.mem_append_right _ (List.mem_singleton.mpr rfl)
      · rcases List.mem_append.mp hm with hm | hm
        · exact absurd (loads pcm' i' k' gen hm) fresh
        · obtain ⟨-, rfl, rfl⟩ : pcm' = pcm ∧ i' = item ∧ k' = chunk := by simpa using hm
          exact ⟨rfl, rfl⟩
    · obtain ⟨-, rfl, rfl, rfl⟩ : pcm' = pcm ∧ i = item ∧ k = chunk ∧ g = gen := by simpa using heq
      rfl
  | failed => exact still
  | missing => exact still

/-! ## The effects of a call -/

variable {fin : Current → ItemPhase → Prop} {c c' : Call} {h : List Effect}

/-- Along a call ids are only handed out and items only go. -/
theorem Atom.later (a : Atom fin c c') (L : Ledger c.r (h ++ c.fx)) : Later c.r c'.r := by
  have same : ∀ {r' : Reader}, r'.nextId = c.r.nextId → r'.live = c.r.live →
      r'.requested = c.r.requested → Later c.r r' := by
    intro r' hn hl hr
    refine ⟨Nat.le_of_eq hn.symm, fun n _ hg => ?_, fun p hp => .inl (hr ▸ hp)⟩
    rw [Reader.ids, hl]
    exact hg
  -- an item leaves
  have leave : ∀ {r' : Reader} {it : Item}, r'.nextId = c.r.nextId →
      c.r.live.Perm (it :: r'.live) →
      r'.requested = c.r.requested.filter (fun p => p.1 ≠ it.id) → Later c.r r' := by
    intro r' it hn hp hr
    have hids : c.r.ids.Perm (it.id :: r'.ids) := hp.map _
    have hnd : (it.id :: r'.ids).Nodup := hids.nodup_iff.mp L.nodup
    refine ⟨Nat.le_of_eq hn.symm, fun n _ hg hm =>
      hg (hids.mem_iff.mpr (List.mem_cons_of_mem _ hm)),
      fun p hp => ?_⟩
    by_cases hid : p.1 = it.id
    · exact .inr (hid ▸ (List.nodup_cons.mp hnd).1)
    · rw [hr]
      exact .inl (Finset.mem_filter.mpr ⟨hp, by simpa using hid⟩)
  -- an item comes
  have joins : ∀ {r' : Reader} {it : Item}, it.id = c.r.nextId → r'.nextId = c.r.nextId + 1 →
      r'.live.Perm (it :: c.r.live) → r'.requested = c.r.requested → Later c.r r' := by
    intro r' it hid hn hp hr
    have hids : r'.ids.Perm (it.id :: c.r.ids) := hp.map _
    refine ⟨hn ▸ Nat.le_succ _, fun n hlt hg hm => ?_, fun p hp => .inl (hr ▸ hp)⟩
    rcases List.mem_cons.mp (hids.mem_iff.mp hm) with rfl | hm
    · exact absurd hlt (by rw [hid]; exact Nat.lt_irrefl _)
    · exact hg hm
  cases a with
  | view s silent =>
    exact same s.nextId (by rw [Reader.live, Reader.live, s.current, s.queue]) s.requested
  | flag => exact same rfl rfl rfl
  | pauseOutput => exact same rfl rfl rfl
  | resumeOutput => exact same rfl rfl rfl
  | stopOutput => exact same rfl rfl rfl
  | @retire cur phase quiet unloaded current =>
    exact leave rfl (by rw [Ledger.live_eq_cons current]; exact .refl _) rfl
  | @dropFront it rest queue =>
    refine leave rfl ?_ rfl
    rw [Reader.live, queue]
    exact List.perm_middle
  | refuse => exact ⟨Nat.le_succ _, fun _ _ hg => hg, fun p hp => .inl hp⟩
  | @admitBack it id chunks =>
    refine joins id rfl ?_ rfl
    show (c.r.current.toList.map (·.item) ++ (c.r.queue ++ [it])).Perm (it :: c.r.live)
    rw [← List.append_assoc]
    exact List.perm_append_singleton ..
  | @admitFront it id chunks => exact joins id rfl List.perm_middle rfl
  | @start it rest idle unloaded queue =>
    refine same rfl ?_ rfl
    rw [Ledger.live_eq_queue idle, queue]
    rfl
  | request =>
    exact ⟨Nat.le_refl _, fun _ _ hg => hg, fun p hp => .inl (Finset.mem_insert_of_mem hp)⟩
  | play => exact same rfl rfl rfl
  | @moveChunk cur i quiet unloaded current =>
    refine same rfl ?_ rfl
    rw [Ledger.live_eq_cons current]
    rfl

/-- Silent effects leave the pieces and the slots. -/
theorem Streams.silents {es : List Effect} (S : Streams came l r) (hs : ∀ e ∈ es, e.Silent) :
    Streams came (l.applyAll now es) r := by
  induction es generalizing l with
  | nil => exact S
  | cons e es ih =>
    refine ih (l := Loop.apply now l e) ?_ (fun e' he' => hs e' (List.mem_cons_of_mem _ he'))
    have he := hs e (List.mem_cons_self ..)
    cases e with
    | mute => exact S.congr (sameStream_aside (.setVolume 0) trivial _) rfl (.inl rfl)
    | unmute => exact S.congr (sameStream_aside (.setVolume l.volume) trivial _) rfl (.inl rfl)
    | setVolume v =>
      rw [Loop.apply]
      dsimp only
      split
      · exact S.congr (sameStream_aside (.setVolume v) trivial _) rfl (.inl rfl)
      · exact S.congr (sameStream_refl _) rfl (.inl rfl)
    | emit ev =>
      cases ev with
      | state s => exact S.congr (sameStream_refl _) rfl (.inl rfl)
      | item id phase => exact he.elim
    | _ => exact he.elim

/-- The effect of a final phase, its item gone. -/
theorem Streams.itemEnds {n : ItemId} {phase : ItemPhase} (S : Streams came l r) (hp : phase.Final)
    (given : n < r.nextId) (gone : n ∉ r.ids) :
    Streams came (Loop.apply now l (.emit (.item n phase))) r := by
  have hne : phase ≠ .started := by
    rintro rfl
    exact hp
  rw [Loop.apply, if_neg hne]
  exact (S.forgetItem given gone).congr (sameStream_refl _) rfl (.inl rfl)

/-- **Every atom's effects keep the streams.** -/
theorem Atom.streams (a : Atom fin c c') (L : Ledger c.r (h ++ c.fx))
    (T : Tracks ended (l.applyAll now c.fx) c.r) (S : Streams came (l.applyAll now c.fx) c.r) :
    Streams came (l.applyAll now c'.fx) c'.r := by
  have one : ∀ e : Effect, ∀ r' : Reader,
      Streams came (Loop.apply now (l.applyAll now c.fx) e) r' →
      Streams came (l.applyAll now (c.fx ++ [e])) r' := by
    intro e r' ht
    rw [Loop.applyAll_append]
    exact ht
  have S' : Streams came (l.applyAll now c.fx) c'.r := S.later (Atom.later a L)
  have L' : Ledger c'.r (h ++ c'.fx) := Atom.ledger a L
  generalize hm : l.applyAll now c.fx = m at T S' one
  cases a with
  | @view r' es same silent =>
    rw [show l.applyAll now (c.fx ++ es) = m.applyAll now es by rw [Loop.applyAll_append, hm]]
    exact S'.silents silent
  | pauseOutput =>
    refine one _ _ ?_
    rw [Loop.apply]
    split
    · exact S'.congr (sameStream_refl _) rfl (.inl rfl)
    · exact S'.congr (sameStream_aside .pause trivial _) rfl (.inl rfl)
  | resumeOutput =>
    refine one _ _ ?_
    rw [Loop.apply]
    split
    next w hw =>
      split
      · have S'' : Streams came { m with waiting := none } _ :=
          S'.congr (sameStream_refl _) rfl (.inl rfl)
        exact S''.load (T.waits w hw).fresh
      · exact S'.congr (sameStream_refl _) rfl (.inl rfl)
    · exact S'.congr (sameStream_aside .resume trivial _) rfl (.inl rfl)
  | stopOutput =>
    refine one _ _ ?_
    rw [Loop.apply]
    dsimp only
    split
    · exact S'.congr (sameStream_refl _) rfl (.inr rfl)
    · exact S'.congr (sameStream_aside .stop trivial _) rfl (.inr rfl)
  | @retire cur phase quiet unloaded current final =>
    refine one _ _ (S'.itemEnds final (L.live _ (Ledger.mem_ids_current current)).2 (fun hm => ?_))
    -- the ledger of the next reader knows that the item ended
    have hnd := L.nodup
    rw [Reader.ids, Ledger.live_eq_cons current] at hnd
    exact (List.nodup_cons.mp hnd).1 hm
  | @dropFront it rest queue =>
    have hin : it.id ∈ c.r.ids := Ledger.mem_ids_queue (by rw [queue]; exact List.mem_cons_self ..)
    refine one _ _ (S'.itemEnds trivial (L.live _ hin).2 (fun hm => ?_))
    have hperm : c.r.ids.Perm (it.id :: Reader.ids { c.r with queue := rest }) := by
      rw [Reader.ids, Reader.live, queue]
      exact (List.perm_middle).map _
    exact (List.nodup_cons.mp (hperm.nodup_iff.mp L.nodup)).1 hm
  | refuse =>
    exact one _ _ (S'.itemEnds trivial (Nat.lt_succ_self _)
      (fun hm => absurd (L.live _ hm).2 (Nat.lt_irrefl _)))
  | start =>
    refine one _ _ ?_
    exact S'.congr (sameStream_refl _) rfl (.inl rfl)
  | @request it i t live chunk fresh =>
    refine one _ _ ?_
    have hlive : it.id ∈ c.r.ids := List.mem_map_of_mem live
    have hnone : m.audio (it.id, i) = none := by
      by_contra hne
      exact fresh ((T.audio _).mp hne)
    have S₀ : Streams came m c.r := hm ▸ S
    exact (S₀.synthesize hlive fresh hnone).later
      ⟨Nat.le_refl _, fun _ _ hg => hg, fun p hp => .inl (Finset.mem_insert_of_mem hp)⟩
  | @play cur unloaded unpaused current requested =>
    refine one _ _ ?_
    rw [Loop.apply]
    have S'' : Streams came { m with waiting := none } _ :=
      S'.congr (sameStream_refl _) rfl (.inl rfl)
    exact S''.load (fun hg => absurd (T.bound _ hg) (Nat.not_succ_le_self _))
  | _ => exact hm ▸ S'

/-! ## Pieces and completions -/

/-- The logs say the same about every gen but `gen`, which only got more. -/
structure SameElse (gen : Nat) (out out' : List OutputCall) : Prop where
  given : given out' = given out
  started : ∀ pcm i c g, OutputCall.playOpen pcm i c g ∈ out' ↔ .playOpen pcm i c g ∈ out
  audio : ∀ g, g ≠ gen → audioOf g out' = audioOf g out
  finished : ∀ g, g ≠ gen → (OutputCall.finish g ∈ out' ↔ .finish g ∈ out)
  appended : ∀ g pcm, OutputCall.append g pcm ∈ out' → .append g pcm ∈ out ∨ g = gen

theorem sameElse_append (gen : Nat) (pcm : List PcmChunk) (out : List OutputCall) :
    SameElse gen out (out ++ [.append gen pcm]) := by
  refine ⟨?_, fun _ _ _ _ => by simp, fun g hne => ?_, fun _ _ => by simp, fun g pcm' hm => ?_⟩
  · rw [given_snoc]
    exact List.append_nil _
  · rw [audioOf_snoc]
    simp [OutputCall.audioOf, hne.symm]
  · rcases List.mem_append.mp hm with hm | hm
    · exact .inl hm
    · obtain ⟨rfl, -⟩ : g = gen ∧ pcm' = pcm := by simpa using hm
      exact .inr rfl

theorem sameElse_finish (gen : Nat) (out : List OutputCall) :
    SameElse gen out (out ++ [.finish gen]) := by
  refine ⟨?_,
    fun _ _ _ _ => by simp, fun g _ => ?_, fun g hne => by simp [hne], fun g pcm' hm => ?_⟩
  · rw [given_snoc]
    exact List.append_nil _
  · rw [audioOf_snoc]
    exact List.append_nil _
  · exact .inl (by simpa using hm)

theorem SameElse.trans {gen : Nat} {a b c : List OutputCall} (s : SameElse gen a b)
    (t : SameElse gen b c) : SameElse gen a c := by
  refine ⟨t.given.trans s.given, fun pcm i k g => (t.started pcm i k g).trans (s.started pcm i k g),
    fun g hne => (t.audio g hne).trans (s.audio g hne),
    fun g hne => (t.finished g hne).trans (s.finished g hne), fun g pcm hm => ?_⟩
  exact (t.appended g pcm hm).elim (s.appended g pcm) .inr

theorem ClosedAs.sameElse {i : ItemId} {k g gen : Nat} (C : ClosedAs came l r i k g) (hne : g ≠ gen)
    (s : SameElse gen l.output l'.output) (made : Made l r (i, k) → Made l' r (i, k)) :
    ClosedAs came l' r i k g := by
  refine ⟨fun hf => ?_, fun hf => ?_⟩
  · rw [s.audio g hne]
    exact C.left (fun h => hf ((s.finished g hne).mpr h))
  · rw [s.audio g hne]
    obtain ⟨ha, hm⟩ := C.finished ((s.finished g hne).mp hf)
    exact ⟨ha, made hm⟩

/-- The pieces that came, with one more of chunk `p`. -/
def takeIn (came : ItemId × Nat → List PcmChunk) (p : ItemId × Nat) (pcm : PcmChunk) :
    ItemId × Nat → List PcmChunk :=
  Function.update came p (came p ++ [pcm])

/-- The loop with another slot for chunk `p`. -/
def Loop.setSlot (l : Loop) (p : ItemId × Nat) (s : Slot) : Loop :=
  { l with audio := Function.update l.audio p (some s) }

section Piece

variable {i : ItemId} {k : Nat} {slot : Slot} {pcm : PcmChunk}

/-- A chunk that is made is not the one a piece comes for. -/
theorem Made.ne_coming {q : ItemId × Nat} (h : Made l r q) (hslot : l.audio (i, k) = some slot)
    (coming : slot.coming = true) (live : i ∈ r.ids) : q ≠ (i, k) := by
  rintro rfl
  rcases h with ⟨result, hr⟩ | ⟨-, hg⟩
  · rw [hslot] at hr
    rw [Option.some.inj hr] at coming
    cases coming
  · exact hg live

theorem Made.setSlot {p q : ItemId × Nat} {s : Slot} (h : Made l r q) (hne : q ≠ p) :
    Made (l.setSlot p s) r q :=
  h.imp_left fun ⟨result, hr⟩ => ⟨result, (Function.update_of_ne hne _ _).trans hr⟩

/-- A chunk no longer played as it arrives may get more pieces. -/
theorem ClosedAs.takeIn {i' : ItemId} {k' g : Nat} (C : ClosedAs came l r i' k' g)
    (hslot : l.audio (i, k) = some slot) (coming : slot.coming = true) (live : i ∈ r.ids)
    (s : Slot) :
    ClosedAs (takeIn came (i, k) pcm) (l.setSlot (i, k) s) r i' k' g := by
  refine ⟨fun hf => ?_, fun hf => ?_⟩
  · have hpre : audioOf g l.output <+: came (i', k') := C.left hf
    by_cases hp : (i', k') = (i, k)
    · rw [Worker.takeIn, hp, Function.update_self]
      exact (hp ▸ hpre).trans (List.prefix_append _ _)
    · rw [Worker.takeIn, Function.update_of_ne hp]
      exact hpre
  · obtain ⟨ha, hm⟩ := C.finished hf
    have hne := hm.ne_coming hslot coming live
    rw [Worker.takeIn, Function.update_of_ne hne]
    exact ⟨ha, hm.setSlot hne⟩

/-- The slots' account after a piece. -/
theorem Streams.slots (S : Streams came l r) (q : ItemId × Nat) (parts : List PcmChunk)
    (hq : (l.setSlot (i, k) (.streaming (came (i, k) ++ [pcm]))).audio q = some
      (.streaming parts)) :
    takeIn came (i, k) pcm q = parts := by
  have hq' : Function.update l.audio (i, k) (some (.streaming (came (i, k) ++ [pcm]))) q =
    some (.streaming parts) := hq
  by_cases hp : q = (i, k)
  · rw [hp, Function.update_self] at hq'
    rw [takeIn, hp, Function.update_self]
    exact Slot.streaming.inj (Option.some.inj hq')
  · rw [Function.update_of_ne hp] at hq'
    rw [takeIn, Function.update_of_ne hp]
    exact S.streaming q parts hq'

theorem Streams.slots_pending (S : Streams came l r) (q : ItemId × Nat)
    (hq : (l.setSlot (i, k) (.streaming (came (i, k) ++ [pcm]))).audio q = some .pending) :
    takeIn came (i, k) pcm q = [] := by
  have hq' : Function.update l.audio (i, k) (some (.streaming (came (i, k) ++ [pcm]))) q =
    some .pending := hq
  by_cases hp : q = (i, k)
  · rw [hp, Function.update_self] at hq'
    cases hq'
  · rw [Function.update_of_ne hp] at hq'
    rw [takeIn, Function.update_of_ne hp]
    exact S.pending q hq'

theorem Streams.takeIn_known (S : Streams came l r) (given : i < r.nextId)
    (requested : (i, k) ∈ r.requested) (q : ItemId × Nat) (hq : takeIn came (i, k) pcm q ≠ []) :
    q.1 < r.nextId ∧ (q ∈ r.requested ∨ q.1 ∉ r.ids) := by
  by_cases hp : q = (i, k)
  · exact ⟨hp ▸ given, .inl (hp ▸ requested)⟩
  · rw [takeIn, Function.update_of_ne hp] at hq
    exact S.known q hq

/-- **A piece of a chunk that does not play** is kept. -/
theorem Streams.piece (S : Streams came l r) (hslot : l.audio (i, k) = some slot)
    (coming : slot.coming = true) (live : i ∈ r.ids) (given : i < r.nextId)
    (requested : (i, k) ∈ r.requested) (elsewhere : ∀ g, l.opened ≠ some (i, k, g)) :
    Streams (takeIn came (i, k) pcm) (l.setSlot (i, k) (.streaming (came (i, k) ++ [pcm]))) r := by
  refine ⟨S.slots, S.slots_pending, S.takeIn_known given requested, S.appended, S.finished,
    fun i' k' g ho => ?_, fun pcm' i' k' g hm => ?_⟩
  · have O := S.opened i' k' g ho
    have hne : (i', k') ≠ (i, k) := by
      intro heq
      obtain ⟨rfl, rfl⟩ := Prod.mk.inj heq
      exact elsewhere g ho
    obtain ⟨parts, hparts⟩ := O.streaming
    refine ⟨⟨parts, (Function.update_of_ne hne _ _).trans hparts⟩, ?_, O.unfinished,
      O.given, O.only⟩
    rw [takeIn, Function.update_of_ne hne]
    exact O.audio
  · exact (S.started pcm' i' k' g hm).imp_right fun C => C.takeIn hslot coming live _

/-- **A piece of the chunk that plays as it arrives** is appended. -/
theorem Streams.piece_open {gen : Nat} (S : Streams came l r) (hslot : l.audio (i, k) = some slot)
    (coming : slot.coming = true) (live : i ∈ r.ids) (given : i < r.nextId)
    (requested : (i, k) ∈ r.requested) (ho : l.opened = some (i, k, gen)) :
    Streams (takeIn came (i, k) pcm)
      ((l.setSlot (i, k) (.streaming (came (i, k) ++ [pcm]))).call (.append gen [pcm])) r := by
  have O := S.opened i k gen ho
  have els := sameElse_append gen [pcm] l.output
  refine ⟨S.slots, S.slots_pending, S.takeIn_known given requested, fun g pcm' hm => ?_,
    fun g hm => ?_, fun i' k' g ho' => ?_, fun pcm' i' k' g hm => ?_⟩
  · show g ∈ Worker.given (l.output ++ [.append gen [pcm]])
    rw [els.given]
    exact (els.appended g pcm' hm).elim (S.appended g pcm') (fun heq => heq ▸ O.given)
  · show g ∈ Worker.given (l.output ++ [.append gen [pcm]])
    rw [els.given]
    refine S.finished g ?_
    have hm' : OutputCall.finish g ∈ l.output ++ [.append gen [pcm]] := hm
    simpa using hm'
  · obtain ⟨rfl, rfl, rfl⟩ : i = i' ∧ k = k' ∧ gen = g := by simpa using ho.symm.trans ho'
    refine ⟨⟨_, Function.update_self _ _ _⟩, ?_, fun hf => O.unfinished ?_,
      els.given.symm ▸ O.given,
      fun pcm' i' k' hm => O.only pcm' i' k' ((els.started _ _ _ _).mp hm)⟩
    · show audioOf gen (l.output ++ [.append gen [pcm]]) = _
      rw [audioOf_snoc, O.audio, takeIn, Function.update_self]
      simp [OutputCall.audioOf]
    · have hf' : OutputCall.finish gen ∈ l.output ++ [.append gen [pcm]] := hf
      simpa using hf'
  · have hm' := (els.started pcm' i' k' g).mp hm
    by_cases hg : g = gen
    · subst hg
      obtain ⟨rfl, rfl⟩ := O.only pcm' i' k' hm'
      exact .inl ho
    · rcases S.started pcm' i' k' g hm' with ho' | hc
      · exact .inl ho'
      · exact .inr ((hc.takeIn hslot coming live _).sameElse hg els id)

/-- The slots' account after a completion. -/
theorem Streams.done_slots (S : Streams came l r) (result : Except String (List PcmChunk)) :
    (∀ q parts, (l.setSlot (i, k) (.ready result)).audio q = some (.streaming parts) →
      came q = parts) ∧
      ∀ q, (l.setSlot (i, k) (.ready result)).audio q = some .pending → came q = [] := by
  have old : ∀ {q s}, (l.setSlot (i, k) (.ready result)).audio q = some s → s ≠ .ready result →
      l.audio q = some s := by
    intro q s hq hs
    have hq' : Function.update l.audio (i, k) (some (Slot.ready result)) q = some s := hq
    by_cases hp : q = (i, k)
    · rw [hp, Function.update_self] at hq'
      exact absurd (Option.some.inj hq').symm hs
    · rwa [Function.update_of_ne hp] at hq'
  exact ⟨fun q parts hq => S.streaming q parts (old hq nofun),
    fun q hq => S.pending q (old hq nofun)⟩

theorem made_done (result : Except String (List PcmChunk)) {q : ItemId × Nat} (h : Made l r q) :
    Made (l.setSlot (i, k) (.ready result)) r q := by
  by_cases hp : q = (i, k)
  · exact .inl ⟨result, by rw [hp]; exact Function.update_self _ _ _⟩
  · exact h.setSlot hp

/-- **A completion of a chunk that does not play** fills its slot. -/
theorem Streams.done (S : Streams came l r) (result : Except String (List PcmChunk))
    (elsewhere : ∀ g, l.opened ≠ some (i, k, g)) :
    Streams came (l.setSlot (i, k) (.ready result)) r := by
  obtain ⟨hs, hp⟩ := S.done_slots (i := i) (k := k) result
  refine ⟨hs, hp, S.known, S.appended, S.finished, fun i' k' g ho => ?_, fun pcm' i' k' g hm => ?_⟩
  · have hne : (i', k') ≠ (i, k) := by
      intro heq
      obtain ⟨rfl, rfl⟩ := Prod.mk.inj heq
      exact elsewhere g ho
    exact (S.opened i' k' g ho).sameStream (sameStream_refl _) (Function.update_of_ne hne _ _)
  · exact (S.started pcm' i' k' g hm).imp_right fun C =>
      C.sameStream (sameStream_refl _) (made_done result)

/-- **A completion of the chunk that plays as it arrived** ends it after its last
audio. -/
theorem Streams.done_open {gen : Nat} (S : Streams came l r)
    (result : Except String (List PcmChunk))
    (ho : l.opened = some (i, k, gen)) {out : List OutputCall} {silence : List PcmChunk}
    (hlen : silence.length ≤ 1) (els : SameElse gen l.output out)
    (haudio : audioOf gen out = audioOf gen l.output ++ silence) (hfin : .finish gen ∈ out) :
    Streams came { l.setSlot (i, k) (.ready result) with opened := none, output := out } r := by
  obtain ⟨hs, hp⟩ := S.done_slots (i := i) (k := k) result
  have O := S.opened i k gen ho
  refine ⟨hs, hp, S.known, fun g pcm' hm => ?_, fun g hm => ?_, fun _ _ _ ho' => (nomatch ho'),
    fun pcm' i' k' g hm => ?_⟩
  · show g ∈ Worker.given out
    rw [els.given]
    exact (els.appended g pcm' hm).elim (S.appended g pcm') (fun heq => heq ▸ O.given)
  · show g ∈ Worker.given out
    rw [els.given]
    by_cases hg : g = gen
    · exact hg ▸ O.given
    · exact S.finished g ((els.finished g hg).mp hm)
  · have hm' := (els.started pcm' i' k' g).mp hm
    by_cases hg : g = gen
    · subst hg
      obtain ⟨rfl, rfl⟩ := O.only pcm' i' k' hm'
      refine .inr ⟨fun hf => absurd hfin hf, fun _ => ⟨⟨silence, hlen, ?_⟩, .inl ⟨result, ?_⟩⟩⟩
      · exact haudio.trans (by rw [O.audio])
      · exact Function.update_self _ _ _
    · have C : ClosedAs came l r i' k' g := by
        refine (S.started pcm' i' k' g hm').resolve_left (fun ho' => hg ?_)
        obtain ⟨-, -, rfl⟩ : i = i' ∧ k = k' ∧ gen = g := by simpa using ho.symm.trans ho'
        rfl
      exact .inr (C.sameElse hg els (made_done result))

end Piece

end Sonara.Worker
