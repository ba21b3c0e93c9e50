import Sonara.Output.Chunks

/-!
# Every chunk ends

A chunk that has its end in the sink has it among the next sources (`Due`), and no command moves
it back: each source that ends brings it nearer, unless the chunk fails. `Sound` is what the
output promises of the last `play`, and of the commands that must not touch it; it holds for every
order of the commands (`chunks_end`).
-/

namespace Sonara.Output

open Sonara.Pcm

namespace World

variable {w w' : World}

/-! ## A chunk with its end in the sink -/

/-- The chunk ended, or its end is among the next `n` sources. -/
def Due (g n : Nat) (w : World) : Prop :=
  w.Failed g ∨ fin g ∈ w.log ∨ w.worker.loaded = some g ∧ .finished g ∈ w.worker.sinkSources.take n

end World

/-- The event replaces or discards the chunk. -/
def Event.supersedes : Event → Bool
  | .play _ _ _ _ _ _ => true
  | .stop => true
  | _ => false

def Event.isPlayed : Event → Bool
  | .played => true
  | _ => false

namespace World

variable {w w' : World} {g n : Nat}

theorem Due.told (h : w.Failed g ∨ fin g ∈ w.log) (n : Nat) {outs : List Out}
    (hl : w'.log = w.log ++ outs) :
    Due g n w' := by
  rcases h with hf | hin
  · exact .inl (hf.mono hl)
  · exact .inr (.inl (hl ▸ List.mem_append_left _ hin))

theorem Due.done (h : Due g 0 w) : w.Failed g ∨ fin g ∈ w.log := by
  rcases h with hf | hin | ⟨-, hin⟩
  · exact .inl hf
  · exact .inr hin
  · exact absurd hin List.not_mem_nil

/-- A step that keeps what is to be played, or puts more behind it. -/
theorem Due.behind (h : Due g n w) {outs : List Out} (hlog : w'.log = w.log ++ outs)
    {more : List Source} (hl : w.worker.loaded = some g → w'.worker.loaded = some g)
    (hsources : w'.worker.sinkSources = w.worker.sinkSources ++ more) : Due g n w' := by
  rcases h with hf | hin | ⟨hg, hin⟩
  · exact .told (.inl hf) n hlog
  · exact .told (.inr hin) n hlog
  · refine .inr (.inr ⟨hl hg, ?_⟩)
    rw [hsources, List.take_append]
    exact List.mem_append_left _ hin

/-- A clip leaves the end of the chunk where it was. -/
theorem Due.clip (h : Due g n w) (ep : Endpoint) (samples : List Sample) (sampleRate : BitVec 32) :
    Due g n (w.after (w.worker.clip ep samples sampleRate)) := by
  rcases h with hf | hin | ⟨hl, hin⟩
  · exact .told (.inl hf) n rfl
  · exact .told (.inr hin) n rfl
  · refine .inr (.inr ?_)
    obtain ⟨-, ⟨hs, hl', -⟩ | ⟨hidle, -, -⟩⟩ := w.worker.clip_cases ep samples sampleRate
    · refine ⟨hl'.trans hl, ?_⟩
      show Source.finished g ∈ (w.worker.clip ep samples sampleRate).1.sinkSources.take n
      rw [Worker.sinkSources, hs]
      exact hin
    · -- an idle sink has nothing to play
      unfold Worker.sinkSources at hin
      unfold Worker.idle at hidle
      cases hs : w.worker.sink with
      | none =>
        rw [hs] at hin
        exact absurd (List.mem_of_mem_take hin) List.not_mem_nil
      | some s =>
        rw [hs, Bool.and_eq_true] at hidle
        rw [hs, Option.map_some, Option.getD_some, List.isEmpty_iff.mp hidle.1] at hin
        exact absurd (List.mem_of_mem_take hin) List.not_mem_nil

theorem Due.deviceLost (h : Due g n w) (stream : Nat) (reason : Text) :
    Due g n (w.after (w.worker.deviceLost stream reason)) := by
  rcases h with hf | hin | ⟨hl, hin⟩
  · exact .told (.inl hf) n rfl
  · exact .told (.inr hin) n rfl
  · obtain heq | ⟨-, -, text, hout⟩ := deviceLost_cases w.worker stream reason
    · rw [heq]
      exact .inr (.inr ⟨hl, hin⟩)
    · refine .inl ⟨text, List.mem_append_right _ ?_⟩
      rw [hout, hl]
      exact List.mem_singleton_self _

/-- One more source that was played brings the end nearer. -/
theorem Due.played (h : Due g (n + 1) w) {r : Worker × List Out} (hr : w.worker.played = some r) :
    Due g n (w.after r) := by
  rcases h with hf | hin | ⟨hl, hin⟩
  · exact .told (.inl hf) n rfl
  · exact .told (.inr hin) n rfl
  · unfold Worker.played at hr
    split at hr
    next source rest volume hs =>
      obtain rfl := Option.some.inj hr
      rw [Worker.sinkSources, hs] at hin
      rcases List.mem_cons.mp hin with heq | hin
      · rw [← heq]
        exact .inr (.inl (List.mem_append_right _ (List.mem_singleton_self _)))
      · exact .inr (.inr ⟨hl, hin⟩)
    next => cases hr

/-- What a command puts into the sink stands behind what is there. -/
theorem onSink_behind {worker : Worker} {gen : Nat} {f : Sink → Worker} (more : List Source)
    (hl : ∀ s, (f s).loaded = worker.loaded)
    (hs : ∀ s, worker.sink = some s → (f s).sinkSources = worker.sinkSources ++ more) :
    (worker.onSink gen f).loaded = worker.loaded ∧
      ∃ more, (worker.onSink gen f).sinkSources = worker.sinkSources ++ more := by
  unfold Worker.onSink
  split
  next s g hsink _ =>
    split
    · exact ⟨hl s, more, hs s hsink⟩
    · exact ⟨rfl, [], (List.append_nil _).symm⟩
  next => exact ⟨rfl, [], (List.append_nil _).symm⟩

theorem append_behind (worker : Worker) (gen : Nat) (pcm : List PcmChunk) :
    (worker.append gen pcm).loaded = worker.loaded ∧
      ∃ more, (worker.append gen pcm).sinkSources = worker.sinkSources ++ more := by
  refine onSink_behind ((pcm.filterMap toBuffer).map (.audio gen)) (fun _ => rfl) fun s hs => ?_
  unfold Worker.sinkSources
  rw [hs]
  rfl

theorem finish_behind (worker : Worker) (gen : Nat) :
    (worker.finish gen).loaded = worker.loaded ∧
      ∃ more, (worker.finish gen).sinkSources = worker.sinkSources ++ more := by
  refine onSink_behind [.finished gen] (fun _ => rfl) fun s hs => ?_
  unfold Worker.sinkSources
  rw [hs]
  rfl

theorem sinkSources_map {worker worker' : Worker} {f : Sink → Sink}
    (hs : worker'.sink = worker.sink.map f)
    (hf : ∀ s, (f s).sources = s.sources) : worker'.sinkSources = worker.sinkSources ++ [] := by
  unfold Worker.sinkSources
  rw [hs, Option.map_map, List.append_nil]
  exact congrArg (Option.getD · []) (congrFun (congrArg Option.map (funext hf)) _)

/-- An event that supersedes nothing brings the end nearer by what was played. -/
theorem Due.step (h : Due g n w) {e : Event} (hq : e.supersedes = false) (hs : w.step e = some w') :
    Due g (n - if e.isPlayed then 1 else 0) w' := by
  have hkept : ∀ {w'}, Due g n w' → Due g (n - 0) w' := id
  cases e with
  | play ep pcm item chunk gen isOpen => cases hq
  | stop => cases hq
  | append gen pcm =>
    obtain rfl := Option.some.inj hs
    obtain ⟨hl, more, hsources⟩ := append_behind w.worker gen pcm
    exact hkept (h.behind (List.append_nil _).symm (fun hg => hl.trans hg) hsources)
  | finish gen =>
    obtain rfl := Option.some.inj hs
    obtain ⟨hl, more, hsources⟩ := finish_behind w.worker gen
    exact hkept (h.behind (List.append_nil _).symm (fun hg => hl.trans hg) hsources)
  | pause =>
    obtain rfl := Option.some.inj hs
    exact hkept (h.behind (List.append_nil _).symm id (sinkSources_map rfl fun _ => rfl))
  | resume =>
    obtain rfl := Option.some.inj hs
    exact hkept (h.behind (List.append_nil _).symm id (sinkSources_map rfl fun _ => rfl))
  | volume percent =>
    obtain rfl := Option.some.inj hs
    exact hkept (h.behind (List.append_nil _).symm id (sinkSources_map rfl fun _ => rfl))
  | clip ep samples sampleRate =>
    obtain rfl := Option.some.inj hs
    exact hkept (h.clip ep samples sampleRate)
  | deviceLost stream reason =>
    obtain rfl := Option.some.inj hs
    exact hkept (h.deviceLost stream reason)
  | played =>
    obtain ⟨r, hr, rfl⟩ := Option.map_eq_some_iff.mp hs
    cases n with
    | zero => exact .told h.done _ rfl
    | succ n => exact h.played hr

/-- **A chunk ends** once the sources up to its end have ended, whatever else comes in between. -/
theorem Due.run {es : List Event} (h : Due g n w) (hq : ∀ e ∈ es, e.supersedes = false)
    (hr : runs.run w es = some w') : Due g (n - es.countP Event.isPlayed) w' := by
  induction es generalizing w n with
  | nil =>
    obtain rfl := Option.some.inj hr
    exact h
  | cons e es ih =>
    obtain ⟨t, ht, hr⟩ := runs.run_cons_iff.mp hr
    have hstep := h.step (hq e List.mem_cons_self) ht
    have hrest := ih hstep (fun e' he' => hq e' (List.mem_cons_of_mem _ he')) hr
    rwa [List.countP_cons, Nat.add_comm, ← Nat.sub_sub]

/-! ## The outcome of a play -/

/-- What holds of the last `play` that no later `play` or `stop` superseded, and of the commands. -/
structure Sound (w : World) : Prop where
  /-- Given its `finish`, it fails or is finished as its sink plays on. -/
  ends : ∀ c, w.current = some c → c.awaits = false → ∀ es w', runs.run w es = some w' →
    (∀ e ∈ es, e.supersedes = false) → w.worker.sinkSources.length ≤ es.countP Event.isPlayed →
    w'.Failed c.gen ∨ fin c.gen ∈ w'.log
  /-- Until then its sink has something to play. -/
  plays : ∀ c, w.current = some c → c.awaits = false → w.Failed c.gen ∨ fin c.gen ∈ w.log ∨
    ∃ s source rest, w.worker.sink = some s ∧ s.sources = source :: rest
  /-- It is finished behind its own audio and what was appended before its `finish`. -/
  ordered : ∀ c, w.current = some c → ∀ pre, pre ++ [fin c.gen] <+: w.log →
    c.audio <+: audioOf (ofGen c.gen pre)
  /-- No chunk is finished after it failed. -/
  never : ∀ g pre, pre ++ [fin g] <+: w.log → ∀ reason, .failed g reason ∉ pre
  unloaded : ∀ g, w.worker.loaded ≠ some g →
    (∀ pcm, w.worker.append g pcm = w.worker) ∧ w.worker.finish g = w.worker
  /-- A clip keeps a chunk with audio to play, and one that waits for its `finish`. -/
  clip : ∀ c s, w.current = some c → w.worker.loaded = some c.gen → w.worker.sink = some s →
    s.sources ≠ [] ∨ c.awaits = true → ∀ ep samples sampleRate,
    (w.worker.clip ep samples sampleRate).1.sink = some s ∧
      (w.worker.clip ep samples sampleRate).1.loaded = some c.gen
  lost : ∀ stream, stream < w.worker.streamNo →
    ∀ reason, w.worker.deviceLost stream reason = (w.worker, [])

theorem Inv.due (h : Inv w) {c : Current} (hc : w.current = some c) (ha : c.awaits = false) :
    Due c.gen w.worker.sinkSources.length w := by
  rcases (h.chunk c hc).outcome with hf | hin | ⟨hl, hawaits | hin⟩
  · exact .inl hf
  · exact .inr (.inl hin)
  · cases ha.symm.trans hawaits
  · exact .inr (.inr ⟨hl, (List.take_length).symm ▸ hin⟩)

/-- The invariant says that what is heard is sound. -/
theorem Inv.sound (h : Inv w) : w.Sound where
  ends c hc ha es w' hr hq hn := by
    have hdue := (h.due hc ha).run hq hr
    rw [Nat.sub_eq_zero_of_le hn] at hdue
    exact hdue.done
  plays c hc ha := by
    rcases (h.chunk c hc).outcome with hf | hin | ⟨hl, hawaits | hin⟩
    · exact .inl hf
    · exact .inr (.inl hin)
    · cases ha.symm.trans hawaits
    · refine .inr (.inr ?_)
      unfold Worker.sinkSources at hin
      cases hs : w.worker.sink with
      | none =>
        rw [hs] at hin
        exact absurd hin List.not_mem_nil
      | some s =>
        rw [hs] at hin
        obtain ⟨source, rest, heq⟩ := List.exists_cons_of_ne_nil (List.ne_nil_of_mem hin)
        exact ⟨s, source, rest, rfl, heq⟩
  ordered c hc pre hpre := by
    have hof : ofGen c.gen (pre ++ [fin c.gen]) = ofGen c.gen pre ++ [fin c.gen] := by
      rw [ofGen_append]
      refine congrArg (ofGen c.gen pre ++ ·) ?_
      exact List.filter_eq_self.mpr fun o ho => List.mem_singleton.mp ho ▸ decide_eq_true rfl
    have hin : ofGen c.gen (pre ++ [fin c.gen]) <+: w.history c.gen :=
      (List.IsPrefix.filter _ hpre).trans (w.log_prefix c.gen)
    exact (h.chunk c hc).ordered _ (hof ▸ hin)
  never := h.never
  unloaded g hg := ⟨fun pcm => append_unloaded pcm hg, finish_unloaded hg⟩
  clip c s hc hl hs hbusy ep samples sampleRate := by
    obtain ⟨-, ⟨hs', hl', -⟩ | ⟨hidle, -, -⟩⟩ := w.worker.clip_cases ep samples sampleRate
    · exact ⟨hs'.trans hs, hl'.trans hl⟩
    · unfold Worker.idle at hidle
      rw [hs, Bool.and_eq_true, (h.chunk c hc).flag hl] at hidle
      rcases hbusy with hne | ha
      · exact absurd (List.isEmpty_iff.mp hidle.1) hne
      · rw [ha] at hidle
        cases hidle.2
  lost stream hlt reason := if_pos (.inl (Nat.ne_of_lt hlt))

end World

/-- **Every chunk ends**, for every order of the commands in which each chunk is played once. -/
theorem chunks_end {es : List Event} {w : World} (hm : runs.Meets World.Fresh {} es)
    (hr : runs.run {} es = some w) : w.Sound :=
  (runs.run_invariant_of (P := World.Inv)
    (fun _ _ _ hf h hs => h.step hf hs) hm World.init_inv hr).sound

theorem meets_fresh {es : List Event} (hq : ∀ e ∈ es, e.supersedes = false) (w : World) :
    runs.Meets World.Fresh w es := by
  induction es generalizing w with
  | nil => trivial
  | cons e es ih =>
    refine ⟨?_, fun t _ => ih (fun e' he' => hq e' (List.mem_cons_of_mem _ he')) t⟩
    have he := hq e List.mem_cons_self
    cases e with
    | play ep pcm item chunk gen isOpen => cases he
    | _ => trivial

def speakers : Endpoint := { defaultId := none, opened := .ok "Speakers".toList }

def sample (value : Sample) : PcmChunk := { samples := [value], sampleRate := 16000, channels := 1 }

/-- A streamed chunk that is paused, and goes on. -/
def streamed : List Event :=
  [.play speakers [sample 1] 1 0 7 true, .pause, .append 7 [sample 2], .finish 7, .resume,
    .played, .played,
    .played, .played]

theorem streamed_fresh : runs.Meets World.Fresh {} streamed :=
  ⟨List.not_mem_nil, fun t _ => meets_fresh (by decide) t⟩

theorem chunks_end_streamed : ∃ w, runs.run {} streamed = some w ∧ w.Sound ∧ fin 7 ∈ w.log := by
  have hrun : ((runs.run {} streamed).map fun w => decide (fin 7 ∈ w.log)) =
    some true := by decide +kernel
  obtain ⟨w, hw, hin⟩ := Option.map_eq_some_iff.mp hrun
  exact ⟨w, hw, chunks_end streamed_fresh hw, of_decide_eq_true hin⟩

/-- Audio appended behind the `finish` of its chunk. -/
def lateAudio : List Event :=
  [.play speakers [sample 1] 1 0 7 true, .finish 7, .append 7 [sample 2], .played, .played,
    .played, .played]

/-- It is played, after the chunk was finished. -/
theorem late_audio_played : ¬ ∀ (es : List Event) (w : World), runs.Meets World.Fresh {} es →
    runs.run {} es = some w → ∀ c, w.current = some c → ∀ pre, pre ++ [fin c.gen] <+: w.log →
    c.audio ++ c.late <+: audioOf (ofGen c.gen pre) := by
  intro hall
  have hrun : ((runs.run {} lateAudio).map fun w =>
    (w.current.map fun c => (c.gen, (c.audio ++ c.late).length),
      decide (w.log.take 3 ++ [fin 7] <+: w.log), (audioOf (ofGen 7 (w.log.take 3))).length)) =
      some (some (7, 2), true, 1) := by
    decide +kernel
  obtain ⟨w, hw, heq⟩ := Option.map_eq_some_iff.mp hrun
  obtain ⟨hcurrent, heq⟩ := Prod.mk.inj heq
  obtain ⟨hpre, hone⟩ := Prod.mk.inj heq
  obtain ⟨c, hc, hgiven⟩ := Option.map_eq_some_iff.mp hcurrent
  obtain ⟨hgen, htwo⟩ := Prod.mk.inj hgiven
  have hfresh : runs.Meets World.Fresh {} lateAudio :=
    ⟨List.not_mem_nil, fun t _ => meets_fresh (by decide) t⟩
  have hall := hall lateAudio w hfresh hw c hc (w.log.take 3) (hgen.symm ▸ of_decide_eq_true hpre)
  have hlen := hall.length_le
  rw [htwo, hgen, hone] at hlen
  omega

end Sonara.Output
