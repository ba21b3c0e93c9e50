import Sonara.Output.Rodio

/-!
# What is known of a chunk

What the log holds of a chunk, followed by what its sink still has to play, is its `history`: it
grows at its end only, and a source that ends moves along inside it. So an end that is told stands
behind all the audio that was given before it (`Heard.ordered`). A chunk that fails leaves its
sink, so nothing of it is played afterwards (`Inv.alive`).
-/

namespace Sonara.Output

open Sonara.Pcm

/-- The chunk something was told of. -/
def Out.gen : Out → Option Nat
  | .played source => some source.gen
  | .failed gen _ => some gen
  | .clip _ _ => none
  | .note _ => none

/-- `ChunkFinished`. -/
abbrev fin (gen : Nat) : Out := .played (.finished gen)

def Out.audio : Out → Option SamplesBuffer
  | .played (.audio _ buffer) => some buffer
  | _ => none

/-- The audio played, in its order. -/
def audioOf (l : List Out) : List SamplesBuffer := l.filterMap Out.audio

/-- The outs of a chunk. -/
def ofGen (gen : Nat) (l : List Out) : List Out := l.filter (·.gen = some gen)

theorem audioOf_append (l l' : List Out) : audioOf (l ++ l') = audioOf l ++ audioOf l' :=
  List.filterMap_append

theorem ofGen_append (gen : Nat) (l l' : List Out) :
    ofGen gen (l ++ l') = ofGen gen l ++ ofGen gen l' :=
  List.filter_append _ _

/-- Each time the chunk is finished, `audio` was played before. -/
def Ordered (gen : Nat) (audio : List SamplesBuffer) (l : List Out) : Prop :=
  ∀ pre, pre ++ [fin gen] <+: l → audio <+: audioOf pre

theorem Ordered.of_prefix {gen : Nat} {audio : List SamplesBuffer} {l l' : List Out}
    (h : Ordered gen audio l) (hp : l' <+: l) : Ordered gen audio l' := by
  intro pre hpre
  exact h pre (hpre.trans hp)

/-- One more out, which comes behind the audio if it is the end. -/
theorem Ordered.snoc {gen : Nat} {audio : List SamplesBuffer} {l : List Out}
    (h : Ordered gen audio l)
    {x : Out} (hx : x = fin gen → audio <+: audioOf l) : Ordered gen audio (l ++ [x]) := by
  intro pre hpre
  rcases List.prefix_concat_iff.mp hpre with heq | hpre
  · obtain ⟨rfl, hlast⟩ := List.append_inj' heq rfl
    exact hx (List.cons.inj hlast).1.symm
  · exact h pre hpre

theorem Ordered.append {gen : Nat} {audio : List SamplesBuffer} {l l' : List Out}
    (h : Ordered gen audio l) (hl : fin gen ∉ l') : Ordered gen audio (l ++ l') := by
  induction l' using List.reverseRecOn with
  | nil => rwa [List.append_nil]
  | append_singleton l' x ih =>
    rw [List.mem_append, not_or] at hl
    rw [← List.append_assoc]
    exact (ih hl.1).snoc fun hx => absurd (List.mem_singleton.mpr hx.symm) hl.2

/-! ## What the commands do to the sink -/

namespace Worker

variable {w : Worker}

def sinkSources (w : Worker) : List Source := (w.sink.map (·.sources)).getD []

/-- The chunk and what it has to play are as before. -/
structure Keeps (w w' : Worker) : Prop where
  loaded : w'.loaded = w.loaded
  sources : w'.sink.map (·.sources) = w.sink.map (·.sources)
  awaiting : w'.awaitingFinish = w.awaitingFinish

theorem Keeps.refl (w : Worker) : w.Keeps w := ⟨rfl, rfl, rfl⟩

/-- What a stream that opens tells is of no chunk. -/
theorem ensureStream_keeps (ep : Endpoint) (default : Option Text) :
    (w.ensureStream ep default).1.sink = w.sink ∧ (w.ensureStream ep default).1.loaded = w.loaded ∧
      (w.ensureStream ep default).1.awaitingFinish = w.awaitingFinish ∧
      ∀ o ∈ (w.ensureStream ep default).2.1, o.gen = none := by
  unfold ensureStream
  cases w.stream with
  | none =>
    dsimp only
    cases ep.opened with
    | error e => exact ⟨rfl, rfl, rfl, fun o ho => absurd ho List.not_mem_nil⟩
    | ok device => exact ⟨rfl, rfl, rfl, fun o ho => List.mem_singleton.mp ho ▸ rfl⟩
  | some device =>
    refine ⟨?_, ?_, ?_, fun o ho => absurd ho List.not_mem_nil⟩ <;>
      cases w.openedOn.isNone <;> rfl

/-- Following the default changes nothing, or drops the chunk. -/
theorem followDefault_cases (ep : Endpoint) : (w.followDefault ep).1 = w ∨
    (w.followDefault ep).1 = { w with sink := none, loaded := none, stream := none, followed := true } := by
  unfold followDefault
  dsimp only
  split
  · dsimp only
    split
    · exact .inr rfl
    · exact .inl rfl
  · exact .inl rfl

/-- A chunk is loaded, or it failed. -/
theorem play_cases (ep : Endpoint) (pcm : List PcmChunk) (item chunk gen : Nat) (isOpen : Bool) :
    ∃ notes : List Out, (∀ o ∈ notes, o.gen = none) ∧
      (((w.play ep pcm item chunk gen isOpen).1.loaded = none ∧
          (w.play ep pcm item chunk gen isOpen).1.sink = none ∧
          ∃ reason, (w.play ep pcm item chunk gen isOpen).2 = notes ++ [.failed gen reason]) ∨
        ((w.play ep pcm item chunk gen isOpen).1.loaded = some gen ∧
          (∃ s, (w.play ep pcm item chunk gen isOpen).1.sink = some s ∧
            s.sources = sources pcm gen isOpen) ∧
          (w.play ep pcm item chunk gen isOpen).1.awaitingFinish = isOpen ∧
          (w.play ep pcm item chunk gen isOpen).2 = notes)) := by
  unfold play
  dsimp only
  generalize hf : Worker.followDefault { w with sink := none, loaded := none } ep = f
  have hempty : f.1.sink = none ∧ f.1.loaded = none := by
    rw [← hf]
    rcases followDefault_cases (w := { w with sink := none, loaded := none }) ep with h | h <;>
      rw [h] <;> exact ⟨rfl, rfl⟩
  obtain ⟨w₁, default⟩ := f
  obtain ⟨hsink, hloaded, -, hnotes⟩ := ensureStream_keeps (w := w₁) ep default
  generalize w₁.ensureStream ep default = r at hsink hloaded hnotes
  obtain ⟨w₂, notes, result⟩ := r
  refine ⟨notes, hnotes, ?_⟩
  cases result with
  | error e => exact .inl ⟨hloaded.trans hempty.2, hsink.trans hempty.1, _, rfl⟩
  | ok u => exact .inr ⟨rfl, ⟨_, rfl, rfl⟩, rfl, rfl⟩

/-- A clip keeps the chunk, unless nothing of it is left to play. -/
theorem clip_cases (ep : Endpoint) (samples : List Sample) (sampleRate : BitVec 32) :
    (∀ o ∈ (w.clip ep samples sampleRate).2, o.gen = none) ∧
      (((w.clip ep samples sampleRate).1.sink = w.sink ∧
          (w.clip ep samples sampleRate).1.loaded = w.loaded ∧
          (w.clip ep samples sampleRate).1.awaitingFinish = w.awaitingFinish) ∨
        (w.idle = true ∧ (w.clip ep samples sampleRate).1.sink = none ∧
          (w.clip ep samples sampleRate).1.loaded = none)) := by
  unfold clip
  generalize hf : (if w.idle then w.followDefault ep else (w, w.openedOn)) = f
  obtain ⟨w₁, default⟩ := f
  obtain ⟨hsink, hloaded, hawait, hnotes⟩ := ensureStream_keeps (w := w₁) ep default
  have hfollow : w₁ = w ∨ w.idle = true ∧ w₁.sink = none ∧ w₁.loaded = none := by
    cases hidle : w.idle with
    | false =>
      rw [hidle, if_neg Bool.false_ne_true] at hf
      exact .inl (Prod.mk.inj hf).1.symm
    | true =>
      rw [hidle, if_pos rfl] at hf
      rw [show w₁ = (w.followDefault ep).1 from congrArg Prod.fst hf.symm]
      rcases followDefault_cases (w := w) ep with h | h
      · exact .inl h
      · rw [h]
        exact .inr ⟨rfl, rfl, rfl⟩
  dsimp only
  generalize w₁.ensureStream ep default = r at hsink hloaded hawait hnotes
  obtain ⟨w₂, notes, opened⟩ := r
  have hkeep : w₂.sink = w.sink ∧ w₂.loaded = w.loaded ∧ w₂.awaitingFinish = w.awaitingFinish ∨
      w.idle = true ∧ w₂.sink = none ∧ w₂.loaded = none := by
    rcases hfollow with rfl | ⟨hidle, hs, hl⟩
    · exact .inl ⟨hsink, hloaded, hawait⟩
    · exact .inr ⟨hidle, hsink.trans hs, hloaded.trans hl⟩
  dsimp only
  split
  · refine ⟨fun o ho => ?_, hkeep⟩
    rcases List.mem_append.mp ho with ho | ho
    · exact hnotes o ho
    · exact List.mem_singleton.mp ho ▸ rfl
  · exact ⟨hnotes, hkeep⟩

end Worker

namespace Current

theorem append_gen (gen : Nat) (pcm : List PcmChunk) (c : Current) :
    (c.append gen pcm).gen = c.gen := by
  unfold append
  split
  · rfl
  · split <;> rfl

theorem append_awaits (gen : Nat) (pcm : List PcmChunk) (c : Current) :
    (c.append gen pcm).awaits = c.awaits := by
  unfold append
  split
  · rfl
  · split <;> rfl

theorem append_audio (pcm : List PcmChunk) (c : Current) : (c.append c.gen pcm).audio =
    if c.awaits then c.audio ++ pcm.filterMap toBuffer else c.audio := by
  unfold append
  rw [if_neg (not_not_intro rfl)]
  cases c.awaits <;> rfl

end Current

/-! ## What is known of a chunk -/

namespace World

variable {w w' : World} {c : Current} {g : Nat}

/-- What is told of a chunk, and then what its sink has to play. -/
def history (w : World) (g : Nat) : List Out := ofGen g (w.log ++ w.worker.sinkSources.map .played)

def Failed (w : World) (g : Nat) : Prop := ∃ reason, Out.failed g reason ∈ w.log

/-- The last chunk played, as far as it was heard. -/
structure Heard (c : Current) (w : World) : Prop where
  sink : w.worker.loaded = some c.gen → w.worker.sink.isSome = true
  flag : w.worker.loaded = some c.gen → w.worker.awaitingFinish = c.awaits
  silent : c.awaits = true → fin c.gen ∉ w.history c.gen
  exact : c.awaits = true → w.worker.loaded = some c.gen → audioOf (w.history c.gen) = c.audio
  whole : w.worker.loaded = some c.gen → c.audio <+: audioOf (w.history c.gen)
  ordered : Ordered c.gen c.audio (w.history c.gen)
  outcome : w.Failed c.gen ∨ fin c.gen ∈ w.log ∨
    w.worker.loaded = some c.gen ∧ (c.awaits = true ∨ .finished c.gen ∈ w.worker.sinkSources)

structure Inv (w : World) : Prop where
  own : ∀ x ∈ w.worker.sinkSources, w.worker.loaded = some x.gen
  last : ∀ g, w.worker.loaded = some g → ∃ c, w.current = some c ∧ c.gen = g
  known : ∀ c, w.current = some c → c.gen ∈ w.gens
  seen : ∀ o ∈ w.log, ∀ g, o.gen = some g → g ∈ w.gens
  alive : ∀ g, w.worker.loaded = some g → ¬ w.Failed g
  never : ∀ g pre, pre ++ [fin g] <+: w.log → ∀ reason, .failed g reason ∉ pre
  chunk : ∀ c, w.current = some c → Heard c w

theorem init_inv : Inv {} where
  own _ hx := absurd hx List.not_mem_nil
  last _ h := by cases h
  known _ h := by cases h
  seen _ ho := absurd ho List.not_mem_nil
  alive _ h := by cases h
  never g pre hpre := by
    have := List.prefix_nil.mp hpre
    exact absurd this (by simp)
  chunk _ h := by cases h

/-- Outs that are no end leave the ends where they are. -/
theorem prefix_of_append {l l' pre : List Out} (hl : fin g ∉ l') (h : pre ++ [fin g] <+: l ++ l') :
    pre ++ [fin g] <+: l := by
  induction l' using List.reverseRecOn with
  | nil => rwa [List.append_nil] at h
  | append_singleton l' x ih =>
    rw [List.mem_append, not_or] at hl
    rw [← List.append_assoc] at h
    rcases List.prefix_concat_iff.mp h with heq | h
    · obtain ⟨-, hlast⟩ := List.append_inj' heq rfl
      exact absurd (List.mem_singleton.mpr (List.cons.inj hlast).1) hl.2
    · exact ih hl.1 h

theorem fin_not_mem {l : List Out} (hl : ∀ o ∈ l, o.gen = none) : fin g ∉ l := by
  intro hin
  cases hl _ hin

theorem ofGen_none {l : List Out} (hl : ∀ o ∈ l, o.gen = none) : ofGen g l = [] := by
  refine List.filter_eq_nil_iff.mpr fun o ho => ?_
  rw [hl o ho]
  exact of_decide_eq_false rfl

theorem Failed.mono (h : w.Failed g) {outs : List Out} (hl : w'.log = w.log ++ outs) :
    w'.Failed g := by
  obtain ⟨reason, hin⟩ := h
  exact ⟨reason, hl ▸ List.mem_append_left _ hin⟩

/-- The outs that a command tells, when they are of no chunk, change nothing that is known. -/
theorem Inv.keeps (h : Inv w) {r : Worker × List Out} (hk : w.worker.Keeps r.1)
    (hr : ∀ o ∈ r.2, o.gen = none) : Inv (w.after r) := by
  have hsources : r.1.sinkSources = w.worker.sinkSources := by
    unfold Worker.sinkSources
    rw [hk.sources]
  have hhistory : ∀ g, (w.after r).history g = w.history g := by
    intro g
    show ofGen g (w.log ++ r.2 ++ r.1.sinkSources.map .played) = _
    rw [ofGen_append, ofGen_append, ofGen_none hr, List.append_nil, hsources, ← ofGen_append]
    rfl
  have hfailed : ∀ g, (w.after r).Failed g ↔ w.Failed g := by
    refine fun g => ⟨fun ⟨reason, hin⟩ => ⟨reason, ?_⟩, fun h => h.mono rfl⟩
    exact (List.mem_append.mp hin).resolve_right fun hin => by cases hr _ hin
  refine ⟨?_, ?_, h.known, ?_, ?_, ?_, ?_⟩
  · intro x hx
    exact hk.loaded.trans (h.own x (hsources ▸ hx))
  · intro g hg
    exact h.last g (hk.loaded ▸ hg)
  · intro o ho g hg
    rcases List.mem_append.mp ho with ho | ho
    · exact h.seen o ho g hg
    · cases (hr o ho).symm.trans hg
  · intro g hg
    rw [hfailed]
    exact h.alive g (hk.loaded ▸ hg)
  · intro g pre hpre
    exact h.never g pre (prefix_of_append (fin_not_mem hr) hpre)
  · intro c hc
    obtain ⟨hsink, hflag, hsilent, hexact, hwhole, hordered, houtcome⟩ := h.chunk c hc
    have hloaded : (w.after r).worker.loaded = w.worker.loaded := hk.loaded
    refine ⟨?_, ?_, ?_, ?_, ?_, ?_, ?_⟩
    · intro hl
      rw [← hsink (hloaded ▸ hl)]
      have := congrArg Option.isSome hk.sources
      rwa [Option.isSome_map, Option.isSome_map] at this
    · intro hl
      exact hk.awaiting.trans (hflag (hloaded ▸ hl))
    · rw [hhistory]
      exact hsilent
    · rw [hhistory, hloaded]
      exact hexact
    · rw [hhistory, hloaded]
      exact hwhole
    · rw [hhistory]
      exact hordered
    · rw [hfailed, hloaded]
      refine houtcome.imp_right (Or.imp (List.mem_append_left _) fun ⟨hl, hs⟩ =>
        ⟨hl, hs.imp_right fun hs => ?_⟩)
      exact hsources.symm ▸ hs

/-- A worker without a sink has nothing to play. -/
theorem history_unloaded (hs : w.worker.sink = none) (g : Nat) : w.history g = ofGen g w.log := by
  unfold history Worker.sinkSources
  rw [hs]
  exact congrArg _ (List.append_nil _)

theorem log_prefix (w : World) (g : Nat) : ofGen g w.log <+: w.history g := by
  rw [history, ofGen_append]
  exact List.prefix_append _ _

/-- A clip that finds the chunk played out may drop its sink. -/
theorem Inv.dropIdle (h : Inv w) {r : Worker × List Out} (hidle : w.worker.idle = true)
    (hsink : r.1.sink = none) (hloaded : r.1.loaded = none) (hr : ∀ o ∈ r.2, o.gen = none) :
    Inv (w.after r) := by
  have hempty : w.worker.sinkSources = [] := by
    unfold Worker.idle at hidle
    unfold Worker.sinkSources
    cases hs : w.worker.sink with
    | none => rfl
    | some s =>
      rw [hs, Bool.and_eq_true] at hidle
      exact List.isEmpty_iff.mp hidle.1
  have hunloaded : ∀ g, (w.after r).worker.loaded = some g → False := by
    intro g hg
    cases hloaded.symm.trans hg
  have hhistory : ∀ g, (w.after r).history g = w.history g := by
    intro g
    rw [history_unloaded hsink]
    show ofGen g (w.log ++ r.2) = ofGen g (w.log ++ w.worker.sinkSources.map .played)
    rw [hempty, List.map_nil, List.append_nil, ofGen_append, ofGen_none hr, List.append_nil]
  refine ⟨?_, fun g hg => (hunloaded g hg).elim, h.known, ?_,
    fun g hg => (hunloaded g hg).elim, ?_, ?_⟩
  · intro x hx
    have hnil : (w.after r).worker.sinkSources = [] := by
      show r.1.sinkSources = []
      unfold Worker.sinkSources
      rw [hsink]
      rfl
    exact absurd (hnil ▸ hx) List.not_mem_nil
  · intro o ho g hg
    rcases List.mem_append.mp ho with ho | ho
    · exact h.seen o ho g hg
    · cases (hr o ho).symm.trans hg
  · intro g pre hpre
    exact h.never g pre (prefix_of_append (fin_not_mem hr) hpre)
  · intro c hc
    have hheard := h.chunk c hc
    refine ⟨fun hl => (hunloaded _ hl).elim, fun hl => (hunloaded _ hl).elim, ?_,
      fun _ hl => (hunloaded _ hl).elim, fun hl => (hunloaded _ hl).elim, ?_, ?_⟩
    · rw [hhistory]
      exact hheard.silent
    · rw [hhistory]
      exact hheard.ordered
    · rcases hheard.outcome with hf | hfin | ⟨hl, hawaits | hin⟩
      · exact .inl (hf.mono rfl)
      · exact .inr (.inl (List.mem_append_left _ hfin))
      · -- a chunk that waits for its `finish` is not idle
        obtain ⟨s, hs⟩ := Option.isSome_iff_exists.mp (hheard.sink hl)
        unfold Worker.idle at hidle
        rw [hs, Bool.and_eq_true, hheard.flag hl, hawaits] at hidle
        cases hidle.2
      · exact absurd (hempty ▸ hin) List.not_mem_nil

theorem Inv.clip (h : Inv w) (ep : Endpoint) (samples : List Sample) (sampleRate : BitVec 32) :
    Inv (w.after (w.worker.clip ep samples sampleRate)) := by
  obtain ⟨hout, ⟨hs, hl, ha⟩ | ⟨hidle, hs, hl⟩⟩ := w.worker.clip_cases ep samples sampleRate
  · exact h.keeps ⟨hl, congrArg _ hs, ha⟩ hout
  · exact h.dropIdle hidle hs hl hout

theorem deviceLost_cases (worker : Worker) (stream : Nat) (reason : Text) :
    worker.deviceLost stream reason = (worker, []) ∨
      (worker.deviceLost stream reason).1.sink = none ∧
      (worker.deviceLost stream reason).1.loaded = none ∧
      ∃ text, (worker.deviceLost stream reason).2 = worker.loaded.toList.map fun gen =>
      .failed gen text := by
  unfold Worker.deviceLost
  split
  · exact .inl rfl
  · exact .inr ⟨rfl, rfl, _, rfl⟩

/-- A lost device keeps the invariant, whichever stream it names. -/
theorem Inv.deviceLost (h : Inv w) (stream : Nat) (reason : Text) :
    Inv (w.after (w.worker.deviceLost stream reason)) := by
  obtain heq | ⟨hsink, hloaded, text, hout⟩ := deviceLost_cases w.worker stream reason
  · rw [heq]
    exact h.keeps (.refl _) fun o ho => absurd ho List.not_mem_nil
  · generalize w.worker.deviceLost stream reason = r at hsink hloaded hout
    have hunloaded : ∀ g, (w.after r).worker.loaded = some g → False := by
      intro g hg
      cases hloaded.symm.trans hg
    have houts : ∀ o ∈ r.2, ∃ g, w.worker.loaded = some g ∧ o = .failed g text := by
      intro o ho
      rw [hout] at ho
      obtain ⟨g, hg, rfl⟩ := List.mem_map.mp ho
      exact ⟨g, Option.mem_toList.mp hg, rfl⟩
    have hfin : ∀ g, fin g ∉ r.2 := by
      intro g hin
      obtain ⟨g', -, heq⟩ := houts _ hin
      cases heq
    refine ⟨?_, fun g hg => (hunloaded g hg).elim, h.known, ?_,
      fun g hg => (hunloaded g hg).elim, ?_, ?_⟩
    · intro x hx
      have hnil : (w.after r).worker.sinkSources = [] := by
        show r.1.sinkSources = []
        unfold Worker.sinkSources
        rw [hsink]
        rfl
      exact absurd (hnil ▸ hx) List.not_mem_nil
    · intro o ho g hg
      rcases List.mem_append.mp ho with ho | ho
      · exact h.seen o ho g hg
      · obtain ⟨g', hl, rfl⟩ := houts o ho
        obtain rfl : g' = g := Option.some.inj hg
        obtain ⟨c, hc, rfl⟩ := h.last g' hl
        exact h.known c hc
    · intro g pre hpre
      exact h.never g pre (prefix_of_append (hfin g) hpre)
    · intro c hc
      have hheard := h.chunk c hc
      have hnew : fin c.gen ∉ ofGen c.gen r.2 := fun hin => hfin c.gen (List.mem_filter.mp hin).1
      have hhistory : (w.after r).history c.gen = ofGen c.gen w.log ++ ofGen c.gen r.2 := by
        rw [history_unloaded hsink]
        exact ofGen_append c.gen w.log r.2
      refine ⟨fun hl => (hunloaded _ hl).elim, fun hl => (hunloaded _ hl).elim, ?_,
        fun _ hl => (hunloaded _ hl).elim, fun hl => (hunloaded _ hl).elim, ?_, ?_⟩
      · intro hawaits hin
        rw [hhistory] at hin
        rcases List.mem_append.mp hin with hin | hin
        · exact hheard.silent hawaits ((w.log_prefix c.gen).subset hin)
        · exact hnew hin
      · rw [hhistory]
        exact (hheard.ordered.of_prefix (w.log_prefix c.gen)).append hnew
      · rcases hheard.outcome with hf | hfin | ⟨hl, -⟩
        · exact .inl (hf.mono rfl)
        · exact .inr (.inl (List.mem_append_left _ hfin))
        · refine .inl ⟨text, List.mem_append_right _ ?_⟩
          rw [hout, hl]
          exact List.mem_singleton_self _

theorem Inv.stop (h : Inv w) : Inv { w with worker := w.worker.stop, current := none } where
  own _ hx := absurd hx List.not_mem_nil
  last _ hg := by cases hg
  known _ hc := by cases hc
  seen := h.seen
  alive _ hg := by cases hg
  never := h.never
  chunk _ hc := by cases hc

/-- The next source ends. -/
theorem Inv.played (h : Inv w) {r : Worker × List Out} (hr : w.worker.played = some r) :
    Inv (w.after r) := by
  obtain ⟨source, rest, volume, hs, rfl⟩ : ∃ source rest volume,
      w.worker.sink = some { sources := source :: rest, paused := false, volume := volume } ∧
      r = ({ w.worker with sink := some { sources := rest, volume := volume } },
        [.played source]) := by
    unfold Worker.played at hr
    split at hr
    next source rest volume hs => exact ⟨source, rest, volume, hs, (Option.some.inj hr).symm⟩
    next => cases hr
  have hsources : w.worker.sinkSources = source :: rest := by
    unfold Worker.sinkSources
    rw [hs]
    rfl
  have hloaded : w.worker.loaded = some source.gen := h.own source (hsources ▸ List.mem_cons_self)
  obtain ⟨c₀, hc₀, hgen⟩ := h.last _ hloaded
  have hhistory : ∀ g, (w.after
    ({ w.worker with sink := some { sources := rest, volume := volume } },
      [.played source])).history g = w.history g := by
    intro g
    show ofGen g (w.log ++ [.played source] ++ rest.map .played) = _
    rw [history, hsources, List.append_assoc]
    rfl
  have hlog : ∀ {o : Out}, o ∈ w.log ++ [.played source] → o ∈ w.log ∨ o = .played source := by
    intro o ho
    exact (List.mem_append.mp ho).imp_right List.mem_singleton.mp
  refine ⟨?_, h.last, h.known, ?_, ?_, ?_, ?_⟩
  · intro x hx
    exact h.own x (hsources ▸ List.mem_cons_of_mem _ hx)
  · intro o ho g hg
    rcases hlog ho with ho | rfl
    · exact h.seen o ho g hg
    · obtain rfl : source.gen = g := Option.some.inj hg
      exact hgen ▸ h.known c₀ hc₀
  · rintro g hg ⟨reason, hin⟩
    rcases hlog hin with hin | heq
    · exact h.alive g hg ⟨reason, hin⟩
    · cases heq
  · intro g pre hpre reason hin
    rcases List.prefix_concat_iff.mp hpre with heq | hpre
    · -- the chunk is loaded, so it has not failed
      obtain ⟨rfl, hlast⟩ := List.append_inj' heq rfl
      obtain rfl := Out.played.inj (List.cons.inj hlast).1
      exact h.alive g hloaded ⟨reason, hin⟩
    · exact h.never g pre hpre reason hin
  · intro c hc
    obtain ⟨-, hflag, hsilent, hexact, hwhole, hordered, houtcome⟩ := h.chunk c hc
    refine ⟨fun _ => rfl, hflag, ?_, ?_, ?_, ?_, ?_⟩
    · rw [hhistory]
      exact hsilent
    · rw [hhistory]
      exact hexact
    · rw [hhistory]
      exact hwhole
    · rw [hhistory]
      exact hordered
    · rcases houtcome with hf | hfin | ⟨hl, hawaits | hin⟩
      · exact .inl (hf.mono rfl)
      · exact .inr (.inl (List.mem_append_left _ hfin))
      · exact .inr (.inr ⟨hl, .inl hawaits⟩)
      · rcases List.mem_cons.mp (hsources ▸ hin) with heq | hin
        · rw [← heq]
          exact .inr (.inl (List.mem_append_right _ (List.mem_singleton_self _)))
        · exact .inr (.inr ⟨hl, .inr hin⟩)

/-! ## Playing a chunk -/

theorem sources_gen {pcm : List PcmChunk} {isOpen : Bool} :
    ∀ x ∈ Worker.sources pcm g isOpen, x.gen = g := by
  intro x hx
  rcases List.mem_append.mp hx with hx | hx
  · rcases List.mem_cons.mp hx with rfl | hx
    · rfl
    · obtain ⟨b, -, rfl⟩ := List.mem_map.mp hx
      rfl
  · cases isOpen with
    | true => exact absurd hx List.not_mem_nil
    | false => exact List.mem_singleton.mp hx ▸ rfl

/-- Audio that joins the sink. -/
theorem ofGen_audio (g : Nat) (buffers : List SamplesBuffer) :
    ofGen g ((buffers.map (Source.audio g)).map .played) =
    (buffers.map (Source.audio g)).map .played ∧
      audioOf ((buffers.map (Source.audio g)).map .played) = buffers ∧
      fin g ∉ (buffers.map (Source.audio g)).map Out.played := by
  refine ⟨?_, ?_, ?_⟩
  · refine List.filter_eq_self.mpr fun o ho => ?_
    obtain ⟨x, hx, rfl⟩ := List.mem_map.mp ho
    obtain ⟨b, -, rfl⟩ := List.mem_map.mp hx
    exact decide_eq_true rfl
  · induction buffers with
    | nil => rfl
    | cons b buffers ih => exact congrArg (b :: ·) ih
  · intro hin
    obtain ⟨x, hx, heq⟩ := List.mem_map.mp hin
    obtain ⟨b, -, rfl⟩ := List.mem_map.mp hx
    cases heq

/-- A `play` replaces what was loaded. -/
abbrev replaced (w : World) (r : Worker × List Out) (c : Current) : World :=
  { w.after r with gens := c.gen :: w.gens, current := some c }

theorem history_replaced (r : Worker × List Out) : (w.replaced r c).history g =
    ofGen g w.log ++ ofGen g r.2 ++ ofGen g (r.1.sinkSources.map .played) := by
  rw [← ofGen_append, ← ofGen_append]
  rfl

/-- Nothing was told of a new chunk. -/
theorem Inv.fresh (h : Inv w) (hfresh : g ∉ w.gens) : ofGen g w.log = [] := by
  refine List.filter_eq_nil_iff.mpr fun o ho hg => ?_
  exact hfresh (h.seen o ho g (of_decide_eq_true hg))

/-- What is told at a `play` is of its chunk, and is no end. -/
theorem Inv.replaced (h : Inv w) {r : Worker × List Out} (hfresh : c.gen ∉ w.gens)
    (houts : ∀ o ∈ r.2, ∀ g, o.gen = some g → g = c.gen) (hfin : ∀ g, fin g ∉ r.2)
    (hown : ∀ x ∈ r.1.sinkSources, r.1.loaded = some x.gen)
    (hlast : ∀ g, r.1.loaded = some g → g = c.gen)
    (halive : r.1.loaded = some c.gen → ∀ reason, .failed c.gen reason ∉ r.2)
    (hheard : Heard c (w.replaced r c)) : Inv (w.replaced r c) where
  own := hown
  last g hg := ⟨c, rfl, (hlast g hg).symm⟩
  known c' hc := by
    rw [← Option.some.inj hc]
    exact List.mem_cons_self
  seen o ho g hg := by
    rcases List.mem_append.mp ho with ho | ho
    · exact List.mem_cons_of_mem _ (h.seen o ho g hg)
    · exact houts o ho g hg ▸ List.mem_cons_self
  alive g hg := by
    rintro ⟨reason, hin⟩
    obtain rfl := hlast g hg
    rcases List.mem_append.mp hin with hin | hin
    · exact hfresh (h.seen _ hin _ rfl)
    · exact halive hg reason hin
  never g pre hpre := h.never g pre (prefix_of_append (hfin g) hpre)
  chunk c' hc := Option.some.inj hc ▸ hheard

/-- With no device the chunk fails at once. -/
theorem heard_failed {r : Worker × List Out} {reason : Text} (hlog : ofGen c.gen w.log = [])
    (hl : r.1.loaded = none) (hs : r.1.sink = none)
    (hout : ofGen c.gen r.2 = [.failed c.gen reason]) :
    Heard c (w.replaced r c) := by
  have hunloaded : ∀ {g}, (w.replaced r c).worker.loaded = some g → False := by
    intro g hg
    cases hl.symm.trans hg
  have hhistory : (w.replaced r c).history c.gen = [.failed c.gen reason] := by
    rw [history_unloaded hs]
    show ofGen c.gen (w.log ++ r.2) = _
    rw [ofGen_append, hlog, hout]
    rfl
  have hnofin : fin c.gen ∉ (w.replaced r c).history c.gen := by
    rw [hhistory]
    intro hin
    cases List.mem_singleton.mp hin
  refine ⟨fun hg => (hunloaded hg).elim, fun hg => (hunloaded hg).elim, fun _ => hnofin,
    fun _ hg => (hunloaded hg).elim, fun hg => (hunloaded hg).elim, ?_, .inl ⟨reason, ?_⟩⟩
  · intro pre hpre
    exact absurd (hpre.subset (List.mem_append_right _ (List.mem_singleton_self _))) hnofin
  · have hin : Out.failed c.gen reason ∈ ofGen c.gen r.2 := hout ▸ List.mem_singleton_self _
    exact List.mem_append_right _ (List.mem_filter.mp hin).1

/-- A chunk that was just loaded: all its audio is to be played, and its end if it is not open. -/
theorem heard_loaded {r : Worker × List Out} {pcm : List PcmChunk} {isOpen : Bool}
    (hlog : ofGen g w.log = []) (hout : ofGen g r.2 = []) (hl : r.1.loaded = some g)
    (hs : r.1.sink.isSome = true) (hsources : r.1.sinkSources = Worker.sources pcm g isOpen)
    (hawait : r.1.awaitingFinish = isOpen) :
    Heard { gen := g, isOpen := isOpen, audio := pcm.filterMap toBuffer }
      (w.replaced r { gen := g, isOpen := isOpen, audio := pcm.filterMap toBuffer }) := by
  obtain ⟨haudio, hbuffers, hnofin⟩ := ofGen_audio g (pcm.filterMap toBuffer)
  generalize hstart : [Out.played (.started g)] ++
    ((pcm.filterMap toBuffer).map (Source.audio g)).map Out.played = start
  have hhistory : ofGen g w.log ++ ofGen g r.2 ++ ofGen g (r.1.sinkSources.map .played) =
      start ++ if isOpen then [] else [fin g] := by
    have hall : ofGen g ((Worker.sources pcm g isOpen).map .played) =
        (Worker.sources pcm g isOpen).map .played := by
      refine List.filter_eq_self.mpr fun o ho => ?_
      obtain ⟨x, hx, rfl⟩ := List.mem_map.mp ho
      exact decide_eq_true (congrArg some (sources_gen x hx))
    rw [hlog, hout, hsources, hall, ← hstart, Worker.sources, List.map_append]
    cases isOpen <;> rfl
  have hheard : audioOf start = pcm.filterMap toBuffer := by
    rw [← hstart, audioOf_append, hbuffers]
    rfl
  have hsilent : fin g ∉ start := by
    rw [← hstart]
    intro hin
    rcases List.mem_append.mp hin with hin | hin
    · cases List.mem_singleton.mp hin
    · exact hnofin hin
  have hordered : Ordered g (pcm.filterMap toBuffer) start := by
    intro pre hpre
    exact absurd (hpre.subset (List.mem_append_right _ (List.mem_singleton_self _))) hsilent
  cases isOpen with
  | true =>
    rw [if_pos rfl, List.append_nil] at hhistory
    refine ⟨fun _ => hs, fun _ => hawait, fun _ => ?_, fun _ _ => ?_, fun _ => ?_, ?_,
      .inr (.inr ⟨hl, .inl rfl⟩)⟩
    · rw [history_replaced, hhistory]
      exact hsilent
    · rw [history_replaced, hhistory]
      exact hheard
    · rw [history_replaced, hhistory, hheard]
    · rw [history_replaced, hhistory]
      exact hordered
  | false =>
    rw [if_neg Bool.false_ne_true] at hhistory
    refine ⟨fun _ => hs, fun _ => hawait, fun hf => (by cases hf), fun hf => (by cases hf),
      fun _ => ?_, ?_,
      .inr (.inr ⟨hl, .inr ?_⟩)⟩
    · rw [history_replaced, hhistory, audioOf_append, hheard]
      exact List.prefix_append _ _
    · rw [history_replaced, hhistory]
      exact hordered.snoc fun _ => hheard.symm ▸ List.prefix_rfl
    · show Source.finished g ∈ r.1.sinkSources
      rw [hsources]
      exact List.mem_append_right _ (List.mem_singleton_self _)

/-- A new chunk replaces what plays, under its own generation. -/
theorem Inv.play (h : Inv w) {ep : Endpoint} {pcm : List PcmChunk} {item chunk : Nat}
    {isOpen : Bool}
    (hfresh : g ∉ w.gens) : Inv (w.replaced (w.worker.play ep pcm item chunk g isOpen)
      { gen := g, isOpen := isOpen, audio := pcm.filterMap toBuffer }) := by
  obtain ⟨notes, hnotes, ⟨hl, hs, reason, hout⟩ | ⟨hl, ⟨s, hs, hsrc⟩, hawait, hout⟩⟩ :=
    w.worker.play_cases ep pcm item chunk g isOpen
  · have hfailed : ofGen g (w.worker.play ep pcm item chunk g isOpen).2 = [.failed g reason] := by
      rw [hout, ofGen_append, ofGen_none hnotes]
      simp [ofGen, Out.gen]
    refine h.replaced hfresh (fun o ho g' hg => ?_) (fun g' hin => ?_) (fun x hx => ?_)
      (fun g' hg => (by cases hl.symm.trans hg)) (fun hg => (by cases hl.symm.trans hg))
      (heard_failed (h.fresh hfresh) hl hs hfailed)
    · rw [hout] at ho
      rcases List.mem_append.mp ho with ho | ho
      · cases (hnotes o ho).symm.trans hg
      · rw [List.mem_singleton.mp ho] at hg
        exact (Option.some.inj hg).symm
    · rw [hout] at hin
      rcases List.mem_append.mp hin with hin | hin
      · exact fin_not_mem hnotes hin
      · cases List.mem_singleton.mp hin
    · rw [Worker.sinkSources, hs] at hx
      exact absurd hx List.not_mem_nil
  · have hsources : (w.worker.play ep pcm item chunk g isOpen).1.sinkSources =
        Worker.sources pcm g isOpen := by
      rw [Worker.sinkSources, hs]
      exact hsrc
    rw [← hout] at hnotes
    refine h.replaced hfresh (fun o ho g' hg => ?_) (fun g' => fin_not_mem hnotes) (fun x hx => ?_)
      (fun g' hg => (Option.some.inj (hl.symm.trans hg)).symm) (fun _ reason hin => ?_)
      (heard_loaded (h.fresh hfresh) (ofGen_none hnotes) hl (hs ▸ rfl) hsources hawait)
    · cases (hnotes o ho).symm.trans hg
    · rw [sources_gen x (hsources ▸ hx)]
      exact hl
    · cases hnotes _ hin

/-! ## More audio, and its end -/

/-- What is not for the loaded chunk changes nothing. -/
theorem onSink_unloaded {worker : Worker} (f : Sink → Worker) (h : worker.loaded ≠ some g) :
    worker.onSink g f = worker := by
  unfold Worker.onSink
  split
  next s g' _ hl =>
    refine if_neg ?_
    rintro rfl
    exact h hl
  next => rfl

theorem append_unloaded {worker : Worker} (pcm : List PcmChunk) (h : worker.loaded ≠ some g) :
    worker.append g pcm = worker := onSink_unloaded _ h

theorem finish_unloaded {worker : Worker} (h : worker.loaded ≠ some g) : worker.finish g = worker :=
  onSink_unloaded _ h

/-- The sources that a command puts into the sink, and its flag. -/
theorem append_loaded {worker : Worker} (pcm : List PcmChunk) (h : worker.loaded = some g)
    (hs : worker.sink.isSome = true) : (worker.append g pcm).sinkSources =
      worker.sinkSources ++ (pcm.filterMap toBuffer).map (.audio g) ∧
      (worker.append g pcm).loaded = some g ∧ (worker.append g pcm).sink.isSome = true ∧
      (worker.append g pcm).awaitingFinish = worker.awaitingFinish := by
  obtain ⟨s, hs⟩ := Option.isSome_iff_exists.mp hs
  unfold Worker.append Worker.onSink Worker.sinkSources
  rw [hs, h]
  dsimp only
  rw [if_pos rfl]
  exact ⟨rfl, rfl, rfl, rfl⟩

theorem finish_loaded {worker : Worker} (h : worker.loaded = some g)
    (hs : worker.sink.isSome = true) :
    (worker.finish g).sinkSources = worker.sinkSources ++ [.finished g] ∧
      (worker.finish g).loaded = some g ∧ (worker.finish g).sink.isSome = true ∧
      (worker.finish g).awaitingFinish = false := by
  obtain ⟨s, hs⟩ := Option.isSome_iff_exists.mp hs
  unfold Worker.finish Worker.onSink Worker.sinkSources
  rw [hs, h]
  dsimp only
  rw [if_pos rfl]
  exact ⟨rfl, rfl, rfl, rfl⟩

/-- Sources of the loaded chunk `c` join its sink. -/
theorem Inv.joined (h : Inv w) {worker : Worker} {more : List Source} {c c' : Current}
    (hc : w.current = some c) (hl : w.worker.loaded = some c.gen) (hgen : c'.gen = c.gen)
    (hmore : ∀ x ∈ more, x.gen = c.gen)
    (hsources : worker.sinkSources = w.worker.sinkSources ++ more)
    (hl' : worker.loaded = some c.gen)
    (hheard : Heard c' { w with worker := worker, current := some c' }) :
    Inv { w with worker := worker, current := some c' } where
  own x hx := by
    rw [hl']
    rcases List.mem_append.mp (hsources ▸ hx) with hx | hx
    · exact hl.symm.trans (h.own x hx)
    · rw [hmore x hx]
  last g hg := ⟨c', rfl, hgen.trans (Option.some.inj (hl'.symm.trans hg))⟩
  known c'' heq := by
    rw [← Option.some.inj heq, hgen]
    exact h.known c hc
  seen := h.seen
  alive g hg := h.alive g (hl.trans (hl'.symm.trans hg))
  never := h.never
  chunk c'' heq := Option.some.inj heq ▸ hheard

/-- The chunk is not loaded, and only what the world keeps of it changes. -/
theorem Inv.unloaded (h : Inv w) {c c' : Current} (hc : w.current = some c)
    (hl : w.worker.loaded ≠ some c.gen)
    (hgen : c'.gen = c.gen) (hawaits : c'.awaits = true → c.awaits = true)
    (haudio : c'.audio = c.audio ∨ c.awaits = true) : Inv { w with current := some c' } := by
  have hheard := h.chunk c hc
  refine ⟨h.own, fun g hg => ?_, fun c'' heq => ?_, h.seen, h.alive, h.never, fun c'' heq => ?_⟩
  · obtain ⟨c₀, hc₀, rfl⟩ := h.last g hg
    obtain rfl := Option.some.inj (hc.symm.trans hc₀)
    exact absurd hg hl
  · rw [← Option.some.inj heq, hgen]
    exact h.known c hc
  · obtain rfl := Option.some.inj heq
    rw [← hgen] at hl
    refine ⟨fun hg => absurd hg hl, fun hg => absurd hg hl, fun ha => ?_, fun _ hg => absurd hg hl,
      fun hg => absurd hg hl, ?_, ?_⟩
    · rw [hgen]
      exact hheard.silent (hawaits ha)
    · rw [hgen]
      rcases haudio with haudio | ha
      · rw [haudio]
        exact hheard.ordered
      · intro pre hpre
        exact absurd (hpre.subset (List.mem_append_right _ (List.mem_singleton_self _)))
          (hheard.silent ha)
    · rw [hgen]
      rcases hheard.outcome with hf | hfin | ⟨hg, -⟩
      · exact .inl hf
      · exact .inr (.inl hfin)
      · rw [hgen] at hl
        exact absurd hg hl

/-- More audio for the loaded chunk. -/
theorem Heard.append (h : Heard c w) (hl : w.worker.loaded = some c.gen) (pcm : List PcmChunk) :
    Heard (c.append c.gen pcm)
      { w with worker := w.worker.append c.gen pcm, current := some (c.append c.gen pcm) } := by
  obtain ⟨hsources, hloaded, hsome, hawait⟩ := append_loaded pcm hl (h.sink hl)
  obtain ⟨hof, hbuffers, hnofin⟩ := ofGen_audio c.gen (pcm.filterMap toBuffer)
  have hhistory : ofGen c.gen (w.log ++ (w.worker.append c.gen pcm).sinkSources.map .played) =
      w.history c.gen ++ ((pcm.filterMap toBuffer).map (Source.audio c.gen)).map .played := by
    rw [hsources, List.map_append, ← List.append_assoc, ofGen_append, hof]
    rfl
  have haudio : audioOf (w.history c.gen ++
    ((pcm.filterMap toBuffer).map (Source.audio c.gen)).map .played) =
      audioOf (w.history c.gen) ++ pcm.filterMap toBuffer := by
    rw [audioOf_append, hbuffers]
  have hsilent : c.awaits = true →
      fin c.gen ∉ w.history c.gen ++ ((pcm.filterMap toBuffer).map (Source.audio c.gen)).map
        .played := by
    intro ha hin
    exact (List.mem_append.mp hin).elim (h.silent ha) hnofin
  have hnew := c.append_audio pcm
  have hgen : (c.append c.gen pcm).gen = c.gen := c.append_gen c.gen pcm
  have hawaits : (c.append c.gen pcm).awaits = c.awaits := c.append_awaits c.gen pcm
  generalize c.append c.gen pcm = c' at hnew hgen hawaits
  refine ⟨fun _ => hsome, fun _ => ?_, fun ha => ?_, fun ha _ => ?_, fun _ => ?_, ?_, ?_⟩
  · rw [hawaits]
    exact hawait.trans (h.flag hl)
  · rw [hawaits] at ha
    rw [hgen, history, hhistory]
    exact hsilent ha
  · rw [hawaits] at ha
    rw [hgen, history, hhistory, haudio, h.exact ha hl, hnew, if_pos ha]
  · rw [hgen, history, hhistory, haudio, hnew]
    cases ha : c.awaits with
    | true =>
      rw [if_pos rfl, h.exact ha hl]
    | false =>
      rw [if_neg Bool.false_ne_true]
      exact (h.whole hl).trans (List.prefix_append _ _)
  · rw [hgen, history, hhistory, hnew]
    cases ha : c.awaits with
    | true =>
      intro pre hpre
      exact absurd (hpre.subset (List.mem_append_right _ (List.mem_singleton_self _))) (hsilent ha)
    | false => exact h.ordered.append hnofin
  · rw [hgen, hawaits]
    rcases h.outcome with hf | hfin | ⟨-, hs⟩
    · exact .inl hf
    · exact .inr (.inl hfin)
    · refine .inr (.inr ⟨hloaded, hs.imp_right fun hin => ?_⟩)
      show Source.finished c.gen ∈ (w.worker.append c.gen pcm).sinkSources
      rw [hsources]
      exact List.mem_append_left _ hin

/-- More pieces are appended to what plays. -/
theorem Inv.append (h : Inv w) (pcm : List PcmChunk) :
    Inv { w with worker := w.worker.append g pcm, current := w.current.map (·.append g pcm) } := by
  by_cases hl : w.worker.loaded = some g
  · obtain ⟨c, hc, rfl⟩ := h.last g hl
    have hheard := h.chunk c hc
    obtain ⟨hsources, hloaded, -, -⟩ := append_loaded pcm hl (hheard.sink hl)
    rw [hc]
    refine h.joined hc hl (c.append_gen c.gen pcm) (fun x hx => ?_) hsources hloaded
      (hheard.append hl pcm)
    obtain ⟨b, -, rfl⟩ := List.mem_map.mp hx
    rfl
  · rw [append_unloaded pcm hl]
    cases hc : w.current with
    | none =>
      have := h
      rw [show w = { w with current := none } by rw [← hc]] at this
      exact this
    | some c =>
      by_cases hg : c.gen = g
      · subst hg
        refine h.unloaded hc hl (c.append_gen c.gen pcm)
          (fun ha => (c.append_awaits c.gen pcm).symm.trans ha) ?_
        cases ha : c.awaits with
        | true => exact .inr rfl
        | false => exact .inl ((c.append_audio pcm).trans (if_neg (Bool.not_eq_true _ ▸ ha)))
      · have hsame : c.append g pcm = c := if_pos hg
        rw [Option.map_some, hsame, ← hc]
        exact h

/-- The loaded chunk gets its end. -/
theorem Heard.finish (h : Heard c w) (hl : w.worker.loaded = some c.gen) :
    Heard { c with finished := true }
      { w with worker := w.worker.finish c.gen, current := some { c with finished := true } } := by
  obtain ⟨hsources, hloaded, hsome, hawait⟩ := finish_loaded hl (h.sink hl)
  have hdone : Current.awaits { c with finished := true } = false := Bool.and_false _
  have hhistory : ofGen c.gen (w.log ++ (w.worker.finish c.gen).sinkSources.map .played) =
      w.history c.gen ++ [fin c.gen] := by
    rw [hsources, List.map_append, ← List.append_assoc, ofGen_append]
    refine congrArg (w.history c.gen ++ ·) ?_
    exact List.filter_eq_self.mpr fun o ho => List.mem_singleton.mp ho ▸ decide_eq_true rfl
  refine ⟨fun _ => hsome, fun _ => hawait.trans hdone.symm, fun ha => ?_, fun ha => ?_,
    fun _ => ?_, ?_,
    .inr (.inr ⟨hloaded, .inr ?_⟩)⟩
  · cases hdone.symm.trans ha
  · cases hdone.symm.trans ha
  · rw [history, hhistory, audioOf_append]
    exact (h.whole hl).trans (List.prefix_append _ _)
  · rw [history, hhistory]
    exact h.ordered.snoc fun _ => h.whole hl
  · show Source.finished c.gen ∈ (w.worker.finish c.gen).sinkSources
    rw [hsources]
    exact List.mem_append_right _ (List.mem_singleton_self _)

/-- A finish is put behind the last piece. -/
theorem Inv.finish (h : Inv w) :
    Inv { w with worker := w.worker.finish g, current := w.current.map (·.finish g) } := by
  by_cases hl : w.worker.loaded = some g
  · obtain ⟨c, hc, rfl⟩ := h.last g hl
    have hheard := h.chunk c hc
    obtain ⟨hsources, hloaded, -, -⟩ := finish_loaded hl (hheard.sink hl)
    have hdone : c.finish c.gen = { c with finished := true } := if_pos rfl
    rw [hc, Option.map_some, hdone]
    refine h.joined hc hl rfl (fun x hx => ?_) hsources hloaded (hheard.finish hl)
    rw [List.mem_singleton.mp hx]
    rfl
  · rw [finish_unloaded hl]
    cases hc : w.current with
    | none =>
      have := h
      rw [show w = { w with current := none } by rw [← hc]] at this
      exact this
    | some c =>
      by_cases hg : c.gen = g
      · subst hg
        have hdone : c.finish c.gen = { c with finished := true } := if_pos rfl
        rw [Option.map_some, hdone]
        refine h.unloaded hc hl rfl (fun ha => ?_) (.inl rfl)
        cases (Bool.and_false c.isOpen).symm.trans ha
      · have hsame : c.finish g = c := if_neg hg
        rw [Option.map_some, hsame, ← hc]
        exact h

/-- Each chunk is played once. -/
def Fresh (w : World) : Event → Prop
  | .play _ _ _ _ gen _ => gen ∉ w.gens
  | _ => True

/-- Every event keeps the invariant, if a chunk comes under a new generation. -/
theorem Inv.step (h : Inv w) {e : Event} (hf : w.Fresh e) (hs : w.step e = some w') : Inv w' := by
  have hsame : ∀ worker : Worker, w.worker.Keeps worker → Inv { w with worker := worker } := by
    intro worker hk
    have := h.keeps (r := (worker, [])) hk fun o ho => absurd ho List.not_mem_nil
    rwa [after, List.append_nil] at this
  have hsink : ∀ f : Sink → Sink, (∀ s, (f s).sources = s.sources) →
      (w.worker.sink.map f).map (·.sources) = w.worker.sink.map (·.sources) := by
    intro f hf
    rw [Option.map_map]
    exact congrFun (congrArg Option.map (funext hf)) _
  cases e with
  | play ep pcm item chunk gen isOpen =>
    obtain rfl := Option.some.inj hs
    exact h.play hf
  | append gen pcm =>
    obtain rfl := Option.some.inj hs
    exact h.append pcm
  | finish gen =>
    obtain rfl := Option.some.inj hs
    exact h.finish
  | pause =>
    obtain rfl := Option.some.inj hs
    exact hsame _ ⟨rfl, hsink _ fun _ => rfl, rfl⟩
  | resume =>
    obtain rfl := Option.some.inj hs
    exact hsame _ ⟨rfl, hsink _ fun _ => rfl, rfl⟩
  | stop =>
    obtain rfl := Option.some.inj hs
    exact h.stop
  | volume percent =>
    obtain rfl := Option.some.inj hs
    exact hsame _ ⟨rfl, hsink _ fun _ => rfl, rfl⟩
  | clip ep samples sampleRate =>
    obtain rfl := Option.some.inj hs
    exact h.clip ep samples sampleRate
  | deviceLost stream reason =>
    obtain rfl := Option.some.inj hs
    exact h.deviceLost stream reason
  | played =>
    obtain ⟨r, hr, rfl⟩ := Option.map_eq_some_iff.mp hs
    exact h.played hr

end World

end Sonara.Output
