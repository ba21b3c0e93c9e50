import Sonara.L1.Paths

/-!
# The output protocol of the reader

The audio output as the reader may assume it: at most one chunk loaded, playing
or paused. `Output.carryOut` says when an effect is *legal*: a chunk is played
only into an empty output and under a new `gen`, paused only while it plays,
resumed only while paused, stopped only while loaded. `replayRun` replays a whole
run, the audio events included, against an empty output.

`InStep` ties the output to the reader inside a call, and every atom keeps it, so
`output_protocol` holds of every run: the replay is legal and the output's loaded
chunk is the reader's. Together with `Settled` the reader is never silently
stuck: a current item that is not paused has a chunk loaded.
-/

namespace Sonara.L1

open Sonara (Text)

/-- The audio output. -/
structure Output where
  loaded : Option Nat
  paused : Bool
  /-- The largest `gen` played so far. -/
  lastGen : Nat
  deriving DecidableEq, Repr

namespace Output

/-- Nothing loaded. -/
def empty : Output := { loaded := none, paused := false, lastGen := 0 }

/-- Carry out one effect; `none` when it is illegal. -/
def carryOut (o : Output) : Effect → Option Output
  | .playChunk _ _ g =>
    if o.loaded = none ∧ o.lastGen < g then some { loaded := some g, paused := false, lastGen := g }
    else none
  | .pauseOutput =>
    if o.loaded.isSome ∧ o.paused = false then some { o with paused := true } else none
  | .resumeOutput =>
    if o.loaded.isSome ∧ o.paused = true then some { o with paused := false } else none
  | .stopOutput =>
    if o.loaded.isSome then some { o with loaded := none, paused := false } else none
  | _ => some o

/-- Carry out effects in order. -/
def replay (o : Output) : List Effect → Option Output
  | [] => some o
  | e :: es => (o.carryOut e).bind fun o' => o'.replay es

/-- The output once it has reported an audio event: its chunk ended, unless the
event only says that it started. An event about another chunk changes nothing. -/
def report (o : Output) : Input → Output
  | .onAudio (.chunkStarted _) => o
  | .onAudio e => if o.loaded = some e.gen then { o with loaded := none, paused := false } else o
  | _ => o

theorem replay_append (o : Output) (es es' : List Effect) :
    o.replay (es ++ es') = (o.replay es).bind fun o' => o'.replay es' := by
  induction es generalizing o with
  | nil => rfl
  | cons e es ih =>
    rw [List.cons_append]
    show ((o.carryOut e).bind fun o' => o'.replay (es ++ es')) = _
    rw [replay, Option.bind_assoc]
    congr 1
    funext o'
    exact ih o'

theorem replay_silent (o : Output) {es : List Effect} (h : ∀ e ∈ es, e.Silent) :
    o.replay es = some o := by
  induction es with
  | nil => rfl
  | cons e es ih =>
    have he : o.carryOut e = some o := by
      have hs := h e (List.mem_cons_self ..)
      cases e with
      | mute | unmute | setVolume | emit => rfl
      | _ => exact hs.elim
    rw [replay, he]
    exact ih (fun e' he' => h e' (List.mem_cons_of_mem _ he'))

end Output

/-- Replay a run from reader `r` and output `o`: each call's audio event is what
the output reports, each call's effects are carried out in order. -/
def replayFrom (split : Chunking → Text → List Text) (r : Reader) (o : Output) :
    List Input → Option Output
  | [] => some o
  | i :: is =>
    ((o.report i).replay (r.call split i).fx).bind fun o' =>
      replayFrom split (r.call split i).r o' is

/-- Replay a run of a new reader against an empty output. -/
def replayRun (split : Chunking → Text → List Text) (is : List Input) : Option Output :=
  replayFrom split Reader.new .empty is

/-- The effects of one more call, replayed on the output with what it reported. -/
theorem replayFrom_snoc (split : Chunking → Text → List Text) (r : Reader) (o : Output)
    (is : List Input) (i : Input) :
    replayFrom split r o (is ++ [i]) = (replayFrom split r o is).bind fun o' =>
      (o'.report i).replay (((machine split).stateFrom r is).call split i).fx := by
  induction is generalizing r o with
  | nil =>
    show ((o.report i).replay (r.call split i).fx).bind some = _
    exact Option.bind_fun_some _
  | cons j is ih =>
    rw [List.cons_append]
    show ((o.report j).replay (r.call split j).fx).bind (fun o' =>
      replayFrom split (r.call split j).r o' (is ++ [i])) = _
    rw [replayFrom, Option.bind_assoc]
    congr 1
    funext o'
    exact ih _ o'

/-! ## The reader and the output in step -/

/-- Output `o` is in step with the reader: the same chunk is loaded, paused there
exactly when the reader is paused, and its `gen` is not ahead of the reader's. -/
structure InStep (o : Output) (r : Reader) : Prop where
  loaded : o.loaded = r.loaded
  paused : r.loaded.isSome → o.paused = r.paused
  idle : r.loaded = none → o.paused = false
  gen : o.lastGen ≤ r.gen

/-- Replaying the effects of the call so far from `o₀` is legal and in step. -/
def Followed (o₀ : Output) (c : Call) : Prop := ∃ o, o₀.replay c.fx = some o ∧ InStep o c.r

variable {fin : Current → ItemPhase → Prop} {c c' : Call} {o₀ : Output}

/-- One more effect, carried out. -/
theorem Followed.snoc {e : Effect} {o p : Output} {r : Reader} (hr : o₀.replay c.fx = some o)
    (he : o.carryOut e = some p) (h : InStep p r) : Followed o₀ ⟨r, c.fx ++ [e]⟩ := by
  refine ⟨p, ?_, h⟩
  show o₀.replay (c.fx ++ [e]) = some p
  rw [Output.replay_append, hr]
  show (o.carryOut e).bind some = some p
  rw [he]
  rfl

/-- Every atom is followed by the output that replays it. -/
theorem Atom.followed (a : Atom fin c c') (h : Followed o₀ c) : Followed o₀ c' := by
  obtain ⟨o, hr, ho⟩ := h
  cases a with
  | view same silent =>
    refine ⟨o, ?_, ?_⟩
    · show o₀.replay (c.fx ++ _) = some o
      rw [Output.replay_append, hr]
      exact o.replay_silent silent
    · refine ⟨ho.loaded.trans same.loaded.symm, fun hl => ?_,
        fun hl => ho.idle (same.loaded ▸ hl), ?_⟩
      · rw [same.paused]; exact ho.paused (same.loaded ▸ hl)
      · rw [same.gen]; exact ho.gen
  | flag p w unloaded =>
    refine ⟨o, hr, ho.loaded, fun hl => ?_, ho.idle, ho.gen⟩
    rw [unloaded] at hl
    cases hl
  | pauseOutput quiet loaded playing =>
    refine .snoc (p := { o with paused := true }) hr ?_
      ⟨ho.loaded, fun _ => rfl, fun hl => ?_, ho.gen⟩
    · exact if_pos ⟨by rw [ho.loaded]; exact loaded, by rw [ho.paused loaded]; exact playing⟩
    · exact absurd loaded (by rw [hl]; simp)
  | resumeOutput quiet loaded paused =>
    refine .snoc (p := { o with paused := false }) hr ?_
      ⟨ho.loaded, fun _ => rfl, fun _ => rfl, ho.gen⟩
    exact if_pos ⟨by rw [ho.loaded]; exact loaded, by rw [ho.paused loaded]; exact paused⟩
  | stopOutput quiet loaded =>
    refine .snoc (p := { o with loaded := none, paused := false }) hr ?_
      ⟨rfl, fun hl => (nomatch hl), fun _ => rfl, ho.gen⟩
    exact if_pos (by rw [ho.loaded]; exact loaded)
  | retire => exact .snoc hr rfl ⟨ho.loaded, ho.paused, ho.idle, ho.gen⟩
  | dropFront => exact .snoc hr rfl ⟨ho.loaded, ho.paused, ho.idle, ho.gen⟩
  | refuse => exact .snoc hr rfl ⟨ho.loaded, ho.paused, ho.idle, ho.gen⟩
  | admitBack => exact ⟨o, hr, ho.loaded, ho.paused, ho.idle, ho.gen⟩
  | admitFront => exact ⟨o, hr, ho.loaded, ho.paused, ho.idle, ho.gen⟩
  | start => exact .snoc hr rfl ⟨ho.loaded, ho.paused, ho.idle, ho.gen⟩
  | request => exact .snoc hr rfl ⟨ho.loaded, ho.paused, ho.idle, ho.gen⟩
  | play unloaded unpaused =>
    refine .snoc hr (if_pos ⟨by rw [ho.loaded]; exact unloaded, Nat.lt_succ_of_le ho.gen⟩) ?_
    exact ⟨rfl, fun _ => unpaused.symm, fun hl => (nomatch hl), Nat.le_refl _⟩
  | moveChunk => exact ⟨o, hr, ho.loaded, ho.paused, ho.idle, ho.gen⟩

/-- The output's report and the reader's `enter` agree. -/
theorem InStep.enter {o : Output} {r : Reader} (h : InStep o r) (i : Input) :
    InStep (o.report i) (r.enter i) := by
  have hstale : ∀ e : AudioEvent, r.loaded ≠ some e.gen →
      InStep (o.report (.onAudio e)) (r.enter (.onAudio e)) := by
    intro e hg
    have hr : r.enter (.onAudio e) = r := if_neg hg
    have ho : o.report (.onAudio e) = o := by
      cases e with
      | chunkStarted g => rfl
      | _ => exact if_neg (by rw [h.loaded]; exact hg)
    rw [hr, ho]
    exact h
  cases i with
  | onAudio e =>
    by_cases hg : r.loaded = some e.gen
    · have hr : r.enter (.onAudio e) = r.hear e := if_pos hg
      rw [hr]
      cases e with
      | chunkStarted g => exact ⟨h.loaded, h.paused, h.idle, h.gen⟩
      | chunkFinished g =>
        have ho : o.report (.onAudio (.chunkFinished g)) =
            { o with loaded := none, paused := false } :=
          if_pos (by rw [h.loaded]; exact hg)
        rw [ho]
        exact ⟨rfl, fun hl => (nomatch hl), fun _ => rfl, h.gen⟩
      | failed g reason =>
        have ho : o.report (.onAudio (.failed g reason)) =
            { o with loaded := none, paused := false } :=
          if_pos (by rw [h.loaded]; exact hg)
        rw [ho]
        exact ⟨rfl, fun hl => (nomatch hl), fun _ => rfl, h.gen⟩
    · exact hstale e hg
  | _ => exact h

/-- **One call is legal and keeps the output in step.** -/
theorem call_followed (split : Chunking → Text → List Text) {r : Reader} (hr : InRange r)
    (hs : Settled r) {o : Output} (h : InStep o r) (i : Input) :
    Followed (o.report i) (r.call split i) :=
  (call_path split hr hs i).invariant (P := Followed (o.report i)) Atom.followed
    ⟨o.report i, rfl, h.enter i⟩

/-- **Every run is legal and leaves the output in step.** -/
theorem run_followed (split : Chunking → Text → List Text) (is : List Input) :
    ∃ o, replayRun split is = some o ∧ InStep o ((machine split).state is) := by
  refine (machine split).run_induction
    (P := fun is r _ => ∃ o, replayRun split is = some o ∧ InStep o r)
    ⟨.empty, rfl, rfl, fun _ => rfl, fun _ => rfl, Nat.le_refl _⟩ ?_ is
  rintro is i ⟨o, hrun, ho⟩
  obtain ⟨o', hrep, ho'⟩ :=
    call_followed split (state_inRange split is) (state_settled split is) ho i
  refine ⟨o', ?_, ho'⟩
  rw [replayRun, replayFrom_snoc]
  rw [replayRun] at hrun
  rw [hrun]
  exact hrep

/-- A stale audio event changes nothing and emits nothing. -/
theorem stale_onAudio (split : Chunking → Text → List Text) {r : Reader} {e : AudioEvent}
    (h : r.loaded ≠ some e.gen) : (machine split).step r (.onAudio e) = (r, []) := by
  show ((r.onAudio e).r, (r.onAudio e).fx) = (r, [])
  unfold Reader.onAudio
  rw [if_pos h]

/-- The output protocol after a run. -/
structure OutputProtocol (split : Chunking → Text → List Text) (is : List Input) : Prop where
  /-- The replay is legal, and the output's loaded chunk is the reader's. -/
  replay : ∃ o, replayRun split is = some o ∧ o.loaded = ((machine split).state is).loaded
  /-- A chunk is played only by a call that leaves the reader unpaused and that
  chunk loaded. -/
  played : ∀ i n k g, .playChunk n k g ∈ (machine split).answer is i →
    ((machine split).state (is ++ [i])).paused = false ∧
      ((machine split).state (is ++ [i])).loaded = some g
  /-- Never silently stuck. -/
  playing : ((machine split).state is).current.isSome → ((machine split).state is).paused = false →
    ((machine split).state is).loaded.isSome
  loaded : ((machine split).state is).loaded.isSome → ((machine split).state is).current.isSome
  paused : ((machine split).state is).paused = true → ((machine split).state is).current.isSome
  stepWait : ((machine split).state is).stepWait = true →
    ((machine split).state is).paused = true ∧ ((machine split).state is).current.isSome ∧
      ((machine split).state is).loaded = none
  stale : ∀ e : AudioEvent, ((machine split).state is).loaded ≠ some e.gen →
    (machine split).step ((machine split).state is) (.onAudio e) = ((machine split).state is, [])

/-- **The output protocol holds after every run.** -/
theorem output_protocol (split : Chunking → Text → List Text) (is : List Input) :
    OutputProtocol split is := by
  have hs := state_settled split is
  obtain ⟨o, hrun, ho⟩ := run_followed split is
  refine ⟨⟨o, hrun, ho.loaded⟩, fun i n k g hg => ?_, hs.playing, hs.loaded, hs.paused_current,
    fun hw => ⟨(hs.stepWait hw).1, hs.stepWait_current hw, (hs.stepWait hw).2⟩,
    fun e he => stale_onAudio split he⟩
  have hopen := (call_path split (state_inRange split is) hs i).opened (opened_nil _)
  obtain ⟨hload, hp, _⟩ := hopen.played n k g hg
  rw [Lib.Machine.state_snoc]
  exact ⟨hp, hload⟩

end Sonara.L1
