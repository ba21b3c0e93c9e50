import Sonara.L3.Turnovers

/-!
# What an input applies of the summaries (#88)

`apply` speaks or stores a release, and only in three places: a settle window that
releases a short turn, an answer of the summarizer, and a slot given up. `Applies` says
it of an input's own output: the releases applied come first, in order, and the rest
speaks none. `Serving` says what the same input does to the slots.
-/

namespace Sonara.L3

open Sonara Text
open Sonara.L2 (ChannelId)
open Sonara.Prose (Speech)

/-- `apply` may have returned the action. -/
def Action.MayRelease : Action → Prop
  | .speak _ _ _ release _ => release = true
  | .store _ _ decision _ => decision = none
  | .earcon e => e = .summaryFailed
  | _ => False

/-- What a job leaves, with the summary it was answered with. -/
def Job.release (job : Job) (summary : Option Text) : Release :=
  ⟨job.channel, job.gen, job.text, job.leadin, summary⟩

/-- The release before it was summarized. -/
def Release.raw (rel : Release) : Release := { rel with summary := none }

/-- The short turn of a channel: its prose not voiced yet. -/
def Rules.shortTurn (r : Rules) (ch : ChannelId) : Release :=
  let c := r.get ch
  ⟨ch, c.gen, trim (join [' '] (c.prose.drop c.voiced)), false, none⟩

namespace World

variable (s : Speech) (w : World)

/-- The input applies the releases `rels`: they are what its output says first, in
order. The rest speaks no release; where a release is applied, none of the rest could
be one. -/
def Applies (i : Input) (rels : List Release) : Prop :=
  ∃ rest, (w.step s i).2 = rels.flatMap (w.rules.apply s) ++ rest ∧
    (∀ a ∈ rest, ¬a.Released) ∧ (rels ≠ [] → ∀ a ∈ rest, ¬a.MayRelease)

/-- What the input gives a slot to, if `next_seq` moves: the job that goes out, or else
the short turn of the settle window that elapsed. -/
def allocates (i : Input) : List Release :=
  if (w.step s i).1.rules.buffer.next = w.rules.buffer.next then []
  else match dispatched (w.step s i).2, i with
    | job :: _, _ => [job.release none]
    | [], .fire k _ =>
      match w.timers[k]? with
      | some (.settle ch _) => [w.rules.shortTurn ch]
      | _ => []
    | [], _ => []

end World

/-- What an input does to the slots: the buffer after it, the releases it applies and
the slots it gives out. -/
inductive Serving (w : World) (out : List Action) :
    Input → Lib.Reorder Release → List Release → List Release → Prop
  | still {i : Input} (jobs : ∀ job ∈ dispatched out, job.seq = none)
      (late : ∀ k summary, i = .answer k summary → w.jobs[k]? = none) :
      Serving w out i w.rules.buffer [] []
  /-- A lead-in's summary needs no slot. -/
  | direct {k : Nat} {summary : Option Text} {job : Job} (hjob : w.jobs[k]? = some job)
      (free : job.seq = none) (none : dispatched out = []) :
      Serving w out (.answer k summary) w.rules.buffer [job.release summary] []
  | short {k : Nat} {focused : Option ChannelId} {ch : ChannelId} {g : Nat}
      (ht : w.timers[k]? = some (.settle ch g)) (none : dispatched out = []) :
      Serving w out (.fire k focused)
        (w.rules.buffer.alloc.1.land w.rules.buffer.alloc.2 (w.rules.shortTurn ch)).1
        (w.rules.buffer.alloc.1.land w.rules.buffer.alloc.2 (w.rules.shortTurn ch)).2
        [w.rules.shortTurn ch]
  | sent {k : Nat} {focused : Option ChannelId} {job : Job} (sent : dispatched out = [job])
      (slot : job.seq = some w.rules.buffer.next) :
      Serving w out (.fire k focused)
        (w.rules.buffer.alloc.1.watch w.rules.buffer.alloc.2 (job.release none)) []
          [job.release none]
  | land {k seq : Nat} {summary : Option Text} {job : Job} (hjob : w.jobs[k]? = some job)
      (slot : job.seq = some seq) (none : dispatched out = []) :
      Serving w out (.answer k summary) (w.rules.buffer.land seq (job.release summary)).1
        (w.rules.buffer.land seq (job.release summary)).2 []
  | expire {k : Nat} {focused : Option ChannelId} (seq : Nat) (none : dispatched out = []) :
      Serving w out (.fire k focused) (w.rules.buffer.expire seq).1 (w.rules.buffer.expire seq).2 []

namespace Rules

variable {r r' : Rules} {s : Speech} {ch : ChannelId}

/-! ## What `apply` reads -/

/-- Every channel has the generation it had, and the settings are the same. -/
structure SameGens (r r' : Rules) : Prop where
  settings : r'.settings = r.settings
  gens : ∀ b : ChannelId, r'.turns[b]?.map Turn.gen = r.turns[b]?.map Turn.gen

theorem SameGens.refl (r : Rules) : SameGens r r := ⟨rfl, fun _ => rfl⟩

theorem SameGens.apply (h : SameGens r r') (rel : Release) : r'.apply s rel = r.apply s rel := by
  unfold Rules.apply say earcon
  rw [h.gens, h.settings]

theorem SameGens.applied (h : SameGens r r') (rels : List Release) :
    rels.flatMap (r'.apply s) = rels.flatMap (r.apply s) := by
  rw [show r'.apply s = r.apply s from funext h.apply]

/-- A turn is written that keeps its generation. -/
theorem SameGens.set (h : SameGens r r') {c : Turn} (hmem : ch ∈ r'.turns)
    (hc : c.gen = (r'.get ch).gen) : SameGens r (r'.set ch c) where
  settings := h.settings
  gens b := by
    refine Eq.trans ?_ (h.gens b)
    by_cases hb : b = ch
    · subst hb
      rw [get?_of_mem (mem_set_self c), get?_of_mem hmem, get_set_self]
      exact congrArg some hc
    · rw [set_frame hb]

/-- What a recap does to the slots. -/
inductive Dispatches (r : Rules) (s : Speech) (ch : ChannelId) (p : Rules × List Action) : Prop
  | still (h : Still r p.1 p.2)
  | leadIn {job : Job} (hout : p.2 = [.summarize job]) (free : job.seq = none)
      (hbuffer : p.1.buffer = r.buffer)
  | sent {job : Job} (hout : p.2 = [.timer r.settings.summaries.watchdog (.watchdog r.buffer.next),
        .summarize job]) (slot : job.seq = some r.buffer.next)
      (hbuffer : p.1.buffer = r.buffer.alloc.1.watch r.buffer.alloc.2 (job.release none))
  | short (loud : r.settings.muteLevel = 0) (hsettings : p.1.settings = r.settings)
      (hout : p.2 = (r.buffer.alloc.1.land r.buffer.alloc.2 (r.shortTurn ch)).2.flatMap (r.apply s))
      (hbuffer : p.1.buffer = (r.buffer.alloc.1.land r.buffer.alloc.2 (r.shortTurn ch)).1)

/-- The window's own writes change nothing that the recap reads. -/
theorem Dispatches.after {r₀ : Rules} {p : Rules × List Action} (h : Dispatches r s ch p)
    (hgens : SameGens r₀ r)
    (hbuffer : r.buffer = r₀.buffer) (hshort : r.shortTurn ch = r₀.shortTurn ch) :
    Dispatches r₀ s ch p := by
  cases h with
  | still h => exact .still ⟨h.buffer.trans hbuffer, h.dispatched, h.bare⟩
  | leadIn hout free hb => exact .leadIn hout free (hb.trans hbuffer)
  | sent hout slot hb =>
    rw [hbuffer] at hout slot hb
    rw [hgens.settings] at hout
    exact .sent hout slot hb
  | short loud hs hout hb =>
    rw [hgens.settings] at loud hs
    rw [hgens.applied, hbuffer, hshort] at hout
    rw [hbuffer, hshort] at hb
    exact .short loud hs hout hb

end Rules

/-! ## Inputs -/

namespace World

variable {s : Speech} {w : World}

/-- The input does to the slots what it applies of them, and gives out the slots that it
allocates. -/
def Accounts (s : Speech) (w : World) (i : Input) : Prop :=
  ∃ rels given, Serving w (w.step s i).2 i (w.step s i).1.rules.buffer rels given ∧
    w.Applies s i rels ∧ w.allocates s i = given

theorem Accounts.of {i : Input} {b : Lib.Reorder Release} {rels given : List Release}
    (hb : (w.step s i).1.rules.buffer = b) (hserve : Serving w (w.step s i).2 i b rels given)
    (happlies : w.Applies s i rels) (hgiven : w.allocates s i = given) : w.Accounts s i :=
  ⟨rels, given, hb ▸ hserve, happlies, hgiven⟩

end World

end Sonara.L3
