import Sonara.L3.Types
import Sonara.Lib.Machine
import Mathlib.Data.List.Chain

/-!
# Earcons one after the other (`sequencer.rs`, #238)

`Schedule` gives each earcon a start time. Times are nanoseconds on the agent's clock; an
input says how long after the one before it comes, so time never goes back.

`Traced` keeps beside the schedule the earcons that were admitted and not dropped, in
admission order, and the ends of the key sounds. The invariant (`Traced.Ok`): the schedule
holds the last of the earcons, all those before have ended, and the scheduled ones follow
each other by `gap`.
-/

namespace Sonara.L3

def ms (n : Nat) : Nat := n * 1000000

/-- The pause between two earcons that follow each other. -/
def earconGap : Nat := ms 60

/-- The most earcons waiting or playing at one time. -/
def earconMax : Nat := 3

/-- How long after a key's sound the chimes and the speech that follow it wait. -/
def afterKey : Nat := ms 300

/-- Why an earcon was not scheduled. -/
inductive Refusal where
  | duplicate
  | full
  deriving DecidableEq, Repr

/-- An earcon waiting or playing, with when it starts and ends. -/
structure EarconSlot where
  earcon : Earcon
  start : Nat
  finish : Nat
  deriving DecidableEq, Repr

structure Schedule where
  slots : List EarconSlot := []
  /-- When the last key's sound ends. -/
  keyEnd : Option Nat := none
  deriving DecidableEq, Repr

namespace Schedule

variable (q : Schedule)

/-- A key's sound of `len` plays at `now`. -/
def keySound (len now : Nat) : Schedule :=
  let finish := now + len
  { q with keyEnd := some (q.keyEnd.elim finish (max · finish)) }

/-- The earliest start for what is scheduled at `now`. -/
def floor (now : Nat) : Nat :=
  match q.keyEnd with
  | some finish => if now < finish + afterKey then finish + afterKey else now
  | none => now

/-- Schedule `e`, lasting `len`, at `now`: its start time, or why it is dropped. -/
def admitEarcon (e : Earcon) (len now : Nat) : Schedule × Except Refusal Nat :=
  let q := { q with slots := q.slots.filter (now < ·.finish) }
  let floor := q.floor now
  match q.slots.getLast? with
  | some last =>
    if last.earcon = e then (q, .error .duplicate)
    else if earconMax ≤ q.slots.length then (q, .error .full)
    else
      let start := max (last.finish + earconGap) floor
      ({ q with slots := q.slots ++ [⟨e, start, start + len⟩] }, .ok start)
  | none => ({ q with slots := q.slots ++ [⟨e, floor, floor + len⟩] }, .ok floor)

/-- Forget the earcons that have not started at `now`. -/
def dropWaiting (now : Nat) : Schedule := { q with slots := q.slots.filter (·.start ≤ now) }

/-- When the last earcon scheduled has ended and its gap passed. -/
def quietAt (now : Nat) : Nat :=
  let floor := q.floor now
  q.slots.getLast?.elim floor fun last => max (last.finish + earconGap) floor

/-! ## What each operation gives -/

theorem floor_ge (now : Nat) : now ≤ q.floor now := by
  unfold floor
  split
  · split <;> omega
  · exact Nat.le_refl now

/-- The floor waits for the last key's sound. -/
theorem floor_key {finish : Nat} (now : Nat) (h : q.keyEnd = some finish) :
    finish + afterKey ≤ q.floor now := by
  unfold floor
  rw [h]
  dsimp only
  split <;> omega

theorem quietAt_floor (now : Nat) : q.floor now ≤ q.quietAt now := by
  unfold quietAt
  cases q.slots.getLast? with
  | none => exact Nat.le_refl _
  | some last =>
    rw [Option.elim_some]
    exact Nat.le_max_right _ _

/-- Speech waits for the last earcon scheduled. -/
theorem quietAt_last (now : Nat) {last : EarconSlot} (h : q.slots.getLast? = some last) :
    last.finish + earconGap ≤ q.quietAt now := by
  unfold quietAt
  rw [h, Option.elim_some]
  exact Nat.le_max_left _ _

/-- What `admit` does: it forgets the earcons that have ended, and schedules `e` behind the
last one left, or refuses it. -/
theorem admit_spec (e : Earcon) (len now : Nat) :
    (∃ why, q.admitEarcon e len now = ({ q with slots := q.slots.filter (now < ·.finish) },
      .error why)) ∨
    ∃ start, q.admitEarcon e len now = ({ q with
        slots := q.slots.filter (now < ·.finish) ++ [⟨e, start, start + len⟩] }, .ok start) ∧
      q.floor now ≤ start ∧ (q.slots.filter (now < ·.finish)).length < earconMax ∧
      ∀ last, (q.slots.filter (now < ·.finish)).getLast? = some last →
        last.finish + earconGap ≤ start ∧ last.earcon ≠ e := by
  unfold admitEarcon
  dsimp only
  split
  next last hlast =>
    split
    · exact .inl ⟨_, rfl⟩
    next hne =>
      split
      · exact .inl ⟨_, rfl⟩
      next hroom =>
        refine .inr ⟨_, rfl, Nat.le_max_right _ _, Nat.lt_of_not_le hroom, fun last' hlast' => ?_⟩
        obtain rfl := Option.some.inj (hlast.symm.trans hlast')
        exact ⟨Nat.le_max_left _ _, hne⟩
  next hnone =>
    refine .inr ⟨_, rfl, Nat.le_refl _, ?_, fun last hlast => ?_⟩
    · rw [List.getLast?_eq_none_iff.mp hnone]
      decide
    · rw [hnone] at hlast
      cases hlast

end Schedule

/-- What happens: an earcon is admitted, a key sounds, or the waiting ones are dropped. -/
inductive SequencerCall where
  | admitEarcon (e : Earcon) (len : Nat)
  | keySound (len : Nat)
  | dropWaiting
  deriving DecidableEq, Repr

/-- A call, and how long after the one before it comes. -/
structure SequencerInput where
  after : Nat
  call : SequencerCall
  deriving DecidableEq, Repr

/-- The schedule at a time, with the earcons admitted and not dropped and the ends of the key
sounds so far. -/
structure Traced where
  schedule : Schedule := {}
  now : Nat := 0
  kept : List EarconSlot := []
  keys : List Nat := []

namespace Traced

variable {t : Traced}

/-- The earcon that an `admit` schedules. -/
def admitted (e : Earcon) (len : Nat) : Except Refusal Nat → List EarconSlot
  | .ok start => [⟨e, start, start + len⟩]
  | .error _ => []

def step (t : Traced) (i : SequencerInput) : Traced :=
  let now := t.now + i.after
  match i.call with
  | .admitEarcon e len =>
    let p := t.schedule.admitEarcon e len now
    { t with schedule := p.1, now := now, kept := t.kept ++ admitted e len p.2 }
  | .keySound len =>
    { t with schedule := t.schedule.keySound len now, now := now, keys := t.keys ++ [now + len] }
  | .dropWaiting =>
    { t with schedule := t.schedule.dropWaiting now, now := now, kept := t.kept.filter (·.start ≤ now) }

/-- The invariant. -/
structure Ok (t : Traced) : Prop where
  shown : ∃ done, t.kept = done ++ t.schedule.slots ∧ ∀ x ∈ done, x.finish ≤ t.now
  ordered : t.kept.Pairwise fun a b => a.finish ≤ b.start
  proper : ∀ x ∈ t.kept, x.start ≤ x.finish
  apart : t.schedule.slots.Pairwise fun a b => a.finish + earconGap ≤ b.start
  distinct : t.schedule.slots.IsChain fun a b => a.earcon ≠ b.earcon
  bounded : t.schedule.slots.length ≤ earconMax
  keys : ∀ k ∈ t.keys, ∃ finish, t.schedule.keyEnd = some finish ∧ k ≤ finish

theorem Ok.fresh : ({} : Traced).Ok where
  shown := ⟨[], rfl, fun _ h => absurd h List.not_mem_nil⟩
  ordered := .nil
  proper _ h := absurd h List.not_mem_nil
  apart := .nil
  distinct := .nil
  bounded := Nat.zero_le _
  keys _ h := absurd h List.not_mem_nil

/-- A list in which `p` goes on once it holds is its `p` part behind the rest. -/
theorem filter_behind {α : Type} {p : α → Bool} {l : List α} (h : l.Pairwise fun a b => p a → p b) :
    ∃ done, l = done ++ l.filter p ∧ ∀ x ∈ done, ¬p x := by
  induction l with
  | nil => exact ⟨[], rfl, fun _ h => absurd h List.not_mem_nil⟩
  | cons a l ih =>
    obtain ⟨ha, hl⟩ := List.pairwise_cons.mp h
    by_cases hp : p a
    · have hall : (a :: l).filter p = a :: l := by
        refine List.filter_eq_self.mpr fun x hx => ?_
        rcases List.mem_cons.mp hx with rfl | hx
        · exact hp
        · exact ha x hx hp
      exact ⟨[], hall.symm, fun _ h => absurd h List.not_mem_nil⟩
    · obtain ⟨done, heq, hdone⟩ := ih hl
      refine ⟨a :: done, ?_, fun x hx => ?_⟩
      · rw [List.filter_cons_of_neg hp, List.cons_append, ← heq]
      · rcases List.mem_cons.mp hx with rfl | hx
        · exact hp
        · exact hdone x hx

/-- A list in which `p` held before once it holds starts with its `p` part. -/
theorem filter_front {α : Type} {p : α → Bool} {l : List α} (h : l.Pairwise fun a b => p b → p a) :
    l.filter p <+: l := by
  induction l with
  | nil => exact List.nil_prefix
  | cons a l ih =>
    obtain ⟨ha, hl⟩ := List.pairwise_cons.mp h
    by_cases hp : p a
    · rw [List.filter_cons_of_pos hp]
      exact List.cons_prefix_cons.mpr ⟨rfl, ih hl⟩
    · have hnone : (a :: l).filter p = [] := by
        refine List.filter_eq_nil_iff.mpr fun x hx => ?_
        rcases List.mem_cons.mp hx with rfl | hx
        · exact hp
        · exact fun hpx => hp (ha x hx hpx)
      rw [hnone]
      exact List.nil_prefix

/-- The earcons that end later were admitted later. -/
theorem Ok.later (h : t.Ok) (now : Nat) : t.kept.Pairwise fun a b => now < a.finish →
    now < b.finish := by
  refine h.ordered.imp_of_mem fun {a b} _ hb hab hnow => ?_
  have hb' := h.proper b hb
  omega

/-- The scheduled earcons that have not ended at `now` are the last ones. -/
theorem Ok.gone (h : t.Ok) (now : Nat) : ∃ gone,
    t.schedule.slots = gone ++ t.schedule.slots.filter
    (now < ·.finish) ∧ ∀ x ∈ gone, x.finish ≤ now := by
  have hslots : t.schedule.slots.Pairwise fun a b => decide (now < a.finish) →
      decide (now < b.finish) := by
    obtain ⟨done, hkept, -⟩ := h.shown
    have hlater := h.later now
    rw [hkept] at hlater
    refine (List.pairwise_append.mp hlater).2.1.imp fun hab hlt => ?_
    exact decide_eq_true (hab (of_decide_eq_true hlt))
  obtain ⟨gone, hgone, hended⟩ := filter_behind hslots
  refine ⟨gone, hgone, fun x hx => ?_⟩
  have hx := hended x hx
  rw [decide_eq_true_eq] at hx
  omega

/-- The earcons that have ended are forgotten. -/
def forget (t : Traced) (now : Nat) : Traced :=
  { t with now := now, schedule := { t.schedule with slots := t.schedule.slots.filter (now < ·.finish) } }

theorem Ok.forget (h : t.Ok) {now : Nat} (hnow : t.now ≤ now) : (t.forget now).Ok := by
  obtain ⟨done, hkept, hdone⟩ := h.shown
  obtain ⟨gone, hgone, hended⟩ := h.gone now
  refine ⟨⟨done ++ gone, ?_, fun x hx => ?_⟩, h.ordered, h.proper, h.apart.filter _, ?_,
    Nat.le_trans (List.length_filter_le _ _) h.bounded, h.keys⟩
  · rw [List.append_assoc]
    exact hkept.trans (congrArg (done ++ ·) hgone)
  · rcases List.mem_append.mp hx with hx | hx
    · exact Nat.le_trans (hdone x hx) hnow
    · exact hended x hx
  · have hdistinct := h.distinct
    rw [hgone] at hdistinct
    exact hdistinct.right_of_append

/-- Every earcon that was kept ends by the end of the last one scheduled; with none scheduled
it has ended. -/
theorem Ok.ends (h : t.Ok) {x : EarconSlot} (hx : x ∈ t.kept) :
    t.schedule.slots = [] ∧ x.finish ≤ t.now ∨ ∃ last, t.schedule.slots.getLast? = some last ∧
    x.finish ≤ last.finish := by
  obtain ⟨done, hkept, hdone⟩ := h.shown
  cases hlast : t.schedule.slots.getLast? with
  | none =>
    rw [hkept, List.getLast?_eq_none_iff.mp hlast, List.append_nil] at hx
    exact .inl ⟨List.getLast?_eq_none_iff.mp hlast, hdone x hx⟩
  | some last =>
    refine .inr ⟨last, rfl, ?_⟩
    obtain ⟨init, heq⟩ := List.getLast?_eq_some_iff.mp hlast
    have hordered := h.ordered
    have hmem : last ∈ t.kept := by
      rw [hkept, heq]
      simp
    rw [hkept, heq, ← List.append_assoc] at hx hordered
    rcases List.mem_append.mp hx with hx | hx
    · have hbefore := (List.pairwise_append.mp hordered).2.2 x hx last List.mem_cons_self
      have hproper := h.proper last hmem
      omega
    · obtain rfl := List.mem_singleton.mp hx
      exact Nat.le_refl _

/-! ## One input -/

/-- An earcon is scheduled behind the last one. -/
theorem Ok.push (h : t.Ok) {x : EarconSlot} (hstart : t.now ≤ x.start)
    (hproper : x.start ≤ x.finish) (hroom : t.schedule.slots.length < earconMax)
    (hlast : ∀ last, t.schedule.slots.getLast? = some last →
      last.finish + earconGap ≤ x.start ∧ last.earcon ≠ x.earcon) :
    Traced.Ok { t with
      schedule := { t.schedule with slots := t.schedule.slots ++ [x] }, kept :=
    t.kept ++ [x] } := by
  have hbefore : ∀ a ∈ t.kept, a.finish ≤ x.start := by
    intro a ha
    rcases h.ends ha with ⟨-, hended⟩ | ⟨last, hl, hle⟩
    · omega
    · have hgap := (hlast last hl).1
      omega
  have hslots : ∀ a ∈ t.schedule.slots, a.finish + earconGap ≤ x.start := by
    intro a ha
    cases hl : t.schedule.slots.getLast? with
    | none =>
      rw [List.getLast?_eq_none_iff.mp hl] at ha
      cases ha
    | some last =>
      have hgap := (hlast last hl).1
      obtain ⟨init, heq⟩ := List.getLast?_eq_some_iff.mp hl
      have hapart := h.apart
      rw [heq] at ha hapart
      rcases List.mem_append.mp ha with ha | ha
      · have hfollows := (List.pairwise_append.mp hapart).2.2 a ha last List.mem_cons_self
        have hproper : last.start ≤ last.finish := by
          obtain ⟨done, hkept, -⟩ := h.shown
          refine h.proper last ?_
          rw [hkept, heq]
          simp
        omega
      · obtain rfl := List.mem_singleton.mp ha
        exact hgap
  obtain ⟨done, hkept, hdone⟩ := h.shown
  refine ⟨⟨done, ?_, hdone⟩, ?_, fun a ha => ?_, ?_, ?_, ?_, h.keys⟩
  · show t.kept ++ [x] = done ++ (t.schedule.slots ++ [x])
    rw [hkept, List.append_assoc]
  · refine List.pairwise_append.mpr ⟨h.ordered, List.pairwise_singleton _ x, fun a ha b hb => ?_⟩
    obtain rfl := List.mem_singleton.mp hb
    exact hbefore a ha
  · rcases List.mem_append.mp ha with ha | ha
    · exact h.proper a ha
    · obtain rfl := List.mem_singleton.mp ha
      exact hproper
  · refine List.pairwise_append.mpr ⟨h.apart, List.pairwise_singleton _ x, fun a ha b hb => ?_⟩
    obtain rfl := List.mem_singleton.mp hb
    exact hslots a ha
  · refine h.distinct.append (List.isChain_singleton x) fun a ha b hb => ?_
    obtain rfl := Option.some.inj hb
    exact (hlast a ha).2
  · show (t.schedule.slots ++ [x]).length ≤ earconMax
    rw [List.length_append, List.length_singleton]
    exact hroom

/-- Admitting an earcon keeps the schedule in order, or refuses it. -/
theorem Ok.admitEarcon (h : t.Ok) (e : Earcon) (len after : Nat) :
    (t.step ⟨after, .admitEarcon e len⟩).Ok := by
  have hforgot := h.forget (Nat.le_add_right t.now after)
  rcases t.schedule.admit_spec e len (t.now + after) with
    ⟨why, heq⟩ | ⟨start, heq, hfloor, hroom, hlast⟩
  · have hstep : t.step ⟨after, .admitEarcon e len⟩ = t.forget (t.now + after) := by
      unfold step Traced.forget
      dsimp only
      rw [heq]
      unfold admitted
      rw [List.append_nil]
    rw [hstep]
    exact hforgot
  · have hstart : t.now + after ≤ start := Nat.le_trans (t.schedule.floor_ge _) hfloor
    have hpushed := hforgot.push (x := ⟨e, start, start + len⟩) hstart (Nat.le_add_right _ _) hroom hlast
    unfold step
    dsimp only
    rw [heq]
    exact hpushed

/-- A key sound takes its time from the earcons that wait. -/
theorem Ok.keySound (h : t.Ok) (len after : Nat) : (t.step ⟨after, .keySound len⟩).Ok where
  shown := by
    obtain ⟨done, hkept, hdone⟩ := h.shown
    exact ⟨done, hkept, fun x hx => Nat.le_trans (hdone x hx) (Nat.le_add_right _ _)⟩
  ordered := h.ordered
  proper := h.proper
  apart := h.apart
  distinct := h.distinct
  bounded := h.bounded
  keys := by
    intro k hk
    refine ⟨_, rfl, ?_⟩
    rcases List.mem_append.mp hk with hk | hk
    · obtain ⟨finish, hfinish, hle⟩ := h.keys k hk
      rw [hfinish]
      exact Nat.le_trans hle (Nat.le_max_left _ _)
    · obtain rfl := List.mem_singleton.mp hk
      cases t.schedule.keyEnd with
      | none => exact Nat.le_refl _
      | some finish => exact Nat.le_max_right _ _

/-- Dropping what waits keeps what has begun. -/
theorem Ok.dropWaiting (h : t.Ok) (after : Nat) : (t.step ⟨after, .dropWaiting⟩).Ok := by
  obtain ⟨done, hkept, hdone⟩ := h.shown
  have hstays : done.filter (·.start ≤ t.now + after) = done := by
    refine List.filter_eq_self.mpr fun x hx => decide_eq_true ?_
    have hproper := h.proper x (hkept ▸ List.mem_append_left _ hx)
    have hended := hdone x hx
    omega
  -- The waiting ones are the last: what is left is a front part of the schedule.
  have hfront : t.schedule.slots.filter (·.start ≤ t.now + after) <+: t.schedule.slots := by
    refine filter_front (h.apart.imp_of_mem fun {a b} ha _ hab hb => decide_eq_true ?_)
    have hb := of_decide_eq_true hb
    have hproper := h.proper a (hkept ▸ List.mem_append_right _ ha)
    omega
  refine ⟨⟨done, ?_, fun x hx => ?_⟩, h.ordered.filter _, fun x hx => h.proper x (List.mem_of_mem_filter hx),
    h.apart.filter _, ?_, Nat.le_trans (List.length_filter_le _ _) h.bounded, h.keys⟩
  · show t.kept.filter (·.start ≤ t.now + after) = done ++ t.schedule.slots.filter (·.start ≤ t.now + after)
    rw [hkept, List.filter_append, hstays]
  · exact Nat.le_trans (hdone x hx) (Nat.le_add_right _ _)
  · exact h.distinct.prefix hfront

theorem Ok.step (h : t.Ok) (i : SequencerInput) : (t.step i).Ok := by
  obtain ⟨after, call⟩ := i
  cases call with
  | admitEarcon e len => exact h.admitEarcon e len after
  | keySound len => exact h.keySound len after
  | dropWaiting => exact h.dropWaiting after

/-! ## What an earcon and the speech wait for -/

/-- An admitted earcon waits for the key sounds, and for the earcons that wait or play. -/
theorem Ok.admits (h : t.Ok) {e : Earcon} {len now start : Nat} (hnow : t.now ≤ now)
    (hstart : (t.schedule.admitEarcon e len now).2 = .ok start) :
    now ≤ start ∧ (∀ k ∈ t.keys, k + afterKey ≤ start) ∧
      ∀ x ∈ t.kept, now < x.finish → x.finish + earconGap ≤ start := by
  rcases t.schedule.admit_spec e len now with ⟨why, heq⟩ | ⟨start', heq, hfloor, -, hlast⟩
  · rw [heq] at hstart
    cases hstart
  · rw [heq] at hstart
    obtain rfl := Except.ok.inj hstart
    refine ⟨Nat.le_trans (t.schedule.floor_ge now) hfloor, fun k hk => ?_, fun x hx hplays => ?_⟩
    · obtain ⟨finish, hkey, hle⟩ := h.keys k hk
      have hwaits := t.schedule.floor_key now hkey
      omega
    · rcases (h.forget hnow).ends hx with ⟨-, hended⟩ | ⟨last, hl, hle⟩
      · exact absurd hended (Nat.not_le.mpr hplays)
      · have hgap := (hlast last hl).1
        omega

/-- Speech waits for the key sounds, and for every earcon as long as one is scheduled. -/
theorem Ok.quiet (h : t.Ok) {now : Nat} (hnow : t.now ≤ now) :
    now ≤ t.schedule.quietAt now ∧ (∀ k ∈ t.keys, k + afterKey ≤ t.schedule.quietAt now) ∧
      (t.schedule.slots ≠ [] → ∀ x ∈ t.kept, x.finish + earconGap ≤ t.schedule.quietAt now) ∧
      (t.schedule.slots = [] → ∀ x ∈ t.kept, x.finish ≤ now) := by
  have hfloor := t.schedule.quietAt_floor now
  refine ⟨Nat.le_trans (t.schedule.floor_ge now) hfloor, fun k hk => ?_, fun hne x hx => ?_, fun hnone x hx => ?_⟩
  · obtain ⟨finish, hkey, hle⟩ := h.keys k hk
    have hwaits := t.schedule.floor_key now hkey
    omega
  · rcases h.ends hx with ⟨hnone, -⟩ | ⟨last, hlast, hle⟩
    · exact absurd hnone hne
    · have hgap := t.schedule.quietAt_last now hlast
      omega
  · rcases h.ends hx with ⟨-, hended⟩ | ⟨last, hlast, -⟩
    · exact Nat.le_trans hended hnow
    · rw [hnone] at hlast
      cases hlast

end Traced

/-- The sequencer, from an empty schedule. -/
def sequencer : Lib.Machine Traced SequencerInput Unit where
  init := {}
  step t i := (t.step i, [])

/-- The earcons that wait or play at `now`. -/
def Traced.playing (t : Traced) (now : Nat) : List EarconSlot := t.kept.filter (now < ·.finish)

theorem Traced.Ok.playing_eq {t : Traced} (h : t.Ok) {now : Nat} (hnow : t.now ≤ now) :
    t.playing now = (t.forget now).schedule.slots := by
  obtain ⟨done, hkept, hdone⟩ := h.shown
  unfold Traced.playing
  rw [hkept, List.filter_append]
  have hnone : done.filter (now < ·.finish) = [] := by
    refine List.filter_eq_nil_iff.mpr fun x hx hplays => ?_
    have hended := hdone x hx
    have hplays := of_decide_eq_true hplays
    omega
  rw [hnone]
  rfl

theorem sequencer_ok (is : List SequencerInput) : (sequencer.state is).Ok :=
  sequencer.run_induction (P := fun _ t _ => t.Ok) Traced.Ok.fresh (fun _ i h => h.step i) is

/-- **Earcons follow each other.** In every run the earcons that were admitted and not dropped
never overlap and play in admission order; an earcon is admitted after the key sounds and, by
a gap, after what waits or plays; at most `earconMax` wait or play, none beside its equal; and
speech waits for the key sounds and, as long as an earcon is scheduled, for every earcon and
its gap. With none scheduled every earcon has ended. -/
theorem earcons_follow (is : List SequencerInput) :
    let t := sequencer.state is
    (t.kept.Pairwise fun a b => a.finish ≤ b.start) ∧
    ∀ now, t.now ≤ now →
      (∀ e len start, (t.schedule.admitEarcon e len now).2 = .ok start →
        now ≤ start ∧ (∀ k ∈ t.keys, k + afterKey ≤ start) ∧
          ∀ x ∈ t.playing now, x.finish + earconGap ≤ start) ∧
      (t.playing now).length ≤ earconMax ∧
      ((t.playing now).IsChain fun a b => a.earcon ≠ b.earcon) ∧
      now ≤ t.schedule.quietAt now ∧ (∀ k ∈ t.keys, k + afterKey ≤ t.schedule.quietAt now) ∧
      (t.schedule.slots ≠ [] → ∀ x ∈ t.kept, x.finish + earconGap ≤ t.schedule.quietAt now) ∧
      (t.schedule.slots = [] → ∀ x ∈ t.kept, x.finish ≤ now) := by
  intro t
  have hok : t.Ok := sequencer_ok is
  refine ⟨hok.ordered, fun now hnow => ⟨fun e len start hstart => ?_, ?_, ?_, hok.quiet hnow⟩⟩
  · obtain ⟨hlate, hkeys, hplays⟩ := hok.admits hnow hstart
    refine ⟨hlate, hkeys, fun x hx => ?_⟩
    obtain ⟨hmem, hlt⟩ := List.mem_filter.mp hx
    exact hplays x hmem (of_decide_eq_true hlt)
  · rw [hok.playing_eq hnow]
    exact (hok.forget hnow).bounded
  · rw [hok.playing_eq hnow]
    exact (hok.forget hnow).distinct

/-- An earcon plays for a second; a key's sound keeps the next one a little longer from
starting, and that one is dropped before it does. -/
def droppedBehind : List SequencerInput :=
  [⟨0, .admitEarcon .turnDone (ms 1000)⟩, ⟨ms 400, .keySound (ms 301)⟩,
    ⟨ms 600, .admitEarcon .sessionChange (ms 500)⟩,
    ⟨0, .dropWaiting⟩]

/-- The first earcon has just ended, and the schedule does not know it any more: speech does
not wait for its gap. -/
theorem gap_forgotten :
    ¬∀ x ∈ (sequencer.state droppedBehind).kept,
      x.finish + earconGap ≤ (sequencer.state droppedBehind).schedule.quietAt
      (sequencer.state droppedBehind).now := by
  decide

/-- Two earcons wait behind a key's sound. -/
theorem earcons_follow_key :
    let t := sequencer.state [⟨0, .keySound (ms 300)⟩, ⟨ms 2, .admitEarcon .turnDone (ms 750)⟩]
    (t.schedule.admitEarcon .sessionChange (ms 500) (ms 5)).2 = .ok (ms 1410) ∧
      ∀ x ∈ t.playing (ms 5), x.finish + earconGap ≤ ms 1410 := by
  have hstart : ((sequencer.state [⟨0, .keySound (ms 300)⟩,
    ⟨ms 2, .admitEarcon .turnDone (ms 750)⟩]).schedule.admitEarcon
      .sessionChange (ms 500) (ms 5)).2 = .ok (ms 1410) := by decide +kernel
  have hfollow := (earcons_follow [⟨0, .keySound (ms 300)⟩,
    ⟨ms 2, .admitEarcon .turnDone (ms 750)⟩]).2 (ms 5) (by decide)
  exact ⟨hstart, (hfollow.1 _ _ _ hstart).2.2⟩

end Sonara.L3
