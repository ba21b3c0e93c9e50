import Sonara.L3.Applied
import Sonara.L3.Steps

/-!
# The summary slots are served in order (#88)

A slot comes from a turn's summary or from a short turn; a release lands in it from an
answer, from its Watchdog, or at once. Whatever the interleaving, the buffer keeps its
invariant (`Slots.ok`), and what a slot waits for is outstanding (`Move.needs`); with
the jobs' slots below `next` this is `Supplied`, which every input keeps. What waits in
or for a slot is what the slot was given out for (`Stocked`), so the releases that a
run's outputs apply (`SlotLog`) are the slots given out, in order and each once.
-/

namespace Sonara.L3

open Sonara
open Sonara.L2 (ChannelId)
open Sonara.Prose (Speech)

variable {L : Licence} {s : Speech} {r r' r'' : Rules} {out o : List Action}

/-- The buffer stays in order, and a job that goes out has a slot of it. -/
theorem Slots.ok {b b' : Lib.Reorder Release} (h : Slots L out b b') (ok : b.Ok)
    (hlands : ∀ seq, L.lands seq → seq < b.next) :
    b'.Ok ∧ b.next ≤ b'.next ∧ ∀ job ∈ dispatched out, ∀ seq, job.seq = some seq →
    seq < b'.next := by
  have hidle : NoJob out → ∀ job ∈ dispatched out, ∀ seq, job.seq = some seq → seq < b'.next := by
    intro hnone job hjob
    rw [hnone.1] at hjob
    cases hjob
  cases h with
  | same none => exact ⟨ok, Nat.le_refl _, hidle none⟩
  | short none rel =>
    refine ⟨ok.allocLand rel, ?_, hidle none⟩
    rw [Lib.Reorder.land_next]
    exact Nat.le_succ _
  | leadIn sent slot dogs =>
    refine ⟨ok, Nat.le_refl _, fun job hjob seq hseq => ?_⟩
    rw [sent] at hjob
    rw [List.mem_singleton.mp hjob, slot] at hseq
    cases hseq
  | turnEnd sent slot dogs rel =>
    refine ⟨ok.watch rel, Nat.le_succ _, fun job hjob seq hseq => ?_⟩
    rw [sent] at hjob
    rw [List.mem_singleton.mp hjob, slot] at hseq
    cases hseq
    exact Nat.lt_succ_self _
  | land lands none rel =>
    exact ⟨ok.land (hlands _ lands) rel, Nat.le_of_eq (Lib.Reorder.land_next b _ rel).symm,
      hidle none⟩
  | expire none seq =>
    exact ⟨ok.expire seq, Nat.le_of_eq (Lib.Reorder.expire_next b seq).symm, hidle none⟩

/-- What a path of moves keeps of the slots. -/
structure KeepsSlots (r r' : Rules) (out : List Action) : Prop where
  ok : r'.buffer.Ok
  next : r.buffer.next ≤ r'.buffer.next
  jobs : ∀ job ∈ dispatched out, ∀ seq, job.seq = some seq → seq < r'.buffer.next
  needs : ∀ t, r'.Needs t → r.Needs t ∨ t ∈ asked out

/-- A path of moves keeps the slots, and lands only in slots given out. -/
theorem Moves.keepsSlots (p : Moves L r r' out) (ok : r.buffer.Ok)
    (hlands : ∀ seq, L.lands seq → seq < r.buffer.next) : KeepsSlots r r' out := by
  refine Lib.Path.lift (R := fun r r' out => r.buffer.Ok →
    (∀ seq, L.lands seq → seq < r.buffer.next) → KeepsSlots r r' out) ?_ ?_ p ok hlands
  · exact fun r ok _ => ⟨ok, Nat.le_refl _, fun _ h => (nomatch h), fun _ h => .inl h⟩
  · intro r r' r'' out o ih m ok hlands
    have hk := ih ok hlands
    obtain ⟨hok, hnext, hjobs⟩ :=
      m.slots.ok hk.ok fun seq h => Nat.lt_of_lt_of_le (hlands seq h) hk.next
    refine ⟨hok, Nat.le_trans hk.next hnext, fun job hjob seq hseq => ?_, fun t ht => ?_⟩
    · rw [dispatched_append] at hjob
      rcases List.mem_append.mp hjob with hjob | hjob
      · exact Nat.lt_of_lt_of_le (hk.jobs job hjob seq hseq) hnext
      · exact hjobs job hjob seq hseq
    · rw [asked_append]
      rcases m.needs hk.ok ht with ht | ht
      · exact (hk.needs t ht).imp_right (List.mem_append_left _)
      · exact .inr (List.mem_append_right _ ht)

/-- The slots are in order, every timer that is needed is outstanding, and the jobs not
answered yet name slots of the buffer. -/
structure World.Supplied (w : World) : Prop where
  ok : w.rules.buffer.Ok
  timers : ∀ t, w.rules.Needs t → t ∈ w.timers
  jobs : ∀ job ∈ w.jobs, ∀ seq, job.seq = some seq → seq < w.rules.buffer.next

/-- A step leaves the world supplied with what its timers need. -/
theorem World.Supplied.step {w : World} (h : w.Supplied) (i : Input) : (w.step s i).1.Supplied := by
  obtain ⟨timers, jobs, htimers, hjobs, hspent, hkept, hpath⟩ := w.step_moves s i
  have hk := hpath.keepsSlots h.ok fun seq ⟨job, hjob, hseq⟩ => h.jobs job hjob seq hseq
  refine ⟨hk.ok, fun t ht => ?_, fun job hjob seq hseq => ?_⟩
  · rw [htimers]
    rcases hk.needs t ht with hneed | hasked
    · rcases hspent t (h.timers t hneed) with hmem | hgone
      · exact List.mem_append_left _ hmem
      · exact absurd ht hgone
    · exact List.mem_append_right _ hasked
  · rw [hjobs] at hjob
    rcases List.mem_append.mp hjob with hjob | hjob
    · exact Nat.lt_of_lt_of_le (h.jobs job (hkept job hjob) seq hseq) hk.next
    · exact hk.jobs job hjob seq hseq

/-- Rules that have just begun need no timer. -/
theorem fresh_needs (settings : Settings) (t : Timer) :
    ¬Rules.Needs { settings := settings } t := by
  have hfresh : ∀ ch, Rules.waiting { settings := settings } ch = {} := by
    intro ch
    unfold Rules.waiting Rules.get
    rw [show (({ settings := settings } : Rules).turns)[ch]? = none from
      Std.ExtTreeMap.getElem?_empty]
    rfl
  cases t with
  | settle ch g => exact fun h => nomatch (congrArg Waiting.settle (hfresh ch)).symm.trans h
  | leadIn ch g => exact fun h => nomatch (congrArg Waiting.lead (hfresh ch)).symm.trans h
  | holdCap ch d =>
    rintro ⟨item, hitem, -⟩
    rw [hfresh] at hitem
    cases hitem
  | watchdog seq => exact Std.ExtTreeMap.not_mem_empty
  | gap ch g => exact not_false

/-- Every state of a run is supplied. -/
theorem state_supplied (s : Speech) (settings : Settings) (is : List Input) :
    ((machine s settings).state is).Supplied := by
  refine (machine s settings).run_induction (P := fun _ w _ => w.Supplied) ?_ ?_ is
  · exact ⟨.init, fun t h => absurd h (fresh_needs settings t), fun _ h => nomatch h⟩
  · exact fun _ i h => h.step i

/-! ## What a run applies -/

/-- What an input applies of the slots is what it records as served. -/
theorem Serving.served {w : World} {out : List Action} {i : Input} {b : Lib.Reorder Release}
    {rels given : List Release} (h : Serving w out i b rels given) :
    (b.served.map Prod.snd = w.rules.buffer.served.map Prod.snd ++ rels ∧
      ∀ k summary job, i = .answer k summary → w.jobs[k]? = some job → job.seq ≠ none) ∨
    b = w.rules.buffer ∧ ∃ k summary job, i = .answer k summary ∧ w.jobs[k]? = some job ∧
      job.seq = none ∧ rels = [job.release summary] := by
  have hlanded : ∀ {b₀ b₁ : Lib.Reorder Release} {rels : List Release},
      (∃ new, b₁.served = b₀.served ++ new ∧ rels = new.map Prod.snd) →
      b₁.served.map Prod.snd = b₀.served.map Prod.snd ++ rels := by
    rintro b₀ b₁ rels ⟨new, hserved, hrels⟩
    rw [hserved, hrels, List.map_append]
  cases h with
  | still jobs late =>
    refine .inl ⟨(List.append_nil _).symm, fun k summary job hi hjob => ?_⟩
    rw [late k summary hi] at hjob
    cases hjob
  | direct hjob free none => exact .inr ⟨rfl, _, _, _, rfl, hjob, free, rfl⟩
  | short ht none => exact .inl ⟨hlanded (Lib.Reorder.land_served _ _ _), fun _ _ _ h => by cases h⟩
  | sent sent slot => exact .inl ⟨(List.append_nil _).symm, fun _ _ _ h => by cases h⟩
  | @land k seq summary job hjob slot none =>
    refine .inl ⟨hlanded (Lib.Reorder.land_served _ _ _), fun k' summary' job' hi hjob' => ?_⟩
    cases hi
    rw [hjob] at hjob'
    cases hjob'
    rw [slot]
    exact Option.some_ne_none seq
  | expire seq none =>
    exact .inl ⟨hlanded (Lib.Reorder.expire_served _ _), fun _ _ _ h => by cases h⟩

end Sonara.L3
