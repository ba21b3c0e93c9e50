import Mathlib.Data.List.Perm.Basic
import Sonara.L3.DeltaOrder

/-!
# No delta is lost for its order

What `DeltaOrder` hands on and what it still holds are the deltas that came, each once
(`accept_perm`, `release_perm`). Index 0 is handed on when it comes. Before it comes and
as long as nothing is released, nothing else is handed on (`Untouched`). So a block's
final is handed on behind its index 0, unless it came first and was released without it
(`Led`).
-/

namespace Sonara.L3

open Sonara

namespace DeltaOrder

variable {o : DeltaOrder} {d : Delta}

theorem mem_held : d ∈ o.held ↔ o.ahead[d.index]? = some (d.text, d.fin) := by
  unfold held
  rw [List.mem_map]
  constructor
  · rintro ⟨⟨k, v⟩, hp, rfl⟩
    exact Std.ExtTreeMap.mem_toList_iff_getElem?_eq_some.mp hp
  · intro h
    exact ⟨(d.index, (d.text, d.fin)), Std.ExtTreeMap.mem_toList_iff_getElem?_eq_some.mpr h, rfl⟩

theorem held_nodup (o : DeltaOrder) : o.held.Nodup := by
  have h := Std.ExtTreeMap.distinct_keys_toList (t := o.ahead)
  unfold held List.Nodup
  rw [List.pairwise_map]
  refine h.imp fun {p q} hne he => hne ?_
  have hkey : p.1 = q.1 := congrArg Delta.index he
  rw [hkey]
  exact Std.ReflCmp.compare_self

/-- The held deltas do not depend on the other fields. -/
theorem held_congr {o o' : DeltaOrder} (h : o'.ahead = o.ahead) : o'.held = o.held := by
  unfold held
  rw [h]

theorem held_empty (h : o.ahead = ∅) : o.held = [] := by
  unfold held
  rw [h]
  rfl

/-- Holding one more delta adds its index. -/
theorem held_insert {k : Nat} {v : Text × Bool} (h : k ∉ o.ahead) :
    ({ o with ahead := o.ahead.insert k v } : DeltaOrder).held.Perm (⟨v.1, k, v.2⟩ :: o.held) := by
  have hnone : o.ahead[k]? = none := Std.ExtTreeMap.getElem?_eq_none h
  have hnew : (⟨v.1, k, v.2⟩ : Delta) ∉ o.held := by
    intro hd
    rw [mem_held, hnone] at hd
    cases hd
  refine (List.perm_ext_iff_of_nodup (held_nodup _)
    (List.nodup_cons.mpr ⟨hnew, held_nodup o⟩)).mpr fun d => ?_
  rw [List.mem_cons, mem_held, mem_held]
  show (o.ahead.insert k v)[d.index]? = _ ↔ _
  rw [Std.ExtTreeMap.getElem?_insert]
  by_cases hk : d.index = k
  · subst hk
    rw [if_pos Std.ReflCmp.compare_self, hnone]
    obtain ⟨t, i, f⟩ := d
    obtain ⟨t', f'⟩ := v
    simp only [Option.some.injEq, Prod.mk.injEq, Delta.mk.injEq, reduceCtorEq, or_false, true_and]
    exact ⟨fun h => ⟨h.1.symm, h.2.symm⟩, fun h => ⟨h.1.symm, h.2.symm⟩⟩
  · rw [if_neg (by simpa using Ne.symm hk)]
    constructor
    · exact .inr
    · rintro (rfl | h)
      · exact absurd rfl hk
      · exact h

/-- Taking a held delta out. -/
theorem held_erase {k : Nat} {v : Text × Bool} (h : o.ahead[k]? = some v) :
    o.held.Perm (⟨v.1, k, v.2⟩ :: ({ o with ahead := o.ahead.erase k } : DeltaOrder).held) := by
  have hback : ({ o with ahead := (o.ahead.erase k).insert k v } : DeltaOrder).held = o.held := by
    refine held_congr ?_
    refine Std.ExtTreeMap.ext_getElem? fun a => ?_
    show ((o.ahead.erase k).insert k v)[a]? = _
    rw [Std.ExtTreeMap.getElem?_insert, Std.ExtTreeMap.getElem?_erase]
    by_cases ha : k = a
    · subst ha
      rw [if_pos Std.ReflCmp.compare_self, h]
    · rw [if_neg (by simpa using ha), if_neg (by simpa using ha)]
  have hins := held_insert (o := { o with ahead := o.ahead.erase k }) (k := k) (v := v)
    (by simp)
  exact (hback ▸ hins)

/-! ## What is handed on, and what is held -/

theorem release_held (o : DeltaOrder) : o.release.1.held = [] := held_empty rfl

theorem follow_perm (n : Nat) (o : DeltaOrder) :
    ((follow n o).2 ++ (follow n o).1.held).Perm o.held := by
  induction n generalizing o with
  | zero => exact .refl _
  | succ n ih =>
    unfold follow
    split
    next text fin h =>
      refine List.Perm.trans ?_ (held_erase h).symm
      exact (ih _).cons _
    · exact .refl _

theorem startBlock_perm (o : DeltaOrder) (index : Nat) :
    ((o.startBlock index).2 ++ (o.startBlock index).1.held).Perm o.held := by
  unfold startBlock
  split
  · dsimp only
    split
    · have hnone : ({ o.release.1 with next := 0, skipped := ∅ } : DeltaOrder).held = [] :=
        held_empty rfl
      rw [hnone, List.append_nil]
      exact .refl _
    · exact .refl _
  · exact .refl _

theorem expected_perm (o : DeltaOrder) (d : Delta) :
    ((o.expected d).2 ++ (o.expected d).1.held).Perm (d :: o.held) := by
  unfold expected
  exact (follow_perm _ { o with next := after d.index d.fin
                                skipped := o.skipped.erase d.index }).cons d

/-- A delta that comes is handed on or held, and none is lost or doubled. -/
theorem accept_perm (o : DeltaOrder) (d : Delta) :
    ((o.accept d).2.1 ++ (o.accept d).1.held).Perm (d :: o.held) := by
  have hstart := startBlock_perm o d.index
  unfold accept
  dsimp only
  generalize o.startBlock d.index = p at hstart ⊢
  generalize hq : (if d.index ≠ p.1.next ∧ d.index ∈ p.1.skipped then
    { p.1 with skipped := p.1.skipped.erase d.index } else p.1) = q
  have hheld : q.held = p.1.held := by
    rw [← hq]
    split <;> rfl
  rw [← hheld] at hstart
  have hback : (p.2 ++ (d :: q.held)).Perm (d :: o.held) :=
    List.perm_middle.trans (hstart.cons d)
  split
  · -- Everything held goes before it.
    rw [release_held, List.append_nil, List.append_assoc]
    refine List.Perm.trans (.append_left p.2 ?_) hback
    exact List.perm_append_singleton d q.held
  next hnot =>
    split
    · refine List.Perm.trans (.append_left p.2 ?_) hback
      exact held_insert fun hmem => hnot (.inr (.inl hmem))
    · rw [List.append_assoc]
      exact .trans (.append_left p.2 (expected_perm q d)) hback

/-- What a delta lets go: the deltas held of the block before, and those it unblocks. -/
def arrive (o : DeltaOrder) (d : Delta) : DeltaOrder × List Delta :=
  let p := if d.index = 0 ∧ 0 < o.next ∧ !o.ahead.isEmpty then o.release else (o, [])
  ((p.1.accept d).1, p.2 ++ (p.1.accept d).2.1)

theorem arrive_perm (o : DeltaOrder) (d : Delta) :
    ((o.arrive d).2 ++ (o.arrive d).1.held).Perm (d :: o.held) := by
  unfold arrive
  dsimp only
  split
  · have h := accept_perm o.release.1 d
    rw [release_held] at h
    rw [List.append_assoc]
    exact .trans (.append_left _ h) (List.perm_append_singleton d o.held)
  · exact accept_perm o d

/-! ## Index 0 -/

/-- Index 0 is handed on when it comes. -/
theorem mem_accept_zero (o : DeltaOrder) (h : d.index = 0) : d ∈ (o.accept d).2.1 := by
  have hnext : (o.startBlock d.index).1.next = 0 := by
    unfold startBlock
    rw [if_pos h]
  unfold accept
  dsimp only
  generalize o.startBlock d.index = p at hnext ⊢
  generalize hq : (if d.index ≠ p.1.next ∧ d.index ∈ p.1.skipped then
    { p.1 with skipped := p.1.skipped.erase d.index } else p.1) = q
  have hq0 : q.next = 0 := by
    rw [← hq]
    split <;> exact hnext
  split
  · exact List.mem_append_right _ List.mem_cons_self
  · rw [if_neg (by rw [hq0, h]; exact Nat.lt_irrefl 0)]
    exact List.mem_append_right _ List.mem_cons_self

theorem mem_arrive_zero (o : DeltaOrder) (h : d.index = 0) : d ∈ (o.arrive d).2 := by
  unfold arrive
  exact List.mem_append_right _ (mem_accept_zero _ h)

/-- Nothing was handed on yet, or given up. -/
structure Untouched (o : DeltaOrder) : Prop where
  next : o.next = 0
  skipped : o.skipped = ∅

/-- Until index 0 comes, what comes is held. -/
theorem Untouched.hold (h : o.Untouched) (hd : 0 < d.index) (hnew : d.index ∉ o.ahead) :
    (o.arrive d).1.Untouched ∧ (o.arrive d).2 = [] := by
  have hstart : o.startBlock d.index = (o, []) := if_neg (Nat.pos_iff_ne_zero.mp hd)
  unfold arrive
  rw [if_neg fun hc => Nat.pos_iff_ne_zero.mp hd hc.1]
  unfold accept
  dsimp only
  rw [hstart]
  have hlate : ¬ (d.index ≠ o.next ∧ d.index ∈ o.skipped) := by
    rw [h.skipped]
    exact fun hc => absurd hc.2 (Finset.notMem_empty _)
  have hbehind : ¬ (d.index < o.next ∨ d.index ∈ o.ahead ∨
      d.index ≠ o.next ∧ d.index ∈ o.skipped) := by
    rintro (hc | hc | hc)
    · rw [h.next] at hc
      exact absurd hc (Nat.not_lt_zero _)
    · exact hnew hc
    · exact hlate hc
  dsimp only
  rw [if_neg hlate, if_neg hbehind, if_pos (by rw [h.next]; exact hd)]
  exact ⟨⟨h.next, h.skipped⟩, rfl⟩

/-- Index 0 goes first when nothing was handed on before it. -/
theorem Untouched.first (h : o.Untouched) (hd : d.index = 0) (hnew : d.index ∉ o.ahead) :
    ∃ rest, (o.arrive d).2 = d :: rest := by
  have hstart : (o.startBlock d.index).2 = [] ∧ (o.startBlock d.index).1.next = 0 ∧
      (o.startBlock d.index).1.ahead = o.ahead := by
    unfold startBlock
    rw [if_pos hd, if_neg (by rw [h.next]; exact Nat.lt_irrefl 0)]
    exact ⟨rfl, rfl, rfl⟩
  unfold arrive
  rw [if_neg fun hc => by rw [h.next] at hc; exact Nat.lt_irrefl 0 hc.2.1]
  unfold accept
  dsimp only
  generalize o.startBlock d.index = p at hstart ⊢
  obtain ⟨hout, hnext, hahead⟩ := hstart
  have hlate : ¬ (d.index ≠ p.1.next ∧ d.index ∈ p.1.skipped) := by
    rw [hnext]
    exact fun hc => hc.1 hd
  have hbehind : ¬ (d.index < p.1.next ∨ d.index ∈ p.1.ahead ∨
      d.index ≠ p.1.next ∧ d.index ∈ p.1.skipped) := by
    rintro (hc | hc | hc)
    · rw [hnext] at hc
      exact absurd hc (Nat.not_lt_zero _)
    · rw [hahead] at hc
      exact hnew hc
    · exact hlate hc
  rw [if_neg hlate, if_neg hbehind, if_neg (by rw [hnext, hd]; exact Nat.lt_irrefl 0), hout]
  exact ⟨_, rfl⟩

end DeltaOrder

/-! ## The final behind index 0 -/

/-- The final of a block of more deltas stands behind its index 0. -/
def Led (ds : List Delta) : Prop :=
  ∀ pre d post, ds = pre ++ d :: post → d.fin = true → 0 < d.index → ∃ z ∈ pre, z.index = 0

/-- A block that is led goes on. -/
theorem Led.append {ds es : List Delta} (h : Led ds) (hz : ∃ z ∈ ds, z.index = 0) :
    Led (ds ++ es) := by
  intro pre d post heq hfin hpos
  rcases List.append_eq_append_iff.mp heq with ⟨a, ha, -⟩ | ⟨a, ha, hes⟩
  · obtain ⟨z, hmem, h0⟩ := hz
    exact ⟨z, ha ▸ List.mem_append_left a hmem, h0⟩
  · cases a with
    | nil =>
      rw [List.append_nil] at ha
      rw [← ha]
      exact hz
    | cons e a =>
      rw [List.cons_append, List.cons.injEq] at hes
      rw [← hes.1] at ha
      exact h pre d a ha hfin hpos

theorem Led.open {ds : List Delta} (h : ∀ d ∈ ds, d.fin = true → d.index = 0) : Led ds := by
  intro pre d post heq hfin hpos
  exact absurd (h d (heq ▸ List.mem_append_right pre List.mem_cons_self) hfin)
    (Nat.pos_iff_ne_zero.mp hpos)

theorem Led.first {z : Delta} (hz : z.index = 0) (ds : List Delta) : Led (z :: ds) := by
  intro pre d post heq hfin hpos
  cases pre with
  | nil =>
    rw [List.nil_append, List.cons.injEq] at heq
    rw [← heq.1, hz] at hpos
    exact absurd hpos (Nat.lt_irrefl 0)
  | cons e pre =>
    rw [List.cons_append, List.cons.injEq] at heq
    exact ⟨z, heq.1 ▸ List.mem_cons_self, hz⟩

end Sonara.L3
