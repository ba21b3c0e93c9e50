import Mathlib.Data.List.Range
import Mathlib.Data.Finset.Insert
import Sonara.L3.Arrivals
import Sonara.Lib.Machine

/-!
# A block goes on in index order

Every held delta is ahead of the expected index (`Ahead`), whatever was accepted and
released (`uses_kept`). A block `0..n` whose deltas come in any order goes on in index
order (`block_in_order`): `Reading` is the state after some of its deltas, with the first
missing index.
-/

namespace Sonara.L3

open Sonara

namespace DeltaOrder

variable {o : DeltaOrder} {d : Delta}

/-! ## Any deltas -/

/-- Every held delta is ahead of the expected index. -/
def Ahead (o : DeltaOrder) : Prop := ∀ i, i ∈ o.ahead → o.next < i

theorem after_le {i j : Nat} (h : i < j) (fin : Bool) : after i fin ≤ j := by
  unfold after
  split
  · exact Nat.zero_le j
  · exact h

theorem erase_size {k : Nat} (h : k ∈ o.ahead) : (o.ahead.erase k).size + 1 = o.ahead.size := by
  have hpos : o.ahead.size ≠ 0 := by
    intro hzero
    rw [Std.ExtTreeMap.eq_empty_iff_size_eq_zero.mpr hzero] at h
    exact Std.ExtTreeMap.not_mem_empty h
  rw [Std.ExtTreeMap.size_erase, if_pos (Std.ExtTreeMap.contains_iff_mem.mpr h)]
  omega

/-- Nothing held is at the expected index any more. -/
theorem follow_rests (m : Nat) (o : DeltaOrder) (h : o.ahead.size ≤ m) :
    (follow m o).1.next ∉ (follow m o).1.ahead := by
  induction m generalizing o with
  | zero =>
    intro hmem
    have hsize : (o.ahead.erase o.next).size + 1 = o.ahead.size := erase_size hmem
    omega
  | succ m ih =>
    unfold follow
    split
    next text fin hget =>
      have hmem : o.next ∈ o.ahead := by
        rw [Std.ExtTreeMap.mem_iff_isSome_getElem?, hget]
        rfl
      have hsize := erase_size hmem
      exact ih _ (by dsimp only; omega)
    next hget =>
      rw [Std.ExtTreeMap.mem_iff_isSome_getElem?, hget]
      exact Bool.false_ne_true

/-- What is held after following the order is ahead. -/
theorem follow_from (m : Nat) (o : DeltaOrder) (h : ∀ i, i ∈ o.ahead → o.next ≤ i) :
    ∀ i, i ∈ (follow m o).1.ahead → (follow m o).1.next ≤ i := by
  induction m generalizing o with
  | zero => exact h
  | succ m ih =>
    unfold follow
    split
    next text fin hget =>
      refine ih _ fun i hi => ?_
      obtain ⟨hne, hi⟩ := Std.ExtTreeMap.mem_erase.mp hi
      have hle := h i hi
      have hlt : o.next < i := Nat.lt_of_le_of_ne hle fun he =>
        hne (by rw [he]; exact Std.ReflCmp.compare_self)
      exact after_le hlt fin
    · exact h

theorem Ahead.of_empty (h : o.ahead = ∅) : o.Ahead := by
  intro i hi
  rw [h] at hi
  exact absurd hi Std.ExtTreeMap.not_mem_empty

theorem Ahead.startBlock (h : o.Ahead) (index : Nat) : (o.startBlock index).1.Ahead := by
  unfold DeltaOrder.startBlock
  split
  · dsimp only
    split
    · exact .of_empty rfl
    next hnext =>
      intro i hi
      have hlt := h i hi
      show 0 < i
      omega
  · exact h

theorem Ahead.expected (h : o.Ahead) (hd : d.index = o.next) : (o.expected d).1.Ahead := by
  intro i hi
  have hstart : ∀ i, i ∈ o.ahead → after d.index d.fin ≤ i := fun i hi =>
    after_le (hd ▸ h i hi) d.fin
  have hle := follow_from o.ahead.size { o with next := after d.index d.fin
                                                skipped := o.skipped.erase d.index } hstart i hi
  have hrest := follow_rests o.ahead.size { o with next := after d.index d.fin
                                                   skipped := o.skipped.erase d.index }
                                                   (Nat.le_refl _)
  unfold DeltaOrder.expected at hi ⊢
  exact Nat.lt_of_le_of_ne hle fun he => hrest (he ▸ hi)

/-- Accepting a delta keeps what is held ahead of what is next. -/
theorem Ahead.accept (h : o.Ahead) (d : Delta) : (o.accept d).1.Ahead := by
  have hstart := h.startBlock d.index
  unfold DeltaOrder.accept
  dsimp only
  generalize o.startBlock d.index = p at hstart ⊢
  generalize hq : (if d.index ≠ p.1.next ∧ d.index ∈ p.1.skipped then
    { p.1 with skipped := p.1.skipped.erase d.index } else p.1) = q
  have hq : q.Ahead := by
    rw [← hq]
    split
    · exact hstart
    · exact hstart
  split
  · exact .of_empty rfl
  next hnot =>
    split
    next hlt =>
      intro i hi
      rcases Std.ExtTreeMap.mem_insert.mp hi with hi | hi
      · rw [← Std.LawfulEqCmp.eq_of_compare hi]
        exact hlt
      · exact hq i hi
    · exact hq.expected (by omega)

/-- A use of the order. -/
inductive Use where
  | accept (d : Delta)
  | release

/-- The deltas accepted. -/
def accepted (us : List Use) : List Delta :=
  us.filterMap fun u => match u with
    | .accept d => some d
    | .release => none

/-- The uses of a fresh order, with the deltas they return. -/
def uses : Lib.Machine DeltaOrder Use Delta where
  init := {}
  step o u := match u with
    | .accept d => ((o.accept d).1, (o.accept d).2.1)
    | .release => o.release

/-- **No delta is lost or doubled**, and what is held is ahead of the expected index. -/
theorem uses_kept (us : List Use) :
    (uses.out us ++ (uses.state us).held).Perm (accepted us) ∧ (uses.state us).Ahead := by
  refine uses.run_induction (P := fun us o out => (out ++ o.held).Perm (accepted us) ∧ o.Ahead)
    ⟨.refl _, .of_empty rfl⟩ ?_ us
  intro us u ⟨hperm, hahead⟩
  have hsnoc : accepted (us ++ [u]) = accepted us ++ accepted [u] := List.filterMap_append
  cases u with
  | accept d =>
    refine ⟨?_, hahead.accept d⟩
    have hone := accept_perm (uses.state us) d
    rw [hsnoc, List.append_assoc]
    refine (List.Perm.append_left _ hone).trans ?_
    exact List.perm_middle.trans ((hperm.cons d).trans (List.perm_append_singleton d _).symm)
  | release =>
    refine ⟨?_, .of_empty rfl⟩
    have hnone : (uses.state us).release.1.held = [] := release_held _
    rw [hsnoc, List.append_assoc]
    show (uses.out us ++ ((uses.state us).release.2 ++ (uses.state us).release.1.held)).Perm _
    rw [hnone, List.append_nil]
    exact hperm.trans (by rw [show accepted [Use.release] = [] from rfl, List.append_nil])

/-! ## One block -/

section Block

variable (n : Nat) (texts : Nat → Text)

/-- The delta of index `i` in a block `0..n`. -/
def deltaAt (i : Nat) : Delta := ⟨texts i, i, decide (i = n)⟩

/-- The deltas of a block `0..n`, the last one final. -/
def block : List Delta := (List.range (n + 1)).map (deltaAt n texts)

/-- The deltas `seen` of the block came; those below `k` went on, and the others are
held. -/
structure Reading (seen : Finset Nat) (k : Nat) (o : DeltaOrder) : Prop where
  next : o.next = if k ≤ n then k else 0
  held : ∀ i : Nat, o.ahead[i]? = if k ≤ i ∧ i ∈ seen then some (texts i, decide (i = n)) else none
  below : ∀ i, i < k → i ∈ seen
  range : ∀ i ∈ seen, i ≤ n
  skipped : ∀ i, 0 < i → i ≤ n → i ∉ o.skipped

variable {n texts} {seen : Finset Nat} {k : Nat}

theorem Reading.mem (h : Reading n texts seen k o) {i : Nat} : i ∈ o.ahead ↔ k ≤ i ∧ i ∈ seen := by
  rw [Std.ExtTreeMap.mem_iff_isSome_getElem?, h.held]
  split
  next hi => exact ⟨fun _ => hi, fun _ => rfl⟩
  next hi => exact ⟨fun hf => absurd hf Bool.false_ne_true, fun hi' => absurd hi' hi⟩

/-- The delta at the expected index goes on. -/
theorem Reading.forth (h : Reading n texts seen k o) (hk : k ∈ seen) :
    Reading n texts seen (k + 1)
      { o with next := after k (decide (k = n)), ahead := o.ahead.erase k } where
  next := by
    have hle := h.range k hk
    show after k (decide (k = n)) = _
    unfold after
    by_cases hkn : k = n
    · rw [if_pos (by simpa using hkn), if_neg (by omega)]
    · rw [if_neg (by simpa using hkn), if_pos (by omega)]
  held i := by
    show (o.ahead.erase k)[i]? = _
    rw [Std.ExtTreeMap.getElem?_erase]
    by_cases hi : k = i
    · rw [if_pos (by rw [hi]; exact Std.ReflCmp.compare_self), if_neg (by omega)]
    · rw [if_neg (by simpa using hi), h.held]
      have hiff : k ≤ i ∧ i ∈ seen ↔ k + 1 ≤ i ∧ i ∈ seen := by
        constructor
        · rintro ⟨hle, hmem⟩
          exact ⟨by omega, hmem⟩
        · rintro ⟨hle, hmem⟩
          exact ⟨by omega, hmem⟩
      rw [if_congr hiff rfl rfl]
  below i hi := by
    by_cases he : i = k
    · rw [he]
      exact hk
    · exact h.below i (by omega)
  range := h.range
  skipped := h.skipped

/-- What the held deltas let go: the block's up to the first missing one. -/
theorem Reading.follow (m : Nat) (h : Reading n texts seen k o) (hm : o.ahead.size ≤ m) :
    ∃ k', k ≤ k' ∧ k' ∉ seen ∧ Reading n texts seen k' (DeltaOrder.follow m o).1 ∧
      (DeltaOrder.follow m o).2 = (List.range' k (k' - k)).map (deltaAt n texts) := by
  -- At the first missing index nothing goes on.
  have hstop : k ∉ seen → ∃ k', k ≤ k' ∧ k' ∉ seen ∧ Reading n texts seen k' o ∧
      ([] : List Delta) = (List.range' k (k' - k)).map (deltaAt n texts) := by
    intro hk
    refine ⟨k, Nat.le_refl k, hk, h, ?_⟩
    rw [Nat.sub_self]
    rfl
  induction m generalizing o k with
  | zero =>
    refine hstop fun hk => ?_
    have hsize := erase_size (h.mem.mpr ⟨Nat.le_refl k, hk⟩)
    omega
  | succ m ih =>
    by_cases hk : k ∈ seen
    · have hnext : o.next = k := by
        rw [h.next, if_pos (h.range k hk)]
      have hget : o.ahead[o.next]? = some (texts k, decide (k = n)) := by
        rw [hnext, h.held, if_pos ⟨Nat.le_refl k, hk⟩]
      have hsize := erase_size (h.mem.mpr ⟨Nat.le_refl k, hk⟩)
      have hforth := h.forth hk
      obtain ⟨k', hle, hnot, hread, hout⟩ := ih hforth (by dsimp only; omega) fun hnot =>
        ⟨k + 1, Nat.le_refl _, hnot, hforth, by rw [Nat.sub_self]; rfl⟩
      refine ⟨k', by omega, hnot, ?_⟩
      unfold DeltaOrder.follow
      rw [hget]
      dsimp only
      rw [hnext]
      refine ⟨hread, ?_⟩
      rw [hout, show k' - k = k' - (k + 1) + 1 by omega, List.range'_succ, List.map_cons]
      rfl
    · have hget : o.ahead[o.next]? = none := by
        rw [h.held, if_neg]
        rintro ⟨hle, hmem⟩
        rw [h.next] at hle hmem
        split at hle
        next hkn =>
          rw [if_pos hkn] at hmem
          exact hk hmem
        next hkn => omega
      unfold DeltaOrder.follow
      rw [hget]
      exact hstop hk

/-- A block that was not seen starts with nothing held. -/
theorem Reading.startBlock (h : Reading n texts seen k o) {i : Nat} (hi : i ∉ seen) :
    Reading n texts seen k (o.startBlock i).1 ∧ (o.startBlock i).2 = [] := by
  unfold DeltaOrder.startBlock
  split
  next hzero =>
    have hk : k = 0 := by
      by_contra hpos
      exact hi (hzero ▸ h.below 0 (by omega))
    have hnext : o.next = 0 := by
      rw [h.next, hk]
      exact if_pos (Nat.zero_le n)
    rw [if_neg (by omega)]
    exact ⟨⟨by rw [← h.next, hnext], h.held, h.below, h.range, fun _ _ _ => Finset.notMem_empty _⟩,
      rfl⟩
  · exact ⟨h, rfl⟩

/-- A delta ahead of a missing one is held. -/
theorem Reading.hold (h : Reading n texts seen k o) (htext : d.text = texts d.index)
    (hfin : d.fin = decide (d.index = n)) (hki : k ≤ d.index) (hin : d.index ≤ n) :
    Reading n texts (insert d.index seen) k
    { o with ahead := o.ahead.insert d.index (d.text, d.fin) } where
  next := h.next
  held j := by
    show (o.ahead.insert d.index (d.text, d.fin))[j]? = _
    rw [Std.ExtTreeMap.getElem?_insert]
    by_cases hij : d.index = j
    · subst hij
      rw [if_pos Std.ReflCmp.compare_self, if_pos ⟨hki, Finset.mem_insert_self _ _⟩, htext, hfin]
    · rw [if_neg (by simpa using hij), h.held]
      have hiff : j ∈ seen ↔ j ∈ insert d.index seen :=
        ⟨Finset.mem_insert_of_mem, fun hj => (Finset.mem_insert.mp hj).resolve_left (Ne.symm hij)⟩
      rw [if_congr (and_congr_right fun _ => hiff) rfl rfl]
  below j hj := Finset.mem_insert_of_mem (h.below j hj)
  range j hj := by
    rcases Finset.mem_insert.mp hj with rfl | hj
    · exact hin
    · exact h.range j hj
  skipped := h.skipped

/-- The expected delta: what is held stands as if it had been held and had gone on. -/
theorem Reading.take (h : Reading n texts seen k o) (hk : k ∉ seen) (hd : d.index = k)
    (hin : d.index ≤ n) (hfin : d.fin = decide (d.index = n)) :
    Reading n texts (insert d.index seen) (k + 1)
      { o with next := after d.index d.fin, skipped := o.skipped.erase d.index } where
  next := by
    show after d.index d.fin = _
    unfold after
    rw [hfin, hd]
    by_cases hn : k = n
    · rw [if_pos (by simpa using hn), if_neg (by omega)]
    · rw [if_neg (by simpa using hn), if_pos (by omega)]
  held j := by
    show o.ahead[j]? = _
    rw [h.held]
    have hiff : k ≤ j ∧ j ∈ seen ↔ k + 1 ≤ j ∧ j ∈ insert d.index seen := by
      constructor
      · rintro ⟨hle, hmem⟩
        have hne : j ≠ k := fun he => hk (he ▸ hmem)
        exact ⟨by omega, Finset.mem_insert_of_mem hmem⟩
      · rintro ⟨hle, hmem⟩
        exact ⟨by omega, (Finset.mem_insert.mp hmem).resolve_left (by omega)⟩
    rw [if_congr hiff rfl rfl]
  below j hj := by
    by_cases he : j = d.index
    · rw [he]
      exact Finset.mem_insert_self _ _
    · exact Finset.mem_insert_of_mem (h.below j (by omega))
  range j hj := by
    rcases Finset.mem_insert.mp hj with rfl | hj
    · exact hin
    · exact h.range j hj
  skipped j hpos hj hmem := h.skipped j hpos hj (Finset.mem_of_mem_erase hmem)

/-- **One delta of the block**: what goes on is the block's up to the first missing one. -/
theorem Reading.accept (h : Reading n texts seen k o) (hk : k ∉ seen)
    (hd : deltaAt n texts d.index = d) (hi : d.index ∉ seen) (hin : d.index ≤ n) :
    ∃ k', k ≤ k' ∧ k' ∉ insert d.index seen ∧ Reading n texts (insert d.index seen) k'
    (o.accept d).1 ∧
      (o.accept d).2.1 = (List.range' k (k' - k)).map (deltaAt n texts) := by
  have htext : d.text = texts d.index := congrArg Delta.text hd.symm
  have hfin : d.fin = decide (d.index = n) := congrArg Delta.fin hd.symm
  obtain ⟨hstart, hout⟩ := h.startBlock hi
  have hki : k ≤ d.index := by
    by_contra hlt
    exact hi (h.below d.index (by omega))
  unfold DeltaOrder.accept
  dsimp only
  generalize o.startBlock d.index = p at hstart hout ⊢
  have hnext : p.1.next = k := by
    rw [hstart.next, if_pos (by omega)]
  have hlate : ¬(d.index ≠ p.1.next ∧ d.index ∈ p.1.skipped) := by
    rintro ⟨hne, hskip⟩
    exact hstart.skipped d.index (by omega) hin hskip
  have hbehind : ¬(d.index < p.1.next ∨ d.index ∈ p.1.ahead ∨
      d.index ≠ p.1.next ∧ d.index ∈ p.1.skipped) := by
    rintro (hc | hc | hc)
    · omega
    · exact hi (hstart.mem.mp hc).2
    · exact hlate hc
  rw [if_neg hlate, if_neg hbehind, hout]
  by_cases hlt : k < d.index
  · rw [if_pos (by omega)]
    refine ⟨k, Nat.le_refl k, ?_, hstart.hold htext hfin hki hin, by rw [Nat.sub_self]; rfl⟩
    rw [Finset.mem_insert]
    rintro (he | hmem)
    · omega
    · exact hk hmem
  · have hik : d.index = k := by omega
    rw [if_neg (by omega)]
    obtain ⟨k', hle, hnot, hread, hfollow⟩ :=
      (hstart.take hk hik hin hfin).follow p.1.ahead.size (Nat.le_refl _)
    refine ⟨k', by omega, hnot, ?_, ?_⟩
    · exact ⟨hread.next, hread.held, hread.below, hread.range, hread.skipped⟩
    · unfold DeltaOrder.expected
      dsimp only
      rw [hfollow, show k' - k = k' - (k + 1) +
        1 by omega, List.range'_succ, List.map_cons, ← hik, hd]
      rfl

/-- **Deltas of the block, in any order.** -/
theorem Reading.run {is : List Nat} (h : Reading n texts seen k o) (hk : k ∉ seen)
    (hnodup : is.Nodup) (his : ∀ i ∈ is, i ∉ seen ∧ i ≤ n) :
    ∃ k' seen', k ≤ k' ∧ k' ∉ seen' ∧ (∀ i, i ∈ seen' ↔ i ∈ seen ∨ i ∈ is) ∧
      Reading n texts seen' k' (uses.stateFrom o (is.map fun i => .accept (deltaAt n texts i))) ∧
      uses.outFrom o (is.map fun i => .accept (deltaAt n texts i)) =
        (List.range' k (k' - k)).map (deltaAt n texts) := by
  induction is generalizing o k seen with
  | nil =>
    refine ⟨k, seen, Nat.le_refl k, hk, fun i => ?_, h, by rw [Nat.sub_self]; rfl⟩
    exact ⟨.inl, fun hi => hi.resolve_right List.not_mem_nil⟩
  | cons i is ih =>
    obtain ⟨hfresh, hin⟩ := his i List.mem_cons_self
    obtain ⟨k₁, hle₁, hnot₁, hread₁, hout₁⟩ := h.accept hk (d := deltaAt n texts i) rfl hfresh hin
    rw [List.nodup_cons] at hnodup
    obtain ⟨k', seen', hle', hnot', hseen', hread', hout'⟩ :=
        ih hread₁ hnot₁ hnodup.2 fun j hj => by
      obtain ⟨hj₁, hj₂⟩ := his j (List.mem_cons_of_mem i hj)
      refine ⟨fun hmem => ?_, hj₂⟩
      rcases Finset.mem_insert.mp hmem with rfl | hmem
      · exact hnodup.1 hj
      · exact hj₁ hmem
    refine ⟨k', seen', by omega, hnot', fun j => ?_, hread', ?_⟩
    · rw [hseen', Finset.mem_insert, List.mem_cons]
      tauto
    · show (o.accept (deltaAt n texts i)).2.1 ++ uses.outFrom (o.accept (deltaAt n texts i)).1 _ = _
      rw [hout₁, hout', ← List.map_append]
      have hsplit : k' - k = (k₁ - k) + (k' - k₁) := by omega
      have hjoin := List.range'_append_1 (s := k) (m := k₁ - k) (n := k' - k₁)
      rw [show k + (k₁ - k) = k₁ by omega] at hjoin
      rw [hjoin, hsplit]

/-- **A block's deltas, in any order, go on in index order**, if nothing is held and none
of the block's indices was given up. -/
theorem block_in_order {ds : List Delta} (hnext : o.next = 0) (hahead : o.ahead = ∅)
    (hskipped : ∀ i, 0 < i → i ≤ n → i ∉ o.skipped) (hds : ds.Perm (block n texts)) :
    uses.outFrom o (ds.map .accept) = block n texts ∧
      (uses.stateFrom o (ds.map .accept)).next = 0 ∧
      (uses.stateFrom o (ds.map .accept)).ahead = ∅ := by
  have hstart : Reading n texts ∅ 0 o := by
    refine ⟨?_, fun i => ?_, fun i hi => absurd hi (Nat.not_lt_zero i),
      fun i hi => absurd hi (Finset.notMem_empty i), hskipped⟩
    · rw [hnext, if_pos (Nat.zero_le n)]
    · rw [hahead, if_neg fun hc => Finset.notMem_empty i hc.2]
      exact Std.ExtTreeMap.getElem?_empty
  -- The deltas are told by their indices.
  have hidx : ∀ d ∈ ds, deltaAt n texts d.index = d := by
    intro d hd
    obtain ⟨i, -, rfl⟩ := List.mem_map.mp (hds.mem_iff.mp hd)
    rfl
  have hmap : ds.map Use.accept = (ds.map Delta.index).map fun i =>
      .accept (deltaAt n texts i) := by
    rw [List.map_map]
    exact List.map_congr_left fun d hd => congrArg Use.accept (hidx d hd).symm
  have hrange : (ds.map Delta.index).Perm (List.range (n + 1)) := by
    have hperm := hds.map Delta.index
    unfold block at hperm
    rw [List.map_map] at hperm
    have hid : (List.range (n + 1)).map (Delta.index ∘ deltaAt n texts) = List.range (n + 1) :=
      List.map_id _
    rwa [hid] at hperm
  obtain ⟨k, seen, -, hnot, hseen, hread, hout⟩ := hstart.run (Finset.notMem_empty 0)
    (hrange.nodup_iff.mpr List.nodup_range) fun i hi => by
      have hlt := List.mem_range.mp (hrange.mem_iff.mp hi)
      exact ⟨Finset.notMem_empty i, by omega⟩
  have hall : ∀ i, i ≤ n → i ∈ seen := fun i hi =>
    (hseen i).mpr (.inr (hrange.mem_iff.mpr (List.mem_range.mpr (by omega))))
  have hk : k = n + 1 := by
    have hlo : ¬k ≤ n := fun hle => hnot (hall k hle)
    have hhi : ¬n + 1 < k := fun hlt => by
      have hle := hread.range (n + 1) (hread.below (n + 1) hlt)
      omega
    omega
  subst hk
  rw [hmap]
  refine ⟨?_, ?_, ?_⟩
  · rw [hout, Nat.sub_zero]
    unfold block
    rw [List.range_eq_range']
  · rw [hread.next, if_neg (by omega)]
  · refine Std.ExtTreeMap.ext_getElem? fun i => ?_
    rw [hread.held, Std.ExtTreeMap.getElem?_empty, if_neg]
    rintro ⟨hle, hmem⟩
    have hin := hread.range i hmem
    omega

end Block

end DeltaOrder

end Sonara.L3
