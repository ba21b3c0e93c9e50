import Std.Data.ExtTreeMap

/-!
# A reorder buffer with watched slots

Work is given numbered slots (`alloc`) and finishes in any order; what it leaves is
served in slot order. A release that comes early is `parked`; a slot whose work may
never finish is `watched`, with what it then leaves. `land` parks a release and
serves every slot that is ready; a slot served or parked already is left alone, so
work that finishes after its slot was given up changes nothing.

`served` records what was served, oldest first. No operation reads it.
-/

namespace Lib

open Std

/-- The buffer, over what the slots leave. -/
structure Reorder (ρ : Type) where
  next : Nat := 0
  serve : Nat := 0
  parked : ExtTreeMap Nat ρ := ∅
  watched : ExtTreeMap Nat ρ := ∅
  served : List (Nat × ρ) := []

namespace Reorder

variable {ρ : Type} (b : Reorder ρ)

/-- A fresh slot. -/
def alloc : Reorder ρ × Nat := ({ b with next := b.next + 1 }, b.next)

/-- Watch a slot: `r` is what it leaves when it is given up. -/
def watch (seq : Nat) (r : ρ) : Reorder ρ := { b with watched := b.watched.insert seq r }

/-- Serve the ready slots, at most `n`. -/
def drain : (n : Nat) → Reorder ρ → Reorder ρ × List ρ
  | 0, b => (b, [])
  | n + 1, b =>
    match b.parked[b.serve]? with
    | some r =>
      let rest := drain n { b with parked := b.parked.erase b.serve, serve := b.serve + 1,
                                   served := b.served ++ [(b.serve, r)] }
      (rest.1, r :: rest.2)
    | none => (b, [])

/-- A release for slot `seq`: what is served now, in slot order. -/
def land (seq : Nat) (r : ρ) : Reorder ρ × List ρ :=
  if seq < b.serve ∨ seq ∈ b.parked then (b, [])
  else
    let b := { b with watched := b.watched.erase seq, parked := b.parked.insert seq r }
    drain b.parked.size b

/-- A watched slot is given up. -/
def expire (seq : Nat) : Reorder ρ × List ρ :=
  match b.watched[seq]? with
  | some r => { b with watched := b.watched.erase seq }.land seq r
  | none => (b, [])

/-! ## The invariant -/

/-- The slots allocated and not served are each parked or watched, never both, and
the next slot to serve is not parked. -/
structure Ok : Prop where
  le : b.serve ≤ b.next
  parked : ∀ {i}, i ∈ b.parked → b.serve < i ∧ i < b.next
  watched : ∀ {i}, i ∈ b.watched → b.serve ≤ i ∧ i < b.next
  apart : ∀ {i}, i ∈ b.parked → i ∉ b.watched
  covered : ∀ {i}, b.serve ≤ i → i < b.next → i ∈ b.parked ∨ i ∈ b.watched
  /-- Every slot below `serve` was served once, in order. -/
  served : b.served.map Prod.fst = List.range b.serve

variable {b}

theorem Ok.init : Ok ({} : Reorder ρ) where
  le := Nat.le_refl _
  parked h := absurd h (ExtTreeMap.not_mem_empty)
  watched h := absurd h (ExtTreeMap.not_mem_empty)
  apart h := absurd h (ExtTreeMap.not_mem_empty)
  covered h h' := absurd h' (Nat.not_lt.mpr h)
  served := rfl

/-- What is left to serve while `land` runs: as `Ok`, but the slot to serve next may
be parked. -/
structure Draining (b : Reorder ρ) : Prop where
  le : b.serve ≤ b.next
  parked : ∀ {i}, i ∈ b.parked → b.serve ≤ i ∧ i < b.next
  watched : ∀ {i}, i ∈ b.watched → b.serve ≤ i ∧ i < b.next
  apart : ∀ {i}, i ∈ b.parked → i ∉ b.watched
  covered : ∀ {i}, b.serve ≤ i → i < b.next → i ∈ b.parked ∨ i ∈ b.watched
  served : b.served.map Prod.fst = List.range b.serve

theorem Draining.ok (d : Draining b) (h : b.serve ∉ b.parked) : Ok b where
  le := d.le
  parked {i} hi := by
    obtain ⟨hle, hlt⟩ := d.parked hi
    have hne : b.serve ≠ i := fun he => h (he ▸ hi)
    omega
  watched := d.watched
  apart := d.apart
  covered := d.covered
  served := d.served

/-- Serving one parked release leaves the rest to be served in order. -/
theorem Draining.step (d : Draining b) {r : ρ} (h : b.parked[b.serve]? = some r) :
    Draining { b with parked := b.parked.erase b.serve, serve := b.serve + 1,
                      served := b.served ++ [(b.serve, r)] } := by
  have hmem : b.serve ∈ b.parked := by
    rw [ExtTreeMap.mem_iff_isSome_getElem?, h]
    rfl
  obtain ⟨-, hlt⟩ := d.parked hmem
  refine ⟨hlt, fun {i} hi => ?_, fun {i} hi => ?_, fun {i} hi => ?_, fun {i} hle hi => ?_, ?_⟩
  · obtain ⟨hne, hi⟩ := ExtTreeMap.mem_erase.mp hi
    obtain ⟨hle, hlt⟩ := d.parked hi
    have hne' : b.serve ≠ i := by simpa using hne
    show b.serve + 1 ≤ i ∧ i < b.next
    omega
  · obtain ⟨hle, hlt⟩ := d.watched hi
    have hne : b.serve ≠ i := fun he => d.apart hmem (he ▸ hi)
    show b.serve + 1 ≤ i ∧ i < b.next
    omega
  · exact d.apart (ExtTreeMap.mem_erase.mp hi).2
  · have hle' : b.serve + 1 ≤ i := hle
    rcases d.covered (by omega) hi with hp | hw
    · have hne : b.serve ≠ i := by omega
      exact .inl (ExtTreeMap.mem_erase.mpr ⟨by simpa using hne, hp⟩)
    · exact .inr hw
  · rw [List.map_append, d.served, List.range_succ]
    rfl

/-- `drain` with enough steps serves until the next slot is not parked. -/
theorem Draining.drain (d : Draining b) {n : Nat} (hn : b.parked.size ≤ n) :
    Ok (Reorder.drain n b).1 := by
  induction n generalizing b with
  | zero =>
    refine d.ok fun hmem => ?_
    have hempty : b.parked = ∅ := ExtTreeMap.eq_empty_iff_size_eq_zero.mpr (by omega)
    rw [hempty] at hmem
    exact ExtTreeMap.not_mem_empty hmem
  | succ n ih =>
    unfold Reorder.drain
    split
    next r h =>
      refine ih (d.step h) ?_
      have hmem : b.serve ∈ b.parked := by
        rw [ExtTreeMap.mem_iff_isSome_getElem?, h]
        rfl
      show (b.parked.erase b.serve).size ≤ n
      rw [ExtTreeMap.size_erase, if_pos (ExtTreeMap.contains_iff_mem.mpr hmem)]
      omega
    next h =>
      refine d.ok fun hmem => ?_
      rw [ExtTreeMap.mem_iff_isSome_getElem?, h] at hmem
      cases hmem

/-- What `drain` does not touch. -/
theorem drain_frame (n : Nat) (b : Reorder ρ) :
    (drain n b).1.next = b.next ∧ (drain n b).1.watched = b.watched := by
  induction n generalizing b with
  | zero => exact ⟨rfl, rfl⟩
  | succ n ih =>
    unfold drain
    split
    · exact ih _
    · exact ⟨rfl, rfl⟩

/-- What `drain` hands out is what it records as served. -/
theorem drain_served (n : Nat) (b : Reorder ρ) :
    ∃ new, (drain n b).1.served = b.served ++ new ∧ (drain n b).2 = new.map Prod.snd := by
  induction n generalizing b with
  | zero => exact ⟨[], (List.append_nil _).symm, rfl⟩
  | succ n ih =>
    unfold drain
    split
    next r h =>
      obtain ⟨new, hserved, hout⟩ := ih { b with
        parked := b.parked.erase b.serve, serve := b.serve + 1,
        served := b.served ++ [(b.serve, r)] }
      refine ⟨(b.serve, r) :: new, hserved.trans ?_, congrArg (r :: ·) hout⟩
      rw [List.append_assoc]
      rfl
    · exact ⟨[], (List.append_nil _).symm, rfl⟩

/-- What `land` hands out is what it records as served. -/
theorem land_served (b : Reorder ρ) (seq : Nat) (r : ρ) :
    ∃ new, (b.land seq r).1.served = b.served ++ new ∧ (b.land seq r).2 = new.map Prod.snd := by
  unfold land
  split
  · exact ⟨[], (List.append_nil _).symm, rfl⟩
  · exact drain_served _ _

/-- What `expire` hands out is what it records as served. -/
theorem expire_served (b : Reorder ρ) (seq : Nat) :
    ∃ new, (b.expire seq).1.served = b.served ++ new ∧ (b.expire seq).2 = new.map Prod.snd := by
  unfold expire
  split
  · exact land_served _ seq _
  · exact ⟨[], (List.append_nil _).symm, rfl⟩

theorem land_next (b : Reorder ρ) (seq : Nat) (r : ρ) : (b.land seq r).1.next = b.next := by
  unfold land
  split
  · rfl
  · exact (drain_frame _ _).1

/-- What `land` leaves watched was watched, and is another slot. -/
theorem Ok.land_watched (ok : Ok b) {seq i : Nat} {r : ρ} (h : i ∈ (b.land seq r).1.watched) :
    i ∈ b.watched ∧ i ≠ seq := by
  unfold land at h
  split at h
  next hs =>
    refine ⟨h, fun he => ?_⟩
    rcases hs with hs | hs
    · have := (ok.watched h).1
      omega
    · exact ok.apart hs (he ▸ h)
  · rw [(drain_frame _ _).2] at h
    obtain ⟨hne, hi⟩ := ExtTreeMap.mem_erase.mp h
    exact ⟨hi, fun he => by simp [he] at hne⟩

/-- Slot `seq` is to land; every other slot is accounted for. -/
structure Landing (b : Reorder ρ) (seq : Nat) : Prop where
  le : b.serve ≤ seq
  lt : seq < b.next
  fresh : seq ∉ b.parked
  parked : ∀ {i}, i ∈ b.parked → b.serve ≤ i ∧ i < b.next
  watched : ∀ {i}, i ∈ b.watched → b.serve ≤ i ∧ i < b.next
  apart : ∀ {i}, i ∈ b.parked → i ∉ b.watched
  covered : ∀ {i}, b.serve ≤ i → i < b.next → i ≠ seq → i ∈ b.parked ∨ i ∈ b.watched
  served : b.served.map Prod.fst = List.range b.serve

/-- A release that lands is served with those behind it, or parked. -/
theorem Landing.land {seq : Nat} (l : Landing b seq) (r : ρ) : Ok (b.land seq r).1 := by
  have hnew : ¬(seq < b.serve ∨ seq ∈ b.parked) := not_or.mpr ⟨Nat.not_lt.mpr l.le, l.fresh⟩
  have hdrain : Draining
      { b with watched := b.watched.erase seq, parked := b.parked.insert seq r } := by
    refine ⟨Nat.le_of_lt (Nat.lt_of_le_of_lt l.le l.lt), fun {i} hi => ?_, fun {i} hi => ?_,
      fun {i} hi hw => ?_, fun {i} hle hi => ?_, l.served⟩
    · rcases ExtTreeMap.mem_insert.mp hi with he | hi
      · have he : seq = i := by simpa using he
        exact he ▸ ⟨l.le, l.lt⟩
      · exact l.parked hi
    · exact l.watched (ExtTreeMap.mem_erase.mp hi).2
    · obtain ⟨hne, hw⟩ := ExtTreeMap.mem_erase.mp hw
      rcases ExtTreeMap.mem_insert.mp hi with he | hi
      · exact hne he
      · exact l.apart hi hw
    · by_cases he : seq = i
      · exact .inl (ExtTreeMap.mem_insert.mpr (.inl (by simpa using he)))
      · rcases l.covered hle hi (Ne.symm he) with hp | hw
        · exact .inl (ExtTreeMap.mem_insert.mpr (.inr hp))
        · exact .inr (ExtTreeMap.mem_erase.mpr ⟨by simpa using he, hw⟩)
  unfold Reorder.land
  rw [if_neg hnew]
  exact hdrain.drain (Nat.le_refl _)

/-- **A release lands.** Whatever slot it names, the buffer stays in order. -/
theorem Ok.land (ok : Ok b) {seq : Nat} (hseq : seq < b.next) (r : ρ) : Ok (b.land seq r).1 := by
  by_cases hs : seq < b.serve ∨ seq ∈ b.parked
  · unfold Reorder.land
    rw [if_pos hs]
    exact ok
  · rw [not_or] at hs
    refine Landing.land ⟨Nat.not_lt.mp hs.1, hseq, hs.2, fun {i} hi => ?_, ok.watched, ok.apart,
      fun hle hi _ => ok.covered hle hi, ok.served⟩ r
    obtain ⟨hlt, hlt'⟩ := ok.parked hi
    exact ⟨Nat.le_of_lt hlt, hlt'⟩

/-- A fresh slot lands at once. -/
theorem Ok.allocLand (ok : Ok b) (r : ρ) : Ok (b.alloc.1.land b.alloc.2 r).1 := by
  have hle := ok.le
  refine Landing.land (b := b.alloc.1) ⟨ok.le, Nat.lt_succ_self b.next, fun hp => ?_,
    fun {i} hi => ?_, fun {i} hi => ?_, ok.apart, fun {i} hle hi hne => ok.covered hle ?_,
    ok.served⟩ r
  · exact absurd (ok.parked hp).2 (Nat.lt_irrefl _)
  · have hp := ok.parked hi
    show b.serve ≤ i ∧ i < b.next + 1
    omega
  · have hw := ok.watched hi
    show b.serve ≤ i ∧ i < b.next + 1
    omega
  · have hi : i < b.next + 1 := hi
    have hne : i ≠ b.next := hne
    omega

theorem allocLand_watched {i : Nat} {r : ρ} (h : i ∈ (b.alloc.1.land b.alloc.2 r).1.watched) :
    i ∈ b.watched := by
  unfold land at h
  split at h
  · exact h
  · rw [(drain_frame _ _).2] at h
    exact (ExtTreeMap.mem_erase.mp h).2

/-- A fresh slot is watched at once. -/
theorem Ok.watch (ok : Ok b) (r : ρ) : Ok (b.alloc.1.watch b.alloc.2 r) where
  le := Nat.le_succ_of_le ok.le
  parked {i} hi := by
    obtain ⟨hlt, hlt'⟩ := ok.parked hi
    exact ⟨hlt, Nat.lt_succ_of_lt hlt'⟩
  watched {i} hi := by
    have hle := ok.le
    show b.serve ≤ i ∧ i < b.next + 1
    rcases ExtTreeMap.mem_insert.mp hi with he | hi
    · have he : b.next = i := by simpa [alloc] using he
      omega
    · obtain ⟨hle, hlt⟩ := ok.watched hi
      omega
  apart {i} hi hw := by
    rcases ExtTreeMap.mem_insert.mp hw with he | hw
    · have he : b.next = i := by simpa [alloc] using he
      have hlt := (ok.parked hi).2
      omega
    · exact ok.apart hi hw
  covered {i} hle hi := by
    have hi : i < b.next + 1 := hi
    rcases Nat.lt_succ_iff_lt_or_eq.mp hi with hi | hi
    · rcases ok.covered hle hi with hp | hw
      · exact .inl hp
      · exact .inr (ExtTreeMap.mem_insert.mpr (.inr hw))
    · exact .inr (ExtTreeMap.mem_insert.mpr (.inl (by simp [alloc, hi])))
  served := ok.served

theorem watch_watched {i seq : Nat} {r : ρ} (h : i ∈ (b.watch seq r).watched) :
    i = seq ∨ i ∈ b.watched := by
  rcases ExtTreeMap.mem_insert.mp h with he | hi
  · have he : seq = i := by simpa using he
    exact .inl he.symm
  · exact .inr hi

/-- A watched slot is given up. -/
theorem Ok.expire (ok : Ok b) (seq : Nat) : Ok (b.expire seq).1 := by
  unfold Reorder.expire
  split
  next r h =>
    have hmem : seq ∈ b.watched := by
      rw [ExtTreeMap.mem_iff_isSome_getElem?, h]
      rfl
    obtain ⟨hle, hlt⟩ := ok.watched hmem
    refine Landing.land (b := { b with watched := b.watched.erase seq })
      ⟨hle, hlt, fun hp => ok.apart hp hmem, fun {i} hi => ?_,
      fun hi => ok.watched (ExtTreeMap.mem_erase.mp hi).2,
      fun hp hw => ok.apart hp (ExtTreeMap.mem_erase.mp hw).2, fun {i} hle hi hne => ?_,
      ok.served⟩ r
    · obtain ⟨hlt, hlt'⟩ := ok.parked hi
      exact ⟨Nat.le_of_lt hlt, hlt'⟩
    · rcases ok.covered hle hi with hp | hw
      · exact .inl hp
      · exact .inr (ExtTreeMap.mem_erase.mpr ⟨by simpa using Ne.symm hne, hw⟩)
  · exact ok

theorem expire_next (b : Reorder ρ) (seq : Nat) : (b.expire seq).1.next = b.next := by
  unfold expire
  split
  · exact land_next _ _ _
  · rfl

/-- A slot that is still watched is another one than the slot given up. -/
theorem expire_watched {i seq : Nat} (h : i ∈ (b.expire seq).1.watched) :
    i ∈ b.watched ∧ i ≠ seq := by
  have herase : ∀ {w : ExtTreeMap Nat ρ}, i ∈ w.erase seq → i ∈ w ∧ i ≠ seq := by
    intro w hi
    obtain ⟨hne, hi⟩ := ExtTreeMap.mem_erase.mp hi
    exact ⟨hi, fun he => by simp [he] at hne⟩
  unfold expire at h
  split at h
  next r hr =>
    unfold land at h
    split at h
    · exact herase h
    · rw [(drain_frame _ _).2] at h
      exact herase (herase h).1
  next hr =>
    refine ⟨h, fun he => ?_⟩
    rw [ExtTreeMap.mem_iff_isSome_getElem?, he, hr] at h
    cases h

/-! ## What the buffer holds -/

/-- The release is parked, or watched. -/
def Holds (b : Reorder ρ) (r : ρ) : Prop :=
  (∃ i : Nat, b.parked[i]? = some r) ∨ ∃ i : Nat, b.watched[i]? = some r

theorem getElem?_of_erase {m : ExtTreeMap Nat ρ} {i j : Nat} {r : ρ}
    (h : (m.erase j)[i]? = some r) :
    m[i]? = some r := by
  rw [ExtTreeMap.getElem?_erase] at h
  split at h
  · cases h
  · exact h

theorem drain_holds {r : ρ} (n : Nat) (h : (drain n b).1.Holds r) : b.Holds r := by
  induction n generalizing b with
  | zero => exact h
  | succ n ih =>
    unfold drain at h
    split at h
    · rcases ih h with ⟨i, hi⟩ | hw
      · exact .inl ⟨i, getElem?_of_erase hi⟩
      · exact .inr hw
    · exact h

/-- A release that landed is the only new one. -/
theorem land_holds {seq : Nat} {r x : ρ} (h : (b.land seq r).1.Holds x) : b.Holds x ∨ x = r := by
  unfold land at h
  split at h
  · exact .inl h
  · rcases drain_holds _ h with ⟨i, hi⟩ | ⟨i, hi⟩
    · have hi : (b.parked.insert seq r)[i]? = some x := hi
      rw [ExtTreeMap.getElem?_insert] at hi
      split at hi
      · exact .inr (Option.some.inj hi).symm
      · exact .inl (.inl ⟨i, hi⟩)
    · exact .inl (.inr ⟨i, getElem?_of_erase hi⟩)

/-- A release that is watched is the only new one. -/
theorem watch_holds {seq : Nat} {r x : ρ} (h : (b.watch seq r).Holds x) : b.Holds x ∨ x = r := by
  rcases h with hp | ⟨i, hi⟩
  · exact .inl (.inl hp)
  · have hi : (b.watched.insert seq r)[i]? = some x := hi
    rw [ExtTreeMap.getElem?_insert] at hi
    split at hi
    · exact .inr (Option.some.inj hi).symm
    · exact .inl (.inr ⟨i, hi⟩)

/-- Giving a slot up brings nothing new. -/
theorem expire_holds {seq : Nat} {x : ρ} (h : (b.expire seq).1.Holds x) : b.Holds x := by
  unfold expire at h
  split at h
  next r hr =>
    rcases land_holds h with (hp | ⟨i, hi⟩) | rfl
    · exact .inl hp
    · exact .inr ⟨i, getElem?_of_erase hi⟩
    · exact .inr ⟨seq, hr⟩
  · exact h

/-! ## What holds of every slot -/

/-- `P` holds of every slot that has a release, and of the release: served, parked or
watched. -/
structure All (P : Nat → ρ → Prop) (b : Reorder ρ) : Prop where
  served : ∀ e ∈ b.served, P e.1 e.2
  parked : ∀ {i : Nat} {r : ρ}, b.parked[i]? = some r → P i r
  watched : ∀ {i : Nat} {r : ρ}, b.watched[i]? = some r → P i r

section All

variable {P : Nat → ρ → Prop}

theorem All.init : All P ({} : Reorder ρ) where
  served _ h := absurd h List.not_mem_nil
  parked h := by
    rw [ExtTreeMap.getElem?_empty] at h
    cases h
  watched h := by
    rw [ExtTreeMap.getElem?_empty] at h
    cases h

theorem All.mono {Q : Nat → ρ → Prop} (h : All P b) (hPQ : ∀ i r, P i r → Q i r) : All Q b where
  served e he := hPQ _ _ (h.served e he)
  parked hi := hPQ _ _ (h.parked hi)
  watched hi := hPQ _ _ (h.watched hi)

theorem All.alloc (h : All P b) : All P b.alloc.1 := ⟨h.served, h.parked, h.watched⟩

theorem All.watch {seq : Nat} {r : ρ} (h : All P b) (hr : P seq r) : All P (b.watch seq r) where
  served := h.served
  parked := h.parked
  watched {i x} hi := by
    have hnew : (b.watched.insert seq r)[i]? = some x := hi
    rw [ExtTreeMap.getElem?_insert] at hnew
    split at hnew
    next he =>
      obtain rfl : seq = i := Std.LawfulEqCmp.compare_eq_iff_eq.mp he
      exact Option.some.inj hnew ▸ hr
    · exact h.watched hnew

/-- What a drain leaves satisfies what it did. -/
theorem All.drain (n : Nat) (h : All P b) : All P (drain n b).1 := by
  induction n generalizing b with
  | zero => exact h
  | succ n ih =>
    unfold Reorder.drain
    split
    next r hr =>
      refine ih ⟨fun e he => ?_, fun hi => h.parked (getElem?_of_erase hi), h.watched⟩
      rcases List.mem_append.mp he with he | he
      · exact h.served e he
      · rw [List.mem_singleton.mp he]
        exact h.parked hr
    · exact h

/-- A release lands in a slot it is right for. -/
theorem All.land {seq : Nat} {r : ρ} (h : All P b) (hr : P seq r) : All P (b.land seq r).1 := by
  unfold Reorder.land
  split
  · exact h
  · refine All.drain _ ⟨h.served, fun {i x} hi => ?_, fun hi => h.watched (getElem?_of_erase hi)⟩
    have hnew : (b.parked.insert seq r)[i]? = some x := hi
    rw [ExtTreeMap.getElem?_insert] at hnew
    split at hnew
    next he =>
      obtain rfl : seq = i := Std.LawfulEqCmp.compare_eq_iff_eq.mp he
      exact Option.some.inj hnew ▸ hr
    · exact h.parked hnew

theorem All.expire (seq : Nat) (h : All P b) : All P (b.expire seq).1 := by
  unfold Reorder.expire
  split
  next r hr =>
    exact All.land ⟨h.served, h.parked, fun hi => h.watched (getElem?_of_erase hi)⟩ (h.watched hr)
  · exact h

end All

end Reorder

end Lib
