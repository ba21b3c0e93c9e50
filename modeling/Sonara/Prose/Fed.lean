import Sonara.Prose.Kept

/-!
# A block fed out of order

The deltas of one block may come to the assembler in any order: a delta that was given
up on comes late, and index 0 starts the block over. Each delta is still appended to
what is held, or drained at once behind its block's final, so the pieces rebuild the
deltas' texts in the order they were fed (`Fed`). The final has to find index 0 read:
an index 0 behind it starts a block that nothing ends.
-/

namespace Sonara.Prose

open Sonara Text Lib

namespace Assembler

variable {u : Unicode} {a : Assembler} {t : Text} {ps : List Piece}

/-- The assembler holds no text. -/
structure Empty (a : Assembler) : Prop where
  buf : a.buf = []
  emitted : a.emitted = 0
  pending : a.pending = []
  inFence : a.inFence = false

theorem Empty.holds (h : a.Empty) : Holds a a.pending [] := by
  have := Holds.unrouted h.inFence h.buf h.emitted
  rwa [h.pending] at this ⊢

/-- With no text held, all of it is covered. -/
theorem Accounts.rebuilds (h : Accounts u false t a ps) (ha : a.Empty) : Rebuilds u ps t := by
  obtain ⟨x, t', w, hthin, -, hf, hc, hh⟩ := h
  obtain ⟨-, rfl⟩ := hh.buffered ha.inFence
  rw [hf rfl, ha.buf, ha.pending, List.drop_nil] at hthin
  simp only [List.append_nil] at hthin
  exact ⟨x, hthin, hc⟩

/-- A text that is covered accounts for an assembler that holds nothing. -/
theorem Rebuilds.accounts (h : Rebuilds u ps t) (ha : a.Empty) : Accounts u false t a ps := by
  obtain ⟨x, hthin, hc⟩ := h
  exact ⟨x, [], [], by rwa [List.append_nil, List.append_nil], .nil, fun _ => rfl, hc, ha.holds⟩

theorem drain_empty : (a.drain u).1.Empty := by
  obtain ⟨hp, hf⟩ := consume_routed (u := u) (a := a)
  unfold drain
  exact ⟨flushProse_buf u _, flushProse_emitted u _, (flushProse_pending u _).trans hp,
    (flushProse_inFence u _).trans hf⟩

theorem drain_seen : (a.drain u).1.seen = a.seen ∧ (a.drain u).1.done = a.done := by
  obtain ⟨hs, hd⟩ := consume_seen (u := u) (a := a) true
  obtain ⟨hs', hd'⟩ := flushProse_seen (u := u) (a := (a.consume u true).1)
  exact ⟨hs'.trans hs, hd'.trans hd⟩

/-- A delta is appended to what is held. -/
theorem Accounts.append (h : Accounts u false t a ps) (delta : Text) (seen : Finset Nat)
    (done : Option (Nat × Finset Nat)) :
    Accounts u false (t ++ delta)
      { a with pending := a.pending ++ delta, seen := seen, done := done } ps := by
  obtain ⟨x, t', w, hthin, -, hf, hc, hh⟩ := h
  rw [hf rfl, List.append_nil] at hthin
  have hheld := ((hh.append delta).indexed seen done).reroute (a.pending ++ delta)
  refine ⟨x, t' ++ delta, [], ?_, .nil, fun _ => rfl, hc, hheld⟩
  rw [List.append_nil, ← List.append_assoc]
  exact hthin.append_right delta

/-- Whether the last chunk was a break does not matter to what is held. -/
theorem Accounts.marked (h : Accounts u false t a ps) (b : Bool) :
    Accounts u false t { a with lastBreak := b } ps := by
  obtain ⟨x, t', w, hthin, hw, hf, hc, hh⟩ := h
  refine ⟨x, t', w, hthin, hw, hf, hc, ?_⟩
  cases hh with
  | prose hin hb => exact .prose (a := { a with lastBreak := b }) hin ⟨hb.whole, hb.emitted_le⟩
  | info hin ho hb he hl hls hn =>
    exact .info (a := { a with lastBreak := b }) hin ho hb he hl hls hn
  | lines hin ho hb he ht hl hn =>
    exact .lines (a := { a with lastBreak := b }) hin ho hb he ht hl hn

/-- Deltas of the block whose final is `n` were fed, those with the indices `fed`, and
their text is `t`. Before the final, what the assembler read is among them; behind it,
nothing is held, and index 0 is not to come. -/
structure Fed (u : Unicode) (n : Nat) (fed : List Nat) (t : Text) (a : Assembler)
    (ps : List Piece) : Prop where
  accounts : Accounts u false t a ps
  seen : ∀ i ∈ a.seen, i ∈ fed
  early : n ∉ fed → a.done = none
  late : n ∈ fed → a.Empty ∧ a.seen = ∅ ∧ 0 ∈ fed ∧
    ∃ had, a.done = some (n, had) ∧ ∀ i ∈ had, i ∈ fed

variable {n : Nat} {fed : List Nat}

theorem Fed.start (u : Unicode) (n : Nat) : Fed u n [] [] {} [] :=
  ⟨.held (Empty.holds ⟨rfl, rfl, rfl, rfl⟩), fun _ hi => absurd hi (Finset.notMem_empty _),
    fun _ => rfl, fun h => absurd h List.not_mem_nil⟩

theorem Fed.marked (h : Fed u n fed t a ps) (b : Bool) :
    Fed u n fed t { a with lastBreak := b } ps :=
  ⟨h.accounts.marked b, h.seen, h.early, fun hn => by
    obtain ⟨he, hs, hz, hd⟩ := h.late hn
    exact ⟨⟨he.buf, he.emitted, he.pending, he.inFence⟩, hs, hz, hd⟩⟩

/-- A fresh delta, once the block is known. -/
theorem addDelta_fed (h : Accounts u false t a ps) (hseen : ∀ i ∈ a.seen, i ∈ fed)
    (hdone : a.done = none) (hn : n ∉ fed) {delta : Text} {index : Nat} (hi : index ∉ fed)
    (hz : index = n → 0 ∈ fed ++ [index]) :
    Fed u n (fed ++ [index]) (t ++ delta) (a.addDelta u delta index (index = n)).1
      (ps ++ (a.addDelta u delta index (index = n)).2) := by
  have hfresh : index ∉ a.seen := fun hs => hi (hseen index hs)
  have happ := h.append delta (insert index a.seen) none
  have hb : ({ a with seen := insert index a.seen, pending := a.pending ++ delta } : Assembler) =
      { a with pending := a.pending ++ delta, seen := insert index a.seen, done := none } := by
    rw [← hdone]
  unfold addDelta
  rw [if_neg hfresh, hb]
  dsimp only
  generalize hc :
    ({ a with pending := a.pending ++ delta, seen := insert index a.seen, done := none } :
      Assembler) = b at happ
  have hcons : Accounts u false (t ++ delta) (b.consume u false).1
      (ps ++ (b.consume u false).2) := happ.trans fun _ => consume_accounts
  obtain ⟨hs, hd⟩ := consume_seen (u := u) (a := b) false
  have hseen' : ∀ i ∈ (b.consume u false).1.seen, i ∈ fed ++ [index] := by
    intro i hi
    rw [hs, ← hc] at hi
    rcases Finset.mem_insert.mp hi with rfl | hi
    · exact List.mem_append_right _ List.mem_cons_self
    · exact List.mem_append_left _ (hseen i hi)
  by_cases hin : index = n
  · -- The final: everything left is read, and nothing is held.
    rw [if_pos (decide_eq_true hin)]
    subst hin
    have hreb := drain_rebuilds hcons
    have hempty : ((b.consume u false).1.finish u index).1.Empty := ⟨rfl, rfl, rfl, rfl⟩
    refine ⟨?_, fun i hi => absurd hi (Finset.notMem_empty _),
      fun h => absurd (List.mem_append_right _ List.mem_cons_self) h,
      fun _ => ⟨hempty, rfl, hz rfl, _, rfl, ?_⟩⟩
    · rw [List.append_assoc] at hreb
      exact hreb.accounts hempty
    · rw [(drain_seen (u := u)).1]
      exact hseen'
  · rw [if_neg (by simpa using hin)]
    refine ⟨hcons, hseen', fun _ => hd.trans (by rw [← hc]), fun h => ?_⟩
    rcases List.mem_append.mp h with h | h
    · exact absurd h hn
    · exact absurd (List.mem_singleton.mp h).symm hin

/-- One more delta of the block, in whatever order: the final finds index 0 read. -/
theorem Fed.feedBlock (h : Fed u n fed t a ps) {delta : Text} {index : Nat} (hi : index ∉ fed)
    (hle : index ≤ n) (hz : index = n → 0 ∈ fed ++ [index]) :
    Fed u n (fed ++ [index]) (t ++ delta) (a.feedBlock u delta index (index = n)).1
      (ps ++ (a.feedBlock u delta index (index = n)).2) := by
  by_cases hn : n ∈ fed
  · -- Behind the final: read at once.
    obtain ⟨hempty, hseen, hzero, had, hdone, hhad⟩ := h.late hn
    have hmissed : a.isMissed index = true := by
      have hpos : index ≠ 0 := fun h0 => hi (h0 ▸ hzero)
      have hlt : index ≠ n := fun h0 => hi (h0 ▸ hn)
      have hnew : index ∉ had := fun h0 => hi (hhad index h0)
      unfold isMissed
      rw [hdone]
      simp only [hnew, not_false_eq_true, decide_true, Bool.and_true, Bool.and_eq_true,
        decide_eq_true_eq]
      omega
    unfold Assembler.feedBlock
    rw [if_pos hmissed, hdone, Option.map_some]
    dsimp only
    have happ := h.accounts.append delta a.seen (some (n, insert index had))
    have hreb := drain_rebuilds happ
    obtain ⟨hs, hd⟩ := drain_seen (u := u) (a := ({ a with
      pending := a.pending ++ delta, done := some (n, insert index had) } : Assembler))
    refine ⟨hreb.accounts drain_empty, fun i hi => ?_, fun h => ?_, fun _ => ⟨drain_empty, ?_,
      List.mem_append_left _ hzero, insert index had, hd, fun i hi => ?_⟩⟩
    · rw [hs, hseen] at hi
      exact absurd hi (Finset.notMem_empty i)
    · exact absurd (List.mem_append_left _ hn) h
    · exact hs.trans hseen
    · rcases Finset.mem_insert.mp hi with rfl | hi
      · exact List.mem_append_right _ List.mem_cons_self
      · exact List.mem_append_left _ (hhad i hi)
  · have hdone := h.early hn
    have hmissed : a.isMissed index = false := by
      unfold isMissed
      rw [hdone]
    unfold Assembler.feedBlock
    rw [if_neg (by rw [hmissed]; exact Bool.false_ne_true)]
    have hsame : ({ a with done := none } : Assembler) = a := by rw [← hdone]
    rw [hsame]
    dsimp only
    split
    · -- Index 0 starts the block over; what was held of it goes first.
      have hempty : (a.drain u).1.reset.Empty := ⟨rfl, rfl, rfl, rfl⟩
      have hacc := (drain_rebuilds h.accounts).accounts hempty
      have := @addDelta_fed u _ _ _ n fed hacc (fun i hi => absurd hi (Finset.notMem_empty i))
        rfl hn delta index hi hz
      rwa [List.append_assoc] at this
    · exact addDelta_fed h.accounts h.seen hdone hn hi hz

end Assembler

end Sonara.Prose
