import Sonara.L2.Channel
import Mathlib.Data.List.Nodup
import Mathlib.Data.List.TakeWhile
import Mathlib.Data.Finset.Filter

/-!
# The batch of a channel

A batch is read from the cursor on. `WellFormed` is what every operation keeps: the
cursor stands within the batch, no two entries share an id, and a decision mark or an
entry set aside belongs to the batch. The operations that rebuild the batch get one
lemma each that says what is left on both sides of the cursor (`take_split`,
`WellFormed.push`, `WellFormed.dropDecisions`); the rest only move the cursor.
-/

namespace Sonara.L2

open Sonara (Text)

namespace Channel

/-- The ids of the batch, in order. -/
def entryIds (c : Channel) : List Nat := c.entries.map Entry.id

/-- The entries before the cursor. -/
def read (c : Channel) : List Entry := c.entries.take c.cursor

/-- The entries from the cursor on, the ones set aside too. -/
def ahead (c : Channel) : List Entry := c.entries.drop c.cursor

structure WellFormed (c : Channel) : Prop where
  cursor_le : c.cursor ≤ c.entries.length
  nodup : c.entryIds.Nodup
  decisions : ∀ i, (c.decisions i).isSome → i ∈ c.entryIds
  aside : ∀ i ∈ c.aside, i ∈ c.entryIds

variable {c : Channel}

theorem new_wellFormed (id : ChannelId) (label hostTab : Option String) (policy : Policy) :
    (new id label hostTab policy).WellFormed :=
  ⟨Nat.le_refl 0, List.nodup_nil, fun _ h => (nomatch h),
    fun _ h => absurd h (Finset.notMem_empty _)⟩

theorem read_append_ahead (c : Channel) : c.read ++ c.ahead = c.entries :=
  List.take_append_drop c.cursor c.entries

theorem mem_entryIds {i : Nat} : i ∈ c.entryIds ↔ ∃ e ∈ c.entries, e.id = i := List.mem_map

theorem mem_unread {e : Entry} : e ∈ c.unread ↔ e ∈ c.ahead ∧ e.id ∉ c.aside := by
  unfold unread ahead
  rw [List.mem_filter, decide_eq_true_eq]

theorem caughtUp_iff : c.caughtUp = true ↔ c.unread = [] := by
  unfold caughtUp pending
  rw [beq_iff_eq, List.length_eq_zero_iff]

theorem WellFormed.read_length (h : c.WellFormed) : c.read.length = c.cursor := by
  unfold read
  rw [List.length_take]
  exact Nat.min_eq_left h.cursor_le

/-- No entry stands on both sides of the cursor. -/
theorem WellFormed.not_both (h : c.WellFormed) {e e' : Entry} (hr : e ∈ c.read)
    (ha : e' ∈ c.ahead) :
    e.id ≠ e'.id := by
  have hn := h.nodup
  unfold entryIds at hn
  rw [← c.read_append_ahead, List.map_append] at hn
  intro he
  exact (List.disjoint_of_nodup_append hn) (List.mem_map_of_mem hr) (he ▸ List.mem_map_of_mem ha)

/-- The entries of a batch are told apart by their ids. -/
theorem WellFormed.eq_of_id (h : c.WellFormed) {e e' : Entry} (he : e ∈ c.entries)
    (he' : e' ∈ c.entries) (hid : e.id = e'.id) : e = e' :=
  List.inj_on_of_nodup_map h.nodup he he' hid

/-! ## Taking the next entry -/

theorem dropWhile_eq_cons {l : List Entry} {p : Entry → Bool} {e : Entry} {es : List Entry}
    (h : l.filter (fun x => !p x) = e :: es) : ∃ tail, l.dropWhile p = e :: tail := by
  induction l with
  | nil => cases h
  | cons x l ih =>
    by_cases hp : p x
    · rw [List.filter_cons_of_neg (by simp [hp])] at h
      rw [List.dropWhile_cons_of_pos hp]
      exact ih h
    · rw [List.filter_cons_of_pos (by simp [hp])] at h
      rw [List.dropWhile_cons_of_neg hp]
      exact ⟨l, by rw [(List.cons.inj h).1]⟩

/-- `take` passes over entries set aside and takes the first unread one. -/
theorem take_split {e : Entry} {es : List Entry} (h : c.unread = e :: es) :
    ∃ passed tail, c.ahead = passed ++ e :: tail ∧ (∀ x ∈ passed, x.id ∈ c.aside) ∧
      c.take.1 = { c with cursor := c.cursor + passed.length + 1 } := by
  have hun : c.ahead.filter (fun x => !decide (x.id ∈ c.aside)) = e :: es := by
    rw [← h]
    unfold unread ahead
    refine List.filter_congr fun x _ => ?_
    by_cases hx : x.id ∈ c.aside <;> simp [hx]
  obtain ⟨tail, htail⟩ := dropWhile_eq_cons hun
  generalize hpassed : c.ahead.takeWhile (fun x => decide (x.id ∈ c.aside)) = passed
  have hsplit : c.ahead = passed ++ e :: tail := by
    rw [← hpassed, ← htail]
    exact (List.takeWhile_append_dropWhile ..).symm
  have hget : c.entries[c.cursor + passed.length]? = some e := by
    rw [← List.getElem?_drop]
    show c.ahead[passed.length]? = some e
    rw [hsplit]
    simp
  refine ⟨passed, tail, hsplit, fun x hx => ?_, ?_⟩
  · rw [← hpassed] at hx
    simpa using List.mem_takeWhile_imp hx
  · unfold take
    dsimp only
    rw [show ((c.entries.drop c.cursor).takeWhile fun e => decide (e.id ∈ c.aside)) =
      passed from hpassed]
    rw [hget]

/-! ## Pushing -/

/-- The batch starts anew with `e`. -/
def restart (c : Channel) (e : Entry) : Channel :=
  { c with entries := [e], decisions := fun _ => none, aside := ∅, cursor := 0, gen := c.gen + 1,
           replaying := false }

/-- The batch has `e` before the unread entries, or behind them. -/
def insert (c : Channel) (e : Entry) (front : Bool) : Channel :=
  { c with entries := if front then c.read ++ e :: c.ahead else c.entries ++ [e], gen := c.gen + 1,
           replaying := false }

theorem insertIdx_append (xs ys : List Entry) (e : Entry) :
    (xs ++ ys).insertIdx xs.length e = xs ++ e :: ys := by
  induction xs with
  | nil => rfl
  | cons x xs ih =>
    rw [List.cons_append, List.length_cons, List.insertIdx_succ_cons, ih]
    rfl

/-- `push` restarts the batch when it is told to, or when the channel is caught up and
neither read nor growing; else it adds to the batch. -/
theorem WellFormed.push (h : c.WellFormed) (e : Entry) (replace front reading : Bool) :
    c.push e replace front reading =
      if replace || (c.caughtUp && !reading && !c.growing) then c.restart e
      else c.insert e front := by
  unfold Channel.push
  dsimp only
  split
  · unfold restart
    cases front <;> rfl
  · unfold insert
    cases front with
    | true =>
      have hins := insertIdx_append c.read c.ahead e
      rw [c.read_append_ahead, h.read_length] at hins
      simp only [if_true]
      rw [hins]
    | false =>
      simp only [Bool.false_eq_true, if_false]
      rw [List.insertIdx_length_self]

/-! ## Removing decisions -/

/-- The marks of the entries `ids` are forgotten. -/
def strip (c : Channel) (ids : List Nat) : Channel :=
  { c with decisions := fun i => if i ∈ ids then none else c.decisions i
           aside := c.aside.filter (· ∉ ids) }

theorem strip_nil (c : Channel) : c.strip [] = c := by
  unfold strip
  simp

theorem strip_strip (c : Channel) (xs ys : List Nat) :
    (c.strip xs).strip ys = c.strip (xs ++ ys) := by
  unfold strip
  congr 1
  · funext i
    by_cases hx : i ∈ xs <;> by_cases hy : i ∈ ys <;> simp [hx, hy]
  · ext i
    simp [and_assoc]

/-- One entry is taken out. -/
theorem strip_singleton (c : Channel) (i : Nat) :
    c.strip [i] = { c with
      decisions := Function.update c.decisions i none
      aside := c.aside.erase i } := by
  unfold strip
  congr 1
  · funext j
    by_cases hj : j = i <;> simp [hj, Function.update_of_ne]
  · ext j
    simp [and_comm]

/-- `dropDecisions` takes `e` out, read (`before`) or not. -/
def gone (c : Channel) (which : Resolved) (before : Bool) (e : Entry) : Bool :=
  (c.decisions e.id).any fun stored => which.goes before stored

theorem gone_strip {which : Resolved} {before : Bool} {e : Entry} {ids : List Nat}
    (h : e.id ∉ ids) :
    (c.strip ids).gone which before e = c.gone which before e := by
  unfold gone strip
  dsimp only
  rw [if_neg h]

/-- The ids of the entries of `l` that `dropDecisions` takes out. -/
def goneIds (c : Channel) (which : Resolved) (before : Bool) (l : List Entry) : List Nat :=
  (l.filter (c.gone which before)).map Entry.id

theorem goneIds_subset {which : Resolved} {before : Bool} {l : List Entry} {i : Nat}
    (h : i ∈ c.goneIds which before l) : i ∈ l.map Entry.id :=
  (List.map_subset _ (List.filter_subset_self _)) h

theorem goneIds_strip {which : Resolved} {before : Bool} {l : List Entry} {ids : List Nat}
    (h : ∀ e ∈ l, e.id ∉ ids) : (c.strip ids).goneIds which before l =
    c.goneIds which before l := by
  unfold goneIds
  rw [List.filter_congr fun e he => gone_strip (h e he)]

/-- The loop of `dropDecisions` behind the cursor. -/
theorem dropLoop_ahead (which : Resolved) (rest : List Entry) {c : Channel} {kept : List Entry}
    (hk : c.cursor ≤ kept.length) (hn : (rest.map Entry.id).Nodup) :
    dropLoop which c kept rest =
      ({ c.strip (c.goneIds which false rest) with
          entries := kept ++ rest.filter (!c.gone which false ·) },
        rest.filter (c.gone which false)) := by
  induction rest generalizing c kept with
  | nil =>
    unfold dropLoop goneIds
    simp [strip_nil]
  | cons e rest ih =>
    obtain ⟨hnot, hnodup⟩ := List.nodup_cons.mp hn
    have hfresh : ∀ x ∈ rest, x.id ∉ [e.id] := fun x hx h =>
      hnot (List.mem_singleton.mp h ▸ List.mem_map_of_mem hx)
    have hb : decide (kept.length < c.cursor) = false := by simpa using hk
    unfold dropLoop
    dsimp only
    rw [hb]
    by_cases hg : c.gone which false e = true
    · rw [if_pos (show ((c.decisions e.id).any fun stored => which.goes false stored) = true
        from hg)]
      have hstrip : ({ c with
          decisions := Function.update c.decisions e.id none
          aside := c.aside.erase e.id
          cursor := if false = true then c.cursor - 1 else c.cursor } : Channel) = c.strip [e.id] :=
        (strip_singleton c e.id).symm
      have hstay : ∀ x ∈ rest, (!(c.strip [e.id]).gone which false x) = !c.gone which false x :=
        fun x hx => by rw [gone_strip (hfresh x hx)]
      rw [hstrip, ih (c := c.strip [e.id]) hk hnodup, goneIds_strip hfresh, List.filter_congr hstay,
        List.filter_congr fun x hx => gone_strip (hfresh x hx), strip_strip,
        List.filter_cons_of_neg (by simp [hg]), List.filter_cons_of_pos hg]
      unfold goneIds
      rw [List.filter_cons_of_pos hg]
      rfl
    · rw [if_neg (show ¬((c.decisions e.id).any fun stored => which.goes false stored) =
        true from hg),
        ih (by rw [List.length_append]; omega) hnodup,
        List.filter_cons_of_pos (by simp [hg]), List.filter_cons_of_neg hg, List.append_assoc]
      unfold goneIds
      rw [List.filter_cons_of_neg hg]
      rfl

/-- The loop of `dropDecisions` up to the cursor. -/
theorem dropLoop_read (which : Resolved) (front tail : List Entry) {c : Channel} {kept : List Entry}
    (hk : c.cursor = kept.length + front.length) (hn : (front.map Entry.id).Nodup) :
    dropLoop which c kept (front ++ tail) =
      dropLoop which { c.strip (c.goneIds which true front) with
          cursor := kept.length + (front.filter (!c.gone which true ·)).length }
        (kept ++ front.filter (!c.gone which true ·)) tail := by
  induction front generalizing c kept with
  | nil =>
    unfold goneIds
    simp only [List.filter_nil, List.map_nil, strip_nil, List.nil_append, List.append_nil]
    rw [← hk]
  | cons e front ih =>
    obtain ⟨hnot, hnodup⟩ := List.nodup_cons.mp hn
    have hfresh : ∀ x ∈ front, x.id ∉ [e.id] := fun x hx h =>
      hnot (List.mem_singleton.mp h ▸ List.mem_map_of_mem hx)
    have hlen : c.cursor = kept.length + (front.length + 1) := hk
    have hb : decide (kept.length < c.cursor) = true := by
      rw [decide_eq_true_eq]
      omega
    rw [List.cons_append, dropLoop]
    dsimp only
    rw [hb]
    by_cases hg : c.gone which true e = true
    · rw [if_pos (show ((c.decisions e.id).any fun stored => which.goes true stored) = true
        from hg)]
      have hstrip : ({ c with
          decisions := Function.update c.decisions e.id none
          aside := c.aside.erase e.id
          cursor := if true = true then c.cursor - 1 else c.cursor } : Channel) =
          { c.strip [e.id] with cursor := c.cursor - 1 } := by
        rw [strip_singleton]
        rfl
      have hstay : ∀ x ∈ front, (!gone { c.strip [e.id] with cursor := c.cursor - 1 }
        which true x) =
          !c.gone which true x := fun x hx => congrArg (!·) (gone_strip (hfresh x hx))
      have hids : goneIds { c.strip [e.id] with cursor := c.cursor - 1 } which true front =
          c.goneIds which true front := goneIds_strip hfresh
      rw [hstrip, ih (c := { c.strip [e.id] with cursor := c.cursor - 1 })
        (by dsimp only; omega) hnodup,
        List.filter_congr hstay, hids, List.filter_cons_of_neg (by simp [hg])]
      have hstrips : (c.strip [e.id]).strip (c.goneIds which true front) =
          c.strip (c.goneIds which true (e :: front)) := by
        rw [strip_strip]
        unfold goneIds
        rw [List.filter_cons_of_pos hg]
        rfl
      rw [← hstrips]
      simp only [if_true]
      congr 1
    · rw [if_neg (show ¬((c.decisions e.id).any fun stored => which.goes true stored) =
        true from hg),
        ih (by rw [List.length_append, List.length_singleton]; omega) hnodup,
        List.filter_cons_of_pos (by simp [hg])]
      have hids : c.goneIds which true (e :: front) = c.goneIds which true front := by
        unfold goneIds
        rw [List.filter_cons_of_neg hg]
      rw [hids, List.append_assoc, List.length_append]
      simp only [List.length_cons, List.length_nil, List.singleton_append]
      congr 2
      omega

/-- What is left of the batch before the cursor. -/
def readLeft (c : Channel) (which : Resolved) : List Entry := c.read.filter (!c.gone which true ·)

/-- What is left of the batch from the cursor on. -/
def aheadLeft (c : Channel) (which : Resolved) : List Entry :=
  c.ahead.filter (!c.gone which false ·)

/-- The ids `dropDecisions` takes out of the batch. -/
def dropped (c : Channel) (which : Resolved) : List Nat :=
  c.goneIds which true c.read ++ c.goneIds which false c.ahead

/-- **`dropDecisions` filters both sides of the cursor**, which stays between them. -/
theorem WellFormed.dropDecisions (h : c.WellFormed) (which : Resolved) :
    c.dropDecisions which =
      ({ c.strip (c.dropped which) with
          entries := c.readLeft which ++ c.aheadLeft which
          cursor := (c.readLeft which).length },
        c.ahead.filter (c.gone which false)) := by
  have hn := h.nodup
  unfold entryIds at hn
  rw [← c.read_append_ahead, List.map_append] at hn
  have hread := hn.of_append_left
  have hfresh : ∀ e ∈ c.ahead, e.id ∉ c.goneIds which true c.read := fun e he hi =>
    (List.disjoint_of_nodup_append hn) (goneIds_subset hi) (List.mem_map_of_mem he)
  have hlen : c.cursor = ([] : List Entry).length + c.read.length := by
    rw [h.read_length, List.length_nil, Nat.zero_add]
  unfold Channel.dropDecisions
  rw [← c.read_append_ahead, dropLoop_read which c.read c.ahead hlen hread,
    dropLoop_ahead which c.ahead (by simp) hn.of_append_right]
  have hids : goneIds { c.strip (c.goneIds which true c.read) with
      cursor := ([] : List Entry).length + (c.read.filter (!c.gone which true ·)).length }
      which false
        c.ahead = c.goneIds which false c.ahead := goneIds_strip hfresh
  have hgone : ∀ e ∈ c.ahead, gone { c.strip (c.goneIds which true c.read) with
      cursor := ([] : List Entry).length + (c.read.filter (!c.gone which true ·)).length }
      which false e =
        c.gone which false e := fun e he => gone_strip (hfresh e he)
  rw [hids, List.filter_congr hgone, List.filter_congr fun e he => congrArg (!·) (hgone e he)]
  have hstrips : (c.strip (c.goneIds which true c.read)).strip (c.goneIds which false c.ahead) =
      c.strip (c.dropped which) := strip_strip ..
  rw [← hstrips]
  simp only [List.length_nil, Nat.zero_add, List.nil_append]
  rfl

end Channel

end Sonara.L2
