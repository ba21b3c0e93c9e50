import Sonara.Strings

/-!
# Where a cut message resumes (`streaming.rs`, `rest_of`)

The rest of a message starts at the sentence that the estimated place is in. The code scans
the text once, up to that place, with three variables; `scan_spec` says what each of them is
of the characters seen so far. Positions are counted in characters; the estimate in seconds
has become one (`reached`).
-/

namespace Sonara.External

open Sonara Text

/-- What the scan carries: the last sentence start, whether the last character that is no
white space ended a sentence, and whether a sentence may start. -/
structure Scan where
  start : Nat := 0
  ended : Bool := false
  gap : Bool := false
  deriving DecidableEq, Repr

/-- The end of a sentence. -/
def isStop (c : Char) : Bool := c == '.' || c == '!' || c == '?'

/-- One character, and its place. -/
def Scan.next (s : Scan) (p : Char × Nat) : Scan :=
  if p.1 = '\n' || (s.ended && isWhitespace p.1) then { s with gap := true }
  else if !isWhitespace p.1 then
    { start := if s.gap then p.2 else s.start, gap := false, ended := isStop p.1 }
  else s

/-- The scan of the characters of `t`. -/
def scan (t : Text) : Scan := t.zipIdx.foldl Scan.next {}

/-- The text still to read after `reached` characters of `text` were spoken. -/
def restOf (text : Text) (reached : Nat) : Text :=
  if text.length ≤ reached then [] else trim (text.drop (scan (text.take (reached + 1))).start)

/-! ## What the scan finds -/

/-- White space, behind the end of a sentence. -/
def Ended (t : Text) : Prop := ∃ a c w, t = a ++ c :: w ∧ isStop c ∧ ∀ x ∈ w, isWhitespace x

/-- White space, behind a line break or behind the end of a sentence and a white space. -/
def Gap (t : Text) : Prop :=
  ∃ a c w, t = a ++ c :: w ∧ (c = '\n' ∨ isStop c ∧ w ≠ []) ∧ ∀ x ∈ w, isWhitespace x

/-- A sentence of `t` starts at `p`: at its beginning, or at the first character after a
line break, or after the end of a sentence and white space, that is no white space. -/
def StartsAt (t : Text) (p : Nat) : Prop :=
  p = 0 ∨ ∃ a c b, t = a ++ c :: b ∧ a.length = p ∧ !isWhitespace c ∧ Gap a

theorem isStop_not_white {c : Char} (h : isStop c) : isWhitespace c = false := by
  unfold isStop at h
  simp only [Bool.or_eq_true, beq_iff_eq] at h
  rcases h with (rfl | rfl) | rfl
  · rfl
  · rfl
  · rfl

/-- A character behind white space ends a sentence, or the white space goes on. -/
theorem ended_snoc {t : Text} {c : Char} :
    Ended (t ++ [c]) ↔ isStop c ∨ isWhitespace c ∧ Ended t := by
  constructor
  · rintro ⟨a, d, w, heq, hstop, hw⟩
    rcases List.eq_nil_or_concat w with rfl | ⟨w, x, rfl⟩
    · obtain ⟨-, hd⟩ := List.append_inj' heq rfl
      obtain rfl := List.cons.inj hd |>.1
      exact .inl hstop
    · rw [List.concat_eq_append, ← List.cons_append, ← List.append_assoc] at heq
      obtain ⟨rfl, hd⟩ := List.append_inj' heq rfl
      obtain rfl := List.cons.inj hd |>.1
      refine .inr ⟨hw c ?_, a, d, w, rfl, hstop, fun y hy => hw y ?_⟩
      · simp
      · simp [hy]
  · rintro (hstop | ⟨hwhite, a, d, w, rfl, hstop, hw⟩)
    · exact ⟨t, c, [], rfl, hstop, fun _ h => absurd h List.not_mem_nil⟩
    · refine ⟨a, d, w ++ [c], by simp, hstop, fun x hx => ?_⟩
      rcases List.mem_append.mp hx with hx | hx
      · exact hw x hx
      · obtain rfl := List.mem_singleton.mp hx
        exact hwhite

/-- A gap ends with a line break, or with white space after a gap or an end. -/
theorem gap_snoc {t : Text} {c : Char} :
    Gap (t ++ [c]) ↔ c = '\n' ∨ isWhitespace c ∧ (Gap t ∨ Ended t) := by
  constructor
  · rintro ⟨a, d, w, heq, hd, hw⟩
    rcases List.eq_nil_or_concat w with rfl | ⟨w, x, rfl⟩
    · obtain ⟨-, hc⟩ := List.append_inj' heq rfl
      obtain rfl := List.cons.inj hc |>.1
      exact .inl (hd.resolve_right fun h => h.2 rfl)
    · rw [List.concat_eq_append, ← List.cons_append, ← List.append_assoc] at heq
      obtain ⟨rfl, hc⟩ := List.append_inj' heq rfl
      obtain rfl := List.cons.inj hc |>.1
      have hrest : ∀ y ∈ w, isWhitespace y := fun y hy => hw y (by simp [hy])
      refine .inr ⟨hw c (by simp), ?_⟩
      rcases hd with hd | ⟨hstop, -⟩
      · exact .inl ⟨a, d, w, rfl, .inl hd, hrest⟩
      · exact .inr ⟨a, d, w, rfl, hstop, hrest⟩
  · have hmore : ∀ w : Text, isWhitespace c → (∀ x ∈ w, isWhitespace x) →
        ∀ x ∈ w ++ [c], isWhitespace x := by
      intro w hc hw x hx
      rcases List.mem_append.mp hx with hx | hx
      · exact hw x hx
      · obtain rfl := List.mem_singleton.mp hx
        exact hc
    rintro (rfl | ⟨hwhite, ⟨a, d, w, rfl, hd, hw⟩ | ⟨a, d, w, rfl, hstop, hw⟩⟩)
    · exact ⟨t, '\n', [], rfl, .inl rfl, fun _ h => absurd h List.not_mem_nil⟩
    · exact ⟨a, d, w ++ [c], by simp, hd.imp_right fun h => ⟨h.1, by simp⟩, hmore w hwhite hw⟩
    · exact ⟨a, d, w ++ [c], by simp, .inr ⟨hstop, by simp⟩, hmore w hwhite hw⟩

/-- A longer text has the sentence starts of the shorter one, and its last character may be
one more. -/
theorem startsAt_snoc {t : Text} {c : Char} {p : Nat} :
    StartsAt (t ++ [c]) p ↔ StartsAt t p ∨ p = t.length ∧ !isWhitespace c ∧ Gap t := by
  constructor
  · rintro (rfl | ⟨a, d, b, heq, rfl, hd, hgap⟩)
    · exact .inl (.inl rfl)
    · rcases List.eq_nil_or_concat b with rfl | ⟨b, x, rfl⟩
      · obtain ⟨rfl, hc⟩ := List.append_inj' heq rfl
        obtain rfl := List.cons.inj hc |>.1
        exact .inr ⟨rfl, hd, hgap⟩
      · rw [List.concat_eq_append, ← List.cons_append, ← List.append_assoc] at heq
        obtain ⟨rfl, -⟩ := List.append_inj' heq rfl
        exact .inl (.inr ⟨a, d, b, rfl, rfl, hd, hgap⟩)
  · rintro ((rfl | ⟨a, d, b, rfl, rfl, hd, hgap⟩) | ⟨rfl, hc, hgap⟩)
    · exact .inl rfl
    · exact .inr ⟨a, d, b ++ [c], by simp, rfl, hd, hgap⟩
    · exact .inr ⟨t, c, [], rfl, rfl, hc, hgap⟩

theorem scan_snoc (t : Text) (c : Char) : scan (t ++ [c]) = (scan t).next (c, t.length) := by
  unfold scan
  rw [List.zipIdx_append, List.foldl_append, Nat.zero_add]
  rfl

/-- The start of the scan is in the text. -/
theorem scan_start_le (t : Text) : (scan t).start ≤ t.length := by
  induction t using List.reverseRecOn with
  | nil => exact Nat.le_refl 0
  | append_singleton t c ih =>
    have hmore : (t ++ [c]).length = t.length + 1 := List.length_append
    rw [scan_snoc, hmore]
    unfold Scan.next
    split
    · exact Nat.le_succ_of_le ih
    · split
      · dsimp only
        split <;> omega
      · exact Nat.le_succ_of_le ih

/-- **The scan finds the last sentence start**, and knows what it has read. -/
theorem scan_spec (t : Text) :
    ((scan t).ended = true ↔ Ended t) ∧ ((scan t).gap = true ↔ Gap t) ∧
    StartsAt t (scan t).start ∧ ∀ p, StartsAt t p → p ≤ (scan t).start := by
  induction t using List.reverseRecOn with
  | nil =>
    have hnone : ∀ {a : Text} {c : Char} {w : Text}, [] ≠ a ++ c :: w := by simp
    refine ⟨⟨nofun, ?_⟩, ⟨nofun, ?_⟩, .inl rfl, ?_⟩
    · rintro ⟨a, c, w, h, -⟩
      exact absurd h hnone
    · rintro ⟨a, c, w, h, -⟩
      exact absurd h hnone
    · rintro p (rfl | ⟨a, c, w, h, -⟩)
      · exact Nat.le_refl 0
      · exact absurd h hnone
  | append_singleton t c ih =>
    obtain ⟨hended, hgap, hstarts, hlast⟩ := ih
    rw [scan_snoc]
    unfold Scan.next
    dsimp only
    -- A white character starts no sentence, and is no stop.
    have hwhite : isWhitespace c = true → isStop c = false ∧
        (∀ p, StartsAt (t ++ [c]) p ↔ StartsAt t p) := by
      intro hc
      refine ⟨Bool.eq_false_iff.mpr fun hstop => ?_, fun p => ?_⟩
      · rw [isStop_not_white hstop] at hc
        cases hc
      · rw [startsAt_snoc, hc]
        simp
    split
    next hopens =>
      rw [Bool.or_eq_true, Bool.and_eq_true, decide_eq_true_eq] at hopens
      have hc : isWhitespace c = true := hopens.elim (fun h => h ▸ rfl) fun h => h.2
      obtain ⟨hstop, hsame⟩ := hwhite hc
      refine ⟨?_, ?_, (hsame _).mpr hstarts, fun p hp => hlast p ((hsame p).mp hp)⟩
      · rw [ended_snoc, hstop, hc]
        simpa using hended
      · rw [gap_snoc]
        exact ⟨fun _ => hopens.imp_right fun h => ⟨h.2, .inr (hended.mp h.1)⟩, fun _ => rfl⟩
    next hnot =>
      rw [Bool.or_eq_true, Bool.and_eq_true, decide_eq_true_eq, not_or, not_and] at hnot
      obtain ⟨hline, hquiet⟩ := hnot
      split
      next hc =>
        have hblack : isWhitespace c = false := by simpa using hc
        refine ⟨?_, ?_, ?_, ?_⟩
        · rw [ended_snoc, hblack]
          simp
        · rw [gap_snoc, hblack]
          simp [hline]
        · rw [startsAt_snoc]
          split
          next hg => exact .inr ⟨rfl, hc, hgap.mp hg⟩
          · exact .inl hstarts
        · intro p hp
          rcases startsAt_snoc.mp hp with hp | ⟨rfl, -, hg⟩
          · have hle := hlast p hp
            split
            · exact Nat.le_trans hle (scan_start_le t)
            · exact hle
          · rw [if_pos (hgap.mpr hg)]
      next hc =>
        have hc : isWhitespace c = true := by simpa using hc
        obtain ⟨hstop, hsame⟩ := hwhite hc
        have hidle : ¬Ended t := fun h => hquiet (hended.mpr h) hc
        refine ⟨?_, ?_, (hsame _).mpr hstarts, fun p hp => hlast p ((hsame p).mp hp)⟩
        · rw [ended_snoc, hstop, hc]
          simpa using hended
        · rw [gap_snoc, hc]
          simp [hline, hidle, hgap]

/-! ## The rest -/

/-- The last sentence start of `text` at or before `reached`. -/
def resume (text : Text) (reached : Nat) : Nat := (scan (text.take (reached + 1))).start

/-- A sentence starts in a prefix where it starts in the text. -/
theorem startsAt_take {t : Text} {n p : Nat} :
    StartsAt (t.take n) p ↔ StartsAt t p ∧ (p = 0 ∨ p < n) := by
  constructor
  · rintro (rfl | ⟨a, c, b, heq, rfl, hc, hgap⟩)
    · exact ⟨.inl rfl, .inl rfl⟩
    · refine ⟨.inr ⟨a, c, b ++ t.drop n, ?_, rfl, hc, hgap⟩, .inr ?_⟩
      · rw [← List.cons_append, ← List.append_assoc, ← heq, List.take_append_drop]
      · have hlen := congrArg List.length heq
        rw [List.length_take, List.length_append, List.length_cons] at hlen
        omega
  · rintro ⟨rfl | ⟨a, c, b, rfl, rfl, hc, hgap⟩, hn⟩
    · exact .inl rfl
    · rcases hn with hn | hn
      · exact .inl hn
      · refine .inr ⟨a, c, b.take (n - a.length - 1), ?_, rfl, hc, hgap⟩
        obtain ⟨k, rfl⟩ := Nat.exists_eq_add_of_lt hn
        rw [List.take_append, List.take_of_length_le (by omega)]
        have hk : a.length + k + 1 - a.length = k + 1 := by omega
        rw [hk, List.take_succ_cons, Nat.add_sub_cancel]

theorem resume_spec (text : Text) (reached : Nat) :
    StartsAt text (resume text reached) ∧ resume text reached ≤ reached ∧
      ∀ p, StartsAt text p → p ≤ reached → p ≤ resume text reached := by
  obtain ⟨-, -, hstarts, hlast⟩ := scan_spec (text.take (reached + 1))
  obtain ⟨hstarts, hle⟩ := startsAt_take.mp hstarts
  refine ⟨hstarts, ?_, fun p hp hpr => hlast p
    (startsAt_take.mpr ⟨hp, .inr (Nat.lt_succ_of_le hpr)⟩)⟩
  show (scan (text.take (reached + 1))).start ≤ reached
  omega

theorem restOf_eq {text : Text} {reached : Nat} (h : reached < text.length) :
    restOf text reached = trim (text.drop (resume text reached)) := if_neg (Nat.not_le.mpr h)

theorem restOf_past {text : Text} {reached : Nat} (h : text.length ≤ reached) :
    restOf text reached = [] := if_pos h

theorem resume_mono (text : Text) {reached later : Nat} (h : reached ≤ later) :
    resume text reached ≤ resume text later := by
  obtain ⟨hstarts, hle, -⟩ := resume_spec text reached
  exact (resume_spec text later).2.2 _ hstarts (Nat.le_trans hle h)

/-- A later place leaves a shorter rest. -/
theorem restOf_suffix (text : Text) {reached later : Nat} (h : reached ≤ later) :
    restOf text later <:+ restOf text reached := by
  by_cases hpast : text.length ≤ later
  · rw [restOf_past hpast]
    exact List.nil_suffix
  · have hlater := Nat.lt_of_not_le hpast
    rw [restOf_eq hlater, restOf_eq (Nat.lt_of_le_of_lt h hlater)]
    have hle := resume_mono text h
    rcases (resume_spec text later).1 with hzero | ⟨a, c, b, htext, hlen, hc, -⟩
    · have hsame : resume text reached = resume text later := by omega
      exact hsame ▸ List.suffix_refl _
    · have hdrop : ∀ n, n ≤ a.length → text.drop n = a.drop n ++ c :: b := by
        intro n hn
        rw [htext, List.drop_append_of_le_length hn]
      rw [← hlen] at hle ⊢
      rw [hdrop a.length (Nat.le_refl _), hdrop _ hle, List.drop_length, List.nil_append]
      exact trim_suffix _ b (by simpa using hc)

/-- **A cut message resumes at the sentence it had reached.** Past the end nothing is left.
Else the rest is the text from the last sentence start at or before the place, trimmed; every
character behind the place that is no white space is in it, and a later place leaves an end
of it. -/
theorem rest_resumes (text : Text) (reached : Nat) :
    (text.length ≤ reached → restOf text reached = []) ∧
    (reached < text.length → ∃ p, StartsAt text p ∧ p ≤ reached ∧
      (∀ p', StartsAt text p' → p' ≤ reached → p' ≤ p) ∧ restOf text reached = trim (text.drop p)) ∧
    ink (text.drop reached) <:+ ink (restOf text reached) ∧
    ∀ later, reached ≤ later → restOf text later <:+ restOf text reached := by
  refine ⟨restOf_past, fun h => ⟨_, (resume_spec text reached).1, (resume_spec text reached).2.1,
    (resume_spec text reached).2.2, restOf_eq h⟩, ?_, fun later h => restOf_suffix text h⟩
  by_cases hpast : text.length ≤ reached
  · rw [List.drop_of_length_le hpast]
    exact List.nil_suffix
  · rw [restOf_eq (Nat.lt_of_not_le hpast), ink_trim]
    have hle := (resume_spec text reached).2.1
    obtain ⟨k, hk⟩ := Nat.exists_eq_add_of_le hle
    have hmore : text.drop reached = (text.drop (resume text reached)).drop k := by
      rw [List.drop_drop, ← hk]
    rw [hmore]
    exact (List.drop_suffix k _).filter _

theorem rest_resumes_second : restOf "One two. Four five!".toList 12 = "Four five!".toList ∧
    ∃ p, StartsAt "One two. Four five!".toList p ∧ p ≤ 12 ∧
      (∀ p', StartsAt "One two. Four five!".toList p' → p' ≤ 12 → p' ≤ p) ∧
      restOf "One two. Four five!".toList 12 = trim ("One two. Four five!".toList.drop p) :=
  ⟨by decide, (rest_resumes "One two. Four five!".toList 12).2.1 (by decide)⟩

example : restOf "One two. Four five!

Eight.".toList 12 = "Four five!

Eight.".toList := by decide

end Sonara.External
