import Sonara.Log.Folder

/-!
# The names of a stream's files

Every name the log writes is `nameOf stream n`: the stream's file for 0, its segment `n`
else. The names of valid streams are told apart (`nameOf_inj`), and what the code parses
out of one is its number (`segmentNumber_nameOf`, `anySegmentNumber_nameOf`).
-/

namespace Sonara.Log

open Sonara.Text

/-- The stream's file, and its segments. -/
def nameOf (stream : Text) : Nat → Text
  | 0 => path stream
  | n + 1 => segmentPath stream (n + 1)

theorem nameOf_pos (stream : Text) {n : Nat} (h : 0 < n) :
    nameOf stream n = segmentPath stream n := by
  cases n with
  | zero => exact absurd h (Nat.lt_irrefl 0)
  | succ n => rfl

/-- What follows the stream in a name. -/
def tailOf : Nat → Text
  | 0 => ".log".toList
  | n + 1 => '.' :: (number (n + 1) ++ ".log".toList)

theorem nameOf_eq (stream : Text) (n : Nat) : nameOf stream n = stream ++ tailOf n := by
  cases n with
  | zero => rfl
  | succ n => rfl

theorem dropPrefix_append (p t : Text) : (p ++ t).dropPrefix? p = some t :=
  List.dropPrefix?_append_of_beq t BEq.rfl

theorem dropPrefix_eq {l p t : Text} (h : l.dropPrefix? p = some t) : l = p ++ t := by
  obtain ⟨p', hl, hp⟩ := List.dropPrefix?_eq_some_iff.mp h
  rw [hl, eq_of_beq hp]

theorem dropSuffix_append (t p : Text) : (t ++ p).dropSuffix? p = some t :=
  List.dropSuffix?_eq_some_iff.mpr ⟨p, rfl, BEq.rfl⟩

/-! ## Numbers -/

theorem number_eq (n : Nat) : number n = Nat.toDigits 10 n := by
  unfold number
  rw [Nat.toString_eq_repr, Nat.toList_repr]

theorem number_ne_nil (n : Nat) : number n ≠ [] := by
  rw [number_eq]
  exact Nat.toDigits_ne_nil

theorem number_digits {n : Nat} {c : Char} (h : c ∈ number n) : c.isDigit = true := by
  rw [number_eq] at h
  exact Nat.isDigit_of_mem_toDigits (by decide) (by decide) h

theorem number_all_digits (n : Nat) : (number n).all Char.isDigit = true :=
  List.all_eq_true.mpr fun _ h => number_digits h

theorem not_mem_number {n : Nat} {c : Char} (h : c.isDigit = false) : c ∉ number n := by
  intro hc
  rw [number_digits hc] at h
  cases h

/-- **A number reads back.** -/
theorem parseU32_number {n : Nat} (h : n ≤ U32_MAX) : parseU32 (number n) = some n := by
  have hplus : (number n).head? ≠ some '+' := by
    intro hhead
    exact not_mem_number (by decide) (List.mem_of_mem_head? hhead)
  have hvalue : Nat.ofDigitChars 10 (number n) 0 = n := by
    rw [number_eq]
    exact Nat.ofDigitChars_ten_toDigits
  unfold parseU32
  dsimp only
  rw [if_neg hplus, if_pos ⟨number_ne_nil n, number_all_digits n⟩, hvalue, if_pos h]

theorem number_inj {m n : Nat} (h : number m = number n) : m = n := by
  have hread := congrArg (fun t => Nat.ofDigitChars 10 t 0) h
  simpa only [number_eq, Nat.ofDigitChars_ten_toDigits] using hread

/-! ## Streams -/

theorem validStream_dot {s : Text} (h : validStream s = true) : '.' ∉ s := by
  unfold validStream at h
  rw [Bool.and_eq_true, List.all_eq_true] at h
  intro hdot
  exact absurd (h.2 '.' hdot) (by decide)

theorem takeWhile_stream {s : Text} (h : '.' ∉ s) (t : Text) :
    (s ++ '.' :: t).takeWhile (· ≠ '.') = s := by
  rw [List.takeWhile_append_of_pos (fun c hc => by
    have hne : c ≠ '.' := fun he => h (he ▸ hc)
    simpa using hne)]
  simp

theorem tailOf_cons (n : Nat) : ∃ t, tailOf n = '.' :: t := by
  cases n with
  | zero => exact ⟨"log".toList, rfl⟩
  | succ n => exact ⟨_, rfl⟩

theorem stream_of_nameOf {s : Text} (h : validStream s = true) (n : Nat) :
    (nameOf s n).takeWhile (· ≠ '.') = s := by
  obtain ⟨t, ht⟩ := tailOf_cons n
  rw [nameOf_eq, ht]
  exact takeWhile_stream (validStream_dot h) t

/-- Two numbers with one tail are the same. -/
theorem tailOf_inj {m n : Nat} (h : tailOf m = tailOf n) : m = n := by
  -- A segment's tail is longer than that of the file.
  have hlong : ∀ k, tailOf (k + 1) ≠ tailOf 0 := by
    intro k hk
    have hlen := congrArg List.length hk
    have hpos := List.length_pos_iff.mpr (number_ne_nil (k + 1))
    simp only [tailOf, List.length_cons, List.length_append] at hlen
    have hlog : ".log".toList.length = 4 := by decide
    omega
  cases m with
  | zero =>
    cases n with
    | zero => rfl
    | succ n => exact absurd h.symm (hlong n)
  | succ m =>
    cases n with
    | zero => exact absurd h (hlong m)
    | succ n => exact number_inj (List.append_cancel_right (List.cons.inj h).2)

/-- **A name tells its stream and its number.** -/
theorem nameOf_inj {s s' : Text} {n n' : Nat} (hs : validStream s = true)
    (hs' : validStream s' = true) (h : nameOf s n = nameOf s' n') : s = s' ∧ n = n' := by
  have hstream : s = s' := by
    rw [← stream_of_nameOf hs n, h, stream_of_nameOf hs']
  subst hstream
  rw [nameOf_eq, nameOf_eq] at h
  exact ⟨rfl, tailOf_inj (List.append_cancel_left h)⟩

/-! ## What the code parses -/

/-- A segment's number is read from its name. -/
theorem segmentNumber_nameOf {s : Text} {n : Nat} (h : n ≤ U32_MAX) :
    segmentNumber (nameOf s n) s = if n = 0 then none else some n := by
  unfold segmentNumber
  rw [nameOf_eq, dropPrefix_append, Option.bind_some]
  cases n with
  | zero => decide
  | succ n =>
    have hdot : (tailOf (n + 1)).dropPrefix? ['.'] = some (number (n + 1) ++ ".log".toList) :=
      dropPrefix_append ['.'] _
    rw [hdot, Option.bind_some, dropSuffix_append, Option.bind_some, if_neg (Nat.succ_ne_zero n)]
    have hdigits : ¬(decide (number (n + 1) = []) || !(number (n + 1)).all Char.isDigit) =
        true := by
      rw [number_all_digits, decide_eq_false (number_ne_nil _)]
      decide
    rw [if_neg hdigits, parseU32_number h]

/-- A segment of one stream is none of another's. -/
theorem segmentNumber_other {s s' : Text} {n : Nat} (hs : validStream s = true)
    (hs' : validStream s' = true) (h : s ≠ s') : segmentNumber (nameOf s' n) s = none := by
  unfold segmentNumber
  cases hrest : (nameOf s' n).dropPrefix? s with
  | none => rfl
  | some rest =>
    rw [Option.bind_some]
    cases hdot : rest.dropPrefix? ['.'] with
    | none => rfl
    | some t =>
      have hname : nameOf s' n = s ++ '.' :: t := by
        rw [dropPrefix_eq hrest, dropPrefix_eq hdot]
        rfl
      have hstream := stream_of_nameOf hs' n
      rw [hname, takeWhile_stream (validStream_dot hs)] at hstream
      exact absurd hstream h

/-- **The tie-break reads the number.** -/
theorem anySegmentNumber_nameOf {s : Text} {n : Nat} (hs : validStream s = true) (h : n ≤ U32_MAX) :
    anySegmentNumber (nameOf s n) = n := by
  unfold anySegmentNumber
  cases n with
  | zero =>
    have hno : rsplitOnce '.' s = none := by
      unfold rsplitOnce
      have hdot : splitOnce '.' s.reverse = none := by
        cases hsplit : splitOnce '.' s.reverse with
        | none => rfl
        | some p =>
          have hmem : '.' ∈ s.reverse := by
            rw [splitOnce_eq hsplit]
            exact List.mem_append_right _ List.mem_cons_self
          exact absurd (List.mem_reverse.mp hmem) (validStream_dot hs)
      rw [hdot]
      rfl
    show (((s ++ ".log".toList).dropSuffix? ".log".toList).bind _).getD 0 = 0
    rw [dropSuffix_append, Option.bind_some, hno]
    rfl
  | succ n =>
    have hsplit : rsplitOnce '.' (s ++ '.' :: number (n + 1)) = some (s, number (n + 1)) := by
      unfold rsplitOnce
      have hreverse : (s ++ '.' :: number (n + 1)).reverse = (number (n + 1)).reverse ++
          '.' :: s.reverse := by
        simp
      have hdot : '.' ∉ (number (n + 1)).reverse := fun hmem =>
        not_mem_number (by decide) (List.mem_reverse.mp hmem)
      rw [hreverse, splitOnce_append hdot, Option.map_some, List.reverse_reverse,
        List.reverse_reverse]
    have hname : nameOf s (n + 1) = (s ++ '.' :: number (n + 1)) ++ ".log".toList := by
      show s ++ '.' :: (number (n + 1) ++ ".log".toList) = _
      simp
    rw [hname, dropSuffix_append, Option.bind_some, hsplit, Option.bind_some, parseU32_number h]
    rfl

end Sonara.Log
