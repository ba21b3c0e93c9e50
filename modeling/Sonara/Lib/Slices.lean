import Mathlib.Data.List.Basic

/-!
# Byte offsets into text

A text is indexed by bytes, and a slice of it fails when its ends are out of order, past the
end or inside a character (`dropBytes`, `takeBytes`, `slice`). What makes a slice safe is that
both its ends stand between two characters: `Rest s i t` says that byte `i` of `s` does, with
`t` behind it. Every scanner below returns an offset of this kind, whatever it looks for, so a
sum of such offsets is one again (`Rest.tail`).
-/

namespace Lib

/-- The length in bytes. -/
def bytes : List Char → Nat
  | [] => 0
  | c :: t => c.utf8Size + bytes t

@[simp] theorem bytes_nil : bytes [] = 0 := rfl

@[simp] theorem bytes_cons (c : Char) (t : List Char) : bytes (c :: t) = c.utf8Size + bytes t := rfl

@[simp] theorem bytes_append (s t : List Char) : bytes (s ++ t) = bytes s + bytes t := by
  induction s with
  | nil => exact (Nat.zero_add _).symm
  | cons c s ih => rw [List.cons_append, bytes_cons, bytes_cons, ih, Nat.add_assoc]

theorem bytes_pos {t : List Char} (h : t ≠ []) : 0 < bytes t := by
  cases t with
  | nil => exact absurd rfl h
  | cons c t =>
    have hc := c.utf8Size_pos
    rw [bytes_cons]
    omega

theorem bytes_le_of_front {s t : List Char} (h : s <+: t) : bytes s ≤ bytes t := by
  obtain ⟨r, rfl⟩ := h
  rw [bytes_append]
  omega

theorem bytes_le_of_back {s t : List Char} (h : s <:+ t) : bytes s ≤ bytes t := by
  obtain ⟨r, rfl⟩ := h
  rw [bytes_append]
  omega

theorem bytes_takeWhile (p : Char → Bool) (t : List Char) :
    bytes (t.takeWhile p) = bytes t - bytes (t.dropWhile p) := by
  have h : bytes (t.takeWhile p ++ t.dropWhile p) =
    bytes t := by rw [List.takeWhile_append_dropWhile]
  rw [bytes_append] at h
  omega

/-! ## Slices -/

/-- `&t[n..]`. -/
def dropBytes : List Char → Nat → Option (List Char)
  | [], n => if n = 0 then some [] else none
  | c :: t, n =>
    if n = 0 then some (c :: t)
    else if c.utf8Size ≤ n then dropBytes t (n - c.utf8Size)
    else none

/-- `&t[..n]`. -/
def takeBytes : List Char → Nat → Option (List Char)
  | [], n => if n = 0 then some [] else none
  | c :: t, n =>
    if n = 0 then some []
    else if c.utf8Size ≤ n then (takeBytes t (n - c.utf8Size)).map (c :: ·)
    else none

/-- `&t[a..b]`. -/
def slice (t : List Char) (a b : Nat) : Option (List Char) :=
  if a ≤ b then (dropBytes t a).bind fun rest => takeBytes rest (b - a) else none

@[simp] theorem dropBytes_zero (t : List Char) : dropBytes t 0 = some t := by
  cases t <;> rfl

@[simp] theorem takeBytes_zero (t : List Char) : takeBytes t 0 = some [] := by
  cases t <;> rfl

theorem dropBytes_append (m t : List Char) : dropBytes (m ++ t) (bytes m) = some t := by
  induction m with
  | nil => exact dropBytes_zero t
  | cons c m ih =>
    have hc := c.utf8Size_pos
    rw [List.cons_append, bytes_cons, dropBytes, if_neg (by omega), if_pos (by omega),
      Nat.add_sub_cancel_left]
    exact ih

theorem takeBytes_append (m t : List Char) : takeBytes (m ++ t) (bytes m) = some m := by
  induction m with
  | nil => exact takeBytes_zero t
  | cons c m ih =>
    have hc := c.utf8Size_pos
    rw [List.cons_append, bytes_cons, takeBytes, if_neg (by omega), if_pos (by omega),
      Nat.add_sub_cancel_left, ih]
    rfl

/-! ## Places between two characters -/

/-- Byte `i` of `s` stands between two characters, and `t` is what is behind it. -/
def Rest (s : List Char) (i : Nat) (t : List Char) : Prop := ∃ m, s = m ++ t ∧ bytes m = i

variable {s t m : List Char} {i : Nat}

theorem Rest.start (s : List Char) : Rest s 0 s := ⟨[], rfl, rfl⟩

theorem Rest.end (s : List Char) : Rest s (bytes s) [] := ⟨s, (List.append_nil s).symm, rfl⟩

theorem Rest.tail (h : Rest s i (m ++ t)) : Rest s (i + bytes m) t := by
  obtain ⟨k, rfl, rfl⟩ := h
  exact ⟨k ++ m, (List.append_assoc k m t).symm, bytes_append k m⟩

theorem Rest.char {c : Char} (h : Rest s i (c :: t)) : Rest s (i + c.utf8Size) t := by
  have htail := Rest.tail (m := [c]) h
  rwa [bytes_cons, bytes_nil, Nat.add_zero] at htail

theorem Rest.length (h : Rest s i t) : i + bytes t = bytes s := by
  obtain ⟨k, rfl, rfl⟩ := h
  exact (bytes_append k t).symm

theorem Rest.drop (h : Rest s i t) : dropBytes s i = some t := by
  obtain ⟨k, rfl, rfl⟩ := h
  exact dropBytes_append k t

theorem Rest.slice (h : Rest s i (m ++ t)) : slice s i (i + bytes m) = some m := by
  unfold Lib.slice
  rw [if_pos (Nat.le_add_right _ _), h.drop, Option.bind_some, Nat.add_sub_cancel_left]
  exact takeBytes_append m t

theorem Rest.take (h : Rest s i t) : ∃ k, takeBytes s i = some k ∧ s = k ++ t := by
  obtain ⟨k, rfl, rfl⟩ := h
  exact ⟨k, takeBytes_append k t, rfl⟩

/-- Bytes that can be dropped leave a place in the text. -/
theorem rest_of_drop {t : List Char} (h : dropBytes s i = some t) : Rest s i t := by
  induction s generalizing i with
  | nil =>
    unfold dropBytes at h
    split at h
    next hi =>
      cases h
      exact ⟨[], rfl, hi.symm⟩
    · cases h
  | cons c s ih =>
    unfold dropBytes at h
    split at h
    next hi =>
      cases h
      exact ⟨[], rfl, hi.symm⟩
    · split at h
      next hc =>
        obtain ⟨m, rfl, hm⟩ := ih h
        exact ⟨c :: m, rfl, by rw [bytes_cons]; omega⟩
      · cases h

/-- In front of the end there is a character. -/
theorem Rest.next (h : Rest s i t) (hi : i < bytes s) : ∃ c r, t = c :: r := by
  cases t with
  | nil =>
    have := h.length
    rw [bytes_nil] at this
    omega
  | cons c r => exact ⟨c, r, rfl⟩

/-! ## Searches -/

/-- The text behind `sub`, when it begins with it (`strip_prefix`). -/
def stripStart (sub t : List Char) : Option (List Char) :=
  if sub.isPrefixOf t then some (t.drop sub.length) else none

/-- The first character that `p` holds of (`char_indices().find`). -/
def findChar (p : Char → Bool) : List Char → Option Nat
  | [] => none
  | c :: t => if p c then some 0 else (findChar p t).map (c.utf8Size + ·)

/-- The first place where `sub` stands (`str::find`). -/
def find (sub : List Char) : List Char → Option Nat
  | [] => if sub = [] then some 0 else none
  | c :: t => if sub.isPrefixOf (c :: t) then some 0 else (find sub t).map (c.utf8Size + ·)

/-- The text in front of the first `sub` (`split(sub).next()`). -/
def before (sub : List Char) : List Char → List Char
  | [] => []
  | c :: t => if sub.isPrefixOf (c :: t) then [] else c :: before sub t

/-- The first character at which a test that may fail holds: it is given the number of
characters and of bytes in front. -/
def search (f : Nat → Nat → Char → Option Bool) : Nat → Nat → List Char → Option (Option Nat)
  | _, _, [] => some none
  | k, j, c :: t => do
    if ← f k j c then
      return some j
    else
      search f (k + 1) (j + c.utf8Size) t

theorem stripStart_some {sub : List Char} (h : stripStart sub s = some t) : s = sub ++ t := by
  unfold stripStart at h
  split at h
  next hp =>
    obtain ⟨r, rfl⟩ := List.isPrefixOf_iff_prefix.mp hp
    rw [List.drop_left] at h
    rw [Option.some.inj h]
  · cases h

/-- A character that is found is the first that satisfies the test, at that byte. -/
theorem findChar_some {p : Char → Bool} {j : Nat} (h : findChar p s = some j) :
    ∃ m c r, s = m ++ c :: r ∧ bytes m = j ∧ p c = true ∧ ∀ d ∈ m, p d = false := by
  induction s generalizing j with
  | nil => cases h
  | cons c t ih =>
    unfold findChar at h
    split at h
    next hc =>
      cases h
      exact ⟨[], c, t, rfl, rfl, hc, fun d hd => absurd hd List.not_mem_nil⟩
    next hc =>
      obtain ⟨j', hj', rfl⟩ := Option.map_eq_some_iff.mp h
      obtain ⟨m, d, r, rfl, rfl, hd, hm⟩ := ih hj'
      refine ⟨c :: m, d, r, rfl, bytes_cons c m, hd, fun e he => ?_⟩
      rcases List.mem_cons.mp he with rfl | he
      · exact Bool.eq_false_iff.mpr hc
      · exact hm e he

/-- Up to the first character that `p` holds of, or up to the end. -/
theorem findChar_end (p : Char → Bool) (s : List Char) :
    ∃ m r, s = m ++ r ∧ (findChar p s).getD (bytes s) = bytes m ∧
      ∀ c t, s = c :: t → p c = false → m ≠ [] := by
  cases h : findChar p s with
  | none => exact ⟨s, [], (List.append_nil s).symm, rfl, fun c t hs _ => hs ▸ List.cons_ne_nil c t⟩
  | some j =>
    obtain ⟨m, d, r, rfl, rfl, hd, -⟩ := findChar_some h
    refine ⟨m, d :: r, rfl, rfl, ?_⟩
    rintro c t hs hc rfl
    cases hs
    rw [hc] at hd
    cases hd

/-- A text that is found is there, at that byte. -/
theorem find_some {sub : List Char} {j : Nat} (h : find sub s = some j) :
    ∃ m r, s = m ++ (sub ++ r) ∧ bytes m = j := by
  induction s generalizing j with
  | nil =>
    unfold find at h
    split at h
    next hsub =>
      cases h
      exact ⟨[], [], by rw [hsub]; rfl, rfl⟩
    · cases h
  | cons c t ih =>
    unfold find at h
    split at h
    next hp =>
      cases h
      obtain ⟨r, hr⟩ := List.isPrefixOf_iff_prefix.mp hp
      exact ⟨[], r, hr.symm, rfl⟩
    · obtain ⟨j', hj', rfl⟩ := Option.map_eq_some_iff.mp h
      obtain ⟨m, r, rfl, rfl⟩ := ih hj'
      exact ⟨c :: m, r, rfl, bytes_cons c m⟩

/-- Up to the first `sub`, or up to the end. -/
theorem find_end (sub s : List Char) : ∃ m r, s = m ++ r ∧ (find sub s).getD
    (bytes s) = bytes m := by
  cases h : find sub s with
  | none => exact ⟨s, [], (List.append_nil s).symm, rfl⟩
  | some j =>
    obtain ⟨m, r, rfl, rfl⟩ := find_some h
    exact ⟨m, sub ++ r, rfl, rfl⟩

/-- A search whose test fails nowhere does not fail, and stops where the test holds. -/
theorem search_some {f : Nat → Nat → Char → Option Bool} {k j : Nat}
    (hf : ∀ m c r, s = m ++ c :: r → ∃ b, f (k + m.length) (j + bytes m) c = some b) :
    ∃ o, search f k j s = some o ∧ ∀ e, o = some e →
      ∃ m c r, s = m ++ c :: r ∧ e = j + bytes m ∧ f (k + m.length) e c = some true := by
  induction s generalizing k j with
  | nil => exact ⟨none, rfl, fun e he => nomatch he⟩
  | cons c t ih =>
    obtain ⟨b, hb⟩ := hf [] c t rfl
    have hb' : f k j c = some b := hb
    unfold search
    rw [hb', Option.bind_eq_bind, Option.bind_some]
    cases b with
    | true =>
      exact ⟨some j, rfl, fun e he => ⟨[], c, t, rfl, (Option.some.inj he).symm,
        Option.some.inj he ▸ hb'⟩⟩
    | false =>
      obtain ⟨o, ho, hstop⟩ := ih (fun m d r hm => by
        obtain ⟨b, hb⟩ := hf (c :: m) d r (by rw [hm]; rfl)
        rw [List.length_cons, bytes_cons] at hb
        exact ⟨b, by rw [← hb]; congr 1 <;> omega⟩ : ∀ m d r, t = m ++ d :: r →
          ∃ b, f (k + 1 + m.length) (j + c.utf8Size + bytes m) d = some b)
      refine ⟨o, ho, fun e he => ?_⟩
      obtain ⟨m, d, r, rfl, rfl, hd⟩ := hstop e he
      refine ⟨c :: m, d, r, rfl, by rw [bytes_cons]; omega, ?_⟩
      rw [← hd, List.length_cons]
      congr 1
      omega

/-- Up to the first character at which the test holds, or up to the end. -/
theorem search_end {f : Nat → Nat → Char → Option Bool}
    (hf : ∀ m c r, s = m ++ c :: r → ∃ b, f m.length (bytes m) c = some b) :
    ∃ o m r, search f 0 0 s = some o ∧ s = m ++ r ∧ o.getD (bytes s) = bytes m ∧
      ∀ c t, s = c :: t → f 0 0 c = some false → m ≠ [] := by
  obtain ⟨o, ho, hstop⟩ := @search_some s f 0 0 (by simpa using hf)
  cases o with
  | none =>
    exact ⟨none, s, [], ho, (List.append_nil s).symm, rfl,
      fun c t hs _ => hs ▸ List.cons_ne_nil c t⟩
  | some e =>
    obtain ⟨m, d, r, rfl, rfl, hd⟩ := hstop e rfl
    refine ⟨_, m, d :: r, ho, rfl, Nat.zero_add _, ?_⟩
    rintro c t hs hc rfl
    cases hs
    cases hd.symm.trans hc

end Lib
