import Mathlib.Algebra.GroupWithZero.Nat
import Mathlib.Data.List.Basic

/-!
# Lines of bytes that come in pieces

Bytes arrive in reads whose ends mean nothing. A buffered reader gives them out line by line
again: `readUntil` depends on the bytes only (`readUntil_pieces`). A line feed is one byte of
UTF-8 that occurs in no other character (`newline_mem`), so the lines of the bytes of a text
are the bytes of its lines (`encode_line`).
-/

namespace Lib

/-! ## The first line of a list -/

section Line

variable {α : Type} [DecidableEq α] (d : α)

/-- Everything up to the first `d`, with it. -/
def line : List α → List α
  | [] => []
  | c :: cs => if c = d then [c] else c :: line cs

/-- What follows the first line. -/
def afterLine : List α → List α
  | [] => []
  | c :: cs => if c = d then cs else afterLine cs

@[simp] theorem line_nil : line d [] = [] := rfl

@[simp] theorem afterLine_nil : afterLine d [] = [] := rfl

theorem line_afterLine (t : List α) : line d t ++ afterLine d t = t := by
  induction t with
  | nil => rfl
  | cons c cs ih =>
    unfold line afterLine
    split
    · rfl
    · rw [List.cons_append, ih]

theorem line_ne_nil {t : List α} (h : t ≠ []) : line d t ≠ [] := by
  cases t with
  | nil => exact absurd rfl h
  | cons c cs =>
    unfold line
    split <;> exact List.cons_ne_nil _ _

variable {d}

/-- A text without `d` is one line. -/
theorem line_of_not_mem {t : List α} (h : d ∉ t) : line d t = t ∧ afterLine d t = [] := by
  induction t with
  | nil => exact ⟨rfl, rfl⟩
  | cons c cs ih =>
    obtain ⟨hc, hcs⟩ := not_or.mp (mt List.mem_cons.mpr h)
    obtain ⟨hl, ha⟩ := ih hcs
    unfold line afterLine
    rw [if_neg (Ne.symm hc), if_neg (Ne.symm hc), hl, ha]
    exact ⟨rfl, rfl⟩

/-- A line that ends, before anything else. -/
theorem line_append {l : List α} (t : List α) (h : d ∉ l) :
    line d (l ++ d :: t) = l ++ [d] ∧ afterLine d (l ++ d :: t) = t := by
  induction l with
  | nil => exact ⟨if_pos rfl, if_pos rfl⟩
  | cons c cs ih =>
    obtain ⟨hc, hcs⟩ := not_or.mp (mt List.mem_cons.mpr h)
    obtain ⟨hl, ha⟩ := ih hcs
    rw [List.cons_append, List.cons_append]
    unfold line afterLine
    rw [if_neg (Ne.symm hc), if_neg (Ne.symm hc), hl, ha]
    exact ⟨rfl, rfl⟩

/-- A text that holds no `d` only moves into the first line. -/
theorem line_past {l : List α} (t : List α) (h : d ∉ l) :
    line d (l ++ t) = l ++ line d t ∧ afterLine d (l ++ t) = afterLine d t := by
  induction l with
  | nil => exact ⟨rfl, rfl⟩
  | cons c cs ih =>
    obtain ⟨hc, hcs⟩ := not_or.mp (mt List.mem_cons.mpr h)
    obtain ⟨hl, ha⟩ := ih hcs
    rw [List.cons_append, List.cons_append, line, afterLine, if_neg (Ne.symm hc),
      if_neg (Ne.symm hc), hl, ha]
    exact ⟨rfl, rfl⟩

/-- A first line that is in `l` is the first line of anything `l` starts. -/
theorem line_of_mem {l : List α} (t : List α) (h : d ∈ l) :
    line d (l ++ t) = line d l ∧ afterLine d (l ++ t) = afterLine d l ++ t := by
  induction l with
  | nil => exact absurd h List.not_mem_nil
  | cons c cs ih =>
    rw [List.cons_append]
    unfold line afterLine
    by_cases hc : c = d
    · rw [if_pos hc, if_pos hc, if_pos hc, if_pos hc]
      exact ⟨rfl, rfl⟩
    · obtain ⟨hl, ha⟩ := ih ((List.mem_cons.mp h).resolve_left (Ne.symm hc))
      rw [if_neg hc, if_neg hc, if_neg hc, if_neg hc, hl, ha]
      exact ⟨rfl, rfl⟩

end Line

/-! ## A reader over pieces -/

/-- What one read of a source comes to. -/
inductive Read (α ε : Type) where
  | piece (b : List α)
  | failed (e : ε)

section Reader

variable {α ε : Type} [DecidableEq α] (d : α)

/-- The bytes up to `d`, or to the end of the source, with what is left in the buffer and to be
read. -/
def readUntil (acc buf : List α) : List (Read α ε) → Except ε (List α × List α × List (Read α ε))
  | [] => .ok (acc ++ line d buf, afterLine d buf, [])
  | .piece b :: reads =>
    if d ∈ buf then .ok (acc ++ line d buf, afterLine d buf, .piece b :: reads)
    else readUntil (acc ++ buf) b reads
  | .failed e :: reads =>
    if d ∈ buf then .ok (acc ++ line d buf, afterLine d buf, .failed e :: reads) else .error e

/-- The bytes still to come. -/
def toCome (buf : List α) : List (Read α ε) → Nat
  | [] => buf.length
  | .piece b :: reads => buf.length + toCome b reads
  | .failed _ :: _ => buf.length

/-- A line that is not empty takes something from what is to come. -/
theorem readUntil_toCome {acc buf line' buf' : List α} {reads reads' : List (Read α ε)}
    (h : readUntil d acc buf reads = .ok (line', buf', reads')) :
    toCome buf' reads' + line'.length = toCome buf reads + acc.length := by
  have hcut : ∀ b : List α, (line d b).length + (afterLine d b).length = b.length := by
    intro b
    rw [← List.length_append, line_afterLine]
  induction reads generalizing acc buf with
  | nil =>
    obtain ⟨rfl, rfl, rfl⟩ : acc ++ line d buf = line' ∧ afterLine d buf = buf' ∧ [] = reads' := by
      simpa [readUntil] using h
    have := hcut buf
    simp only [toCome, List.length_append]
    omega
  | cons r reads ih =>
    cases r with
    | piece b =>
      unfold readUntil at h
      split at h
      · obtain ⟨rfl, rfl, rfl⟩ : acc ++ line d buf = line' ∧ afterLine d buf = buf' ∧
            .piece b :: reads = reads' := by simpa using h
        have := hcut buf
        simp only [toCome, List.length_append]
        omega
      · have := ih h
        rw [List.length_append] at this
        simp only [toCome]
        omega
    | failed e =>
      unfold readUntil at h
      split at h
      · obtain ⟨rfl, rfl, rfl⟩ : acc ++ line d buf = line' ∧ afterLine d buf = buf' ∧
            .failed e :: reads = reads' := by simpa using h
        have := hcut buf
        simp only [toCome, List.length_append]
        omega
      · cases h

/-- **Pieces do not matter.** From a source that does not fail, a read gives the first line of
all its bytes and leaves the rest. -/
theorem readUntil_pieces (acc buf : List α) (pieces : List (List α)) :
    ∃ buf' : List α, ∃ pieces' : List (List α), readUntil d acc buf
    (pieces.map .piece : List (Read α ε)) =
        .ok (acc ++ line d (buf ++ pieces.flatten), buf', pieces'.map .piece) ∧
      buf' ++ pieces'.flatten = afterLine d (buf ++ pieces.flatten) := by
  induction pieces generalizing acc buf with
  | nil =>
    rw [List.flatten_nil, List.append_nil]
    exact ⟨afterLine d buf, [], rfl, List.append_nil _⟩
  | cons b rest ih =>
    rw [List.flatten_cons, List.map_cons, readUntil]
    by_cases h : d ∈ buf
    · obtain ⟨hl, ha⟩ := line_of_mem (b ++ rest.flatten) h
      refine ⟨afterLine d buf, b :: rest, ?_, ?_⟩
      · rw [if_pos h, hl]
        rfl
      · rw [ha, List.flatten_cons]
    · obtain ⟨buf', pieces', hr, hrest⟩ := ih (acc ++ buf) b
      obtain ⟨hl, ha⟩ := line_past (b ++ rest.flatten) h
      refine ⟨buf', pieces', ?_, hrest.trans ha.symm⟩
      rw [if_neg h, hl, ← List.append_assoc]
      exact hr

/-- A source that fails in the end fails the read, or gives a line before that. -/
theorem readUntil_fails (acc buf : List α) (pieces : List (List α)) (e : ε) :
    readUntil d acc buf (pieces.map .piece ++ [.failed e]) = .error e ∨
      ∃ line' buf' : List α, ∃ pieces' : List (List α), line' ≠ [] ∧
        readUntil d acc buf (pieces.map .piece ++ [.failed e]) =
          .ok (line', buf', pieces'.map .piece ++ [.failed e]) := by
  have found : ∀ {acc buf : List α}, d ∈ buf → acc ++ line d buf ≠ [] := by
    intro acc buf h happ
    have hbuf : buf ≠ [] := List.ne_nil_of_mem h
    exact line_ne_nil d hbuf (List.append_eq_nil_iff.mp happ).2
  induction pieces generalizing acc buf with
  | nil =>
    rw [List.map_nil, List.nil_append, readUntil]
    by_cases h : d ∈ buf
    · exact .inr ⟨_, _, [], found h, if_pos h⟩
    · exact .inl (if_neg h)
  | cons b rest ih =>
    rw [List.map_cons, List.cons_append, readUntil]
    by_cases h : d ∈ buf
    · exact .inr ⟨_, _, b :: rest, found h, if_pos h⟩
    · rw [if_neg h]
      exact ih (acc ++ buf) b

end Reader

/-! ## UTF-8 -/

namespace Utf8

/-- The bytes of a text. -/
def encode (t : List Char) : List UInt8 := t.flatMap String.utf8EncodeChar

/-- The text of bytes that are valid UTF-8. -/
def decode (b : List UInt8) : Option (List Char) := b.toByteArray.utf8Decode?.map Array.toList

@[simp] theorem encode_nil : encode [] = [] := rfl

theorem encode_cons (c : Char) (t : List Char) :
    encode (c :: t) = String.utf8EncodeChar c ++ encode t := List.flatMap_cons

theorem encode_eq (t : List Char) : (encode t).toByteArray = t.utf8Encode := rfl

theorem decode_encode (t : List Char) : decode (encode t) = some t := by
  unfold decode
  rw [encode_eq, List.utf8Decode?_utf8Encode]
  rfl

theorem encode_eq_nil {t : List Char} (h : encode t = []) : t = [] := by
  cases t with
  | nil => rfl
  | cons c cs =>
    rw [encode_cons] at h
    exact absurd (List.append_eq_nil_iff.mp h).1 String.utf8EncodeChar_ne_nil

/-- A character takes at least one byte. -/
theorem length_encode (t : List Char) : t.length ≤ (encode t).length := by
  induction t with
  | nil => exact Nat.le_refl _
  | cons c cs ih =>
    have hpos : 0 < (String.utf8EncodeChar c).length :=
      List.length_pos_iff.mpr String.utf8EncodeChar_ne_nil
    rw [encode_cons, List.length_append, List.length_cons]
    omega

theorem ofNat_ne_ten {n : Nat} (h : 128 ≤ n) (h' : n < 256) : (10 : UInt8) ≠ UInt8.ofNat n := by
  intro h10
  have hn : (10 : UInt8).toNat = n % 256 := congrArg UInt8.toNat h10
  have h10 : (10 : UInt8).toNat = 10 := rfl
  omega

/-- A line feed is a byte of no other character. -/
theorem newline_mem (c : Char) : (10 : UInt8) ∈ String.utf8EncodeChar c ↔ c = '\n' := by
  constructor
  · intro h
    unfold String.utf8EncodeChar at h
    dsimp only at h
    split at h
    · next hv =>
      have h10 := congrArg UInt8.toNat (List.mem_singleton.mp h)
      have hn : 10 = c.val.toNat % 256 := h10
      have hc : c.val.toNat = 10 := by omega
      exact Char.ext (UInt32.toNat.inj hc)
    · exfalso
      split at h
      · simp only [List.mem_cons, List.not_mem_nil, or_false] at h
        obtain h | h := h <;> exact ofNat_ne_ten (by omega) (by omega) h
      · split at h
        · simp only [List.mem_cons, List.not_mem_nil, or_false] at h
          obtain h | h | h := h <;> exact ofNat_ne_ten (by omega) (by omega) h
        · simp only [List.mem_cons, List.not_mem_nil, or_false] at h
          obtain h | h | h | h := h <;> exact ofNat_ne_ten (by omega) (by omega) h
  · rintro rfl
    decide

/-- **The lines of the bytes are the bytes of the lines.** -/
theorem encode_line (t : List Char) :
    line 10 (encode t) = encode (line '\n' t) ∧ afterLine 10 (encode t) = encode
    (afterLine '\n' t) := by
  induction t with
  | nil => exact ⟨rfl, rfl⟩
  | cons c cs ih =>
    obtain ⟨hl, ha⟩ := ih
    by_cases hc : c = '\n'
    · subst hc
      exact ⟨rfl, rfl⟩
    · obtain ⟨hl', ha'⟩ := line_past (encode cs) (mt (newline_mem c).mp hc)
      have hline : line '\n' (c :: cs) = c :: line '\n' cs := if_neg hc
      have hafter : afterLine '\n' (c :: cs) = afterLine '\n' cs := if_neg hc
      rw [hline, hafter, encode_cons, encode_cons, ← hl, ← ha]
      exact ⟨hl', ha'⟩

end Utf8

end Lib
