import Sonara.Log.Walk

/-!
# An assigned secret in a line

A `Site` is a place of a line where a secret name is assigned a value. When the value
holds only word characters the walk sees name and value as one word and writes the
mask for the value (`masked_site`). Otherwise the word ends inside the value and what
is left of it is written as any other text (`masked_cut`, `masked_open`).
-/

namespace Sonara.Log

open Sonara.Text

/-- A character of a value: neither white space nor a quote. -/
def valueChar (c : Char) : Bool := !(isWhitespace c || c == '"' || c == '\'')

/-- A place of a line where the secret `name`, which starts a word, is assigned a value;
the value ends the line or white space or a quote ends it. -/
structure Site where
  before : Text
  name : Text
  behind : Text
  starts : BeforeWord before
  wordy : Wordy name
  plain : '=' ∉ name
  secret : secretKey name = true
  ends : behind.head?.any valueChar = false

/-- The line with `value` assigned. -/
def Site.line (s : Site) (value : Text) : Text :=
  s.before ++ (s.name ++ '=' :: value ++ s.behind)

/-- A character of a word is one of a value. -/
theorem valueChar_of_wordChar {c : Char} (h : wordChar c = true) : valueChar c = true := by
  have hn : 0x2B ≤ c.toNat ∧ c.toNat ≤ 0x7E := by
    unfold wordChar at h
    rcases Bool.or_eq_true_iff.mp h with h | h
    · change (decide (c.val ≥ 'A'.val ∧ c.val ≤ 'Z'.val) ||
        decide (c.val ≥ 'a'.val) && decide (c.val ≤ 'z'.val) ||
        decide (c.val ≥ '0'.val) && decide (c.val ≤ '9'.val)) = true at h
      simp only [Bool.or_eq_true, Bool.and_eq_true, decide_eq_true_eq, UInt32.le_iff_toNat_le,
        ge_iff_le] at h
      have : c.toNat = c.val.toNat := rfl
      have : 'A'.val.toNat = 65 := rfl
      have : 'Z'.val.toNat = 90 := rfl
      have : 'a'.val.toNat = 97 := rfl
      have : 'z'.val.toNat = 122 := rfl
      have : '0'.val.toNat = 48 := rfl
      have : '9'.val.toNat = 57 := rfl
      omega
    · simp only [List.contains_cons, List.contains_nil, Bool.or_false, Bool.or_eq_true,
        beq_iff_eq] at h
      rcases h with rfl | rfl | rfl | rfl | rfl | rfl | rfl <;> decide
  have hspace : isWhitespace c = false := by
    simp only [isWhitespace, Bool.or_eq_false_iff, Bool.and_eq_false_iff, decide_eq_false_iff_not,
      beq_eq_false_iff_ne]
    omega
  have hquote : c ≠ '"' ∧ c ≠ '\'' := by
    constructor
    · rintro rfl
      exact absurd hn.1 (by decide)
    · rintro rfl
      exact absurd hn.1 (by decide)
  simp [valueChar, hspace, hquote.1, hquote.2]

theorem outsideWord_of_not_value {t : Text} (h : t.head?.any valueChar = false) :
    OutsideWord t := by
  cases t with
  | nil => rfl
  | cons c cs =>
    have hc : valueChar c = false := by simpa using h
    show (!wordChar c) = true
    cases hw : wordChar c with
    | false => rfl
    | true => exact absurd (valueChar_of_wordChar hw) (by rw [hc]; decide)

theorem assigned_eq {word name : Text} (h : assigned word = some name) :
    ∃ value, word = name ++ '=' :: value := by
  unfold assigned at h
  split at h
  next a b hs =>
    split at h
    · cases h
      exact ⟨b, splitOnce_eq hs⟩
    · cases h
  · cases h

/-- A word with a `=` in it announces nothing: it is neither `Bearer` nor `Basic`. -/
theorem not_announces {w : Text} (h : '=' ∈ w) :
    ¬(toAsciiLowercase w = "bearer".toList ∨ toAsciiLowercase w = "basic".toList) := by
  have hm : '=' ∈ toAsciiLowercase w := by
    have : Char.toLower '=' ∈ w.map Char.toLower := List.mem_map_of_mem h
    exact this
  rintro (h | h)
  · rw [h] at hm
    exact absurd hm (by decide)
  · rw [h] at hm
    exact absurd hm (by decide)

theorem write_assignment {name value : Text} (hp : '=' ∉ name) (hs : secretKey name = true)
    (hv : value ≠ []) (after : Bool) :
    write after (name ++ '=' :: value) = ⟨name ++ '=' :: MASK, true, .no⟩ := by
  have hn := not_announces (w := name ++ '=' :: value) (by simp)
  have ha : assigned (name ++ '=' :: value) = some name := by
    rw [assigned, splitOnce_append hp]
    dsimp only
    rw [if_pos (by simp [hv, hs])]
  rw [write, if_neg (by simpa using hn), ha]

/-- A bare `NAME=` is masked whole or written as it is. -/
theorem write_bare {name : Text} (hp : '=' ∉ name) (after : Bool) :
    (write after (name ++ ['='])).out = MASK ∨
      (write after (name ++ ['='])).out = name ++ ['='] := by
  have hn := not_announces (w := name ++ ['=']) (by simp)
  have ha : assigned (name ++ ['=']) = none := by
    rw [assigned, splitOnce_append hp]
    rfl
  rw [write, if_neg (by simpa using hn), ha]
  dsimp only
  split
  · exact .inl rfl
  · split <;> exact .inr rfl

/-- What is written for a word is the word, its name with the mask, or the mask. -/
theorem write_out (after : Bool) (word : Text) :
    (write after word).out = word ∨ (write after word).out = MASK ∨
      ∃ name value, word = name ++ '=' :: value ∧
        (write after word).out = name ++ '=' :: MASK := by
  unfold write
  split
  · exact .inl rfl
  · cases ha : assigned word with
    | some name =>
      obtain ⟨value, hw⟩ := assigned_eq ha
      exact .inr (.inr ⟨name, value, hw, rfl⟩)
    | none =>
      dsimp only
      split
      · exact .inr (.inl rfl)
      · split <;> exact .inl rfl

/-- What is written for a word begins with a character of a value. -/
theorem write_head {after : Bool} {word : Text} (hw : Wordy word) (hne : word ≠ []) (t : Text) :
    ((write after word).out ++ t).head?.any valueChar = true := by
  have hhead : ∀ c cs, word = c :: cs → valueChar c = true := by
    rintro c cs rfl
    exact valueChar_of_wordChar (List.all_eq_true.mp hw c List.mem_cons_self)
  rcases write_out after word with h | h | ⟨name, value, hword, h⟩
  · rw [h]
    cases word with
    | nil => exact absurd rfl hne
    | cons c cs => simpa using hhead c cs rfl
  · rw [h]
    rfl
  · rw [h]
    cases name with
    | nil => rfl
    | cons c cs => simpa using hhead c _ hword

/-- What the walk writes begins inside a value exactly when the text does. -/
theorem masked_head (next : Next) (t : Text) :
    (masked next t).1.head?.any valueChar = t.head?.any valueChar := by
  rcases split_line t with hg | ⟨g, w, r, rfl, hg, hw, hne, hr⟩
  · rw [masked_gap hg]
  · rw [masked_word hg hw hne hr]
    cases g with
    | nil =>
      obtain ⟨c, cs, rfl⟩ := List.exists_cons_of_ne_nil hne
      have hc := valueChar_of_wordChar (List.all_eq_true.mp hw c List.mem_cons_self)
      rw [List.nil_append, write_head hw hne]
      simpa using hc.symm
    | cons c cs => rfl

/-- Behind a masked word a character outside a word changes nothing of what follows. -/
theorem masked_cons {c : Char} (hc : wordChar c = false) (t : Text) :
    (masked .no (c :: t)).1 = c :: (masked .no t).1 := by
  rcases split_line t with hg | ⟨g, w, r, rfl, hg, hw, hne, hr⟩
  · have hg' : Gap (c :: t) := by simpa [Gap, hc] using hg
    rw [masked_gap hg', masked_gap hg]
  · have hg' : Gap (c :: g) := by simpa [Gap, hc] using hg
    have hf : follows .no (c :: g) = follows .no g := rfl
    have := masked_word hg' hw hne hr .no
    rw [List.cons_append] at this
    rw [this, masked_word hg hw hne hr, hf]
    rfl

end Sonara.Log
