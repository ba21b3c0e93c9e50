import Mathlib.Data.List.TakeWhile
import Sonara.Log.Secrets

/-!
# What the masking walk does with a line

`masked next t` is the walk over `t` with enough fuel. It leaves a gap as it is
(`masked_gap`), writes a word by `write` (`masked_word`), and what it writes is the
line itself when it masked nothing (`mask_eq`). A line up to the start of a word is
walked the same way whatever follows (`masked_before`): that is what makes two lines
comparable from the word at which they differ.
-/

namespace Sonara.Log

open Sonara.Text

/-- `t` holds only word characters. -/
def Wordy (t : Text) : Prop := t.all wordChar = true

/-- `t` holds no word character. -/
def Gap (t : Text) : Prop := t.all (!wordChar ·) = true

/-- `t` is empty or begins with a character that is no word character. -/
def OutsideWord (t : Text) : Prop := t.head?.all (!wordChar ·) = true

/-- A word may start after `t`: it is empty or ends outside a word. -/
def BeforeWord (t : Text) : Prop := t.getLast?.all (!wordChar ·) = true

instance (t : Text) : Decidable (Wordy t) := inferInstanceAs (Decidable (_ = true))

instance (t : Text) : Decidable (BeforeWord t) := inferInstanceAs (Decidable (_ = true))

/-- The walk over `t` with fuel for all of it. -/
def masked (next : Next) (t : Text) : Text × Bool := walk t.length next t

/-- A word is taken whole from before what is no word. -/
theorem takeWhile_wordy {w t : Text} (hw : Wordy w) (ht : OutsideWord t) :
    (w ++ t).takeWhile wordChar = w ∧ (w ++ t).dropWhile wordChar = t := by
  induction w with
  | nil =>
    cases t with
    | nil => exact ⟨rfl, rfl⟩
    | cons c cs =>
      have hc : wordChar c = false := by simpa [OutsideWord] using ht
      constructor
      · simp [hc]
      · simp [hc]
  | cons c cs ih =>
    have hc : wordChar c = true ∧ Wordy cs := by simpa [Wordy] using hw
    obtain ⟨h1, h2⟩ := ih hc.2
    constructor
    · rw [List.cons_append, List.takeWhile_cons_of_pos hc.1, h1]
    · rw [List.cons_append, List.dropWhile_cons_of_pos hc.1, h2]

/-- A gap is taken whole from before a word. -/
theorem takeWhile_gap {g t : Text} (hg : Gap g) (ht : t.head?.all wordChar = true) :
    (g ++ t).takeWhile (!wordChar ·) = g ∧ (g ++ t).dropWhile (!wordChar ·) = t := by
  induction g with
  | nil =>
    cases t with
    | nil => exact ⟨rfl, rfl⟩
    | cons c cs =>
      have hc : wordChar c = true := by simpa using ht
      constructor
      · simp [hc]
      · simp [hc]
  | cons c cs ih =>
    have hc : wordChar c = false ∧ Gap cs := by simpa [Gap] using hg
    obtain ⟨h1, h2⟩ := ih hc.2
    constructor
    · rw [List.cons_append, List.takeWhile_cons_of_pos (by rw [hc.1]; rfl), h1]
    · rw [List.cons_append, List.dropWhile_cons_of_pos (by rw [hc.1]; rfl), h2]

/-- Every line is a gap, then a word, then the rest; only a line without a word has
no word there. -/
theorem split_line (t : Text) :
    Gap t ∨ ∃ g w r, t = g ++ (w ++ r) ∧ Gap g ∧ Wordy w ∧ w ≠ [] ∧ OutsideWord r := by
  have hsplit : t.takeWhile (!wordChar ·) ++ t.dropWhile (!wordChar ·) = t :=
    List.takeWhile_append_dropWhile
  have hgap : Gap (t.takeWhile (!wordChar ·)) := List.all_takeWhile
  cases hr : t.dropWhile (!wordChar ·) with
  | nil =>
    left
    rw [hr, List.append_nil] at hsplit
    rwa [hsplit] at hgap
  | cons c cs =>
    right
    have hc : wordChar c = true := by
      have := List.head?_dropWhile_not (fun c => !wordChar c) t
      rw [hr] at this
      simpa using this
    refine ⟨_, (c :: cs).takeWhile wordChar, (c :: cs).dropWhile wordChar, ?_, hgap,
      List.all_takeWhile, ?_, ?_⟩
    · rw [List.takeWhile_append_dropWhile, ← hr, hsplit]
    · rw [List.takeWhile_cons_of_pos hc]
      exact List.cons_ne_nil _ _
    · have := List.head?_dropWhile_not wordChar (c :: cs)
      show (List.head? _).all _ = true
      cases hd : ((c :: cs).dropWhile wordChar).head? with
      | none => rfl
      | some d =>
        rw [hd] at this
        simpa using this

theorem walk_gap {g : Text} (hg : Gap g) (next : Next) (n : Nat) (hn : g.length ≤ n) :
    walk n next g = (g, false) := by
  cases n with
  | zero =>
    have : g = [] := List.eq_nil_of_length_eq_zero (Nat.le_zero.mp hn)
    rw [this]
    rfl
  | succ n =>
    obtain ⟨h1, h2⟩ := takeWhile_gap (t := []) hg rfl
    rw [List.append_nil] at h1 h2
    rw [walk, h1, h2]
    rfl

/-- A walk over a gap and a word goes on behind them. -/
theorem walk_word {g w r : Text} (hg : Gap g) (hw : Wordy w) (hne : w ≠ [])
    (hr : OutsideWord r) (next : Next) (n : Nat) :
    walk (n + 1) next (g ++ (w ++ r)) =
      (g ++ (write (follows next g) w).out ++ (walk n (write (follows next g) w).next r).1,
        (write (follows next g) w).changed || (walk n (write (follows next g) w).next r).2) := by
  have hhead : (w ++ r).head?.all wordChar = true := by
    cases w with
    | nil => exact absurd rfl hne
    | cons c cs =>
      have : wordChar c = true ∧ Wordy cs := by simpa [Wordy] using hw
      simpa using this.1
  have hcons : w ++ r ≠ [] := by
    intro h
    exact hne (List.append_eq_nil_iff.mp h).1
  obtain ⟨h1, h2⟩ := takeWhile_gap hg hhead
  obtain ⟨h3, h4⟩ := takeWhile_wordy hw hr
  rw [walk, h1, h2]
  simp only [if_neg hcons, h3, h4]

/-- More fuel than characters changes nothing. -/
theorem walk_fuel (next : Next) (n : Nat) :
    ∀ t : Text, t.length ≤ n → walk n next t = masked next t := by
  induction n using Nat.strongRecOn generalizing next with
  | ind n ih =>
    intro t ht
    rcases split_line t with hg | ⟨g, w, r, rfl, hg, hw, hne, hr⟩
    · rw [masked, walk_gap hg next n ht, walk_gap hg next _ (Nat.le_refl _)]
    · have hpos : 0 < w.length := List.length_pos_iff.mpr hne
      rw [List.length_append, List.length_append] at ht
      obtain ⟨m, rfl⟩ : ∃ m, n = m + 1 := ⟨n - 1, by omega⟩
      obtain ⟨k, hk⟩ : ∃ k, (g ++ (w ++ r)).length = k + 1 :=
        ⟨(g ++ (w ++ r)).length - 1, by simp only [List.length_append]; omega⟩
      have hk' : r.length ≤ k := by
        simp only [List.length_append] at hk
        omega
      have hkm : k ≤ m := by
        simp only [List.length_append] at hk
        omega
      rw [masked, hk, walk_word hg hw hne hr, walk_word hg hw hne hr,
        ih m (by omega) _ r (by omega), ih k (by omega) _ r hk']

theorem masked_gap {g : Text} (hg : Gap g) (next : Next) : masked next g = (g, false) :=
  walk_gap hg next _ (Nat.le_refl _)

/-- One word of the walk. -/
theorem masked_word {g w r : Text} (hg : Gap g) (hw : Wordy w) (hne : w ≠ [])
    (hr : OutsideWord r) (next : Next) :
    masked next (g ++ (w ++ r)) =
      (g ++ (write (follows next g) w).out ++ (masked (write (follows next g) w).next r).1,
        (write (follows next g) w).changed || (masked (write (follows next g) w).next r).2) := by
  have hpos : 0 < w.length := List.length_pos_iff.mpr hne
  obtain ⟨k, hk⟩ : ∃ k, (g ++ (w ++ r)).length = k + 1 :=
    ⟨(g ++ (w ++ r)).length - 1, by simp only [List.length_append]; omega⟩
  have hk' : r.length ≤ k := by
    simp only [List.length_append] at hk
    omega
  rw [masked, hk, walk_word hg hw hne hr, walk_fuel _ k r hk']

/-- A word that was not changed is written as it was. -/
theorem write_unchanged (value : Bool) (word : Text)
    (h : (write value word).changed = false) : (write value word).out = word := by
  unfold write at h ⊢
  split
  · rfl
  · rename_i hb
    rw [if_neg hb] at h
    cases ha : assigned word with
    | some name =>
      rw [ha] at h
      cases h
    | none =>
      rw [ha] at h
      dsimp only at h ⊢
      split
      · rename_i hv
        rw [if_pos hv] at h
        cases h
      · split <;> rfl

/-- A walk that masked nothing wrote the line as it is. -/
theorem masked_unchanged (n : Nat) : ∀ (next : Next) (t : Text), t.length ≤ n →
    (masked next t).2 = false → (masked next t).1 = t := by
  induction n using Nat.strongRecOn with
  | ind n ih =>
    intro next t ht h
    rcases split_line t with hg | ⟨g, w, r, rfl, hg, hw, hne, hr⟩
    · rw [masked_gap hg]
    · have hpos : 0 < w.length := List.length_pos_iff.mpr hne
      rw [List.length_append, List.length_append] at ht
      rw [masked_word hg hw hne hr] at h ⊢
      obtain ⟨h1, h2⟩ := Bool.or_eq_false_iff.mp h
      rw [write_unchanged _ _ h1, ih r.length (by omega) _ r (Nat.le_refl _) h2,
        List.append_assoc]

/-- What `mask` returns is what the walk wrote. -/
theorem mask_eq (text : Text) : mask text = (masked .no text).1 := by
  unfold mask
  show (if (masked .no text).2 = true then (masked .no text).1 else text) = _
  by_cases h : (masked .no text).2 = true
  · rw [if_pos h]
  · rw [if_neg h, masked_unchanged _ _ _ (Nat.le_refl _) (Bool.not_eq_true _ ▸ h)]

/-- A line up to the start of a word is walked the same way whatever word follows:
something is written, and a gap and a state are left for the word. -/
theorem masked_before (n : Nat) : ∀ (next : Next) (pre : Text), pre.length ≤ n →
    BeforeWord pre → ∃ out next' g, Gap g ∧ ∀ word tail, Wordy word → word ≠ [] →
      OutsideWord tail →
      (masked next (pre ++ (word ++ tail))).1 =
        out ++ (masked next' (g ++ (word ++ tail))).1 := by
  induction n using Nat.strongRecOn with
  | ind n ih =>
    intro next pre hn hpre
    rcases split_line pre with hg | ⟨g, w, r, rfl, hg, hw, hne, hr⟩
    · exact ⟨[], next, pre, hg, fun word tail _ _ _ => rfl⟩
    · have hpos : 0 < w.length := List.length_pos_iff.mpr hne
      rw [List.length_append, List.length_append] at hn
      -- The line ends outside a word, so something stands behind this one.
      have hrne : r ≠ [] := by
        rintro rfl
        rw [List.append_nil] at hpre
        have hlast : (g ++ w).getLast? = some (w.getLast hne) := by
          rw [List.getLast?_append_of_ne_nil _ hne, List.getLast?_eq_some_getLast hne]
        have hword : wordChar (w.getLast hne) = true :=
          List.all_eq_true.mp hw _ (List.getLast_mem hne)
        unfold BeforeWord at hpre
        rw [hlast] at hpre
        simp [hword] at hpre
      have hrpre : BeforeWord r := by
        unfold BeforeWord at hpre ⊢
        rwa [List.getLast?_append_of_ne_nil _ (by simp [hrne]),
          List.getLast?_append_of_ne_nil _ hrne] at hpre
      obtain ⟨out, next', g', hg', hout⟩ :=
        ih r.length (by omega) (write (follows next g) w).next r (Nat.le_refl _) hrpre
      refine ⟨g ++ (write (follows next g) w).out ++ out, next', g', hg', ?_⟩
      intro word tail hword hwne htail
      have hmore : OutsideWord (r ++ (word ++ tail)) := by
        cases r with
        | nil => exact absurd rfl hrne
        | cons c cs => exact hr
      have hassoc : g ++ (w ++ r) ++ (word ++ tail) = g ++ (w ++ (r ++ (word ++ tail))) := by
        simp only [List.append_assoc]
      rw [hassoc, masked_word hg hw hne hmore]
      dsimp only
      rw [hout word tail hword hwne htail]
      simp only [List.append_assoc]

end Sonara.Log
