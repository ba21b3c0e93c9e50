import Sonara.Strings

/-!
# Spoken text of a decision (`decision.rs`)

A question with its options, a plan, a permission prompt. What the rules rely on
is that such a text is never blank, so that `say` never drops a decision.
-/

namespace Sonara.L3

open Sonara Text

/-- One option of a question. -/
structure Choice where
  label : Text
  description : Option Text := none
  deriving DecidableEq, Repr

/-- What kind of decision blocks the agent. -/
inductive AskKind where
  | question
  | permission
  | plan
  deriving DecidableEq, Repr

namespace Decision

/-- Option `n`, counted from one, with its description. -/
def optionText (n : Nat) (o : Choice) : Text :=
  let seg := "Option ".toList ++ number n ++ ": ".toList ++ o.label ++ ['.']
  let desc := trim (o.description.getD [])
  if desc = [] then seg
  else seg ++ ' ' :: desc ++ (if endsWith desc ['.', '!', '?'] then [] else ['.'])

/-- The question's text, and that several options may be picked. -/
def questionHead (text : Text) (multi : Bool) : Text :=
  if multi then
    (if text = [] then [] else text ++ [' ']) ++
      "This is a multi-select; you can pick more than one.".toList
  else text

/-- A question: its text, then its options, numbered as the host shows them. -/
def questionText (text : Text) (options : List Choice) (multi : Bool) : Text :=
  let segs := (options.zipIdx.filter (·.1.label ≠ [])).map fun p => optionText (p.2 + 1) p.1
  let head := questionHead (trim text) multi
  if head = [] then
    if segs = [] then "A question needs your answer.".toList else join [' '] segs
  else if segs = [] then head else head ++ ' ' :: join [' '] segs

/-- A plan ready for review. -/
def planText (text : Text) : Text :=
  let text := trim text
  if text = [] then "A plan is ready for your review.".toList else "Plan ready. ".toList ++ text

/-- A permission prompt: the pending action. -/
def permissionText (text : Text) : Text :=
  let text := trim text
  if text = [] then "Permission needed.".toList else text

/-- Question `k`, counted from zero, of a set of `n`. -/
def numberedQuestion (k n : Nat) (body : Text) : Text :=
  "Question ".toList ++ number (k + 1) ++ " of ".toList ++ number n ++ ". ".toList ++ body

/-- `base` followed by the non-empty `extras`, one space apart. -/
def withExtras (base : Text) (extras : List Text) : Text :=
  let extras := (extras.map trim).filter (· ≠ [])
  if extras = [] then base else base ++ ' ' :: join [' '] extras

end Decision

/-! ## No decision text is blank -/

/-- `t` has a character that is no white space: `trim` leaves something. -/
def Spoken (t : Text) : Prop := ∃ c ∈ t, isWhitespace c = false

theorem Spoken.left {t t' : Text} (h : Spoken t) : Spoken (t ++ t') := by
  obtain ⟨c, hc, hw⟩ := h
  exact ⟨c, List.mem_append_left _ hc, hw⟩

theorem Spoken.right {t t' : Text} (h : Spoken t') : Spoken (t ++ t') := by
  obtain ⟨c, hc, hw⟩ := h
  exact ⟨c, List.mem_append_right _ hc, hw⟩

theorem dropWhile_ne_nil {p : Char → Bool} {t : Text} {c : Char} (hc : c ∈ t) (hp : p c = false) :
    ∃ c' ∈ t.dropWhile p, p c' = false := by
  have hsplit : c ∈ t.takeWhile p ++ t.dropWhile p := by
    rwa [List.takeWhile_append_dropWhile]
  rcases List.mem_append.mp hsplit with h | h
  · have hpc := List.mem_takeWhile_imp h
    rw [hp] at hpc
    cases hpc
  · exact ⟨c, h, hp⟩

/-- A text with a character is not blank. -/
theorem Spoken.trim_ne_nil {t : Text} (h : Spoken t) : trim t ≠ [] := by
  obtain ⟨c, hc, hw⟩ := h
  obtain ⟨c', hc', hw'⟩ := dropWhile_ne_nil hc hw
  obtain ⟨d, hd, -⟩ := dropWhile_ne_nil (List.mem_reverse.mpr hc') hw'
  intro hnil
  unfold trim trimEnd trimStart List.rdropWhile at hnil
  rw [List.reverse_eq_nil_iff] at hnil
  rw [hnil] at hd
  exact absurd hd List.not_mem_nil

/-- What `trim` leaves has a character. -/
theorem spoken_trim {t : Text} (h : trim t ≠ []) : Spoken (trim t) := by
  have hlast := List.rdropWhile_last_not isWhitespace (trimStart t) h
  exact ⟨(trim t).getLast h, List.getLast_mem h, Bool.eq_false_iff.mpr hlast⟩

namespace Decision

theorem spoken_literal {s : String} (h : s.toList.any (!isWhitespace ·) = true) :
    Spoken s.toList := by
  obtain ⟨c, hc, hw⟩ := List.any_eq_true.mp h
  exact ⟨c, hc, by simpa using hw⟩

theorem optionText_spoken (n : Nat) (o : Choice) : Spoken (optionText n o) := by
  have hseg : Spoken ("Option ".toList ++ number n ++ ": ".toList ++ o.label ++ ['.']) :=
    (((spoken_literal (by decide)).left).left).left.left
  unfold optionText
  dsimp only
  split
  · exact hseg
  · exact hseg.left.left

theorem questionHead_spoken {text : Text} {multi : Bool} (h : questionHead (trim text) multi ≠ []) :
    Spoken (questionHead (trim text) multi) := by
  unfold questionHead at h ⊢
  split
  · exact (spoken_literal (by decide)).right
  next hm =>
    rw [if_neg hm] at h
    exact spoken_trim h

theorem join_spoken {sep seg : Text} {segs : List Text} (h : Spoken seg) :
    Spoken (join sep (seg :: segs)) := by
  unfold join List.intercalate
  cases segs with
  | nil => simpa [List.intersperse] using h
  | cons seg' segs =>
    rw [List.intersperse_cons_cons, List.flatten_cons]
    exact h.left

/-- A question's text is spoken. -/
theorem questionText_spoken (text : Text) (options : List Choice) (multi : Bool) :
    Spoken (questionText text options multi) := by
  unfold questionText
  dsimp only
  split
  · split
    · exact spoken_literal (by decide)
    next hsegs =>
      obtain ⟨p, ps, hps⟩ := List.exists_cons_of_ne_nil fun h => hsegs (List.map_eq_nil_iff.mpr h)
      rw [hps, List.map_cons]
      exact join_spoken (optionText_spoken _ _)
  next hhead =>
    split
    · exact questionHead_spoken hhead
    · exact (questionHead_spoken hhead).left

theorem planText_spoken (text : Text) : Spoken (planText text) := by
  unfold planText
  dsimp only
  split
  · exact spoken_literal (by decide)
  · exact (spoken_literal (by decide)).left

theorem permissionText_spoken (text : Text) : Spoken (permissionText text) := by
  unfold permissionText
  dsimp only
  split
  · exact spoken_literal (by decide)
  next h => exact spoken_trim h

theorem withExtras_spoken {base : Text} (h : Spoken base) (extras : List Text) :
    Spoken (withExtras base extras) := by
  unfold withExtras
  dsimp only
  split
  · exact h
  · exact h.left

theorem numberedQuestion_spoken (k n : Nat) (body : Text) : Spoken (numberedQuestion k n body) :=
  (((((spoken_literal (by decide)).left).left).left).left).left

end Decision

end Sonara.L3
