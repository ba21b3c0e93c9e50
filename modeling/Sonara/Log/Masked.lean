import Sonara.Log.Assigned
import Sonara.Log.Scrub

/-!
# What of a secret reaches the log

Two runs of the masking that differ only in a secret. Under a key of a JSON value
nothing of the secret is left. In a text, nothing of an assigned value is left when it
holds only word characters; from its first other character on, the value is in the
line (`masked_leak`).
-/

namespace Sonara.Log

open Sonara.Text

/-- What `mask` makes of a site: the same text before the value, whatever the value. -/
theorem Site.mask_line (s : Site) : ∃ out next g, Gap g ∧ ∀ word tail value, Wordy word →
    word ≠ [] → OutsideWord tail → s.name ++ '=' :: value ++ s.behind = word ++ tail →
      mask (s.line value) = out ++ (masked next (g ++ (word ++ tail))).1 := by
  obtain ⟨out, next, g, hg, h⟩ := masked_before _ .no s.before (Nat.le_refl _) s.starts
  refine ⟨out, next, g, hg, ?_⟩
  intro word tail value hw hne ht he
  rw [mask_eq, Site.line, he]
  exact h word tail hw hne ht

theorem Site.name_ne_nil (s : Site) : s.name ≠ [] := by
  intro h
  have := s.secret
  rw [h] at this
  exact absurd this (by decide)

theorem wordy_assignment {name value : Text} (hn : Wordy name) (hv : Wordy value) :
    Wordy (name ++ '=' :: value) := by
  unfold Wordy at *
  rw [List.all_append, List.all_cons, hn, hv]
  rfl

/-- The walk over the assignment of a value of word characters. -/
theorem masked_site (s : Site) {value : Text} (hw : Wordy value) (hne : value ≠ []) {g : Text}
    (hg : Gap g) (next : Next) :
    (masked next (g ++ ((s.name ++ '=' :: value) ++ s.behind))).1 =
      g ++ (s.name ++ '=' :: MASK) ++ (masked .no s.behind).1 := by
  rw [masked_word hg (wordy_assignment s.wordy hw) (by simp)
    (outsideWord_of_not_value s.ends), write_assignment s.plain s.secret hne]

/-- The walk over the assignment of a value that leaves the word: it goes on behind the
word characters. -/
theorem masked_cut (s : Site) {w t : Text} (hw : Wordy w) (hne : w ≠ []) (ht : OutsideWord t)
    {g : Text} (hg : Gap g) (next : Next) :
    (masked next (g ++ ((s.name ++ '=' :: w) ++ t))).1 =
      g ++ (s.name ++ '=' :: MASK) ++ (masked .no t).1 := by
  rw [masked_word hg (wordy_assignment s.wordy hw) (by simp) ht,
    write_assignment s.plain s.secret hne]

/-- A text that begins inside a value and one that does not are masked differently. -/
theorem masked_ne {t : Text} (s : Site) (ht : t.head?.any valueChar = true) (next : Next) :
    (masked next t).1 ≠ (masked .no s.behind).1 := by
  intro h
  have h1 := masked_head next t
  have h2 := masked_head .no s.behind
  rw [h, h2, s.ends, ht] at h1
  exact Bool.false_ne_true h1

theorem head_append {t : Text} (hne : t ≠ []) (hv : t.all valueChar = true) (r : Text) :
    (t ++ r).head?.any valueChar = true := by
  cases t with
  | nil => exact absurd rfl hne
  | cons c cs =>
    have : valueChar c = true := List.all_eq_true.mp hv c List.mem_cons_self
    simpa using this

theorem outside_cons {c : Char} (hc : wordChar c = false) (t : Text) :
    OutsideWord (c :: t) := by
  simp [OutsideWord, hc]

/-- The word of the mask. -/
def redacted : Text := ['r', 'e', 'd', 'a', 'c', 't', 'e', 'd']

theorem MASK_append (t : Text) : MASK ++ t = '[' :: (redacted ++ ']' :: t) := by
  have h : MASK = '[' :: (redacted ++ [']']) := by decide
  rw [h]
  simp

/-- The word `redacted` is written as it is and announces nothing. -/
theorem write_redacted : write false redacted = ⟨redacted, false, .no⟩ := by
  decide +kernel

/-- What the walk writes of a text outside a word begins as the text does. -/
theorem masked_outside (next : Next) {t : Text} (h : OutsideWord t) :
    (masked next t).1.head? = t.head? := by
  rcases split_line t with hg | ⟨g, w, r, rfl, hg, hw, hne, hr⟩
  · rw [masked_gap hg]
  · rw [masked_word hg hw hne hr]
    cases g with
    | nil =>
      obtain ⟨c, cs, rfl⟩ := List.exists_cons_of_ne_nil hne
      have hc : wordChar c = true := List.all_eq_true.mp hw c List.mem_cons_self
      have : wordChar c = false := by simpa [OutsideWord] using h
      rw [hc] at this
      cases this
    | cons c cs => rfl

/-- Two texts that agree agree on the word they begin with. -/
theorem word_unique {w w' t t' : Text} (hw : Wordy w) (hw' : Wordy w') (ht : OutsideWord t)
    (ht' : OutsideWord t') (h : w ++ t = w' ++ t') : w = w' ∧ t = t' := by
  have h1 := takeWhile_wordy hw ht
  have h2 := takeWhile_wordy hw' ht'
  rw [h] at h1
  exact ⟨h1.1.symm.trans h2.1, h1.2.symm.trans h2.2⟩

/-- Only the word `redacted` is written as `redacted`. -/
theorem write_eq_redacted {w rest t : Text} (hw : Wordy w) (hrest : OutsideWord rest)
    (h : (write false w).out ++ rest = redacted ++ ']' :: t) :
    w = redacted := by
  have hred : Wordy redacted := by decide
  rcases write_out false w with ho | ho | ⟨name, value, hword, ho⟩
  · rw [ho] at h
    exact (word_unique hw hred hrest (outside_cons rfl t) h).1
  · rw [ho] at h
    have : '[' = 'r' := (List.cons_eq_cons.mp h).1
    exact absurd this (by decide)
  · rw [ho] at h
    have hn : Wordy (name ++ ['=']) := by
      rw [hword] at hw
      unfold Wordy at hw ⊢
      rw [List.all_append, List.all_cons] at hw
      rw [List.all_append, (Bool.and_eq_true_iff.mp hw).1]
      rfl
    have hsplit : name ++ ['='] ++ (MASK ++ rest) = redacted ++ ']' :: t := by
      rw [← h]
      simp
    have he := (word_unique hn hred (outside_cons rfl _) (outside_cons rfl t) hsplit).1
    have hmem : '=' ∈ redacted := by
      rw [← he]
      simp
    exact absurd hmem (by decide)

/-- Only the text of the mask is written as the mask behind a bare `NAME=`. -/
theorem masked_bare (s : Site) {t : Text} (hne : t ≠ []) (hv : t.all valueChar = true)
    (ho : OutsideWord t) {next : Next}
    (h : (masked next (t ++ s.behind)).1 = MASK ++ (masked .no s.behind).1) : t = MASK := by
  obtain ⟨c, cs, rfl⟩ := List.exists_cons_of_ne_nil hne
  have hc : wordChar c = false := by simpa [OutsideWord] using ho
  rcases split_line (c :: cs ++ s.behind) with hg | ⟨g, w, r, he, hg, hw, hwne, hr⟩
  · -- Without a word the line is written as it is, but the mask holds a word.
    exfalso
    rw [masked_gap hg] at h
    have hr : 'r' ∈ c :: cs ++ s.behind := by
      have h : c :: cs ++ s.behind = MASK ++ (masked .no s.behind).1 := h
      rw [h]
      exact List.mem_append_left _ (by decide)
    have := List.all_eq_true.mp hg 'r' hr
    exact absurd this (by decide)
  · rw [he, masked_word hg hw hwne hr, MASK_append] at h
    dsimp only at h
    cases g with
    | nil =>
      exfalso
      obtain ⟨d, ds, rfl⟩ := List.exists_cons_of_ne_nil hwne
      have hd : wordChar d = true := List.all_eq_true.mp hw d List.mem_cons_self
      have hcd : c = d := (List.cons_eq_cons.mp he).1
      rw [← hcd, hc] at hd
      exact Bool.false_ne_true hd
    | cons c' g =>
      have hc' : c' = '[' := (List.cons_eq_cons.mp h).1
      have htail := (List.cons_eq_cons.mp h).2
      subst hc'
      -- The mask goes on with a word character, so the gap is the bracket alone.
      have hgnil : g = [] := by
        cases g with
        | nil => rfl
        | cons d ds =>
          exfalso
          have hd : d = 'r' := (List.cons_eq_cons.mp htail).1
          have hgd := List.all_eq_true.mp hg d (by simp)
          rw [hd] at hgd
          exact absurd hgd (by decide)
      subst hgnil
      have hf : follows next ['['] = false := by
        cases next <;> rfl
      rw [hf] at htail
      have hro := masked_outside (write false w).next hr
      have hrest : OutsideWord (masked (write false w).next r).1 := by
        unfold OutsideWord
        rw [hro]
        exact hr
      have hw' := write_eq_redacted hw hrest htail
      rw [hw', write_redacted] at htail hro
      have hout := List.append_cancel_left htail
      rw [hout] at hro
      obtain ⟨r, rfl⟩ : ∃ r', r = ']' :: r' := by
        cases r with
        | nil => cases hro
        | cons d ds => exact ⟨ds, by rw [Option.some.inj hro]⟩
      rw [masked_cons (by decide)] at hout
      have hsame := (List.cons_eq_cons.mp hout).2
      have hline : c :: cs ++ s.behind = MASK ++ r := by
        rw [he, hw', MASK_append]
        rfl
      rcases List.append_eq_append_iff.mp hline with ⟨a, hmask, hbehind⟩ | ⟨a, hval, hr'⟩
      · -- The value is cut short of the mask by what stands behind it.
        cases a with
        | nil => rw [hmask, List.append_nil]
        | cons d ds =>
          exfalso
          have hd : valueChar d = true := by
            have hall : MASK.all valueChar = true := by decide +kernel
            exact List.all_eq_true.mp hall d (by rw [hmask]; simp)
          have hends := s.ends
          rw [hbehind] at hends
          simp [hd] at hends
      · cases a with
        | nil => rw [hval, List.append_nil]
        | cons d ds =>
          exfalso
          have hall : (d :: ds).all valueChar = true := by
            rw [hval, List.all_append] at hv
            exact (Bool.and_eq_true_iff.mp hv).2
          rw [hr'] at hsame
          exact masked_ne s (head_append (by simp) hall s.behind) .no hsame

/-- A value that holds a character outside a word, and is not the text of the mask, is
written differently from every value of word characters. -/
theorem Site.leaks (s : Site) {value other : Text}
    (hvc : value.all valueChar = true) (ho : other ≠ []) (hw : Wordy other)
    (hmask : value ≠ MASK) (hn : ¬ Wordy value) :
    mask (s.line value) ≠ mask (s.line other) := by
  intro h
  obtain ⟨out, next, g, hg, hline⟩ := s.mask_line
  have hother := hline (s.name ++ '=' :: other) s.behind other
    (wordy_assignment s.wordy hw) (by simp) (outsideWord_of_not_value s.ends) rfl
  rw [masked_site s hw ho hg] at hother
  have hsplit : value.takeWhile wordChar ++ value.dropWhile wordChar = value :=
    List.takeWhile_append_dropWhile
  have hword : Wordy (value.takeWhile wordChar) := List.all_takeWhile
  generalize hweq : value.takeWhile wordChar = w at hsplit hword
  generalize hteq : value.dropWhile wordChar = t at hsplit
  have htne : t ≠ [] := by
    rintro rfl
    rw [List.append_nil] at hsplit
    exact hn (hsplit ▸ hword)
  have hout : OutsideWord t := by
    have := List.head?_dropWhile_not wordChar value
    rw [hteq] at this
    obtain ⟨c, cs, rfl⟩ := List.exists_cons_of_ne_nil htne
    simpa [OutsideWord] using this
  have htv : t.all valueChar = true := by
    rw [← hsplit, List.all_append] at hvc
    exact (Bool.and_eq_true_iff.mp hvc).2
  have hout' : OutsideWord (t ++ s.behind) := by
    obtain ⟨c, cs, rfl⟩ := List.exists_cons_of_ne_nil htne
    exact hout
  have hvalue := hline (s.name ++ '=' :: w) (t ++ s.behind) value
    (wordy_assignment s.wordy hword) (by simp) hout' (by rw [← hsplit]; simp)
  rw [h, hother] at hvalue
  have hrun := List.append_cancel_left hvalue
  by_cases hwe : w = []
  · -- The word ends at the `=`: the name is written with nothing masked, or masked whole.
    subst hwe
    rw [masked_word hg (wordy_assignment s.wordy hword) (by simp) hout'] at hrun
    dsimp only at hrun
    rw [List.append_assoc, List.append_assoc g] at hrun
    have hrun := List.append_cancel_left hrun
    rcases write_bare s.plain (follows next g) with hb | hb
    · rw [hb] at hrun
      obtain ⟨c, cs, hname⟩ := List.exists_cons_of_ne_nil s.name_ne_nil
      rw [hname] at hrun
      have hc : c = '[' := (List.cons_eq_cons.mp hrun).1
      have hwc := s.wordy
      rw [hname, hc] at hwc
      exact absurd (List.all_eq_true.mp hwc '[' List.mem_cons_self) (by decide)
    · rw [hb] at hrun
      have hrun : s.name ++ ['='] ++ (MASK ++ (masked .no s.behind).1) =
          s.name ++ ['='] ++ (masked (write (follows next g) (s.name ++ ['='])).next
            (t ++ s.behind)).1 := by
        rw [← hrun]
        simp only [List.append_assoc, List.cons_append, List.nil_append]
      have hbare := masked_bare s htne htv hout (List.append_cancel_left hrun).symm
      exact hmask (by rw [← hsplit, hbare, List.nil_append])
  · rw [masked_cut s hword hwe hout' hg] at hrun
    have hrun := List.append_cancel_left hrun
    exact masked_ne s (head_append htne htv s.behind) .no hrun.symm

/-- Values of word characters are written alike. -/
theorem Site.hides (s : Site) {value other : Text} (hv : value ≠ []) (hvw : Wordy value)
    (ho : other ≠ []) (how : Wordy other) : mask (s.line value) = mask (s.line other) := by
  obtain ⟨out, next, g, hg, hline⟩ := s.mask_line
  have hstep : ∀ v, v ≠ [] → Wordy v → mask (s.line v) =
      out ++ (g ++ (s.name ++ '=' :: MASK) ++ (masked .no s.behind).1) := by
    intro v hne hw
    rw [hline (s.name ++ '=' :: v) s.behind v (wordy_assignment s.wordy hw) (by simp)
      (outsideWord_of_not_value s.ends) rfl, masked_site s hw hne hg]
  rw [hstep value hv hvw, hstep other ho how]

/-- Scrubbing leaves nothing of the values under secret keys. An assigned value is
written like one of word characters exactly when it is one itself. -/
theorem secrets (v v' : Json) (s : Site) (value other : Text) :
    (Alike v v' → scrub v = scrub v') ∧
    (value ≠ [] → value.all valueChar = true → value ≠ MASK → other ≠ [] → Wordy other →
      (mask (s.line value) = mask (s.line other) ↔ Wordy value)) := by
  constructor
  · intro h
    exact scrub_alike h
  · intro hv hvc hmask ho how
    constructor
    · intro h
      by_contra hn
      exact s.leaks hvc ho how hmask hn h
    · intro hw
      exact s.hides hv hw ho how

/-- The site of the lines below: a password set in a shell command. -/
def passwordSite : Site where
  before := "set ".toList
  name := "PASSWORD".toList
  behind := " now".toList
  starts := by decide
  wordy := by decide
  plain := by decide
  secret := by decide +kernel
  ends := by decide

/-- Two passwords of which only the first part is masked. -/
theorem password_leaks :
    ["p@ss".toList, "p@st".toList].all (fun v => v ≠ [] && v.all valueChar) = true ∧
    mask (passwordSite.line "p@ss".toList) = "set PASSWORD=[redacted]@ss now".toList ∧
    mask (passwordSite.line "p@ss".toList) ≠ mask (passwordSite.line "p@st".toList) := by
  decide +kernel

theorem secrets_password :
    scrub (.object [("token".toList, .bool true)]) =
      scrub (.object [("token".toList, .number (.integer 7))]) ∧
    (mask (passwordSite.line "p@ss".toList) = mask (passwordSite.line "x".toList) ↔
      Wordy "p@ss".toList) := by
  constructor
  · exact (secrets _ _ passwordSite [] []).1 (.object (.secret (by decide +kernel) rfl rfl .nil))
  · exact (secrets .null .null passwordSite _ _).2 (by decide) (by decide) (by decide) (by decide)
      (by decide)

end Sonara.Log
