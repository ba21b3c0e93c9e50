import Sonara.Lib.Packing
import Sonara.Strings

/-!
# A text over the provider's input limit (`split.rs`)

A text within the limit is one part. A longer one is cut at its white space: the words are
put behind each other with one space as long as the part is within the limit, and a word
that is over the limit by itself is cut into pieces that are parts of their own.

The words of a text fall into sections (`Section`): runs of words that are one part each,
and words that are cut. `splitWords_sections` shows what the sections of the result are;
the pieces of a word are a greedy packing of its characters (`cutWord_eq`).
-/

namespace Sonara.External

open Sonara Text

/-- A provider's input limit. -/
inductive Limit where
  | chars (n : Nat)
  | bytes (n : Nat)
  deriving DecidableEq, Repr

namespace Limit

variable (l : Limit)

/-- The size of `t` in the limit's unit. -/
def size (t : Text) : Nat :=
  match l with
  | .chars _ => t.length
  | .bytes _ => (t.map Char.utf8Size).sum

/-- The limit, at least 1. -/
def max : Nat :=
  match l with
  | .chars n | .bytes n => Nat.max n 1

/-- `t` is within the limit. -/
def Fits (t : Text) : Prop := l.size t ≤ l.max

instance : DecidablePred l.Fits := fun _ => inferInstanceAs (Decidable (_ ≤ _))

end Limit

variable (l : Limit)

/-- Cut one word into pieces within the limit, behind the piece `cur`. -/
def cutWord (cur : Text) : Text → List Text
  | [] => if cur = [] then [] else [cur]
  | c :: cs =>
    if cur ≠ [] ∧ ¬l.Fits (cur ++ [c]) then cur :: cutWord [c] cs else cutWord (cur ++ [c]) cs

/-- The loop over the words, behind the part `cur`. -/
def splitWords (cur : Text) : List Text → List Text
  | [] => if cur = [] then [] else [cur]
  | word :: words =>
    if ¬l.Fits word then (if cur = [] then [] else [cur]) ++ cutWord l
      [] word ++ splitWords [] words
    else
      let candidate := if cur = [] then word else cur ++ [' '] ++ word
      if ¬l.Fits candidate then cur :: splitWords word words else splitWords candidate words

/-- The parts of `text`, each within the limit, in order. -/
def split (text : Text) : List Text :=
  if l.Fits text then [text] else splitWords l [] (words text)

/-! ## Words -/

/-- The words hold all of the text but its white space. -/
theorem words_flatten (t : Text) : (words t).flatten = ink t := by
  have hkept : ∀ ws : List Text, (ws.filter (· ≠ [])).flatten = ws.flatten := by
    intro ws
    induction ws with
    | nil => rfl
    | cons w ws ih =>
      by_cases hw : w = []
      · rw [List.filter_cons_of_neg (by simpa using hw), ih, hw, List.flatten_cons, List.nil_append]
      · rw [List.filter_cons_of_pos (by simpa using hw), List.flatten_cons, ih, List.flatten_cons]
  unfold words
  rw [hkept]
  induction t with
  | nil => rfl
  | cons c t ih =>
    rw [List.splitOnP_cons_eq_if_modifyHead]
    split
    next hc =>
      rw [List.flatten_cons, List.nil_append, ih]
      exact (List.filter_cons_of_neg (by simp [hc])).symm
    next hc =>
      have hink : ink (c :: t) = c :: ink t := List.filter_cons_of_pos (by simp [hc])
      obtain ⟨w, ws, hws⟩ := List.exists_cons_of_ne_nil (List.splitOnP_ne_nil isWhitespace t)
      rw [hink, ← ih, hws]
      rfl

theorem word_ne_nil {t w : Text} (h : w ∈ words t) : w ≠ [] := by
  have hne := (List.mem_filter.mp h).2
  simpa using hne

/-! ## The pieces of a word -/

/-- Cutting a word is packing its characters into the parts. -/
theorem cutWord_out (out : List Text) (cur : Text) (word : Text) :
    out ++ cutWord l cur word = Lib.Packing.close
    (word.foldl (Lib.Packing.place l.Fits) (out, cur)) := by
  induction word generalizing out cur with
  | nil =>
    rw [List.foldl_nil]
    unfold cutWord Lib.Packing.close
    dsimp only
    split
    · exact List.append_nil _
    · rfl
  | cons c cs ih =>
    unfold cutWord
    rw [List.foldl_cons]
    by_cases hopens : cur ≠ [] ∧ ¬l.Fits (cur ++ [c])
    · have hplace : Lib.Packing.place l.Fits (out, cur) c = (out ++ [cur], [c]) :=
        Lib.Packing.place_opens (not_or.mpr ⟨hopens.1, hopens.2⟩)
      rw [if_pos hopens, hplace, ← ih, List.append_assoc, List.singleton_append]
    · have hplace : Lib.Packing.place l.Fits (out, cur) c = (out, cur ++ [c]) :=
        Lib.Packing.place_joins (by by_cases hnil : cur = [] <;> simp_all)
      rw [if_neg hopens, hplace, ← ih]

/-- The pieces are the greedy packing of the characters. -/
theorem cutWord_eq (word : Text) : cutWord l [] word = Lib.Packing.pack l.Fits word :=
  cutWord_out l [] [] word

/-! ## Sections -/

/-- A run of words that is one part, or a word that is cut. -/
inductive Section where
  | run (words : List Text)
  | cut (word : Text)
  deriving DecidableEq, Repr

namespace Section

def words : Section → List Text
  | .run ws => ws
  | .cut w => [w]

def parts : Section → List Text
  | .run ws => [join [' '] ws]
  | .cut w => cutWord l [] w

/-- A run has words that are within the limit, by themselves and together; a word that is cut
is over it. -/
def Ok : Section → Prop
  | .run ws => ws ≠ [] ∧ (∀ w ∈ ws, l.Fits w) ∧ l.Fits (join [' '] ws)
  | .cut w => ¬l.Fits w

/-- A run could not take the first word of the run behind it. -/
def Apart : Section → Section → Prop
  | .run ws, .run vs => ∀ v ∈ vs.head?, ¬l.Fits (join [' '] (ws ++ [v]))
  | _, _ => True

end Section

/-- One more word is joined with a blank. -/
theorem join_snoc {ws : List Text} (h : ws ≠ []) (w : Text) :
    join [' '] (ws ++ [w]) = join [' '] ws ++ [' '] ++ w := by
  unfold join
  induction ws with
  | nil => exact absurd rfl h
  | cons v vs ih =>
    cases vs with
    | nil => rw [List.singleton_append, List.intercalate_cons_cons, List.intercalate_singleton,
        List.intercalate_singleton]
    | cons u us =>
      have hmore := ih (List.cons_ne_nil u us)
      rw [List.cons_append, List.cons_append, List.intercalate_cons_cons,
        List.intercalate_cons_cons,
        ← List.cons_append, hmore]
      simp only [List.append_assoc]

theorem join_ne_nil {ws : List Text} (h : ws ≠ []) (hne : ∀ w ∈ ws, w ≠ []) :
    join [' '] ws ≠ [] := by
  obtain ⟨init, w, rfl⟩ := (List.eq_nil_or_concat ws).resolve_left h
  rw [List.concat_eq_append] at hne ⊢
  have hw : w ≠ [] := hne w (by simp)
  by_cases hinit : init = []
  · rw [hinit]
    simpa [join] using hw
  · rw [join_snoc hinit]
    simp

/-- The part that is open is a run. -/
def Opened (ws : List Text) : Prop := ws = [] ∨ (Section.run ws).Ok l

/-- **What the loop makes of the words**, behind the words `ws` of the part that is open. -/
theorem splitWords_sections {ws rest : List Text} (hne : ∀ w ∈ ws ++ rest, w ≠ [])
    (hws : Opened l ws) :
    ∃ sections : List Section, (∀ x ∈ sections, x.Ok l) ∧ sections.IsChain (Section.Apart l) ∧
      sections.flatMap Section.words = ws ++ rest ∧
      splitWords l (join [' '] ws) rest = sections.flatMap (Section.parts l) ∧
      (ws ≠ [] → ∃ more, sections.head? = some (.run (ws ++ more))) := by
  induction rest generalizing ws with
  | nil =>
    rw [List.append_nil] at hne ⊢
    by_cases hnil : ws = []
    · subst hnil
      exact ⟨[], fun _ h => absurd h List.not_mem_nil, .nil, rfl, rfl, fun h => absurd rfl h⟩
    · refine ⟨[.run ws], fun x hx => ?_,
        .singleton _, by simp [Section.words], ?_, fun _ => ⟨[], by simp⟩⟩
      · rw [List.mem_singleton.mp hx]
        exact hws.resolve_left hnil
      · unfold splitWords
        rw [if_neg (join_ne_nil hnil hne)]
        rfl
  | cons w rest ih =>
    have hw : w ≠ [] := hne w (by simp)
    have hjoin : join [' '] [w] = w := by simp [join]
    have hone : l.Fits w → (Section.run [w]).Ok l := by
      intro hfits
      refine ⟨List.cons_ne_nil w [], fun v hv => ?_, ?_⟩
      · rw [List.mem_singleton.mp hv]
        exact hfits
      · rw [hjoin]
        exact hfits
    unfold splitWords
    by_cases hover : l.Fits w
    · rw [if_neg (not_not.mpr hover)]
      dsimp only
      by_cases hnil : ws = []
      · -- The word opens a part.
        subst hnil
        obtain ⟨sections, hok, hapart, hwords, hparts, hhead⟩ := @ih [w] hne (.inr (hone hover))
        refine ⟨sections, hok, hapart, hwords, ?_, fun h => absurd rfl h⟩
        have hempty : join [' '] [] = [] := rfl
        rw [hempty, if_pos rfl, if_neg (not_not.mpr hover), ← hparts, hjoin]
      · have hjoined : join [' '] ws ≠ [] :=
          join_ne_nil hnil fun v hv => hne v (List.mem_append_left _ hv)
        rw [if_neg hjoined, ← join_snoc hnil w]
        by_cases hmore : l.Fits (join [' '] (ws ++ [w]))
        · -- The word joins the part.
          rw [if_neg (not_not.mpr hmore)]
          have hopen : Opened l (ws ++ [w]) := by
            refine .inr ⟨by simp, fun v hv => ?_, hmore⟩
            rcases List.mem_append.mp hv with hv | hv
            · exact (hws.resolve_left hnil).2.1 v hv
            · rw [List.mem_singleton.mp hv]
              exact hover
          obtain ⟨sections, hok, hapart, hwords, hparts, hhead⟩ :=
            @ih (ws ++ [w]) (by simpa using hne) hopen
          obtain ⟨more, hhead⟩ := hhead (by simp)
          refine ⟨sections, hok, hapart, ?_, hparts, fun _ => ⟨w :: more, ?_⟩⟩
          · rw [hwords, List.append_assoc, List.singleton_append]
          · rw [hhead, List.append_assoc, List.singleton_append]
        · -- The part is full.
          rw [if_pos hmore]
          obtain ⟨sections, hok, hapart, hwords, hparts, hhead⟩ := @ih [w]
            (fun v hv => hne v (List.mem_append_right _ hv)) (.inr (hone hover))
          obtain ⟨more, hhead⟩ := hhead (List.cons_ne_nil w [])
          refine ⟨.run ws :: sections, fun x hx => ?_, ?_, ?_, ?_, fun _ => ⟨[], by simp⟩⟩
          · rcases List.mem_cons.mp hx with rfl | hx
            · exact hws.resolve_left hnil
            · exact hok x hx
          · refine hapart.cons fun x hx => ?_
            rw [hhead] at hx
            obtain rfl := Option.some.inj hx
            intro v hv
            obtain rfl : w = v := by simpa using hv
            exact hmore
          · rw [List.flatMap_cons, hwords]
            rfl
          · rw [List.flatMap_cons, ← hparts, hjoin]
            rfl
    · -- The word is cut, behind the part that is closed.
      rw [if_pos hover]
      obtain ⟨sections, hok, hapart, hwords, hparts, -⟩ := @ih []
        (fun v hv => hne v (List.mem_append_right _ (List.mem_cons_of_mem w hv))) (.inl rfl)
      have hempty : join [' '] ([] : List Text) = [] := rfl
      rw [hempty] at hparts
      have hcut : (Section.cut w :: sections).IsChain (Section.Apart l) :=
        hapart.cons fun x _ => trivial
      have hcutOk : ∀ x ∈ Section.cut w :: sections, x.Ok l := by
        intro x hx
        rcases List.mem_cons.mp hx with rfl | hx
        · exact hover
        · exact hok x hx
      by_cases hnil : ws = []
      · subst hnil
        refine ⟨.cut w :: sections, hcutOk, hcut, ?_, ?_, fun h => absurd rfl h⟩
        · rw [List.flatMap_cons, hwords]
          rfl
        · rw [hempty, if_pos rfl, hparts, List.flatMap_cons]
          rfl
      · refine ⟨.run ws :: .cut w :: sections, fun x hx => ?_, ?_, ?_, ?_, fun _ => ⟨[], by simp⟩⟩
        · rcases List.mem_cons.mp hx with rfl | hx
          · exact hws.resolve_left hnil
          · exact hcutOk x hx
        · refine hcut.cons fun x hx => ?_
          obtain rfl := Option.some.inj hx
          trivial
        · rw [List.flatMap_cons, List.flatMap_cons, hwords]
          rfl
        · rw [if_neg (join_ne_nil hnil fun v hv => hne v (List.mem_append_left _ hv)), hparts,
            List.flatMap_cons, List.flatMap_cons, List.append_assoc]
          rfl

/-! ## The parts -/

theorem ink_join (ws : List Text) : ink (join [' '] ws) = ink ws.flatten := by
  unfold join
  induction ws with
  | nil => rfl
  | cons w ws ih =>
    cases ws with
    | nil => rw [List.intercalate_singleton, List.flatten_cons, List.flatten_nil, List.append_nil]
    | cons v vs =>
      have hspace : ink [' '] = [] := by decide
      rw [List.intercalate_cons_cons, ink_append, ink_append, ih, hspace, List.append_nil,
        @List.flatten_cons _ w, ink_append]

/-- What a section's parts hold are its words. -/
theorem section_ink (x : Section) : ink (x.parts l).flatten = ink x.words.flatten := by
  cases x with
  | run ws =>
    show ink [join [' '] ws].flatten = ink ws.flatten
    rw [List.flatten_singleton, ink_join]
  | cut w =>
    show ink (cutWord l [] w).flatten = ink [w].flatten
    have hpack : (cutWord l [] w).flatten = [] ++ w := by
      rw [cutWord_eq]
      exact Lib.Packing.foldl_place_flatten ([], []) w
    rw [hpack, List.flatten_singleton, List.nil_append]

theorem sections_ink (sections : List Section) :
    ink (sections.flatMap (Section.parts l)).flatten = ink
    (sections.flatMap Section.words).flatten := by
  induction sections with
  | nil => rfl
  | cons x xs ih =>
    rw [List.flatMap_cons, List.flatMap_cons, List.flatten_append, List.flatten_append,
      ink_append, ink_append,
      ih, section_ink]

/-- A section's parts are within the limit, and none is empty. -/
theorem section_parts {x : Section} (hok : x.Ok l) (hne : ∀ w ∈ x.words, w ≠ [])
    (hchars : ∀ w ∈ x.words, ∀ c ∈ w, l.Fits [c]) : ∀ p ∈ x.parts l, l.Fits p ∧ p ≠ [] := by
  cases x with
  | run ws =>
    intro p hp
    rw [List.mem_singleton.mp hp]
    exact ⟨hok.2.2, join_ne_nil hok.1 hne⟩
  | cut w =>
    intro p hp
    have hpacks := @Lib.Packing.pack_packs Char l.Fits _ w (hchars w List.mem_cons_self)
    have hp : p ∈ Lib.Packing.pack l.Fits w := cutWord_eq l w ▸ hp
    exact ⟨hpacks.1.fits p hp, hpacks.2 p hp⟩

/-- **The parts of a text.** A text within the limit is its only part. Every part is within the
limit, and none is empty unless the text is; together they hold what the text holds but for
white space. The parts of a longer text are sections of its words: runs of whole words, each
so long that the run behind it could not give it a word, and words over the limit in pieces. -/
theorem split_parts (text : Text) (hchars : ∀ c ∈ text, l.Fits [c]) :
    (l.Fits text → split l text = [text]) ∧
    (∀ p ∈ split l text, l.Fits p ∧ (p = [] → l.Fits text ∧ text = [])) ∧
    ink (split l text).flatten = ink text ∧
    (¬l.Fits text → ∃ sections : List Section, (∀ x ∈ sections, x.Ok l) ∧
      sections.IsChain (Section.Apart l) ∧ sections.flatMap Section.words = words text ∧
      split l text = sections.flatMap (Section.parts l)) := by
  have hwhole : l.Fits text → split l text = [text] := fun h => if_pos h
  have hsections : ¬l.Fits text → ∃ sections : List Section, (∀ x ∈ sections, x.Ok l) ∧
      sections.IsChain (Section.Apart l) ∧ sections.flatMap Section.words = words text ∧
      split l text = sections.flatMap (Section.parts l) := by
    intro hover
    obtain ⟨sections, hok, hapart, hwords, hparts, -⟩ := @splitWords_sections l [] (words text)
      (fun w hw => word_ne_nil hw) (.inl rfl)
    exact ⟨sections, hok, hapart, hwords, (if_neg hover).trans hparts⟩
  by_cases hfits : l.Fits text
  · refine ⟨hwhole, fun p hp => ?_, ?_, hsections⟩
    · rw [hwhole hfits] at hp
      rw [List.mem_singleton.mp hp]
      exact ⟨hfits, fun h => ⟨hfits, h⟩⟩
    · rw [hwhole hfits, List.flatten_singleton]
  · obtain ⟨sections, hok, -, hwords, hparts⟩ := hsections hfits
    have hmem : ∀ x ∈ sections, ∀ w ∈ x.words, w ∈ words text := by
      intro x hx w hw
      rw [← hwords]
      exact List.mem_flatMap.mpr ⟨x, hx, hw⟩
    refine ⟨hwhole, fun p hp => ?_, ?_, hsections⟩
    · rw [hparts] at hp
      obtain ⟨x, hx, hp⟩ := List.mem_flatMap.mp hp
      have hpart := section_parts l (hok x hx) (fun w hw => word_ne_nil (hmem x hx w hw))
          (fun w hw c hc => by
        have hc : c ∈ (words text).flatten := List.mem_flatten.mpr ⟨w, hmem x hx w hw, hc⟩
        rw [words_flatten] at hc
        exact hchars c (List.mem_of_mem_filter hc)) p hp
      exact ⟨hpart.1, fun h => absurd h hpart.2⟩
    · rw [hparts, sections_ink, hwords, words_flatten]
      unfold ink
      rw [List.filter_filter]
      simp

/-- The words of two runs, and a word in pieces between them. -/
theorem split_parts_cut :
    let text := "ab abcdefgh cd".toList
    split (.chars 3) text = ["ab", "abc", "def", "gh", "cd"].map String.toList ∧
      ∀ p ∈ split (.chars 3) text, (Limit.chars 3).Fits p :=
  ⟨by decide, fun p hp => ((split_parts (.chars 3) "ab abcdefgh cd".toList
    (fun c _ => Nat.le_refl 1 |>.trans (by decide))).2.1 p hp).1⟩

/-- The last piece of a word is not joined with the next word, though they would fit. -/
theorem piece_not_joined :
    words "abcde f".toList = ["abcde", "f"].map String.toList ∧
    (∀ c ∈ "abcde f".toList, (Limit.chars 4).Fits [c]) ∧
    split (.chars 4) "abcde f".toList = ["abcd", "e", "f"].map String.toList ∧
    "e".toList <:+ "abcde".toList ∧
    (Limit.chars 4).Fits ("e".toList ++ [' '] ++ "f".toList) :=
  ⟨by decide, fun c _ => Nat.le_refl 1 |>.trans (by decide), by decide, by decide, by decide⟩

end Sonara.External
