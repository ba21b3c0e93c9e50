import Sonara.Markdown.Emphasis
import Sonara.Markdown.Urls

/-!
# A match is a whole run of word characters

`SNAKE` consumes word characters only, and looks that there is none on either side: at most one
match, the whole run, begins at a run's start (`snake_first`), and none inside (`snake_inside`). The
parts of the name behind its first letter are matched one by one (`parts_first`), as `isSnake`
splits them.
-/

namespace Sonara.Markdown

open Sonara Text
open Lib (Re Place lookup takeWhile_wider takeWhile_ne_nil head_dropWhile)
open Lib.Re

variable {c : Char} {before rest cs : Text} {groups : List (Nat × Text)} {s : Place Char}

theorem isWord_alnum (c : Char) (hc : c.isAlphanum = true) : isWord c = true := by simp [isWord, hc]

theorem alnum_not_underscore (hc : c.isAlphanum = true) : (c == '_') = false := by
  cases h : c == '_' with
  | false => rfl
  | true =>
    cases eq_of_beq h
    exact absurd hc (by decide)

/-- A word character that is neither letter nor digit. -/
theorem underscore_of_word (hc : isWord c = true) (hn : c.isAlphanum = false) : c = '_' := by
  simpa [isWord, hn] using hc

/-! ## The parts of a name -/

/-- An underscore and a part of the name. -/
def part : Re Char := seq (one (· == '_')) (plus (one Char.isAlphanum))

/-- The rest of a name, to the end of the run. -/
def parts : Re Char := seq (star true part) (notAhead (one isWord))

/-- The parts of what follows a part of a name are none of them empty. -/
def full (run : Text) : Bool := (run.splitOn '_').tail.all (· ≠ [])

theorem part_other (hc : s.rest.head?.any (· == '_') = false) : ways part s = [] := by
  obtain ⟨before, rest, groups⟩ := s
  cases rest with
  | nil => rfl
  | cons c cs =>
    have hc : (c == '_') = false := hc
    simp only [part, ways_seq, ways_one_cons, hc, Bool.false_eq_true, if_false, List.flatMap_nil]

theorem end_inside (hrest : s.rest = c :: cs) (hc : isWord c = true) :
    ways (notAhead (one isWord)) s = [] := by
  obtain ⟨before, rest, groups⟩ := s
  cases hrest
  simp [ways_notAhead, hc]

/-- Inside a part the name cannot end, nor the next part begin. -/
theorem parts_inside (hrest : s.rest = c :: cs) (hc : c.isAlphanum = true) : ways parts s = [] := by
  have hpart : ways part s = [] := part_other (by rw [hrest]; exact alnum_not_underscore hc)
  show (ways (star true part) s).flatMap _ = []
  rw [ways_star_none hpart, List.flatMap_singleton]
  exact end_inside hrest (isWord_alnum c hc)

/-- The next part, if the underscore has one, is taken whole. -/
theorem part_whole (before cs : Text) (groups : List (Nat × Text))
    {k : Place Char → List (Place Char)}
    (hk : ∀ s c cs, s.rest = c :: cs → c.isAlphanum = true → k s = []) :
    (ways part ⟨before, '_' :: cs, groups⟩).flatMap k =
      if cs.head?.any Char.isAlphanum then k
      (Place.past ⟨'_' :: before, cs, groups⟩ Char.isAlphanum) else [] := by
  obtain ⟨less, hways, hin⟩ := ways_plus Char.isAlphanum ⟨'_' :: before, cs, groups⟩
  have hstuck : ∀ s' ∈ less, k s' = [] := by
    intro s' hs'
    obtain ⟨c, cs, hrest, hc, -⟩ := hin s' hs'
    exact hk s' c cs hrest hc
  have hpart : ways part ⟨before, '_' :: cs, groups⟩ = ways (plus (one Char.isAlphanum))
      ⟨'_' :: before, cs, groups⟩ := by
    rw [part, ways_seq, ways_one_cons, if_pos (beq_self_eq_true '_'), List.flatMap_singleton]
  rw [hpart, hways, flatMap_run hstuck]
  split
  · exact List.flatMap_singleton _ _
  · rfl

/-- One part, and the rest of the name. -/
theorem parts_underscore (before cs : Text) (groups : List (Nat × Text)) :
    ways parts ⟨before, '_' :: cs, groups⟩ =
      if cs.head?.any Char.isAlphanum then ways parts
      (Place.past ⟨'_' :: before, cs, groups⟩ Char.isAlphanum)
      else [] := by
  have hend : ways (notAhead (one isWord)) ⟨before, '_' :: cs, groups⟩ = [] :=
    end_inside rfl (by decide)
  have hround : ways parts ⟨before, '_' :: cs, groups⟩ =
      (ways part ⟨before, '_' :: cs, groups⟩).flatMap fun s' =>
      (if s'.rest.length < ('_' :: cs).length then ways (star true part) s' else []).flatMap
        (ways (notAhead (one isWord))) := by
    show (ways (star true part) _).flatMap _ = _
    rw [ways_star]
    simp only [if_true]
    rw [List.flatMap_append, List.flatMap_singleton, hend, List.append_nil, List.flatMap_assoc]
  rw [hround, part_whole]
  · refine if_congr Iff.rfl ?_ rfl
    have hlt : (Place.past ⟨'_' :: before, cs, groups⟩ Char.isAlphanum).rest.length <
        ('_' :: cs).length :=
      Nat.lt_succ_of_le (List.dropWhile_suffix (p := Char.isAlphanum) (l := cs)).length_le
    rw [if_pos hlt]
    rfl
  · intro s c cs' hrest hc
    split
    · exact parts_inside hrest hc
    · rfl

/-- At the end of a run the name ends. -/
theorem parts_end (hrest : s.rest.head?.any isWord = false) : ways parts s = [s] := by
  obtain ⟨before, rest, groups⟩ := s
  have hpart : ways part ⟨before, rest, groups⟩ = [] := by
    refine part_other ?_
    cases rest with
    | nil => rfl
    | cons c cs => exact (Bool.or_eq_false_iff.mp hrest).2
  show (ways (star true part) _).flatMap _ = _
  rw [ways_star_none hpart, List.flatMap_singleton]
  cases rest with
  | nil => simp [ways_notAhead]
  | cons c cs =>
    have hc : isWord c = false := hrest
    simp [ways_notAhead, hc]

/-! ## A name -/

theorem split_underscore (t : Text) : ('_' :: t).splitOn '_' = [] :: t.splitOn '_' :=
  List.splitOn_append_cons_self_of_not_mem List.not_mem_nil t

/-- A part is split off at the underscore behind it. -/
theorem split_part {a t : Text} (ha : ∀ c ∈ a, c.isAlphanum = true)
    (ht : t.head?.any Char.isAlphanum = false)
    (hword : ∀ c ∈ t, isWord c = true) : (a ++ t).splitOn '_' = a :: (t.splitOn '_').tail := by
  have hnone : ∀ c ∈ a, (c == '_') = false := fun c hc => alnum_not_underscore (ha c hc)
  cases t with
  | nil =>
    rw [List.append_nil, List.splitOn_eq_splitOnP]
    exact List.splitOnP_eq_singleton hnone
  | cons c cs =>
    cases underscore_of_word (hword c List.mem_cons_self) ht
    rw [split_underscore, List.tail_cons]
    exact List.splitOn_append_cons_of_forall_mem_beq_eq_false hnone '_' (beq_self_eq_true '_') cs

theorem head_takeWhile {p : Char → Bool} (q : Char → Bool) {t : Text} (h : t.head?.any p = false) :
    (t.takeWhile q).head?.any p = false := by
  cases t with
  | nil => rfl
  | cons c cs =>
    have hc : p c = false := h
    cases hq : q c <;> simp [hq, hc]

/-- The parts of a run of word characters, the first of them split off. -/
theorem split_run (t : Text) : (t.takeWhile isWord).splitOn '_' = t.takeWhile Char.isAlphanum ::
    (((t.dropWhile Char.isAlphanum).takeWhile isWord).splitOn '_').tail := by
  rw [takeWhile_wider isWord_alnum]
  exact split_part (fun c hc => List.mem_takeWhile_imp hc)
    (head_takeWhile isWord (head_dropWhile _ t))
    fun c hc => List.mem_takeWhile_imp hc

theorem takeWhile_isEmpty (p : Char → Bool) (t : Text) :
    decide (t.takeWhile p ≠ []) = t.head?.any p := by
  rw [Bool.eq_iff_iff, decide_eq_true_eq]
  exact takeWhile_ne_nil

theorem full_underscore (t : Text) : full (('_' :: t).takeWhile isWord) =
    (t.head?.any Char.isAlphanum && full ((t.dropWhile Char.isAlphanum).takeWhile isWord)) := by
  have hrun : ('_' :: t).takeWhile isWord = '_' :: t.takeWhile isWord :=
    List.takeWhile_cons_of_pos (by decide)
  rw [hrun, full, split_underscore, List.tail_cons, split_run, List.all_cons, takeWhile_isEmpty]
  rfl

/-- **The rest of a name** reaches to the end of the run, if no part of it is empty. -/
theorem parts_first (s : Place Char) (hrest : s.rest.head?.any Char.isAlphanum = false) :
    first parts s = if full (s.rest.takeWhile isWord) then some (s.past isWord) else none := by
  induction hn : s.rest.length using Nat.strongRecOn generalizing s with
  | ind n ih =>
    subst hn
    obtain ⟨before, rest, groups⟩ := s
    cases hhead : rest.head?.any isWord with
    | false =>
      rw [first, parts_end hhead, Place.past_of_not hhead]
      cases rest with
      | nil => rfl
      | cons c cs =>
        have hc : isWord c = false := hhead
        rw [List.takeWhile_cons_of_neg (by simp [hc])]
        rfl
    | true =>
      cases rest with
      | nil => cases hhead
      | cons c cs =>
        cases underscore_of_word hhead hrest
        rw [first, parts_underscore, full_underscore]
        cases hpart : cs.head?.any Char.isAlphanum with
        | false => rfl
        | true =>
          have hlt : (cs.dropWhile Char.isAlphanum).length < ('_' :: cs).length :=
            Nat.lt_succ_of_le (List.dropWhile_suffix (p := Char.isAlphanum) (l := cs)).length_le
          have hover : (Place.past ⟨'_' :: before, cs, groups⟩ Char.isAlphanum).past isWord =
              Place.past ⟨before, '_' :: cs, groups⟩ isWord := by
            rw [Place.past_past isWord_alnum, Place.past_cons (by decide)]
          rw [if_pos rfl, Bool.true_and, ← hover]
          exact ih _ hlt _ (head_dropWhile _ cs) rfl

/-- The parts behind the first one, one at least. -/
def moreParts : Re Char := seq (plus part) (notAhead (one isWord))

/-- A name without its underscores in front. -/
def name : Re Char := seq (one Char.isAlpha) (seq (star true (one Char.isAlphanum)) moreParts)

theorem moreParts_ways (s : Place Char) :
    ways moreParts s = (ways part s).flatMap (ways parts) := by
  show ((ways part s).flatMap (ways (star true part))).flatMap _ = _
  rw [List.flatMap_assoc]
  rfl

theorem moreParts_inside (hrest : s.rest = c :: cs) (hc : c.isAlphanum = true) :
    ways moreParts s = [] := by
  rw [moreParts_ways, part_other (by rw [hrest]; exact alnum_not_underscore hc)]
  rfl

theorem alnum_alpha (hc : c.isAlpha = true) : c.isAlphanum = true := by simp [Char.isAlphanum, hc]

/-- The first part of a name is taken whole. -/
theorem name_ways (hc : c.isAlpha = true) : ways name ⟨before, c :: cs, groups⟩ =
    ways moreParts (Place.past ⟨before, c :: cs, groups⟩ Char.isAlphanum) := by
  obtain ⟨less, hways, hin⟩ := ways_many Char.isAlphanum ⟨c :: before, cs, groups⟩
  have hstuck : ∀ s' ∈ less, ways moreParts s' = [] := by
    intro s' hs'
    obtain ⟨c, cs, hrest, hc, -⟩ := hin s' hs'
    exact moreParts_inside hrest hc
  show (ways (one Char.isAlpha) _).flatMap _ = _
  rw [ways_one_cons, if_pos hc, List.flatMap_singleton, ways_seq, hways, ← List.singleton_append,
    flatMap_run hstuck, List.flatMap_singleton, Place.past_cons (alnum_alpha hc)]

/-- **A name** is a whole run of parts, two at least. -/
theorem name_first (s : Place Char) : first name s =
    if s.rest.head?.any Char.isAlpha && (((s.rest.takeWhile isWord).splitOn '_').all (· ≠ []) &&
      2 ≤ ((s.rest.takeWhile isWord).splitOn '_').length) then some (s.past isWord) else none := by
  obtain ⟨before, rest, groups⟩ := s
  cases halpha : rest.head?.any Char.isAlpha with
  | false =>
    have hnone : ways name ⟨before, rest, groups⟩ = [] := by
      cases rest with
      | nil => rfl
      | cons c cs =>
        have hc : c.isAlpha = false := halpha
        simp [name, hc]
    rw [first, hnone]
    rfl
  | true =>
    cases rest with
    | nil => cases halpha
    | cons c cs =>
      have hc : c.isAlpha = true := halpha
      have hfirst : (c :: cs).head?.any Char.isAlphanum = true := alnum_alpha hc
      have hbehind := head_dropWhile Char.isAlphanum (c :: cs)
      have hover : (Place.past ⟨before, c :: cs, groups⟩ Char.isAlphanum).past isWord =
          Place.past ⟨before, c :: cs, groups⟩ isWord := Place.past_past isWord_alnum _
      rw [first, name_ways hc, Bool.true_and, split_run, List.all_cons, takeWhile_isEmpty, hfirst,
        Bool.true_and,
        ← hover]
      generalize hplace : Place.past ⟨before, c :: cs, groups⟩ Char.isAlphanum = s
      have hrest : (c :: cs).dropWhile Char.isAlphanum = s.rest := by rw [← hplace]; rfl
      rw [hrest] at hbehind ⊢
      clear hplace hover hrest hfirst
      rw [moreParts_ways]
      obtain ⟨before, rest, groups⟩ := s
      cases hword : rest.head?.any isWord with
      | false =>
        have hother : rest.head?.any (· == '_') = false := by
          cases rest with
          | nil => rfl
          | cons c cs => exact (Bool.or_eq_false_iff.mp hword).2
        have hrun : rest.takeWhile isWord = [] := by
          have hempty := takeWhile_isEmpty isWord rest
          rw [hword] at hempty
          simpa using hempty
        rw [part_other hother, hrun]
        simp
      | true =>
        cases rest with
        | nil => cases hword
        | cons c cs =>
          cases underscore_of_word hword hbehind
          have hways : (ways part ⟨before, '_' :: cs, groups⟩).flatMap (ways parts) =
              ways parts ⟨before, '_' :: cs, groups⟩ := by
            rw [part_whole _ _ _ fun _ _ _ => parts_inside, parts_underscore]
          have hsplit : ((('_' :: cs).takeWhile isWord).splitOn '_').tail =
              (cs.takeWhile isWord).splitOn '_' := by
            rw [List.takeWhile_cons_of_pos (by decide), split_underscore, List.tail_cons]
          have hmore : 1 ≤ ((cs.takeWhile isWord).splitOn '_').length :=
            List.length_pos_iff.mpr (List.splitOn_ne_nil _ _)
          rw [hways]
          refine (parts_first _ hbehind).trans ?_
          unfold full
          rw [hsplit, List.length_cons, decide_eq_true (Nat.succ_le_succ hmore), Bool.and_true]

/-! ## The match of a place -/

theorem name_underscore (before cs : Text) (groups : List (Nat × Text)) :
    ways name ⟨before, '_' :: cs, groups⟩ = [] := by
  simp [name]

/-- The underscores in front are taken all, and are two at most. -/
theorem underscores_first (s : Place Char) :
    first (seq (opt (seq (one (· == '_')) (opt (one (· == '_'))))) name) s =
      if (s.rest.takeWhile (· == '_')).length ≤ 2 then first name
      (s.past (· == '_')) else none := by
  obtain ⟨before, rest, groups⟩ := s
  cases rest with
  | nil => simp [first, Place.past]
  | cons c₁ cs =>
    by_cases h₁ : c₁ = '_'
    · subst h₁
      cases cs with
      | nil => simp [first, Place.past, name_underscore]
      | cons c₂ cs =>
        by_cases h₂ : c₂ = '_'
        · subst h₂
          cases cs with
          | nil => simp [first, Place.past, name_underscore]
          | cons c₃ cs =>
            by_cases h₃ : c₃ = '_'
            · subst h₃
              simp [first, name_underscore]
            · simp [first, Place.past, name_underscore, h₃]
        · simp [first, Place.past, name_underscore, h₂]
    · simp [first, Place.past, h₁]

theorem isWord_underscore (c : Char) (hc : (c == '_') = true) : isWord c = true := by
  cases eq_of_beq hc
  decide

theorem dropWhile_of_not {p : Char → Bool} {t : Text} (h : t.head?.any p = false) :
    t.dropWhile p = t := by
  cases t with
  | nil => rfl
  | cons c cs =>
    have hc : p c = false := h
    simp [hc]

/-- The first letter of a run is the first letter of its text. -/
theorem head_run (t : Text) : (t.takeWhile isWord).head?.any Char.isAlpha =
    t.head?.any Char.isAlpha := by
  cases t with
  | nil => rfl
  | cons c cs =>
    cases hc : isWord c with
    | true => rw [List.takeWhile_cons_of_pos hc]; rfl
    | false =>
      cases ha : c.isAlpha with
      | true => rw [isWord_alnum c (alnum_alpha ha)] at hc; cases hc
      | false => simp [hc, ha]

/-- A name in snake case, read off the text of its run. -/
theorem isSnake_run (t : Text) : isSnake (t.takeWhile isWord) =
    (decide ((t.takeWhile (· == '_')).length ≤ 2) &&
      ((t.dropWhile (· == '_')).head?.any Char.isAlpha &&
      ((((t.dropWhile (· == '_')).takeWhile isWord).splitOn '_').all (· ≠ []) &&
        2 ≤ (((t.dropWhile (· == '_')).takeWhile isWord).splitOn '_').length))) := by
  have hfront : ∀ c ∈ t.takeWhile (· == '_'), (c == '_') = true :=
    fun c hc => List.mem_takeWhile_imp (p := (· == '_')) hc
  have hname : (t.takeWhile isWord).dropWhile
      (· == '_') = (t.dropWhile (· == '_')).takeWhile isWord := by
    rw [takeWhile_wider isWord_underscore, List.dropWhile_append_of_pos hfront]
    exact dropWhile_of_not (head_takeWhile isWord (head_dropWhile _ t))
  have hlen : (t.takeWhile isWord).length - ((t.dropWhile (· == '_')).takeWhile isWord).length =
      (t.takeWhile (· == '_')).length := by
    rw [takeWhile_wider isWord_underscore, List.length_append]
    omega
  unfold isSnake
  dsimp only
  rw [hname, hlen, head_run]
  by_cases htwo : (t.takeWhile (· == '_')).length ≤ 2
  · cases hhead : (t.dropWhile (· == '_')).head?.any Char.isAlpha with
    | true => simp [htwo, Nat.not_lt.mpr htwo]
    | false => simp
  · simp [htwo, Nat.lt_of_not_le htwo]

/-- **At the start of a run** the match is the run, if it is a name in snake case. -/
theorem snake_first (rest : Text) (hbefore : before.head?.any isWord = false) :
    first SNAKE ⟨before, rest, []⟩ =
      if isSnake (rest.takeWhile isWord) then some
      (Place.past ⟨before, rest, []⟩ isWord) else none := by
  have hbehind : first SNAKE ⟨before, rest, []⟩ =
      first (seq (opt (seq (one (· == '_')) (opt (one (· == '_'))))) name) ⟨before, rest, []⟩ := by
    show (List.flatMap _ (if before.head?.any isWord then [] else [_])).head? = _
    rw [if_neg (by rw [hbefore]; exact Bool.false_ne_true), List.flatMap_singleton]
    rfl
  rw [hbehind, underscores_first, name_first, Place.past_past isWord_underscore, isSnake_run]
  by_cases htwo : (rest.takeWhile (· == '_')).length ≤ 2
  · rw [if_pos htwo, decide_eq_true htwo, Bool.true_and]
    rfl
  · rw [if_neg htwo, decide_eq_false htwo, Bool.false_and]
    rfl

/-- Inside a run nothing matches. -/
theorem snake_inside (hbefore : before.head?.any isWord = true) :
    first SNAKE ⟨before, rest, []⟩ = none := by
  show (List.flatMap _ (if before.head?.any isWord then [] else [_])).head? = _
  rw [if_pos hbefore]
  rfl

/-! ## Replacing -/

/-- **From run to run**: a place that is not inside one. -/
theorem prose_replaceAt (before rest : Text)
    (hplace : before.head?.any isWord = false ∨ rest.head?.any isWord = false) :
    replaceAt WORD_RUN (fun run _ => if isSnake run then underscoresSpoken run else run)
    before rest =
      replaceAt SNAKE (fun name _ => underscoresSpoken name) before rest := by
  induction hn : rest.length using Nat.strongRecOn generalizing before rest with
  | ind n ih =>
    subst hn
    cases rest with
    | nil => rfl
    | cons c cs =>
      cases hc : isWord c with
      | false =>
        have hrun : first WORD_RUN ⟨before, c :: cs, []⟩ = none := by
          rw [WORD_RUN, first_plus]
          simp [hc]
        have hname : first SNAKE ⟨before, c :: cs, []⟩ = none := by
          cases hbefore : before.head?.any isWord with
          | true => exact snake_inside hbefore
          | false =>
            rw [snake_first _ hbefore, List.takeWhile_cons_of_neg (by simp [hc])]
            rfl
        rw [replaceAt_skip hrun, replaceAt_skip hname,
          ih cs.length (Nat.lt_succ_self _) (c :: before) cs (.inl hc) rfl]
      | true =>
        have hbefore : before.head?.any isWord = false := by
          rcases hplace with h | h
          · exact h
          · exact absurd (hc.symm.trans h) (by simp)
        have hrun : first WORD_RUN ⟨before, c :: cs, []⟩ = some
            (Place.past ⟨before, c :: cs, []⟩ isWord) := by
          rw [WORD_RUN, first_plus]
          exact if_pos hc
        have hlt : (Place.past ⟨before, c :: cs, []⟩ isWord).rest.length < (c :: cs).length := by
          rw [Place.past_cons hc]
          exact Nat.lt_succ_of_le (List.dropWhile_suffix (p := isWord) (l := cs)).length_le
        have hbehind := ih _ hlt (Place.past ⟨before, c :: cs, []⟩ isWord).before
          (Place.past ⟨before, c :: cs, []⟩ isWord).rest
            (.inr (head_dropWhile isWord (c :: cs))) rfl
        rw [replaceAt_match hrun hlt, hbehind, Place.upTo_past]
        have hfirst := snake_first (c :: cs) hbefore
        dsimp only
        by_cases hsnake : isSnake ((c :: cs).takeWhile isWord) = true
        · rw [if_pos hsnake] at hfirst ⊢
          rw [replaceAt_match hfirst hlt, Place.upTo_past]
        · rw [if_neg hsnake] at hfirst ⊢
          have hinside : replaceAt SNAKE (fun name _ => underscoresSpoken name) (c :: before) cs =
              cs.takeWhile isWord ++ replaceAt SNAKE (fun name _ => underscoresSpoken name)
                ((cs.takeWhile isWord).reverse ++ c :: before) (cs.dropWhile isWord) :=
            replaceAt_past (fun _ _ _ _ h => snake_inside h) hc
          rw [replaceAt_skip hfirst, hinside, List.takeWhile_cons_of_pos hc, Place.past_cons hc]
          rfl

/-- **The scanner is the expression replaced everywhere**, where no code is set off. -/
theorem speakSnakeCase_eq {t : Text} (h : INLINE_CODE.find [] t = none) :
    speakSnakeCase t = SNAKE.replaceAll (fun name _ => underscoresSpoken name) t := by
  have hprose : speakSnakeCase t = prose t := by
    unfold speakSnakeCase
    cases t with
    | nil => rfl
    | cons c cs =>
      show snakeCaseFrom (cs.length + 1) [] (c :: cs) = prose (c :: cs)
      unfold snakeCaseFrom
      rw [h]
  rw [hprose]
  exact prose_replaceAt [] t (.inl rfl)

/-- **The scanners are the expressions they replace.** -/
theorem scanners_are_expressions (t : Text) :
    emphasisPass t = EMPHASIS.replaceAll (fun _ groups => (lookup 2 groups).getD []) t ∧
    replaceBareUrls t = BARE_URL.replaceAll (fun _ _ => "link".toList) t ∧
    (INLINE_CODE.find [] t = none → speakSnakeCase t = SNAKE.replaceAll
      (fun name _ => underscoresSpoken name) t) :=
  ⟨emphasisPass_eq t, replaceBareUrls_eq t, speakSnakeCase_eq⟩

theorem scanners_are_expressions_name : INLINE_CODE.find [] "call _a_b c".toList = none ∧
    speakSnakeCase "call _a_b c".toList =
      SNAKE.replaceAll (fun name _ => underscoresSpoken name) "call _a_b c".toList :=
  ⟨by decide, (scanners_are_expressions "call _a_b c".toList).2.2 (by decide)⟩

example : emphasisPass "***a*** _b_c ****d****".toList = "a bc *d*".toList := by decide

end Sonara.Markdown
