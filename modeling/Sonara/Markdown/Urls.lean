import Sonara.Markdown.Scanners

/-!
# The shortest body of a URL

Behind the scheme the lazy `\S+?` stops at the first place, at least one character on, from which
only closing punctuation is left of the token (`look_first`): that is the token without its closing
punctuation, or its first character (`tail_first`). Without a scheme nothing matches, so the scanner
may go from scheme to scheme.
-/

namespace Sonara.Markdown

open Sonara Text
open Lib (Re Place lookup)
open Lib.Re

variable {c : Char} {before rest cs : Text} {groups : List (Nat × Text)} {s m e : Place Char}

/-- `(?=[.,;:!?)\]]*(?:\s|$))`. -/
def look : Re Char := ahead (seq (star true (one (PUNCT.contains ·))) (alt (one isPySpace) atEnd))

/-- `\S+?` and the look ahead. -/
def body : Re Char := seq (plusLazy (one (!isPySpace ·))) look

theorem punct_not_space (hc : PUNCT.contains c = true) : isPySpace c = false ∧ c ≠ '\n' := by
  have hmem : c ∈ PUNCT := List.contains_iff_mem.mp hc
  simp only [PUNCT, List.mem_cons, List.not_mem_nil, or_false] at hmem
  rcases hmem with rfl | rfl | rfl | rfl | rfl | rfl | rfl | rfl <;> decide

/-- The token of a text. -/
def token (t : Text) : Text := t.takeWhile (!isPySpace ·)

/-- `(?:\s|$)` fails before a character of a token only. -/
theorem ending_ways : ways (alt (one isPySpace) atEnd) s = [] ↔
    ∃ c ∈ s.rest.head?, isPySpace c = false := by
  obtain ⟨before, rest, groups⟩ := s
  cases rest with
  | nil => simp [atEnd, ways]
  | cons c cs =>
    cases hc : isPySpace c with
    | true => simp [hc]
    | false =>
      have hline : c ≠ '\n' := by
        rintro rfl
        exact absurd hc (by decide)
      simp [atEnd, ways, hc, hline]

/-- Only closing punctuation is left of the token. -/
theorem closing_iff (t : Text) :
    (∃ c ∈ (t.dropWhile (PUNCT.contains ·)).head?, isPySpace c = false) ↔
    ¬(token t).all (PUNCT.contains ·) = true := by
  unfold token
  induction t with
  | nil => simp
  | cons c cs ih =>
    cases hp : PUNCT.contains c with
    | true =>
      have hc := (punct_not_space hp).1
      rw [List.dropWhile_cons_of_pos hp, ih, List.takeWhile_cons_of_pos (by simp [hc]),
        List.all_cons, hp, Bool.true_and]
    | false =>
      rw [List.dropWhile_cons_of_neg (by rw [hp]; exact Bool.false_ne_true)]
      cases hc : isPySpace c with
      | true => simp [hc]
      | false =>
        rw [List.takeWhile_cons_of_pos (by simp [hc]), List.all_cons, hp]
        simp [hc]

/-- The look behind a URL holds when nothing but punctuation follows in its token. -/
theorem look_ways : ways look s = if (token s.rest).all (PUNCT.contains ·) then [s] else [] := by
  obtain ⟨less, hways, hin⟩ := ways_many (PUNCT.contains ·) s
  have hstuck : ∀ s' ∈ less, ways (alt (one isPySpace) atEnd) s' = [] := by
    intro s' hs'
    obtain ⟨c, cs, hrest, hc, -⟩ := hin s' hs'
    exact ending_ways.mpr ⟨c, by rw [hrest]; rfl, (punct_not_space hc).1⟩
  have hrun : ways (seq (star true (one (PUNCT.contains ·))) (alt (one isPySpace) atEnd)) s =
      ways (alt (one isPySpace) atEnd) (s.past (PUNCT.contains ·)) := by
    rw [ways_seq, hways, ← List.singleton_append, flatMap_run hstuck, List.flatMap_singleton]
  have hnil : ways (alt (one isPySpace) atEnd) (s.past (PUNCT.contains ·)) = [] ↔
      ¬(token s.rest).all (PUNCT.contains ·) = true := ending_ways.trans (closing_iff s.rest)
  unfold look
  rw [ways_ahead, hrun]
  by_cases hall : (token s.rest).all (PUNCT.contains ·) = true
  · rw [if_pos hall, if_neg fun h => hnil.mp h hall]
  · rw [if_neg hall, if_pos (hnil.mpr hall)]

/-- Dropping from the right, with one character more on the left. -/
theorem rdropWhile_cons (p : Char → Bool) (c : Char) (t : Text) :
    (c :: t).rdropWhile p = if (c :: t).all p then [] else c :: t.rdropWhile p := by
  unfold List.rdropWhile
  rw [List.reverse_cons, List.dropWhile_append]
  by_cases ht : t.all p = true
  · have hrest : t.reverse.dropWhile p = [] :=
      List.dropWhile_eq_nil_iff.mpr fun x hx => List.all_eq_true.mp ht x (List.mem_reverse.mp hx)
    rw [hrest]
    cases hc : p c <;> simp [hc, ht]
  · have hrest : t.reverse.dropWhile p ≠ [] := by
      intro hnil
      exact ht (List.all_eq_true.mpr fun x hx => List.dropWhile_eq_nil_iff.mp hnil x
        (List.mem_reverse.mpr hx))
    rw [if_neg (by simpa using hrest), if_neg (by simp [ht]), List.reverse_append]
    rfl

theorem skip_skip (n : Nat) : Place.skip ⟨c :: before, cs, groups⟩ n = Place.skip
    ⟨before, c :: cs, groups⟩ (n + 1) := by
  simp [Place.skip]

theorem token_cons (hc : isPySpace c = false) : token (c :: cs) = c :: token cs :=
  List.takeWhile_cons_of_pos (by simp [hc])

theorem token_space (hc : isPySpace c = true) : token (c :: cs) = [] :=
  List.takeWhile_cons_of_neg (by simp [hc])

/-- The shortest body leaves only closing punctuation of the token. -/
theorem look_first (before rest : Text) (groups : List (Nat × Text)) :
    first (seq (star false (one (!isPySpace ·))) look) ⟨before, rest, groups⟩ =
      some (Place.skip ⟨before, rest, groups⟩
        ((token rest).rdropWhile (PUNCT.contains ·)).length) := by
  induction rest generalizing before with
  | nil =>
    rw [first_lazy_nil, first, look_ways]
    rfl
  | cons c cs ih =>
    rw [first_lazy, first, look_ways]
    cases hc : isPySpace c with
    | true =>
      rw [token_space hc]
      simp [Place.skip]
    | false =>
      rw [token_cons hc, rdropWhile_cons]
      by_cases hall : (c :: token cs).all (PUNCT.contains ·) = true
      · rw [if_pos hall, if_pos hall]
        simp [Place.skip]
      · rw [if_neg hall, if_neg hall, ih, skip_skip]
        rfl

/-- **The body of a URL.** -/
theorem body_first (s : Place Char) : first body s =
    if token s.rest = [] then none
    else some (s.skip (max ((token s.rest).rdropWhile (PUNCT.contains ·)).length 1)) := by
  obtain ⟨before, rest, groups⟩ := s
  cases rest with
  | nil => rfl
  | cons c cs =>
    cases hc : isPySpace c with
    | true =>
      rw [token_space hc, if_pos rfl]
      simp [first, body, plusLazy, hc]
    | false =>
      have hlazy : first body ⟨before, c :: cs, groups⟩ =
          first (seq (star false (one (!isPySpace ·))) look) ⟨c :: before, cs, groups⟩ := by
        simp [first, body, plusLazy, hc]
      rw [hlazy, look_first, skip_skip, token_cons hc, if_neg (List.cons_ne_nil _ _),
        rdropWhile_cons]
      by_cases hall : (c :: token cs).all (PUNCT.contains ·) = true
      · have hrest : (token cs).rdropWhile (PUNCT.contains ·) = [] := by
          rw [List.rdropWhile_eq_nil_iff]
          exact fun x hx => List.all_eq_true.mp hall x (List.mem_cons_of_mem c hx)
        rw [if_pos hall, hrest]
        rfl
      · rw [if_neg hall, List.length_cons, Nat.max_eq_left (Nat.le_add_left 1 _)]

/-! ## From scheme to scheme -/

theorem slashes_ways (s : Place Char) : ways (word "://".toList) s = [] ∨
    ∃ e, ways (word "://".toList) s = [e] ∧ e.rest.length ≤ s.rest.length := by
  rw [ways_word]
  split
  · exact .inr ⟨_, rfl, by simp [Place.skip]⟩
  · exact .inl rfl

/-- The `s?` goes back to nothing: no `s` begins the slashes. -/
theorem secure_ways (s : Place Char) :
    ways (seq (opt (one (· == 's'))) (word "://".toList)) s = [] ∨
    ∃ e, ways (seq (opt (one (· == 's'))) (word "://".toList)) s = [e] ∧
    e.rest.length ≤ s.rest.length := by
  obtain ⟨before, rest, groups⟩ := s
  cases rest with
  | nil => exact .inl (by simp [word])
  | cons c cs =>
    by_cases hc : c = 's'
    · subst hc
      have hback : ways (word "://".toList) ⟨before, 's' :: cs, groups⟩ = [] := by simp [word]
      have hon : ways (seq (opt (one (· == 's'))) (word "://".toList)) ⟨before, 's' :: cs, groups⟩ =
          ways (word "://".toList) ⟨'s' :: before, cs, groups⟩ := by
        rw [ways_seq, ways_opt, ways_one_cons, if_pos (beq_self_eq_true 's'), List.flatMap_append,
          List.flatMap_singleton,
          List.flatMap_singleton, hback, List.append_nil]
      rw [hon]
      rcases slashes_ways ⟨'s' :: before, cs, groups⟩ with hnil | ⟨e, he, hle⟩
      · exact .inl hnil
      · exact .inr ⟨e, he, Nat.le_succ_of_le hle⟩
    · have hon : ways (seq (opt (one (· == 's'))) (word "://".toList)) ⟨before, c :: cs, groups⟩ =
          ways (word "://".toList) ⟨before, c :: cs, groups⟩ := by
        rw [ways_seq, ways_opt, ways_one_cons, if_neg (by simpa using hc), List.nil_append,
          List.flatMap_singleton]
      rw [hon]
      exact slashes_ways _

/-- A scheme ends in one way at most. -/
theorem scheme_ways (s : Place Char) : ways URL_SCHEME s = [] ∨
    ∃ e, ways URL_SCHEME s = [e] ∧ e.rest.length < s.rest.length := by
  unfold URL_SCHEME
  rw [ways_seq, ways_word]
  by_cases hhttp : "http".toList.isPrefixOf s.rest = true
  · rw [if_pos hhttp, List.flatMap_singleton]
    have hlen := (List.isPrefixOf_iff_prefix.mp hhttp).length_le
    rcases secure_ways (s.skip "http".toList.length) with hnil | ⟨e, he, hle⟩
    · exact .inl hnil
    · refine .inr ⟨e, he, Nat.lt_of_le_of_lt hle ?_⟩
      show (s.rest.drop 4).length < s.rest.length
      rw [List.length_drop]
      exact Nat.sub_lt (Nat.lt_of_lt_of_le (by decide) hlen) (by decide)
  · rw [if_neg hhttp]
    exact .inl rfl

/-- Without a scheme nothing matches. -/
theorem bareUrl_begins (s : Place Char) (h : first URL_SCHEME s = none) :
    first BARE_URL s = none := by
  rw [first_eq_none] at h ⊢
  show (ways URL_SCHEME s).flatMap (ways body) = []
  rw [h]
  rfl

/-- What matches at a scheme is the body behind it. -/
theorem bareUrl_first (h : first URL_SCHEME m = some e) :
    first BARE_URL m = first body e ∧ e.rest.length < m.rest.length := by
  rcases scheme_ways m with hnil | ⟨e', he', hlt⟩
  · rw [first, hnil] at h
    cases h
  · rw [first, he'] at h
    cases h
    refine ⟨?_, hlt⟩
    show ((ways URL_SCHEME m).flatMap (ways body)).head? = _
    rw [he', List.flatMap_singleton]
    rfl

/-- With enough fuel `bareUrlsFrom` replaces every match of the expression. -/
theorem bareUrlsFrom_eq {n : Nat} (since before : Text) (hn : rest.length ≤ n) :
    bareUrlsFrom n since before rest = since ++ replaceAt BARE_URL
    (fun _ _ => "link".toList) before rest := by
  induction n generalizing since before rest with
  | zero =>
    rw [List.length_eq_zero_iff.mp (Nat.le_zero.mp hn)]
    rfl
  | succ n ih =>
    unfold bareUrlsFrom
    obtain ⟨hnone, hsome⟩ := replaceAt_find (fun _ _ => "link".toList) before rest bareUrl_begins
    cases hfind : URL_SCHEME.find before rest with
    | none => rw [hnone hfind]
    | some found =>
      obtain ⟨m, e⟩ := found
      obtain ⟨he, hgroups, hrest, hat⟩ := hsome m e hfind
      obtain ⟨hfirst, hlt⟩ := bareUrl_first he
      have hm : m.rest.length ≤ n + 1 := by
        rw [hrest, List.length_append] at hn
        omega
      rw [hat]
      obtain ⟨mb, mr, mg⟩ := m
      cases hgroups
      dsimp only at hfirst hlt hm ⊢
      rw [body_first] at hfirst
      by_cases htoken : e.rest.takeWhile (!isPySpace ·) = []
      · rw [if_pos htoken]
        rw [if_pos (show token e.rest = [] from htoken)] at hfirst
        cases mr with
        | nil => exact absurd hlt (Nat.not_lt_zero _)
        | cons c cs =>
          rw [replaceAt_skip hfirst]
          show bareUrlsFrom n (since ++ _ ++ [c]) (c :: mb) cs = _
          rw [ih _ _ (Nat.le_of_succ_le_succ hm)]
          simp
      · rw [if_neg htoken]
        rw [if_neg (show token e.rest ≠ [] from htoken)] at hfirst
        have hbody : ∀ k, (e.skip k).rest.length < mr.length := by
          intro k
          refine Nat.lt_of_le_of_lt ?_ hlt
          show (e.rest.drop k).length ≤ e.rest.length
          rw [List.length_drop]
          exact Nat.sub_le _ _
        rw [replaceAt_match hfirst (hbody _),
          ih _ _ (Nat.le_of_lt_succ (Nat.lt_of_lt_of_le (hbody _) hm))]
        simp [token]

/-- **The scanner is the expression replaced everywhere.** -/
theorem replaceBareUrls_eq (t : Text) :
    replaceBareUrls t = BARE_URL.replaceAll (fun _ _ => "link".toList) t :=
  bareUrlsFrom_eq [] [] (Nat.le_refl _)

end Sonara.Markdown
