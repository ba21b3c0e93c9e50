import Sonara.Markdown.Scanners

/-!
# One candidate at each start

At a marker the greedy `{1,3}` can only go on with the whole run of markers, since the content
cannot begin with one; the content can only end at its full length, since `\1` cannot begin with
content (`closed_ways`). So the ways of `EMPHASIS` at a place are what `emphasised` finds
(`emphasis_first`).
-/

namespace Sonara.Markdown

open Sonara Text
open Lib (Re Place lookup takeWhile_ne_nil)
open Lib.Re

variable {m c : Char} {before rest cs tail : Text} {groups : List (Nat × Text)} {k : Nat}

/-- The content, and the markers that close it. -/
def closed : Re Char := seq (group 2 (plus (one isContent))) (back 1)

theorem isContent_marker (hm : isMarker m = true) : isContent m = false := by simp [isContent, hm]

/-- No content begins with a marker. -/
theorem closed_marker (hm : isMarker m = true) : ways closed ⟨before, m :: cs, groups⟩ = [] := by
  simp [closed, ways_group, plus, isContent_marker hm]

/-- Markers do not begin with content. -/
theorem back_content {t : Text} (ht : t ≠ []) (hmark : ∀ m ∈ t.head?, isMarker m = true)
    {s : Place Char}
    (hgroups : lookup 1 s.groups = some t) (hrest : s.rest = c :: cs) (hc : isContent c = true) :
    ways (back 1) s = [] := by
  rw [ways_back hgroups, hrest]
  cases t with
  | nil => exact absurd rfl ht
  | cons m ms =>
    have hne : m ≠ c := by
      rintro rfl
      rw [isContent_marker (hmark m rfl)] at hc
      cases hc
    refine if_neg ?_
    rw [List.isPrefixOf_cons_cons]
    simp [hne]

/-- Behind the markers `t` content closes at its full length, with the same markers. -/
theorem closed_ways {t : Text} (ht : t ≠ []) (hmark : ∀ m ∈ t.head?, isMarker m = true)
    {s : Place Char} (hs : s.groups = [(1, t)]) : ways closed s =
      if s.rest.takeWhile isContent ≠ [] ∧ t.isPrefixOf (s.rest.dropWhile isContent) = true then
        [Place.skip { s.past isContent with groups := [(2, s.rest.takeWhile isContent), (1, t)] }
          t.length]
      else [] := by
  obtain ⟨less, hways, hin⟩ := ways_plus isContent s
  show ((ways (plus (one isContent)) s).map _).flatMap (ways (back 1)) = _
  rw [hways, List.map_append, flatMap_run]
  · by_cases hhead : s.rest.head?.any isContent = true
    · rw [if_pos hhead, List.map_singleton, List.flatMap_singleton, Place.upTo_past]
      show ways (back 1) ⟨(s.past isContent).before, (s.past isContent).rest,
        (2, _) :: s.groups⟩ = _
      rw [hs, ways_back (t := t) rfl, Place.past_rest]
      by_cases hclose : t.isPrefixOf (s.rest.dropWhile isContent) = true
      · rw [if_pos hclose, if_pos ⟨takeWhile_ne_nil.mpr hhead, hclose⟩]
        rfl
      · rw [if_neg hclose, if_neg fun h => hclose h.2]
    · rw [if_neg hhead, if_neg fun h => hhead (takeWhile_ne_nil.mp h.1)]
      rfl
  · intro s' hs'
    obtain ⟨s₁, hs₁, rfl⟩ := List.mem_map.mp hs'
    obtain ⟨c, cs, hrest, hc, hgroups⟩ := hin s₁ hs₁
    refine back_content ht hmark ?_ hrest hc
    rw [hgroups, hs]
    rfl

/-- **The ways of an emphasis** that begins with a marker. -/
theorem emphasis_ways (hm : isMarker m = true) : ways EMPHASIS ⟨before, m :: cs, []⟩ =
    if ((m :: cs).takeWhile (· == m)).length ≤ 3 then
      ways closed { Place.past ⟨before, m :: cs, []⟩ (· == m) with
        groups := [(1, (m :: cs).takeWhile (· == m))] }
    else [] := by
  have hone : ways (alt (oneToThree '*') (oneToThree '_')) ⟨before, m :: cs, []⟩ =
      ways (oneToThree m) ⟨before, m :: cs, []⟩ := by
    rcases Bool.or_eq_true_iff.mp hm with h | h
    · cases eq_of_beq h
      simp [oneToThree]
    · cases eq_of_beq h
      simp [oneToThree]
  show ((ways (alt (oneToThree '*') (oneToThree '_')) _).map _).flatMap (ways closed) = _
  rw [hone]
  have hstuck : ∀ before cs groups, ways closed ⟨before, m :: cs, groups⟩ = [] :=
    fun _ _ _ => closed_marker hm
  cases cs with
  | nil => simp [oneToThree, Place.upTo, Place.past]
  | cons c₁ cs =>
    by_cases h₁ : c₁ = m
    · subst h₁
      cases cs with
      | nil => simp [oneToThree, Place.upTo, Place.past, hstuck]
      | cons c₂ cs =>
        by_cases h₂ : c₂ = c₁
        · subst h₂
          cases cs with
          | nil => simp [oneToThree, Place.upTo, Place.past, hstuck]
          | cons c₃ cs =>
            by_cases h₃ : c₃ = c₂
            · subst h₃
              simp [oneToThree, Place.upTo, hstuck]
            · simp [oneToThree, Place.upTo, Place.past, hstuck, h₃]
        · simp [oneToThree, Place.upTo, Place.past, hstuck, h₂]
    · simp [oneToThree, Place.upTo, Place.past, h₁]

theorem drop_run (p : Char → Bool) (t : Text) : t.drop (t.takeWhile p).length = t.dropWhile p := by
  have hsplit : (t.takeWhile p ++ t.dropWhile p).drop (t.takeWhile p).length = t.dropWhile p :=
    List.drop_left
  rwa [List.takeWhile_append_dropWhile] at hsplit

theorem run_eq_replicate (m : Char) (t : Text) :
    t.takeWhile (· == m) = List.replicate (t.takeWhile (· == m)).length m := by
  refine List.eq_replicate_iff.mpr ⟨rfl, fun c hc => ?_⟩
  exact eq_of_beq (List.mem_takeWhile_imp (p := (· == m)) hc)

theorem isPrefixOf_iff_take {t u : Text} : t.isPrefixOf u = true ↔ u.take t.length = t := by
  rw [List.isPrefixOf_iff_prefix, List.prefix_iff_eq_take]
  exact eq_comm

/-- The scanner, with the whole run of markers. -/
theorem emphasised_marker (hm : isMarker m = true) : emphasised (m :: cs) =
    let run := (m :: cs).takeWhile (· == m)
    let rest := (m :: cs).dropWhile (· == m)
    if run.length ≤ 3 ∧ rest.takeWhile isContent ≠ [] ∧ run.isPrefixOf
      (rest.dropWhile isContent) = true then
      some (rest.takeWhile isContent, (rest.dropWhile isContent).drop run.length)
    else none := by
  unfold emphasised
  dsimp only
  rw [if_pos hm]
  by_cases hlen : ((m :: cs).takeWhile (· == m)).length ≤ 3
  · have hmin : min 4 ((m :: cs).takeWhile (· == m)).length =
      ((m :: cs).takeWhile (· == m)).length := by omega
    rw [hmin, drop_run, ← run_eq_replicate]
    simp only [isPrefixOf_iff_take]
  · have hmin : min 4 ((m :: cs).takeWhile (· == m)).length = 4 := by omega
    have hfour : ¬4 ≤ 3 := by decide
    rw [hmin, if_neg fun h => hfour h.1, if_neg fun h => hlen h.1]

theorem emphasised_other (hm : ∀ m ∈ rest.head?, isMarker m = false) : emphasised rest = none := by
  cases rest with
  | nil => rfl
  | cons c cs =>
    have hc : ¬isMarker c = true := by
      rw [hm c rfl]
      exact Bool.false_ne_true
    exact if_neg hc

/-- What begins with no marker begins no match. -/
theorem emphasis_other (hm : ∀ m ∈ rest.head?, isMarker m = false) :
    first EMPHASIS ⟨before, rest, []⟩ = none := by
  have hnone : ways EMPHASIS ⟨before, rest, []⟩ = [] := by
    cases rest with
    | nil => rfl
    | cons c cs =>
      obtain ⟨hstar, hunder⟩ := Bool.or_eq_false_iff.mp (hm c rfl)
      simp [EMPHASIS, ways_group, oneToThree, beq_eq_false_iff_ne.mp hstar,
        beq_eq_false_iff_ne.mp hunder]
  rw [first, hnone]
  rfl

/-- **The scanner finds the match of a place.** -/
theorem emphasis_first (before rest : Text) :
    (emphasised rest = none ∧ first EMPHASIS ⟨before, rest, []⟩ = none) ∨
    ∃ content after s, emphasised rest = some
    (content, after) ∧ first EMPHASIS ⟨before, rest, []⟩ = some s ∧
      s.rest = after ∧ lookup 2 s.groups = some content ∧ after.length < rest.length := by
  by_cases hm : ∀ m ∈ rest.head?, isMarker m = false
  · exact .inl ⟨emphasised_other hm, emphasis_other hm⟩
  cases rest with
  | nil => exact absurd (fun m hm => by cases hm) hm
  | cons m cs =>
    have hm : isMarker m = true := by
      cases hmark : isMarker m with
      | true => rfl
      | false => exact absurd (fun x hx => by cases hx; exact hmark) hm
    rw [emphasised_marker hm, first, emphasis_ways hm]
    dsimp only
    by_cases hlen : ((m :: cs).takeWhile (· == m)).length ≤ 3
    · rw [if_pos hlen, closed_ways (t := (m :: cs).takeWhile (· == m)) (by simp) (by simp [hm]) rfl]
      rw [Place.past_rest]
      by_cases hclosed : ((m :: cs).dropWhile (· == m)).takeWhile isContent ≠ [] ∧
          ((m :: cs).takeWhile (· == m)).isPrefixOf
            (((m :: cs).dropWhile (· == m)).dropWhile isContent) = true
      · rw [if_pos hclosed, if_pos ⟨hlen, hclosed⟩]
        refine .inr ⟨_, _, _, rfl, rfl, rfl, rfl, ?_⟩
        have hrun : (m :: cs).dropWhile (· == m) = cs.dropWhile (· == m) :=
          List.dropWhile_cons_of_pos (beq_self_eq_true m)
        have hcontent :=
          (List.dropWhile_suffix (p := isContent) (l := cs.dropWhile (· == m))).length_le
        have hcs := (List.dropWhile_suffix (p := (· == m)) (l := cs)).length_le
        rw [hrun, List.length_drop, List.length_cons]
        omega
      · rw [if_neg hclosed, if_neg fun h => hclosed h.2]
        exact .inl ⟨rfl, rfl⟩
    · rw [if_neg hlen, if_neg fun h => hlen h.1]
      exact .inl ⟨rfl, rfl⟩

/-- With enough fuel `emphasisFrom` replaces every match of the expression. -/
theorem emphasisFrom_eq {n : Nat} (before : Text) (hn : rest.length ≤ n) :
    emphasisFrom n rest = replaceAt EMPHASIS
    (fun _ groups => (lookup 2 groups).getD []) before rest := by
  induction n generalizing before rest with
  | zero =>
    rw [List.length_eq_zero_iff.mp (Nat.le_zero.mp hn)]
    rfl
  | succ n ih =>
    unfold emphasisFrom
    rcases emphasis_first before rest with ⟨hnone, hfirst⟩ | ⟨content, after, s, hsome, hfirst, rfl,
      hcontent, hlt⟩
    · rw [hnone]
      cases rest with
      | nil => rfl
      | cons c cs =>
        dsimp only
        rw [replaceAt_skip hfirst, ih (c :: before) (Nat.le_of_succ_le_succ hn)]
    · have hrest : s.rest.length ≤ n := by omega
      rw [hsome, replaceAt_match hfirst hlt, hcontent, ← ih s.before hrest]
      rfl

/-- **The pass is the expression replaced everywhere.** -/
theorem emphasisPass_eq (t : Text) :
    emphasisPass t = EMPHASIS.replaceAll (fun _ groups => (lookup 2 groups).getD []) t :=
  emphasisFrom_eq [] (Nat.le_refl _)

end Sonara.Markdown
