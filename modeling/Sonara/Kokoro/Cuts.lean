import Mathlib.Data.List.Chain
import Sonara.Kokoro.Batches
import Sonara.Lib.Packing

/-!
# What the cuts keep

Every cut takes white space only, so the symbols of the pieces are those of the text (`symbols`).
A text is `Whole` when no sentence end in it is followed by a space. A piece of a sentence is whole,
being a part of it; a packed batch is whole because a piece with something behind it does not end
as a sentence does, unless it is full and nothing joins it (`Guarded`).
-/

namespace Sonara.Kokoro

open Lib

/-! ## Symbols -/

section

variable {vocab : Char → Bool}

/-- The tokens that are not white space. -/
def symbols (vocab : Char → Bool) (t : Text) : Text := (Text.ink t).filter vocab

theorem symbols_append (s t : Text) :
    symbols vocab (s ++ t) = symbols vocab s ++ symbols vocab t := by
  rw [symbols, Text.ink_append, List.filter_append]
  rfl

theorem symbols_trim (t : Text) : symbols vocab (Text.trim t) = symbols vocab t := by
  rw [symbols, Text.ink_trim]
  rfl

theorem symbols_space (t : Text) : symbols vocab (' ' :: t) = symbols vocab t := rfl

/-- A text without tokens has no symbols. -/
theorem symbols_eq_nil {t : Text} (h : tokenLen vocab t = 0) : symbols vocab t = [] := by
  refine List.filter_eq_nil_iff.mpr fun c hc => ?_
  exact List.countP_eq_zero.mp h c (List.mem_filter.mp hc).1

theorem tokenLen_append (s t : Text) :
    tokenLen vocab (s ++ t) = tokenLen vocab s + tokenLen vocab t :=
  List.countP_append

theorem tokenLen_cons_le (vocab : Char → Bool) (c : Char) (t : Text) :
    tokenLen vocab (c :: t) ≤ tokenLen vocab t + 1 := by
  unfold tokenLen
  rw [List.countP_cons]
  split <;> omega

end

/-! ## Joined pieces -/

theorem join_single (p : Text) : Text.join [' '] [p] = p := List.intercalate_singleton

theorem join_cons (p : Text) {ps : List Text} (h : ps ≠ []) :
    Text.join [' '] (p :: ps) = p ++ ' ' :: Text.join [' '] ps := by
  unfold Text.join
  rw [List.intercalate_cons_of_ne_nil h, List.append_assoc]
  rfl

theorem join_snoc {ps : List Text} (h : ps ≠ []) (p : Text) :
    Text.join [' '] (ps ++ [p]) = Text.join [' '] ps ++ ' ' :: p := by
  induction ps with
  | nil => exact absurd rfl h
  | cons q ps ih =>
    cases ps with
    | nil =>
      rw [List.singleton_append, join_cons q (List.cons_ne_nil _ _), join_single, join_single]
    | cons q' ps =>
      rw [List.cons_append, join_cons q (by simp), ih (List.cons_ne_nil _ _),
        join_cons q (List.cons_ne_nil _ _), List.append_assoc]
      rfl

theorem symbols_join {vocab : Char → Bool} (ps : List Text) :
    symbols vocab (Text.join [' '] ps) = symbols vocab ps.flatten := by
  induction ps with
  | nil => rfl
  | cons p ps ih =>
    cases ps with
    | nil => rw [join_single, List.flatten_singleton]
    | cons q ps =>
      rw [join_cons p (List.cons_ne_nil _ _), symbols_append, symbols_space, ih, ← symbols_append]
      rfl

/-- A piece stands in the joined text, before a space or at its end. -/
theorem join_parts {ps : List Text} :
    (∀ p ∈ ps, p ++ [' '] <:+: Text.join [' '] ps ∨ p <:+ Text.join [' '] ps) ∧
      ps.Pairwise fun p _ => p ++ [' '] <:+: Text.join [' '] ps := by
  induction ps with
  | nil => exact ⟨fun p hp => absurd hp List.not_mem_nil, .nil⟩
  | cons p ps ih =>
    cases ps with
    | nil =>
      refine ⟨fun q hq => .inr ?_, List.pairwise_singleton _ _⟩
      rw [List.mem_singleton.mp hq, join_single]
    | cons q ps =>
      rw [join_cons p (List.cons_ne_nil _ _)]
      have htail : Text.join [' '] (q :: ps) <:+ p ++ ' ' :: Text.join [' '] (q :: ps) :=
        (List.suffix_cons _ _).trans (List.suffix_append _ _)
      have hhead : p ++ [' '] <:+: p ++ ' ' :: Text.join [' '] (q :: ps) :=
        ⟨[], Text.join [' '] (q :: ps), by simp⟩
      refine ⟨fun r hr => ?_, List.pairwise_cons.mpr
        ⟨fun _ _ => hhead, ih.2.imp fun h => h.trans htail.isInfix⟩⟩
      rcases List.mem_cons.mp hr with rfl | hr
      · exact .inl hhead
      · exact (ih.1 r hr).imp (fun h => h.trans htail.isInfix) fun h => h.trans htail

/-! ## Whole texts -/

/-- No char of `ends` has a space behind it. -/
def Whole (ends : List Char) (t : Text) : Prop := ∀ m ∈ ends, ¬ [m, ' '] <:+: t

/-- The text ends with a char of `ends`. -/
def EndsIn (ends : List Char) (t : Text) : Prop := ∃ m ∈ ends, t.getLast? = some m

variable {ends : List Char}

theorem Whole.part {s t : Text} (h : Whole ends t) (hs : s <:+: t) : Whole ends s :=
  fun m hm hin => h m hm (hin.trans hs)

theorem Whole.nil : Whole ends [] := by
  intro m _ hin
  cases List.infix_nil.mp hin

/-- A mark before a blank lies in one of two joined texts, or across their seam. -/
theorem pair_infix_append {m : Char} {s t : Text} (h : [m, ' '] <:+: s ++ t) :
    [m, ' '] <:+: s ∨ [m, ' '] <:+: t ∨ s.getLast? = some m ∧ t.head? = some ' ' := by
  induction s with
  | nil => exact .inr (.inl h)
  | cons c s ih =>
    rcases List.infix_cons_iff.mp h with hpre | hin
    · obtain ⟨hc, hrest⟩ := List.cons_prefix_cons.mp hpre
      cases s with
      | nil =>
        cases t with
        | nil => cases List.prefix_nil.mp hrest
        | cons d t =>
          have hd := (List.cons_prefix_cons.mp hrest).1
          exact .inr (.inr ⟨congrArg some hc.symm, congrArg some hd.symm⟩)
      | cons d s =>
        have hd := (List.cons_prefix_cons.mp hrest).1
        exact .inl ⟨[], s, by rw [hc, hd]; rfl⟩
    · rcases ih hin with hin | hin | ⟨hlast, hhead⟩
      · exact .inl (hin.trans (List.suffix_cons c s).isInfix)
      · exact .inr (.inl hin)
      · refine .inr (.inr ⟨?_, hhead⟩)
        rw [List.getLast?_cons, hlast]
        rfl

/-- Two whole texts make a whole one, unless the first ends and a space begins the second. -/
theorem Whole.append {s t : Text} (hs : Whole ends s) (ht : Whole ends t)
    (hst : EndsIn ends s → t.head? ≠ some ' ') : Whole ends (s ++ t) := by
  intro m hm hin
  rcases pair_infix_append hin with hin | hin | ⟨hlast, hhead⟩
  · exact hs m hm hin
  · exact ht m hm hin
  · exact hst ⟨m, hm, hlast⟩ hhead

theorem Whole.singleton (c : Char) : Whole ends [c] := by
  intro m _ hin
  have := hin.length_le
  exact absurd this (by decide : ¬ 2 ≤ 1)

theorem Whole.space {t : Text} (hends : ' ' ∉ ends) (h : Whole ends t) : Whole ends (' ' :: t) := by
  refine (Whole.singleton ' ').append h ?_
  rintro ⟨m, hm, hlast⟩
  obtain rfl := Option.some.inj hlast
  exact absurd hm hends

/-- A text that stands before a space, or at the end of one that does not end. -/
theorem not_endsIn {s t : Text} (ht : Whole ends t) (hs : s ++ [' '] <:+: t) : ¬ EndsIn ends s := by
  rintro ⟨m, hm, hlast⟩
  obtain ⟨s', rfl⟩ := List.getLast?_eq_some_iff.mp hlast
  refine ht m hm (List.IsInfix.trans ⟨s', [], ?_⟩ hs)
  simp

theorem not_endsIn_of_end {s t : Text} (ht : ¬ EndsIn ends t) (hs : s <:+ t) : ¬ EndsIn ends s := by
  rintro ⟨m, hm, hlast⟩
  obtain ⟨a, rfl⟩ := hs
  refine ht ⟨m, hm, ?_⟩
  rw [List.getLast?_append, hlast]
  rfl

/-- Whole pieces that do not end where another follows make a whole text. -/
theorem Whole.join {ps : List Text} (hends : ' ' ∉ ends) (hps : ∀ p ∈ ps, Whole ends p)
    (hlast : ∀ p ∈ ps.dropLast, ¬ EndsIn ends p) : Whole ends (Text.join [' '] ps) := by
  induction ps with
  | nil => exact .nil
  | cons p ps ih =>
    cases ps with
    | nil =>
      rw [join_single]
      exact hps p List.mem_cons_self
    | cons q ps =>
      rw [join_cons p (List.cons_ne_nil _ _)]
      have htail := ih (fun r hr => hps r (List.mem_cons_of_mem _ hr)) fun r hr =>
        hlast r (List.mem_cons_of_mem _ hr)
      refine (hps p List.mem_cons_self).append (htail.space hends) fun hend => ?_
      exact absurd hend (hlast p List.mem_cons_self)

/-! ## Splitting after a mark -/

/-- The pieces of `splitAfter` as they stand in the text. -/
def raw (ends : List Char) (cur : Text) : Text → List Text
  | [] => if cur.isEmpty then [] else [cur]
  | c :: rest =>
    if ends.contains c && rest.head?.all (· == ' ') then (cur ++ [c]) :: raw ends [] rest
    else raw ends (cur ++ [c]) rest

/-- Cutting after end marks is cutting raw, trimmed and without what is empty. -/
theorem splitAfter_raw (ends : List Char) (s : Text) :
    splitAfter ends s = ((raw ends [] s).map Text.trim).filter (· ≠ []) := by
  have hgo : ∀ cur, ((splitAfter.go ends cur s).map Text.trim).filter (· ≠ []) =
      ((raw ends cur s).map Text.trim).filter (· ≠ []) := by
    induction s with
    | nil =>
      intro cur
      unfold splitAfter.go raw
      by_cases hcur : cur = []
      · subst hcur
        rfl
      · rw [if_neg (show ¬ cur.isEmpty = true from fun h => hcur (List.isEmpty_iff.mp h))]
        split
        next htrim => simp [List.isEmpty_iff.mp htrim]
        next => rfl
    | cons c rest ih =>
      intro cur
      unfold splitAfter.go raw
      split
      · rw [List.map_cons, List.map_cons, List.filter_cons, List.filter_cons, ih]
      · exact ih _
  exact hgo []

/-- The raw pieces make up the text. -/
theorem raw_flatten (ends : List Char) (cur s : Text) : (raw ends cur s).flatten = cur ++ s := by
  induction s generalizing cur with
  | nil =>
    unfold raw
    split
    next h => rw [List.isEmpty_iff.mp h]; rfl
    next => simp
  | cons c rest ih =>
    unfold raw
    split
    · rw [List.flatten_cons, ih, List.append_assoc]
      rfl
    · rw [ih, List.append_assoc]
      rfl

/-- No raw piece is empty. -/
theorem raw_ne_nil (ends : List Char) (cur s : Text) : ∀ r ∈ raw ends cur s, r ≠ [] := by
  induction s generalizing cur with
  | nil =>
    intro r hr
    unfold raw at hr
    split at hr
    · exact absurd hr List.not_mem_nil
    next h =>
      rw [List.mem_singleton.mp hr]
      exact fun hnil => h (List.isEmpty_iff.mpr hnil)
  | cons c rest ih =>
    intro r hr
    unfold raw at hr
    split at hr
    · rcases List.mem_cons.mp hr with rfl | hr
      · simp
      · exact ih [] r hr
    · exact ih _ r hr

/-- A piece that another follows ends with a mark, and the other begins with a space. -/
theorem raw_chain (ends : List Char) (cur s : Text) :
    (∀ r ∈ (raw ends cur s).head?, r.head? = (cur ++ s).head?) ∧
    (raw ends cur s).IsChain fun r r' => EndsIn ends r ∧ r'.head? = some ' ' := by
  induction s generalizing cur with
  | nil =>
    unfold raw
    split
    · exact ⟨fun r hr => (by cases hr), .nil⟩
    · refine ⟨fun r hr => ?_, .singleton _⟩
      rw [← Option.some.inj hr, List.append_nil]
  | cons c rest ih =>
    unfold raw
    split
    next hcut =>
      rw [Bool.and_eq_true] at hcut
      obtain ⟨hhead, hchain⟩ := ih []
      refine ⟨fun r hr => ?_, List.isChain_cons.mpr ⟨fun r hr => ⟨⟨c, ?_, ?_⟩, ?_⟩, hchain⟩⟩
      · obtain rfl := Option.some.inj hr
        cases cur <;> rfl
      · exact List.contains_iff_mem.mp hcut.1
      · exact List.getLast?_concat
      · -- what follows is not empty, so it begins with a space
        have heq := hhead r hr
        rw [List.nil_append] at heq
        have hne := raw_ne_nil ends [] rest r (List.mem_of_mem_head? hr)
        rw [heq]
        cases rest with
        | nil =>
          cases r with
          | nil => exact absurd rfl hne
          | cons d r => cases heq
        | cons d rest => exact congrArg some (beq_iff_eq.mp hcut.2)
    · have := ih (cur ++ [c])
      rwa [List.append_assoc] at this

/-- Every raw piece is whole: no end mark before a blank inside it. -/
theorem raw_whole {cur s : Text} (hcur : Whole ends cur)
    (hnext : EndsIn ends cur → s.head? ≠ some ' ') :
    ∀ r ∈ raw ends cur s, Whole ends r := by
  induction s generalizing cur with
  | nil =>
    intro r hr
    unfold raw at hr
    split at hr
    · exact absurd hr List.not_mem_nil
    · rw [List.mem_singleton.mp hr]
      exact hcur
  | cons c rest ih =>
    intro r hr
    have hsnoc : Whole ends (cur ++ [c]) := hcur.append (.singleton c) hnext
    unfold raw at hr
    split at hr
    · rcases List.mem_cons.mp hr with rfl | hr
      · exact hsnoc
      · refine ih .nil ?_ r hr
        rintro ⟨m, -, hlast⟩
        cases hlast
    next hgo =>
      refine ih hsnoc ?_ r hr
      rintro ⟨m, hm, hlast⟩ hhead
      rw [List.getLast?_concat] at hlast
      obtain rfl := Option.some.inj hlast
      refine hgo ?_
      rw [hhead, List.contains_iff_mem.mpr hm]
      rfl

theorem trim_part (t : Text) : Text.trim t <:+: t :=
  ((List.rdropWhile_prefix _ _).isInfix).trans (List.dropWhile_suffix _).isInfix

theorem trim_endsIn {t : Text} (hends : ∀ m ∈ ends, Text.isWhitespace m = false)
    (h : EndsIn ends t) :
    EndsIn ends (Text.trim t) := by
  obtain ⟨m, hm, hlast⟩ := h
  obtain ⟨a, rfl⟩ := List.getLast?_eq_some_iff.mp hlast
  have hone : Text.trim [m] = [m] := by
    simp [Text.trim, Text.trimStart, Text.trimEnd, hends m hm, List.rdropWhile]
  have htail := Text.trim_suffix a [] (hends m hm)
  rw [hone] at htail
  obtain ⟨b, hb⟩ := htail
  exact ⟨m, hm, by rw [← hb, List.getLast?_concat]⟩

theorem splitAfter_part {s p : Text} (hp : p ∈ splitAfter ends s) : p <:+: s := by
  rw [splitAfter_raw] at hp
  obtain ⟨r, hr, rfl⟩ := List.mem_map.mp (List.mem_filter.mp hp).1
  have hin : r <:+: (raw ends [] s).flatten := List.infix_of_mem_flatten hr
  rw [raw_flatten] at hin
  exact (trim_part r).trans hin

/-- The pieces hold every symbol of the text, in order. -/
theorem splitAfter_symbols {vocab : Char → Bool} (ends : List Char) (s : Text) :
    symbols vocab (splitAfter ends s).flatten = symbols vocab s := by
  have hall : ∀ l : List Text, symbols vocab ((l.map Text.trim).filter (· ≠ [])).flatten =
      symbols vocab l.flatten := by
    intro l
    induction l with
    | nil => rfl
    | cons r l ih =>
      rw [List.map_cons, List.filter_cons, List.flatten_cons, symbols_append]
      split
      · rw [List.flatten_cons, symbols_append, symbols_trim, ih]
      next hnil =>
        have htrim : Text.trim r = [] := by simpa using hnil
        rw [ih, ← symbols_trim r, htrim]
        rfl
  rw [splitAfter_raw, hall, raw_flatten]
  rfl

/-- A clause that another follows ends with a clause mark. -/
theorem splitAfter_ends (hends : ∀ m ∈ ends, Text.isWhitespace m = false) (s : Text) :
    (splitAfter ends s).Pairwise fun p _ => EndsIn ends p := by
  rw [splitAfter_raw]
  refine List.Pairwise.filter _ (List.pairwise_map.mpr ?_)
  have hchain : (raw ends [] s).IsChain fun r _ => EndsIn ends r :=
    (raw_chain ends [] s).2.imp fun _ _ h => h.1
  have htrans : Trans (α := Text) (β := Text) (γ := Text) (fun r _ => EndsIn ends r)
    (fun r _ => EndsIn ends r) (fun r _ => EndsIn ends r) := ⟨fun h _ => h⟩
  exact (List.isChain_iff_pairwise.mp hchain).imp fun h => trim_endsIn hends h

/-! ## The parts of a sentence -/

section

variable {vocab : Char → Bool} {max : Nat}

/-- A piece that ends as a sentence does is full. -/
def Guarded (vocab : Char → Bool) (max : Nat) (p : Text) : Prop :=
  EndsIn sentenceEnds p → max ≤ tokenLen vocab p

/-- The pieces a text is cut into. -/
structure Parts (vocab : Char → Bool) (max : Nat) (t : Text) (ps : List Text) : Prop where
  small : ∀ p ∈ ps, tokenLen vocab p ≤ max
  symbols : Kokoro.symbols vocab ps.flatten = Kokoro.symbols vocab t
  infixes : ∀ p ∈ ps, p <:+: t
  guarded : ps.Pairwise fun p _ => Guarded vocab max p

/-- Only where the text ends as a sentence does can a piece do so. -/
def EndsLate (vocab : Char → Bool) (max : Nat) (t : Text) (ps : List Text) : Prop :=
  ∀ p ∈ ps, EndsIn sentenceEnds p → EndsIn sentenceEnds t ∨ max ≤ tokenLen vocab p

theorem Parts.one {t : Text} (h : tokenLen vocab t ≤ max) : Parts vocab max t [t] where
  small p hp := List.mem_singleton.mp hp ▸ h
  symbols := by rw [List.flatten_singleton]
  infixes p hp := List.mem_singleton.mp hp ▸ List.infix_rfl
  guarded := List.pairwise_singleton _ _

theorem EndsLate.one (t : Text) : EndsLate vocab max t [t] := by
  intro p hp hend
  exact .inl (List.mem_singleton.mp hp ▸ hend)

/-- The parts of the cuts of a text, where no cut that another follows ends as a sentence does. -/
theorem Parts.flatMap {t : Text} {cuts : List Text} {f : Text → List Text}
    (hsymbols : Kokoro.symbols vocab cuts.flatten = Kokoro.symbols vocab t)
    (hin : ∀ u ∈ cuts, u <:+: t) (hcuts : cuts.Pairwise fun u _ => ¬ EndsIn sentenceEnds u)
    (hparts : ∀ u ∈ cuts, Parts vocab max u (f u))
    (hlate : ∀ u ∈ cuts, EndsLate vocab max u (f u)) :
    Parts vocab max t (cuts.flatMap f) where
  small p hp := by
    obtain ⟨u, hu, hp⟩ := List.mem_flatMap.mp hp
    exact (hparts u hu).small p hp
  symbols := by
    rw [← hsymbols]
    clear hsymbols hin hcuts hlate
    induction cuts with
    | nil => rfl
    | cons u cuts ih =>
      rw [List.flatMap_cons, List.flatten_append, symbols_append, List.flatten_cons, symbols_append,
        (hparts u List.mem_cons_self).symbols, ih fun v hv => hparts v (List.mem_cons_of_mem _ hv)]
  infixes p hp := by
    obtain ⟨u, hu, hp⟩ := List.mem_flatMap.mp hp
    exact ((hparts u hu).infixes p hp).trans (hin u hu)
  guarded := by
    refine List.pairwise_flatMap.mpr ⟨fun u hu => (hparts u hu).guarded, ?_⟩
    refine hcuts.imp_of_mem fun {u v} hu hv hend p hp q hq hp' => ?_
    exact (hlate u hu p hp hp').resolve_left hend

end

end Sonara.Kokoro
