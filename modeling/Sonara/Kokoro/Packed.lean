import Sonara.Kokoro.Cuts

/-!
# Every batch fits, and is of one sentence

The parts of a long sentence are packed greedily (`Lib.Packing`): a run of parts fits as long as
the last one fits behind the joined others. A part that something joins is not full, so it does not
end as a sentence does, and the joined run is whole. Batches without a token are dropped; that
leaves no two neighbours that fit together, since what does not fit with nothing is full.
-/

namespace Sonara.Kokoro

open Lib

variable {vocab : Char → Bool} {max : Nat}

/-! ## The parts -/

/-- What `chop` makes of a word behind `cur`. -/
theorem chop_spec (hmax : 1 ≤ max) {cur : Text} (w : Text) (hcur : tokenLen vocab cur ≤ max) :
    (chop vocab max cur w).flatten = cur ++ w ∧
      (∀ p ∈ chop vocab max cur w, tokenLen vocab p ≤ max ∧
        (tokenLen vocab p = max ∨ p <:+ cur ++ w)) ∧
      (chop vocab max cur w).Pairwise fun p _ => tokenLen vocab p = max := by
  induction w generalizing cur with
  | nil =>
    unfold chop
    split
    next h =>
      rw [List.isEmpty_iff.mp h]
      exact ⟨rfl, fun p hp => absurd hp List.not_mem_nil, .nil⟩
    next =>
      refine ⟨by simp, fun p hp => ?_, List.pairwise_singleton _ _⟩
      rw [List.mem_singleton.mp hp, List.append_nil]
      exact ⟨hcur, .inr List.suffix_rfl⟩
  | cons c w ih =>
    unfold chop
    split
    next hcut =>
      rw [Bool.and_eq_true, beq_iff_eq] at hcut
      have hone : tokenLen vocab [c] ≤ max := Nat.le_trans (tokenLen_cons_le vocab c []) hmax
      obtain ⟨hflat, hsmall, hfull⟩ := ih hone
      refine ⟨?_, fun p hp => ?_, List.pairwise_cons.mpr ⟨fun _ _ => hcut.2, hfull⟩⟩
      · rw [List.flatten_cons, hflat]
        rfl
      · rcases List.mem_cons.mp hp with rfl | hp
        · exact ⟨hcur, .inl hcut.2⟩
        · refine ⟨(hsmall p hp).1, (hsmall p hp).2.imp_right fun hs => hs.trans ?_⟩
          exact List.suffix_append cur (c :: w)
    next hcut =>
      have hgrown : tokenLen vocab (cur ++ [c]) ≤ max := by
        rw [tokenLen_append]
        unfold tokenLen at hcur ⊢
        rw [List.countP_singleton]
        cases hc : vocab c with
        | false => simpa using hcur
        | true =>
          have hne : List.countP vocab cur ≠ max := by
            intro heq
            refine hcut ?_
            rw [hc, tokenLen, heq, Bool.true_and]
            exact beq_self_eq_true max
          rw [if_pos rfl]
          omega
      have := ih hgrown
      rwa [List.append_assoc] at this

/-- A word's parts fit, hold all of it, and are cut late. -/
theorem wordParts_spec (hmax : 1 ≤ max) (w : Text) :
    Parts vocab max w (wordParts vocab max w) ∧ EndsLate vocab max w (wordParts vocab max w) := by
  unfold wordParts
  split
  next h => exact ⟨.one h, .one w⟩
  next =>
    obtain ⟨hflat, hsmall, hfull⟩ := @chop_spec vocab max hmax [] w (Nat.zero_le max)
    rw [List.nil_append] at hflat hsmall
    refine ⟨⟨fun p hp => (hsmall p hp).1, by
      rw [hflat], fun p hp => ?_, hfull.imp fun h _ => Nat.le_of_eq h.symm⟩,
      fun p hp hend => ?_⟩
    · have hin := List.infix_of_mem_flatten hp
      rwa [hflat] at hin
    · rcases (hsmall p hp).2 with heq | hs
      · exact .inr (Nat.le_of_eq heq.symm)
      · by_contra hno
        rw [not_or] at hno
        exact not_endsIn_of_end hno.1 hs hend

theorem space_not_end : ' ' ∉ sentenceEnds := by decide

/-- The words of a clause. -/
theorem clauseParts_spec (hmax : 1 ≤ max) {clause : Text} (hwhole : Whole sentenceEnds clause) :
    Parts vocab max clause (clauseParts vocab max clause) ∧
      EndsLate vocab max clause (clauseParts vocab max clause) := by
  unfold clauseParts
  split
  next h => exact ⟨.one h, .one clause⟩
  next =>
    have hjoin : Text.join [' '] (clause.splitOn ' ') = clause := List.intercalate_splitOn ' '
    obtain ⟨hword, hspace⟩ := @join_parts (clause.splitOn ' ')
    rw [hjoin] at hword hspace
    refine ⟨.flatMap ?_ (fun w hw => ?_) (hspace.imp fun h => not_endsIn hwhole h)
      (fun w _ => (wordParts_spec hmax w).1) (fun w _ => (wordParts_spec hmax w).2),
      fun p hp hend => ?_⟩
    · rw [← symbols_join, hjoin]
    · exact (hword w hw).elim (fun h => (List.prefix_append w [' ']).isInfix.trans h)
        List.IsSuffix.isInfix
    · obtain ⟨w, hw, hp⟩ := List.mem_flatMap.mp hp
      refine ((wordParts_spec hmax w).2 p hp hend).imp_left fun hwend => ?_
      rcases hword w hw with h | h
      · exact absurd hwend (not_endsIn hwhole h)
      · by_contra hno
        exact not_endsIn_of_end hno h hwend

theorem clauseEnds_spec {m : Char} (hm : m ∈ [',', ';', ':']) :
    Text.isWhitespace m = false ∧ m ∉ sentenceEnds := by
  simp only [List.mem_cons, List.not_mem_nil, or_false] at hm
  rcases hm with rfl | rfl | rfl
  · exact ⟨rfl, by decide⟩
  · exact ⟨rfl, by decide⟩
  · exact ⟨rfl, by decide⟩

/-- The parts of a long sentence. -/
theorem pieceParts_spec (hmax : 1 ≤ max) {s : Text} (hwhole : Whole sentenceEnds s) :
    Parts vocab max s ((splitAfter [',', ';', ':'] s).flatMap (clauseParts vocab max)) := by
  have hclause : ∀ c ∈ splitAfter [',', ';', ':'] s, Whole sentenceEnds c := fun c hc =>
    hwhole.part (splitAfter_part hc)
  refine .flatMap (splitAfter_symbols _ s) (fun c hc => splitAfter_part hc) ?_
    (fun c hc => (clauseParts_spec hmax (hclause c hc)).1) fun c hc =>
      (clauseParts_spec hmax (hclause c hc)).2
  refine (splitAfter_ends (fun m hm => (clauseEnds_spec hm).1) s).imp ?_
  rintro c _ ⟨m, hm, hlast⟩ ⟨m', hm', hlast'⟩
  obtain rfl := Option.some.inj (hlast.symm.trans hlast')
  exact absurd hm' (clauseEnds_spec hm).2

/-! ## Packing -/

/-- The last piece fits behind the others. -/
def Fits (vocab : Char → Bool) (max : Nat) (run : List Text) : Prop :=
  (if run.dropLast = [] then 0 else tokenLen vocab (Text.join [' '] run.dropLast) + 1) +
    tokenLen vocab (run.getLastD []) ≤ max

instance : DecidablePred (Fits vocab max) := fun _ => inferInstanceAs (Decidable (_ ≤ _))

theorem fits_single (p : Text) : Fits vocab max [p] ↔ tokenLen vocab p ≤ max := by
  unfold Fits
  simp

theorem fits_snoc {run : List Text} (h : run ≠ []) (p : Text) : Fits vocab max (run ++ [p]) ↔
    tokenLen vocab (Text.join [' '] run) + 1 + tokenLen vocab p ≤ max := by
  unfold Fits
  rw [List.dropLast_concat, if_neg h]
  simp

/-- **The code packs as `Lib.Packing` does.** -/
theorem pack_eq (pieces : List Text) :
    pack vocab max pieces = (Packing.pack (Fits vocab max) pieces).map (Text.join [' ']) := by
  have hfold : ∀ (pieces : List Text) (s : List (List Text) × List Text), (s.2 = [] → s.1 = []) →
      pieces.foldl (packNext vocab max) ((Packing.close s).map (Text.join [' '])) =
        (Packing.close (pieces.foldl (Packing.place (Fits vocab max)) s)).map
          (Text.join [' ']) := by
    intro pieces
    induction pieces with
    | nil => exact fun s _ => rfl
    | cons p pieces ih =>
      intro s hs
      have hstep : packNext vocab max ((Packing.close s).map (Text.join [' '])) p =
          (Packing.close (Packing.place (Fits vocab max) s p)).map (Text.join [' ']) := by
        obtain ⟨out, run⟩ := s
        by_cases hrun : run = []
        · obtain rfl : out = [] := hs hrun
          subst hrun
          simp [Packing.place, Packing.close, packNext, join_single]
        · have hclose : ∀ r : List Text, r ≠ [] → Packing.close (out, r) = out ++ [r] :=
            fun r hr => if_neg hr
          rw [hclose run hrun, List.map_append, List.map_singleton, packNext, List.getLast?_concat]
          dsimp only
          by_cases hfits : Fits vocab max (run ++ [p])
          · rw [Packing.place_joins (.inr hfits), if_pos ((fits_snoc hrun p).mp hfits),
              List.dropLast_concat,
              hclose _ (by simp), List.map_append, List.map_singleton, join_snoc hrun]
          · rw [Packing.place_opens (fun h => h.elim hrun hfits),
              if_neg fun h => hfits ((fits_snoc hrun p).mpr h)]
            have : Packing.close (out ++ [run], [p]) = out ++ [run] ++ [[p]] :=
              if_neg (List.cons_ne_nil p [])
            rw [this, List.map_append, List.map_append, List.map_singleton, List.map_singleton,
              join_single]
      have hnext : (Packing.place (Fits vocab max) s p).2 = [] →
          (Packing.place (Fits vocab max) s p).1 = [] := by
        intro h
        unfold Packing.place at h
        split at h <;> simp at h
      rw [List.foldl_cons, hstep, ih _ hnext, List.foldl_cons]
  exact hfold pieces ([], []) fun _ => rfl

theorem tokenLen_part (vocab : Char → Bool) {s t : Text} (h : s <:+: t) :
    tokenLen vocab s ≤ tokenLen vocab t :=
  h.sublist.countP_le

theorem part_in_join {ps : List Text} {p : Text} (hp : p ∈ ps) : p <:+: Text.join [' '] ps :=
  (join_parts.1 p hp).elim (fun h => (List.prefix_append p [' ']).isInfix.trans h)
    List.IsSuffix.isInfix

/-- A run that fits is short enough when it is joined, and the parts before the last are not full.
-/
theorem Fits.joined {run : List Text} (h : Fits vocab max run) :
    tokenLen vocab (Text.join [' '] run) ≤ max ∧ ∀ p ∈ run.dropLast, tokenLen vocab p < max := by
  induction run using List.reverseRecOn with
  | nil => exact ⟨Nat.zero_le max, fun p hp => absurd hp List.not_mem_nil⟩
  | append_singleton run x _ =>
    by_cases hrun : run = []
    · subst hrun
      rw [List.nil_append, fits_single] at h
      rw [List.nil_append, join_single]
      exact ⟨h, fun p hp => absurd hp List.not_mem_nil⟩
    · rw [fits_snoc hrun] at h
      have hspace := tokenLen_cons_le vocab ' ' x
      rw [join_snoc hrun, tokenLen_append, List.dropLast_concat]
      refine ⟨by omega, fun p hp => ?_⟩
      have := tokenLen_part vocab (part_in_join hp)
      omega

/-- A packed run of parts of a sentence lies in the sentence. -/
theorem joined_whole {run : List Text} (hfits : Fits vocab max run)
    (hwhole : ∀ p ∈ run, Whole sentenceEnds p)
    (hguarded : run.Pairwise fun p _ => Guarded vocab max p) :
    Whole sentenceEnds (Text.join [' '] run) := by
  refine .join space_not_end hwhole fun p hp hend => ?_
  have hguard : Guarded vocab max p := by
    induction run using List.reverseRecOn with
    | nil => exact absurd hp List.not_mem_nil
    | append_singleton run x _ =>
      rw [List.dropLast_concat] at hp
      exact (List.pairwise_append.mp hguarded).2.2 p hp x (List.mem_singleton_self x)
  exact Nat.not_lt.mpr (hguard hend) (hfits.joined.2 p hp)

/-- Two neighbours that do not fit together, the space between them counted as one. -/
def Tight (vocab : Char → Bool) (max : Nat) (b b' : Text) : Prop :=
  max < tokenLen vocab b + 1 + tokenLen vocab b'

/-- What one sentence, or one long piece of it, is cut into. -/
structure Cuts (vocab : Char → Bool) (max : Nat) (s : Text) (bs : List Text) : Prop where
  small : ∀ b ∈ bs, tokenLen vocab b ≤ max
  whole : ∀ b ∈ bs, Whole sentenceEnds b
  symbols : Kokoro.symbols vocab bs.flatten = Kokoro.symbols vocab s
  tight : bs.IsChain (Tight vocab max)

/-- Packing whole parts gives whole batches that fit. -/
theorem pack_spec {s : Text} {parts : List Text} (h : Parts vocab max s parts)
    (hwhole : Whole sentenceEnds s) :
    Cuts vocab max s (pack vocab max parts) := by
  have hone : ∀ p ∈ parts, Fits vocab max [p] := fun p hp => (fits_single p).mpr (h.small p hp)
  obtain ⟨hpacks, hne⟩ := Packing.pack_packs hone
  have hfull : Packing.Full _ (Packing.pack (Fits vocab max) parts) := Packing.pack_full parts
  rw [pack_eq]
  generalize Packing.pack (Fits vocab max) parts = runs at hpacks hne hfull
  have hrun : ∀ r ∈ runs, r <:+: parts := fun r hr => hpacks.flatten ▸ List.infix_of_mem_flatten hr
  refine ⟨fun b hb => ?_, fun b hb => ?_, ?_, ?_⟩
  · obtain ⟨r, hr, rfl⟩ := List.mem_map.mp hb
    exact (hpacks.fits r hr).joined.1
  · obtain ⟨r, hr, rfl⟩ := List.mem_map.mp hb
    exact joined_whole (hpacks.fits r hr)
      (fun p hp => hwhole.part (h.infixes p ((hrun r hr).subset hp)))
      (h.guarded.sublist (hrun r hr).sublist)
  · rw [← h.symbols, ← hpacks.flatten]
    clear hpacks hne hfull hrun
    induction runs with
    | nil => rfl
    | cons r runs ih =>
      rw [List.map_cons, List.flatten_cons, symbols_append, symbols_join, ih, List.flatten_cons,
        List.flatten_append, symbols_append]
  · refine (List.isChain_map _).mpr (hfull.imp_of_mem_imp fun r r' hr hr' hfull => ?_)
    obtain ⟨x, rest, rfl⟩ := List.exists_cons_of_ne_nil (hne r' hr')
    have hno := hfull x rfl
    rw [fits_snoc (hne r hr)] at hno
    have hx := tokenLen_part vocab (@part_in_join (x :: rest) x List.mem_cons_self)
    unfold Tight
    omega

theorem cut_spec (hmax : 1 ≤ max) {s : Text} (hwhole : Whole sentenceEnds s) :
    Cuts vocab max s (cut vocab max s) := by
  unfold cut
  split
  next h =>
    refine ⟨fun b hb => ?_, fun b hb => ?_, by rw [List.flatten_singleton], .singleton s⟩
    · exact List.mem_singleton.mp hb ▸ h
    · exact List.mem_singleton.mp hb ▸ hwhole
  next => exact pack_spec (pieceParts_spec hmax hwhole) hwhole

/-! ## The batches of the sentences -/

/-- Where what is left out had nothing it could be related to, the others are a chain without it. -/
theorem isChain_filter {α : Type} {R : α → α → Prop} {p : α → Bool} {l : List α}
    (hskip : ∀ x z y, p z = false → R x z → R x y) (h : l.IsChain R) : (l.filter p).IsChain R := by
  have hcons : ∀ (l : List α) (x : α), (x :: l).IsChain R → (x :: l.filter p).IsChain R := by
    intro l
    induction l with
    | nil => exact fun x h => h
    | cons z l ih =>
      intro x h
      obtain ⟨hxz, hzl⟩ := List.isChain_cons_cons.mp h
      cases hp : p z with
      | true =>
        rw [List.filter_cons_of_pos hp]
        exact List.isChain_cons_cons.mpr ⟨hxz, ih z hzl⟩
      | false =>
        rw [List.filter_cons_of_neg (by simp [hp])]
        exact ih x (hzl.imp_head fun _ => hskip x z _ hp hxz)
  induction l with
  | nil => exact .nil
  | cons x l ih =>
    cases hp : p x with
    | true =>
      rw [List.filter_cons_of_pos hp]
      exact hcons l x h
    | false =>
      rw [List.filter_cons_of_neg (by simp [hp])]
      exact ih h.tail

/-- The batches of one sentence, as it stands in the text. -/
structure Sentence (vocab : Char → Bool) (max : Nat) (s : Text) (bs : List Text) : Prop where
  /-- Only at its end does a mark have a space behind it. -/
  one : Whole sentenceEnds s
  size : ∀ b ∈ bs, 1 ≤ tokenLen vocab b ∧ tokenLen vocab b ≤ max
  whole : ∀ b ∈ bs, Whole sentenceEnds b
  symbols : Kokoro.symbols vocab bs.flatten = Kokoro.symbols vocab s
  tight : bs.IsChain (Tight vocab max)

/-- A batch without a token is left out. -/
theorem Cuts.sentence {s : Text} {bs : List Text} (hs : Whole sentenceEnds s)
    (h : Cuts vocab max s bs) :
    Sentence vocab max s (bs.filter fun b => tokenLen vocab b > 0) where
  one := hs
  size b hb := by
    obtain ⟨hin, hpos⟩ := List.mem_filter.mp hb
    exact ⟨of_decide_eq_true hpos, h.small b hin⟩
  whole b hb := h.whole b (List.mem_filter.mp hb).1
  symbols := by
    rw [← h.symbols]
    clear h
    induction bs with
    | nil => rfl
    | cons b bs ih =>
      rw [List.filter_cons, List.flatten_cons, symbols_append]
      split
      · rw [List.flatten_cons, symbols_append, ih]
      next hzero =>
        rw [ih, symbols_eq_nil (t := b) (by simpa using hzero)]
        rfl
  tight := by
    refine isChain_filter (fun x z y hz hxz => ?_) h.tight
    have hz : tokenLen vocab z = 0 := by simpa using hz
    unfold Tight at hxz ⊢
    omega

/-- The batches of a piece of the text. -/
def batchesIn (vocab : Char → Bool) (max : Nat) (s : Text) : List Text :=
  (([s.trim].filter (· ≠ [])).flatMap (cut vocab max)).filter fun b => tokenLen vocab b > 0

theorem batchesOf_eq (ps : Text) : batchesOf vocab max ps =
    (raw sentenceEnds [] ps).flatMap (batchesIn vocab max) := by
  unfold batchesOf
  rw [splitAfter_raw]
  generalize raw sentenceEnds [] ps = l
  induction l with
  | nil => rfl
  | cons r l ih =>
    rw [List.flatMap_cons, ← ih, batchesIn, ← List.filter_append, ← List.flatMap_append]
    refine congrArg _ (congrArg _ ?_)
    rw [List.map_cons, List.filter_cons, List.filter_cons]
    split <;> rfl

/-- The batches of a sentence hold its symbols, fit, and are cut where they must be. -/
theorem batchesIn_spec (hmax : 1 ≤ max) {s : Text} (hs : Whole sentenceEnds s) :
    Sentence vocab max s (batchesIn vocab max s) := by
  unfold batchesIn
  by_cases hblank : Text.trim s = []
  · have hnil : [Text.trim s].filter (· ≠ []) = [] := by simp [hblank]
    rw [hnil]
    refine ⟨hs, fun b hb => absurd hb List.not_mem_nil,
      fun b hb => absurd hb List.not_mem_nil, ?_, .nil⟩
    rw [← symbols_trim s, hblank]
    rfl
  · have hone : [Text.trim s].filter (· ≠ []) = [Text.trim s] := by simp [hblank]
    rw [hone, List.flatMap_singleton]
    have hcuts : Cuts vocab max _ (cut vocab max (Text.trim s)) :=
      cut_spec hmax (hs.part (trim_part s))
    have := hcuts.sentence (hs.part (trim_part s))
    exact ⟨hs, this.size, this.whole, this.symbols.trans (symbols_trim s), this.tight⟩

/-- **The batches of a text**: it is cut behind each sentence end with a space or the end behind it,
and every sentence into batches of 1 to `max` tokens that keep its symbols and fit no closer. -/
theorem batches_kept (vocab : Char → Bool) (max : Nat) (hmax : 1 ≤ max) (ps : Text) :
    symbols vocab (batchesOf vocab max ps).flatten = symbols vocab ps ∧
    ∃ sentences : List (Text × List Text),
      (sentences.map (·.1)).flatten = ps ∧
      batchesOf vocab max ps = (sentences.map (·.2)).flatten ∧
      (sentences.map (·.1)).IsChain (fun s s' => EndsIn sentenceEnds s ∧ s'.head? = some ' ') ∧
      ∀ s ∈ sentences, Sentence vocab max s.1 s.2 := by
  have hwhole : ∀ r ∈ raw sentenceEnds [] ps, Whole sentenceEnds r := by
    refine raw_whole .nil ?_
    rintro ⟨m, -, hlast⟩
    cases hlast
  refine ⟨?_, (raw sentenceEnds [] ps).map fun s => (s, batchesIn vocab max s), ?_, ?_, ?_, ?_⟩
  · rw [batchesOf_eq]
    have hflat := raw_flatten sentenceEnds [] ps
    generalize raw sentenceEnds [] ps = l at hwhole hflat
    rw [← List.nil_append ps, ← hflat]
    clear hflat
    induction l with
    | nil => rfl
    | cons r l ih =>
      rw [List.flatMap_cons, List.flatten_append, symbols_append, List.flatten_cons, symbols_append,
        (batchesIn_spec hmax (hwhole r List.mem_cons_self)).symbols,
        ih fun r' hr' => hwhole r' (List.mem_cons_of_mem _ hr')]
  · rw [List.map_map]
    exact (congrArg List.flatten (List.map_id _)).trans (raw_flatten sentenceEnds [] ps)
  · rw [batchesOf_eq, List.map_map]
    rfl
  · rw [List.map_map]
    exact (List.map_id _).symm ▸ (raw_chain sentenceEnds [] ps).2
  · intro s hs
    obtain ⟨r, hr, rfl⟩ := List.mem_map.mp hs
    exact batchesIn_spec hmax (hwhole r hr)

/-- Letters, the space and marks as the model has them. -/
def sampleVocab (c : Char) : Bool := ('a' ≤ c && c ≤ 'z') || c == ' ' || c == ',' || c == '.'

theorem batches_kept_sample :
    (symbols sampleVocab (batchesOf sampleVocab 6 "ab cd, ef gh. ij".toList).flatten =
      symbols sampleVocab "ab cd, ef gh. ij".toList ∧ ∃ sentences : List (Text × List Text),
      (sentences.map (·.1)).flatten = "ab cd, ef gh. ij".toList ∧
      batchesOf sampleVocab 6 "ab cd, ef gh. ij".toList = (sentences.map (·.2)).flatten ∧
      (sentences.map (·.1)).IsChain (fun s s' => EndsIn sentenceEnds s ∧ s'.head? = some ' ') ∧
      ∀ s ∈ sentences, Sentence sampleVocab 6 s.1 s.2) ∧
    batchesOf sampleVocab 6 "ab cd, ef gh. ij".toList =
      ["ab cd,".toList, "ef gh.".toList, "ij".toList] :=
  ⟨batches_kept sampleVocab 6 (by decide) _, by decide +kernel⟩

end Sonara.Kokoro
