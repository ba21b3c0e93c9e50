import Sonara.Lib.Packing
import Sonara.Prose.Chunks

/-!
# Packing a message

The sentences of a run of prose, each with whether it starts a paragraph and whether its
paragraph alone exceeds the limit (`Sentence`), are cut into consecutive runs, and a chunk
spells a run (`spell`). `packUnits` packs the sentences, `packParas` the blocks: whole
paragraphs, and the sentences of the long ones, where a long paragraph starts a run
(`BlockFits`). Both are `Lib.Packing.pack`, so both need the fewest runs of their kind.

A chunk that ends before every long paragraph is more than the rule asks for: a packing that
cuts at paragraphs and inside long ones only (`Respects`) may go on into a long paragraph. So
the result is such a packing, whenever there is one with as few runs, exactly when one of
these cuts before every long paragraph or fills every run (`pack_prose_spec`).
-/

namespace Sonara.Chunks

open Sonara Text Prose Lib.Packing

/-- A sentence of a run of prose. -/
structure Sentence where
  start : Bool
  /-- Its paragraph alone exceeds the limit. -/
  long : Bool
  text : Text
  deriving DecidableEq, Repr

/-- A sentence behind another one of its chunk. -/
def behind (u : Sentence) : Text := (if u.start then ['\n', '\n'] else [' ']) ++ u.text

/-- The chunk of a run: a space between the sentences of a paragraph, a blank line between
paragraphs. -/
def spell : List Sentence → Text
  | [] => []
  | u :: us => u.text ++ us.flatMap behind

variable (bytes : Bool) (max : Nat)

/-- The sentences of one paragraph. -/
def paragraph (p : List Text) : List Sentence :=
  p.mapIdx fun i s => ⟨i == 0, max < size bytes (join [' '] p), s⟩

/-- The sentences of a run of prose. -/
def sentences (paras : List (List Text)) : List Sentence := paras.flatMap (paragraph bytes max)

/-- A run is a chunk: it fits, or it is one sentence. -/
def Fits (run : List Sentence) : Prop := size bytes (spell run) ≤ max ∨ run.length ≤ 1

instance : DecidablePred (Fits bytes max) := fun _ => inferInstanceAs (Decidable (_ ∨ _))

/-- The runs are cut between paragraphs and inside long ones only. -/
def Respects (runs : List (List Sentence)) : Prop :=
  ∀ r ∈ runs, ∀ u ∈ r.head?, u.start = true ∨ u.long = true

instance (runs : List (List Sentence)) : Decidable (Respects runs) :=
  inferInstanceAs (Decidable (∀ r ∈ runs, ∀ u ∈ r.head?, u.start = true ∨ u.long = true))

/-- Every long paragraph starts a run. -/
def Parted (runs : List (List Sentence)) : Prop :=
  ∀ r ∈ runs, ∀ u ∈ r.tail, ¬(u.start = true ∧ u.long = true)

/-- What moves together: a paragraph, or a sentence of a long one. -/
def blocks (p : List Text) : List (List Sentence) :=
  if size bytes (join [' '] p) ≤ max then [paragraph bytes max p]
  else (paragraph bytes max p).map fun u => [u]

/-- A run of blocks is a chunk, and no long paragraph starts in it behind the first block. -/
structure BlockFits (run : List (List Sentence)) : Prop where
  fits : Fits bytes max run.flatten
  parted : ∀ b ∈ run.tail, ∀ u ∈ b.head?, ¬(u.start = true ∧ u.long = true)

noncomputable instance : DecidablePred (BlockFits bytes max) := Classical.decPred _

variable {bytes max} {u : Sentence} {us run : List Sentence} {p : List Text}

/-! ## Sizes -/

@[simp] theorem size_nil : size bytes [] = 0 := by cases bytes <;> rfl

@[simp] theorem size_append (s t : Text) : size bytes (s ++ t) = size bytes s + size bytes t := by
  unfold size
  cases bytes with
  | true => simp
  | false => simp

variable (bytes) in
/-- A part of a run is no longer than the run. -/
theorem size_spell_part {a b : List Sentence} (h : a <:+: b) :
    size bytes (spell a) ≤ size bytes (spell b) := by
  obtain ⟨x, y, rfl⟩ := h
  cases a with
  | nil => exact size_nil.trans_le (Nat.zero_le _)
  | cons u us =>
    cases x with
    | nil =>
      show size bytes (u.text ++ us.flatMap behind) ≤ size bytes
        (u.text ++ (us ++ y).flatMap behind)
      rw [List.flatMap_append, size_append, size_append, size_append]
      omega
    | cons w ws =>
      show size bytes (u.text ++ us.flatMap behind) ≤
        size bytes (w.text ++ (ws ++ u :: us ++ y).flatMap behind)
      rw [List.flatMap_append, List.flatMap_append, List.flatMap_cons]
      unfold behind
      simp only [size_append]
      omega

theorem fits_hereditary : Hereditary (Fits bytes max) := by
  rintro a b hab (hsize | hlen)
  · exact .inl (Nat.le_trans (size_spell_part bytes hab) hsize)
  · exact .inr (Nat.le_trans hab.length_le hlen)

theorem fits_single (u : Sentence) : Fits bytes max [u] := .inr (Nat.le_refl 1)

/-- With a sentence before it, a sentence fits by its size. -/
theorem fits_snoc (h : run ≠ []) : Fits bytes max (run ++ [u]) ↔
    size bytes (spell (run ++ [u])) ≤ max := by
  refine ⟨fun hfits => hfits.resolve_right fun hlen => ?_, .inl⟩
  have hpos := List.length_pos_iff.mpr h
  rw [List.length_append, List.length_singleton] at hlen
  omega

/-! ## What a chunk spells -/

theorem spell_append (h : run ≠ []) (us : List Sentence) :
    spell (run ++ us) = spell run ++ us.flatMap behind := by
  cases run with
  | nil => exact absurd rfl h
  | cons v vs =>
    show v.text ++ (vs ++ us).flatMap behind = v.text ++ vs.flatMap behind ++ us.flatMap behind
    rw [List.flatMap_append, List.append_assoc]

theorem spell_eq_nil (h : ∀ v ∈ run, v.text ≠ []) : spell run = [] ↔ run = [] := by
  cases run with
  | nil => exact ⟨fun _ => rfl, fun _ => rfl⟩
  | cons v vs =>
    refine ⟨fun hnil => absurd (List.append_eq_nil_iff.mp hnil).1 (h v List.mem_cons_self),
      fun hnil => ?_⟩
    cases hnil

@[simp] theorem spell_single (u : Sentence) : spell [u] = u.text := List.append_nil _

/-- `join` puts a run behind another one. -/
theorem joinTo_spell (h : ∀ v ∈ run, v.text ≠ []) (u : Sentence) (us : List Sentence) :
    joinTo (spell run) u.start (spell (u :: us)) = spell (run ++ u :: us) := by
  by_cases hnil : run = []
  · subst hnil
    rfl
  · have hcur : spell run ≠ [] := fun he => hnil ((spell_eq_nil h).mp he)
    rw [spell_append hnil]
    have hu : behind u = (if u.start then ['\n', '\n'] else [' ']) ++ u.text := rfl
    unfold joinTo
    rw [if_neg hcur, List.flatMap_cons, hu]
    cases u.start <;> simp [spell]

theorem paragraph_cons (s : Text) (ss : List Text) :
    paragraph bytes max (s :: ss) =
      ⟨true, max < size bytes (join [' '] (s :: ss)), s⟩ ::
        ss.map fun t => ⟨false, max < size bytes (join [' '] (s :: ss)), t⟩ := by
  unfold paragraph
  rw [List.mapIdx_cons]
  refine congrArg _ (List.mapIdx_eq_iff.mpr fun i => ?_)
  rw [List.getElem?_map]
  rfl

theorem spell_tail (long : Bool) (s : Text) (ss : List Text) :
    s ++ (ss.map fun t => (⟨false, long, t⟩ : Sentence)).flatMap behind = join [' '] (s :: ss) := by
  unfold join
  induction ss generalizing s with
  | nil => rw [List.map_nil, List.flatMap_nil, List.append_nil, List.intercalate_singleton]
  | cons t ss ih =>
    rw [List.map_cons, List.flatMap_cons, List.intercalate_cons_cons, ← ih t, List.append_assoc]
    exact congrArg (s ++ ·) (List.append_assoc ..)

theorem spell_paragraph (p : List Text) : spell (paragraph bytes max p) = join [' '] p := by
  cases p with
  | nil => rfl
  | cons s ss =>
    rw [paragraph_cons]
    exact spell_tail _ s ss

variable (bytes max) in
theorem paragraph_ne_nil (h : p ≠ []) : paragraph bytes max p ≠ [] := by
  obtain ⟨s, ss, rfl⟩ := List.exists_cons_of_ne_nil h
  rw [paragraph_cons]
  exact List.cons_ne_nil _ _

variable (bytes max) in
theorem paragraph_texts (h : ∀ s ∈ p, s ≠ []) : ∀ u ∈ paragraph bytes max p, u.text ≠ [] := by
  intro u hu
  obtain ⟨i, hi, rfl⟩ := List.mem_mapIdx.mp hu
  exact h _ (List.getElem_mem hi)

/-! ## Sentence by sentence -/

/-- **`packUnits` packs the sentences.** -/
theorem packUnits_eq (h : ∀ v ∈ run ++ us, v.text ≠ []) :
    packUnits bytes max (spell run) (us.map fun u => (u.start, u.text)) =
      (close (us.foldl (place (Fits bytes max)) ([], run))).map spell := by
  induction us generalizing run with
  | nil =>
    rw [List.append_nil] at h
    unfold Lib.Packing.close
    show (if spell run = [] then [] else [spell run]) = _
    by_cases hnil : run = []
    · rw [if_pos ((spell_eq_nil h).mpr hnil), List.foldl_nil, if_pos hnil]
      rfl
    · rw [if_neg fun he => hnil ((spell_eq_nil h).mp he), List.foldl_nil, if_neg hnil]
      rfl
  | cons u us ih =>
    have hrun : ∀ v ∈ run, v.text ≠ [] := fun v hv => h v (List.mem_append_left _ hv)
    have hnext : joinTo (spell run) u.start u.text = spell (run ++ [u]) := by
      have hj := joinTo_spell hrun u []
      rwa [spell_single] at hj
    have hcur : spell run ≠ [] ∧ max < size bytes (spell (run ++ [u])) ↔
        ¬(run = [] ∨ Fits bytes max (run ++ [u])) := by
      by_cases hnil : run = []
      · simp [hnil, spell]
      · rw [fits_snoc hnil, ne_eq, spell_eq_nil hrun]
        simp [hnil]
    rw [List.map_cons, List.foldl_cons]
    unfold packUnits
    rw [hnext]
    dsimp only
    by_cases hjoin : run = [] ∨ Fits bytes max (run ++ [u])
    · rw [if_neg fun hc => hcur.mp hc hjoin, place_joins hjoin]
      exact ih (by simpa using h)
    · rw [if_pos (hcur.mpr hjoin), place_opens hjoin, close_out, List.map_append]
      have hu := @ih [u] fun v hv => h v (List.mem_append_right run hv)
      rw [← hu, spell_single]
      rfl

/-! ## Paragraph by paragraph -/

theorem flatten_singles (us : List Sentence) : (us.map fun u => [u]).flatten = us := by
  induction us with
  | nil => rfl
  | cons u us ih => rw [List.map_cons, List.flatten_cons, ih, List.singleton_append]

variable (bytes max) in
/-- The sentences of one paragraph, behind its first. -/
theorem paragraph_split (h : p ≠ []) : ∃ u us, paragraph bytes max p = u :: us ∧ u.start = true ∧
    (∀ v ∈ us, v.start = false) ∧
      ∀ v ∈ u :: us, v.long = decide (max < size bytes (join [' '] p)) := by
  obtain ⟨s, ss, rfl⟩ := List.exists_cons_of_ne_nil h
  refine ⟨_, _, paragraph_cons s ss, rfl, fun v hv => ?_, fun v hv => ?_⟩
  · obtain ⟨t, -, rfl⟩ := List.mem_map.mp hv
    rfl
  · rcases List.mem_cons.mp hv with rfl | hv
    · rfl
    · obtain ⟨t, -, rfl⟩ := List.mem_map.mp hv
      rfl

/-- The sentences of a long paragraph, packed from its start. -/
theorem packUnits_long (h : ∀ s ∈ p, s ≠ []) (hp : paragraph bytes max p = u :: us) :
    packUnits bytes max [] (p.map fun s => (false, s)) =
      (close (us.foldl (place (Fits bytes max)) ([], [u]))).map spell := by
  have htexts : ∀ v ∈ [u] ++ us, v.text ≠ [] := fun v hv =>
    paragraph_texts bytes max h v (by rw [hp]; exact hv)
  cases p with
  | nil => cases hp
  | cons s ss =>
    rw [paragraph_cons] at hp
    obtain ⟨rfl, rfl⟩ := List.cons.inj hp
    rw [← packUnits_eq htexts, List.map_map]
    show packUnits bytes max s (ss.map fun s => (false, s)) = _
    rw [spell_single]
    rfl

/-- Sentence by sentence, a long paragraph is packed like a text of its own. -/
theorem foldl_singles (out : List (List (List Sentence))) (hu : ∀ v ∈ us, v.start = false) :
    (us.map fun u => [u]).foldl (place (BlockFits bytes max)) (out, [[u]]) =
      (out ++ (us.foldl (place (Fits bytes max)) ([], [u])).1.map (List.map fun u => [u]),
        (us.foldl (place (Fits bytes max)) ([], [u])).2.map fun u => [u]) := by
  have hmap : (us.map fun u => [u]).foldl (place (BlockFits bytes max)) ([], [[u]]) =
      ((us.foldl (place (Fits bytes max)) ([], [u])).1.map (List.map fun u => [u]),
        (us.foldl (place (Fits bytes max)) ([], [u])).2.map fun u => [u]) := by
    refine foldl_place_map (fun u => [u]) (Fits bytes max) (BlockFits bytes max)
      (fun u => u.start = false) [] (fun r x hr htail hx => ?_) (List.cons_ne_nil u [])
      (fun y hy => absurd hy List.not_mem_nil) hu
    have hflat : (r.map (fun u => [u]) ++ [[x]]).flatten = r ++ [x] := by
      rw [List.flatten_append, flatten_singles, List.flatten_singleton]
    refine ⟨fun h => hflat ▸ h.fits, fun h => ⟨hflat.symm ▸ h, fun b hb v hv => ?_⟩⟩
    -- no sentence but the first starts a paragraph
    have hmem : b ∈ (r.tail ++ [x]).map fun u => [u] := by
      rw [List.tail_append_of_ne_nil (by simpa using hr)] at hb
      rwa [List.map_append, List.map_tail]
    obtain ⟨w, hw, rfl⟩ := List.mem_map.mp hmem
    obtain rfl : w = v := by simpa using hv
    have hstart : w.start = false := by
      rcases List.mem_append.mp hw with hw | hw
      · exact htail w hw
      · exact (List.mem_singleton.mp hw) ▸ hx
    simp [hstart]
  rw [foldl_place_out, hmap]

/-- Blocks of sentences that have text. -/
def Spelled (run : List (List Sentence)) : Prop := ∀ b ∈ run, b ≠ [] ∧ ∀ v ∈ b, v.text ≠ []

theorem Spelled.texts {run : List (List Sentence)} (h : Spelled run) :
    ∀ v ∈ run.flatten, v.text ≠ [] := by
  intro v hv
  obtain ⟨b, hb, hmem⟩ := List.mem_flatten.mp hv
  exact (h b hb).2 v hmem

theorem Spelled.eq_nil {run : List (List Sentence)} (h : Spelled run) :
    spell run.flatten = [] ↔ run = [] := by
  rw [spell_eq_nil h.texts, List.flatten_eq_nil_iff]
  refine ⟨fun hnil => ?_, fun hnil => by simp [hnil]⟩
  cases run with
  | nil => rfl
  | cons b run => exact absurd (hnil b List.mem_cons_self) (h b List.mem_cons_self).1

/-- A whole paragraph behind a run. -/
theorem blockFits_snoc {run : List (List Sentence)} (hne : run ≠ []) (hrun : Spelled run)
    (hfit : BlockFits bytes max run) (hp : p ≠ []) (hsmall : size bytes (join [' '] p) ≤ max) :
    BlockFits bytes max (run ++ [paragraph bytes max p]) ↔
      size bytes (spell (run ++ [paragraph bytes max p]).flatten) ≤ max := by
  have hlen : ¬(run ++ [paragraph bytes max p]).flatten.length ≤ 1 := by
    have h1 : run.flatten ≠ [] := fun h => hne ((hrun.eq_nil).mp (by rw [h]; rfl))
    have h2 := List.length_pos_iff.mpr h1
    have h3 := List.length_pos_iff.mpr (paragraph_ne_nil bytes max hp)
    rw [List.flatten_append, List.flatten_singleton, List.length_append]
    omega
  refine ⟨fun h => h.fits.resolve_right hlen, fun hsize => ⟨.inl hsize, fun b hb v hv => ?_⟩⟩
  rw [List.tail_append_of_ne_nil hne] at hb
  rcases List.mem_append.mp hb with hb | hb
  · exact hfit.parted b hb v hv
  · obtain ⟨u, us, hpar, -, -, hlong⟩ := paragraph_split bytes max hp
    rw [List.mem_singleton.mp hb] at hv
    have hnot : v.long = false := by
      rw [hlong v (hpar ▸ List.mem_of_mem_head? hv)]
      exact decide_eq_false (Nat.not_lt.mpr hsmall)
    simp [hnot]

/-- A sentence that starts a long paragraph starts a run. -/
theorem place_long {run : List (List Sentence)} {out : List (List (List Sentence))}
    (hstart : u.start = true) (hlong : u.long = true) :
    place (BlockFits bytes max) (out, run)
    [u] = (out ++ if run = [] then [] else [run], [[u]]) := by
  by_cases hne : run = []
  · rw [place_joins (s := (out, run)) (.inl hne), if_pos hne, hne, List.append_nil]
    rfl
  · rw [place_opens (s := (out, run)) (not_or.mpr ⟨hne, fun h => ?_⟩), if_neg hne]
    refine h.parted [u] ?_ u rfl ⟨hstart, hlong⟩
    rw [List.tail_append_of_ne_nil hne]
    exact List.mem_append_right _ (List.mem_singleton_self _)

theorem close_spelled {run : List (List Sentence)} (h : Spelled run) :
    (if spell run.flatten = [] then [] else [spell run.flatten]) =
      (close ([], run)).map fun b => spell b.flatten := by
  unfold Lib.Packing.close
  by_cases hnil : run = []
  · rw [if_pos (h.eq_nil.mpr hnil), if_pos hnil]
    rfl
  · rw [if_neg fun he => hnil (h.eq_nil.mp he), if_neg hnil]
    rfl

/-- **`packParas` packs the blocks.** -/
theorem packParas_eq {paras : List (List Text)} (hp : ∀ p ∈ paras, p ≠ [] ∧ ∀ s ∈ p, s ≠ [])
    {run : List (List Sentence)} (hrun : Spelled run) (hfit : run ≠ [] → BlockFits bytes max run) :
    packParas bytes max (spell run.flatten) paras =
      (close ((paras.flatMap (blocks bytes max)).foldl (place (BlockFits bytes max)) ([], run))).map
        fun b => spell b.flatten := by
  induction paras generalizing run with
  | nil => exact close_spelled hrun
  | cons p ps ih =>
    obtain ⟨hpne, htext⟩ := hp p List.mem_cons_self
    have ih := @ih (fun q hq => hp q (List.mem_cons_of_mem p hq))
    have hpar := paragraph_texts bytes max htext
    have hwhole : spell (paragraph bytes max p) = join [' '] p := spell_paragraph p
    have hspelled : Spelled [paragraph bytes max p] := fun b hb => by
      rw [List.mem_singleton.mp hb]
      exact ⟨paragraph_ne_nil bytes max hpne, hpar⟩
    obtain ⟨u, us, hb, hstart, hus, hlong⟩ := paragraph_split bytes max hpne
    have hnext : joinTo (spell run.flatten) true (join [' '] p) =
        spell (run ++ [paragraph bytes max p]).flatten := by
      have hj := joinTo_spell hrun.texts u us
      rw [List.flatten_append, List.flatten_singleton]
      rwa [hstart, ← hb, hwhole] at hj
    rw [List.flatMap_cons, List.foldl_append]
    unfold packParas
    dsimp only
    rw [hnext]
    by_cases hsmall : size bytes (join [' '] p) ≤ max
    · have hblocks : blocks bytes max p = [paragraph bytes max p] := if_pos hsmall
      have hone : BlockFits bytes max [paragraph bytes max p] := by
        refine ⟨.inl ?_, fun b hb => absurd hb List.not_mem_nil⟩
        rwa [List.flatten_singleton, hwhole]
      rw [hblocks, List.foldl_cons, List.foldl_nil]
      have hjoin : (run = [] ∨ BlockFits bytes max (run ++ [paragraph bytes max p])) ↔
          size bytes (spell (run ++ [paragraph bytes max p]).flatten) ≤ max := by
        by_cases hne : run = []
        · subst hne
          rw [List.nil_append, List.flatten_singleton, hwhole]
          exact ⟨fun _ => hsmall, fun _ => .inl rfl⟩
        · rw [← blockFits_snoc hne hrun (hfit hne) hpne hsmall]
          exact or_iff_right hne
      by_cases hfits : size bytes (spell (run ++ [paragraph bytes max p]).flatten) ≤ max
      · rw [if_pos hfits, place_joins (s := ([], run)) (hjoin.mpr hfits)]
        refine @ih (run ++ [paragraph bytes max p]) (fun b hb => ?_) fun _ => ?_
        · exact (List.mem_append.mp hb).elim (hrun b) (hspelled b)
        · by_cases hne : run = []
          · rw [hne]
            exact hone
          · exact (blockFits_snoc hne hrun (hfit hne) hpne hsmall).mpr hfits
      · have hopen := fun h => hfits (hjoin.mp h)
        have hne : run ≠ [] := fun h => hopen (.inl h)
        rw [if_neg hfits, if_pos hsmall, place_opens (s := ([], run)) hopen, close_out,
          if_neg fun h => hne (hrun.eq_nil.mp h), List.map_append]
        have hstep := @ih [paragraph bytes max p] hspelled fun _ => hone
        rw [List.flatten_singleton, hwhole] at hstep
        rw [hstep]
        rfl
    · -- the long paragraph starts a chunk and is packed by its sentences
      have hblocks : blocks bytes max p = [u] :: us.map fun v => [v] := by
        unfold blocks
        rw [if_neg hsmall, hb]
        rfl
      have hulong : u.long = true := by
        rw [hlong u List.mem_cons_self]
        exact decide_eq_true (Nat.not_le.mp hsmall)
      have hsize : ¬size bytes (spell (run ++ [paragraph bytes max p]).flatten) ≤ max := by
        intro hle
        have hpart : paragraph bytes max p <:+: (run ++ [paragraph bytes max p]).flatten :=
          ⟨run.flatten, [], by simp⟩
        have := size_spell_part bytes hpart
        rw [hwhole] at this
        omega
      rw [if_neg hsize, if_neg hsmall, packUnits_long htext hb, hblocks, List.foldl_cons,
        place_long hstart hulong, List.nil_append, foldl_singles _ hus]
      have hflat := close_flatten (us.foldl (place (Fits bytes max)) ([], [u]))
      rw [foldl_place_flatten] at hflat
      have hlast : (us.foldl (place (Fits bytes max)) ([], [u])).2 ≠ [] :=
        foldl_place_ne_nil (List.cons_ne_nil u [])
      have hstartPlaced : Placed (Fits bytes max) ([], [u]) :=
        ⟨fun r hr => absurd hr List.not_mem_nil, fun _ => fits_single u⟩
      have hplaced := hstartPlaced.foldl fun v (_ : v ∈ us) => fits_single v
      generalize us.foldl (place (Fits bytes max)) ([], [u]) = s at hflat hlast hplaced ⊢
      obtain ⟨rs, last⟩ := s
      have hclose : (close (rs, last)).map spell = rs.map spell ++ [spell last] := by
        unfold Lib.Packing.close
        rw [if_neg hlast, List.map_append]
        rfl
      have hsplit : rs.flatten ++ last = u :: us := hflat.symm
      have hsub : ∀ v ∈ last, v ∈ u :: us := fun v hv => hsplit ▸ List.mem_append_right _ hv
      have htail : ∀ v ∈ last.tail, v.start = false := by
        intro v hv
        cases hrs : rs.flatten with
        | nil =>
          rw [hrs, List.nil_append] at hsplit
          rw [hsplit] at hv
          exact hus v hv
        | cons w ws =>
          rw [hrs, List.cons_append] at hsplit
          obtain ⟨-, rfl⟩ := List.cons.inj hsplit
          exact hus v (List.mem_append_right ws (List.mem_of_mem_tail hv))
      have hstep := @ih (last.map fun v => [v]) (fun b hb' => ?_) fun _ =>
        ⟨?_, fun b hb' v hv => ?_⟩
      · rw [hclose, List.dropLast_concat, List.getLast?_concat, close_out, List.map_append,
          ← hstep, flatten_singles, close_spelled hrun, List.map_append, List.map_map]
        refine congrArg (· ++ packParas bytes max (spell last) ps) ?_
        have hsingles : (fun b : List (List Sentence) => spell b.flatten) ∘ List.map
          (fun v => [v]) =
            spell := by
          funext b
          exact congrArg spell (flatten_singles b)
        rw [hsingles]
        refine congrArg (· ++ rs.map spell) ?_
        unfold Lib.Packing.close
        by_cases hne : run = [] <;> simp [hne]
      · obtain ⟨v, hv, rfl⟩ := List.mem_map.mp hb'
        refine ⟨List.cons_ne_nil v [], fun w hw => ?_⟩
        rw [List.mem_singleton.mp hw]
        exact hpar v (hb ▸ hsub v hv)
      · rw [flatten_singles]
        exact hplaced.opened hlast
      · rw [← List.map_tail] at hb'
        obtain ⟨w, hw, rfl⟩ := List.mem_map.mp hb'
        obtain rfl : w = v := by simpa using hv
        simp [htail w hw]

/-! ## The two packings -/

variable {paras : List (List Text)} {runs : List (List Sentence)}

/-- A packing of the sentences with as few runs as any has. -/
structure Least (bytes : Bool) (max : Nat) (paras : List (List Text))
    (runs : List (List Sentence)) :
    Prop where
  packs : Packs (Fits bytes max) (sentences bytes max paras) runs
  nonempty : ∀ r ∈ runs, r ≠ []
  least : ∀ others, Packs (Fits bytes max) (sentences bytes max paras) others →
    runs.length ≤ others.length

theorem sentences_texts (paras : List (List Text)) :
    (sentences bytes max paras).map Sentence.text = paras.flatten := by
  induction paras with
  | nil => rfl
  | cons p ps ih =>
    have hp : (paragraph bytes max p).map Sentence.text = p := by
      refine List.ext_getElem? fun i => ?_
      unfold paragraph
      rw [List.getElem?_map, List.getElem?_mapIdx]
      cases p[i]? <;> rfl
    unfold sentences at ih ⊢
    rw [List.flatMap_cons, List.map_append, ih, hp, List.flatten_cons]

variable (bytes max) in
theorem units_eq (paras : List (List Text)) :
    units paras = (sentences bytes max paras).map fun u => (u.start, u.text) := by
  unfold units sentences paragraph
  rw [List.map_flatMap]
  refine congrArg (List.flatMap · paras) (funext fun p => List.ext_getElem? fun i => ?_)
  rw [List.getElem?_map, List.getElem?_mapIdx, List.getElem?_mapIdx]
  cases p[i]? <;> rfl

theorem blocks_flatten (p : List Text) : (blocks bytes max p).flatten = paragraph bytes max p := by
  unfold blocks
  split
  · exact List.flatten_singleton
  · exact flatten_singles _

theorem flatMap_blocks_flatten (paras : List (List Text)) :
    (paras.flatMap (blocks bytes max)).flatten = sentences bytes max paras := by
  unfold sentences
  induction paras with
  | nil => rfl
  | cons p ps ih =>
    rw [List.flatMap_cons, List.flatten_append, ih, blocks_flatten, List.flatMap_cons]

/-- A part of what fits fits. -/
theorem blockFits_hereditary : Hereditary (BlockFits bytes max) := by
  rintro a b ⟨x, y, rfl⟩ h
  refine ⟨fits_hereditary ⟨x.flatten, y.flatten, by simp⟩ h.fits, fun c hc => h.parted c ?_⟩
  cases a with
  | nil => exact absurd hc List.not_mem_nil
  | cons d a =>
    have hmem : c ∈ a ++ y := List.mem_append_left y hc
    cases x with
    | nil => exact hmem
    | cons e x =>
      show c ∈ x ++ d :: a ++ y
      rw [List.append_assoc]
      exact List.mem_append_right x (List.mem_cons_of_mem d hmem)

/-- The head of a block is where a run may be cut. -/
theorem blocks_isBlock (hp : p ≠ []) :
    ∀ b ∈ blocks bytes max p, IsBlock (fun u => u.start = true ∨ u.long = true) b := by
  obtain ⟨u, us, hpar, hstart, hus, hlong⟩ := paragraph_split bytes max hp
  intro b hb
  unfold blocks at hb
  split at hb
  next hsmall =>
    rw [List.mem_singleton.mp hb, hpar]
    refine ⟨u, us, rfl, .inl hstart, fun v hv => ?_⟩
    have hshort : v.long = false :=
      (hlong v (List.mem_cons_of_mem u hv)).trans (decide_eq_false (Nat.not_lt.mpr hsmall))
    simp [hus v hv, hshort]
  next hbig =>
    obtain ⟨v, hv, rfl⟩ := List.mem_map.mp hb
    refine ⟨v, [], rfl, .inr ?_, fun w hw => absurd hw List.not_mem_nil⟩
    rw [hlong v (hpar ▸ hv)]
    exact decide_eq_true (Nat.not_le.mp hbig)

/-- A block is a chunk of its own. -/
theorem blockFits_single {b : List Sentence} (hb : b ∈ blocks bytes max p) :
    BlockFits bytes max [b] := by
  refine ⟨?_, fun c hc => absurd hc List.not_mem_nil⟩
  rw [List.flatten_singleton]
  unfold blocks at hb
  split at hb
  next hsmall =>
    rw [List.mem_singleton.mp hb]
    exact .inl (by rwa [spell_paragraph])
  · obtain ⟨v, -, rfl⟩ := List.mem_map.mp hb
    exact fits_single v

/-- The chunks that are filled sentence by sentence. -/
def filled (bytes : Bool) (max : Nat) (paras : List (List Text)) : List (List Sentence) :=
  pack (Fits bytes max) (sentences bytes max paras)

/-- The chunks that are filled block by block. -/
noncomputable def blockwise (bytes : Bool) (max : Nat) (paras : List (List Text)) :
    List (List Sentence) :=
  (pack (BlockFits bytes max) (paras.flatMap (blocks bytes max))).map List.flatten

variable (bytes max) in
theorem filled_least (paras : List (List Text)) :
    Least bytes max paras (filled bytes max paras) := by
  obtain ⟨hpacks, hne⟩ := @pack_packs _ (Fits bytes max) _ (sentences bytes max paras)
    fun u _ => fits_single u
  exact ⟨hpacks, hne, fun others h => pack_least fits_hereditary h⟩

/-- **The least packing whose runs are full.** -/
theorem full_eq_filled (h : Least bytes max paras runs) (hfull : Full (Fits bytes max) runs) :
    runs = filled bytes max paras := pack_unique fits_hereditary h.packs h.nonempty hfull

variable (hp : ∀ p ∈ paras, p ≠ [])
include hp

theorem mem_blocks {b : List Sentence} (hb : b ∈ paras.flatMap (blocks bytes max)) :
    IsBlock (fun u => u.start = true ∨ u.long = true) b ∧ BlockFits bytes max [b] := by
  obtain ⟨p, hmem, hb⟩ := List.mem_flatMap.mp hb
  exact ⟨blocks_isBlock (hp p hmem) b hb, blockFits_single hb⟩

/-- A packing that is cut between paragraphs, inside long ones and before every long one. -/
theorem blockwise_packs : Packs (Fits bytes max) (sentences bytes max paras)
    (blockwise bytes max paras) ∧
    (∀ r ∈ blockwise bytes max paras, r ≠ []) ∧ Respects (blockwise bytes max paras) ∧
      Parted (blockwise bytes max paras) := by
  obtain ⟨⟨hflat, hfits⟩, hne⟩ := @pack_packs _ (BlockFits bytes max) _
    (paras.flatMap (blocks bytes max)) fun b hb => (mem_blocks hp hb).2
  -- what a run of blocks starts with, and what stands behind that
  have hrun : ∀ r ∈ blockwise bytes max paras, Fits bytes max r ∧ ∃ u us, r = u :: us ∧
      (u.start = true ∨ u.long = true) ∧ ∀ v ∈ us, ¬(v.start = true ∧ v.long = true) := by
    intro r hr
    obtain ⟨g, hg, rfl⟩ := List.mem_map.mp hr
    have hblock : ∀ b ∈ g, IsBlock (fun u : Sentence => u.start = true ∨ u.long = true) b :=
      fun b hb => (mem_blocks hp (hflat ▸ List.mem_flatten.mpr ⟨g, hg, hb⟩)).1
    have hfit := hfits g hg
    refine ⟨hfit.fits, ?_⟩
    cases g with
    | nil => exact absurd rfl (hne [] hg)
    | cons b bs =>
      obtain ⟨u, us, rfl, hcut, hus⟩ := hblock b List.mem_cons_self
      refine ⟨u, us ++ bs.flatten, rfl, hcut, fun v hv hforced => ?_⟩
      rcases List.mem_append.mp hv with hv | hv
      · exact hus v hv (.inl hforced.1)
      · obtain ⟨c, hc, hvc⟩ := List.mem_flatten.mp hv
        obtain ⟨w, ws, rfl, -, hws⟩ := hblock c (List.mem_cons_of_mem _ hc)
        rcases List.mem_cons.mp hvc with rfl | hvc
        · exact hfit.parted _ hc v rfl hforced
        · exact hws v hvc (.inl hforced.1)
  refine ⟨⟨?_, fun r hr => (hrun r hr).1⟩, fun r hr => ?_, fun r hr u hu => ?_, fun r hr u hu => ?_⟩
  · unfold blockwise
    rw [← List.flatten_flatten, hflat, flatMap_blocks_flatten]
  · obtain ⟨-, u, us, rfl, -⟩ := hrun r hr
    exact List.cons_ne_nil u us
  · obtain ⟨-, v, us, rfl, hcut, -⟩ := hrun r hr
    obtain rfl : v = u := by simpa using hu
    exact hcut
  · obtain ⟨-, v, us, rfl, -, hus⟩ := hrun r hr
    exact hus u hu

/-- **The least of these.** -/
theorem blockwise_least (h : Packs (Fits bytes max) (sentences bytes max paras) runs)
    (hcut : Respects runs) (hparted : Parted runs) :
    (blockwise bytes max paras).length ≤ runs.length := by
  have hblock : ∀ b ∈ paras.flatMap (blocks bytes max),
      IsBlock (fun u : Sentence => u.start = true ∨ u.long = true) b :=
        fun b hb => (mem_blocks hp hb).1
  obtain ⟨groups, hflat, hmap⟩ := regroup hblock
    (h.flatten.trans (flatMap_blocks_flatten paras).symm) hcut
  have hgroups : Packs (BlockFits bytes max) (paras.flatMap (blocks bytes max)) groups := by
    refine ⟨hflat, fun g hg => ?_⟩
    have hmem : g.flatten ∈ runs := hmap ▸ List.mem_map_of_mem hg
    refine ⟨h.fits _ hmem, fun b hb u hu => hparted _ hmem u ?_⟩
    cases g with
    | nil => exact absurd hb List.not_mem_nil
    | cons c cs =>
      obtain ⟨w, ws, rfl, -⟩ := hblock c (hflat ▸ List.mem_flatten.mpr ⟨_, hg, List.mem_cons_self⟩)
      exact List.mem_append_right ws (List.mem_flatten.mpr ⟨b, hb, List.mem_of_mem_head? hu⟩)
  unfold blockwise
  rw [List.length_map, ← hmap, List.length_map]
  exact pack_least blockFits_hereditary hgroups

omit hp

/-! ## The result -/

/-- The chunks say where the cuts are. -/
theorem runs_eq {others : List (List Sentence)} (h : runs.flatten = others.flatten)
    (hne : ∀ r ∈ runs, r ≠ []) (hne' : ∀ r ∈ others, r ≠ [])
    (hs : runs.map spell = others.map spell) : runs = others := by
  have hlonger : ∀ {r : List Sentence} (w : List Sentence), r ≠ [] → spell r = spell (r ++ w) →
      w = [] := by
    intro r w hr he
    rw [spell_append hr] at he
    cases w with
    | nil => rfl
    | cons u us =>
      have hlen := congrArg List.length he
      rw [List.flatMap_cons, List.length_append, List.length_append] at hlen
      have hpos : 0 < (behind u).length := by
        unfold behind
        cases u.start <;> simp
      omega
  induction runs generalizing others with
  | nil => exact (List.map_eq_nil_iff.mp hs.symm).symm
  | cons r runs ih =>
    cases others with
    | nil => cases hs
    | cons r' others =>
      obtain ⟨hspell, hrest⟩ := List.cons.inj hs
      have hr := hne r List.mem_cons_self
      have hr' := hne' r' List.mem_cons_self
      rw [List.flatten_cons, List.flatten_cons] at h
      have heq : r = r' ∧ runs.flatten = others.flatten := by
        rcases List.append_eq_append_iff.mp h with ⟨w, rfl, hw⟩ | ⟨w, rfl, hw⟩
        · obtain rfl := hlonger w hr hspell
          exact ⟨(List.append_nil r).symm, hw⟩
        · obtain rfl := hlonger w hr' hspell.symm
          exact ⟨List.append_nil r', hw.symm⟩
      rw [heq.1, ih heq.2 (fun t ht => hne t (List.mem_cons_of_mem r ht))
        (fun t ht => hne' t (List.mem_cons_of_mem r' ht)) hrest]

/-- `pack_prose` chooses between the two packings. -/
theorem packProse_eq (s : Speech) (text : Text) (max : Nat) (bytes spoken : Bool) :
    packProse s text max bytes spoken =
      (if (filled bytes (Nat.max max 1) (paragraphs s text spoken)).length ≤ 1 ∨
          ¬(blockwise bytes (Nat.max max 1) (paragraphs s text spoken)).length ≤
            (filled bytes (Nat.max max 1) (paragraphs s text spoken)).length
        then filled bytes (Nat.max max 1) (paragraphs s text spoken)
        else blockwise bytes (Nat.max max 1) (paragraphs s text spoken)).map spell := by
  have hpar := paragraphs_spec s text spoken
  have htexts : ∀ v ∈ sentences bytes (Nat.max max 1) (paragraphs s text spoken), v.text ≠ [] := by
    intro v hv
    obtain ⟨p, hp, hv⟩ := List.mem_flatMap.mp hv
    exact paragraph_texts _ _ (hpar p hp).2 v hv
  have hunits : packUnits bytes (Nat.max max 1) [] (units (paragraphs s text spoken)) =
      (filled bytes (Nat.max max 1) (paragraphs s text spoken)).map spell := by
    rw [units_eq bytes (Nat.max max 1)]
    exact @packUnits_eq _ _ _ [] htexts
  have hparas : packParas bytes (Nat.max max 1) [] (paragraphs s text spoken) =
      (blockwise bytes (Nat.max max 1) (paragraphs s text spoken)).map spell := by
    have hnil : Spelled [] := fun b hb => absurd hb List.not_mem_nil
    unfold blockwise
    rw [List.map_map]
    exact packParas_eq hpar hnil fun h => absurd rfl h
  unfold packProse
  dsimp only
  rw [hunits, hparas, List.length_map, List.length_map]
  by_cases hfew : (filled bytes (Nat.max max 1) (paragraphs s text spoken)).length ≤ 1
  · rw [if_pos hfew, if_pos (.inl hfew)]
  · by_cases hle : (blockwise bytes (Nat.max max 1) (paragraphs s text spoken)).length ≤
        (filled bytes (Nat.max max 1) (paragraphs s text spoken)).length
    · rw [if_neg hfew, if_pos hle, if_neg (not_or.mpr ⟨hfew, not_not.mpr hle⟩)]
    · rw [if_neg hfew, if_neg hle, if_pos (.inr hle)]

/-- With one run or none, only the start is cut. -/
theorem respects_of_le_one (hp : ∀ p ∈ paras, p ≠ []) (h : runs.length ≤ 1)
    (hflat : runs.flatten = sentences bytes max paras) : Respects runs := by
  intro r hr u hu
  obtain ⟨t, rfl⟩ := List.length_eq_one_iff.mp (Nat.le_antisymm h (List.length_pos_of_mem hr))
  obtain rfl := List.mem_singleton.mp hr
  rw [List.flatten_singleton] at hflat
  cases paras with
  | nil =>
    rw [hflat] at hu
    cases hu
  | cons p ps =>
    obtain ⟨v, vs, hb, hstart, -⟩ := paragraph_split bytes max
      (hp p List.mem_cons_self)
    have hhead : r.head? = some v := by
      rw [hflat]
      unfold sentences
      rw [List.flatMap_cons, hb]
      rfl
    obtain rfl := Option.some.inj (hhead.symm.trans hu)
    exact .inl hstart

/-- **One run of prose**: as few chunks as any packing has. They are cut between paragraphs
and inside long ones wherever so few chunks can be, exactly when a packing cut like that can
also be cut before every long paragraph, or have every run full. -/
theorem packProse_spec (s : Speech) (text : Text) (max : Nat) (bytes spoken : Bool) :
    ∃ runs, packProse s text max bytes spoken = runs.map spell ∧
      Least bytes (Nat.max max 1) (paragraphs s text spoken) runs ∧
      (((∃ P, Least bytes (Nat.max max 1) (paragraphs s text spoken) P ∧ Respects P) →
        Respects runs) ↔
        ((∃ P, Least bytes (Nat.max max 1) (paragraphs s text spoken) P ∧ Respects P) →
          ∃ P, Least bytes (Nat.max max 1) (paragraphs s text spoken) P ∧ Respects P ∧
            (Parted P ∨ Full (Fits bytes (Nat.max max 1)) P))) := by
  have hp : ∀ p ∈ paragraphs s text spoken, p ≠ [] :=
    fun p h => (paragraphs_spec s text spoken p h).1
  rw [packProse_eq]
  generalize paragraphs s text spoken = paras at hp ⊢
  generalize Nat.max max 1 = limit
  have hfilled := filled_least bytes limit paras
  have hfull : Full (Fits bytes limit) (filled bytes limit paras) := pack_full _
  obtain ⟨hpacks, hne, hcut, hparted⟩ := @blockwise_packs bytes limit _ hp
  split
  next hwins =>
    refine ⟨_, rfl, hfilled, fun h hex => ?_, fun h hex => ?_⟩
    · exact ⟨_, hfilled, h hex, .inr hfull⟩
    · obtain ⟨P, hleast, hrespects, hparts | hfulls⟩ := h hex
      · -- a packing cut before every long paragraph is no shorter than `blockwise`
        rcases hwins with hone | hlonger
        · exact respects_of_le_one hp hone hfilled.packs.flatten
        · have h1 := blockwise_least hp hleast.packs hrespects hparts
          have h2 := hleast.least _ hfilled.packs
          omega
      · rwa [← full_eq_filled hleast hfulls]
  next hwins =>
    have hle := not_not.mp (not_or.mp hwins).2
    have hleast : Least bytes limit paras (blockwise bytes limit paras) :=
      ⟨hpacks, hne, fun others h => Nat.le_trans hle (hfilled.least others h)⟩
    exact ⟨_, rfl, hleast, fun _ _ => ⟨_, hleast, hcut, .inl hparted⟩, fun _ _ => hcut⟩

/-! ## The message -/

/-- A code chunk is a run of its own, and a run of prose is packed. -/
def SegRuns (s : Speech) (max : Nat) (bytes spoken : Bool) : Seg → List (List Sentence) → Prop
  | .prose t, runs => runs = [] ∧ trim t = [] ∨ packProse s t max bytes spoken = runs.map spell ∧
      Least bytes (Nat.max max 1) (paragraphs s t spoken) runs
  | .code c, runs => runs = (codeChunk c).map fun t => [⟨true, false, t⟩]

/-- A run of prose has the same sentences in both modes. -/
theorem prose_sentences (s : Speech) (t : Text) (spoken : Bool) (ht : trim t ≠ []) :
    (paragraphs s t spoken).flatten =
      if spoken then (spokenParagraphs s.toUnicode t).flatten else proseChunks s t := by
  unfold paragraphs
  cases spoken with
  | true => rfl
  | false =>
    rw [if_neg Bool.false_ne_true, if_neg Bool.false_ne_true]
    unfold proseChunks
    rw [if_neg ht]
    exact (gather_spec (fun t ht => absurd ht List.not_mem_nil) _).1

/-- The chunks of one segment, and its sentences. -/
theorem seg_runs (s : Speech) (max : Nat) (bytes spoken : Bool) (seg : Seg) :
    ∃ runs, SegRuns s max bytes spoken seg runs ∧
      (match seg with
        | .prose t => if trim t = [] then [] else packProse s t max bytes spoken
        | .code c => codeChunk c) = runs.map spell ∧
      (match seg with
        | .prose t => if spoken then (spokenParagraphs s.toUnicode t).flatten else proseChunks s t
        | .code c => codeChunk c) = runs.flatten.map Sentence.text := by
  cases seg with
  | prose t =>
    by_cases ht : trim t = []
    · refine ⟨[], .inl ⟨rfl, ht⟩, if_pos ht, ?_⟩
      show (if spoken = true then _ else _) = []
      rw [spokenParagraphs_blank _ ht]
      unfold proseChunks
      rw [if_pos ht]
      cases spoken <;> rfl
    · obtain ⟨runs, hruns, hleast, -⟩ := packProse_spec s t max bytes spoken
      refine ⟨runs, .inr ⟨hruns, hleast⟩, (if_neg ht).trans hruns, ?_⟩
      rw [hleast.packs.flatten, sentences_texts, prose_sentences s t spoken ht]
  | code c =>
    refine ⟨_, rfl, ?_, ?_⟩
    · show codeChunk c = _
      rw [List.map_map]
      unfold codeChunk
      split
      · rfl
      · exact (congrArg (fun t => [t]) (spell_single ⟨true, false, c⟩)).symm
    · show codeChunk c = _
      unfold codeChunk
      split <;> rfl

/-- **A message is packed**: every run of prose as `packProse_spec` says, and behind one
another the runs of the segments have the sentences and the code chunks that `splitChunks`
gives. -/
theorem message_packed (s : Speech) (text : Text) (max : Nat) (bytes : Bool) :
    (∀ spoken, ∃ runs, packProse s text max bytes spoken = runs.map spell ∧
      Least bytes (Nat.max max 1) (paragraphs s text spoken) runs ∧
      (((∃ P, Least bytes (Nat.max max 1) (paragraphs s text spoken) P ∧ Respects P) →
        Respects runs) ↔
        ((∃ P, Least bytes (Nat.max max 1) (paragraphs s text spoken) P ∧ Respects P) →
          ∃ P, Least bytes (Nat.max max 1) (paragraphs s text spoken) P ∧ Respects P ∧
            (Parted P ∨ Full (Fits bytes (Nat.max max 1)) P)))) ∧
    ∃ parts : List (Seg × List (List Sentence)), parts.map Prod.fst = segments (spokenForm text).2 ∧
      (∀ part ∈ parts, SegRuns s max bytes (spokenForm text).1 part.1 part.2) ∧
      packMessage s text max bytes = (parts.flatMap Prod.snd).map spell ∧
      splitChunks s text = (parts.flatMap Prod.snd).flatten.map Sentence.text := by
  refine ⟨packProse_spec s text max bytes, ?_⟩
  unfold packMessage splitChunks
  dsimp only
  generalize segments (spokenForm text).2 = segs
  induction segs with
  | nil => exact ⟨[], rfl, fun part h => absurd h List.not_mem_nil, rfl, rfl⟩
  | cons seg segs ih =>
    obtain ⟨parts, hfst, hruns, hpack, hsplit⟩ := ih
    obtain ⟨runs, hrun, hseg, hsent⟩ := seg_runs s max bytes (spokenForm text).1 seg
    refine ⟨(seg, runs) :: parts, by rw [List.map_cons, hfst], fun part h => ?_, ?_, ?_⟩
    · rcases List.mem_cons.mp h with rfl | h
      · exact hrun
      · exact hruns part h
    · rw [List.flatMap_cons, List.flatMap_cons, List.map_append]
      exact congrArg₂ List.append hseg hpack
    · rw [List.flatMap_cons, List.flatMap_cons, List.flatten_append, List.map_append]
      exact congrArg₂ List.append hsent hsplit

/-- Three paragraphs, the last one too long for a chunk: three chunks cut in the last
paragraph only are possible, and the result cuts the second one. -/
theorem paragraph_cut :
    ¬∀ (s : Speech) (text : Text) (max : Nat) (bytes spoken : Bool), ∃ runs,
      packProse s text max bytes spoken = runs.map spell ∧
      Least bytes (Nat.max max 1) (paragraphs s text spoken) runs ∧
      ((∃ P, Least bytes (Nat.max max 1) (paragraphs s text spoken) P ∧ Respects P) →
        Respects runs) := by
  intro h
  have hparas : paragraphs .ascii "aaaa.\n\nb. b.\n\ncc. cc. cc.".toList true =
      [["aaaa.".toList], ["b.".toList, "b.".toList],
        ["cc.".toList, "cc.".toList, "cc.".toList]] := by
    decide
  have hfilled : filled false 10 [["aaaa.".toList], ["b.".toList, "b.".toList],
      ["cc.".toList, "cc.".toList, "cc.".toList]] =
      [[⟨true, false, "aaaa.".toList⟩, ⟨true, false, "b.".toList⟩],
        [⟨false, false, "b.".toList⟩, ⟨true, true, "cc.".toList⟩],
        [⟨false, true, "cc.".toList⟩, ⟨false, true, "cc.".toList⟩]] := by decide
  obtain ⟨runs, hruns, hleast, hcut⟩ :=
    h .ascii "aaaa.\n\nb. b.\n\ncc. cc. cc.".toList 10 false true
  have hresult : packProse .ascii "aaaa.\n\nb. b.\n\ncc. cc. cc.".toList 10 false true =
      (filled false 10 [["aaaa.".toList], ["b.".toList, "b.".toList],
        ["cc.".toList, "cc.".toList, "cc.".toList]]).map spell := by decide
  rw [hparas] at hleast hcut
  have hmine := filled_least false 10 [["aaaa.".toList],
    ["b.".toList, "b.".toList], ["cc.".toList, "cc.".toList, "cc.".toList]]
  have heq := runs_eq (hleast.packs.flatten.trans hmine.packs.flatten.symm) hleast.nonempty
    hmine.nonempty (hruns.symm.trans hresult)
  have hother : Respects runs := by
    refine hcut ⟨[[⟨true, false, "aaaa.".toList⟩],
      [⟨true, false, "b.".toList⟩, ⟨false, false, "b.".toList⟩, ⟨true, true, "cc.".toList⟩],
      [⟨false, true, "cc.".toList⟩, ⟨false, true, "cc.".toList⟩]], ⟨⟨by decide, by decide⟩,
      by decide, fun others hothers => ?_⟩, by decide⟩
    have hle := hmine.least others hothers
    rw [hfilled] at hle
    exact hle
  rw [heq, hfilled] at hother
  exact absurd hother (by decide)

end Sonara.Chunks
