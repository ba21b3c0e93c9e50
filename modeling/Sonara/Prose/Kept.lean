import Sonara.Prose.Assembler
import Sonara.Prose.Cuts

/-!
# Nothing lost and nothing repeated by the assembler

`Covers ps t`: the pieces cover the raw text `t` of a block in order, with white
space and the backticks of fences between them. `Holds a t`: `t` is the raw text the
assembler still holds, be it prose, the start of a fence or not yet routed.

Each method of the assembler turns the text it holds into text its pieces cover and
text it holds then (`Accounts`). The emitted offset is what makes this work for
prose: the paragraph is cut again on every delta, and the offset counts the
characters that are covered already (`takeProse_covers`).
-/

namespace Sonara.Prose

open Sonara Text Lib

/-- The pieces tile `x` as it shows with its ordinals stabilized. -/
def Quotes (ps : List Piece) (x : Text) : Prop := ∃ y, Shown x y ∧ Says ps y

theorem Quotes.append {ps qs : List Piece} {x z : Text} (h : Quotes ps x) (h' : Quotes qs z) :
    Quotes (ps ++ qs) (x ++ z) := by
  obtain ⟨y, hy, hs⟩ := h
  obtain ⟨y', hy', hs'⟩ := h'
  exact ⟨y ++ y', hy.append hy', hs.append hs'⟩

theorem Quotes.nil : Quotes [] [] := ⟨[], .nil, .nil⟩

theorem Quotes.blank {x : Text} (hx : Space x) : Quotes [] x := ⟨x, Shown.refl x, .blank hx⟩

/-- A paragraph break, in the white space of its blank line. -/
theorem Quotes.break {x : Text} (hx : Space x) : Quotes [.paragraphBreak] x :=
  ⟨x, Shown.refl x, Tiles.piece (x := []) rfl (.blank hx)⟩

/-! ## Paragraphs -/

section Prose

variable (u : Unicode)

/-- A complete paragraph is cut to its end. -/
theorem sentencesOf_quotes (t : Text) (e : Nat) :
    Quotes (sentencesOf u ((stabilizeOrdinals u t).drop e) false).1 (t.drop e) :=
  ⟨_, List.forall₂_drop e (stabilizeOrdinals_shown u t), sentencesOf_complete u _⟩

/-- A paragraph that goes on is cut up to its remainder. -/
theorem sentencesOf_rest (t : Text) {e : Nat} (he : e ≤ t.length) :
    let r := sentencesOf u ((stabilizeOrdinals u t).drop e) true
    r.2.length ≤ t.length ∧
      ∃ x, t.drop e = x ++ t.drop (t.length - r.2.length) ∧ Quotes r.1 x := by
  intro r
  obtain ⟨x, hx, hs⟩ := sentencesOf_says u ((stabilizeOrdinals u t).drop e) true
  have hlen : t.length - e = x.length + r.2.length := by
    rw [← List.length_append, ← hx, List.length_drop, stabilizeOrdinals_length]
  have hshown : Shown (t.drop e) (x ++ r.2) := by
    rw [← hx]
    exact List.forall₂_drop e (stabilizeOrdinals_shown u t)
  refine ⟨by omega, (t.drop e).take x.length, ?_, x, ?_, hs⟩
  · rw [show t.length - r.2.length = e + x.length by omega, ← List.drop_drop,
      List.take_append_drop]
  · have := List.forall₂_take x.length hshown
    rwa [List.take_left] at this

/-- A paragraph and its blank line, of which `e` characters are covered. -/
theorem paragraph_quotes (p t : Text) {s : Text} (hs : ∀ c ∈ s, isBlank c = true) {e : Nat}
    (he : e ≤ p.length + (s.length + 2)) :
    ∃ x, (p ++ '\n' :: (s ++ '\n' :: t)).drop e = x ++ t ∧
      Quotes ((sentencesOf u ((stabilizeOrdinals u p).drop (min e p.length)) false).1 ++
        [.paragraphBreak]) x := by
  have hgap : Space ('\n' :: (s ++ ['\n'])) :=
    .cons (by decide) (.append (fun c hc => isPySpace_of_isBlank (hs c hc))
      (.cons (by decide) .nil))
  have hlen : ('\n' :: (s ++ ['\n'])).length = s.length + 2 := by simp
  refine ⟨p.drop (min e p.length) ++ ('\n' :: (s ++ ['\n'])).drop (e - p.length), ?_,
    (sentencesOf_quotes u p _).append (.break fun c hc => hgap c (List.mem_of_mem_drop hc))⟩
  have hsplit : '\n' :: (s ++ '\n' :: t) = '\n' :: (s ++ ['\n']) ++ t := by simp
  have hmin : p.drop e = p.drop (min e p.length) := by
    rcases Nat.le_total e p.length with h | h
    · rw [Nat.min_eq_left h]
    · rw [Nat.min_eq_right h, List.drop_length, List.drop_eq_nil_of_le h]
  rw [List.drop_append, hmin, hsplit, List.drop_append_of_le_length (by omega),
    List.append_assoc]

namespace Assembler

/-- The paragraphs up to the last one. -/
theorem paragraphs_quotes {t last : Text} {ps : List Text} (h : Parted t ps last) :
    (paragraphs u 0 ps).2 = 0 ∧ ∃ x, t = x ++ last ∧ Quotes (paragraphs u 0 ps).1 x := by
  induction h with
  | last t => exact ⟨rfl, [], rfl, .nil⟩
  | para hs _ ih =>
    obtain ⟨hz, x, hx, hq⟩ := ih
    obtain ⟨y, hy, hp⟩ := paragraph_quotes u _ _ hs (Nat.zero_le _)
    refine ⟨hz, y ++ x, ?_, ?_⟩
    · rw [List.append_assoc, ← hx, ← hy, List.drop_zero]
    · have := hp.append hq
      rwa [List.append_assoc] at this

theorem prosePieces_quotes (t : Text) : Quotes (prosePieces u t) t := by
  obtain ⟨-, x, hx, hq⟩ := paragraphs_quotes u (splitPara_parted t)
  have hlast := hq.append (sentencesOf_quotes u (splitPara t).2 0)
  rw [List.drop_zero, List.drop_zero, ← hx] at hlast
  exact hlast

variable (a : Assembler)

@[simp] theorem takeProse_pending (t : Text) : (a.takeProse u t).1.pending = a.pending := rfl
@[simp] theorem takeProse_inFence (t : Text) : (a.takeProse u t).1.inFence = a.inFence := rfl
@[simp] theorem flushProse_pending : (a.flushProse u).1.pending = a.pending := by
  unfold flushProse
  split <;> rfl
@[simp] theorem flushProse_inFence : (a.flushProse u).1.inFence = a.inFence := by
  unfold flushProse
  split <;> rfl
@[simp] theorem takeProse_fenceTicks (t : Text) :
    (a.takeProse u t).1.fenceTicks = a.fenceTicks := rfl
@[simp] theorem flushProse_fenceTicks : (a.flushProse u).1.fenceTicks = a.fenceTicks := by
  unfold flushProse
  split <;> rfl
@[simp] theorem flushProse_buf : (a.flushProse u).1.buf = [] := by
  unfold flushProse
  split
  next h => exact h
  next => rfl
@[simp] theorem flushProse_emitted : (a.flushProse u).1.emitted = 0 := by
  unfold flushProse
  split <;> rfl

/-- The buffer is one paragraph, and the offset counts characters of it. -/
structure Buffered : Prop where
  whole : Whole a.buf
  emitted_le : a.emitted ≤ a.buf.length

/-- The prose not yet covered, with `t` behind it, is covered up to what the buffer
holds then. -/
theorem takeProse_covers {a : Assembler} (h : a.Buffered) (t : Text) :
    (a.takeProse u t).1.Buffered ∧
      ∃ x, a.buf.drop a.emitted ++ t =
          x ++ (a.takeProse u t).1.buf.drop (a.takeProse u t).1.emitted ∧
        Quotes (a.takeProse u t).2 x := by
  have hparted := splitPara_parted (a.buf ++ t)
  have hwhole := splitPara_whole (a.buf ++ t)
  unfold takeProse splitSentences
  dsimp only
  rw [← List.drop_append_of_le_length h.emitted_le]
  generalize (splitPara (a.buf ++ t)).1 = ps at hparted ⊢
  generalize (splitPara (a.buf ++ t)).2 = last at hparted hwhole ⊢
  generalize htext : a.buf ++ t = text at hparted ⊢
  have hle : a.emitted ≤ text.length := by
    rw [← htext, List.length_append]
    exact h.emitted_le.trans (Nat.le_add_right _ _)
  cases hparted with
  | last =>
    -- The same paragraph goes on from the offset.
    have hmin : min (paragraphs u a.emitted []).2 last.length = a.emitted := Nat.min_eq_left hle
    rw [hmin]
    obtain ⟨-, x, hx, hq⟩ := sentencesOf_rest u last hle
    exact ⟨⟨hwhole, Nat.sub_le _ _⟩, x, hx, hq⟩
  | para hs hrest =>
    -- The offset lies in the first paragraph or its blank line.
    rename_i p s t' ps
    have he : a.emitted ≤ p.length + (s.length + 2) :=
      h.emitted_le.trans (h.whole.length_le hs htext)
    obtain ⟨y, hy, hp⟩ := paragraph_quotes u p t' hs he
    obtain ⟨hz, x, hx, hq⟩ := paragraphs_quotes u hrest
    have hmin : min (paragraphs u a.emitted (p :: ps)).2 last.length = 0 := by
      rw [show (paragraphs u a.emitted (p :: ps)).2 = (paragraphs u 0 ps).2 from rfl, hz]
      exact Nat.zero_min _
    rw [hmin]
    obtain ⟨-, z, hlast, hr⟩ := sentencesOf_rest u last (Nat.zero_le _)
    rw [List.drop_zero] at hlast
    refine ⟨⟨hwhole, Nat.sub_le _ _⟩, y ++ x ++ z, ?_, ?_⟩
    · rw [hy, hx, List.append_assoc, List.append_assoc, ← hlast]
    · have := (hp.append hq).append hr
      rwa [List.append_assoc _ [Piece.paragraphBreak]] at this

theorem flushProse_covers {a : Assembler} (h : a.Buffered) :
    Quotes (a.flushProse u).2 (a.buf.drop a.emitted) := by
  unfold flushProse
  split
  next hb =>
    rw [hb, List.drop_nil]
    exact .nil
  next =>
    dsimp only
    rw [Nat.min_eq_left h.emitted_le]
    exact sentencesOf_quotes u a.buf a.emitted

end Assembler

end Prose

/-! ## Fences -/

section Fences

variable (u : Unicode)

open Assembler (ticks)

/-- The pieces of a fence: its lines as prose, or one piece of code. -/
inductive FencePieces (lang : Text) (lines : List Text) : List Piece → Prop
  | prose {ps : List Piece} : proseFence u lang lines = true →
    Quotes ps (proseLines u lines) → FencePieces lang lines (.info lang :: ps)
  | code : proseFence u lang lines = false → FencePieces lang lines [.code lang lines]

/-- The raw text of a fence: its backticks, the line of its info string, its lines,
and as many backticks or more when it is closed. -/
inductive Fenced : List Piece → Text → Prop
  | mk {n : Nat} {head blank close : Text} {lines : List Text} {ps : List Piece} :
    3 ≤ n → tick ∉ head → Space blank → (close = [] ∨ ∃ m, n ≤ m ∧ close = ticks m) →
    FencePieces u (pyStrip head) lines ps →
    Fenced (ps ++ [.paragraphBreak])
      (ticks n ++ join ['\n'] (head :: lines) ++ blank ++ close)

/-- The pieces cover the raw text of a block, in order. -/
inductive Covers : List Piece → Text → Prop
  | nil : Covers [] []
  | prose {ps qs : List Piece} {x t : Text} :
    Quotes ps x → Covers qs t → Covers (ps ++ qs) (x ++ t)
  | fence {ps qs : List Piece} {x t : Text} :
    Fenced u ps x → Covers qs t → Covers (ps ++ qs) (x ++ t)

variable {u}

theorem Covers.append {ps qs : List Piece} {x t : Text} (h : Covers u ps x)
    (h' : Covers u qs t) : Covers u (ps ++ qs) (x ++ t) := by
  induction h with
  | nil => exact h'
  | prose hq _ ih =>
    rw [List.append_assoc, List.append_assoc]
    exact .prose hq ih
  | fence hf _ ih =>
    rw [List.append_assoc, List.append_assoc]
    exact .fence hf ih

theorem Quotes.covers {ps : List Piece} {x : Text} (h : Quotes ps x) : Covers u ps x := by
  have := Covers.prose (u := u) h .nil
  rwa [List.append_nil, List.append_nil] at this

theorem Fenced.covers {ps : List Piece} {x : Text} (h : Fenced u ps x) : Covers u ps x := by
  have := Covers.fence h .nil
  rwa [List.append_nil, List.append_nil] at this

/-- A fence with white space behind it. -/
theorem Fenced.covers_blank {ps : List Piece} {x s : Text} (h : Fenced u ps x) (hs : Space s) :
    Covers u ps (x ++ s) := by
  have := h.covers.append (Quotes.blank hs).covers
  rwa [List.append_nil] at this

namespace Assembler

variable (u)

theorem takeWhile_tick (t : Text) : t.takeWhile (· = tick) =
    ticks (t.takeWhile (· = tick)).length :=
  List.eq_replicate_iff.mpr ⟨rfl, fun c hc => by simpa using List.mem_takeWhile_imp hc⟩

/-- A line that closes the fence: its backticks, and what follows them. -/
theorem closingFenceRest_parts {a : Assembler} {line rest : Text}
    (h : a.closingFenceRest (pyStrip line) = some rest) :
    a.fenceOpenedLine = true ∧ ∃ m s e z, max a.fenceTicks 3 ≤ m ∧ Space s ∧ Space e ∧
      Space z ∧ line = s ++ (ticks m ++ (e ++ (rest ++ z))) := by
  obtain ⟨s, z, hs, hz, hline⟩ := pyStrip_parts line
  generalize pyStrip line = core at h hline
  unfold closingFenceRest at h
  dsimp only at h
  split at h
  next => cases h
  next hrun =>
    split at h
    next => cases h
    next =>
      cases h
      simp only [Bool.or_eq_true, Bool.not_eq_true', decide_eq_true_eq, not_or,
        Bool.not_eq_false] at hrun
      obtain ⟨e, z', he, hz', hrest⟩ :=
        pyStrip_parts (core.drop (core.takeWhile (· = tick)).length)
      have hcore : core = ticks (core.takeWhile (· = tick)).length ++
          core.drop (core.takeWhile (· = tick)).length := by
        rw [← takeWhile_tick]
        exact (List.prefix_iff_eq_append.mp (List.takeWhile_prefix _)).symm
      refine ⟨hrun.1, (core.takeWhile (· = tick)).length, s, e, z' ++ z, by omega, hs, he,
        hz'.append hz, ?_⟩
      rw [hline]
      conv_lhs => rw [hcore, hrest]
      simp only [List.append_assoc]

/-- An opening fence is at least three ticks. -/
theorem openingFrom_parts {blank : Bool} {pos : Nat} {t : Text} {i run : Nat}
    (h : openingFrom blank pos t = some (i, run)) :
    3 ≤ run ∧ ∃ s r, t = s ++ (ticks run ++ r) ∧ i = pos + s.length := by
  induction t generalizing blank pos with
  | nil => cases h
  | cons c cs ih =>
    -- The run is not here: it opens behind `c`.
    have hlater {b : Bool} (hn : openingFrom b (pos + 1) cs = some (i, run)) :
        3 ≤ run ∧ ∃ s r, c :: cs = s ++ (ticks run ++ r) ∧ i = pos + s.length := by
      obtain ⟨hrun, s, r, heq, hi⟩ := ih hn
      exact ⟨hrun, c :: s, r, by rw [heq]; rfl, by rw [hi, List.length_cons]; omega⟩
    unfold openingFrom at h
    dsimp only at h
    split at h
    next hc =>
      split at h
      next hrun =>
        cases h
        refine ⟨hrun.1, [], cs.dropWhile (· = tick), ?_, rfl⟩
        rw [hc, List.nil_append, Nat.add_comm]
        change tick :: cs = tick :: (ticks (cs.takeWhile (· = tick)).length ++ _)
        rw [← takeWhile_tick, List.takeWhile_append_dropWhile]
      next => exact hlater h
    next => exact hlater h

theorem join_snoc {head : Text} (lines : List Text) (line : Text) :
    join ['\n'] (head :: (lines ++ [line])) = join ['\n'] (head :: lines) ++ '\n' :: line := by
  induction lines generalizing head with
  | nil => simp [join, List.intercalate]
  | cons l lines ih =>
    have h : ∀ ls : List Text, join ['\n'] (head :: l :: ls) =
        head ++ '\n' :: join ['\n'] (l :: ls) := fun ls => by
      simp [join, List.intercalate]
    rw [List.cons_append, h, h, ih, List.append_assoc]
    rfl

/-- The raw text the assembler still holds, where `rest` is not routed yet. -/
inductive Holds (a : Assembler) (rest : Text) : Text → Prop
  /-- Prose: what the buffer has behind the offset. -/
  | prose : a.inFence = false → a.Buffered → Holds a rest (a.buf.drop a.emitted ++ rest)
  /-- A fence whose info string has not come. -/
  | info : a.inFence = true → a.fenceOpenedLine = false → a.buf = [] → a.emitted = 0 →
    a.fenceLang = [] → a.fenceLines = [] → 3 ≤ a.fenceTicks →
    Holds a rest (ticks a.fenceTicks ++ rest)
  /-- A fence and its lines so far. -/
  | lines {head : Text} : a.inFence = true → a.fenceOpenedLine = true → a.buf = [] →
    a.emitted = 0 → tick ∉ head → pyStrip head = a.fenceLang → 3 ≤ a.fenceTicks →
    Holds a rest (ticks a.fenceTicks ++ join ['\n'] (head :: a.fenceLines) ++ '\n' :: rest)

/-- Of the text `t` the pieces cover the first part, and `a` holds the rest; white
space may go, at the end only when the text is complete (`force`). -/
def Accounts (force : Bool) (t : Text) (a : Assembler) (ps : List Piece) : Prop :=
  ∃ x t' w, Thins (fun c => isPySpace c = true) t (x ++ (t' ++ w)) ∧ Space w ∧
    (force = false → w = []) ∧ Covers u ps x ∧ Holds a a.pending t'

variable {u}

/-- Nothing is left out. -/
theorem Accounts.exact {force : Bool} {x t' : Text} {a : Assembler} {ps : List Piece}
    (hx : Covers u ps x) (ht : Holds a a.pending t') : Accounts u force (x ++ t') a ps :=
  ⟨x, t', [], by rw [List.append_nil]; exact .refl _, .nil, fun _ => rfl, hx, ht⟩

theorem Accounts.held {force : Bool} {t : Text} {a : Assembler} (ht : Holds a a.pending t) :
    Accounts u force t a [] := .exact (x := []) .nil ht

theorem Accounts.trans {force : Bool} {t : Text} {a b : Assembler} {ps qs : List Piece}
    (h : Accounts u force t a ps) (h' : ∀ t', Holds a a.pending t' → Accounts u force t' b qs) :
    Accounts u force t b (ps ++ qs) := by
  obtain ⟨x, t', w, hthin, hw, hf, hc, hh⟩ := h
  obtain ⟨y, s, v, hthin', hv, hf', hc', hh'⟩ := h' t' hh
  refine ⟨x ++ y, s, v ++ w, ?_, hv.append hw, fun h => ?_, hc.append hc', hh'⟩
  · have hrest := (hthin'.append_right w).append_left x
    simp only [List.append_assoc] at hrest ⊢
    exact hthin.trans hrest
  · rw [hf h, hf' h, List.append_nil]

variable {a : Assembler}

/-- The text not routed yet is a parameter. -/
theorem Holds.reroute {rest t : Text} (h : Holds a rest t) (p : Text) :
    Holds { a with pending := p } rest t := by
  cases h with
  | prose hf hb => exact .prose (a := { a with pending := p }) hf ⟨hb.whole, hb.emitted_le⟩
  | info hin ho hb he hl hls hn =>
    exact .info (a := { a with pending := p }) hin ho hb he hl hls hn
  | lines hin ho hb he ht hl hn =>
    exact .lines (a := { a with pending := p }) hin ho hb he ht hl hn

theorem Holds.buffered {rest t : Text} (h : Holds a rest t) (hf : a.inFence = false) :
    a.Buffered ∧ t = a.buf.drop a.emitted ++ rest := by
  cases h with
  | prose _ hb => exact ⟨hb, rfl⟩
  | info hin => rw [hf] at hin; cases hin
  | lines hin => rw [hf] at hin; cases hin

theorem Buffered.empty {a : Assembler} (hb : a.buf = []) (he : a.emitted = 0) : a.Buffered :=
  ⟨hb ▸ .nil, by rw [he]; exact Nat.zero_le _⟩

/-- With an empty buffer and no fence, what is held is what is not routed. -/
theorem Holds.unrouted (hf : a.inFence = false) (hb : a.buf = []) (he : a.emitted = 0) :
    Holds a a.pending a.pending := by
  have := @Holds.prose a a.pending hf (.empty hb he)
  rwa [hb, List.drop_nil, List.nil_append] at this

/-- The indices do not matter to what is held. -/
theorem Holds.indexed {rest t : Text} (h : Holds a rest t) (s : Finset Nat)
    (d : Option (Nat × Finset Nat)) : Holds { a with seen := s, done := d } rest t := by
  cases h with
  | prose hf hb =>
    exact .prose (a := { a with seen := s, done := d }) hf ⟨hb.whole, hb.emitted_le⟩
  | info hin ho hb he hl hls hn =>
    exact .info (a := { a with seen := s, done := d }) hin ho hb he hl hls hn
  | lines hin ho hb he ht hl hn =>
    exact .lines (a := { a with seen := s, done := d }) hin ho hb he ht hl hn

/-- A delta goes behind what is held. -/
theorem Holds.append {rest t : Text} (h : Holds a rest t) (delta : Text) :
    Holds a (rest ++ delta) (t ++ delta) := by
  cases h with
  | prose hf hb =>
    rw [List.append_assoc]
    exact .prose hf hb
  | info hin ho hb he hl hls hn =>
    rw [List.append_assoc]
    exact .info hin ho hb he hl hls hn
  | lines hin ho hb he ht hl hn =>
    rw [List.append_assoc, List.cons_append]
    exact .lines hin ho hb he ht hl hn

/-- Prose goes to the buffer. -/
theorem takeProse_accounts {force : Bool} (hb : a.Buffered) (hf : a.inFence = false)
    (t : Text) : Accounts u force (a.buf.drop a.emitted ++ t ++ a.pending)
      (a.takeProse u t).1 (a.takeProse u t).2 := by
  obtain ⟨hb', x, hx, hq⟩ := takeProse_covers u hb t
  rw [hx, List.append_assoc, ← takeProse_pending u a t]
  exact .exact hq.covers (.prose hf hb')

theorem closeFence_pieces : ∃ ps, FencePieces u a.fenceLang a.fenceLines ps ∧
    (a.closeFence u).2 = ps ++ [.paragraphBreak] := by
  unfold closeFence
  dsimp only
  split
  next h => exact ⟨_, .prose h (prosePieces_quotes u _), rfl⟩
  next h => exact ⟨_, .code (by simpa using h), rfl⟩

/-- A fence is closed, by a line or at the end of its text. -/
theorem closeFence_fenced {head blank close : Text} (hn : 3 ≤ a.fenceTicks) (ht : tick ∉ head)
    (hs : Space blank) (hc : close = [] ∨ ∃ m, a.fenceTicks ≤ m ∧ close = ticks m)
    (hl : pyStrip head = a.fenceLang) :
    Fenced u (a.closeFence u).2
      (ticks a.fenceTicks ++ join ['\n'] (head :: a.fenceLines) ++ blank ++ close) := by
  obtain ⟨ps, hps, heq⟩ := closeFence_pieces (u := u) (a := a)
  rw [heq]
  exact .mk hn ht hs hc (hl ▸ hps)

/-- The line that closes a fence: what follows its backticks is still held. -/
theorem fenced_line {force : Bool} {b : Assembler} {head line rest tail : Text}
    (hn : 3 ≤ a.fenceTicks) (ht : tick ∉ head) (hl : pyStrip head = a.fenceLang)
    (hc : a.closingFenceRest (pyStrip line) = some rest)
    (hh : ∀ z, Space z → ∃ s t' w, Space s ∧ Space w ∧ (force = false → w = []) ∧
      Thins (fun c => isPySpace c = true) (rest ++ (z ++ tail)) (s ++ (t' ++ w)) ∧
        Holds b b.pending t') :
    Accounts u force
      (ticks a.fenceTicks ++ join ['\n'] (head :: a.fenceLines) ++ '\n' :: (line ++ tail)) b
      (a.closeFence u).2 := by
  obtain ⟨-, m, s, e, z, hm, hs, he, hz, hline⟩ := closingFenceRest_parts hc
  obtain ⟨s', t', w, hs', hw, hf, hthin, hb⟩ := hh z hz
  have hfence : Fenced u (a.closeFence u).2 (ticks a.fenceTicks ++
      join ['\n'] (head :: a.fenceLines) ++ ('\n' :: s) ++ ticks m) :=
    closeFence_fenced hn ht (hs.cons (by decide)) (.inr ⟨m, by omega, rfl⟩) hl
  refine ⟨_, t', w, ?_, hw, hf, hfence.covers_blank (he.append hs'), hb⟩
  rw [hline]
  simp only [List.append_assoc, List.cons_append]
  exact (((((hthin.append_left e).append_left _).append_left _).keep).append_left _).append_left _

/-- A line of inline code goes back to the prose, with the backticks before it. -/
theorem inlineCode_accounts {force : Bool} (hb : a.buf = []) (he : a.emitted = 0) (t : Text) :
    Accounts u force (ticks a.fenceTicks ++ t ++ a.pending)
      ({ a with inFence := false }.takeProse u (ticks a.fenceTicks ++ t)).1
      ({ a with inFence := false }.takeProse u (ticks a.fenceTicks ++ t)).2 := by
  have h := @takeProse_accounts u { a with inFence := false } force
    (.empty hb he) rfl (ticks a.fenceTicks ++ t)
  have hnil : a.buf.drop a.emitted = [] := by rw [hb, List.drop_nil]
  dsimp only at h
  rwa [hnil, List.nil_append] at h

/-- A complete line inside a fence. -/
theorem fenceLine_accounts {force : Bool} {t line : Text} (hin : a.inFence = true)
    (h : Holds a (line ++ '\n' :: a.pending) t) :
    Accounts u force t (a.fenceLine u line).1 (a.fenceLine u line).2 := by
  unfold fenceLine
  dsimp only
  cases h with
  | prose hf =>
    rw [hin] at hf
    cases hf
  | info _ ho hb he hl hls hn =>
    have hrest : a.closingFenceRest (pyStrip line) = none := by
      simp [closingFenceRest, ho]
    rw [hrest]
    dsimp only
    split
    next =>
      have hcode := @inlineCode_accounts u a force hb he (line ++ ['\n'])
      simp only [List.append_assoc, List.cons_append, List.nil_append] at hcode ⊢
      exact hcode
    next ht =>
      rw [if_pos (by rw [ho]; rfl)]
      have htick : tick ∉ line := by simpa [ho] using ht
      have hlines := @Holds.lines { a with fenceLang := pyStrip line, fenceOpenedLine := true }
        a.pending _ hin rfl hb he htick rfl hn
      have hone : join ['\n'] (line :: a.fenceLines) = line := by
        rw [hls]
        exact List.intercalate_singleton ..
      dsimp only at hlines
      rw [hone, List.append_assoc] at hlines
      exact .held hlines
  | lines _ ho hb he ht hl hn =>
    rename_i head
    split
    next rest hrest =>
      -- The fence closes, and what follows on its line is not routed yet.
      refine fenced_line hn ht hl hrest fun z hz => ?_
      have hheld (p : Text) : Holds { (a.closeFence u).1 with pending := p } p p :=
        Holds.unrouted (a := { (a.closeFence u).1 with pending := p }) rfl hb he
      by_cases hr : rest = []
      · refine ⟨z ++ ['\n'], a.pending, [], hz.append (.cons (by decide) .nil), .nil, fun _ => rfl,
          ?_, ?_⟩
        · rw [hr, List.nil_append, List.append_nil, List.append_assoc]
          exact .refl _
        · dsimp only
          rw [if_pos hr]
          exact hheld a.pending
      · refine ⟨[], rest ++ '\n' :: a.pending, [], .nil, .nil, fun _ => rfl, ?_, ?_⟩
        · rw [List.append_nil]
          exact (Thins.gaps a.pending hz (by decide)).append_left rest
        · dsimp only
          rw [if_neg hr]
          exact hheld (rest ++ '\n' :: a.pending)
    next =>
      rw [if_neg (by rw [ho]; simp), if_neg (by rw [ho]; simp)]
      have hlines := @Holds.lines { a with fenceLines := a.fenceLines ++ [line] }
        a.pending _ hin ho hb he ht hl hn
      dsimp only at hlines
      rw [join_snoc] at hlines
      simp only [List.append_assoc, List.cons_append] at hlines ⊢
      exact .held hlines

/-- A fence ends with its block's text. -/
theorem closeFence_ends {head blank : Text} (hn : 3 ≤ a.fenceTicks) (ht : tick ∉ head)
    (hs : Space blank) (hl : pyStrip head = a.fenceLang) (hb : a.buf = []) (he : a.emitted = 0)
    (hp : a.pending = []) :
    Accounts u true (ticks a.fenceTicks ++ join ['\n'] (head :: a.fenceLines) ++ blank)
      (a.closeFence u).1 (a.closeFence u).2 := by
  have hfence := closeFence_fenced (u := u) hn ht hs (.inl rfl) hl
  have hclosed : Holds (a.closeFence u).1 (a.closeFence u).1.pending a.pending :=
    Holds.unrouted (a := (a.closeFence u).1) rfl hb he
  have := @Accounts.exact u true _ _ _ _ hfence.covers hclosed
  rwa [hp, List.append_nil, List.append_nil] at this

/-- The last line of a fence that nothing closed. -/
theorem fenceTail_accounts {t tail : Text} (hin : a.inFence = true) (hp : a.pending = [])
    (h : Holds a tail t) :
    Accounts u true t (a.fenceTail u tail).1 (a.fenceTail u tail).2.1 := by
  unfold fenceTail
  dsimp only
  cases h with
  | prose hf =>
    rw [hin] at hf
    cases hf
  | info _ ho hb he hl hls hn =>
    have hrest : a.closingFenceRest (pyStrip tail) = none := by
      simp [closingFenceRest, ho]
    split
    next =>
      have hcode := @inlineCode_accounts u a true hb he tail
      have hnil : ticks a.fenceTicks ++ tail ++ a.pending = ticks a.fenceTicks ++ tail := by
        rw [hp, List.append_nil]
      rw [hnil] at hcode
      exact hcode
    next ht =>
      have htick : tick ∉ tail := by simpa [ho] using ht
      rw [hrest]
      dsimp only
      -- The info string is all there is of the fence.
      have hone : join ['\n'] (tail :: a.fenceLines) ++ [] = tail := by
        rw [hls, List.append_nil]
        exact List.intercalate_singleton ..
      split
      next hblank =>
        have hend := closeFence_ends (u := u) hn htick .nil (hblank.trans hl.symm) hb he hp
        rwa [List.append_assoc, hone] at hend
      next =>
        rw [if_neg (by rw [ho]; simp)]
        have hend := closeFence_ends (u := u) (a := { a with fenceLang := pyStrip tail })
          hn htick .nil rfl hb he hp
        dsimp only at hend
        rwa [List.append_assoc, hone] at hend
  | lines _ ho hb he ht hl hn =>
    rename_i head
    rw [if_neg (by rw [ho]; simp)]
    split
    next rest hrest =>
      have hclosed : Holds { (a.closeFence u).1 with pending := rest } rest rest :=
        Holds.unrouted (a := { (a.closeFence u).1 with pending := rest }) rfl hb he
      have hline := @fenced_line u a true { (a.closeFence u).1 with pending := rest } _ _ _
          [] hn ht hl hrest fun z hz =>
          ⟨[], rest, z, .nil, hz, fun h => absurd h.symm Bool.false_ne_true,
            by rw [List.append_nil]; exact .refl _, hclosed⟩
      rw [List.append_nil] at hline
      exact hline
    next =>
      split
      next hblank =>
        -- The last line is blank.
        have htail : Space ('\n' :: tail) := by
          obtain ⟨s, z, hs, hz, heq⟩ := pyStrip_parts tail
          rw [hblank, List.append_nil] at heq
          exact .cons (by decide) (heq ▸ hs.append hz)
        exact closeFence_ends hn ht htail hl hb he hp
      next =>
        have hend := closeFence_ends (u := u) (a := { a with fenceLines := a.fenceLines ++ [tail] })
          hn ht .nil hl hb he hp
        dsimp only at hend
        rw [join_snoc, List.append_nil] at hend
        rw [List.append_assoc]
        exact hend

/-- A fence opens behind the prose before it, or may open there. -/
theorem openFence_accounts {force : Bool} {t : Text} {pos run : Nat} (hf : a.inFence = false)
    (ho : a.fenceOpening = some (pos, run)) (h : Holds a a.pending t) :
    Accounts u force t (a.openFence u force pos run).1 (a.openFence u force pos run).2.1 := by
  obtain ⟨hb, rfl⟩ := h.buffered hf
  obtain ⟨hrun, s, r, hpend, hpos⟩ := openingFrom_parts ho
  rw [Nat.zero_add] at hpos
  have htake : a.pending.take pos = s := by rw [hpend, hpos, List.take_left]
  have hdrop : a.pending.drop pos = ticks run ++ r := by rw [hpend, hpos, List.drop_left]
  have hrest : a.pending.drop (pos + run) = r := by
    rw [← List.drop_drop, hdrop]
    exact List.drop_left' (List.length_replicate ..)
  unfold openFence
  dsimp only
  rw [htake, hdrop, hrest]
  split
  next =>
    have := @takeProse_accounts u { a with pending := ticks run ++ r } force
      ⟨hb.whole, hb.emitted_le⟩ hf s
    rwa [List.append_assoc, ← hpend] at this
  next =>
    obtain ⟨hb', x, hx, hq⟩ := takeProse_covers u
      (a := { a with pending := r, fenceTicks := run }) ⟨hb.whole, hb.emitted_le⟩ s
    -- The prose before the fence is complete.
    have hflush := flushProse_covers u hb'
    have hpending : ({ a with pending := r, fenceTicks := run }.takeProse u s).1.pending = r := rfl
    have hticks : ({ a with pending := r, fenceTicks := run }.takeProse u s).1.fenceTicks = run :=
      rfl
    generalize ({ a with pending := r, fenceTicks := run } : Assembler).takeProse u s = b at *
    have htext : ticks (b.1.flushProse u).1.fenceTicks ++ (b.1.flushProse u).1.pending =
        ticks run ++ r := by
      rw [flushProse_fenceTicks, flushProse_pending, hticks, hpending]
    have hinfo := @Holds.info
      { (b.1.flushProse u).1 with
        inFence := true, fenceOpenedLine := false, fenceLang := [], fenceLines := [] }
      (b.1.flushProse u).1.pending rfl rfl (flushProse_buf u b.1)
      (flushProse_emitted u b.1) rfl rfl (by simp only [flushProse_fenceTicks, hticks, hrun])
    dsimp only at hx
    rw [hpend, ← List.append_assoc, hx, ← htext]
    exact .exact (hq.append hflush).covers hinfo

/-- No fence opens: all but a partial marker is prose. -/
theorem commitProse_accounts {force : Bool} {t : Text} (hf : a.inFence = false)
    (h : Holds a a.pending t) :
    Accounts u force t (a.commitProse u force).1 (a.commitProse u force).2 := by
  obtain ⟨hb, rfl⟩ := h.buffered hf
  unfold commitProse
  dsimp only
  generalize a.pending.length - (if force then 0 else a.partialFenceTailLen) = k
  split
  next hk =>
    have hdrop : a.pending.drop k = a.pending := by
      have := List.take_append_drop k a.pending
      rwa [hk.1, List.nil_append] at this
    rw [hdrop]
    exact .held h
  next =>
    have := @takeProse_accounts u { a with pending := a.pending.drop k } force
      ⟨hb.whole, hb.emitted_le⟩ hf (a.pending.take k)
    rwa [List.append_assoc, List.take_append_drop] at this

/-- One round of the scan. -/
theorem scan_accounts {force : Bool} {t : Text} (h : Holds a a.pending t) :
    Accounts u force t (a.scan u force).1 (a.scan u force).2.1 := by
  unfold scan
  split
  next hin =>
    split
    next line rest hline =>
      rw [cutLine_eq hline] at h
      exact fenceLine_accounts (a := { a with pending := rest }) hin (h.reroute rest)
    next =>
      cases force with
      | false => exact .held h
      | true => exact fenceTail_accounts (a := { a with pending := [] }) hin rfl (h.reroute [])
  next hin =>
    have hf : a.inFence = false := by simpa using hin
    split
    next pos run ho => exact openFence_accounts hf ho h
    next => exact commitProse_accounts hf h

theorem rounds_accounts {force : Bool} (n : Nat) {a : Assembler} {t : Text}
    (h : Holds a a.pending t) :
    Accounts u force t (rounds u force n a).1 (rounds u force n a).2 := by
  induction n generalizing a t with
  | zero => exact .held h
  | succ n ih =>
    unfold rounds
    dsimp only
    split
    · exact (scan_accounts h).trans fun t' h' => ih h'
    · exact scan_accounts h

theorem consume_accounts {force : Bool} {t : Text} (h : Holds a a.pending t) :
    Accounts u force t (a.consume u force).1 (a.consume u force).2 := rounds_accounts _ h

/-! ## The scan stops -/

/-- A round that goes on takes characters off `pending`, of which there were `n`; with
all the text there, a round that stops has routed all of it. -/
structure Stops (force : Bool) (n : Nat) (r : Assembler × List Piece × Bool) : Prop where
  shrinks : r.2.2 = true → r.1.pending.length < n
  routed : force = true → r.2.2 = false → r.1.pending = [] ∧ r.1.inFence = false

theorem closingFenceRest_length {line rest : Text}
    (h : a.closingFenceRest (pyStrip line) = some rest) : rest.length + 1 < line.length := by
  obtain ⟨-, m, s, e, z, hm, -, -, -, hline⟩ := closingFenceRest_parts h
  rw [hline]
  simp only [List.length_append, show (ticks m).length = m from List.length_replicate ..]
  omega

/-- A line of a fence leaves less to read. -/
theorem fenceLine_length (line : Text) :
    (a.fenceLine u line).1.pending.length < (line ++ '\n' :: a.pending).length := by
  simp only [List.length_append, List.length_cons]
  unfold fenceLine
  dsimp only
  split
  next rest hrest =>
    have hlt := closingFenceRest_length hrest
    dsimp only
    split
    · change a.pending.length < _
      omega
    · change (rest ++ '\n' :: a.pending).length < _
      rw [List.length_append, List.length_cons]
      omega
  next =>
    split
    · change a.pending.length < _
      omega
    · split <;> (dsimp only; omega)

/-- The rest of a fence's line: with all the text there, nothing is left. -/
theorem fenceTail_stops (hp : a.pending = []) (tail : Text) :
    Stops true tail.length (a.fenceTail u tail) := by
  unfold fenceTail
  dsimp only
  split
  · exact ⟨fun h => absurd h Bool.false_ne_true, fun _ _ => ⟨hp, rfl⟩⟩
  · split
    next rest hrest =>
      have hlt := closingFenceRest_length hrest
      refine ⟨fun _ => ?_, fun _ h => ⟨by simpa using h, rfl⟩⟩
      change rest.length < _
      omega
    next =>
      refine ⟨fun h => absurd h Bool.false_ne_true, fun _ _ => ⟨?_, rfl⟩⟩
      dsimp only
      split
      · exact hp
      · split <;> exact hp

/-- A round of the scan that goes on has taken something off. -/
theorem scan_stops (force : Bool) : Stops force a.pending.length (a.scan u force) := by
  unfold scan
  split
  next =>
    split
    next line rest hline =>
      rw [cutLine_eq hline]
      exact ⟨fun _ => fenceLine_length (a := { a with pending := rest }) line,
        fun _ h => absurd h.symm Bool.false_ne_true⟩
    next =>
      cases force with
      | false =>
        exact ⟨fun h => absurd h Bool.false_ne_true, fun h => absurd h Bool.false_ne_true⟩
      | true => exact fenceTail_stops (a := { a with pending := [] }) rfl a.pending
  next hin =>
    have hf : a.inFence = false := by simpa using hin
    split
    next pos run ho =>
      obtain ⟨hrun, s, r, hpend, hpos⟩ := openingFrom_parts ho
      have hle : pos + run ≤ a.pending.length := by
        rw [hpend, hpos]
        simp only [List.length_append, show (ticks run).length = run from List.length_replicate ..]
        omega
      unfold openFence
      dsimp only
      split
      next hc =>
        refine ⟨fun h => absurd h Bool.false_ne_true, fun h => ?_⟩
        rw [h] at hc
        exact absurd hc.2 (by decide)
      next =>
        refine ⟨fun _ => ?_, fun _ h => absurd h.symm Bool.false_ne_true⟩
        simp only [flushProse_pending, takeProse_pending, List.length_drop]
        omega
    next =>
      refine ⟨fun h => absurd h Bool.false_ne_true, fun h _ => ?_⟩
      unfold commitProse
      rw [h]
      simp [hf]

/-- With all the text there, the scan ends with everything routed. -/
theorem rounds_routed (n : Nat) {a : Assembler} (hn : a.pending.length < n) :
    (rounds u true n a).1.pending = [] ∧ (rounds u true n a).1.inFence = false := by
  induction n generalizing a with
  | zero => exact absurd hn (Nat.not_lt_zero _)
  | succ n ih =>
    have hs := scan_stops (u := u) (a := a) true
    unfold rounds
    dsimp only
    split
    next h => exact ih ((hs.shrinks h).trans_le (Nat.le_of_lt_succ hn))
    next h => exact hs.routed rfl (by simpa using h)

theorem consume_routed :
    (a.consume u true).1.pending = [] ∧ (a.consume u true).1.inFence = false :=
  rounds_routed _ (Nat.lt_succ_self _)

theorem flushProse_seen : (a.flushProse u).1.seen = a.seen ∧ (a.flushProse u).1.done = a.done := by
  unfold flushProse
  split <;> exact ⟨rfl, rfl⟩

theorem fenceLine_seen (line : Text) : (a.fenceLine u line).1.seen = a.seen ∧
    (a.fenceLine u line).1.done = a.done := by
  unfold fenceLine
  dsimp only
  split
  · exact ⟨rfl, rfl⟩
  · split
    · exact ⟨rfl, rfl⟩
    · split <;> exact ⟨rfl, rfl⟩

theorem fenceTail_seen (tail : Text) : (a.fenceTail u tail).1.seen = a.seen ∧
    (a.fenceTail u tail).1.done = a.done := by
  unfold fenceTail
  dsimp only
  split
  · exact ⟨rfl, rfl⟩
  · split
    · exact ⟨rfl, rfl⟩
    · split
      · exact ⟨rfl, rfl⟩
      · split <;> exact ⟨rfl, rfl⟩

/-- The scan does not touch the indices. -/
theorem scan_seen (force : Bool) :
    (a.scan u force).1.seen = a.seen ∧ (a.scan u force).1.done = a.done := by
  unfold scan
  split
  · split
    next line rest _ => exact fenceLine_seen (a := { a with pending := rest }) line
    next =>
      split
      · exact fenceTail_seen (a := { a with pending := [] }) a.pending
      · exact ⟨rfl, rfl⟩
  · split
    · unfold openFence
      dsimp only
      split
      · exact ⟨rfl, rfl⟩
      · exact flushProse_seen
    · unfold commitProse
      dsimp only
      generalize a.pending.length - (if force then 0 else a.partialFenceTailLen) = k
      split <;> exact ⟨rfl, rfl⟩

theorem rounds_seen (force : Bool) (n : Nat) (a : Assembler) :
    (rounds u force n a).1.seen = a.seen ∧ (rounds u force n a).1.done = a.done := by
  induction n generalizing a with
  | zero => exact ⟨rfl, rfl⟩
  | succ n ih =>
    unfold rounds
    dsimp only
    split
    · exact ⟨(ih _).1.trans (scan_seen force).1, (ih _).2.trans (scan_seen force).2⟩
    · exact scan_seen force

theorem consume_seen (force : Bool) :
    (a.consume u force).1.seen = a.seen ∧ (a.consume u force).1.done = a.done :=
  rounds_seen force _ a

/-! ## Blocks -/

/-- The pieces rebuild the raw text `t`: they cover it, but for white space that stood
in front of white space. -/
def Rebuilds (u : Unicode) (ps : List Piece) (t : Text) : Prop :=
  ∃ x, Thins (fun c => isPySpace c = true) t x ∧ Covers u ps x

/-- Nothing is held, and no delta of a block was read. -/
structure Clear (a : Assembler) : Prop where
  seen : a.seen = ∅
  buf : a.buf = []
  emitted : a.emitted = 0
  pending : a.pending = []
  inFence : a.inFence = false
  fenceLines : a.fenceLines = []

theorem finish_clear (index : Nat) : (a.finish u index).1.Clear :=
  ⟨rfl, rfl, rfl, rfl, rfl, rfl⟩

theorem clear_empty : ({} : Assembler).Clear := ⟨rfl, rfl, rfl, rfl, rfl, rfl⟩

/-- Everything left of a block is covered. -/
theorem drain_rebuilds {t : Text} {ps : List Piece} (h : Accounts u false t a ps) :
    Rebuilds u (ps ++ (a.drain u).2) t := by
  obtain ⟨x, t', w, hthin, hw, -, hc, hh⟩ := h
  obtain ⟨y, s, v, hthin', hv, -, hc', hh'⟩ := @consume_accounts u _ true _ hh
  obtain ⟨hp, hf⟩ := consume_routed (u := u) (a := a)
  obtain ⟨hb, rfl⟩ := hh'.buffered hf
  have hflush := flushProse_covers u hb
  have hend : Covers u (a.drain u).2
      (y ++ ((a.consume u true).1.buf.drop (a.consume u true).1.emitted ++ (v ++ w))) := by
    have := hc'.append (hflush.append (.blank (hv.append hw))).covers
    rwa [List.append_nil] at this
  refine ⟨_, ?_, hc.append hend⟩
  have hrest := (hthin'.append_right w).append_left x
  rw [hp, List.append_nil] at hrest
  simp only [List.append_assoc] at hrest hthin ⊢
  exact hthin.trans hrest

/-- A block's deltas from `index` on, in order, the last one final. -/
def feedDeltas (u : Unicode) (a : Assembler) (index : Nat) : List Text → Assembler × List Piece
  | [] => (a, [])
  | delta :: ds =>
    let r := a.feedBlock u delta index ds.isEmpty
    let r' := feedDeltas u r.1 (index + 1) ds
    (r'.1, r.2 ++ r'.2)

/-- Between two deltas of a block: the text so far is covered or held, and no index
from here on was read. -/
structure Midway (u : Unicode) (t : Text) (index : Nat) (a : Assembler) (ps : List Piece) :
    Prop where
  accounts : Accounts u false t a ps
  seen : ∀ i ∈ a.seen, i < index
  first : index = 0 → a.seen = ∅
  done : 0 < index → a.done = none

variable {t : Text} {ps : List Piece} {index : Nat}

/-- A delta in its turn is appended to what is held. -/
theorem Midway.feed (h : Midway u t index a ps) (delta : Text) (fin : Bool) :
    let b := { a with done := none, seen := insert index a.seen, pending := a.pending ++ delta }
    let r := b.consume u false
    a.feedBlock u delta index fin =
      (if fin then ((r.1.finish u index).1, r.2 ++ (r.1.finish u index).2) else r) ∧
    Midway u (t ++ delta) (index + 1) r.1 (ps ++ r.2) := by
  intro b r
  have hfresh : index ∉ a.seen := fun hi => absurd (h.seen index hi) (Nat.lt_irrefl _)
  have hmissed : a.isMissed index = false := by
    unfold isMissed
    rcases Nat.eq_zero_or_pos index with h0 | hpos
    · split
      · simp [h0]
      · rfl
    · rw [h.done hpos]
  refine ⟨?_, ?_⟩
  · unfold feedBlock addDelta
    rw [hmissed]
    dsimp only
    rw [if_neg Bool.false_ne_true, if_neg (fun hc => hc.2 (h.first hc.1)), if_neg hfresh]
  · obtain ⟨hseen, hdone⟩ := consume_seen (u := u) (a := b) false
    refine ⟨?_, ?_, fun h => absurd h (Nat.succ_ne_zero _), fun _ => hdone⟩
    · obtain ⟨x, t', w, hthin, -, hf, hc, hh⟩ := h.accounts
      rw [hf rfl, List.append_nil] at hthin
      have hheld : Holds b b.pending (t' ++ delta) :=
        ((hh.append delta).indexed (insert index a.seen) none).reroute (a.pending ++ delta)
      have hfed : Accounts u false (t ++ delta) b ps := by
        refine ⟨x, t' ++ delta, [], ?_, .nil, fun _ => rfl, hc, hheld⟩
        rw [List.append_nil, ← List.append_assoc]
        exact hthin.append_right delta
      exact hfed.trans fun _ => consume_accounts
    · intro i hi
      rw [hseen] at hi
      rcases Finset.mem_insert.mp hi with rfl | hi
      · exact Nat.lt_succ_self _
      · exact (h.seen i hi).trans (Nat.lt_succ_self _)

/-- Feeding deltas in the middle of a block rebuilds what came, and clears at its end. -/
theorem feedDeltas_rebuilds (u : Unicode) {a : Assembler} {ps : List Piece} {t : Text}
    {index : Nat} (h : Midway u t index a ps) {ds : List Text} (hds : ds ≠ []) :
    Rebuilds u (ps ++ (feedDeltas u a index ds).2) (t ++ ds.flatten) ∧
      (feedDeltas u a index ds).1.Clear := by
  induction ds generalizing a ps t index with
  | nil => exact absurd rfl hds
  | cons delta ds ih =>
    obtain ⟨hfeed, hmid⟩ := h.feed delta ds.isEmpty
    unfold feedDeltas
    dsimp only
    rw [hfeed]
    cases ds with
    | nil =>
      refine ⟨?_, finish_clear index⟩
      have := drain_rebuilds hmid.accounts
      simpa [feedDeltas, finish] using this
    | cons d ds =>
      obtain ⟨hr, hclear⟩ := ih hmid (List.cons_ne_nil d ds)
      refine ⟨?_, hclear⟩
      simpa only [List.append_assoc, List.flatten_cons, List.isEmpty_cons, Bool.false_eq_true,
        if_false] using hr

/-- A block fed in order, cut anywhere: its pieces rebuild its text, and nothing of it
is held after its final. -/
theorem block_rebuilt (u : Unicode) (a : Assembler) (ha : a.Clear) (ds : List Text) :
    Rebuilds u (feedDeltas u a 0 ds).2 ds.flatten ∧ (feedDeltas u a 0 ds).1.Clear := by
  cases ds with
  | nil => exact ⟨⟨[], .nil, .nil⟩, ha⟩
  | cons delta ds =>
    have hheld : Holds a a.pending [] := by
      have := Holds.unrouted ha.inFence ha.buf ha.emitted
      rwa [ha.pending] at this ⊢
    have hstart : Midway u [] 0 a [] :=
      ⟨.held hheld, fun i hi => absurd (ha.seen ▸ hi) (Finset.notMem_empty i), fun _ => ha.seen,
        fun h => absurd h (Nat.lt_irrefl 0)⟩
    exact feedDeltas_rebuilds u hstart (List.cons_ne_nil delta ds)

theorem block_rebuilt_split :
    Rebuilds Speech.ascii.toUnicode
      (feedDeltas Speech.ascii.toUnicode {} 0 ["Hel".toList, "lo.\n\nBye".toList]).2
      ["Hel".toList, "lo.\n\nBye".toList].flatten ∧
    (feedDeltas Speech.ascii.toUnicode {} 0 ["Hel".toList, "lo.\n\nBye".toList]).1.Clear :=
  block_rebuilt _ {} clear_empty _

/-- The text a piece hands on. -/
def handed : Piece → Text
  | .slice raw => raw
  | .table _ rows => rows.flatten
  | .info lang => lang
  | .code lang lines => lang ++ lines.flatten
  | .paragraphBreak => []

/-- What is handed on is not the block's text with characters left out: an ordinal's dot
shows as a colon, a row repeats its column names, and prose in a fence gets full stops. -/
theorem handed_beyond_text :
    let handedOn (t : Text) :=
      (feedDeltas Speech.ascii.toUnicode {} 0 [t]).2.flatMap handed
    ¬ (handedOn "1. one".toList).Sublist "1. one".toList ∧
    ¬ (handedOn "|a|b|\n|-|-|\n|1|2|\n|3|4|\n".toList).Sublist
      "|a|b|\n|-|-|\n|1|2|\n|3|4|\n".toList ∧
    ¬ (handedOn "```\nOne two three four\nFive six, seven eight\n```\n".toList).Sublist
      "```\nOne two three four\nFive six, seven eight\n```\n".toList := by
  decide +kernel

end Assembler

end Fences

end Sonara.Prose
