import Mathlib.Data.List.Forall2
import Sonara.Lib.Tiling
import Sonara.Prose.Sentences

/-!
# What the cut leaves out

Each function of the cut is shown to tile the text it is given: its pieces stand in
it in order, and only white space stands between them. The remainder it keeps is the
text behind the last piece. The statements run from the inside out: sentences, list
items, tables, and the paragraphs of a text.

The cut works on the text with its ordinals stabilized. `Shown x y` relates the raw
text to it: the same length, and a dot may show as a colon.
-/

namespace Sonara.Prose

open Sonara Text Lib

/-- White space, Python's included: what the cut may leave out. -/
def Space (t : Text) : Prop := ∀ c ∈ t, isPySpace c = true

theorem isPySpace_of_isWhitespace {c : Char} (h : isWhitespace c = true) :
    isPySpace c = true := by
  simp [isPySpace, h]

theorem isPySpace_of_isBlank {c : Char} (h : isBlank c = true) : isPySpace c = true := by
  simp only [isBlank, Bool.or_eq_true, beq_iff_eq] at h
  rcases h with rfl | rfl <;> decide

theorem Space.nil : Space [] := fun _ h => absurd h List.not_mem_nil

theorem Space.append {s t : Text} (hs : Space s) (ht : Space t) : Space (s ++ t) := by
  intro c hc
  rcases List.mem_append.mp hc with h | h
  · exact hs c h
  · exact ht c h

theorem Space.cons {c : Char} {t : Text} (hc : isPySpace c = true) (ht : Space t) :
    Space (c :: t) := by
  intro d hd
  rcases List.mem_cons.mp hd with rfl | h
  · exact hc
  · exact ht d h

theorem Space.takeWhile {p : Char → Bool} (hp : ∀ c, p c = true → isPySpace c = true)
    (t : Text) : Space (t.takeWhile p) := fun c hc => hp c (List.mem_takeWhile_imp hc)

theorem Space.rtakeWhile {p : Char → Bool} (hp : ∀ c, p c = true → isPySpace c = true)
    (t : Text) : Space (t.rtakeWhile p) :=
  fun c hc => hp c (List.mem_rtakeWhile_imp hc)

/-- Text is its stripped core in white space. -/
theorem pyStrip_parts (t : Text) : ∃ s e, Space s ∧ Space e ∧ t = s ++ pyStrip t ++ e := by
  refine ⟨t.takeWhile isPySpace, (t.dropWhile isPySpace).rtakeWhile isPySpace,
    Space.takeWhile (fun _ h => h) t, Space.rtakeWhile (fun _ h => h) _, ?_⟩
  rw [List.append_assoc]
  unfold pyStrip
  rw [List.rdropWhile_append_rtakeWhile, List.takeWhile_append_dropWhile]

theorem trimEnd_parts (t : Text) : ∃ e, Space e ∧ t = trimEnd t ++ e := by
  refine ⟨t.rtakeWhile isWhitespace, Space.rtakeWhile (fun _ => isPySpace_of_isWhitespace) t, ?_⟩
  exact List.rdropWhile_append_rtakeWhile.symm

theorem trim_parts (t : Text) : ∃ s e, Space s ∧ Space e ∧ t = s ++ trim t ++ e := by
  refine ⟨t.takeWhile isWhitespace, (t.dropWhile isWhitespace).rtakeWhile isWhitespace,
    Space.takeWhile (fun _ => isPySpace_of_isWhitespace) t,
    Space.rtakeWhile (fun _ => isPySpace_of_isWhitespace) _, ?_⟩
  unfold trim trimEnd trimStart
  rw [List.append_assoc, List.rdropWhile_append_rtakeWhile, List.takeWhile_append_dropWhile]

/-! ## Rows of a table -/

/-- What a cell shows of the text it stands on: an escaped bar without its backslash. -/
inductive Unescaped : Text → Text → Prop
  | nil : Unescaped [] []
  | bar {x y : Text} : Unescaped x y → Unescaped ('\\' :: '|' :: x) ('|' :: y)
  | keep (c : Char) {x y : Text} : Unescaped x y → Unescaped (c :: x) (c :: y)

theorem Unescaped.append {x y x' y' : Text} (h : Unescaped x y) (h' : Unescaped x' y') :
    Unescaped (x ++ x') (y ++ y') := by
  induction h with
  | nil => exact h'
  | bar _ ih => exact .bar ih
  | keep c _ ih => exact .keep c ih

/-- White space shown stands in the text. -/
theorem Unescaped.split_space {s y x : Text} (hs : Space s) (h : Unescaped x (s ++ y)) :
    ∃ x', x = s ++ x' ∧ Unescaped x' y := by
  induction s generalizing x with
  | nil => exact ⟨x, rfl, h⟩
  | cons c s ih =>
    have hc : isPySpace c = true := hs c List.mem_cons_self
    have hs' : Space s := fun d hd => hs d (List.mem_cons_of_mem _ hd)
    rw [List.cons_append] at h
    cases h with
    | bar _ => exact absurd hc (by decide)
    | keep _ h =>
      obtain ⟨x', rfl, hx'⟩ := ih hs' h
      exact ⟨x', rfl, hx'⟩

/-- A text with its escapes taken out, cut in two. -/
theorem Unescaped.split {y s x : Text} (h : Unescaped x (y ++ s)) :
    ∃ a b, x = a ++ b ∧ Unescaped a y ∧ Unescaped b s := by
  induction y generalizing x with
  | nil => exact ⟨[], x, rfl, .nil, h⟩
  | cons c y ih =>
    rw [List.cons_append] at h
    cases h with
    | bar h =>
      obtain ⟨a, b, rfl, ha, hb⟩ := ih h
      exact ⟨_ :: _ :: a, b, rfl, .bar ha, hb⟩
    | keep _ h =>
      obtain ⟨a, b, rfl, ha, hb⟩ := ih h
      exact ⟨_ :: a, b, rfl, .keep c ha, hb⟩

/-- What stands between the cells of a row. -/
def Bar (c : Char) : Prop := isPySpace c = true ∨ c = '|'

/-- A cell and the white space round it. -/
theorem Tiles.cell {x cell t : Text} {cs : List Text} (h : Unescaped x cell)
    (ht : Tiles Bar (fun c x => Unescaped x c) cs t) :
    Tiles Bar (fun c x => Unescaped x c) (trim cell :: cs) (x ++ t) := by
  obtain ⟨s, e, hs, he, heq⟩ := trim_parts cell
  rw [heq, List.append_assoc] at h
  obtain ⟨x', rfl, hx'⟩ := Unescaped.split_space hs h
  obtain ⟨a, b, rfl, ha, hb⟩ := hx'.split
  obtain ⟨b', rfl, hb'⟩ := Unescaped.split_space (y := []) he (by rwa [List.append_nil])
  cases hb'
  rw [List.append_nil, List.append_assoc, List.append_assoc]
  exact .gaps (fun c hc => .inl (hs c hc)) (.piece ha (.gaps (fun c hc => .inl (he c hc)) ht))

theorem splitCells_tile {x cell : Text} (h : Unescaped x cell) (t : Text) :
    Tiles Bar (fun c x => Unescaped x c) ((Table.splitCells cell t).map trim) (x ++ t) := by
  fun_induction Table.splitCells cell t generalizing x with
  | case1 cell => exact Tiles.cell h .nil
  | case2 cell cs ih =>
    have := ih (h.append (.bar .nil))
    rwa [List.append_assoc] at this
  | case3 cell cs hne ih => exact Tiles.cell h (.gap (.inr rfl) (ih .nil))
  | case4 cell c cs hne hc ih =>
    have := ih (h.append (.keep c .nil))
    rwa [List.append_assoc] at this

theorem dropLastPipe_parts (t : Text) :
    ∃ e, (∀ c ∈ e, Bar c) ∧ t = Table.dropLastPipe t ++ e := by
  unfold Table.dropLastPipe
  split
  next h =>
    rw [Bool.and_eq_true, List.isSuffixOf_iff_suffix] at h
    obtain ⟨s, rfl⟩ := h.1
    refine ⟨['|'], fun c hc => .inr (List.mem_singleton.mp hc), ?_⟩
    rw [List.dropLast_concat]
  next => exact ⟨[], fun c hc => absurd hc List.not_mem_nil, (List.append_nil t).symm⟩

/-- A row is its cells, with bars and white space between them. -/
theorem cells_tile (line : Text) :
    Tiles Bar (fun c x => Unescaped x c) (Table.cells line) line := by
  obtain ⟨s, e, hs, he, heq⟩ := trim_parts line
  unfold Table.cells
  dsimp only
  generalize trim line = t at heq ⊢
  -- The outer bars.
  have hhead : ∃ b, (∀ c ∈ b, Bar c) ∧ t = b ++ if ['|'].isPrefixOf t then t.tail else t := by
    split
    next h =>
      obtain ⟨r, rfl⟩ := List.isPrefixOf_iff_prefix.mp h
      exact ⟨['|'], fun c hc => .inr (List.mem_singleton.mp hc), rfl⟩
    next => exact ⟨[], fun c hc => absurd hc List.not_mem_nil, rfl⟩
  obtain ⟨b, hb, ht⟩ := hhead
  generalize (if ['|'].isPrefixOf t then t.tail else t) = r at ht ⊢
  obtain ⟨z, hz, hr⟩ := dropLastPipe_parts r
  have hcells := splitCells_tile .nil (Table.dropLastPipe r)
  have hend : Tiles Bar (fun c x => Unescaped x c) [] (z ++ e) :=
    .blank fun c hc => (List.mem_append.mp hc).elim (hz c) fun h => .inl (he c h)
  have hrow := hcells.append hend
  rw [List.append_nil, List.nil_append, ← List.append_assoc, ← hr] at hrow
  rw [heq, ht, List.append_assoc, List.append_assoc]
  exact .gaps (fun c hc => .inl (hs c hc)) (.gaps hb hrow)

/-! ## What a piece stands for -/

/-- `raw` is one table: a header, its separator, and the rows under them, each read as
one line of its cells behind their column names. -/
structure Table.Spells (raw : Text) (rows : List Text) : Prop where
  table : ∃ head sep body, raw = head ++ sep ++ body.flatten ∧ head.contains '|' ∧
    Table.separates head sep ∧ body ≠ [] ∧ (∀ line ∈ body, Table.isRow line) ∧
    (∀ line ∈ head :: body, Tiles Bar (fun c x => Unescaped x c) (Table.cells line) line) ∧
    rows = (body.map fun line => Table.speakRow (Table.cells head) (Table.cells line)).filter
      (· ≠ [])

/-- The text a piece of prose stands for. -/
def Piece.Reads : Piece → Text → Prop
  | .slice raw, x => x = raw
  | .table raw rows, x => x = raw ∧ Table.Spells raw rows
  | .paragraphBreak, x => x = []
  | .info _, _ => False
  | .code _ _, _ => False

/-- The pieces tile the text, with white space between them. -/
abbrev Says (ps : List Piece) (t : Text) : Prop :=
  Tiles (fun c => isPySpace c = true) Piece.Reads ps t

/-- The text with its ordinals stabilized: a dot may show as a colon. -/
abbrev Shown (x y : Text) : Prop := List.Forall₂ (fun c d => d = c ∨ c = '.' ∧ d = ':') x y

theorem Shown.refl (t : Text) : Shown t t := by
  induction t with
  | nil => exact .nil
  | cons c t ih => exact .cons (.inl rfl) ih

theorem Shown.append {x x' y y' : Text} (h : Shown x y) (h' : Shown x' y') :
    Shown (x ++ x') (y ++ y') := List.rel_append h h'

/-- The loop shows every line as it was, or with its ordinal's dot as a colon. -/
theorem stabilizeLoop_shown (u : Unicode) (n : Nat) (bol : Bool) (t : Text) :
    Shown t (stabilizeLoop u n bol t) := by
  induction n generalizing bol t with
  | zero => exact Shown.refl t
  | succ n ih =>
    unfold stabilizeLoop
    split
    next head gap rest h =>
      have ho : ordinal u t = some (head, gap, rest) := by
        cases bol
        · cases h
        · exact h
      -- The ordinal is what it was read from, but for its dot.
      have ht : t = head ++ '.' :: (gap ++ rest) := by
        unfold ordinal at ho
        dsimp only at ho
        split at ho
        next after ha =>
          split at ho
          · cases ho
            rw [List.takeWhile_append_dropWhile, ← ha, List.append_assoc,
              List.takeWhile_append_dropWhile, List.takeWhile_append_dropWhile]
          · cases ho
        · cases ho
      rw [ht, List.append_assoc, List.cons_append]
      refine (Shown.refl head).append (.cons (.inr ⟨rfl, rfl⟩) ?_)
      exact (Shown.refl gap).append (ih _ rest)
    next =>
      cases t with
      | nil => exact .nil
      | cons c cs => exact .cons (.inl rfl) (ih _ cs)

theorem stabilizeOrdinals_shown (u : Unicode) (t : Text) : Shown t (stabilizeOrdinals u t) :=
  stabilizeLoop_shown u _ true t

@[simp] theorem stabilizeOrdinals_length (u : Unicode) (t : Text) :
    (stabilizeOrdinals u t).length = t.length := (stabilizeOrdinals_shown u t).length_eq.symm

/-! ## Sentences -/

theorem cutSentences_go_skip (n : Nat) (s t : Text) :
    cutSentences.go n s t = cutSentences.go 0 s (t.drop n) := by
  induction n generalizing t with
  | zero => rw [List.drop_zero]
  | succ n ih =>
    cases t with
    | nil => rfl
    | cons c cs => exact ih cs

/-- Behind an end mark stand its closing marks and white space. -/
theorem sentenceEnd_parts {t closers : Text} {n : Nat} (h : sentenceEnd t = some (closers, n)) :
    ∃ e, Space e ∧ t = closers ++ e ++ t.drop n := by
  unfold sentenceEnd at h
  dsimp only at h
  split at h
  · cases h
  · cases h
    refine ⟨_, Space.takeWhile (fun _ h => h) (t.dropWhile isCloser), ?_⟩
    have ht : t = t.takeWhile isCloser ++ ((t.dropWhile isCloser).takeWhile isPySpace ++
        (t.dropWhile isCloser).dropWhile isPySpace) := by
      rw [List.takeWhile_append_dropWhile, List.takeWhile_append_dropWhile]
    generalize t.takeWhile isCloser = a at ht ⊢
    generalize (t.dropWhile isCloser).takeWhile isPySpace = b at ht ⊢
    rw [ht, ← List.append_assoc, ← List.length_append, List.drop_left]

/-- Sentences are cut off the front and say it all. -/
theorem cutSentences_go_says (s t : Text) : ∃ x, s ++ t = x ++ (cutSentences.go 0 s t).2 ∧
    Says ((cutSentences.go 0 s t).1.map .slice) x := by
  induction ht : t.length using Nat.strong_induction_on generalizing s t with
  | _ n ih =>
    subst ht
    cases t with
    | nil => exact ⟨[], by rw [List.append_nil]; rfl, .nil⟩
    | cons c cs =>
      -- A character that ends no sentence goes on the one it stands in.
      have hgo : ∃ x, s ++ c :: cs = x ++ (cutSentences.go 0 (s ++ [c]) cs).2 ∧
          Says ((cutSentences.go 0 (s ++ [c]) cs).1.map .slice) x := by
        obtain ⟨x, hx, hs⟩ := ih cs.length (Nat.lt_succ_self _) (s ++ [c]) cs rfl
        exact ⟨x, by rw [← hx, List.append_assoc]; rfl, hs⟩
      unfold cutSentences.go
      split
      · split
        next closers n hend =>
          obtain ⟨e, he, hcs⟩ := sentenceEnd_parts hend
          have hlt : (cs.drop n).length < (c :: cs).length :=
            Nat.lt_succ_of_le (by rw [List.length_drop]; exact Nat.sub_le _ _)
          obtain ⟨x, hx, hs⟩ := ih _ hlt [] (cs.drop n) rfl
          rw [cutSentences_go_skip]
          refine ⟨(s ++ c :: closers) ++ (e ++ x), ?_, .piece rfl (hs.gaps he)⟩
          change s ++ c :: cs = _ ++ (cutSentences.go 0 [] (cs.drop n)).2
          rw [List.append_assoc, List.append_assoc e, ← hx, List.nil_append, List.append_assoc,
            List.cons_append, ← List.append_assoc closers, ← hcs]
        · exact hgo
      · exact hgo

theorem cutSentences_says (t : Text) : ∃ x, t = x ++ (cutSentences t).2 ∧
    Says ((cutSentences t).1.map .slice) x := cutSentences_go_says [] t

/-- A line break is white space. -/
theorem isPySpace_of_break {c : Char} (h : c ∈ ['\n', '\x0b', '\x0c', '\x1c', '\x1d', '\x1e',
    '\u0085', '\u2028', '\u2029']) : isPySpace c = true := by
  revert h
  simp only [List.mem_cons, List.not_mem_nil, or_false]
  rintro (rfl | rfl | rfl | rfl | rfl | rfl | rfl | rfl | rfl) <;> decide

/-- Behind a carriage return (`cr`) no line has begun. -/
theorem splitLines_go_says {cr : Bool} {line : Text} (hcr : cr = true → line = []) (t : Text) :
    Says ((splitLines.go cr line t).map .slice) (line ++ t) := by
  induction t generalizing cr line with
  | nil =>
    unfold splitLines.go
    rw [List.append_nil]
    split
    next h => rw [h]; exact .nil
    · exact .single rfl
  | cons c cs ih =>
    unfold splitLines.go
    split
    next h =>
      rw [Bool.and_eq_true, beq_iff_eq] at h
      rw [hcr h.1, h.2]
      have hrest : Says ((splitLines.go false [] cs).map .slice) cs := ih fun _ => rfl
      exact .gap (by decide) hrest
    · split
      next h =>
        rw [beq_iff_eq] at h
        subst h
        have hrest : Says ((splitLines.go true [] cs).map .slice) cs := ih fun _ => rfl
        exact .piece rfl (.gap (by decide) hrest)
      · have hrest : Says ((splitLines.go false [] cs).map .slice) cs := ih fun _ => rfl
        split
        next h => exact .piece rfl (.gap (isPySpace_of_break h) hrest)
        · have hline : Says ((splitLines.go false (line ++ [c]) cs).map .slice)
              (line ++ [c] ++ cs) := ih fun h => absurd h Bool.false_ne_true
          rwa [List.append_assoc] at hline

theorem splitLines_says (t : Text) : Says ((splitLines t).map .slice) t :=
  splitLines_go_says (fun _ => rfl) t

/-- Streaming, the pieces of prose tile all but the remainder. -/
theorem proseSentences_says (t : Text) (keep : Bool) :
    ∃ x, t = x ++ (proseSentences t keep).2 ∧ Says (proseSentences t keep).1 x := by
  obtain ⟨x, hx, hs⟩ := cutSentences_says t
  cases keep
  · refine ⟨t, (List.append_nil t).symm, ?_⟩
    have hrest : Says ((splitLines (cutSentences t).2).map .slice) (cutSentences t).2 :=
      splitLines_says _
    have := hs.append hrest
    rwa [← hx] at this
  · exact ⟨x, hx, hs⟩

/-! ## List items -/

/-- The segments are the lines, grouped. -/
theorem segments_flatten (u : Unicode) (cur : Option (Text × Bool)) (ls : List Text) :
    ((segments u cur ls).map (·.1)).flatten = (cur.toList.map (·.1)).flatten ++ ls.flatten := by
  induction ls generalizing cur with
  | nil => rw [List.flatten_nil, List.append_nil]; rfl
  | cons line ls ih =>
    unfold segments
    split
    · rw [List.map_append, List.flatten_append, ih]
      simp
    · cases cur with
      | none => rw [ih]; simp
      | some p =>
        obtain ⟨seg, item⟩ := p
        cases item
        · rw [ih]; simp
        · dsimp only
          split
          · rw [ih]; simp
          · rw [List.map_cons, List.flatten_cons, ih]; simp

/-- Each segment but the last is complete; streaming, the last keeps a remainder. -/
theorem emitSegments_says (keep : Bool) (segs : List (Text × Bool)) :
    ∃ x, (segs.map (·.1)).flatten = x ++ (emitSegments keep segs).2 ∧
      Says (emitSegments keep segs).1 x := by
  induction segs with
  | nil => exact ⟨[], rfl, .nil⟩
  | cons p rest ih =>
    obtain ⟨seg, item⟩ := p
    unfold emitSegments
    split
    next h =>
      rw [h.2, List.map_cons, List.map_nil, List.flatten_cons, List.flatten_nil, List.append_nil]
      cases item
      · exact proseSentences_says seg true
      · exact ⟨[], rfl, .nil⟩
    next =>
      obtain ⟨x, hx, hs⟩ := ih
      have hseg : Says (if item then [.slice (trimEnd seg)] else (proseSentences seg false).1)
          seg := by
        cases item
        · obtain ⟨y, hy, hp⟩ := proseSentences_says seg false
          rw [show (proseSentences seg false).2 = [] from rfl, List.append_nil] at hy
          exact hy ▸ hp
        · obtain ⟨e, he, hend⟩ := trimEnd_parts seg
          have hone : Says [.slice (trimEnd seg)] (trimEnd seg ++ e) := .one rfl he
          rw [← hend] at hone
          exact hone
      exact ⟨seg ++ x, by rw [List.map_cons, List.flatten_cons, hx, List.append_assoc],
        hseg.append hs⟩

theorem listSentences_says (u : Unicode) (t : Text) (keep : Bool) :
    ∃ x, t = x ++ (listSentences u t keep).2 ∧ Says (listSentences u t keep).1 x := by
  have h := emitSegments_says keep (segments u none (lines t))
  rwa [segments_flatten, lines_flatten] at h

/-- A complete text has no remainder. -/
theorem emitSegments_rest (segs : List (Text × Bool)) : (emitSegments false segs).2 = [] := by
  induction segs with
  | nil => rfl
  | cons p rest ih =>
    unfold emitSegments
    split
    next h => exact absurd h.1 Bool.false_ne_true
    next => exact ih

theorem listSentences_complete (u : Unicode) (t : Text) : Says (listSentences u t false).1 t := by
  obtain ⟨x, hx, hs⟩ := listSentences_says u t false
  rw [show (listSentences u t false).2 = [] from emitSegments_rest _, List.append_nil] at hx
  exact hx ▸ hs

/-! ## Tables -/

/-- A table that is found spells its rows. -/
theorem findFrom_spells {pre : Text} {ls : List Text} {t : Table}
    (h : Table.findFrom pre.length ls = some t) :
    ∃ a raw z, pre ++ ls.flatten = a ++ raw ++ z ∧ t.start = a.length ∧
      t.stop = (a ++ raw).length ∧ Table.Spells raw t.rows := by
  induction ls generalizing pre with
  | nil => cases h
  | cons head tail ih =>
    cases tail with
    | nil => cases h
    | cons sep rest =>
      unfold Table.findFrom at h
      dsimp only at h
      split at h
      next hc =>
        cases h
        simp only [Bool.and_eq_true, decide_eq_true_eq] at hc
        refine ⟨pre, head ++ sep ++ (rest.takeWhile Table.isRow).flatten,
          (rest.dropWhile Table.isRow).flatten, ?_, rfl, ?_,
          ⟨head, sep, _, rfl, hc.1.1, hc.1.2, hc.2, fun line hl => List.mem_takeWhile_imp hl,
            fun line _ => cells_tile line, rfl⟩⟩
        · have hbody : (rest.takeWhile Table.isRow).flatten ++
            (rest.dropWhile Table.isRow).flatten =
              rest.flatten := by rw [← List.flatten_append, List.takeWhile_append_dropWhile]
          simp only [List.flatten_cons, ← hbody, List.append_assoc]
        · simp only [List.length_append, Nat.add_assoc]
      next =>
        rw [← List.length_append] at h
        obtain ⟨a, raw, z, heq, hrest⟩ := ih h
        exact ⟨a, raw, z, by rw [← heq, List.append_assoc]; rfl, hrest⟩

/-- A table found stands in the text as it is spelled. -/
theorem find_spells {text : Text} {t : Table} (h : Table.find text = some t) :
    text = text.take t.start ++ (text.take t.stop).drop t.start ++ text.drop t.stop ∧
      Table.Spells ((text.take t.stop).drop t.start) t.rows := by
  obtain ⟨a, raw, z, heq, hstart, hstop, hs⟩ := @findFrom_spells [] _ _ h
  rw [lines_flatten, List.nil_append] at heq
  subst heq
  rw [hstart, hstop, List.take_left, List.drop_left, List.drop_left, List.append_assoc a raw z,
    List.take_left]
  exact ⟨(List.append_assoc _ _ _).symm, hs⟩

/-- Prose with tables says all of the text. -/
theorem withTables_says (u : Unicode) (n : Nat) (t : Text) (hn : t.length < n) :
    Says (withTables u n t) t := by
  induction n generalizing t with
  | zero => exact absurd hn (Nat.not_lt_zero _)
  | succ n ih =>
    unfold withTables
    cases hf : Table.find t with
    | none => exact listSentences_complete u t
    | some tb =>
      obtain ⟨heq, hs⟩ := find_spells hf
      obtain ⟨hlt, hle⟩ := Table.find_span hf
      have hrest : Says (withTables u n (t.drop tb.stop)) (t.drop tb.stop) :=
        ih _ (by rw [List.length_drop]; omega)
      dsimp only
      conv_rhs => rw [heq]
      rw [List.append_assoc]
      exact (listSentences_complete u _).append (.piece ⟨rfl, hs⟩ hrest)

/-- The pieces of a text tile all but the remainder. -/
theorem sentencesOf_says (u : Unicode) (t : Text) (keep : Bool) :
    ∃ x, t = x ++ (sentencesOf u t keep).2 ∧ Says (sentencesOf u t keep).1 x := by
  cases keep
  · exact ⟨t, (List.append_nil t).symm, withTables_says u _ t (Nat.lt_succ_self _)⟩
  · obtain ⟨x, hx, hs⟩ := listSentences_says u (t.take (Table.holdFrom t)) true
    refine ⟨x, ?_, hs⟩
    change t = x ++ ((listSentences u (t.take (Table.holdFrom t)) true).2 ++
      t.drop (Table.holdFrom t))
    rw [← List.append_assoc, ← hx, List.take_append_drop]

theorem sentencesOf_complete (u : Unicode) (t : Text) : Says (sentencesOf u t false).1 t :=
  withTables_says u _ t (Nat.lt_succ_self _)

/-! ## Paragraphs -/

/-- `t` is the paragraphs, a blank line behind each, and the text behind them. -/
inductive Parted : Text → List Text → Text → Prop
  | last (t : Text) : Parted t [] t
  | para {p s t : Text} {ps : List Text} {last : Text} :
    (∀ c ∈ s, isBlank c = true) → Parted t ps last →
    Parted (p ++ '\n' :: (s ++ '\n' :: t)) (p :: ps) last

/-- No blank line stands in `b`. -/
def Whole (b : Text) : Prop := ∀ s t, b = s ++ '\n' :: t → blankLine t = none

theorem Whole.nil : Whole [] := fun s t h => by
  cases s <;> cases h

/-- A blank line is blanks and a line break. -/
theorem blankLine_parts {t : Text} {n : Nat} (h : blankLine t = some n) :
    ∃ s, (∀ c ∈ s, isBlank c = true) ∧ t = s ++ '\n' :: t.drop n := by
  induction t generalizing n with
  | nil => cases h
  | cons c cs ih =>
    unfold blankLine at h
    split at h
    next hc =>
      cases h
      exact ⟨[], fun _ h => absurd h List.not_mem_nil, by rw [hc]; rfl⟩
    next =>
      split at h
      next hb =>
        obtain ⟨m, hm, rfl⟩ := Option.map_eq_some_iff.mp h
        obtain ⟨s, hs, heq⟩ := ih hm
        refine ⟨c :: s, ?_, ?_⟩
        · intro d hd
          rcases List.mem_cons.mp hd with rfl | hd
          · exact hb
          · exact hs d hd
        · rw [List.drop_succ_cons, List.cons_append, ← heq]
      next => cases h

theorem blankLine_blank {s : Text} (hs : ∀ c ∈ s, isBlank c = true) (t : Text) :
    blankLine (s ++ '\n' :: t) = some (s.length + 1) := by
  induction s with
  | nil => rfl
  | cons c s ih =>
    have hc : isBlank c = true := hs c List.mem_cons_self
    have hne : c ≠ '\n' := by
      rintro rfl
      exact absurd hc (by decide)
    rw [List.cons_append, blankLine, if_neg hne, if_pos hc,
      ih fun d hd => hs d (List.mem_cons_of_mem _ hd)]
    rfl

theorem splitPara_go_skip (n : Nat) (p t : Text) :
    splitPara.go n p t = splitPara.go 0 p (t.drop n) := by
  induction n generalizing t with
  | zero => rw [List.drop_zero]
  | succ n ih =>
    cases t with
    | nil => rfl
    | cons c cs => exact ih cs

/-- The scan with `p` behind it, in which no blank line has begun. -/
theorem splitPara_go_parted (p t : Text)
    (hp : ∀ s r, p = s ++ '\n' :: r → blankLine (r ++ t) = none) :
    Parted (p ++ t) (splitPara.go 0 p t).1 (splitPara.go 0 p t).2 ∧
      Whole (splitPara.go 0 p t).2 := by
  induction ht : t.length using Nat.strong_induction_on generalizing p t with
  | _ n ih =>
    subst ht
    cases t with
    | nil =>
      rw [List.append_nil]
      refine ⟨.last p, fun s r h => ?_⟩
      rw [← List.append_nil r]
      exact hp s r h
    | cons c cs =>
      -- A character that opens no blank line goes on the paragraph.
      have hgo (hc : c = '\n' → blankLine cs = none) :
          Parted (p ++ c :: cs) (splitPara.go 0 (p ++ [c]) cs).1
            (splitPara.go 0 (p ++ [c]) cs).2 ∧ Whole (splitPara.go 0 (p ++ [c]) cs).2 := by
        have hnext : ∀ s r, p ++ [c] = s ++ '\n' :: r → blankLine (r ++ cs) = none := by
          intro s r h
          rcases List.eq_nil_or_concat r with rfl | ⟨r', d, rfl⟩
          · exact hc (List.append_inj_right' h rfl |> List.cons.inj |>.1)
          · rw [List.concat_eq_append, ← List.cons_append, ← List.append_assoc] at h
            obtain ⟨hp', hd⟩ := List.append_inj' h rfl
            rw [List.concat_eq_append, List.append_assoc, ← hd]
            exact hp s r' hp'
        have := ih cs.length (Nat.lt_succ_self _) (p ++ [c]) cs hnext rfl
        rwa [List.append_assoc] at this
      unfold splitPara.go
      split
      next hc =>
        split
        next n hb =>
          obtain ⟨s, hs, heq⟩ := blankLine_parts hb
          have hlt : (cs.drop n).length < (c :: cs).length :=
            Nat.lt_succ_of_le (by rw [List.length_drop]; exact Nat.sub_le _ _)
          obtain ⟨hpart, hw⟩ := ih _ hlt [] (cs.drop n) (fun s r h => by cases s <;> cases h) rfl
          rw [splitPara_go_skip]
          refine ⟨?_, hw⟩
          have hpara := hpart.para (p := p) hs
          rw [List.nil_append, ← heq] at hpara
          rw [hc]
          exact hpara
        next hb => exact hgo fun _ => hb
      next hc => exact hgo fun h => absurd h hc

theorem splitPara_parted (t : Text) : Parted t (splitPara t).1 (splitPara t).2 :=
  (splitPara_go_parted [] t fun s r h => by cases s <;> cases h).1

/-- No blank line stands in the last paragraph. -/
theorem splitPara_whole (t : Text) : Whole (splitPara t).2 :=
  (splitPara_go_parted [] t fun s r h => by cases s <;> cases h).2

/-- A blank line that text behind `b` completes ends behind `b`. -/
theorem Whole.length_le {b t p s r : Text} (hb : Whole b) (hs : ∀ c ∈ s, isBlank c = true)
    (h : b ++ t = p ++ '\n' :: (s ++ '\n' :: r)) :
    b.length ≤ p.length + (s.length + 2) := by
  by_contra hlt
  -- Else it stands in `b`.
  have hpre : p ++ '\n' :: (s ++ ['\n']) <+: b := by
    refine List.prefix_of_prefix_length_le ⟨r, ?_⟩ (List.prefix_append b t) ?_
    · rw [h]
      simp
    · simp only [List.length_append, List.length_cons, List.length_nil]
      omega
  obtain ⟨z, hz⟩ := hpre
  have hblank : blankLine (s ++ '\n' :: z) = some (s.length + 1) := blankLine_blank hs z
  have hnone : blankLine (s ++ '\n' :: z) = none := hb p _ (by rw [← hz]; simp)
  rw [hblank] at hnone
  cases hnone

end Sonara.Prose
