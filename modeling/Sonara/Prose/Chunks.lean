import Sonara.Prose.Assembler

/-!
# The chunks of one item (`chunks.rs`)

A text is cut into runs of prose and marked code chunks. In send mode `sentences` every
sentence is a chunk (`splitChunks`); in send mode `message` the sentences of a run of prose
are packed (`packMessage`): filled up to the limit sentence by sentence, or paragraph by
paragraph where that needs no more chunks.

A text that starts with the `spoken` marker is in its spoken form and is only cut; any
other text goes through the assembler as one final delta.
-/

namespace Sonara.Chunks

open Sonara Text Prose

/-- `spoken_form`: `text` without the spoken-form marker, and whether it had it. -/
def spokenForm : Text → Bool × Text
  | [] => (false, [])
  | c :: rest => if c = CodeSpeech.spoken then (true, rest) else (false, c :: rest)

/-! ## Sentences and paragraphs -/

/-- A closing quote or bracket of spoken text. -/
def isQuote (c : Char) : Bool :=
  c ∈ [Char.ofNat 0x22, Char.ofNat 0x27, ')', ']', Char.ofNat 0x201D, Char.ofNat 0x2019]

/-- `.`, `!` or `?`. -/
def isStop (c : Char) : Bool := c ∈ ['.', '!', '?']

/-- A paragraph of spoken text, cut behind an end mark (and one closing quote or bracket)
before white space; `prev` is the character before `t`. -/
def cutSpoken (prev : Option Char) (cur : Text) : Text → List Text
  | [] => [cur]
  | c :: cs =>
    if (isStop c || (isQuote c && prev.any isStop)) && cs.head?.all isWhitespace then
      (cur ++ [c]) :: cutSpoken (some c) [] cs
    else cutSpoken (some c) (cur ++ [c]) cs

/-- `spoken_paragraphs`: the paragraphs of spoken text, each a list of its sentences. -/
def spokenParagraphs (u : Unicode) (text : Text) : List (List Text) :=
  let paras := splitPara text
  ((paras.1 ++ [paras.2]).map fun para =>
    ((cutSpoken none [] para).map fun s => join [' '] (words s)).filter
    (·.any u.isAlphanumeric)).filter
      (· ≠ [])

/-- The text of a chunk, if there is any. -/
def said : Chunk → Option Text
  | .text s => if trim s = [] then none else some s
  | .code summary _ _ => if trim summary = [] then none else some summary
  | .paragraphBreak => none

/-- `prose_chunks`: the sentences of a run of prose. -/
def proseChunks (s : Speech) (text : Text) : List Text :=
  if trim text = [] then [] else (({} : Assembler).feed s text 0 true).2.filterMap said

/-- The loop of `paragraphs`; `cur` is the paragraph so far. -/
def gather (cur : List Text) : List Chunk → List (List Text)
  | [] => if cur = [] then [] else [cur]
  | .paragraphBreak :: cs => if cur = [] then gather [] cs else cur :: gather [] cs
  | c :: cs => gather (cur ++ (said c).toList) cs

/-- `paragraphs`: the spoken paragraphs of a run of prose, each a list of its sentences. -/
def paragraphs (s : Speech) (text : Text) (spoken : Bool) : List (List Text) :=
  if spoken then spokenParagraphs s.toUnicode text
  else gather [] (({} : Assembler).feed s text 0 true).2

/-! ## Segments -/

/-- A run of prose, or one marked code chunk. -/
inductive Seg where
  | prose (t : Text)
  | code (t : Text)
  deriving DecidableEq, Repr

/-- `CODE_LINE` or `CODE_START`. -/
def isMarker (c : Char) : Bool := c = CodeSpeech.codeLine || c = CodeSpeech.codeStart

/-- The loop of `segments`, at most `n` rounds. -/
def segmentsLoop : (n : Nat) → Text → List Seg
  | 0, rest => [.prose rest]
  | n + 1, rest =>
    match rest.dropWhile (!isMarker ·) with
    | [] => [.prose rest]
    | marker :: body =>
      .prose (rest.takeWhile (!isMarker ·)) ::
        .code (trimEnd (marker :: body.takeWhile fun c => c ≠ '\n' && !isMarker c)) ::
          segmentsLoop n (body.dropWhile fun c => c ≠ '\n' && !isMarker c)

/-- `segments`: `text` cut into prose and marked code chunks; a round takes a marker off. -/
def segments (text : Text) : List Seg := segmentsLoop text.length text

/-- The chunk of a code segment, if it has any text. -/
def codeChunk (c : Text) : List Text := if trim (CodeSpeech.unmarked c) = [] then [] else [c]

/-- `split_chunks`: the sentences of `text`, and its code chunks. -/
def splitChunks (s : Speech) (text : Text) : List Text :=
  let form := spokenForm text
  (segments form.2).flatMap fun
    | .prose t => if form.1 then (spokenParagraphs s.toUnicode t).flatten else proseChunks s t
    | .code c => codeChunk c

/-! ## Packing -/

/-- The size of a text: UTF-8 bytes with `bytes`, characters without. -/
def size (bytes : Bool) (t : Text) : Nat := if bytes then (t.map Char.utf8Size).sum else t.length

/-- `s` behind the chunk `cur`; `start`: it starts a paragraph. -/
def joinTo (cur : Text) (start : Bool) (s : Text) : Text :=
  if cur = [] then s else if start then cur ++ ['\n', '\n'] ++ s else cur ++ [' '] ++ s

/-- The closure `pack`: fill each chunk up to the limit, sentence by sentence. -/
def packUnits (bytes : Bool) (max : Nat) (cur : Text) : List (Bool × Text) → List Text
  | [] => if cur = [] then [] else [cur]
  | (start, s) :: units =>
    let next := joinTo cur start s
    if cur ≠ [] ∧ max < size bytes next then cur :: packUnits bytes max s units
    else packUnits bytes max next units

/-- The loop over the paragraphs: a chunk ends only between paragraphs, except inside one
that does not fit in a chunk of its own. -/
def packParas (bytes : Bool) (max : Nat) (cur : Text) : List (List Text) → List Text
  | [] => if cur = [] then [] else [cur]
  | p :: ps =>
    let whole := join [' '] p
    let next := joinTo cur true whole
    if size bytes next ≤ max then packParas bytes max next ps
    else
      let done := if cur = [] then [] else [cur]
      if size bytes whole ≤ max then done ++ packParas bytes max whole ps
      else
        let parts := packUnits bytes max [] (p.map fun s => (false, s))
        done ++ parts.dropLast ++ packParas bytes max (parts.getLast?.getD []) ps

/-- Every sentence, with whether it starts a paragraph. -/
def units (paras : List (List Text)) : List (Bool × Text) :=
  paras.flatMap fun p => p.mapIdx fun i s => (i == 0, s)

/-- `pack_prose`. -/
def packProse (s : Speech) (text : Text) (max : Nat) (bytes spoken : Bool) : List Text :=
  let max := Nat.max max 1
  let paras := paragraphs s text spoken
  let fewest := packUnits bytes max [] (units paras)
  if fewest.length ≤ 1 then fewest
  else
    let byPara := packParas bytes max [] paras
    if byPara.length ≤ fewest.length then byPara else fewest

/-- `pack_message`: the chunks of `text` in send mode `message`. -/
def packMessage (s : Speech) (text : Text) (max : Nat) (bytes : Bool) : List Text :=
  let form := spokenForm text
  (segments form.2).flatMap fun
    | .prose t => if trim t = [] then [] else packProse s t max bytes form.1
    | .code c => codeChunk c

/-! ## What the functions give -/

/-! ## The sentences of a text -/

/-- A chunk that is said is not empty. -/
theorem said_ne_nil {c : Chunk} {t : Text} (h : said c = some t) : t ≠ [] := by
  rintro rfl
  unfold said at h
  split at h
  · split at h
    · cases h
    next hne =>
      obtain rfl := Option.some.inj h
      exact hne trim_nil
  · split at h
    · cases h
    next hne =>
      obtain rfl := Option.some.inj h
      exact hne trim_nil
  · cases h

/-- The paragraphs of the chunks: none is empty, and their sentences are what is said. -/
theorem gather_spec {cur : List Text} (hcur : ∀ t ∈ cur, t ≠ []) (cs : List Chunk) :
    (gather cur cs).flatten = cur ++ cs.filterMap said ∧
      ∀ p ∈ gather cur cs, p ≠ [] ∧ ∀ t ∈ p, t ≠ [] := by
  induction cs generalizing cur with
  | nil =>
    unfold gather
    split
    next hnil => exact ⟨by rw [hnil]; rfl, fun p hp => absurd hp List.not_mem_nil⟩
    next hne =>
      refine ⟨by rw [List.flatten_singleton]; exact (List.append_nil cur).symm, fun p hp => ?_⟩
      rw [List.mem_singleton.mp hp]
      exact ⟨hne, hcur⟩
  | cons c cs ih =>
    have hstep : gather cur (c :: cs) = gather (cur ++ (said c).toList) cs ∨
        (said c = none ∧ cur ≠ [] ∧ gather cur (c :: cs) = cur :: gather [] cs) := by
      cases c with
      | paragraphBreak =>
        have hbreak : gather cur (.paragraphBreak :: cs) =
          if cur = [] then gather [] cs else cur :: gather [] cs := rfl
        rw [hbreak]
        split
        next hnil => exact .inl (by rw [hnil]; rfl)
        next hne => exact .inr ⟨rfl, hne, rfl⟩
      | text t => exact .inl rfl
      | code summary lines stop => exact .inl rfl
    rcases hstep with hgoes | ⟨hnone, hne, hbreaks⟩
    · obtain ⟨hflat, hall⟩ := @ih (cur ++ (said c).toList) fun t ht =>
        (List.mem_append.mp ht).elim (hcur t) fun h => said_ne_nil (Option.mem_toList.mp h)
      rw [hgoes, hflat, List.filterMap_cons, List.append_assoc]
      refine ⟨?_, hall⟩
      cases said c <;> rfl
    · obtain ⟨hflat, hall⟩ := @ih [] (fun t ht => absurd ht List.not_mem_nil)
      rw [hbreaks, List.flatten_cons, hflat, List.filterMap_cons, hnone]
      refine ⟨rfl, fun p hp => ?_⟩
      rcases List.mem_cons.mp hp with rfl | hp
      · exact ⟨hne, hcur⟩
      · exact hall p hp

/-- No paragraph is empty, and no piece of one. -/
theorem paragraphs_spec (s : Speech) (text : Text) (spoken : Bool) :
    ∀ p ∈ paragraphs s text spoken, p ≠ [] ∧ ∀ t ∈ p, t ≠ [] := by
  unfold paragraphs
  split
  · intro p hp
    unfold spokenParagraphs at hp
    obtain ⟨hmem, hne⟩ := List.mem_filter.mp hp
    refine ⟨by simpa using hne, fun t ht hnil => ?_⟩
    obtain ⟨para, -, rfl⟩ := List.mem_map.mp hmem
    have := (List.mem_filter.mp ht).2
    rw [hnil] at this
    cases this
  · exact (gather_spec (fun t ht => absurd ht List.not_mem_nil) _).2

theorem isWhitespace_of_trim {t : Text} (h : trim t = []) : ∀ c ∈ t, isWhitespace c = true := by
  unfold trim trimEnd trimStart at h
  rw [List.rdropWhile_eq_nil_iff] at h
  have hnil : t.dropWhile isWhitespace = [] := by
    cases hd : t.dropWhile isWhitespace with
    | nil => rfl
    | cons c cs =>
      have hne : t.dropWhile isWhitespace ≠ [] := hd ▸ List.cons_ne_nil c cs
      have hno := List.head_dropWhile_not isWhitespace hne
      exact absurd (h _ (List.head_mem hne)) (by simpa using hno)
  exact List.dropWhile_eq_nil_iff.mp hnil

/-- A blank text has no words. -/
theorem words_blank {t : Text} (h : ∀ c ∈ t, isWhitespace c = true) : words t = [] := by
  unfold words
  refine List.filter_eq_nil_iff.mpr fun w hw => ?_
  have hall : ∀ w ∈ t.splitOnP isWhitespace, w = [] := by
    clear hw
    induction t with
    | nil => simp
    | cons c cs ih =>
      intro w hw
      rw [List.splitOnP_cons_eq_if_modifyHead, if_pos (h c List.mem_cons_self)] at hw
      rcases List.mem_cons.mp hw with rfl | hw
      · rfl
      · exact ih (fun d hd => h d (List.mem_cons_of_mem c hd)) w hw
  simp [hall w hw]

/-- A character of a cut piece is one of the text. -/
theorem mem_cutSpoken {prev : Option Char} {cur t s : Text}
    (h : s ∈ cutSpoken prev cur t) {c : Char} (hc : c ∈ s) : c ∈ cur ∨ c ∈ t := by
  induction t generalizing prev cur with
  | nil => exact .inl (List.mem_singleton.mp h ▸ hc)
  | cons d ds ih =>
    have hpush : c ∈ cur ++ [d] → c ∈ cur ∨ c ∈ d :: ds := by
      intro hmem
      rcases List.mem_append.mp hmem with hmem | hmem
      · exact .inl hmem
      · exact .inr (List.mem_singleton.mp hmem ▸ List.mem_cons_self)
    unfold cutSpoken at h
    split at h
    · rcases List.mem_cons.mp h with rfl | h
      · exact hpush hc
      · exact (ih h).elim (fun hnil => absurd hnil List.not_mem_nil) fun hmem =>
          .inr (List.mem_cons_of_mem d hmem)
    · exact (ih h).elim hpush fun hmem => .inr (List.mem_cons_of_mem d hmem)

/-- A character of a paragraph is one of the text. -/
theorem mem_splitPara {n : Nat} {para t p : Text}
    (h : p ∈ (splitPara.go n para t).1 ++ [(splitPara.go n para t).2]) {c : Char} (hc : c ∈ p) :
    c ∈ para ∨ c ∈ t := by
  induction t generalizing n para with
  | nil =>
    cases n <;> exact .inl ((List.mem_singleton.mp h : p = para) ▸ hc)
  | cons d ds ih =>
    have hpush : c ∈ para ++ [d] ∨ c ∈ ds → c ∈ para ∨ c ∈ d :: ds := by
      simp only [List.mem_append, List.mem_cons, List.not_mem_nil, or_false]
      rintro ((hmem | hmem) | hmem)
      · exact .inl hmem
      · exact .inr (.inl hmem)
      · exact .inr (.inr hmem)
    cases n with
    | succ n => exact (ih h).imp_right (List.mem_cons_of_mem d)
    | zero =>
      unfold splitPara.go at h
      split at h
      · split at h
        · rcases List.mem_cons.mp h with rfl | h
          · exact .inl hc
          · exact (ih h).elim (fun hnil => absurd hnil List.not_mem_nil) fun hmem =>
              .inr (List.mem_cons_of_mem d hmem)
        · exact hpush (ih h)
      · exact hpush (ih h)

/-- Blank text in its spoken form has no sentence. -/
theorem spokenParagraphs_blank (u : Unicode) {t : Text} (h : trim t = []) :
    spokenParagraphs u t = [] := by
  have hblank := isWhitespace_of_trim h
  unfold spokenParagraphs
  refine List.filter_eq_nil_iff.mpr fun p hp => ?_
  obtain ⟨para, hpara, rfl⟩ := List.mem_map.mp hp
  have hempty : ((cutSpoken none [] para).map fun s => join [' '] (words s)).filter
      (·.any u.isAlphanumeric) = [] := by
    refine List.filter_eq_nil_iff.mpr fun s hs => ?_
    obtain ⟨w, hw, rfl⟩ := List.mem_map.mp hs
    rw [words_blank fun c hc => ?_]
    · exact Bool.false_ne_true
    · have hcp := (mem_cutSpoken hw hc).resolve_left List.not_mem_nil
      exact hblank c ((mem_splitPara hpara hcp).resolve_left List.not_mem_nil)
  simp [hempty]

end Sonara.Chunks
