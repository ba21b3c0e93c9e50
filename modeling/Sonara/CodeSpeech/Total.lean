import Sonara.CodeSpeech.Tokens

/-!
# Code speech ends and slices well

Every index the loop holds stands between two characters: each scanner returns the offset of a
character it found, or of the end, behind the place where it started, and each fixed skip is
over text that was matched before. So no slice fails, and a turn of the loop moves the index
(`step_returns`). What a turn hands on to another call is part of a string or of a tag, shorter
than the line by its quotes or its brackets at least: a callee needs to answer for shorter texts
only (`Shorter`), and the levels of calls are no more than the bytes of the line.
-/

namespace Sonara.CodeSpeech

open Lib

variable {κ : Type} {C : κ → Prop} {u : CharTables} {s t : Text} {i : Nat}

/-! ## Scanners -/

/-- A closing quote that is found is in the text, at that byte. -/
theorem closing_some {quote : Char} {escaped : Bool} {j : Nat}
    (h : closing quote escaped t = some j) :
    ∃ m r, t = m ++ quote :: r ∧ bytes m = j := by
  induction t generalizing escaped j with
  | nil => cases h
  | cons c t ih =>
    have hnext : ∀ escaped, (closing quote escaped t).map (c.utf8Size + ·) = some j →
        ∃ m r, c :: t = m ++ quote :: r ∧ bytes m = j := by
      intro escaped h
      obtain ⟨j', hj, rfl⟩ := Option.map_eq_some_iff.mp h
      obtain ⟨m, r, rfl, rfl⟩ := ih hj
      exact ⟨c :: m, r, rfl, bytes_cons c m⟩
    unfold closing at h
    split at h
    · exact hnext _ h
    · split at h
      · exact hnext _ h
      · split at h
        next hc =>
          cases h
          exact ⟨[], t, by rw [hc]; rfl, rfl⟩
        · exact hnext _ h

/-- A tag's end that is found is a `>` of the text, at that byte. -/
theorem closingTag_some {depth : Nat} {quote : Option Char} {j : Nat}
    (h : closingTag depth quote t = some j) : ∃ m r, t = m ++ '>' :: r ∧ bytes m = j := by
  induction t generalizing depth quote j with
  | nil => cases h
  | cons c t ih =>
    have hnext : ∀ depth quote, (closingTag depth quote t).map (c.utf8Size + ·) = some j →
        ∃ m r, c :: t = m ++ '>' :: r ∧ bytes m = j := by
      intro depth quote h
      obtain ⟨j', hj, rfl⟩ := Option.map_eq_some_iff.mp h
      obtain ⟨m, r, rfl, rfl⟩ := ih hj
      exact ⟨c :: m, r, rfl, bytes_cons c m⟩
    unfold closingTag at h
    cases quote with
    | some q => exact hnext _ _ h
    | none =>
      dsimp only at h
      split at h
      · exact hnext _ _ h
      · split at h
        · exact hnext _ _ h
        · split at h
          · exact hnext _ _ h
          · split at h
            next hc =>
              cases h
              exact ⟨[], t, by rw [hc.1]; rfl, rfl⟩
            · exact hnext _ _ h

theorem tagCanStart_returns (h : Rest s i t) :
    Returns C (fun _ => tagCanStart u s i) fun _ => True := by
  obtain ⟨k, hk, -⟩ := h.take
  exact .step hk (.pure trivial)

theorem opensTag_returns {c : Char} (h : Rest s i (c :: t)) :
    Returns C (fun _ => opensTag u s i c) fun _ => True := by
  refine .ite (fun hc => ?_) fun _ => .pure trivial
  subst hc
  refine (tagCanStart_returns h).bind fun b _ => .ite (fun _ => ?_) fun _ => .pure trivial
  exact .step (@Rest.tail s t ['<'] i h).drop (.pure trivial)

theorem looksLikeMarkup_returns (code : Text) :
    Returns C (fun _ => looksLikeMarkup u code) fun _ => True := by
  have hf : ∀ m c r, code = m ++ c :: r → ∃ b, opensTag u code (bytes m) c = some b := by
    intro m c r hm
    obtain ⟨b, -, hb⟩ := @opensTag_returns Unit (fun _ => True) u code r (bytes m) c ⟨m, hm, rfl⟩
    exact ⟨b, hb () trivial⟩
  obtain ⟨o, -, -, ho, -⟩ := @search_end code (fun _ i c => opensTag u code i c) hf
  exact .step ho (.pure trivial)

theorem modeOf_returns (lang : String) (code : Text) (inl : Bool) :
    Returns C (fun _ => Mode.of u lang code inl) fun _ => True := by
  unfold Mode.of
  dsimp only
  refine .ite (fun _ => .step rfl (.pure trivial)) fun _ => .ite (fun _ => ?_) fun _ =>
    .step rfl (.pure trivial)
  exact (looksLikeMarkup_returns code).bind fun markup _ => .pure trivial

theorem stringEnd_returns {quote : Char} (h : Rest s i (quote :: t)) :
    Returns C (fun _ => stringEnd s i quote) fun o => ∀ j, o = some j →
      ∃ m r, t = m ++ quote :: r ∧ j = i + quote.utf8Size + bytes m := by
  refine .step h.char.drop (.pure fun j hj => ?_)
  obtain ⟨e, he, rfl⟩ := Option.map_eq_some_iff.mp hj
  obtain ⟨m, r, hm, rfl⟩ := closing_some he
  exact ⟨m, r, hm, rfl⟩

theorem tagEnd_returns (h : Rest s i t) :
    Returns C (fun _ => tagEnd s i) fun o => ∀ j, o = some j →
      ∃ m r, t = m ++ '>' :: r ∧ j = i + bytes m := by
  refine .step h.drop (.pure fun j hj => ?_)
  obtain ⟨e, he, rfl⟩ := Option.map_eq_some_iff.mp hj
  obtain ⟨m, r, hm, rfl⟩ := closingTag_some he
  exact ⟨m, r, hm, rfl⟩

/-- The place of a character behind `i`, or the end of the text. -/
theorem findChar_place (h : Rest s i t) (p : Char → Bool) :
    ∃ m r, t = m ++ r ∧ (findChar p t).elim (bytes s) (i + ·) = i + bytes m := by
  obtain ⟨m, r, hm, hend, -⟩ := findChar_end p t
  refine ⟨m, r, hm, ?_⟩
  rw [← hend, ← h.length]
  cases findChar p t <;> rfl

theorem nameEnd_returns (h : Rest s i t) :
    Returns C (fun _ => nameEnd u s i) fun j => ∃ m r, t = m ++ r ∧ j = i + bytes m :=
  .step h.drop (.pure (findChar_place h _))

/-- `j` stands between two characters, and not in front of `i`. -/
def Reaches (s : Text) (i j : Nat) : Prop := i ≤ j ∧ ∃ t, Rest s j t

theorem content_returns (h : Rest s i t) (p : Parts) :
    Returns C (fun _ => content u s i p) fun r => Reaches s i r.1 := by
  have hlen := h.length
  unfold content
  rw [Nat.min_eq_left (by omega)]
  obtain ⟨m, r, rfl, hstop⟩ := findChar_place h fun c => c == '<' || c == '\x7b'
  refine .step h.drop ?_
  dsimp only
  rw [hstop]
  refine .step h.slice (.ite (fun _ => .pure ⟨?_, _, h.tail⟩) fun _ => .pure ⟨Nat.le_refl i, _, h⟩)
  exact Nat.le_add_right _ _

/-! ## Calls for shorter texts -/

variable {n : Nat} {f : Text → Mode → Parts → Parts}

/-- The callee answers for the texts shorter than `n` bytes, with `f`. -/
def Shorter (n : Nat) (f : Text → Mode → Parts → Parts) (call : Call) : Prop :=
  ∀ t mode p, bytes t < n → call t mode p = some (f t mode p)

theorem call_returns {mode : Mode} {p : Parts} (h : bytes t < n) :
    Returns (Shorter n f) (fun call => call t mode p) fun _ => True :=
  ⟨f t mode p, trivial, fun _ hcall => hcall t mode p h⟩

theorem bytes_trim (t : Text) : bytes (Text.trim t) ≤ bytes t := by
  have hstart : bytes (Text.trimStart t) ≤ bytes t := bytes_le_of_back (List.dropWhile_suffix _)
  have hend : bytes (Text.trim t) ≤ bytes (Text.trimStart t) :=
    bytes_le_of_front (List.rdropWhile_prefix _ _)
  omega

theorem inline_returns {code : Text} (h : bytes code < n) :
    Returns (Shorter n f) (fun call => inline u call code) fun _ => True := by
  have htrim := bytes_trim code
  refine .ite (fun _ => .pure trivial) fun _ => ?_
  refine (modeOf_returns "" _ true).bind fun mode _ => ?_
  exact (call_returns (by omega)).bind fun p _ => .pure trivial

/-- A template's pieces are all shorter than the text, so the recursion on them returns. -/
theorem templateFrom_returns (fuel : Nat) {rest : Text} (out : Text) (hfuel : bytes rest < fuel)
    (h : bytes rest < n) :
    Returns (Shorter n f) (fun call => templateFrom u call fuel rest out) fun _ => True := by
  induction fuel generalizing rest out with
  | zero => omega
  | succ fuel ih =>
    unfold templateFrom
    cases hfind : find ['$', '\x7b'] rest with
    | none => exact .pure trivial
    | some hole =>
      obtain ⟨m, after, rfl, rfl⟩ := find_some hfind
      have hlen : bytes (m ++ (['$', '\x7b'] ++ after)) = bytes m + (2 + bytes after) := by
        rw [bytes_append, bytes_append]
        rfl
      rw [hlen] at hfuel h
      have hafter : Rest (m ++ (['$', '\x7b'] ++ after)) (bytes m + 2) after :=
        Rest.tail (m := ['$', '\x7b']) ⟨m, rfl, rfl⟩
      obtain ⟨code, behind, hcode, hclose⟩ := find_end ['\x7d'] after
      have hle : bytes code ≤ bytes after := bytes_le_of_front ⟨behind, hcode.symm⟩
      have hrest : bytes ((dropBytes after (bytes code + 1)).getD []) ≤ bytes after := by
        cases hdrop : dropBytes after (bytes code + 1) with
        | none => exact Nat.zero_le _
        | some r =>
          have := (rest_of_drop hdrop).length
          rw [Option.getD_some]
          omega
      refine .step (takeBytes_append m _) (.step hafter.drop ?_)
      dsimp only
      rw [hclose]
      refine .step (hcode ▸ takeBytes_append code behind) ?_
      exact (inline_returns (by omega)).bind fun spoken _ => ih _ (by omega) (by omega)

theorem template_returns {text : Text} (h : bytes text < n) :
    Returns (Shorter n f) (fun call => template u call text) fun _ => True :=
  templateFrom_returns _ _ (Nat.lt_succ_self _) h

/-! ## Markup -/

variable {p : Parts}

/-- An opening tag is read to a place past the `<`. -/
theorem openTag_returns (h : Rest s i ('<' :: t)) :
    Returns (Shorter (bytes s) f) (fun call => openTag u call s i p) fun r => Reaches s
    (i + 1) r.1 := by
  have hlen := h.length
  rw [bytes_cons] at hlen
  have hname : Rest s (i + 1) t := Rest.tail (m := ['<']) h
  refine (nameEnd_returns hname).bind ?_
  rintro _ ⟨name, t, rfl, rfl⟩
  have hstop := hname.tail
  refine .step hname.slice ((tagEnd_returns hstop).bind fun o ho => ?_)
  cases o with
  | none => exact .pure ⟨Nat.le_add_right _ _, t, hstop⟩
  | some close =>
    obtain ⟨inner, r, rfl, rfl⟩ := ho close rfl
    have hclose : Rest s (i + 1 + bytes name + bytes inner + 1) r :=
      Rest.tail (m := ['>']) hstop.tail
    refine .step hstop.slice ?_
    have hattrs : bytes ((Text.trimEnd inner).rdropWhile (· == '/')) ≤ bytes inner :=
      (bytes_le_of_front (List.rdropWhile_prefix _ _)).trans
        (bytes_le_of_front (List.rdropWhile_prefix _ _))
    have hshort : bytes inner < bytes s := by
      rw [bytes_append, bytes_append] at hlen
      have : ('<').utf8Size = 1 := rfl
      omega
    refine (call_returns (by omega)).bind fun p _ => ?_
    refine (content_returns hclose _).imp fun r hr => ⟨?_, hr.2⟩
    have := hr.1
    omega

/-- A closing tag is read to a place past the `<`. -/
theorem closeTag_returns (h : Rest s i (['<', '/'] ++ t)) :
    Returns C (fun _ => closeTag u s i p) fun r => Reaches s (i + 1) r.1 := by
  have hname : Rest s (i + 2) t := h.tail
  refine (nameEnd_returns hname).bind ?_
  rintro _ ⟨name, t, rfl, rfl⟩
  have hstop := hname.tail
  have hclose : ∃ r, Rest s ((find ['>'] t).elim (bytes s) fun e => i + 2 + bytes name + e + 1) r ∧
      i + 1 ≤ (find ['>'] t).elim (bytes s) fun e => i + 2 + bytes name + e + 1 := by
    have hlen := hstop.length
    cases hfind : find ['>'] t with
    | none => exact ⟨[], .end s, show i + 1 ≤ bytes s by omega⟩
    | some e =>
      obtain ⟨m, r, rfl, rfl⟩ := find_some hfind
      exact ⟨r, Rest.tail (m := ['>']) hstop.tail,
        show i + 1 ≤ i + 2 + bytes name + bytes m + 1 by omega⟩
  obtain ⟨r, hr, hle⟩ := hclose
  refine .step hname.slice (.step hstop.drop ?_)
  exact (content_returns hr _).imp fun q hq => ⟨hle.trans hq.1, hq.2⟩

theorem stripStart_head {sub : Text} {q : Char → Bool}
    (h : ((stripStart sub t).bind List.head?).any q = true) : ∃ r, t = sub ++ r := by
  cases hs : stripStart sub t with
  | none =>
    rw [hs] at h
    cases h
  | some r => exact ⟨r, stripStart_some hs⟩

/-- Markup that is recognised is read to a place past its first character. -/
theorem markup_returns (h : Rest s i t) :
    Returns (Shorter (bytes s) f) (fun call => markup u call s i p) fun o =>
      ∀ r, o = some r → Reaches s (i + 1) r.1 := by
  have hskip : ∀ (m : Text) p, m.isPrefixOf t = true → 1 ≤ bytes m →
      Returns (Shorter (bytes s) f) (fun _ => content u s (i + bytes m) p) fun r =>
        Reaches s (i + 1) r.1 := by
    intro m p hm hpos
    obtain ⟨r, rfl⟩ := List.isPrefixOf_iff_prefix.mp hm
    refine (content_returns h.tail p).imp fun r hr => ⟨?_, hr.2⟩
    have := hr.1
    omega
  refine .step h.drop ?_
  cases hs : stripStart ['<', '!', '-', '-'] t with
  | some after =>
    have ht := stripStart_some hs
    subst ht
    refine .pure fun r hr => ?_
    cases hr
    have hlen : bytes (['<', '!', '-', '-'] ++ after) = 4 + bytes after := bytes_append _ _
    cases hfind : find ['-', '-', '>'] after with
    | none =>
      refine ⟨?_, [], ?_⟩
      · rw [Option.elim_none, Nat.min_self, hlen]
        omega
      · rw [Option.elim_none, Nat.min_self, h.length]
        exact .end s
    | some e =>
      obtain ⟨m, r, rfl, rfl⟩ := find_some hfind
      have hm : bytes (m ++ (['-', '-', '>'] ++ r)) = bytes m + (3 + bytes r) := by
        rw [bytes_append, bytes_append]
        rfl
      rw [Option.elim_some, Nat.min_eq_left (by omega)]
      refine ⟨by omega, r, ?_⟩
      have : Rest s (i + 4 + bytes m + 3) r :=
        Rest.tail (m := ['-', '-', '>']) (Rest.tail (m := ['<', '!', '-', '-']) h).tail
      convert this using 1
      omega
  | none =>
    dsimp only
    refine .ite (fun hm => ?_) fun _ => .ite (fun hm => ?_) fun _ => .ite (fun hm => ?_) fun _ => ?_
    · exact (hskip _ _ hm (by decide)).bind fun r hr => .pure fun _ h => Option.some.inj h ▸ hr
    · exact (hskip _ _ hm (by decide)).bind fun r hr => .pure fun _ h => Option.some.inj h ▸ hr
    · exact (hskip _ _ hm (by decide)).bind fun r hr => .pure fun _ h => Option.some.inj h ▸ hr
    · refine (tagCanStart_returns h).bind fun b _ => .ite (fun _ => ?_) fun _ =>
        .pure fun _ h => nomatch h
      refine .ite (fun hm => ?_) fun _ => .ite (fun hm => ?_) fun _ => .pure fun _ h => nomatch h
      · obtain ⟨r, rfl⟩ := stripStart_head hm
        exact (closeTag_returns h).bind fun r hr => .pure fun _ h => Option.some.inj h ▸ hr
      · obtain ⟨r, rfl⟩ := stripStart_head hm
        exact (openTag_returns h).bind fun r hr => .pure fun _ h => Option.some.inj h ▸ hr

/-! ## One turn -/

/-- The turn ends the loop, or leaves the index between two characters behind `i`. -/
def Turn.Moves (s : Text) (i : Nat) : Turn → Prop
  | .stop _ => True
  | .next st => Reaches s (i + 1) st.i

variable {mode : Mode} {wasWord : Bool} {c : Char} {st : Scan}

/-- What a branch of the turn does, when the turn is its. -/
abbrev Moved (s : Text) (i : Nat) (o : Option Turn) : Prop := ∀ t, o = some t → t.Moves s i

theorem Moved.none : Moved s i none := fun _ h => nomatch h

theorem Moved.next (h : Reaches s (i + 1) st.i) : Moved s i (some (.next st)) := by
  rintro _ ⟨⟩
  exact h

/-- Behind a matched text that is not empty. -/
theorem Reaches.skip {m : Text} (h : Rest s i (m ++ t)) (hm : m ≠ []) :
    Reaches s (i + 1) (i + bytes m) := by
  have := bytes_pos hm
  exact ⟨by omega, t, h.tail⟩

/-- Behind the character at the index. -/
theorem Reaches.char {c : Char} (h : Rest s i (c :: t)) : Reaches s (i + 1) (i + c.utf8Size) := by
  have hpos := c.utf8Size_pos
  exact ⟨by omega, t, h.char⟩

theorem braceOpens_returns (h : Reaches s (i + 1) st.i) :
    Returns C (fun _ => braceOpens s st) (Turn.Moves s i) := by
  obtain ⟨t, ht⟩ := h.2
  refine .step ht.drop (.pure ?_)
  split
  · exact h
  · exact h

/-- A block comment moves the scan on, also when it is not closed. -/
theorem blockComment_returns (h : Rest s st.i t) :
    Returns C (fun _ => blockComment mode t st) (Moved s st.i) := by
  unfold blockComment
  cases hbody : if mode.blockComment then stripStart ['/', '*'] t else none with
  | none => exact .pure .none
  | some body =>
    have ht : t = ['/', '*'] ++ body := by
      split at hbody
      · exact stripStart_some hbody
      · cases hbody
    subst ht
    dsimp only
    cases hfind : find ['*', '/'] body with
    | none =>
      refine .step rfl (.pure (.next ?_))
      have := Reaches.skip (t := []) (by rwa [List.append_nil]) (List.cons_ne_nil '/' ('*' :: body))
      exact this
    | some e =>
      obtain ⟨m, r, rfl, rfl⟩ := find_some hfind
      refine .step (b := (m, bytes m + 4)) (by rw [takeBytes_append]; rfl)
        (.pure (.next ⟨?_, r, ?_⟩))
      · dsimp only
        omega
      · have : Rest s (st.i + 2 + bytes m + 2) r :=
          Rest.tail (m := ['*', '/']) (Rest.tail (m := ['/', '*']) h).tail
        convert this using 1
        dsimp only
        omega

theorem markupTurn_returns (h : Rest s st.i t) :
    Returns (Shorter (bytes s) f) (fun call => markupTurn u call s mode st) (Moved s st.i) := by
  refine .ite (fun _ => ?_) fun _ => .pure .none
  refine (markup_returns h).bind fun o ho => ?_
  cases o with
  | none => exact .pure .none
  | some r =>
    exact (braceOpens_returns (i := st.i) (ho r rfl)).bind fun t ht => .pure fun _ h =>
      Option.some.inj h ▸ ht

theorem jsxClose_returns (h : Rest s st.i (c :: t)) :
    Returns C (fun _ => jsxClose u s c st) (Moved s st.i) := by
  refine .ite (fun hc => ?_) fun _ => .pure .none
  obtain ⟨-, hc⟩ := Bool.and_eq_true_iff.mp hc
  obtain rfl := eq_of_beq hc
  have hnext : Rest s (st.i + 1) t := Rest.tail (m := ['\x7d']) h
  refine (content_returns hnext _).bind fun r hr => ?_
  exact (braceOpens_returns (i := st.i) hr).bind fun t ht => .pure fun _ h => Option.some.inj h ▸ ht

/-- A lifetime moves the scan past its quote and its name. -/
theorem lifetime_returns (h : Rest s st.i (c :: t)) :
    Returns C (fun _ => lifetime u mode c (c :: t) st) (Moved s st.i) := by
  refine .ite (fun hc => ?_) fun _ => .pure .none
  obtain ⟨-, hc⟩ := Bool.and_eq_true_iff.mp hc
  obtain rfl := eq_of_beq hc
  have hnext : Rest s (st.i + 1) t := Rest.tail (m := ['\'']) h
  have hafter : dropBytes ('\'' :: t) 1 = some t := dropBytes_append ['\''] t
  obtain ⟨m, r, rfl, hstop, -⟩ := findChar_end (fun c => !isWordChar u c) t
  refine .step hafter ?_
  dsimp only
  rw [hstop]
  refine .ite (fun hpos => ?_) fun _ => .pure .none
  refine .step (dropBytes_append m r) (.ite (fun _ => .pure .none) fun _ => ?_)
  refine .step (takeBytes_append m r) (.pure (.next ⟨?_, r, ?_⟩))
  · dsimp only
    omega
  · have := hnext.tail
    rwa [Nat.add_assoc] at this

/-- What opens a string is one byte long. -/
theorem opensString_returns (h : Rest s i t) :
    Returns C (fun _ => opensString u s c i) fun b => b = true → c.utf8Size = 1 := by
  have hquote : ∀ b, ((c == '"' || c == '\'' || c == '\x60') && b) = true → c.utf8Size = 1 := by
    intro b hb
    obtain ⟨hb, -⟩ := Bool.and_eq_true_iff.mp hb
    rcases Bool.or_eq_true_iff.mp hb with hb | hb
    · rcases Bool.or_eq_true_iff.mp hb with hb | hb
      · exact eq_of_beq hb ▸ rfl
      · exact eq_of_beq hb ▸ rfl
    · exact eq_of_beq hb ▸ rfl
  obtain ⟨k, hk, -⟩ := h.take
  unfold opensString
  rw [hk]
  refine .ite (fun _ => .step rfl (.pure (hquote _))) fun _ => .step rfl (.pure (hquote _))

/-- A string moves the scan past its quote at least. -/
theorem quoted_returns (h : Rest s st.i (c :: t)) :
    Returns (Shorter (bytes s) f) (fun call => quoted u call s c st) (Moved s st.i) := by
  have hlen := h.length
  refine (opensString_returns h).bind fun b hb => .ite (fun hopen => ?_) fun _ => .pure .none
  have hone := hb hopen
  rw [bytes_cons, hone] at hlen
  refine (stringEnd_returns h).bind fun o ho => ?_
  cases o with
  | none => exact .pure .none
  | some stop =>
    obtain ⟨text, r, rfl, rfl⟩ := ho stop rfl
    rw [hone]
    have htext : Rest s (st.i + 1) (text ++ c :: r) := hone ▸ h.char
    have hnext : Rest s (st.i + 1 + bytes text + 1) r := by
      have hchar := htext.tail.char
      rwa [hone] at hchar
    have hshort : bytes text < bytes s := by
      rw [bytes_append] at hlen
      omega
    have hdone : ∀ p, Moved s st.i
        (some (.next { st with i := st.i + 1 + bytes text + 1, parts := p })) :=
      fun p => .next ⟨show st.i + 1 ≤ st.i + 1 + bytes text + 1 by omega, r, hnext⟩
    refine .step htext.slice (.ite (fun _ => ?_) fun _ => .step rfl (.pure (hdone _)))
    refine .bind (Q := fun _ => True) ?_ fun spoken _ => .pure (hdone _)
    exact (template_returns hshort).map fun _ _ => trivial

/-- A flag moves the scan past its dashes. -/
theorem flag_returns (h : Rest s st.i (c :: t)) :
    Returns C (fun _ => flag u mode wasWord c (c :: t) st) (Moved s st.i) := by
  refine .ite (fun hc => ?_) fun _ => .pure .none
  obtain ⟨-, hc⟩ := Bool.and_eq_true_iff.mp hc
  obtain ⟨m, hm⟩ : ∃ m, (c :: t).takeWhile (· == '-') = m := ⟨_, rfl⟩
  obtain ⟨behind, hbehind⟩ : ∃ b, (c :: t).dropWhile (· == '-') = b := ⟨_, rfl⟩
  have hdashes := bytes_takeWhile (· == '-') (c :: t)
  have hsplit : c :: t = m ++ behind := by rw [← hm, ← hbehind, List.takeWhile_append_dropWhile]
  have hne : m ≠ [] := by
    rw [← hm, List.takeWhile_cons, if_pos hc]
    exact List.cons_ne_nil _ _
  dsimp only
  rw [← hdashes, hm, hsplit]
  refine .step (dropBytes_append m behind) (.ite (fun _ => ?_) fun _ => .pure .none)
  have hrest : Rest (m ++ behind) (bytes m) behind := ⟨m, rfl, rfl⟩
  obtain ⟨flagName, r, rfl, hstop⟩ := findChar_place hrest fun c =>
    !(u.isAlphanumeric c || c == '-' || c == '_')
  rw [hstop]
  rw [hsplit, ← List.append_assoc] at h
  refine .step hrest.slice (.pure (.next ?_))
  have := Reaches.skip h (List.append_ne_nil_of_left_ne_nil hne flagName)
  rwa [bytes_append] at this

/-- The text up to where a test holds, taken as one word. -/
theorem word_returns {test : Nat → Nat → Char → Option Bool} (h : Rest s st.i (c :: t))
    (say : Text → Parts)
    (htest : ∀ m d r, c :: t = m ++ d :: r → ∃ b, test m.length (bytes m) d = some b)
    (hfirst : test 0 0 c = some false) :
    Returns C (fun _ => search test 0 0 (c :: t) >>= fun o =>
      takeBytes (c :: t) (o.getD (bytes (c :: t))) >>= fun w =>
        some (some (.next { st with i := st.i + o.getD (bytes (c :: t)), parts := say w })))
        (Moved s st.i) := by
  obtain ⟨o, m, r, ho, hm, hstop, hne⟩ := search_end htest
  refine .step ho ?_
  rw [hstop, hm]
  refine .step (takeBytes_append m r) (.pure (.next ?_))
  rw [hm] at h
  exact Reaches.skip h (hne c t rfl hfirst)

/-- A number moves the scan past its digits. -/
theorem number_returns (h : Rest s st.i (c :: t)) :
    Returns C (fun _ => number u mode c (c :: t) st) (Moved s st.i) := by
  refine .ite (fun hc => ?_) fun _ => .pure .none
  have hf : ∀ m d r, c :: t = m ++ d :: r → ∃ b, endsNumber u mode (c :: t)
      (bytes m) d = some b := by
    intro m d r hm
    have hplace : Rest (c :: t) (bytes m) (d :: r) := ⟨m, hm, rfl⟩
    have hbehind := hplace.char
    unfold endsNumber
    rw [hbehind.drop]
    exact ⟨_, rfl⟩
  have hfirst : endsNumber u mode (c :: t) 0 c = some false := by
    have hbehind := (Rest.start (c :: t)).char
    have halnum : u.isAlphanumeric c = true := by
      unfold CharTables.isAlphanumeric CharTables.isNumeric
      rw [hc, Bool.true_or, Bool.or_true]
    unfold endsNumber
    rw [hbehind.drop, halnum]
    rfl
  exact word_returns h _ hf hfirst

/-- A name moves the scan past its last character. -/
theorem name_returns (h : Rest s st.i (c :: t)) :
    Returns C (fun _ => name u mode c (c :: t) st) (Moved s st.i) := by
  refine .ite (fun hc => ?_) fun _ => .pure .none
  have hf : ∀ m d r, c :: t = m ++ d :: r → ∃ b, endsName u mode (c :: t) m.length d = some b := by
    intro m d r hm
    unfold endsName
    cases hk : decide (0 < m.length) with
    | false =>
      rw [if_neg (of_decide_eq_false hk)]
      exact ⟨_, rfl⟩
    | true =>
      have hlt : m.length - 1 < (c :: t).length := by
        rw [hm, List.length_append]
        have := of_decide_eq_true hk
        omega
      rw [if_pos (of_decide_eq_true hk), List.getElem?_eq_getElem hlt]
      exact ⟨_, rfl⟩
  have hfirst : endsName u mode (c :: t) 0 c = some false := by
    have hchar : isWordChar u c = true := by
      unfold isWordChar CharTables.isAlphanumeric
      rcases Bool.or_eq_true_iff.mp hc with halpha | hunder
      · rw [halpha, Bool.true_or, Bool.true_or, Bool.true_or]
      · rw [hunder, Bool.or_true, Bool.true_or]
    unfold endsName
    rw [hchar]
    rfl
  exact word_returns h _ hf hfirst

theorem dot_moves (h : Rest s st.i (c :: t)) : Moved s st.i (dot c (c :: t) st) := by
  unfold dot
  split
  next hc =>
    obtain ⟨hc, -⟩ := Bool.and_eq_true_iff.mp hc
    obtain rfl := eq_of_beq hc
    exact .next (Reaches.skip (m := ['.']) h (List.cons_ne_nil _ _))
  · exact .none

theorem symbols_ne_nil : ∀ x ∈ symbols, x.1 ≠ [] := by decide

theorem symbol_moves (h : Rest s st.i (c :: t)) : (symbol c (c :: t) st).Moves s st.i := by
  unfold symbol
  split
  next sym word hfind =>
    have hstart := List.find?_some hfind
    obtain ⟨r, hr⟩ := List.isPrefixOf_iff_prefix.mp hstart
    rw [← hr] at h
    exact Reaches.skip h (symbols_ne_nil _ (List.mem_of_find?_eq_some hfind))
  · exact Reaches.char h

/-- A turn does not fail, whatever the callee does for a text that is not shorter, and moves the
index. -/
theorem step_returns (h : Rest s st.i t) (hi : st.i < bytes s) :
    Returns (Shorter (bytes s) f) (fun call => step u call s mode st) (Turn.Moves s st.i) := by
  obtain ⟨c, t, rfl⟩ := h.next hi
  refine .step h.drop (.step (b := c) rfl
    (.ite (fun _ => .pure ?_) fun _ => .ite (fun _ => .pure trivial) fun _ => ?_))
  · exact Reaches.char h
  · refine .firstOf (blockComment_returns h) <| .firstOf (markupTurn_returns h) <| .firstOf
      (jsxClose_returns h) ?_
    refine .firstOf (lifetime_returns h) <| .firstOf (quoted_returns h) <| .firstOf
      (flag_returns h) ?_
    refine .firstOf (number_returns h) <| .firstOf (name_returns h) ?_
    exact .firstOf (.pure (dot_moves h)) (.pure (symbol_moves h))

/-! ## The loop, and its levels -/

/-- A loop whose every turn moves the scan on ends within as many turns as there are bytes. -/
theorem loop_returns {turn : κ → Scan → Option Turn}
    (hturn : ∀ st t, Rest s st.i t → st.i < bytes s →
      Returns C (fun k => turn k st) (Turn.Moves s st.i))
    (n : Nat) (h : Rest s st.i t) (hn : bytes s ≤ st.i + n) :
    Returns C (fun k => loop (turn k) (bytes s) n st) fun _ => True := by
  induction n generalizing st t with
  | zero =>
    unfold loop
    exact .ite (fun hi => by omega) fun _ => .pure trivial
  | succ n ih =>
    unfold loop
    refine .ite (fun hi => (hturn st t h hi).bind fun o ho => ?_) fun _ => .pure trivial
    cases o with
    | stop p => exact .pure trivial
    | next st' =>
      obtain ⟨hlt, t', ht'⟩ := ho
      exact ih ht' (by omega)

theorem tokens_succ (f : Text → Mode → Parts → Parts) (mode : Mode) (p : Parts) (s : Text) :
    ∃ q, ∀ fuel, Shorter (bytes s) f (tokens u fuel) → tokens u (fuel + 1) s mode p = some q := by
  have hturn : ∀ st t, Rest s st.i t → st.i < bytes s →
      Returns (Shorter (bytes s) f) (fun call => step u call s mode st) (Turn.Moves s st.i) :=
    fun st t h hi => step_returns h hi
  have hloop : Returns (Shorter (bytes s) f)
      (fun call => loop (step u call s mode) (bytes s) (bytes s) ⟨0, true, none, p⟩)
        fun _ => True :=
    loop_returns hturn (bytes s) (Rest.start s) (show bytes s ≤ 0 + bytes s by omega)
  obtain ⟨q, -, hq⟩ := hloop
  exact ⟨q, fun fuel hfuel => hq (tokens u fuel) hfuel⟩

/-- With a level for each byte, and one more, the line is spoken: the levels that are left over
make no difference. -/
theorem tokens_spoken (u : CharTables) (s : Text) (mode : Mode) (p : Parts) :
    ∃ q, ∀ fuel, bytes s < fuel → tokens u fuel s mode p = some q := by
  induction hn : bytes s using Nat.strong_induction_on generalizing s mode p with
  | _ n ih =>
    -- what the calls for shorter texts answer, by induction
    have hshort : ∀ t mode p, ∃ q, bytes t < n → ∀ fuel, bytes t < fuel →
        tokens u fuel t mode p = some q := by
      intro t mode p
      by_cases ht : bytes t < n
      · obtain ⟨q, hq⟩ := ih (bytes t) ht t mode p rfl
        exact ⟨q, fun _ => hq⟩
      · exact ⟨{}, fun h => absurd h ht⟩
    choose f hf using hshort
    obtain ⟨q, hq⟩ := @tokens_succ u f mode p s
    refine ⟨q, fun fuel hfuel => ?_⟩
    obtain ⟨level, rfl⟩ : ∃ level, fuel = level + 1 := ⟨fuel - 1, by omega⟩
    exact hq level fun t mode p ht => hf t mode p (by omega) level (by omega)

/-- A line is spoken whatever it holds and in every mode: no slice fails, and the calls end. A
turn of the loop at a place between two characters moves the index to a later one, at most the
end, and calls for shorter texts only: it does not look at what a call for another text would
answer. -/
theorem tokens_safe (u : CharTables) (s : Text) (mode : Mode) :
    (∀ p, ∃ q, ∀ fuel, bytes s < fuel → tokens u fuel s mode p = some q) ∧
    (∀ call : Call, (∀ t mode p, bytes t < bytes s → ∃ q, call t mode p = some q) →
      ∀ st t, Rest s st.i t → st.i < bytes s →
        ∃ turn, step u call s mode st = some turn ∧
          ∀ st', turn = .next st' → st.i < st'.i ∧ st'.i ≤ bytes s ∧ ∃ t', Rest s st'.i t') ∧
    ∃ spoken, ∀ fuel, bytes s < fuel → inline u (tokens u fuel) s = some spoken := by
  refine ⟨tokens_spoken u s mode, fun call hcall st t h hi => ?_, ?_⟩
  · have hanswers : ∀ t mode p, ∃ q, bytes t < bytes s → call t mode p = some q := by
      intro t mode p
      by_cases ht : bytes t < bytes s
      · obtain ⟨q, hq⟩ := hcall t mode p ht
        exact ⟨q, fun _ => hq⟩
      · exact ⟨{}, fun h => absurd h ht⟩
    choose f hf using hanswers
    obtain ⟨turn, hmoves, hturn⟩ := @step_returns u s t f mode st h hi
    refine ⟨turn, hturn call hf, ?_⟩
    rintro st' rfl
    obtain ⟨hlt, t', ht'⟩ := hmoves
    have hlen := ht'.length
    exact ⟨hlt, by omega, t', ht'⟩
  · choose f hf using tokens_spoken u
    obtain ⟨spoken, -, hspoken⟩ := @inline_returns u (bytes s + 1) f s (Nat.lt_succ_self _)
    refine ⟨spoken, fun fuel hfuel => hspoken (tokens u fuel) fun t mode p ht => ?_⟩
    exact hf t mode p fuel (by omega)

/-- The first turn of the loop on a line. -/
theorem tokens_safe_first :
    let u : CharTables := ⟨fun _ => false, fun _ => false, fun _ => false, fun _ => false, id⟩
    ∃ turn, step u (fun _ _ _ => some {}) "a".toList .attrs ⟨0, true, none, {}⟩ = some turn ∧
      ∀ st', turn = .next st' → 0 < st'.i ∧ st'.i ≤ bytes "a".toList ∧
        ∃ t', Rest "a".toList st'.i t' := by
  intro u
  refine (tokens_safe u "a".toList .attrs).2.1 (fun _ _ _ => some {}) (fun _ _ _ _ => ⟨{}, rfl⟩)
    ⟨0, true, none, {}⟩ "a".toList (Rest.start _) ?_
  decide

end Sonara.CodeSpeech
