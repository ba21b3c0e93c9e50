import Sonara.External.Sse

/-!
# An event stream is decoded to its payloads

`Reads` says what the loop sends for a text, wherever the network cut its bytes. A line adds its
data, a blank line sends the event (`Reads.line`, `Reads.blank`), so a block sends its payload
and the stream its payloads. A stream longer than `MAX_STREAM_BODY` is failed instead
(`stream_too_long`).
-/

namespace Sonara.External.Sse

open Lib (Read)

variable {host : Text} {data payload : Option Text} {es : List Event} {t : Text}

/-- The loop sends `es` for the text `t`, in whatever pieces its bytes come. -/
def Reads (host : Text) (data : Option Text) (t : Text) (es : List Event) : Prop :=
  ∀ (buf : List UInt8) (pieces : List (List UInt8)), buf ++ pieces.flatten = Lib.Utf8.encode t →
    run host data buf (pieces.map .piece) = es

/-- The loop takes the first line of the text and goes on with the rest. -/
theorem Reads.step (h : t ≠ []) (rest : ∀ (buf : List UInt8) (pieces : List (List UInt8)),
      buf ++ pieces.flatten = Lib.Utf8.encode (Lib.afterLine '\n' t) →
      (if trimLine (Lib.line '\n' t) = [] then sendData data ++ run host none buf
        (pieces.map .piece)
        else run host (takeLine data (trimLine (Lib.line '\n' t))) buf (pieces.map .piece)) = es) :
    Reads host data t es := by
  intro buf pieces hbytes
  obtain ⟨buf', pieces', hread, hrest⟩ := Lib.readUntil_pieces (ε := IoError) 10 [] buf pieces
  obtain ⟨hl, ha⟩ := Lib.Utf8.encode_line t
  rw [hbytes, hl, List.nil_append] at hread
  rw [hbytes, ha] at hrest
  have hraw : Lib.Utf8.encode (Lib.line '\n' t) ≠ [] :=
    mt Lib.Utf8.encode_eq_nil (Lib.line_ne_nil '\n' h)
  unfold run
  split
  next e he => rw [hread] at he; cases he
  next raw b r he =>
    rw [hread] at he
    obtain ⟨rfl, rfl, rfl⟩ : Lib.Utf8.encode (Lib.line '\n' t) = raw ∧ buf' = b ∧
        pieces'.map .piece = r := by simpa using he
    rw [dif_neg hraw]
    split
    next hd => rw [Lib.Utf8.decode_encode] at hd; cases hd
    next line hd =>
      rw [Lib.Utf8.decode_encode] at hd
      obtain rfl := Option.some.inj hd
      exact rest buf' pieces' hrest

/-- At the end the event that has no blank line is sent. -/
theorem Reads.ends : Reads host data [] (sendData data ++ [.ended]) := by
  intro buf pieces hbytes
  obtain ⟨buf', pieces', hread, -⟩ := Lib.readUntil_pieces (ε := IoError) 10 [] buf pieces
  rw [hbytes] at hread
  unfold run
  split
  next e he => rw [hread] at he; cases he
  next raw b r he =>
    rw [hread] at he
    obtain ⟨rfl, rfl, rfl⟩ : [] = raw ∧ buf' = b ∧ pieces'.map .piece = r := by simpa using he
    exact dif_pos rfl

/-! ## Lines -/

/-- The end of a line is cut off, whichever one it is. -/
theorem trimLine_eol {l : Text} (h : '\r' ∉ l) (hn : '\n' ∉ l) (eol : Eol) :
    trimLine (l ++ eol.text) = l := by
  have hl : trimLine l = l := by
    refine List.rdropWhile_eq_self_iff.mpr fun hne => ?_
    have hmem := List.getLast_mem hne
    simp only [Bool.or_eq_true, beq_iff_eq, not_or]
    exact ⟨fun he => h (he ▸ hmem), fun he => hn (he ▸ hmem)⟩
  cases eol with
  | lf =>
    show trimLine (l ++ ['\n']) = l
    unfold trimLine
    rw [List.rdropWhile_concat_pos _ _ _ (by decide)]
    exact hl
  | crlf =>
    show trimLine (l ++ (['\r'] ++ ['\n'])) = l
    unfold trimLine
    rw [← List.append_assoc, List.rdropWhile_concat_pos _ _ _ (by decide),
      List.rdropWhile_concat_pos _ _ _ (by decide)]
    exact hl

/-- A line and its end are the first line of a text. -/
theorem line_eol {l : Text} (hn : '\n' ∉ l) (eol : Eol) (t : Text) :
    Lib.line '\n' (l ++ (eol.text ++ t)) = l ++ eol.text ∧
      Lib.afterLine '\n' (l ++ (eol.text ++ t)) = t := by
  cases eol with
  | lf => exact Lib.line_append t hn
  | crlf =>
    have hn' : '\n' ∉ l ++ ['\r'] := by
      rw [List.mem_append, not_or]
      exact ⟨hn, by decide⟩
    have h := Lib.line_append t hn'
    rw [List.append_assoc, List.append_assoc] at h
    exact h

/-- A line that is not blank. -/
theorem Reads.line {l : Text} (hne : l ≠ []) (hr : '\r' ∉ l) (hn : '\n' ∉ l) (eol : Eol)
    (rest : Reads host (takeLine data l) t es) : Reads host data (l ++ (eol.text ++ t)) es := by
  obtain ⟨hline, hafter⟩ := line_eol hn eol t
  refine Reads.step (by simp [hne]) fun buf pieces hbytes => ?_
  rw [hafter] at hbytes
  rw [hline, trimLine_eol hr hn, if_neg hne]
  exact rest buf pieces hbytes

/-- A blank line sends the event. -/
theorem Reads.blank (eol : Eol) (rest : Reads host none t es) :
    Reads host data (eol.text ++ t) (sendData data ++ es) := by
  obtain ⟨hline, hafter⟩ := line_eol List.not_mem_nil eol t
  rw [List.nil_append] at hline hafter
  have hne : eol.text ++ t ≠ [] := by
    cases eol <;> exact List.cons_ne_nil _ _
  refine Reads.step hne fun buf pieces hbytes => ?_
  rw [hafter] at hbytes
  have htrim : trimLine eol.text = [] :=
    trimLine_eol (List.not_mem_nil : '\r' ∉ ([] : Text)) List.not_mem_nil eol
  rw [hline, List.nil_append, if_pos htrim, rest buf pieces hbytes]

/-- The blank lines after the first send nothing. -/
theorem Reads.blanks (blank : List Eol) (rest : Reads host none t es) :
    Reads host none (blank.flatMap Eol.text ++ t) es := by
  induction blank with
  | nil => exact rest
  | cons eol blank ih =>
    rw [List.flatMap_cons, List.append_assoc]
    exact Reads.blank eol ih

/-- A last line without its end. -/
theorem Reads.lastLine {l : Text} (hne : l ≠ []) (hr : '\r' ∉ l) (hn : '\n' ∉ l) :
    Reads host data l (sendData (takeLine data l) ++ [.ended]) := by
  obtain ⟨hline, hafter⟩ := Lib.line_of_not_mem hn
  have htrim : trimLine l = l := by
    refine List.rdropWhile_eq_self_iff.mpr fun hne => ?_
    have hmem := List.getLast_mem hne
    simp only [Bool.or_eq_true, beq_iff_eq, not_or]
    exact ⟨fun he => hr (he ▸ hmem), fun he => hn (he ▸ hmem)⟩
  refine Reads.step hne fun buf pieces hbytes => ?_
  rw [hafter] at hbytes
  rw [hline, htrim, if_neg hne]
  exact Reads.ends buf pieces hbytes

/-! ## Blocks -/

/-- What the lines of a block make of the data before them. -/
def added (data : Option Text) (vs : List Text) : Option Text := vs.foldl addData data

/-- A valid line is not empty and has no line end in it. -/
theorem Line.Valid.text {l : Line} (h : l.Valid) :
    l.text ≠ [] ∧ '\r' ∉ l.text ∧ '\n' ∉ l.text := by
  cases l with
  | data space v =>
    obtain ⟨hn, hr, -⟩ := h
    cases space with
    | true =>
      show "data: ".toList ++ v ≠ [] ∧ '\r' ∉ "data: ".toList ++ v ∧ '\n' ∉ "data: ".toList ++ v
      simp [hn, hr]
    | false =>
      show "data:".toList ++ v ≠ [] ∧ '\r' ∉ "data:".toList ++ v ∧ '\n' ∉ "data:".toList ++ v
      simp [hn, hr]
  | other l =>
    obtain ⟨hn, hr, hkind⟩ := h
    refine ⟨?_, hr, hn⟩
    rintro rfl
    simp at hkind

/-- A valid line adds its value. -/
theorem Line.Valid.take {l : Line} (h : l.Valid) (data : Option Text) :
    takeLine data l.text = added data l.value?.toList := by
  cases l with
  | data space v =>
    obtain ⟨-, -, hspace⟩ := h
    cases space with
    | true =>
      have hline : ("data: ".toList ++ v).dropPrefix? "data:".toList = some (' ' :: v) := by
        simp [List.dropPrefix?]
      have hstrip : (' ' :: v).dropPrefix? [' '] = some v := by simp [List.dropPrefix?]
      show takeLine data ("data: ".toList ++ v) = _
      unfold takeLine
      rw [hline]
      show addData data (((' ' :: v).dropPrefix? [' ']).getD (' ' :: v)) = _
      rw [hstrip]
      rfl
    | false =>
      have hstrip : v.dropPrefix? [' '] = none := by
        cases v with
        | nil => rfl
        | cons c v =>
          have hc : c ≠ ' ' := by
            rintro rfl
            exact absurd (hspace rfl) Bool.false_ne_true
          simp [List.dropPrefix?, hc]
      have hline : ("data:".toList ++ v).dropPrefix? "data:".toList = some v := by
        simp [List.dropPrefix?]
      show takeLine data ("data:".toList ++ v) = _
      unfold takeLine
      rw [hline]
      show addData data ((v.dropPrefix? [' ']).getD v) = _
      rw [hstrip]
      rfl
  | other l =>
    have hnone : l.dropPrefix? "data:".toList = none := by
      obtain ⟨-, -, ⟨r, rfl⟩ | ⟨r, rfl⟩ | ⟨r, rfl⟩ | ⟨r, rfl⟩⟩ := h <;>
        simp [List.dropPrefix?]
    show takeLine data l = _
    unfold takeLine
    rw [hnone]
    rfl

theorem added_append (data : Option Text) (vs ws : List Text) :
    added data (vs ++ ws) = added (added data vs) ws := List.foldl_append

/-- The lines of a block, before the rest of the text. -/
theorem Reads.lines (lines : List (Line × Eol)) (hv : ∀ l ∈ lines.map Prod.fst, l.Valid)
    (rest : Reads host (added data ((lines.map Prod.fst).filterMap Line.value?)) t es) :
    Reads host data (linesText lines ++ t) es := by
  induction lines generalizing data with
  | nil => exact rest
  | cons l lines ih =>
    have hl : l.1.Valid := hv l.1 List.mem_cons_self
    obtain ⟨hne, hr, hn⟩ := hl.text
    have htext : linesText (l :: lines) ++ t = l.1.text ++
        (l.2.text ++ (linesText lines ++ t)) := by
      simp [linesText]
    have hvalues : ((l :: lines).map Prod.fst).filterMap Line.value? =
        l.1.value?.toList ++ (lines.map Prod.fst).filterMap Line.value? := by
      rw [List.map_cons, List.filterMap_cons]
      cases l.1.value? <;> rfl
    rw [hvalues, added_append, ← hl.take] at rest
    rw [htext]
    exact Reads.line hne hr hn l.2 (ih (fun l' h' => hv l' (List.mem_cons_of_mem _ h')) rest)

theorem added_some (d : Text) (vs : List Text) :
    added (some d) vs = some (['\n'].intercalate (d :: vs)) := by
  induction vs generalizing d with
  | nil => simp [added]
  | cons v vs ih =>
    show added (some (d ++ '\n' :: v)) vs = _
    rw [ih]
    cases vs <;> simp [List.intercalate]

/-- The lines of a payload make the payload again. -/
theorem Carries.added {lines : List Line} (h : Carries payload lines) :
    Sse.added none (lines.filterMap Line.value?) = payload := by
  rw [h.2]
  cases payload with
  | none => rfl
  | some p =>
    show Sse.added none (p.splitOn '\n') = some p
    cases hs : p.splitOn '\n' with
    | nil => exact absurd hs (List.splitOn_ne_nil _ _)
    | cons v vs =>
      show Sse.added (some v) vs = some p
      rw [added_some, ← hs, List.intercalate_splitOn]

theorem sendData_payload (payload : Option Text) (es : List Event) :
    sendData payload ++ es = payload.toList.map Event.data ++ es := by
  cases payload <;> rfl

/-- The loop sends the payloads of an event stream. -/
theorem Encodes.reads {payloads : List Text} (h : Encodes payloads t) :
    Reads host none t (payloads.map Event.data ++ [.ended]) := by
  induction h with
  | @block payload lines eol blank payloads t carries rest ih =>
    refine Reads.lines lines carries.1 ?_
    rw [carries.added, List.map_append, List.append_assoc, ← sendData_payload]
    exact Reads.blank eol (Reads.blanks blank ih)
  | @last payload lines line carries =>
    refine Reads.lines lines (fun l hl => carries.1 l (List.mem_append_left _ hl)) ?_
    have hadded := carries.added
    rw [List.filterMap_append, added_append] at hadded
    rw [← sendData_payload]
    cases line with
    | none =>
      obtain rfl := hadded
      exact Reads.ends
    | some l =>
      have hl : l.Valid := carries.1 l (List.mem_append_right _ List.mem_cons_self)
      obtain ⟨hne, hr, hn⟩ := hl.text
      have hvalue : [l].filterMap Line.value? = l.value?.toList := by
        cases hv : l.value? <;> simp [List.filterMap, hv]
      rw [Option.toList_some, hvalue, ← hl.take] at hadded
      rw [← hadded]
      exact Reads.lastLine hne hr hn

/-! ## The stream -/

/-- Reads of at most `left` bytes; the read that would pass them fails. -/
def cutOff : Nat → List (List UInt8) → List (Read UInt8 IoError)
  | _, [] => []
  | left, b :: rest =>
    if b.length ≤ left then .piece b :: cutOff (left - b.length) rest
    else [.piece (b.take left), .failed .exceedsLimit]

theorem cutOff_below {left : Nat} {pieces : List (List UInt8)} (h : pieces.flatten.length ≤ left) :
    cutOff left pieces = pieces.map .piece := by
  induction pieces generalizing left with
  | nil => rfl
  | cons b rest ih =>
    rw [List.flatten_cons, List.length_append] at h
    rw [cutOff, if_pos (by omega), ih (by omega)]
    rfl

/-- A body above the limit is read up to it and then fails. -/
theorem cutOff_above {left : Nat} {pieces : List (List UInt8)} (h : left < pieces.flatten.length) :
    ∃ part : List (List UInt8), part.flatten <+: pieces.flatten ∧
      cutOff left pieces = part.map .piece ++ [.failed .exceedsLimit] := by
  induction pieces generalizing left with
  | nil => exact absurd h (Nat.not_lt_zero _)
  | cons b rest ih =>
    rw [List.flatten_cons, List.length_append] at h
    rw [cutOff]
    split
    next hb =>
      have hrest : left - b.length < rest.flatten.length := by omega
      obtain ⟨part, hpart, hcut⟩ := ih hrest
      exact ⟨b :: part, (List.prefix_append_right_inj b).mpr hpart, by rw [hcut]; rfl⟩
    next =>
      exact ⟨[b.take left], by
        simpa using (List.take_prefix left b).trans (List.prefix_append _ _), rfl⟩

/-- A client that reads up to the limit. -/
def cutting : BodyLimit where
  read := cutOff MAX_STREAM_BODY
  below h := cutOff_below (Nat.le_of_lt h)
  above h := cutOff_above h

/-- **An event stream below the size limit is decoded to its payloads**, however the network cuts
its bytes. -/
theorem stream_decoded (limit : BodyLimit) (host : Text) {payloads : List Text} {text : Text}
    {pieces : List (List UInt8)} (h : Encodes payloads text)
    (hbytes : pieces.flatten = Lib.Utf8.encode text)
    (hsize : (Lib.Utf8.encode text).length < MAX_STREAM_BODY) :
    sent limit host pieces = payloads.map Event.data ++ [.ended] := by
  unfold sent
  rw [limit.below (hbytes ▸ hsize)]
  exact h.reads [] pieces hbytes

/-- Two events cut across their lines, the second not ended by a blank line. -/
theorem stream_decoded_two :
    sent cutting [] [Lib.Utf8.encode "data: two\r\ndata:li".toList,
        Lib.Utf8.encode "nes\n\r\n: a comment\ndata:  last".toList] =
      [.data "two\nlines".toList, .data " last".toList, .ended] := by
  have hblock : Carries (some "two\nlines".toList)
      [.data true "two".toList, .data false "lines".toList] := by
    refine ⟨fun l hl => ?_, by decide⟩
    simp only [List.mem_cons, List.not_mem_nil, or_false] at hl
    obtain rfl | rfl := hl <;> simp [Line.Valid]
  have hlast : Carries (some " last".toList)
      [.other ": a comment".toList, .data true " last".toList] := by
    refine ⟨fun l hl => ?_, by decide⟩
    simp only [List.mem_cons, List.not_mem_nil, or_false] at hl
    obtain rfl | rfl := hl <;> simp [Line.Valid]
  have hrest : Encodes [" last".toList]
      (linesText [(.other ": a comment".toList, .lf)] ++ (Line.data true " last".toList).text) :=
    @Encodes.last (some " last".toList) [(.other ": a comment".toList, .lf)]
      (some (.data true " last".toList)) hlast
  have h : Encodes ["two\nlines".toList, " last".toList]
      (linesText [(.data true "two".toList, .crlf), (.data false "lines".toList, .lf)] ++
        (Eol.crlf.text ++ _)) :=
    @Encodes.block (some "two\nlines".toList)
      [(.data true "two".toList, .crlf), (.data false "lines".toList, .lf)] .crlf
        [] _ _ hblock hrest
  exact stream_decoded cutting [] h (by decide) (by decide)

/-! ## A stream that is too long -/

/-- A body that fails is failed, whatever it sent before. -/
theorem run_fails (buf : List UInt8) (pieces : List (List UInt8)) (e : IoError) :
    ∃ es err, run host data buf (pieces.map .piece ++ [.failed e]) = es ++ [.failed err] := by
  obtain ⟨n, hn⟩ : ∃ n, Lib.toCome buf (pieces.map .piece ++ [Read.failed e]) ≤ n :=
    ⟨_, Nat.le_refl _⟩
  induction n using Nat.strongRecOn generalizing data buf pieces with
  | _ n ih =>
    unfold run
    split
    next err _ => exact ⟨[], _, rfl⟩
    next raw b r hread =>
      obtain hfail | ⟨line, buf', pieces', hne, hok⟩ := Lib.readUntil_fails 10 [] buf pieces e
      · rw [hfail] at hread
        cases hread
      · have hcome := Lib.readUntil_toCome 10 hread
        rw [hok] at hread
        obtain ⟨rfl, rfl, rfl⟩ : line = raw ∧ buf' = b ∧ pieces'.map .piece ++ [.failed e] = r := by
          simpa using hread
        have hpos := List.length_pos_iff.mpr hne
        have hless : Lib.toCome buf' (pieces'.map .piece ++ [Read.failed e]) < n := by
          rw [List.length_nil] at hcome
          omega
        rw [dif_neg hne]
        split
        · exact ⟨[], _, rfl⟩
        · split
          · obtain ⟨es, err, hes⟩ := @ih _ hless none buf' pieces' (Nat.le_refl _)
            exact ⟨sendData data ++ es, err, by rw [hes, List.append_assoc]⟩
          · exact ih _ hless buf' pieces' (Nat.le_refl _)

/-- An answer above the limit is failed. -/
theorem stream_fails (limit : BodyLimit) (host : Text) {pieces : List (List UInt8)}
    (h : MAX_STREAM_BODY < pieces.flatten.length) :
    ∃ es err, sent limit host pieces = es ++ [.failed err] := by
  obtain ⟨part, -, hread⟩ := limit.above h
  unfold sent
  rw [hread]
  exact run_fails [] part .exceedsLimit

/-- One event that is longer than a body may be. -/
theorem stream_too_long : ¬ ∀ (limit : BodyLimit) (host : Text) (payloads : List Text) (text : Text)
    (pieces : List (List UInt8)), (∀ p ∈ payloads, '\r' ∉ p) → Encodes payloads text →
      pieces.flatten = Lib.Utf8.encode text →
      sent limit host pieces = payloads.map Event.data ++ [.ended] := by
  intro hall
  obtain ⟨p, hp⟩ : ∃ p : Text, p = List.replicate MAX_STREAM_BODY 'a' := ⟨_, rfl⟩
  have hmem : ∀ {c}, c ∈ p → c = 'a' := fun hc => List.eq_of_mem_replicate (hp ▸ hc)
  have hn : '\n' ∉ p := fun hc => absurd (hmem hc) (by decide)
  have hr : '\r' ∉ p := fun hc => absurd (hmem hc) (by decide)
  have hvalid : (Line.data false p).Valid := by
    refine ⟨hn, hr, fun hhead => ?_⟩
    exact absurd (hmem (List.mem_of_mem_head? hhead)) (by decide)
  have henc : Encodes [p] ("data:".toList ++ p) := by
    refine @Encodes.last (some p) [] (some (.data false p)) ⟨?_, ?_⟩
    · intro l hl
      obtain rfl := List.mem_singleton.mp hl
      exact hvalid
    · show [p] = p.splitOn '\n'
      rw [List.splitOn_eq_singleton hn]
  have hlen : MAX_STREAM_BODY < (Lib.Utf8.encode ("data:".toList ++ p)).length := by
    have := Lib.Utf8.length_encode ("data:".toList ++ p)
    have h5 : "data:".toList.length = 5 := by decide
    rw [List.length_append, h5, hp, List.length_replicate, ← hp] at this
    omega
  have hsent := hall cutting [] [p] _ [Lib.Utf8.encode ("data:".toList ++ p)]
    (fun q hq => List.mem_singleton.mp hq ▸ hr) henc (List.append_nil _)
  have hlen : MAX_STREAM_BODY < [Lib.Utf8.encode ("data:".toList ++ p)].flatten.length := by
    rwa [List.flatten_singleton]
  obtain ⟨es, err, hfail⟩ := stream_fails cutting [] hlen
  rw [hsent] at hfail
  have hlast := (List.append_inj' hfail rfl).2
  cases hlast

end Sonara.External.Sse
