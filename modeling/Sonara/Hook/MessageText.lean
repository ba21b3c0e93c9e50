import Sonara.Hook.Transcript

/-!
# What text belongs to a message

A message is the assistant rows with its id, wherever they stand. `find` collects them all; the
single pass of `before_reply_from` keeps the texts of the rows since the last change of message,
so it has the last unbroken stretch of a message only (`Pass.After`), and of its tool uses it
asks the last one only. `Unbroken` is when that makes no difference (`reads_messages_iff`).
-/

namespace Sonara.Hook

/-- An assistant row: the id of its message, and its content. -/
abbrev Row := Text × List Json

/-! ## The text of a message -/

/-- The text of a block that has one. -/
def textOf (b : Json) : Option Text :=
  if kind b = "text".toList then
    let t := Text.trim ((str b "text").getD [])
    if t.isEmpty then none else some t
  else none

def thinkingOf (b : Json) : Option Text :=
  if kind b = "thinking".toList then
    let t := Text.trim ((str b "thinking").getD [])
    if t.isEmpty then none else some t
  else none

/-- The rows of the message `m`. -/
def ofMessage (m : Text) (ms : List Row) : List Row := ms.filter (·.1 = m)

def blocks (ms : List Row) : List Json := ms.flatMap (·.2)

def texts (ms : List Row) : List Text := (blocks ms).filterMap textOf

def thoughts (ms : List Row) : List Text := (blocks ms).filterMap thinkingOf

def isTool (b : Json) : Bool := decide (kind b = "tool_use".toList)

/-- The message of a question is read before it: its text, or else its last thinking. -/
def lead (rows : List Row) : Option Text :=
  if (texts rows).isEmpty then (thoughts rows).getLast?.bind clip else some (joined (texts rows))

/-- The last row with the tool use. -/
def messageOf (ms : List Row) (toolUseId : Text) : Option Text :=
  ms.reverse.findSome? fun r => if r.2.any (isToolUse toolUseId) then some r.1 else none

/-- The message with the last tool use. -/
def toolMessage (ms : List Row) : Option Text :=
  ms.reverse.findSome? fun r => if r.2.any isTool then some r.1 else none

/-- The text before a reply: that of the message, when it asks nothing. -/
def before (ms : List Row) : Option Text :=
  (toolMessage ms).bind fun m =>
    let mine := ofMessage m ms
    if (blocks mine).any (fun b => isTool b && isDecision b) || (texts mine).isEmpty then none
    else some (joined (texts mine))

def messages (rows : List Json) : List Row := rows.filterMap assistant

/-- The rows after the last boundary. -/
def turn (rows : List Json) : List Json := (rows.reverse.takeWhile fun r => !isBoundary r).reverse

section

variable (parse : Text → Option Json)

def rows (tail : Text) : List Json := (tailLines tail).filterMap parse

/-- The ids of an assistant row stand in its line as they are. -/
def Unescaped (tail : Text) : Prop :=
  ∀ l ∈ tailLines tail, ∀ row, parse l = some row → ∀ r, assistant row = some r →
    r.1 <:+: l ∧ ∀ b ∈ r.2, ∀ id, str b "id" = some id → id <:+: l

end

/-! ## Collecting a message -/

theorem texts_cons (r : Row) (ms : List Row) :
    texts (r :: ms) = r.2.filterMap textOf ++ texts ms := by
  simp [texts, blocks]

theorem texts_append (ms ms' : List Row) : texts (ms ++ ms') = texts ms ++ texts ms' := by
  simp [texts, blocks]

theorem thoughts_cons (r : Row) (ms : List Row) :
    thoughts (r :: ms) = r.2.filterMap thinkingOf ++ thoughts ms := by
  simp [thoughts, blocks]

/-- A block is a text, a thinking, or neither. -/
theorem collect_eq (th : Option Text) (tx : List Text) (b : Json) :
    collect (th, tx) b = ((thinkingOf b).or th, tx ++ (textOf b).toList) := by
  unfold collect thinkingOf textOf
  have hne : "thinking".toList ≠ "text".toList := by decide
  generalize "text".toList = T at hne ⊢
  generalize "thinking".toList = H at hne ⊢
  by_cases ht : kind b = T
  · have hth : kind b ≠ H := fun hth => hne (hth.symm.trans ht)
    simp only [if_pos ht, if_neg hth]
    split <;> simp
  · simp only [if_neg ht]
    by_cases hth : kind b = H
    · simp only [if_pos hth]
      split <;> simp
    · simp only [if_neg hth]
      simp

theorem collect_content (content : List Json) (th : Option Text) (tx : List Text) :
    content.foldl collect (th, tx) =
      ((content.filterMap thinkingOf).getLast?.or th, tx ++ content.filterMap textOf) := by
  induction content generalizing th tx with
  | nil => simp
  | cons b content ih =>
    rw [List.foldl_cons, collect_eq, ih, List.filterMap_cons, List.filterMap_cons]
    cases hth : thinkingOf b <;> cases htx : textOf b <;>
      cases hl : (content.filterMap thinkingOf).getLast? <;>
      simp [hl, List.getLast?_cons]

theorem collect_rows (ms : List Row) (th : Option Text) (tx : List Text) :
    ms.foldl (fun st r => r.2.foldl collect st) (th, tx) =
      ((thoughts ms).getLast?.or th, tx ++ texts ms) := by
  induction ms generalizing th tx with
  | nil => simp [thoughts, texts, blocks]
  | cons r ms ih =>
    rw [List.foldl_cons, collect_content, ih, texts_cons, thoughts_cons, List.getLast?_append,
      List.append_assoc, Option.or_assoc]

/-- What a filter leaves out finds nothing. -/
theorem findSome?_filter {α β : Type} {l : List α} {p : α → Bool} {f : α → Option β}
    (h : ∀ x ∈ l, p x = false → f x = none) : (l.filter p).findSome? f = l.findSome? f := by
  induction l with
  | nil => rfl
  | cons x l ih =>
    have ih := ih fun y hy => h y (List.mem_cons_of_mem _ hy)
    cases hp : p x with
    | true => rw [List.filter_cons_of_pos hp, List.findSome?_cons, List.findSome?_cons, ih]
    | false =>
      rw [List.filter_cons_of_neg (by simp [hp]), ih, List.findSome?_cons,
        h x List.mem_cons_self hp]

theorem findSome?_filterMap {α β γ : Type} (l : List α) (f : α → Option β) (g : β → Option γ) :
    (l.filterMap f).findSome? g = l.findSome? fun x => (f x).bind g := by
  induction l with
  | nil => rfl
  | cons x l ih =>
    rw [List.filterMap_cons, List.findSome?_cons]
    cases hf : f x with
    | none => exact ih
    | some y =>
      show ((y :: l.filterMap f).findSome? g) = _
      rw [List.findSome?_cons, Option.bind_some, ih]

variable {parse : Text → Option Json} {tail : Text}

/-- Looking only at the lines that hold the id finds the same message. -/
theorem find_messageOf (hu : Unescaped parse tail) (toolUseId : Text) :
    ((((tailLines tail).reverse.filter fun l => toolUseId <:+: l).filterMap parse).findSome?
      fun row =>
      (assistant row).bind fun r => if r.2.any (isToolUse toolUseId) then some r.1 else none) =
      messageOf (messages (rows parse tail)) toolUseId := by
  unfold messageOf messages rows
  rw [findSome?_filterMap, ← List.filterMap_reverse, ← List.filterMap_reverse, findSome?_filterMap,
    findSome?_filterMap]
  refine findSome?_filter fun l hl hp => ?_
  cases hrow : parse l with
  | none => rfl
  | some row =>
    cases hr : assistant row with
    | none => simp [hr]
    | some r =>
      have hany : r.2.any (isToolUse toolUseId) = false := by
        rw [List.any_eq_false]
        intro b hb htool
        have hid : str b "id" = some toolUseId := (of_decide_eq_true htool).2
        have hin := ((hu l (List.mem_reverse.mp hl) row hrow r hr).2 b hb _ hid)
        simp [hin] at hp
      rw [Option.bind_some, hr, Option.bind_some, hany]
      rfl

/-- The rows of a message, from the lines that hold its id. -/
theorem find_rows (hu : Unescaped parse tail) (m : Text) (st : Option Text × List Text) :
    (((tailLines tail).filter fun l => m <:+: l).filterMap parse).foldl (collectRow m) st =
      (ofMessage m (messages (rows parse tail))).foldl (fun st r => r.2.foldl collect st) st := by
  have hids : ∀ l ∈ tailLines tail, ∀ row, parse l = some row → ∀ r, assistant row = some r →
      r.1 <:+: l :=
    fun l hl row hrow r hr => (hu l hl row hrow r hr).1
  unfold rows messages ofMessage
  generalize tailLines tail = lines at hids
  induction lines generalizing st with
  | nil => rfl
  | cons l lines ih =>
    have ih := fun st => ih st fun l' h' => hids l' (List.mem_cons_of_mem _ h')
    have hl := hids l List.mem_cons_self
    by_cases hin : m <:+: l
    · rw [List.filter_cons_of_pos (by simpa using hin)]
      cases hrow : parse l with
      | none => rw [List.filterMap_cons_none hrow, List.filterMap_cons_none hrow]; exact ih st
      | some row =>
        rw [List.filterMap_cons_some hrow, List.filterMap_cons_some hrow, List.foldl_cons]
        cases hr : assistant row with
        | none =>
          have hstep : collectRow m st row = st := by rw [collectRow, hr]
          rw [List.filterMap_cons_none hr, hstep]
          exact ih st
        | some r =>
          rw [List.filterMap_cons_some hr]
          by_cases hm : r.1 = m
          · have hstep : collectRow m st row = r.2.foldl collect st := by
              rw [collectRow, hr]
              exact if_neg (not_not_intro hm)
            rw [List.filter_cons_of_pos (by simpa using hm), List.foldl_cons, hstep]
            exact ih _
          · have hstep : collectRow m st row = st := by
              rw [collectRow, hr]
              exact if_pos hm
            rw [List.filter_cons_of_neg (by simpa using hm), hstep]
            exact ih st
    · rw [List.filter_cons_of_neg (by simpa using hin)]
      cases hrow : parse l with
      | none => rw [List.filterMap_cons_none hrow]; exact ih st
      | some row =>
        rw [List.filterMap_cons_some hrow]
        cases hr : assistant row with
        | none => rw [List.filterMap_cons_none hr]; exact ih st
        | some r =>
          have hm : r.1 ≠ m := fun hm => hin (hm ▸ hl row hrow r hr)
          rw [List.filterMap_cons_some hr, List.filter_cons_of_neg (by simpa using hm)]
          exact ih st

/-- **The lead-in is the text of the message that holds the tool use.** -/
theorem leadInFrom_eq (hu : Unescaped parse tail) (toolUseId : Text) :
    leadInFrom parse tail toolUseId = (messageOf (messages (rows parse tail)) toolUseId).bind
    fun m =>
      lead (ofMessage m (messages (rows parse tail))) := by
  unfold leadInFrom find
  dsimp only
  rw [find_messageOf hu]
  cases messageOf (messages (rows parse tail)) toolUseId with
  | none => rfl
  | some m =>
    dsimp only
    rw [find_rows hu, collect_rows, List.nil_append, Option.or_none, Option.bind_some]
    unfold lead
    cases (texts (ofMessage m (messages (rows parse tail)))).isEmpty <;> rfl

/-! ## The single pass -/

/-- The rows of `m` at the end. -/
def current (m : Text) (ms : List Row) : List Row := (ms.reverse.takeWhile (·.1 = m)).reverse

/-- The last rows of `m` with no row of another message in between. -/
def lastStretch (m : Text) (ms : List Row) : List Row :=
  ((ms.reverse.dropWhile (·.1 ≠ m)).takeWhile (·.1 = m)).reverse

/-- The rows of `m` before its last stretch. -/
def earlier (m : Text) (ms : List Row) : List Row :=
  ofMessage m ((ms.reverse.dropWhile (·.1 ≠ m)).dropWhile (·.1 = m)).reverse

/-- Whether the last tool use is a question or a plan. -/
def lastDecision (bs : List Json) : Bool := (bs.reverse.find? isTool).any isDecision

/-- What the pass holds after the rows `ms`. -/
structure Pass.After (st : Pass) (ms : List Row) : Prop where
  texts : st.texts = Hook.texts (current st.message ms)
  others : ∀ m, m ≠ st.message → current m ms = []
  last : st.last = (toolMessage ms).map fun m =>
    (m, Hook.texts (lastStretch m ms), lastDecision (blocks ms))

theorem current_same (m : Text) (ms : List Row) (content : List Json) :
    current m (ms ++ [(m, content)]) = current m ms ++ [(m, content)] := by
  simp [current]

theorem current_other {m n : Text} (h : n ≠ m) (ms : List Row) (content : List Json) :
    current m (ms ++ [(n, content)]) = [] := by
  simp [current, h]

theorem lastStretch_same (m : Text) (ms : List Row) (content : List Json) :
    lastStretch m (ms ++ [(m, content)]) = current m (ms ++ [(m, content)]) := by
  simp [current, lastStretch]

theorem lastStretch_other {m n : Text} (h : n ≠ m) (ms : List Row) (content : List Json) :
    lastStretch m (ms ++ [(n, content)]) = lastStretch m ms := by
  simp [lastStretch, h]

theorem toolMessage_snoc (ms : List Row) (m : Text) (content : List Json) :
    toolMessage (ms ++ [(m, content)]) = if content.any isTool then some m else toolMessage ms := by
  unfold toolMessage
  rw [List.reverse_append, List.reverse_singleton, List.singleton_append, List.findSome?_cons]
  dsimp only
  split <;> simp_all

theorem blocks_snoc (ms : List Row) (m : Text) (content : List Json) :
    blocks (ms ++ [(m, content)]) = blocks ms ++ content := by
  simp [blocks]

/-- The later blocks decide if they have a tool use; otherwise the earlier ones do. -/
theorem lastDecision_append (bs content : List Json) :
    lastDecision (bs ++ content) = if content.any isTool then lastDecision content
    else lastDecision bs := by
  unfold lastDecision
  rw [List.reverse_append, List.find?_append]
  cases hf : content.reverse.find? isTool with
  | none =>
    have hany : content.any isTool = false := by
      rw [List.any_eq_false]
      intro b hb
      exact List.find?_eq_none.mp hf b (List.mem_reverse.mpr hb)
    rw [hany]
    rfl
  | some b =>
    have hany : content.any isTool = true :=
      List.any_eq_true.mpr ⟨b, List.mem_reverse.mp (List.mem_of_find?_eq_some hf),
        List.find?_some hf⟩
    rw [hany]
    rfl

/-- A block adds its text, and a tool use is remembered. -/
theorem Pass.block_eq (st : Pass) (b : Json) :
    (st.block b).message = st.message ∧ (st.block b).texts = st.texts ++ (textOf b).toList ∧
      (isTool b = false → (st.block b).last = st.last) ∧
      (isTool b = true → ∃ tx, (st.block b).last = some (st.message, tx, isDecision b)) := by
  unfold Pass.block textOf isTool
  have hne : "tool_use".toList ≠ "text".toList := by decide
  generalize "text".toList = T at hne ⊢
  generalize "tool_use".toList = U at hne ⊢
  by_cases ht : kind b = T
  · have hu : kind b ≠ U := fun hu => hne (hu.symm.trans ht)
    simp only [if_pos ht, decide_eq_false hu]
    split <;> simp
  · simp only [if_neg ht]
    by_cases hu : kind b = U
    · simp only [if_pos hu, decide_eq_true hu]
      refine ⟨trivial, (List.append_nil _).symm, ?_, fun _ => ⟨_, rfl⟩⟩
      intro h
      cases h
    · simp only [if_neg hu, decide_eq_false hu]
      refine ⟨trivial, (List.append_nil _).symm, fun _ => trivial, ?_⟩
      intro h
      cases h

/-- A pass over a message gathers its texts and remembers its last tool use. -/
theorem Pass.content_eq (content : List Json) (st : Pass) :
    (content.foldl Pass.block st).message = st.message ∧
      (content.foldl Pass.block st).texts = st.texts ++ content.filterMap textOf ∧
      (content.any isTool = false → (content.foldl Pass.block st).last = st.last) ∧
      (content.any isTool = true →
        ∃ tx, (content.foldl Pass.block st).last = some
        (st.message, tx, lastDecision content)) := by
  induction content generalizing st with
  | nil => exact ⟨rfl, (List.append_nil _).symm, fun _ => rfl, fun h => by cases h⟩
  | cons b content ih =>
    obtain ⟨hm, ht, hquiet, htool⟩ := st.block_eq b
    obtain ⟨hm', ht', hquiet', htool'⟩ := ih (st.block b)
    rw [List.foldl_cons, List.filterMap_cons, List.any_cons]
    refine ⟨hm'.trans hm, ?_, ?_, ?_⟩
    · rw [ht', ht, List.append_assoc]
      cases textOf b <;> rfl
    · intro h
      obtain ⟨hb, hc⟩ := Bool.or_eq_false_iff.mp h
      exact (hquiet' hc).trans (hquiet hb)
    · intro h
      have happ := lastDecision_append [b] content
      rw [List.singleton_append] at happ
      rw [happ, ← hm]
      cases hc : content.any isTool with
      | true => exact htool' hc
      | false =>
        have hb : isTool b = true := by simpa [hc] using h
        obtain ⟨tx, hlast⟩ := htool hb
        refine ⟨tx, ?_⟩
        rw [hquiet' hc, hlast, hm]
        simp [lastDecision, hb]

theorem Pass.keep_eq (st : Pass) : st.keep.message = st.message ∧ st.keep.texts = st.texts ∧
    st.keep.last = st.last.map fun l => if l.1 = st.message then (l.1, st.texts, l.2.2) else l := by
  unfold Pass.keep
  cases hl : st.last with
  | none => exact ⟨rfl, rfl, hl⟩
  | some l =>
    obtain ⟨m, tx, d⟩ := l
    by_cases hm : m = st.message
    · simp [hm]
    · simp [hm, hl]

theorem Pass.After.start {st : Pass} {ms : List Row} (h : st.After ms) (id : Text) :
    (st.start id).message = id ∧ (st.start id).texts = Hook.texts (current id ms) ∧
      (st.start id).last = st.last := by
  unfold Pass.start
  by_cases hid : id = st.message
  · rw [if_neg (not_not_intro hid)]
    exact ⟨hid.symm, hid ▸ h.texts, rfl⟩
  · rw [if_pos hid, h.others id hid]
    exact ⟨rfl, rfl, rfl⟩

/-- An assistant row. -/
theorem Pass.After.row {st : Pass} {ms : List Row} (h : st.After ms) (id : Text)
    (content : List Json) :
    (st.assistant id content).After (ms ++ [(id, content)]) := by
  obtain ⟨hm, ht, hlast⟩ := h.start id
  obtain ⟨hm', ht', hquiet, htool⟩ := Pass.content_eq content (st.start id)
  obtain ⟨hm'', ht'', hlast''⟩ := (content.foldl Pass.block (st.start id)).keep_eq
  rw [hm] at hm' htool
  rw [ht] at ht'
  rw [hlast] at hquiet
  rw [hm'] at hm'' hlast''
  have htexts : (content.foldl Pass.block (st.start id)).texts =
      Hook.texts (current id (ms ++ [(id, content)])) := by
    rw [current_same, texts_append, ht']
    simp [Hook.texts, blocks]
  rw [htexts] at ht'' hlast''
  refine ⟨?_, fun m hne => ?_, ?_⟩
  · show (Pass.keep _).texts = Hook.texts (current (Pass.keep _).message _)
    rw [hm'', ht'']
  · have hne : m ≠ (Pass.keep _).message := hne
    rw [hm''] at hne
    exact current_other (Ne.symm hne) ms content
  · show (Pass.keep _).last = _
    rw [hlast'', toolMessage_snoc, blocks_snoc, lastDecision_append]
    cases hc : content.any isTool with
    | true =>
      obtain ⟨tx, hnew⟩ := htool hc
      rw [hnew]
      simp [lastStretch_same]
    | false =>
      rw [hquiet hc, h.last]
      cases toolMessage ms with
      | none => rfl
      | some m =>
        by_cases hmid : m = id
        · subst hmid
          simp [lastStretch_same]
        · simp [hmid, lastStretch_other (Ne.symm hmid)]

theorem Pass.after_nil : Pass.After {} [] := ⟨rfl, fun _ _ => rfl, rfl⟩

theorem Pass.After.rows {st : Pass} {ms : List Row} (h : st.After ms) (more : List Row) :
    (more.foldl (fun st r => st.assistant r.1 r.2) st).After (ms ++ more) := by
  induction more generalizing st ms with
  | nil => simpa using h
  | cons r more ih =>
    have := ih (h.row r.1 r.2)
    rwa [List.append_assoc] at this

theorem turn_snoc (rows : List Json) (row : Json) :
    turn (rows ++ [row]) = if isBoundary row then [] else turn rows ++ [row] := by
  unfold turn
  rw [List.reverse_append, List.reverse_singleton, List.singleton_append, List.takeWhile_cons]
  cases isBoundary row <;> simp

/-- The pass is over the assistant rows of the turn. -/
theorem pass_turn (rows : List Json) :
    rows.foldl Pass.row {} = (messages (turn rows)).foldl
    (fun st r => st.assistant r.1 r.2) {} := by
  induction rows using List.reverseRecOn with
  | nil => rfl
  | append_singleton rows row ih =>
    rw [List.foldl_concat, ih, turn_snoc, Pass.row]
    cases hb : isBoundary row with
    | true => rfl
    | false =>
      rw [if_neg Bool.false_ne_true, if_neg Bool.false_ne_true, messages, messages,
        List.filterMap_append]
      cases hr : assistant row with
      | none => simp [hr]
      | some r => simp [hr]

/-- **What the pass comes to**: the last stretch of the message, and its last tool use. -/
theorem beforeReplyFrom_eq (parse : Text → Option Json) (tail : Text) :
    beforeReplyFrom parse tail = (toolMessage (messages (turn (rows parse tail)))).bind fun m =>
      if lastDecision (blocks (messages (turn (rows parse tail)))) ||
          (texts (lastStretch m (messages (turn (rows parse tail))))).isEmpty then none
      else some (joined (texts (lastStretch m (messages (turn (rows parse tail)))))) := by
  have hafter := Pass.after_nil.rows (messages (turn (rows parse tail)))
  rw [← pass_turn, List.nil_append] at hafter
  unfold beforeReplyFrom
  rw [show (tailLines tail).filterMap parse = rows parse tail from rfl, hafter.last]
  cases toolMessage (messages (turn (rows parse tail))) with
  | none => rfl
  | some m =>
    show (if _ then _ else _) = (if _ then _ else _)
    cases lastDecision (blocks (messages (turn (rows parse tail)))) <;>
      cases (texts (lastStretch m (messages (turn (rows parse tail))))).isEmpty <;> rfl

/-! ## When the pass reads the whole message -/

/-- The rows of a message are those before its last stretch, and that stretch. -/
theorem ofMessage_eq (m : Text) (ms : List Row) :
    ofMessage m ms = earlier m ms ++ lastStretch m ms := by
  have hall : ∀ l : List Row, ofMessage m (l.takeWhile (·.1 = m)).reverse =
      (l.takeWhile (·.1 = m)).reverse := by
    intro l
    refine List.filter_eq_self.mpr fun r hr => ?_
    have := List.mem_takeWhile_imp (List.mem_reverse.mp hr)
    simpa using this
  have hnone : ∀ l : List Row, ofMessage m (l.takeWhile (·.1 ≠ m)).reverse = [] := by
    intro l
    refine List.filter_eq_nil_iff.mpr fun r hr => ?_
    have := List.mem_takeWhile_imp (List.mem_reverse.mp hr)
    simpa using this
  have hsplit : ms = ((ms.reverse.dropWhile (·.1 ≠ m)).dropWhile (·.1 = m)).reverse ++
      ((ms.reverse.dropWhile (·.1 ≠ m)).takeWhile (·.1 = m)).reverse ++
      (ms.reverse.takeWhile (·.1 ≠ m)).reverse := by
    rw [← List.reverse_append, List.takeWhile_append_dropWhile, ← List.reverse_append,
      List.takeWhile_append_dropWhile, List.reverse_reverse]
  calc ofMessage m ms
      = ofMessage m (((ms.reverse.dropWhile (·.1 ≠ m)).dropWhile (·.1 = m)).reverse ++
          ((ms.reverse.dropWhile (·.1 ≠ m)).takeWhile (·.1 = m)).reverse ++
          (ms.reverse.takeWhile (·.1 ≠ m)).reverse) := congrArg _ hsplit
    _ = earlier m ms ++ lastStretch m ms := by
        unfold ofMessage at hall hnone ⊢
        rw [List.filter_append, List.filter_append, hall, hnone, List.append_nil]
        rfl

/-- The message asks a question or shows a plan. -/
def decides (m : Text) (ms : List Row) : Bool :=
  (blocks (ofMessage m ms)).any fun b => isTool b && isDecision b

/-- A message whose last tool use decides is one that `decides` finds. -/
theorem lastDecision_decides {ms : List Row} {m : Text} (hm : toolMessage ms = some m)
    (hd : lastDecision (blocks ms) = true) : decides m ms = true := by
  induction ms using List.reverseRecOn with
  | nil => cases hm
  | append_singleton ms r ih =>
    obtain ⟨id, content⟩ := r
    rw [toolMessage_snoc] at hm
    rw [blocks_snoc, lastDecision_append] at hd
    have hof : decides m (ms ++ [(id, content)]) = (decides m ms ||
        if id = m then content.any (fun b => isTool b && isDecision b) else false) := by
      unfold decides ofMessage
      rw [List.filter_append]
      by_cases hid : id = m <;> simp [blocks, hid]
    rw [hof]
    cases hc : content.any isTool with
    | true =>
      rw [hc, if_pos rfl] at hm hd
      obtain rfl := Option.some.inj hm
      rw [if_pos rfl, Bool.or_eq_true]
      right
      unfold lastDecision at hd
      obtain ⟨b, hb, hdec⟩ := (Option.any_eq_true _ _).mp hd
      rw [List.any_eq_true]
      refine ⟨b, List.mem_reverse.mp (List.mem_of_find?_eq_some hb), ?_⟩
      rw [Bool.and_eq_true]
      exact ⟨List.find?_some hb, hdec⟩
    | false =>
      rw [hc, if_neg Bool.false_ne_true] at hm hd
      rw [ih hm hd]
      rfl

theorem joined_cons (t : Text) {ts : List Text} (h : ts ≠ []) :
    joined (t :: ts) = t ++ "\n\n".toList ++ joined ts := by
  cases ts with
  | nil => exact absurd rfl h
  | cons t' ts => simp [joined, Text.join, List.intercalate]

/-- More texts make a longer text. -/
theorem joined_longer {ts us : List Text} (hts : ts ≠ []) (hus : us ≠ []) (hne : ∀ t ∈ ts, t ≠ []) :
    (joined us).length < (joined (ts ++ us)).length := by
  induction ts with
  | nil => exact absurd rfl hts
  | cons t ts ih =>
    have hpos : 0 < t.length := List.length_pos_iff.mpr (hne t List.mem_cons_self)
    rw [List.cons_append, joined_cons t (by simp [hus]), List.length_append, List.length_append]
    cases ts with
    | nil =>
      rw [List.nil_append]
      omega
    | cons t' ts =>
      have := ih (List.cons_ne_nil _ _) fun u hu => hne u (List.mem_cons_of_mem _ hu)
      omega

theorem texts_ne_nil {ms : List Row} : ∀ t ∈ texts ms, t ≠ [] := by
  intro t ht
  obtain ⟨b, -, hb⟩ := List.mem_filterMap.mp ht
  unfold textOf at hb
  split at hb
  · dsimp only at hb
    split at hb
    · cases hb
    next hempty =>
      obtain rfl := Option.some.inj hb
      simpa using hempty
  · cases hb

/-- The pass has the whole message: with a question in it, the last tool use is one or the last
stretch is silent; without, the rows before the last stretch are. -/
def Unbroken (ms : List Row) : Prop :=
  ∀ m, toolMessage ms = some m →
    if decides m ms then lastDecision (blocks ms) = true ∨ texts (lastStretch m ms) = []
    else texts (earlier m ms) = []

/-- **When the pass reads what the message says.** -/
theorem beforeReplyFrom_iff (parse : Text → Option Json) (tail : Text) :
    beforeReplyFrom parse tail = before (messages (turn (rows parse tail))) ↔
      Unbroken (messages (turn (rows parse tail))) := by
  rw [beforeReplyFrom_eq]
  generalize messages (turn (rows parse tail)) = ms
  unfold before Unbroken
  cases hm : toolMessage ms with
  | none => simp
  | some m =>
    have htexts : texts (ofMessage m ms) = texts (earlier m ms) ++ texts (lastStretch m ms) := by
      rw [ofMessage_eq, texts_append]
    have hdec := lastDecision_decides hm
    simp only [Option.bind_some, Option.some.injEq, forall_eq']
    show _ = (if decides m ms || (texts (ofMessage m ms)).isEmpty then none
      else some (joined (texts (ofMessage m ms)))) ↔ _
    rw [htexts]
    cases hd : decides m ms with
    | true =>
      rw [if_pos rfl, Bool.true_or, if_pos rfl]
      cases lastDecision (blocks ms) with
      | true => simp
      | false => cases texts (lastStretch m ms) <;> simp
    | false =>
      have hlast : lastDecision (blocks ms) = false := by
        cases hl : lastDecision (blocks ms) with
        | false => rfl
        | true => rw [hdec hl] at hd; cases hd
      rw [if_neg Bool.false_ne_true, hlast, Bool.false_or, Bool.false_or]
      constructor
      · intro heq
        by_contra hne
        cases hs : texts (lastStretch m ms) with
        | nil =>
          rw [hs] at heq
          simp [hne] at heq
        | cons t ts =>
          rw [hs] at heq
          have hlonger := joined_longer hne (List.cons_ne_nil t ts) texts_ne_nil
          simp [hne] at heq
          rw [← heq] at hlonger
          exact Nat.lt_irrefl _ hlonger
      · intro hnil
        rw [hnil, List.nil_append]

/-! ## A suffix of the transcript -/

/-- `pre` ends where a line does. -/
def CutAtLine (pre : Text) : Prop := pre = [] ∨ pre.getLast? = some '\n'

theorem tailLines_append {pre : Text} (hcut : CutAtLine pre) (suf : Text) :
    tailLines (pre ++ suf) = tailLines pre ++ tailLines suf := by
  unfold tailLines
  rw [Text.lines_append hcut, List.map_append]

theorem rows_append {pre : Text} (hcut : CutAtLine pre) (parse : Text → Option Json) (suf : Text) :
    rows parse (pre ++ suf) = rows parse pre ++ rows parse suf := by
  unfold rows
  rw [tailLines_append hcut, List.filterMap_append]

theorem messages_append (rs rs' : List Json) : messages (rs ++ rs') = messages rs ++ messages rs' :=
  List.filterMap_append

theorem ofMessage_append (m : Text) (ms ms' : List Row) :
    ofMessage m (ms ++ ms') = ofMessage m ms ++ ofMessage m ms' :=
  List.filter_append _ _

theorem Unescaped.suffix {pre suf : Text} (hcut : CutAtLine pre)
    (hu : Unescaped parse (pre ++ suf)) :
    Unescaped parse suf := by
  intro l hl
  refine hu l ?_
  rw [tailLines_append hcut]
  exact List.mem_append_right _ hl

/-- The last row that tells its message, when none of it stands before. -/
theorem lastRow_suffix {p : Row → Bool} {ms ms' : List Row} {m : Text}
    (hm : ((ms ++ ms').reverse.findSome? fun r => if p r then some r.1 else none) = some m)
    (hpre : ofMessage m ms = []) :
    (ms'.reverse.findSome? fun r => if p r then some r.1 else none) = some m := by
  rw [List.reverse_append, List.findSome?_append] at hm
  cases hsuf : ms'.reverse.findSome? fun r => if p r then some r.1 else none with
  | some m' => rwa [hsuf, Option.some_or] at hm
  | none =>
    rw [hsuf, Option.none_or] at hm
    obtain ⟨r, hr, hpr⟩ := List.exists_of_findSome?_eq_some hm
    have hid : r.1 = m := by
      split at hpr
      · exact Option.some.inj hpr
      · cases hpr
    have hout := List.filter_eq_nil_iff.mp hpre r (List.mem_reverse.mp hr)
    exact absurd (decide_eq_true hid) hout

/-- No row tells a message in the suffix of rows that tell none. -/
theorem lastRow_none {p : Row → Bool} {ms ms' : List Row}
    (hm : ((ms ++ ms').reverse.findSome? fun r => if p r then some r.1 else none) = none) :
    (ms'.reverse.findSome? fun r => if p r then some r.1 else none) = none := by
  rw [List.reverse_append, List.findSome?_append] at hm
  exact (Option.or_eq_none_iff.mp hm).1

theorem leadInFrom_suffix {pre suf toolUseId m : Text} (hu : Unescaped parse (pre ++ suf))
    (hcut : CutAtLine pre) (hm : messageOf (messages (rows parse (pre ++ suf))) toolUseId = some m)
    (hall : ofMessage m (messages (rows parse pre)) = []) :
    leadInFrom parse suf toolUseId = leadInFrom parse (pre ++ suf) toolUseId := by
  rw [leadInFrom_eq hu, leadInFrom_eq (hu.suffix hcut), hm]
  rw [rows_append hcut, messages_append] at hm ⊢
  have hsuf : messageOf (messages (rows parse suf)) toolUseId = some m := lastRow_suffix hm hall
  rw [hsuf, Option.bind_some, Option.bind_some, ofMessage_append, hall, List.nil_append]

/-- A turn begins at its last boundary, so what comes before does not count. -/
theorem turn_suffix {rs rs' : List Json} (hb : ∃ r ∈ rs', isBoundary r = true) :
    turn (rs ++ rs') = turn rs' := by
  obtain ⟨r, hr, hr'⟩ := hb
  have hstop : ¬ ∀ x ∈ rs'.reverse, (!isBoundary x) = true := by
    intro h
    have := h r (List.mem_reverse.mpr hr)
    rw [hr'] at this
    cases this
  unfold turn
  rw [List.reverse_append, List.takeWhile_append]
  rw [if_neg]
  intro hlen
  have heq : rs'.reverse.takeWhile _ = rs'.reverse :=
    (List.takeWhile_sublist fun r => !isBoundary r).eq_of_length hlen
  exact hstop (List.takeWhile_eq_self_iff.mp heq)

theorem turn_all {rs : List Json} (hb : ¬ ∃ r ∈ rs, isBoundary r = true) : turn rs = rs := by
  unfold turn
  rw [List.takeWhile_eq_self_iff.mpr, List.reverse_reverse]
  intro r hr
  cases hr' : isBoundary r with
  | false => rfl
  | true => exact absurd ⟨r, List.mem_reverse.mp hr, hr'⟩ hb

theorem mem_ofMessage_of_last {p : Row → Bool} {ms : List Row} {m : Text}
    (hm : (ms.reverse.findSome? fun r => if p r then some r.1 else none) = some m) :
    ∃ r ∈ ms, r.1 = m ∧ p r = true := by
  obtain ⟨r, hr, hpr⟩ := List.exists_of_findSome?_eq_some hm
  cases hp : p r with
  | false => rw [hp] at hpr; cases hpr
  | true =>
    rw [hp] at hpr
    exact ⟨r, List.mem_reverse.mp hr, Option.some.inj hpr, hp⟩

/-- The last stretch of a message lies in the suffix that holds all its rows. -/
theorem lastStretch_suffix {ms ms' : List Row} {m : Text} (hpre : ofMessage m ms = [])
    (hin : ∃ r ∈ ms', r.1 = m) : lastStretch m (ms ++ ms') = lastStretch m ms' := by
  have hnone : ∀ r ∈ ms.reverse, r.1 ≠ m := by
    intro r hr hid
    exact absurd (decide_eq_true hid) (List.filter_eq_nil_iff.mp hpre r (List.mem_reverse.mp hr))
  unfold lastStretch
  rw [List.reverse_append, List.dropWhile_append]
  have hrest : ms'.reverse.dropWhile (·.1 ≠ m) ≠ [] := by
    intro hnil
    obtain ⟨r, hr, hid⟩ := hin
    have := List.dropWhile_eq_nil_iff.mp hnil r (List.mem_reverse.mpr hr)
    simp [hid] at this
  rw [if_neg (by simpa using hrest), List.takeWhile_append]
  have hquiet : ms.reverse.takeWhile (·.1 = m) = [] := by
    cases hms : ms.reverse with
    | nil => rfl
    | cons r rest =>
      rw [hms] at hnone
      exact List.takeWhile_cons_of_neg (by simpa using hnone r List.mem_cons_self)
  rw [hquiet, List.append_nil]
  split
  next hlen => rw [(List.takeWhile_sublist _).eq_of_length hlen]
  next => rfl

theorem any_isTool_blocks {ms : List Row} (h : ∃ r ∈ ms, r.2.any isTool = true) :
    (blocks ms).any isTool = true := by
  obtain ⟨r, hr, htool⟩ := h
  obtain ⟨b, hb, hbt⟩ := List.any_eq_true.mp htool
  exact List.any_eq_true.mpr ⟨b, List.mem_flatMap.mpr ⟨r, hr, hb⟩, hbt⟩

/-- Reading only a suffix gives the same message when the cut is at a line and behind the turn's
start. -/
theorem beforeReplyFrom_suffix {pre suf : Text} (hcut : CutAtLine pre)
    (hall : ∀ m, toolMessage (messages (turn (rows parse (pre ++ suf)))) = some m →
      ofMessage m (messages (rows parse pre)) = [])
    (hb : (∃ r ∈ rows parse (pre ++ suf), isBoundary r = true) →
      ∃ r ∈ rows parse suf, isBoundary r = true) :
    beforeReplyFrom parse suf = beforeReplyFrom parse (pre ++ suf) := by
  rw [beforeReplyFrom_eq, beforeReplyFrom_eq]
  rw [rows_append hcut] at hall hb ⊢
  by_cases hsuf : ∃ r ∈ rows parse suf, isBoundary r = true
  · rw [turn_suffix hsuf]
  · -- no boundary at all: the turn is every row
    rw [turn_all hsuf, turn_all fun h => hsuf (hb h)]
    rw [turn_all fun h => hsuf (hb h)] at hall
    rw [messages_append] at hall ⊢
    cases hm : toolMessage (messages (rows parse pre) ++ messages (rows parse suf)) with
    | none => rw [show toolMessage (messages (rows parse suf)) = none from lastRow_none hm]; rfl
    | some m =>
      have hpre := hall m hm
      have hm' : toolMessage (messages (rows parse suf)) = some m := lastRow_suffix hm hpre
      obtain ⟨r, hr, hid, htool⟩ := mem_ofMessage_of_last hm'
      have hblocks : blocks (messages (rows parse pre) ++ messages (rows parse suf)) =
          blocks (messages (rows parse pre)) ++ blocks (messages (rows parse suf)) :=
            List.flatMap_append
      rw [hm', Option.bind_some, Option.bind_some, lastStretch_suffix hpre ⟨r, hr, hid⟩, hblocks,
        lastDecision_append,
        any_isTool_blocks ⟨r, hr, htool⟩, if_pos rfl]

/-! ## The text of a question and of a reply -/

/-- What the two functions make of the tail. -/
structure ReadsMessages (parse : Text → Option Json) (tail : Text) : Prop where
  lead : ∀ toolUseId m, messageOf (messages (rows parse tail)) toolUseId = some m →
    leadInFrom parse tail toolUseId = Hook.lead (ofMessage m (messages (rows parse tail)))
  before : beforeReplyFrom parse tail = Hook.before (messages (turn (rows parse tail)))
  /-- The two agree on the text of a message that lies in the turn. -/
  agree : ∀ toolUseId m text, messageOf (messages (rows parse tail)) toolUseId = some m →
    toolMessage (messages (turn (rows parse tail))) = some m →
    ofMessage m (messages (turn (rows parse tail))) = ofMessage m (messages (rows parse tail)) →
    beforeReplyFrom parse tail = some text → leadInFrom parse tail toolUseId = some text
  leadSuffix : ∀ pre suf toolUseId m, tail = pre ++ suf → CutAtLine pre →
    messageOf (messages (rows parse tail)) toolUseId = some m →
    ofMessage m (messages (rows parse pre)) = [] →
    leadInFrom parse suf toolUseId = leadInFrom parse tail toolUseId
  beforeSuffix : ∀ pre suf, tail = pre ++ suf → CutAtLine pre →
    (∀ m, toolMessage (messages (turn (rows parse tail))) = some m →
      ofMessage m (messages (rows parse pre)) = []) →
    ((∃ r ∈ rows parse tail, isBoundary r = true) → ∃ r ∈ rows parse suf, isBoundary r = true) →
    beforeReplyFrom parse suf = beforeReplyFrom parse tail

/-- The text before a reply is the lead-in of that message. -/
theorem before_lead {ms : List Row} {m : Text} (hm : toolMessage ms = some m) {text : Text}
    (h : before ms = some text) : lead (ofMessage m ms) = some text := by
  unfold before at h
  rw [hm, Option.bind_some] at h
  dsimp only at h
  split at h
  · cases h
  next hsome =>
    have htexts : (texts (ofMessage m ms)).isEmpty = false := by
      rw [Bool.not_eq_true, Bool.or_eq_false_iff] at hsome
      exact hsome.2
    unfold lead
    rw [htexts, if_neg Bool.false_ne_true]
    exact h

/-- **What text belongs to a question or a reply**, for every tail: just when the pass sees the
whole message of the last tool use, or nothing of it has to be said. -/
theorem reads_messages_iff (parse : Text → Option Json) (tail : Text) (hu : Unescaped parse tail) :
    ReadsMessages parse tail ↔ Unbroken (messages (turn (rows parse tail))) := by
  constructor
  · intro h
    exact (beforeReplyFrom_iff parse tail).mp h.before
  · intro hunbroken
    have hbefore := (beforeReplyFrom_iff parse tail).mpr hunbroken
    have hlead : ∀ toolUseId m, messageOf (messages (rows parse tail)) toolUseId = some m →
        leadInFrom parse tail toolUseId = lead (ofMessage m (messages (rows parse tail))) := by
      intro toolUseId m hm
      rw [leadInFrom_eq hu, hm, Option.bind_some]
    refine ⟨hlead, hbefore, ?_, ?_, ?_⟩
    · intro toolUseId m text hid hm hall htext
      rw [hlead toolUseId m hid, ← hall]
      exact before_lead hm (hbefore ▸ htext)
    · intro pre suf toolUseId m heq hcut hm hall
      subst heq
      exact leadInFrom_suffix hu hcut hm hall
    · intro pre suf heq hcut hall hb
      subst heq
      exact beforeReplyFrom_suffix hcut hall hb

section

variable (parse : Text → Option Json) (tail : Text)

instance : Decidable (Unescaped parse tail) :=
  inferInstanceAs <| Decidable <| ∀ l ∈ tailLines tail, ∀ row ∈ parse l, ∀ r ∈ assistant row,
    r.1 <:+: l ∧ ∀ b ∈ r.2, ∀ id ∈ str b "id", id <:+: l

instance (ms : List Row) : Decidable (Unbroken ms) :=
  inferInstanceAs <| Decidable <| ∀ m ∈ toolMessage ms,
    if decides m ms then lastDecision (blocks ms) = true ∨ texts (lastStretch m ms) = []
    else texts (earlier m ms) = []

end

/-- A line of a text row, and its value. -/
def textLine (id text : String) : Text × Json :=
  ("\x7b\"type\":\"assistant\",\"message\":\x7b\"id\":\"".toList ++ id.toList ++
      "\",\"content\":[\x7b\"type\":\"text\",\"text\":\"".toList ++ text.toList ++
      "\"\x7d]\x7d\x7d".toList,
    .object [("type".toList, .string "assistant".toList), ("message".toList, .object
      [("id".toList, .string id.toList), ("content".toList, .array [.object
        [("type".toList, .string "text".toList), ("text".toList, .string text.toList)]])])])

/-- A line of a tool use row, and its value. -/
def toolLine (id name toolUseId : String) : Text × Json :=
  ("\x7b\"type\":\"assistant\",\"message\":\x7b\"id\":\"".toList ++ id.toList ++
      "\",\"content\":[\x7b\"type\":\"tool_use\",\"name\":\"".toList ++ name.toList ++
      "\",\"id\":\"".toList ++ toolUseId.toList ++ "\"\x7d]\x7d\x7d".toList,
    .object [("type".toList, .string "assistant".toList), ("message".toList, .object
      [("id".toList, .string id.toList), ("content".toList, .array [.object
        [("type".toList, .string "tool_use".toList), ("name".toList, .string name.toList),
          ("id".toList, .string toolUseId.toList)]])])])

/-- A parser that knows these lines. -/
def parseOf (lines : List (Text × Json)) (l : Text) : Option Json :=
  (lines.find? fun line => decide (line.1 = l)).map (·.2)

def transcriptOf (lines : List (Text × Json)) : Text := lines.flatMap fun line => line.1 ++ ['\n']

/-- A message in one piece. -/
def unbrokenLines : List (Text × Json) :=
  [textLine "m2" "Later.", textLine "m1" "First.", toolLine "m1" "Bash" "t1", textLine "m1" "Then."]

theorem reads_messages_iff_unbroken : ReadsMessages (parseOf unbrokenLines)
    (transcriptOf unbrokenLines) :=
  (reads_messages_iff _ _ (by decide +kernel)).mpr (by decide +kernel)

/-- A row of another message stands between the text and the tool use of `m1`. -/
def brokenLines : List (Text × Json) :=
  [textLine "m1" "First.", textLine "m2" "Other.", toolLine "m1" "Bash" "t1"]

/-- The text of `m1` is lost: the message has it, the pass has none. -/
theorem broken_text_lost : beforeReplyFrom (parseOf brokenLines) (transcriptOf brokenLines) = none ∧
    leadInFrom (parseOf brokenLines) (transcriptOf brokenLines) "t1".toList = some "First.".toList ∧
    ¬ ∀ parse tail, Unescaped parse tail → ReadsMessages parse tail := by
  refine ⟨by decide +kernel, by decide +kernel, fun h => ?_⟩
  have hbefore := (h (parseOf brokenLines) (transcriptOf brokenLines) (by decide +kernel)).before
  revert hbefore
  decide +kernel

end Sonara.Hook
