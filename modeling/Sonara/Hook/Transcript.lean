import Mathlib.Data.List.Infix
import Sonara.Json
import Sonara.Strings

/-!
# The text of a message (`transcript.rs`)

The transcript is a file of JSON rows, one content block a row; the rows of one message share
`message.id`. `lead_in_from` collects the message that holds a tool use; `before_reply_from` goes
over the rows once for the last message with a tool use in the turn. Both work on the tail of the
file, which starts at a line.

`parse` stands for `serde_json::from_str`. Reading the file and waiting for it are left out.
-/

namespace Sonara.Hook

/-- The longest lead-in, in characters. -/
def THINKING_MAX : Nat := 4000

/-- A line without its end (`str::lines`): a line feed, or both of a pair. -/
def chomp (line : Text) : Text :=
  match line.getLast? with
  | some '\n' =>
    if line.dropLast.getLast? = some '\r' then line.dropLast.dropLast else line.dropLast
  | _ => line

def tailLines (tail : Text) : List Text := (Text.lines tail).map chomp

def str (row : Json) (key : String) : Option Text := (row.get key.toList).bind Json.asStr

/-- The content blocks of an assistant row with `message.id`. -/
def assistant (row : Json) : Option (Text × List Json) :=
  if str row "type" = some "assistant".toList then do
    let message ← row.get "message".toList
    let id ← str message "id"
    let content ← (message.get "content".toList).bind Json.asArray
    some (id, content)
  else none

def kind (block : Json) : Text := (str block "type").getD []

/-- At most `THINKING_MAX` characters, cut after the last sentence end within them. -/
def clip (text : Text) : Option Text :=
  let text := Text.trim text
  if text.length ≤ THINKING_MAX then if text.isEmpty then none else some text
  else
    let head := text.take THINKING_MAX
    let kept := head.rdropWhile fun c => !(c == '.' || c == '!' || c == '?')
    let cut := Text.trim (if kept.isEmpty then head else kept)
    if cut.isEmpty then none else some cut

/-- The texts joined by a blank line. -/
def joined (texts : List Text) : Text := Text.join "\n\n".toList texts

/-! ## The lead-in of a question -/

inductive Found where
  /-- The tool use is not in the tail. -/
  | noToolUse
  /-- Its message: the lead-in, if it has one. -/
  | message (lead : Option Text)
  deriving DecidableEq, Repr

/-- The block is the tool use `toolUseId`. -/
def isToolUse (toolUseId : Text) (block : Json) : Bool :=
  decide (kind block = "tool_use".toList ∧ str block "id" = some toolUseId)

/-- A content block of the message: its thinking replaces what was there, its text is added. -/
def collect (st : Option Text × List Text) (b : Json) : Option Text × List Text :=
  let text (key : String) : Text := Text.trim ((str b key).getD [])
  if kind b = "text".toList then
    if (text "text").isEmpty then st else (st.1, st.2 ++ [text "text"])
  else if kind b = "thinking".toList then
    if (text "thinking").isEmpty then st else (some (text "thinking"), st.2)
  else st

/-- A row of the message. -/
def collectRow (message : Text) (st : Option Text × List Text) (row : Json) :
    Option Text × List Text :=
  match assistant row with
  | none => st
  | some (id, content) => if id ≠ message then st else content.foldl collect st

variable (parse : Text → Option Json)

def find (tail toolUseId : Text) : Found :=
  let lines := tailLines tail
  let message := ((lines.reverse.filter fun l => toolUseId <:+: l).filterMap parse).findSome?
      fun row =>
    (assistant row).bind fun r => if r.2.any (isToolUse toolUseId) then some r.1 else none
  match message with
  | none => .noToolUse
  | some message =>
    let rows := (lines.filter fun l => message <:+: l).filterMap parse
    let (thinking, texts) := rows.foldl (collectRow message) (none, [])
    if texts.isEmpty then .message (thinking.bind clip) else .message (some (joined texts))

/-- The lead-in of the question `toolUseId`. -/
def leadInFrom (tail toolUseId : Text) : Option Text :=
  match find parse tail toolUseId with
  | .message lead => lead
  | .noToolUse => none

/-! ## The text before the final reply -/

/-- A user row that is a prompt: not a tool result, not injected. -/
def isPrompt (row : Json) : Bool :=
  match row.get "isMeta".toList with
  | some (.bool true) => false
  | _ =>
    match (row.get "message".toList).bind (Json.get "content".toList) with
    | some (.string _) => true
    | some (.array blocks) => !blocks.any fun b => kind b = "tool_result".toList
    | _ => false

/-- The row ends the turn: a prompt, or a Stop. -/
def isBoundary (row : Json) : Bool :=
  let kindOf := (str row "type").getD []
  let subtype := (str row "subtype").getD []
  (decide (kindOf = "user".toList) && isPrompt row) ||
    (decide (kindOf = "system".toList) &&
      decide (subtype = "stop_hook_summary".toList ∨ subtype = "turn_duration".toList))

/-- The tool use is a question or a plan. -/
def isDecision (block : Json) : Bool :=
  let name := (str block "name").getD []
  decide (name = "AskUserQuestion".toList ∨ name = "ExitPlanMode".toList)

/-- The pass over the rows: the last message with a tool use, its texts and whether that tool is
a decision; the message being read, and its texts so far. -/
structure Pass where
  last : Option (Text × List Text × Bool) := none
  message : Text := []
  texts : List Text := []
  deriving DecidableEq, Repr

def Pass.block (st : Pass) (b : Json) : Pass :=
  if kind b = "text".toList then
    let t := Text.trim ((str b "text").getD [])
    if t.isEmpty then st else { st with texts := st.texts ++ [t] }
  else if kind b = "tool_use".toList then
    { st with last := some (st.message, st.texts, isDecision b) }
  else st

/-- The row of another message begins its texts anew. -/
def Pass.start (st : Pass) (id : Text) : Pass :=
  if id ≠ st.message then { st with message := id, texts := [] } else st

/-- Text rows after the tool use of the same message belong to it. -/
def Pass.keep (st : Pass) : Pass :=
  match st.last with
  | some (m, _, decision) =>
    if m = st.message then { st with last := some (m, st.texts, decision) } else st
  | none => st

/-- An assistant row. -/
def Pass.assistant (st : Pass) (id : Text) (content : List Json) : Pass :=
  (content.foldl Pass.block (st.start id)).keep

def Pass.row (st : Pass) (row : Json) : Pass :=
  if isBoundary row then {}
  else
    match Hook.assistant row with
    | none => st
    | some (id, content) => st.assistant id content

/-- The text blocks of the turn's last assistant message with a tool use. -/
def beforeReplyFrom (tail : Text) : Option Text :=
  match (((tailLines tail).filterMap parse).foldl Pass.row {}).last with
  | none => none
  | some (_, texts, decision) =>
    if !decision && !texts.isEmpty then some (joined texts) else none

end Sonara.Hook
