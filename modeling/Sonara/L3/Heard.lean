import Sonara.L3.Run

/-!
# What a list of actions lets the user hear

Decisions and chunks of prose, in order (`Item`). Prose is spoken in groups: one action
speaks the chunks of one group, joined (`Renders`). How it is grouped depends on the
settings; the words heard do not (`Renders.transcript`).
-/

namespace Sonara

open Text

/-- White space between two texts keeps their words apart. -/
theorem Text.words_split (t t' : Text) {c : Char} (h : isWhitespace c = true) :
    words (t ++ c :: t') = words t ++ words t' := by
  unfold words
  rw [List.splitOnP_append_cons t t' h, List.filter_append]

namespace L3

open Sonara.L2 (ChannelId)

/-- A decision, or a chunk of prose. -/
inductive Item where
  | decision (id : Nat) (text : Text)
  | chunk (text : Text)
  deriving DecidableEq

/-- Held prose, chunk by chunk. -/
def chunks (held : List (Text × Bool)) : List Item := held.map fun p => .chunk p.1

@[simp] theorem chunks_nil : chunks [] = [] := rfl

@[simp] theorem chunks_append (xs ys : List (Text × Bool)) :
    chunks (xs ++ ys) = chunks xs ++ chunks ys :=
  List.map_append

/-- The action speaks and stores nothing. -/
def Action.Silent : Action → Prop
  | .speak _ _ _ _ _ => False
  | .store _ _ _ _ => False
  | _ => True

/-- The actions speak these items of the channel, in order and each once. -/
inductive Renders (ch : ChannelId) : List Action → List Item → Prop
  | nil : Renders ch [] []
  | silent {a : Action} {out : List Action} {xs : List Item} (ha : a.Silent)
    (h : Renders ch out xs) :
      Renders ch (a :: out) xs
  | decision {out : List Action} {xs : List Item} (id : Nat) (text : Text) (kind : Kind)
      (h : Renders ch out xs) :
      Renders ch (.speak ch text (some id) false kind :: out) (.decision id text :: xs)
  | prose {out : List Action} {xs : List Item} (held : List (Text × Bool)) (h : Renders ch out xs) :
      Renders ch (.speak ch (joinProse held) none false .prose :: out) (chunks held ++ xs)

namespace Renders

variable {ch : ChannelId} {out o : List Action} {xs ys : List Item}

theorem append (h : Renders ch out xs) (h' : Renders ch o ys) :
    Renders ch (out ++ o) (xs ++ ys) := by
  induction h with
  | nil => exact h'
  | silent ha _ ih => exact .silent ha ih
  | decision id text kind _ ih => exact .decision id text kind ih
  | prose held _ ih =>
    rw [List.append_assoc]
    exact .prose held ih

theorem mute (h : ∀ a ∈ out, a.Silent) : Renders ch out [] := by
  induction out with
  | nil => exact .nil
  | cons a out ih =>
    exact .silent (h a List.mem_cons_self) (ih fun b hb => h b (List.mem_cons_of_mem _ hb))

end Renders

/-- The items of actions that speak prose chunk by chunk, each behind its marker. -/
def Action.items : Action → List Item
  | .speak _ text (some id) _ _ => [.decision id text]
  | .speak _ text none _ _ => [.chunk text.tail]
  | _ => []

/-- The items spoken, chunk by chunk. -/
def itemsOf (out : List Action) : List Item := out.flatMap Action.items

@[simp] theorem itemsOf_nil : itemsOf [] = [] := rfl

@[simp] theorem itemsOf_append (out o : List Action) :
    itemsOf (out ++ o) = itemsOf out ++ itemsOf o :=
  List.flatMap_append

theorem itemsOf_mute {out : List Action} (h : ∀ a ∈ out, a.Silent) : itemsOf out = [] := by
  refine List.flatMap_eq_nil_iff.mpr fun a ha => ?_
  have hs := h a ha
  cases a with
  | speak => exact hs.elim
  | _ => rfl

/-! ## The words -/

/-- One token of a transcript. -/
inductive Token where
  | decision (id : Nat) (text : Text)
  | word (w : Text)
  deriving DecidableEq

/-- The words of prose; the marker of a spoken text is not heard. -/
def proseTokens (t : Text) : List Token := (words (t.filter (· ≠ CodeSpeech.spoken))).map .word

/-- What an action lets hear. -/
def Action.tokens : Action → List Token
  | .speak _ text (some id) _ _ => [.decision id text]
  | .speak _ text none _ _ => proseTokens text
  | _ => []

/-- The decisions, and between them the words of the prose. -/
def transcript (out : List Action) : List Token := out.flatMap Action.tokens

def Item.tokens : Item → List Token
  | .decision id text => [.decision id text]
  | .chunk text => proseTokens text

theorem proseTokens_split (t t' : Text) {c : Char} (h : isWhitespace c = true) :
    proseTokens (t ++ c :: t') = proseTokens t ++ proseTokens t' := by
  have hc : c ≠ CodeSpeech.spoken := by
    rintro rfl
    exact absurd h (by decide)
  unfold proseTokens
  rw [List.filter_append, List.filter_cons_of_pos (by simpa using hc), words_split _ _ h,
    List.map_append]

theorem proseTokens_marked (t : Text) : proseTokens (CodeSpeech.spoken :: t) = proseTokens t := by
  unfold proseTokens
  rw [List.filter_cons_of_neg (by simp)]

/-- The words of joined chunks are the words of the chunks. -/
theorem joinProse_tokens (held : List (Text × Bool)) :
    proseTokens (joinProse held) = (chunks held).flatMap Item.tokens := by
  have hfold : ∀ (held : List (Text × Bool)) (acc : Text),
      proseTokens (held.foldl
        (fun acc p => (if acc = [] then [] else acc ++ if p.2 then ['\n', '\n'] else [' ']) ++
          p.1) acc) =
      proseTokens acc ++ (chunks held).flatMap Item.tokens := by
    intro held
    induction held with
    | nil => exact fun acc => (List.append_nil _).symm
    | cons p held ih =>
      intro acc
      rw [List.foldl_cons, ih]
      show _ = proseTokens acc ++ (proseTokens p.1 ++ (chunks held).flatMap Item.tokens)
      rw [← List.append_assoc]
      congr 1
      split
      next hacc =>
        rw [hacc]
        rfl
      · split
        · -- A blank line: two line feeds, with no word between them.
          have hsplit := proseTokens_split acc ('\n' :: p.1) (c := '\n') (by decide)
          have hempty := proseTokens_split [] p.1 (c := '\n') (by decide)
          rw [List.nil_append] at hempty
          rw [List.append_assoc]
          exact hsplit.trans (congrArg (proseTokens acc ++ ·) hempty)
        · rw [List.append_assoc]
          exact proseTokens_split acc p.1 (by decide)
  unfold joinProse
  rw [proseTokens_marked, hfold]
  rfl

/-- **The words heard are the words of the items**, however the prose is grouped. -/
theorem Renders.transcript {ch : ChannelId} {out : List Action} {xs : List Item}
    (h : Renders ch out xs) :
    transcript out = xs.flatMap Item.tokens := by
  induction h with
  | nil => rfl
  | @silent a out xs ha _ ih =>
    have hnone : a.tokens = [] := by
      cases a with
      | speak => exact ha.elim
      | _ => rfl
    show a.tokens ++ L3.transcript out = _
    rw [hnone, ih]
    rfl
  | @decision out xs id text kind _ ih =>
    show [Token.decision id text] ++ L3.transcript out = _
    rw [ih]
    rfl
  | @prose out xs held _ ih =>
    show proseTokens (joinProse held) ++ L3.transcript out = _
    rw [ih, joinProse_tokens, List.flatMap_append]

end L3

end Sonara
