import Sonara.Strings

/-!
# The batches of Kokoro (`phonemes.rs`)

One synthesis takes a batch of at most `max` tokens. Phonemes are cut at sentence ends; a sentence
that is too long is cut at clause marks, a clause at spaces and a word anywhere, and the pieces
are packed again. Only symbols of the vocabulary are tokens; the cuts and the packing count tokens,
and move every character.

`vocab` tells the symbols the model has.
-/

namespace Sonara.Kokoro

variable (vocab : Char → Bool) (max : Nat)

def tokenLen (s : Text) : Nat := s.countP vocab

/-- `s` after any char in `ends` that a space or the end follows, which stays with the piece
before it; the pieces trimmed. -/
def splitAfter (ends : List Char) (s : Text) : List Text :=
  ((go [] s).map Text.trim).filter (· ≠ [])
where
  go (cur : Text) : Text → List Text
    | [] => if (Text.trim cur).isEmpty then [] else [cur]
    | c :: rest =>
      if ends.contains c && rest.head?.all (· == ' ') then (cur ++ [c]) :: go [] rest
      else go (cur ++ [c]) rest

/-- A piece joins the last batch if it fits. -/
def packNext (out : List Text) (p : Text) : List Text :=
  match out.getLast? with
  | some last =>
    if tokenLen vocab last + 1 + tokenLen vocab p ≤ max then out.dropLast ++ [last ++ ' ' :: p]
    else out ++ [p]
  | none => out ++ [p]

def pack (pieces : List Text) : List Text := pieces.foldl (packNext vocab max) []

/-- A word cut anywhere: before the token that is one too many. -/
def chop (cur : Text) : Text → List Text
  | [] => if cur.isEmpty then [] else [cur]
  | c :: rest =>
    if vocab c && tokenLen vocab cur == max then cur :: chop [c] rest else chop (cur ++ [c]) rest

def wordParts (word : Text) : List Text :=
  if tokenLen vocab word ≤ max then [word] else chop vocab max [] word

def clauseParts (clause : Text) : List Text :=
  if tokenLen vocab clause ≤ max then [clause] else (clause.splitOn ' ').flatMap
    (wordParts vocab max)

/-- One piece, cut if it is longer than `max` tokens. -/
def cut (piece : Text) : List Text :=
  if tokenLen vocab piece ≤ max then [piece]
  else pack vocab max ((splitAfter [',', ';', ':'] piece).flatMap (clauseParts vocab max))

/-- The marks that end a sentence. -/
def sentenceEnds : List Char := ['.', '!', '?']

def batchesOf (ps : Text) : List Text :=
  ((splitAfter sentenceEnds ps).flatMap (cut vocab max)).filter fun b => tokenLen vocab b > 0

end Sonara.Kokoro
