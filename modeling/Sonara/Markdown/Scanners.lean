import Mathlib.Data.List.DropRight
import Sonara.Lib.Backtrack
import Sonara.Strings

/-!
# The scanners of the text rules (`text.rs`)

Three rules of the retired cleaner were regular expressions with a back reference or looks around;
each is a scanner here that never goes back. Beside each scanner stands the expression it replaces,
with the meaning of `Lib.Re`: Python's, which tries the ways of a match in that order. The
expressions the scanners use themselves (`URL_SCHEME`, `WORD_RUN`, `INLINE_CODE`) mean the same.
A position in the text is what is before it and what is behind it.
-/

namespace Sonara.Markdown

open Sonara Text
open Lib (Re Place lookup)
open Lib.Re (one seq alt star opt plus plusLazy group back ahead notAhead notBehind word stop)

/-! ## Emphasis -/

/-- A marker of an emphasis. -/
def isMarker (c : Char) : Bool := c == '*' || c == '_'

/-- `[^*_\n]`. -/
def isContent (c : Char) : Bool := !(isMarker c || c == '\n')

/-- `m{1,3}`. -/
def oneToThree (m : Char) : Re Char :=
  seq (one (· == m)) (opt (seq (one (· == m)) (opt (one (· == m)))))

/-- `(\*{1,3}|_{1,3})([^*_\n]+)\1`. -/
def EMPHASIS : Re Char :=
  seq (group 1 (alt (oneToThree '*') (oneToThree '_')))
    (seq (group 2 (plus (one isContent))) (back 1))

/-- The content of the emphasis that begins a text, and the text behind it. -/
def emphasised : Text → Option (Text × Text)
  | [] => none
  | m :: cs =>
    if isMarker m then
      let run := min 4 ((m :: cs).takeWhile (· == m)).length
      let content := ((m :: cs).drop run).takeWhile isContent
      let close := ((m :: cs).drop run).dropWhile isContent
      if run ≤ 3 ∧ content ≠ [] ∧ close.take run = List.replicate run m then some
        (content, close.drop run)
      else none
    else none

def emphasisFrom : Nat → Text → Text
  | 0, t => t
  | n + 1, t =>
    match emphasised t with
    | some (content, t) => content ++ emphasisFrom n t
    | none =>
      match t with
      | [] => []
      | c :: cs => c :: emphasisFrom n cs

/-- One pass of `EMPHASIS` replaced by `\2`. -/
def emphasisPass (t : Text) : Text := emphasisFrom t.length t

/-! ## Bare URLs -/

/-- `https?://`. -/
def URL_SCHEME : Re Char := seq (word "http".toList)
    (seq (opt (one (· == 's'))) (word "://".toList))

/-- Punctuation that closes a sentence behind a URL: `[.,;:!?)\]]`. -/
def PUNCT : List Char := ['.', ',', ';', ':', '!', '?', ')', ']']

/-- `$`: the end, or the line feed that ends the text. -/
def atEnd : Re Char := alt stop (ahead (seq (one (· == '\n')) stop))

/-- `https?://\S+?(?=[.,;:!?)\]]*(?:\s|$))`. -/
def BARE_URL : Re Char :=
  seq URL_SCHEME (seq (plusLazy (one (!isPySpace ·)))
    (ahead (seq (star true (one (PUNCT.contains ·))) (alt (one isPySpace) atEnd))))

/-- The loop of `replaceBareUrls`: `since` is the text from `last` to the position. -/
def bareUrlsFrom : Nat → Text → Text → Text → Text
  | 0, since, _, rest => since ++ rest
  | n + 1, since, before, rest =>
    match URL_SCHEME.find before rest with
    | none => since ++ rest
    | some (m, e) =>
      let since := since ++ Place.upTo ⟨before, rest, []⟩ m
      let token := e.rest.takeWhile (!isPySpace ·)
      if token = [] then bareUrlsFrom n (since ++ m.rest.take 1) (m.skip 1).before (m.skip 1).rest
      else
        -- The token without its closing punctuation, or its first character when nothing else is
        -- left.
        let body := max (token.rdropWhile (PUNCT.contains ·)).length 1
        since ++ "link".toList ++ bareUrlsFrom n [] (e.skip body).before (e.skip body).rest

/-- Each bare URL read as "link". -/
def replaceBareUrls (t : Text) : Text := bareUrlsFrom t.length [] [] t

/-! ## Snake case -/

/-- `[A-Za-z0-9_]`. -/
def isWord (c : Char) : Bool := c.isAlphanum || c == '_'

/-- `[A-Za-z0-9_]+`. -/
def WORD_RUN : Re Char := plus (one isWord)

/-- `([^\n]*)` between two back quotes. -/
def INLINE_CODE : Re Char :=
  seq (one (· == Char.ofNat 0x60))
    (seq (group 1 (star true (one fun c => !(c == Char.ofNat 0x60 || c == '\n'))))
    (one (· == Char.ofNat 0x60)))

/-- `(?<![A-Za-z0-9_])_{0,2}[A-Za-z][A-Za-z0-9]*(?:_[A-Za-z0-9]+)+(?![A-Za-z0-9_])`. -/
def SNAKE : Re Char :=
  seq (notBehind isWord) (seq (opt (seq (one (· == '_')) (opt (one (· == '_')))))
    (seq (one Char.isAlpha) (seq (star true (one Char.isAlphanum))
      (seq (plus (seq (one (· == '_')) (plus (one Char.isAlphanum)))) (notAhead (one isWord))))))

/-- A run of word characters is a name in snake case. -/
def isSnake (run : Text) : Bool :=
  let rest := run.dropWhile (· == '_')
  if 2 < run.length - rest.length || !rest.head?.any Char.isAlpha then false
  else
    let parts := rest.splitOn '_'
    parts.all (· ≠ []) && 2 ≤ parts.length

/-- Every underscore spoken as a space. -/
def underscoresSpoken (t : Text) : Text := t.map fun c => if c = '_' then ' ' else c

/-- The names in a text without inline code. -/
def prose (t : Text) : Text := WORD_RUN.replaceAll
    (fun run _ => if isSnake run then underscoresSpoken run else run) t

def snakeCaseFrom : Nat → Text → Text → Text
  | 0, _, rest => prose rest
  | n + 1, before, rest =>
    match INLINE_CODE.find before rest with
    | none => prose rest
    | some (m, e) =>
      prose (Place.upTo ⟨before, rest, []⟩ m) ++ m.upTo e ++ snakeCaseFrom n e.before e.rest

/-- The names of a text spoken, those in inline code left to the code words. -/
def speakSnakeCase (t : Text) : Text := snakeCaseFrom t.length [] t

end Sonara.Markdown
