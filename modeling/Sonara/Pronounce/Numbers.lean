import Mathlib.Data.List.DropRight
import Sonara.Lib.Slices
import Sonara.Strings

/-!
# Numbers as words (`numbers.rs`)

Cardinals, ordinals, years and digits, written the way they are said, with British "and" and
spaces instead of hyphens, so that no engine reads them again. A function is `none` where an
index into a table or a slice panics.
-/

namespace Sonara.Pronounce

open Lib

/-! ## Tables -/

def ones : List Text :=
  ["zero", "one", "two", "three", "four", "five", "six", "seven", "eight", "nine", "ten", "eleven",
    "twelve", "thirteen", "fourteen", "fifteen", "sixteen", "seventeen", "eighteen",
    "nineteen"].map String.toList

def tens : List Text :=
  ["", "", "twenty", "thirty", "forty", "fifty", "sixty", "seventy", "eighty",
    "ninety"].map String.toList

def scales : List Text :=
  ["", "thousand", "million", "billion", "trillion", "quadrillion", "quintillion"].map String.toList

/-! ## Whole numbers -/

/-- 0..=99 as words. -/
def belowHundred (n : Nat) : Option Text :=
  if n < 20 then ones[n]?
  else if n % 10 = 0 then tens[n / 10]?
  else do
    let t ← tens[n / 10]?
    let o ← ones[n % 10]?
    return t ++ ' ' :: o

/-- 1..=999 as words ("one hundred and twelve"). -/
def belowThousand (n : Nat) : Option Text :=
  if n / 100 = 0 then belowHundred (n % 100)
  else do
    let h ← ones[n / 100]?
    if n % 100 = 0 then
      return h ++ ' ' :: "hundred".toList
    else
      let r ← belowHundred (n % 100)
      return h ++ ' ' :: ("hundred".toList ++ ' ' :: ("and".toList ++ ' ' :: r))

/-- The groups of three digits, the lowest first, in `n` rounds at most. -/
def groups : Nat → Nat → List Nat
  | 0, _ => []
  | n + 1, m => if m = 0 then [] else m % 1000 :: groups n (m / 1000)

/-- The words of the groups from the `i`th on, the highest first; a group of zeros has none. -/
def groupWords (several : Bool) : Nat → List Nat → Option (List Text)
  | _, [] => some []
  | i, g :: gs => do
    let higher ← groupWords several (i + 1) gs
    if g = 0 then
      return higher
    else
      let words ← belowThousand g
      if i = 0 then
        -- "and" before a last group under a hundred that follows a higher one
        return higher ++ [if g < 100 ∧ several = true then "and".toList ++ ' ' :: words else words]
      else
        let scale ← scales[i]?
        return higher ++ [words ++ ' ' :: scale]

/-- A whole number as words: "one thousand and twenty four". -/
def cardinal (n : UInt64) : Option Text :=
  if n = 0 then some "zero".toList
  else
    let gs := groups 64 n.toNat
    (groupWords (1 < gs.length) 0 gs).map (Text.join [' '])

/-! ## Years and ordinals -/

/-- The last two digits of a year. -/
def yearEnd (lo : Nat) : Option Text :=
  if lo = 0 then some "hundred".toList
  else if lo ≤ 9 then ones[lo]?.map ("oh".toList ++ ' ' :: ·)
  else belowHundred lo

/-- A year as said: "nineteen oh five", "twenty twenty six"; other numbers as cardinals. -/
def year (y : UInt64) : Option Text :=
  if ¬ (1000 ≤ y ∧ y ≤ 2099) then cardinal y
  else if (2000 ≤ y ∧ y < 2010) ∨ y % 1000 = 0 then cardinal y
  else do
    let lo ← yearEnd (y % 100).toNat
    let hi ← belowHundred (y / 100).toNat
    return hi ++ ' ' :: lo

def irregular : List (Text × Text) :=
  [("one", "first"), ("two", "second"), ("three", "third"), ("five", "fifth"), ("eight", "eighth"),
    ("nine", "ninth"), ("twelve", "twelfth")].map fun p => (p.1.toList, p.2.toList)

/-- The words up to the last one, with the space behind them, and the last one (`rsplit_once`). -/
def lastWord (t : Text) : Text × Text := (t.rdropWhile (· != ' '), t.rtakeWhile (· != ' '))

/-- "first", "twenty first", "one hundred and twelfth". -/
def ordinal (n : UInt64) : Option Text := do
  let words ← cardinal n
  let (front, last) := lastWord words
  match irregular.find? (·.1 = last) with
  | some (_, w) => return front ++ w
  | none =>
    if last.getLast? = some 'y' then
      let stem ← takeBytes last (bytes last - 1)
      return front ++ (stem ++ "ieth".toList)
    else
      return front ++ (last ++ "th".toList)

end Sonara.Pronounce
