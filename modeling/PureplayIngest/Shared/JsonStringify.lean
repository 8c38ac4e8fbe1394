import Mathlib.Data.Int.Log
import Mathlib.Data.Rat.Floor
import PureplayIngest.Shared.JsString
import PureplayIngest.Shared.JsonText

/-!
`JSON.stringify` of any value.

A number is written as `Number::toString` writes it, with as many digits as
it needs and at most seventeen.
-/

namespace PureplayIngest.Shared.JsonText

open Domain

/-- The digits of a positive number, and how many of them stand before the
point; zeros are left out at both ends. -/
def significantDigits (x : ℚ) : List Char × ℤ :=
  let magnitude := Int.log 10 x + 1
  let digits := Nat.toDigits 10 ⌊x * 10 ^ (17 - magnitude) + 1 / 2⌋₊
  ((digits.reverse.dropWhile (· = '0')).reverse, magnitude + digits.length - 17)

def exponentText (e : ℤ) : List Char :=
  'e' :: (if e < 0 then '-' else '+') :: Nat.toDigits 10 e.natAbs

/-- A positive number, from its digits and the place of the point. -/
def magnitudeText (digits : List Char) (n : ℤ) : List Char :=
  if digits.length ≤ n ∧ n ≤ 21 then digits ++ List.replicate (n - digits.length).toNat '0'
  else if 0 < n ∧ n ≤ 21 then digits.take n.toNat ++ '.' :: digits.drop n.toNat
  else if -6 < n ∧ n ≤ 0 then '0' :: '.' :: List.replicate (-n).toNat '0' ++ digits
  else if digits.length = 1 then digits ++ exponentText (n - 1)
  else digits.take 1 ++ '.' :: digits.drop 1 ++ exponentText (n - 1)

def numberText (x : ℚ) : List Char :=
  if x = 0 then ['0']
  else if x < 0 then '-' :: magnitudeText (significantDigits (-x)).1 (significantDigits (-x)).2
  else magnitudeText (significantDigits x).1 (significantDigits x).2

/-- A surrogate that stands alone is written by its number. -/
def unicodeEscape (unit : UInt16) : List Char :=
  ['\\', 'u', hexChar (unit.toNat / 4096), hexChar (unit.toNat / 256 % 16),
    hexChar (unit.toNat / 16 % 16), hexChar (unit.toNat % 16)]

def quotePoint : CodePoint → List Char
  | .char ch => quoteChar ch
  | .lone unit => unicodeEscape unit

section

variable {T : Type} [JsText T]

def quoteText (text : T) : List Char :=
  '"' :: (JsText.codePoints text).flatMap quotePoint ++ ['"']

mutual

def stringifyValue : JsonOf T → List Char
  | .null => ['n', 'u', 'l', 'l']
  | .bool true => ['t', 'r', 'u', 'e']
  | .bool false => ['f', 'a', 'l', 's', 'e']
  | .num x => numberText x
  | .str text => quoteText text
  | .arr items => '[' :: stringifyItems items ++ [']']
  | .obj fields => '{' :: stringifyFields fields ++ ['}']

def stringifyItems : List (JsonOf T) → List Char
  | [] => []
  | [item] => stringifyValue item
  | item :: items => stringifyValue item ++ ',' :: stringifyItems items

def stringifyFields : List (T × JsonOf T) → List Char
  | [] => []
  | [(name, value)] => quoteText name ++ ':' :: stringifyValue value
  | (name, value) :: fields =>
      quoteText name ++ ':' :: stringifyValue value ++ ',' :: stringifyFields fields

end

end

example : numberText (-1523 / 10) = "-152.3".toList := by decide +kernel

end PureplayIngest.Shared.JsonText
