import Mathlib.Algebra.Order.Ring.Int

/-!
What the service uses of JavaScript's strings: the characters that count as
white space, the integers that are read leniently from the start of a text, and
the code points that the units of a string make up.
-/

namespace PureplayIngest.Shared

/-- White space and line terminators, as `trim` and `\\s` have them. -/
def isWhiteSpace (ch : Char) : Bool :=
  let c := ch.toNat
  (9 ≤ c && c ≤ 13) || c = 0x20 || c = 0xA0 || c = 0x1680 || (0x2000 ≤ c && c ≤ 0x200A) ||
    c = 0x2028 || c = 0x2029 || c = 0x202F || c = 0x205F || c = 0x3000 || c = 0xFEFF

/-- The number that decimal digits stand for. -/
def digitsValue (digits : List Char) : ℕ :=
  digits.foldl (fun n ch => 10 * n + (ch.toNat - 48)) 0

/-- `parseInt(text, 10)`; `none` is `NaN`. What follows the digits is ignored. -/
def parseInt (text : String) : Option ℤ :=
  let digits (chars : List Char) : Option ℕ :=
    if chars.takeWhile Char.isDigit = [] then none
    else some (digitsValue (chars.takeWhile Char.isDigit))
  match text.toList.dropWhile isWhiteSpace with
  | '-' :: chars => (digits chars).map fun n => -n
  | '+' :: chars => (digits chars).map fun n => n
  | chars => (digits chars).map fun n => n

/-! ### Code units -/

/-- A code point of a string: a character, or a surrogate that stands alone. -/
inductive CodePoint
  | char (ch : Char)
  | lone (unit : UInt16)

/-- A string as JavaScript has it: any sequence of code units. -/
abbrev JsString := List UInt16

def isHighSurrogate (unit : UInt16) : Bool := 0xD800 ≤ unit.toNat ∧ unit.toNat ≤ 0xDBFF

def isLowSurrogate (unit : UInt16) : Bool := 0xDC00 ≤ unit.toNat ∧ unit.toNat ≤ 0xDFFF

def CodePoint.ofUnit (unit : UInt16) : CodePoint :=
  if isHighSurrogate unit || isLowSurrogate unit then .lone unit
  else .char (Char.ofNat unit.toNat)

namespace JsString

/-- A high surrogate and the low one after it are one character. -/
def codePoints : JsString → List CodePoint
  | [] => []
  | [unit] => [.ofUnit unit]
  | high :: low :: units =>
      if isHighSurrogate high && isLowSurrogate low then
        .char (Char.ofNat (0x10000 + (high.toNat - 0xD800) * 0x400 + (low.toNat - 0xDC00))) ::
          codePoints units
      else .ofUnit high :: codePoints (low :: units)

def unitsOf (ch : Char) : List UInt16 :=
  if ch.toNat < 0x10000 then [.ofNat ch.toNat]
  else [.ofNat (0xD800 + (ch.toNat - 0x10000) / 0x400),
    .ofNat (0xDC00 + (ch.toNat - 0x10000) % 0x400)]

def ofString (text : String) : JsString := text.toList.flatMap unitsOf

theorem codePoints_cons {unit : UInt16} (h : isHighSurrogate unit = false) (units : JsString) :
    codePoints (unit :: units) = .ofUnit unit :: codePoints units := by
  cases units with
  | nil => rfl
  | cons low units => rw [codePoints, h]; rfl

theorem codePoints_unitsOf (ch : Char) (units : JsString) :
    codePoints (unitsOf ch ++ units) = .char ch :: codePoints units := by
  have hvalid : ch.toNat < 0xD800 ∨ 0xDFFF < ch.toNat ∧ ch.toNat < 0x110000 := ch.valid
  rw [unitsOf]
  split
  · rename_i hsmall
    have hunit : (UInt16.ofNat ch.toNat).toNat = ch.toNat := UInt16.toNat_ofNat_of_lt' hsmall
    have hhigh : isHighSurrogate (.ofNat ch.toNat) = false := by
      rw [isHighSurrogate, hunit, decide_eq_false_iff_not]
      omega
    have hlow : isLowSurrogate (.ofNat ch.toNat) = false := by
      rw [isLowSurrogate, hunit, decide_eq_false_iff_not]
      omega
    rw [List.singleton_append, codePoints_cons hhigh, CodePoint.ofUnit, hhigh, hlow, hunit,
      Char.ofNat_toNat]
    rfl
  · have hhigh : (UInt16.ofNat (0xD800 + (ch.toNat - 0x10000) / 0x400)).toNat =
        0xD800 + (ch.toNat - 0x10000) / 0x400 :=
      UInt16.toNat_ofNat_of_lt' (show _ < 2 ^ 16 by omega)
    have hlow : (UInt16.ofNat (0xDC00 + (ch.toNat - 0x10000) % 0x400)).toNat =
        0xDC00 + (ch.toNat - 0x10000) % 0x400 :=
      UInt16.toNat_ofNat_of_lt' (show _ < 2 ^ 16 by omega)
    have hpair : (isHighSurrogate (.ofNat (0xD800 + (ch.toNat - 0x10000) / 0x400)) &&
        isLowSurrogate (.ofNat (0xDC00 + (ch.toNat - 0x10000) % 0x400))) = true := by
      rw [isHighSurrogate, isLowSurrogate, hhigh, hlow, Bool.and_eq_true, decide_eq_true_eq,
        decide_eq_true_eq]
      omega
    have hsum : 0x10000 + (0xD800 + (ch.toNat - 0x10000) / 0x400 - 0xD800) * 0x400 +
        (0xDC00 + (ch.toNat - 0x10000) % 0x400 - 0xDC00) = ch.toNat := by omega
    rw [List.cons_append, List.singleton_append, codePoints, if_pos hpair, hhigh, hlow, hsum,
      Char.ofNat_toNat]

theorem codePoints_ofString (text : String) :
    codePoints (ofString text) = text.toList.map .char := by
  rw [ofString]
  induction text.toList with
  | nil => rfl
  | cons ch chars ih => rw [List.flatMap_cons, codePoints_unitsOf, ih, List.map_cons]
end JsString

/-- What is needed of a type of texts to write them. -/
class JsText (T : Type) where
  codePoints : T → List CodePoint
  ofString : String → T
  codePoints_ofString (text : String) : codePoints (ofString text) = text.toList.map .char

instance : JsText String where
  codePoints text := text.toList.map .char
  ofString text := text
  codePoints_ofString _ := rfl

instance : JsText JsString where
  codePoints := JsString.codePoints
  ofString := JsString.ofString
  codePoints_ofString := JsString.codePoints_ofString

end PureplayIngest.Shared
