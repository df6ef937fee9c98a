import BranchBound.Decimal.Shortest

/-!
# Numbers as text

A number is shown by the digits of its shortest decimal.  A style says where the fixed form ends
and the scientific form begins, how wide the exponent is at least, and what the special numbers
are called.

Main results:

- `Binary64.text_nan` and `Binary64.text_infinity`: the special numbers by name.
-/

namespace BranchBound

/-- The decisions of one way to show a number. -/
structure NumberStyle where
  /-- The smallest exponent of the leading digit that is shown in fixed form. -/
  lowestFixed : Int
  /-- The smallest exponent of the leading digit that is shown in scientific form again. -/
  firstScientific : Int
  /-- The least number of digits of an exponent. -/
  exponentWidth : Nat
  /-- How `nan` is shown. -/
  nan : String
  /-- How an infinity is shown after its sign. -/
  infinity : String

/-- Bounds and qualities are fixed from `1e-4` up to `1e16`, always with a point, and
scientific outside; an exponent has two digits at least and carries its sign. -/
def boundStyle : NumberStyle := ⟨-4, 16, 2, "nan", "inf"⟩

namespace Decimal

/-- The digits of a natural number, without the zeros at its end. -/
def significantDigits (n : Nat) : List Char :=
  ((Nat.toDigits 10 n).reverse.dropWhile (· = '0')).reverse

/-- Digits with the point after the given number of them; a point at the end is followed by a
zero, and a point at the start follows one. -/
def fixedForm (digits : List Char) (before : Int) : List Char :=
  let width := before.toNat
  let integral := digits.take width ++ List.replicate (width - digits.length) '0'
  let fraction := List.replicate (-before).toNat '0' ++ digits.drop width
  (if integral.isEmpty then ['0'] else integral) ++
    '.' :: (if fraction.isEmpty then ['0'] else fraction)

/-- A signed exponent, padded with zeros to a width. -/
def exponentForm (width : Nat) (exponent : Int) : List Char :=
  let digits := Nat.toDigits 10 exponent.natAbs
  (if exponent < 0 then '-' else '+') :: List.replicate (width - digits.length) '0' ++ digits

/-- One digit, a point and the other digits if there are any, and the exponent. -/
def scientificForm (width : Nat) (digits : List Char) (exponent : Int) : List Char :=
  digits.take 1 ++ (if digits.length ≤ 1 then [] else '.' :: digits.drop 1) ++
    'e' :: exponentForm width exponent

/-- A decimal in the form that a style gives to the exponent of its leading digit. -/
def text (style : NumberStyle) (d : Decimal) : List Char :=
  let digits := significantDigits d.digits
  let leading := d.exponent + length d.digits - 1
  if style.lowestFixed ≤ leading ∧ leading < style.firstScientific then
    fixedForm digits (leading + 1)
  else scientificForm style.exponentWidth digits leading

end Decimal

namespace Binary64

/-- A minus sign for negative numbers. -/
def signText (negative : Bool) : String := if negative then "-" else ""

/-- A number in a style. -/
def textIn (style : NumberStyle) : Binary64 → String
  | nan => style.nan
  | infinity negative => signText negative ++ style.infinity
  | finite negative place =>
    signText negative ++
      if place.val = 0 then "0.0"
      else String.ofList ((Decimal.shortest place).text style)

/-- A number as bounds and qualities are shown. -/
def text (x : Binary64) : String := x.textIn boundStyle

theorem text_nan : text nan = "nan" := rfl

theorem text_infinity (negative : Bool) :
    text (infinity negative) = signText negative ++ "inf" := rfl

end Binary64

end BranchBound
