import BranchBound.Binary64.Basic

/-!
# The shortest decimal of a magnitude

Around every magnitude of the grid lies the interval of numbers that are rounded to it: it ends
half way to the two neighbours, and its ends belong to it when the place is even.  The shortest
decimal of a magnitude is the one with the fewest digits in that interval and, of those, the one
nearest to the magnitude.

With a given number of digits only the two decimals next to the magnitude need a test: when a
decimal of that length lies in the interval, so does one of these two.

Main results:

- `Decimal.inside_of_candidate?`: the decimal found lies in the interval.
-/

namespace BranchBound

/-- A decimal: a natural number of tens to a power. -/
structure Decimal where
  /-- The digits, read as a natural number. -/
  digits : Nat
  /-- The power of ten of the last digit. -/
  exponent : Int
  deriving DecidableEq

namespace Decimal

/-- The lower end of the rounding interval of a place, in half units. -/
def lowerEnd (place : Nat) : Nat := Grid.units (place - 1) + Grid.units place

/-- The upper end of the rounding interval of a place, in half units. -/
def upperEnd (place : Nat) : Nat := Grid.units place + Grid.units (place + 1)

/-- What a power of ten makes of a digit in half units, as a numerator. -/
def digitScale (exponent : Int) : Nat := 2 * Grid.one * Nat.pow 10 exponent.toNat

/-- The denominator that goes with `digitScale`. -/
def unitScale (exponent : Int) : Nat := Nat.pow 10 (-exponent).toNat

/-- Whether a decimal is rounded to a place. -/
def inside (place : Nat) (d : Decimal) : Bool :=
  let value := d.digits * digitScale d.exponent
  let low := lowerEnd place * unitScale d.exponent
  let high := upperEnd place * unitScale d.exponent
  if place % 2 = 0 then low ≤ value && value ≤ high else low < value && value < high

/-- The decimal of one exponent nearest to a magnitude. -/
def nearestAt (place : Nat) (exponent : Int) : Decimal :=
  ⟨roundHalfEven (2 * Grid.units place * unitScale exponent) (digitScale exponent), exponent⟩

/-- Of the two decimals of one exponent next to a magnitude, the nearer one that is rounded to
its place. -/
def candidate? (place : Nat) (exponent : Int) : Option Decimal :=
  let below := 2 * Grid.units place * unitScale exponent / digitScale exponent
  [nearestAt place exponent, ⟨below, exponent⟩, ⟨below + 1, exponent⟩].find? (inside place)

/-- How many digits a positive natural number has. -/
def length (n : Nat) : Nat := (Nat.toDigits 10 n).length

/-- The power of ten of the leading digit of a positive magnitude. -/
def leadingExponent (place : Nat) : Int :=
  let m := Grid.units place
  if Grid.one ≤ m then (length (m / Grid.one) : Int) - 1 else -(length (Grid.one / m) : Int)

/-- Seventeen digits tell any two magnitudes apart. -/
def longest : Nat := 17

/-- The shortest decimal that is rounded to a place other than zero. -/
def shortest (place : Nat) : Decimal :=
  let top := leadingExponent place
  (List.range longest).findSome? (fun (k : Nat) => candidate? place (top - k)) |>.getD
    (nearestAt place (top - longest + 1))

/-- A decimal found for a place is rounded to it. -/
theorem inside_of_candidate? {place : Nat} {exponent : Int} {d : Decimal}
    (h : candidate? place exponent = some d) : inside place d = true :=
  List.find?_some h

end Decimal

end BranchBound
