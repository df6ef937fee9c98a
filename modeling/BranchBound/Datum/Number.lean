import BranchBound.Decimal.Literal
import BranchBound.Fault

/-!
# Numbers from values

What a value from outside counts as where a number or an integer is needed.  A flag is one or
zero, a number is cut off to an integer, and a text is read.  No value, a mapping, a list and a
status are of the wrong type.

Main results:

- `Datum.toReal_real` and `Datum.toWhole_integer`: numbers and integers stand for themselves.
- `Datum.toReal_ne_overflow_of_text`: a text never overflows; past the range it is an infinity.
-/

namespace BranchBound

namespace Datum

/-- The number nearest to an integer, or an overflow. -/
def realOfInt (n : Int) : Except Fault Binary64 :=
  match Binary64.ofInt? n with
  | some x => .ok x
  | none => .error .overflow

/-- The number that some characters write. -/
def realOfChars (s : List Char) : Except Fault Binary64 :=
  match Literal.readNumber? s with
  | some x => .ok x
  | none => .error .notNumeric

/-- The integer that some characters write. -/
def wholeOfChars (s : List Char) : Except Fault Int :=
  match Literal.readInteger? s with
  | some n => .ok n
  | none => .error .notNumeric

/-- The integer part of a number. -/
def wholeOfReal (x : Binary64) : Except Fault Int :=
  match x.truncate? with
  | some n => .ok n
  | none => .error (if x = .nan then .notNumeric else .overflow)

/-- The number that a value counts as. -/
def toReal : Datum → Except Fault Binary64
  | flag b => .ok (if b then 1.0 else 0.0)
  | integer n => realOfInt n
  | real x => .ok x
  | text s => realOfChars (Literal.ofText s)
  | bytes bs => realOfChars (Literal.ofBytes bs)
  | member (.role r) => realOfInt r.code
  | member (.representation r) => realOfInt r.code
  | member (.direction d) => realOfInt d.code
  | member (.integrality i) => realOfChars [i.letter]
  | array d => d.toReal
  | nothing | mapping _ | member (.status _) | sequence _ => .error .missingNumber

/-- The integer that a value counts as. -/
def toWhole : Datum → Except Fault Int
  | flag b => .ok (if b then 1 else 0)
  | integer n => .ok n
  | real x => wholeOfReal x
  | text s => wholeOfChars (Literal.ofText s)
  | bytes bs => wholeOfChars (Literal.ofBytes bs)
  | member (.role r) => .ok r.code
  | member (.representation r) => .ok r.code
  | member (.direction d) => .ok d.code
  | member (.integrality i) => wholeOfChars [i.letter]
  | array d => d.toWhole
  | nothing | mapping _ | member (.status _) | sequence _ => .error .missingNumber

/-- The number that a value counts as; no value stays none. -/
def toReal? : Datum → Except Fault (Option Binary64)
  | nothing => .ok none
  | d => d.toReal.map some

/-- A number stands for itself. -/
@[simp] theorem toReal_real (x : Binary64) : (real x).toReal = .ok x := by
  simp [toReal]

/-- An integer stands for itself. -/
@[simp] theorem toWhole_integer (n : Int) : (integer n).toWhole = .ok n := by
  simp [toWhole]

/-- A text never overflows; past the range it is an infinity. -/
theorem toReal_ne_overflow_of_text (s : String) : (text s).toReal ≠ .error .overflow := by
  unfold toReal realOfChars
  split <;> simp

end Datum

end BranchBound
