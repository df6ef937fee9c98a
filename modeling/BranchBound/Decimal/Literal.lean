import BranchBound.Binary64.Basic
import BranchBound.Text.Blank
import BranchBound.Text.DecimalDigit

/-!
# Reading numbers from text

The written forms of integers and of numbers: blanks around them are skipped, a sign may stand in
front, and a single underscore may stand between two digits.  A number may have a point, an
exponent, or be one of the words for the special numbers, in any case.

The forms are read from ASCII characters.  In a text the digits of every script count as the ASCII
digits; in bytes only ASCII counts.

Main results:

- `Literal.plain_of_ascii`: an ASCII character other than the last control counts as itself.
-/

namespace BranchBound

namespace Literal

/-- The character that stands for one with no place in a number. -/
def stray : Char := '?'

/-- The ASCII character that a character of a text counts as: beyond ASCII a blank counts as a
space, and a decimal digit as the ASCII digit of its value. -/
def plain (c : Char) : Char :=
  if c.toNat < 0x7f then c
  else if Text.isWideBlank c then ' '
  else
    match Text.decimalDigit? c with
    | some d => Nat.digitChar d
    | none => stray

/-- The ASCII characters that a text counts as. -/
def ofText (s : String) : List Char := s.toList.map plain

/-- The ASCII characters of some bytes. -/
def ofBytes (bs : List UInt8) : List Char :=
  bs.map fun b => if b < 0x80 then Char.ofNat b.toNat else stray

/-- A written number without the blanks around it. -/
def trim (s : List Char) : List Char :=
  ((s.dropWhile Text.isAsciiBlank).reverse.dropWhile Text.isAsciiBlank).reverse

/-- The digits in front, single underscores between them skipped, and what follows them. -/
def spanDigits : List Char → List Nat × List Char
  | '_' :: c :: rest =>
    if c.isDigit then
      let (digits, after) := spanDigits rest
      ((c.toNat - '0'.toNat) :: digits, after)
    else ([], '_' :: c :: rest)
  | c :: rest =>
    if c.isDigit then
      let (digits, after) := spanDigits rest
      ((c.toNat - '0'.toNat) :: digits, after)
    else ([], c :: rest)
  | [] => ([], [])

/-- The digits of a run that starts with a digit, and what follows them. -/
def digitRun (s : List Char) : List Nat × List Char :=
  match s with
  | '_' :: _ => ([], s)
  | _ => spanDigits s

/-- The natural number of some digits. -/
def ofDigits (digits : List Nat) : Nat := digits.foldl (fun n d => 10 * n + d) 0

/-- A sign in front, and what follows it. -/
def sign : List Char → Bool × List Char
  | '-' :: rest => (true, rest)
  | '+' :: rest => (false, rest)
  | s => (false, s)

/-- The most digits that a written integer may have. -/
def maxIntegerDigits : Nat := 4300

/-- The integer that some characters write. -/
def readInteger? (s : List Char) : Option Int :=
  let (negative, rest) := sign (trim s)
  match digitRun rest with
  | ([], _) => none
  | (digits, []) =>
    if maxIntegerDigits < digits.length then none
    else some (if negative then -(ofDigits digits : Int) else ofDigits digits)
  | (_, _ :: _) => none

/-- The exponent part of a number, zero if there is none, and what follows it. -/
def exponentPart (s : List Char) : Int × List Char :=
  match s with
  | c :: rest =>
    if c = 'e' || c = 'E' then
      let (negative, rest) := sign rest
      match digitRun rest with
      | ([], _) => (0, s)
      | (digits, after) => (if negative then -(ofDigits digits : Int) else ofDigits digits, after)
    else (0, s)
  | [] => (0, [])

/-- The fraction digits after a point, none if there is no point, and what follows them. -/
def fractionPart : List Char → List Nat × List Char
  | '.' :: rest => digitRun rest
  | s => ([], s)

/-- Past this many places a decimal is beyond every double or rounded to zero. -/
def placesLimit : Int := 400

/-- The number nearest to some digits at a power of ten; zeros in front take no place. -/
def scaled (negative : Bool) (digits : List Nat) (exponent : Int) : Binary64 :=
  let significant := digits.dropWhile (· = 0)
  let places := exponent + significant.length
  if significant.isEmpty || places < -placesLimit then .zero negative
  else if placesLimit < places then .infinity negative
  else
    .rounded negative (ofDigits significant * Nat.pow 10 exponent.toNat * Grid.one)
      (Nat.pow 10 (-exponent).toNat)

/-- The words for the special numbers, in lower case. -/
def special (negative : Bool) (word : String) : Option Binary64 :=
  if word = "inf" || word = "infinity" then some (.infinity negative)
  else if word = "nan" then some .nan
  else none

/-- The number that some characters write. -/
def readNumber? (s : List Char) : Option Binary64 :=
  let (negative, rest) := sign (trim s)
  let (integral, rest') := digitRun rest
  let (fraction, rest'') := fractionPart rest'
  match integral ++ fraction with
  | [] => special negative (String.ofList (rest.map Char.toLower))
  | digits =>
    match exponentPart rest'' with
    | (exponent, []) => some (scaled negative digits (exponent - fraction.length))
    | (_, _ :: _) => none

/-- An ASCII character other than the last control counts as itself. -/
theorem plain_of_ascii {c : Char} (h : c.toNat < 0x7f) : plain c = c := by
  simp [plain, h]

end Literal

end BranchBound
