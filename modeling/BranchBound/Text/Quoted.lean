import BranchBound.Text.Printable

/-!
# Quoted text

A text is shown between quotes: single ones, unless it holds a single quote and no double one.
The quote in use and the backslash are written after a backslash; line feed, carriage return and
tab have names of one letter, and every other character that is not printable is written by its
code in two, four or eight hexadecimal digits.

Main results:

- `Text.escape_of_printable`: a printable character other than the quote and the backslash
  stands for itself.
-/

namespace BranchBound

namespace Text

/-- The lower-case hexadecimal digits of a number, padded with zeros to a width. -/
def hexDigits (width n : Nat) : List Char :=
  let digits := Nat.toDigits 16 n
  List.replicate (width - digits.length) '0' ++ digits

/-- A character by its code: `x` and two digits, `u` and four, or `U` and eight. -/
def codeEscape (c : Char) : List Char :=
  if c.toNat < 0x100 then '\\' :: 'x' :: hexDigits 2 c.toNat
  else if c.toNat < 0x10000 then '\\' :: 'u' :: hexDigits 4 c.toNat
  else '\\' :: 'U' :: hexDigits 8 c.toNat

/-- A character as it stands between quotes. -/
def escape (quote c : Char) : List Char :=
  if c = quote || c = '\\' then ['\\', c]
  else if c = '\n' then ['\\', 'n']
  else if c = '\r' then ['\\', 'r']
  else if c = '\t' then ['\\', 't']
  else if isPrintable c then [c]
  else codeEscape c

/-- The quote in use for a text. -/
def quoteFor (s : List Char) : Char :=
  if '\'' ∈ s ∧ '"' ∉ s then '"' else '\''

/-- A text between quotes. -/
def quoted (s : String) : String :=
  let quote := quoteFor s.toList
  String.ofList (quote :: s.toList.flatMap (escape quote) ++ [quote])

/-- A printable character other than the quote and the backslash stands for itself. -/
theorem escape_of_printable {quote c : Char} (h : isPrintable c = true) (hq : c ≠ quote)
    (hb : c ≠ '\\') : escape quote c = [c] := by
  have named : ∀ d : Char, isPrintable d = false → c ≠ d := fun d hd hcd => by simp_all
  simp [escape, hq, hb, h, named '\n' (not_isPrintable_of_control (by decide)),
    named '\r' (not_isPrintable_of_control (by decide)),
    named '\t' (not_isPrintable_of_control (by decide))]

end Text

end BranchBound
