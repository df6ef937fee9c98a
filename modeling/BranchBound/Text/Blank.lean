/-!
# Blanks

The characters that may surround a number that is written as text: in ASCII the space, the tab
and the characters that begin a line or a page; beyond ASCII the spaces and separators of the
Unicode character database, and the control that begins a line.

Main results:

- `isAsciiBlank_of_isWhitespace`: what counts as white space in ASCII is a blank.
-/

namespace BranchBound

namespace Text

/-- The blanks of ASCII: the space, and the characters from tab to carriage return. -/
def isAsciiBlank (c : Char) : Bool :=
  c = ' ' || (0x09 ≤ c.toNat && c.toNat ≤ 0x0d)

/-- The blanks beyond ASCII. -/
def isWideBlank (c : Char) : Bool :=
  let n := c.toNat
  n = 0x85 || n = 0xa0 || n = 0x1680 || (0x2000 ≤ n && n ≤ 0x200a) || n = 0x2028 ||
    n = 0x2029 || n = 0x202f || n = 0x205f || n = 0x3000

/-- What counts as white space in ASCII is a blank. -/
theorem isAsciiBlank_of_isWhitespace {c : Char} (h : c.isWhitespace = true) :
    isAsciiBlank c = true := by
  simp only [Char.isWhitespace, Bool.or_eq_true, decide_eq_true_eq] at h
  rcases h with ((rfl | rfl) | rfl) | rfl <;> rfl

end Text

end BranchBound
