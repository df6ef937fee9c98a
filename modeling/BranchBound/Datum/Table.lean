import BranchBound.Datum.Number

/-!
# Tables of numbers

A table is a value or a list of tables of one shape.  Its elements are taken row by row, whatever
its depth.  A table as a whole holds integers or numbers: it holds integers when all its elements
are integers of one machine width, flags among them counting as integers, and numbers otherwise.

Where integers of 32 bits are needed, those of an array are cast, so that they go round, and those
of a list are taken one by one, so that an integer that does not fit is refused.

Main results:

- `Datum.table_of_scalars`: a list of values that are no lists is a table of these values.
- `Datum.elementReal_nothing`: inside a table no value counts as `nan`.
- `Datum.table_eq_ragged`: a table is refused as ragged when it has no shape.
- `Datum.ElementClass.join_comm` and `Datum.ElementClass.join_assoc`: the class of several
  elements depends neither on their order nor on how they are grouped.
-/

namespace BranchBound

namespace Datum

mutual

/-- The lengths of a table from the outside in, if all its rows agree. -/
def shape? : Datum → Option (List Nat)
  | sequence ds =>
    match shapes? ds with
    | none => none
    | some [] => some [0]
    | some (first :: rest) =>
      if rest.all (· = first) then some ((rest.length + 1) :: first) else none
  | array d => d.shape?
  | _ => some []

/-- The shapes of several tables, if each of them has one. -/
def shapes? : List Datum → Option (List (List Nat))
  | [] => some []
  | d :: ds =>
    match d.shape?, shapes? ds with
    | some s, some ss => some (s :: ss)
    | _, _ => none

end

mutual

/-- The elements of a table, row by row. -/
def elements : Datum → List Datum
  | sequence ds => elementsOf ds
  | array d => d.elements
  | d => [d]

/-- The elements of several tables. -/
def elementsOf : List Datum → List Datum
  | [] => []
  | d :: ds => d.elements ++ elementsOf ds

end

/-- The greatest depth of a table. -/
def maxDepth : Nat := 64

/-- The elements of a table whose rows agree. -/
def table (d : Datum) : Except Fault (List Datum) :=
  match d.shape? with
  | some shape => if shape.length ≤ maxDepth then .ok d.elements else .error .ragged
  | none => .error .ragged

/-- The number that an element counts as; no value is `nan`. -/
def elementReal : Datum → Except Fault Binary64
  | nothing => .ok .nan
  | d => d.toReal

/-- The numbers of a table. -/
def reals (d : Datum) : Except Fault (List Binary64) := do
  (← d.table).mapM elementReal

/-- The integer that an element counts as, if it lies in a range. -/
def elementWhole (low high : Int) (d : Datum) : Except Fault Int := do
  let n ← d.toWhole
  if low ≤ n ∧ n ≤ high then .ok n else .error .overflow

/-- The least integer of 32 bits. -/
def leastInt32 : Int := -0x80000000

/-- The greatest integer of 32 bits. -/
def greatestInt32 : Int := 0x7fffffff

/-- The least integer of 64 bits. -/
def leastInt64 : Int := -0x8000000000000000

/-- The greatest integer of 64 bits. -/
def greatestInt64 : Int := 0x7fffffffffffffff

/-- The greatest integer of 64 bits without a sign. -/
def greatestWord64 : Int := 0xffffffffffffffff

/-- Whether the integer of an element is cut off or read. -/
def isConverted : Datum → Bool
  | real _ | text _ | bytes _ => true
  | _ => false

/-- The integer of 32 bits that an element counts as.  An integer has to have 32 bits; one that is
cut off or read has to have 64 bits, and goes round. -/
def elementWord (d : Datum) : Except Fault Int :=
  if d.isConverted then do return (← d.elementWhole leastInt64 greatestInt64).bmod 0x100000000
  else d.elementWhole leastInt32 greatestInt32

/-- The integer of a range that a number is cut off to; outside the range it is the least one. -/
def castReal (low high : Int) (x : Binary64) : Int :=
  match x.truncate? with
  | some n => if low ≤ n ∧ n ≤ high then n else low
  | none => low

/-- The integer of 32 bits that an element of an array is cast to; an integer goes round. -/
def castWord : Datum → Except Fault Int
  | integer n => .ok (n.bmod 0x100000000)
  | real x => .ok (castReal leastInt32 greatestInt32 x)
  | d => d.elementWord

mutual

/-- The integers of 32 bits that the elements of a table are taken as, row by row.  Those of an
array are cast, and all others are taken one by one. -/
def words : Datum → Except Fault (List Int)
  | sequence ds => wordsOf ds
  | array d => d.elements.mapM castWord
  | d => d.elementWord.map fun n => [n]

/-- The integers of 32 bits that the elements of several tables are taken as. -/
def wordsOf : List Datum → Except Fault (List Int)
  | [] => .ok []
  | d :: ds => do
    let ns ← d.words
    let ns' ← wordsOf ds
    return ns ++ ns'

end

/-- The integers of a table, of 32 bits each. -/
def wholes (d : Datum) : Except Fault (List Int) := do
  let _ ← d.table
  d.words

/-! ## What a table holds -/

/-- How an element bears on what its table holds. -/
inductive ElementClass where
  /-- A flag, which goes along with integers. -/
  | flag
  /-- An integer of 64 bits. -/
  | signed
  /-- A larger integer that has 64 bits without a sign. -/
  | unsigned
  /-- A number. -/
  | real
  /-- A text. -/
  | text
  /-- Anything else. -/
  | other
  deriving DecidableEq

/-- The class of an integer. -/
def classOfInt (n : Int) : ElementClass :=
  if leastInt64 ≤ n ∧ n ≤ greatestInt64 then .signed
  else if 0 ≤ n ∧ n ≤ greatestWord64 then .unsigned
  else .other

/-- The class of an element. -/
def elementClass : Datum → ElementClass
  | flag _ => .flag
  | integer n => classOfInt n
  | real _ => .real
  | text _ | bytes _ | member (.integrality _) => .text
  | member (.role _) | member (.representation _) | member (.direction _) => .signed
  | nothing | mapping _ | member (.status _) | sequence _ => .other
  | array d => d.elementClass

namespace ElementClass

/-- The least class that takes the elements of two: a flag goes along with everything, integers of
both widths only as numbers, numbers as text among texts, and nothing with what is of no class. -/
def join : ElementClass → ElementClass → ElementClass
  | flag, c => c
  | c, flag => c
  | other, _ => other
  | _, other => other
  | text, _ => text
  | _, text => text
  | signed, signed => signed
  | unsigned, unsigned => unsigned
  | _, _ => real

/-- The least class that takes all elements; flags alone are left if there is none. -/
def joinAll (classes : List ElementClass) : ElementClass := classes.foldr join flag

/-- It does not matter which of two classes comes first. -/
theorem join_comm (a b : ElementClass) : a.join b = b.join a := by
  cases a <;> cases b <;> rfl

/-- It does not matter how elements are grouped. -/
theorem join_assoc (a b c : ElementClass) : (a.join b).join c = a.join (b.join c) := by
  cases a <;> cases b <;> cases c <;> rfl

end ElementClass

/-- Whether an element is a text, and not bytes. -/
def isText : Datum → Bool
  | text _ | member (.integrality _) => true
  | _ => false

/-- Whether an element is bytes, some of which are no ASCII character. -/
def isForeign : Datum → Bool
  | bytes bs => bs.any (128 ≤ ·)
  | _ => false

/-- The contents of a table. -/
inductive Contents where
  /-- Integers, of any size. -/
  | wholes (ns : List Int)
  /-- Numbers. -/
  | reals (xs : List Binary64)

/-- A list without the copies of an element at its end. -/
def withoutTail {α : Type} [DecidableEq α] (last : α) (xs : List α) : List α :=
  (xs.reverse.dropWhile (· = last)).reverse

/-- The number that an element of a table with text counts as: a flag is written as a word, and
zeros at the end of a text or of bytes are padding. -/
def elementRealOfText : Datum → Except Fault Binary64
  | flag _ => .error .notNumeric
  | text s => realOfChars (withoutTail '\x00' (Literal.ofText s))
  | bytes bs => realOfChars (Literal.ofBytes (withoutTail 0 bs))
  | d => d.elementReal

/-- The numbers of the elements of a table with text.  Where a text is among them all are made
texts first, and bytes that are none are refused before any element is read. -/
def textReals (elements : List Datum) : Except Fault (List Binary64) :=
  if elements.any isText && elements.any isForeign then .error .notText
  else elements.mapM elementRealOfText

/-- The contents of a table. -/
def contents (d : Datum) : Except Fault Contents := do
  let elements ← d.table
  match ElementClass.joinAll (elements.map elementClass) with
  | .signed | .unsigned => return .wholes (← elements.mapM toWhole)
  | .text => return .reals (← textReals elements)
  | _ => return .reals (← elements.mapM elementReal)

/-! ## Arrays -/

mutual

/-- A table with every element replaced. -/
def mapElements (f : Datum → Except Fault Datum) : Datum → Except Fault Datum
  | sequence ds => (mapElementsOf f ds).map sequence
  | array d => d.mapElements f
  | d => f d

/-- Tables with every element replaced. -/
def mapElementsOf (f : Datum → Except Fault Datum) : List Datum → Except Fault (List Datum)
  | [] => .ok []
  | d :: ds => do
    let d ← d.mapElements f
    let ds ← mapElementsOf f ds
    return d :: ds

end

/-- The array that holds the elements of a table as integers of 64 bits. -/
def wholeArray (d : Datum) : Except Fault Datum := do
  let _ ← d.table
  let d ← d.mapElements fun e => (elementWhole leastInt64 greatestInt64 e).map integer
  return array d

/-- The array that holds the elements of a table as numbers. -/
def realArray (d : Datum) : Except Fault Datum := do
  let _ ← d.table
  let d ← d.mapElements fun e => e.elementReal.map real
  return array d

/-! ## Lists of scalars -/

theorem shapes?_of_scalars {α : Type} (make : α → Datum)
    (hshape : ∀ a, (make a).shape? = some []) (as : List α) :
    shapes? (as.map make) = some (as.map fun _ => []) := by
  induction as with
  | nil => rfl
  | cons a as ih => simp [shapes?, hshape, ih]

theorem elementsOf_of_scalars {α : Type} (make : α → Datum)
    (helements : ∀ a, (make a).elements = [make a]) (as : List α) :
    elementsOf (as.map make) = as.map make := by
  induction as with
  | nil => rfl
  | cons a as ih => simp [elementsOf, helements, ih]

/-- A list of values that are no lists is a table of these values. -/
theorem table_of_scalars {α : Type} (make : α → Datum)
    (hshape : ∀ a, (make a).shape? = some []) (helements : ∀ a, (make a).elements = [make a])
    (as : List α) : (sequence (as.map make)).table = .ok (as.map make) := by
  have hall := elementsOf_of_scalars make helements as
  rw [table, shape?, shapes?_of_scalars make hshape, elements, hall]
  cases as with
  | nil => rfl
  | cons a as => simp [maxDepth]

/-- An array holds the elements of what it is made of. -/
theorem table_array (d : Datum) : (array d).table = d.table := by
  rw [table, table, shape?, elements]

/-- Inside a table no value is `nan`. -/
@[simp] theorem elementReal_nothing : nothing.elementReal = .ok .nan := rfl

/-- A table is refused as ragged when it has no shape. -/
theorem table_eq_ragged {d : Datum} (h : d.shape? = none) : d.table = .error .ragged := by
  simp [table, h]

end Datum

end BranchBound
