/-!
# Kinds of objects and their classifications

An object of a search stands for a variable (primal) or a constraint (dual) of a subproblem.  It
is represented in the core model, by its index, or by the algorithm that generates it, and the
values it admits are of one of four integrality classes.  A branching moves a variable down or up.

Every classification has a code of its own: a number, or a letter for the integrality class.

Main results:

- `Representation.ofCode?_code`, `Integrality.ofLetter?_letter`, `Direction.ofCode?_code`: every
  member is found by its code.
- `Representation.code_of_ofCode?`, `Integrality.letter_of_ofLetter?`,
  `Direction.code_of_ofCode?`: no other code finds one.
-/

namespace BranchBound

/-- The side of a subproblem that an object stands on. -/
inductive Role where
  /-- A variable. -/
  | primal
  /-- A constraint. -/
  | dual
  deriving DecidableEq

/-- How the rows and columns behind an object are held. -/
inductive Representation where
  /-- As an explicit row or column of the core model. -/
  | core
  /-- By index only. -/
  | indexed
  /-- Generated by an algorithm. -/
  | algorithmic
  deriving DecidableEq

/-- The values that an object admits. -/
inductive Integrality where
  /-- Every number. -/
  | continuous
  /-- Every integer. -/
  | integer
  /-- Zero and one. -/
  | binary
  /-- Zero and the numbers between the hard bounds. -/
  | semicontinuous
  deriving DecidableEq

/-- The two ways to branch. -/
inductive Direction where
  /-- Towards smaller values. -/
  | down
  /-- Towards larger values. -/
  | up
  deriving DecidableEq

namespace Role

/-- The number of a role. -/
def code : Role → Int
  | primal => 0
  | dual => 1

/-- The role of a number. -/
def ofCode? : Int → Option Role
  | 0 => some primal
  | 1 => some dual
  | _ => none

/-- The name of a role. -/
def name : Role → String
  | primal => "PRIMAL"
  | dual => "DUAL"

end Role

namespace Representation

/-- The number of a representation. -/
def code : Representation → Int
  | core => 0
  | indexed => 1
  | algorithmic => 2

/-- The representation of a number. -/
def ofCode? : Int → Option Representation
  | 0 => some core
  | 1 => some indexed
  | 2 => some algorithmic
  | _ => none

/-- The name of a representation. -/
def name : Representation → String
  | core => "CORE"
  | indexed => "INDEXED"
  | algorithmic => "ALGO"

/-- Every representation is found by its number. -/
@[simp] theorem ofCode?_code (r : Representation) : ofCode? r.code = some r := by
  cases r <;> rfl

/-- No other number finds a representation. -/
theorem code_of_ofCode? {n : Int} {r : Representation} (h : ofCode? n = some r) :
    r.code = n := by
  unfold ofCode? at h
  split at h <;> cases h <;> rfl

end Representation

namespace Integrality

/-- The letter of an integrality class. -/
def letter : Integrality → Char
  | continuous => 'C'
  | integer => 'I'
  | binary => 'B'
  | semicontinuous => 'S'

/-- The integrality class of a letter. -/
def ofLetter? : Char → Option Integrality
  | 'C' => some continuous
  | 'I' => some integer
  | 'B' => some binary
  | 'S' => some semicontinuous
  | _ => none

/-- The integrality class of a text of one letter. -/
def ofText? (s : String) : Option Integrality :=
  match s.toList with
  | [c] => ofLetter? c
  | _ => none

/-- The name of an integrality class. -/
def name : Integrality → String
  | continuous => "CONTINUOUS"
  | integer => "INTEGER"
  | binary => "BINARY"
  | semicontinuous => "SEMICONTINUOUS"

/-- Every integrality class is found by its letter. -/
@[simp] theorem ofLetter?_letter (i : Integrality) : ofLetter? i.letter = some i := by
  cases i <;> rfl

/-- No other letter finds an integrality class. -/
theorem letter_of_ofLetter? {c : Char} {i : Integrality} (h : ofLetter? c = some i) :
    i.letter = c := by
  unfold ofLetter? at h
  split at h <;> cases h <;> rfl

end Integrality

namespace Direction

/-- The number of a direction. -/
def code : Direction → Int
  | down => -1
  | up => 1

/-- The direction of a number. -/
def ofCode? (n : Int) : Option Direction :=
  if n = -1 then some down else if n = 1 then some up else none

/-- The name of a direction. -/
def name : Direction → String
  | down => "DOWN"
  | up => "UP"

/-- Every direction is found by its number. -/
@[simp] theorem ofCode?_code (d : Direction) : ofCode? d.code = some d := by
  cases d <;> rfl

/-- No other number finds a direction. -/
theorem code_of_ofCode? {n : Int} {d : Direction} (h : ofCode? n = some d) : d.code = n := by
  unfold ofCode? at h
  split at h
  · cases h
    simp [code, *]
  · split at h
    · cases h
      simp [code, *]
    · cases h

end Direction

/-- The kinds of objects that a search holds. -/
inductive Kind where
  /-- A bounded entity on neither side. -/
  | entity
  /-- A variable without further structure. -/
  | primal
  /-- A constraint without further structure. -/
  | dual
  /-- An integer variable. -/
  | column
  /-- A linear constraint. -/
  | row
  /-- A recorded solution. -/
  | solution
  deriving DecidableEq

namespace Kind

/-- The name of a kind, which is also the type tag of its encoding. -/
def name : Kind → String
  | entity => "Entity"
  | primal => "Variable"
  | dual => "Constraint"
  | column => "IntegerVariable"
  | row => "LinearConstraint"
  | solution => "Solution"

/-- Every kind. -/
def all : List Kind := [entity, primal, dual, column, row, solution]

/-- The kind of a name. -/
def ofName? (s : String) : Option Kind := all.find? (·.name = s)

end Kind

end BranchBound
