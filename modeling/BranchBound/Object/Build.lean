import BranchBound.Datum.Indices
import BranchBound.Object.Basic

/-!
# Building and changing objects

An object is built from values for some of its fields; the fields that are left out have the
values that belong to its kind.  An integrality class or a flag that the kind does not have is
refused first, then the fields are taken over in order, and the first that is unfit is the fault.
Terms are for rows, and every other kind passes over them.

Main results:

- `Fields.softBound_nothing`: a soft bound that is left out is the hard one.
- `Object.build_withoutTerms`: what is no row is built the same without the terms.
-/

namespace BranchBound

/-- Values for the fields of a new object. -/
structure Fields where
  /-- The lower hard bound. -/
  hardLower : Option Datum := none
  /-- The upper hard bound. -/
  hardUpper : Option Datum := none
  /-- The lower soft bound; no value leaves it out. -/
  softLower : Datum := .nothing
  /-- The upper soft bound; no value leaves it out. -/
  softUpper : Datum := .nothing
  /-- The representation. -/
  representation : Option Datum := none
  /-- The integrality class, of kinds without further structure. -/
  integrality : Option Datum := none
  /-- Whether a column is binary. -/
  binary : Option Bool := none
  /-- The indices of the terms, of a row alone. -/
  indices : Option Datum := none
  /-- The coefficients of the terms, of a row alone. -/
  coefficients : Option Datum := none

namespace Fields

/-- A bound, or the one that stands in when it is left out. -/
def bound (given : Option Datum) (standIn : Binary64) : Except Fault Binary64 :=
  match given with
  | some d => d.toReal
  | none => .ok standIn

/-- A soft bound, or the hard one when no value is given. -/
def softBound (given : Datum) (hard : Binary64) : Except Fault Binary64 :=
  match given with
  | .nothing => .ok hard
  | d => d.toReal

/-- A new entity from its fields, with what its kind has where they are left out. -/
def header (f : Fields) (kindly : Entity Binary64) : Except Fault (Entity Binary64) := do
  let representation ← match f.representation with
    | some d => d.toRepresentation
    | none => .ok kindly.representation
  let integrality ← match f.integrality with
    | some d => d.toIntegrality
    | none => .ok kindly.integrality
  let hardLower ← bound f.hardLower kindly.hard.lower
  let hardUpper ← bound f.hardUpper kindly.hard.upper
  let softLower ← softBound f.softLower hardLower
  let softUpper ← softBound f.softUpper hardUpper
  return { kindly with
    representation, integrality
    hard := ⟨hardLower, hardUpper⟩
    soft := ⟨softLower, softUpper⟩ }

/-- The numbers of a field that holds a table, none if it is left out. -/
def tableField {α : Type} (given : Option Datum) (read : Datum → Except Fault (List α)) :
    Except Fault (List α) :=
  match given with
  | some d => read d
  | none => .ok []

/-- An entity before anything is set. -/
def plain : Entity Binary64 where
  index := Entity.unplaced
  representation := .core
  integrality := .continuous
  status := .none
  hard := ⟨0.0, 0.0⟩
  soft := ⟨0.0, 0.0⟩
  hash := 0.0

/-- Whether a kind has the fields given.  Terms are never refused: what is no row passes over
them. -/
def suit (f : Fields) (kind : Kind) : Bool :=
  match kind with
  | .entity | .primal | .dual => f.binary.isNone
  | .column => f.integrality.isNone
  | .row => f.integrality.isNone && f.binary.isNone
  | .solution => false

/-- The fields without the terms. -/
def withoutTerms (f : Fields) : Fields :=
  { f with indices := none, coefficients := none }

/-- A soft bound that is left out is the hard one. -/
theorem softBound_nothing (hard : Binary64) : softBound .nothing hard = .ok hard := rfl

end Fields

namespace Object

/-- A new column. -/
def buildColumn (f : Fields) : Except Fault Object := do
  let integrality := if f.binary = some true then Integrality.binary else .integer
  let entity ← f.header { Column.initial.toEntity with integrality }
  return .column { entity with costs := .initial }

/-- A new row. -/
def buildRow (f : Fields) : Except Fault Object := do
  let entity ← f.header Row.initial.toEntity
  let indices ← Fields.tableField f.indices Datum.indices
  let coefficients ← Fields.tableField f.coefficients Datum.reals
  return .row (← Row.ofTerms entity indices coefficients)

/-- A new object of a kind. -/
def build (kind : Kind) (f : Fields) : Except Fault Object :=
  if f.suit kind then
    match kind with
    | .entity => (f.header Fields.plain).map entity
    | .primal => (f.header Fields.plain).map primal
    | .dual => (f.header Fields.plain).map dual
    | .column => buildColumn f
    | .row => buildRow f
    | .solution => .error .unsupported
  else .error .unexpectedField

/-- What is no row is built the same without the terms. -/
theorem build_withoutTerms {kind : Kind} (h : kind ≠ .row) (f : Fields) :
    build kind f.withoutTerms = build kind f := by
  cases kind with
  | row => exact absurd rfl h
  | entity | primal | dual | column | solution => rfl

/-- The fields that can be set. -/
inductive Field where
  | index
  | representation
  | integrality
  | hardLower
  | hardUpper
  | softLower
  | softUpper
  deriving DecidableEq

/-- The header with a field set to a value. -/
def setField (field : Field) (d : Datum) (e : Entity Binary64) :
    Except Fault (Entity Binary64) :=
  match field with
  | .index => d.toWhole.map fun index => { e with index }
  | .representation => d.toRepresentation.map fun representation => { e with representation }
  | .integrality => d.toIntegrality.map fun integrality => { e with integrality }
  | .hardLower => d.toReal.map fun lower => { e with hard := { e.hard with lower } }
  | .hardUpper => d.toReal.map fun upper => { e with hard := { e.hard with upper } }
  | .softLower => d.toReal.map fun lower => { e with soft := { e.soft with lower } }
  | .softUpper => d.toReal.map fun upper => { e with soft := { e.soft with upper } }

end Object

end BranchBound
