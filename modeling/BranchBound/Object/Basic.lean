import BranchBound.Column.Codec
import BranchBound.Datum.Lookup
import BranchBound.Row.Codec

/-!
# Objects

An object is an entity, with or without further structure: on neither side, a variable, a
constraint, a column, or a row.  All have the header of an entity, and what changes the header
leaves the structure alone.

Main results:

- `Object.header_setHeader` and `Object.setHeader_header`: the header is a part of the object.
- `Object.kind_setHeader`: changing the header does not change the kind.
-/

namespace BranchBound

/-- An object of a subproblem. -/
inductive Object where
  /-- An entity on neither side. -/
  | entity (e : Entity Binary64)
  /-- A variable without further structure. -/
  | primal (e : Entity Binary64)
  /-- A constraint without further structure. -/
  | dual (e : Entity Binary64)
  /-- An integer variable. -/
  | column (c : Column Binary64)
  /-- A linear constraint. -/
  | row (r : Row Binary64)
  deriving DecidableEq

namespace Object

/-- The kind of an object. -/
def kind : Object → Kind
  | entity _ => .entity
  | primal _ => .primal
  | dual _ => .dual
  | column _ => .column
  | row _ => .row

/-- The fields that every object has. -/
def header : Object → Entity Binary64
  | entity e => e
  | primal e => e
  | dual e => e
  | column c => c.toEntity
  | row r => r.toEntity

/-- The object with other fields of those that every object has. -/
def setHeader (e : Entity Binary64) : Object → Object
  | entity _ => entity e
  | primal _ => primal e
  | dual _ => dual e
  | column c => column { c with toEntity := e }
  | row r => row { r with toEntity := e }

/-- The object with its header changed. -/
def mapHeader (f : Entity Binary64 → Entity Binary64) (o : Object) : Object :=
  o.setHeader (f o.header)

/-- The side that an object stands on. -/
def role? : Object → Option Role
  | entity _ => none
  | primal _ | column _ => some .primal
  | dual _ | row _ => some .dual

/-- A range by its ends. -/
def shownRange (i : Interval Binary64) : String :=
  "[" ++ i.lower.text ++ ", " ++ i.upper.text ++ "]"

/-- An object by its kind, index, integrality class and bounds. -/
def shown (o : Object) : String :=
  let e := o.header
  o.kind.name ++ "(index=" ++ toString e.index ++
    ", int_type=" ++ String.singleton e.integrality.letter ++
    ", hard=" ++ shownRange e.hard ++ ", soft=" ++ shownRange e.soft ++ ")"

/-- The header that was set is the header. -/
@[simp] theorem header_setHeader (e : Entity Binary64) (o : Object) :
    (o.setHeader e).header = e := by
  cases o <;> rfl

/-- Setting the header to itself changes nothing. -/
@[simp] theorem setHeader_header (o : Object) : o.setHeader o.header = o := by
  cases o <;> rfl

/-- Changing the header does not change the kind. -/
@[simp] theorem kind_setHeader (e : Entity Binary64) (o : Object) :
    (o.setHeader e).kind = o.kind := by
  cases o <;> rfl

end Object

end BranchBound
