import BranchBound.Datum.Number
import BranchBound.Object.Basic

/-!
# What a search asks of an object

How far an object is from being feasible, where its soft bounds should be fixed, how to branch on
it, and what branching costs.  An object without further structure is always feasible and is
never branched on.

A question may come without a model.  A column that has no index does not look at the model, an
empty row has an activity without one, and every other question that needs the model fails.  A
parameter of the model that has no value is missed only where the answer depends on it.

Main results:

- `Object.infeasibility_entity`: an object without further structure is feasible.
- `Object.split_row`: rows are never branched on.
-/

namespace BranchBound

namespace Column

/-- A question to a column, with the answer of a column that has no index. -/
def ask {α : Type} (c : Column Binary64) (m : Outline?) (unplaced : α)
    (question : Outline Binary64 → Except Fault α) : Except Fault α :=
  match m with
  | some o => question o
  | none => if c.index < 0 then .ok unplaced else .error .unsupported

/-- The relaxation of an outline, where a parameter is used if the column has a value. -/
def withParameter (c : Column Binary64) (o : Outline Binary64) (p : Parameter) :
    Except Fault (Relaxation Binary64) :=
  match c.value? o.filled with
  | some _ => o.withParameter p
  | none => .ok o.filled

/-- The branching of a column, if it has one; only then the direction is looked at.  A column
that admits every value needs no tolerance. -/
def splitBy (c : Column Binary64) (o : Outline Binary64) (way : Datum) :
    Except Fault (Option (Branch Binary64)) := do
  let r ← if c.integrality = .continuous then .ok o.filled
    else c.withParameter o .integerTolerance
  match c.split? r .down with
  | none => return none
  | some _ => way.toDirection.map (c.split? r)

/-- The step of a column towards a new feasible point, if there is one. -/
def stepBy (c : Column Binary64) (o : Outline Binary64) (preferred : Bool) :
    Except Fault (Option (Branch Binary64)) := do
  let step ← c.step? o.filled preferred
  if o.reducedCosts.isSome then
    let _ ← c.withParameter o .sense
  return step

end Column

namespace Row

/-- The activity of a row, in a model that may be missing. -/
def activity? (r : Row Binary64) (m : Outline?) : Except Fault Binary64 :=
  match m with
  | some o => r.activity o.filled
  | none => if r.indices.isEmpty then .ok 0.0 else .error .unsupported

/-- The infeasibility of a row; the tolerance is used once its activity is known. -/
def infeasibilityBy (r : Row Binary64) (o : Outline Binary64) :
    Except Fault (Binary64 × Option Direction) := do
  let _ ← r.activity o.filled
  r.infeasibility (← o.withParameter .feasibilityTolerance)

end Row

namespace Object

/-- How far an object is from being feasible, and the direction to try first. -/
def infeasibility (o : Object) (m : Outline?) : Except Fault (Binary64 × Option Direction) :=
  match o, m with
  | column c, m => c.ask m (0.0, none) fun x => do
    return c.infeasibility (← c.withParameter x .integerTolerance)
  | row r, some x => r.infeasibilityBy x
  | row _, none => .error .unsupported
  | _, _ => .ok (0.0, none)

/-- The object with its soft bounds fixed by the relaxation. -/
def fix (o : Object) (m : Outline?) : Except Fault Object :=
  match o with
  | column c => c.ask m o fun x => do
    return column (c.fix (← c.withParameter x .integerTolerance))
  | row r => (r.activity? m).map fun activity => row (r.settle activity)
  | _ => .ok o

/-- The branching of an object, if it has one. -/
def split (o : Object) (m : Outline?) (way : Datum) :
    Except Fault (Option (Branch Binary64)) :=
  match o with
  | column c => c.ask m none fun x => c.splitBy x way
  | _ => .ok none

/-- The step towards a new feasible point, if there is one. -/
def step (o : Object) (m : Outline?) (preferred : Bool) :
    Except Fault (Option (Branch Binary64)) :=
  match o, m with
  | column c, some x => c.stepBy x preferred
  | column _, none => .error .unsupported
  | _, _ => .ok none

/-- The value of a column. -/
def value (o : Object) (m : Outline?) : Except Fault (Option Binary64) :=
  match o with
  | column c => c.ask m none fun x => .ok (c.value? x.filled)
  | _ => .error .unsupported

/-- The activity of a row. -/
def activity (o : Object) (m : Outline?) : Except Fault Binary64 :=
  match o with
  | row r => r.activity? m
  | _ => .error .unsupported

/-- The number of terms of a row. -/
def termCount (o : Object) : Except Fault Nat :=
  match o with
  | row r => .ok r.indices.length
  | _ => .error .unsupported

/-- The column after a branching; the improvement is only looked at if the distance counts. -/
def observe (o : Object) (direction : Direction) (improvement distance : Datum) :
    Except Fault Object :=
  match o with
  | column c => do
    let distance ← distance.toReal
    if distance ≤ PseudoCosts.shortDistance then return o
    let improvement ← improvement.toReal
    return column (← c.observe direction improvement distance)
  | _ => .error .unsupported

/-- What branching down and up is expected to cost. -/
def estimates (o : Object) : Interval Binary64 :=
  match o with
  | column c => ⟨c.costs.down.estimate, c.costs.up.estimate⟩
  | _ => ⟨defaultEstimate, defaultEstimate⟩

/-- The hash of an object. -/
def hashing (o : Object) : Action WeightSource Binary64 :=
  match o with
  | column c => c.hashing
  | row r => r.hashing
  | _ => return 0.0

/-- The valid points next to a value; only a continuous object needs no tolerance. -/
def bracket (o : Object) (value tolerance : Datum) : Except Fault (Interval Binary64) := do
  let value ← value.toReal
  if o.header.integrality = .continuous then return ⟨value, value⟩
  return o.header.bracket (← tolerance.toReal) value

/-- An object without further structure is feasible. -/
theorem infeasibility_entity (e : Entity Binary64) (m : Outline?) :
    (entity e).infeasibility m = .ok (0.0, none) := rfl

/-- Rows are never branched on. -/
theorem split_row (r : Row Binary64) (m : Outline?) (way : Datum) :
    (row r).split m way = .ok none := rfl

end Object

end BranchBound
