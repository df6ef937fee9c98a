import BranchBound.Datum.Indices
import BranchBound.Workspace.Answer

/-!
# Tasks on models and solutions

What can be asked of a model: to change the state of its relaxation, to take an object, to give
its members and its weights, and to record a solution.  What can be asked of a solution: its
values one by one, and a selection of them.

Main results:

- `ModelTask.run_of_self_none`: a task that is asked of nothing fails and changes nothing.
-/

namespace BranchBound

/-- The fields of a model that can be set. -/
inductive ModelField where
  | solution
  | reducedCosts
  | sense
  | integerTolerance
  | feasibilityTolerance
  | seed
  deriving DecidableEq

/-- Values for the fields of a new model. -/
abbrev ModelFields := List (ModelField × Datum)

/-- What can be asked of a model. -/
inductive ModelTask where
  /-- Set a field. -/
  | set (field : ModelField) (d : Datum)
  /-- Set a value of the relaxation. -/
  | poke (index d : Datum)
  /-- Take an object. -/
  | place
  /-- Give a member and its names. -/
  | member (index : Int)
  /-- Give the first weights. -/
  | weights (size : Int)
  /-- Record the values of the relaxation. -/
  | capture (quality : Datum)

/-- What can be asked of a solution. -/
inductive SolutionTask where
  /-- Give the value of a variable. -/
  | valueOf (index : Datum)
  /-- Give the number of values. -/
  | size
  /-- Select the values that are not zero. -/
  | nonzeros (tolerance : Datum)
  /-- Select the values that are not integers. -/
  | fractional (tolerance : Datum)

namespace Model

/-- The model with a field set to a value; the weights that have been drawn are kept. -/
def setField (field : ModelField) (d : Datum) (m : Model) : Except Fault Model :=
  let r := m.relaxation
  match field with
  | .solution => do return { m with relaxation := { r with solution := ← d.reals } }
  | .reducedCosts =>
    match d with
    | .nothing => .ok { m with relaxation := { r with reducedCosts := none } }
    | d => do return { m with relaxation := { r with reducedCosts := some (← d.reals) } }
  | .sense => do return { m with relaxation := { r with sense := ← d.toReal? } }
  | .integerTolerance => do
    return { m with relaxation := { r with integerTolerance := ← d.toReal? } }
  | .feasibilityTolerance => do
    return { m with relaxation := { r with feasibilityTolerance := ← d.toReal? } }
  | .seed => do return { m with weights := { m.weights with seed := ← d.toWhole } }

/-- The model with a value of the relaxation set.  Only an integer can be a position; one that
fits 64 bits only without a sign overflows, and any other lies in the list or outside it. -/
def pokeAt (m : Model) (index : Datum) (x : Binary64) : Except Fault Model :=
  match index with
  | .integer n => if Datum.classOfInt n = .unsigned then .error .overflow else m.poke n x
  | _ => .error .outOfBounds

/-- A new model from values for its fields. -/
def build (fields : ModelFields) : Except Fault Model :=
  fields.foldlM (fun m (field, d) => m.setField field d)
    (ofRelaxation .initial Weights.defaultSeed)

end Model

namespace Solution

/-- A new solution from its values, its quality, and indices if these are given. -/
def build (values quality indices : Datum) : Except Fault (Solution Binary64) := do
  let values ← values.reals
  let indices ← match indices with
    | .nothing => .ok (firstIndices values.length)
    | d => d.indices
  if indices.length = values.length then return ⟨values, indices, ← quality.toReal⟩
  else .error (.unevenValues indices.length values.length)

/-- Which indices a value seeks: those equal to it as an integer or, if it is a number, those
that are rounded to it. -/
def seeks (d : Datum) (index : Int) : Bool :=
  match d with
  | .real x => Same (Binary64.ofInt index) x
  | d => d.whole? = some index

/-- A selection, which needs a tolerance only if there is something to select from. -/
def selectBy (s : Solution Binary64) (tolerance : Datum)
    (select : Solution Binary64 → Binary64 → Solution Binary64) :
    Except Fault (Solution Binary64) :=
  if s.values.isEmpty then .ok s else tolerance.toReal.map (select s)

end Solution

namespace ModelTask

/-- Takes what is referred to; a branching cannot be taken, with or without an index. -/
def placeInto (model : Nat) : Option Handle → Work
  | some (.object object) => do
    let index ← Workspace.onStore (Store.place model object)
    return { answer := .whole index }
  | some (.branch b) =>
    .fail (if b.index = Entity.unplaced then .unsupported else .alreadyPlaced b.index)
  | _ => .fail .unsupported

/-- Carries out a task on the model of a reference. -/
def run (t : ModelTask) (refs : References) : Work := do
  let id ← Handle.modelId refs.self
  let m ← Workspace.onStore (Store.model id)
  match t with
  | set field d =>
    let m ← .ofExcept (m.setField field d)
    Workspace.onStore (Store.setModel id m)
    return {}
  | poke index d =>
    let x ← .ofExcept d.elementReal
    let m ← .ofExcept (m.pokeAt index x)
    Workspace.onStore (Store.setModel id m)
    return {}
  | place => placeInto id refs.source
  | member index =>
    let object ← .ofExcept (m.member index)
    let o ← Workspace.onStore (Store.object object)
    let names := (← .state).namesOf object
    return { answer := .list [.view (.object o), .list (names.map .text)] }
  | weights size =>
    let weights ← Workspace.onStore (Store.onWeights id (WeightSource.weights size))
    return { answer := .reals weights.toList }
  | capture quality =>
    let quality ← .ofExcept quality.toReal
    return Workspace.makeSolution (m.capture quality)

/-- A task that is asked of nothing fails and changes nothing. -/
theorem run_of_self_none (t : ModelTask) {refs : References} (h : refs.self = none)
    (w : Workspace) : (t.run refs).run w = (.error .unsupported, w) := by
  have first : (Handle.modelId refs.self).run w = (.error .unsupported, w) := by rw [h]; rfl
  rw [run, Action.run_bind_of_error first]

end ModelTask

namespace SolutionTask

/-- Carries out a task on the solution of a reference; nothing else has a number of values. -/
def run (t : SolutionTask) (refs : References) : Work :=
  match refs.self with
  | some (.solution s) =>
    match t with
    | valueOf index => return { answer := .real (s.valueWhere (Solution.seeks index)) }
    | size => return { answer := .whole s.size }
    | nonzeros tolerance => do
      let s ← .ofExcept (s.selectBy tolerance Solution.nonzeros)
      return Workspace.makeSolution s
    | fractional tolerance => do
      let s ← .ofExcept (s.selectBy tolerance Solution.fractional)
      return Workspace.makeSolution s
  | _ =>
    match t with
    | size => .fail .missingNumber
    | _ => .fail .unsupported

end SolutionTask

end BranchBound
