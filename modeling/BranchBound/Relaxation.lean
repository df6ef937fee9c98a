import BranchBound.Fault
import BranchBound.NumberSystem

/-!
# Relaxations

What the entities of a subproblem are judged against: the values of the current relaxation, its
reduced costs if they are known, the sense of the objective, and two tolerances.

A model keeps its relaxation as an outline, in which the sense and the tolerances may have no
value.  A question that uses one of them can then not be answered; all others can.

Main results:

- `Outline.withParameter_ofRelaxation`: from an outline without gaps every parameter can be used.
-/

namespace BranchBound

/-- The state of a relaxation. -/
structure Relaxation (N : Type) where
  /-- The value of every variable, by index. -/
  solution : List N
  /-- The reduced cost of every variable, by index. -/
  reducedCosts : Option (List N)
  /-- One where the objective is minimised, minus one where it is maximised. -/
  sense : N
  /-- How far an integer value may be from an integer. -/
  integerTolerance : N
  /-- How far an activity may be outside its range. -/
  feasibilityTolerance : N
  deriving DecidableEq

namespace Relaxation

variable {N : Type} [NumberSystem N]

/-- The relaxation before anything is known. -/
def initial : Relaxation N where
  solution := []
  reducedCosts := none
  sense := 1.0
  integerTolerance := defaultTolerance
  feasibilityTolerance := defaultTolerance

end Relaxation

/-- The state of a relaxation, parameters of which may have no value. -/
structure Outline (N : Type) where
  /-- The value of every variable, by index. -/
  solution : List N
  /-- The reduced cost of every variable, by index. -/
  reducedCosts : Option (List N)
  /-- The sense of the objective. -/
  sense : Option N
  /-- How far an integer value may be from an integer. -/
  integerTolerance : Option N
  /-- How far an activity may be outside its range. -/
  feasibilityTolerance : Option N
  deriving DecidableEq

/-- The parameters of a relaxation. -/
inductive Parameter where
  | sense
  | integerTolerance
  | feasibilityTolerance
  deriving DecidableEq

namespace Outline

variable {N : Type}

/-- The outline of a relaxation. -/
def ofRelaxation (r : Relaxation N) : Outline N where
  solution := r.solution
  reducedCosts := r.reducedCosts
  sense := some r.sense
  integerTolerance := some r.integerTolerance
  feasibilityTolerance := some r.feasibilityTolerance

/-- The value of a parameter, if it has one. -/
def parameter? (o : Outline N) : Parameter → Option N
  | .sense => o.sense
  | .integerTolerance => o.integerTolerance
  | .feasibilityTolerance => o.feasibilityTolerance

variable [NumberSystem N]

/-- The relaxation of an outline; in a gap stands the initial value. -/
def filled (o : Outline N) : Relaxation N where
  solution := o.solution
  reducedCosts := o.reducedCosts
  sense := o.sense.getD Relaxation.initial.sense
  integerTolerance := o.integerTolerance.getD Relaxation.initial.integerTolerance
  feasibilityTolerance := o.feasibilityTolerance.getD Relaxation.initial.feasibilityTolerance

/-- The relaxation of an outline for a question that uses one parameter. -/
def withParameter (o : Outline N) (p : Parameter) : Except Fault (Relaxation N) :=
  match o.parameter? p with
  | some _ => .ok o.filled
  | none => .error .missingNumber

/-- From an outline without gaps every parameter can be used. -/
theorem withParameter_ofRelaxation (r : Relaxation N) (p : Parameter) :
    (ofRelaxation r).withParameter p = .ok r := by
  cases p <;> rfl

end Outline

/-- What a model tells of its relaxation, where there may be no model. -/
abbrev Outline? : Type := Option (Outline Binary64)

end BranchBound
