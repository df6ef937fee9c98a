import BranchBound.Entity.Basic
import BranchBound.Fault

/-!
# Pseudo-costs

What branching on a variable has cost so far: for either direction, the average change of the
objective per unit of distance and how many branchings it was taken over.  Changes for the better
count as no change, and branchings over too short a distance are not counted.

Main results:

- `Average.count_of_observe`: an observation counts once.
- `PseudoCosts.observe_of_short`: too short a distance changes nothing.
-/

namespace BranchBound

/-- An average and the number of observations that it was taken over. -/
structure Average (N : Type) where
  /-- The average. -/
  cost : N
  /-- The number of observations. -/
  count : Int
  deriving DecidableEq

/-- The pseudo-costs of a variable. -/
structure PseudoCosts (N : Type) where
  /-- Of branching down. -/
  down : Average N
  /-- Of branching up. -/
  up : Average N
  deriving DecidableEq

variable {N : Type} [NumberSystem N]

namespace Average

/-- The average before any observation. -/
def initial : Average N := ⟨defaultEstimate, 0⟩

/-- The average with one observation more. -/
def observe (a : Average N) (cost : N) : Except Fault (Average N) :=
  if a.count + 1 = 0 then .error .divisionByZero
  else
    .ok ⟨(a.cost * NumberSystem.ofInt a.count + cost) / NumberSystem.ofInt (a.count + 1),
      a.count + 1⟩

/-- What is to be expected of the next branching. -/
def estimate (a : Average N) : N := if a.count = 0 then defaultEstimate else a.cost

/-- An observation counts once. -/
theorem count_of_observe {a a' : Average N} {cost : N} (h : a.observe cost = .ok a') :
    a'.count = a.count + 1 := by
  unfold observe at h
  split at h
  · cases h
  · cases h
    rfl

end Average

namespace PseudoCosts

/-- The pseudo-costs before any branching. -/
def initial : PseudoCosts N := ⟨.initial, .initial⟩

/-- The average of a direction. -/
def of (p : PseudoCosts N) : Direction → Average N
  | .down => p.down
  | .up => p.up

/-- The pseudo-costs with the average of a direction replaced. -/
def put (p : PseudoCosts N) (a : Average N) : Direction → PseudoCosts N
  | .down => { p with down := a }
  | .up => { p with up := a }

/-- The shortest distance that is not counted is this. -/
def shortDistance : N := 1e-6

/-- The pseudo-costs after a branching over a distance that changed the objective. -/
def observe (p : PseudoCosts N) (direction : Direction) (improvement distance : N) :
    Except Fault (PseudoCosts N) :=
  if distance ≤ shortDistance then .ok p
  else
    match (p.of direction).observe (greater 0.0 improvement / distance) with
    | .ok a => .ok (p.put a direction)
    | .error e => .error e

/-- Too short a distance changes nothing. -/
theorem observe_of_short {p : PseudoCosts N} {direction : Direction} {improvement distance : N}
    (h : distance ≤ shortDistance) : p.observe direction improvement distance = .ok p := by
  simp [observe, h]

end PseudoCosts

end BranchBound
