import BranchBound.Object.Basic
import BranchBound.Relaxation
import BranchBound.Solution.Basic

/-!
# Models

A model holds the state of a relaxation, the cache of the weights for hashes, and the objects that
it has taken, in the order of their indices.  Objects are held by reference, so that a change to
an object is seen by everyone who knows it.

Main results:

- `Model.capture_indices`: a captured solution belongs to the variables in order.
-/

namespace BranchBound

/-- The state of a model; members are references to objects. -/
structure Model where
  /-- What is known of the relaxation. -/
  relaxation : Outline Binary64
  /-- The weights for hashes. -/
  weights : WeightCache
  /-- The objects taken, by index. -/
  members : List Nat

namespace Model

/-- A model that has taken no objects and drawn no weights. -/
def ofRelaxation (relaxation : Relaxation Binary64) (seed : Int) : Model :=
  ⟨.ofRelaxation relaxation, ⟨seed, .empty⟩, []⟩

/-- The member at a signed position. -/
def member (m : Model) (i : Int) : Except Fault Nat :=
  match signedGet? m.members i with
  | some id => .ok id
  | none => .error .outOfBounds

/-- The model with a value of the relaxation replaced, at a signed position. -/
def poke (m : Model) (i : Int) (x : Binary64) : Except Fault Model :=
  match signedSet? m.relaxation.solution i x with
  | some solution => .ok { m with relaxation := { m.relaxation with solution } }
  | none => .error .outOfBounds

/-- A record of the values of the relaxation. -/
def capture (m : Model) (quality : Binary64) : Solution Binary64 :=
  .ofValues m.relaxation.solution quality

/-- A captured solution belongs to the variables in order. -/
theorem capture_indices (m : Model) (quality : Binary64) :
    (m.capture quality).indices = Solution.firstIndices m.relaxation.solution.length := rfl

end Model

end BranchBound
