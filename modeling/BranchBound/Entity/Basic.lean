import BranchBound.Kind.Basic
import BranchBound.Kind.Status
import BranchBound.NumberSystem

/-!
# Bounded entities

An entity is one object of a subproblem.  All that is known of it here are its bounds, its
integrality class, and a few flags.  Its hard bounds are fixed from the start; its soft bounds are
the working range, which branchings tighten and which can be reset to the hard bounds.  The hard
range should hold the soft range; that is left to the callers.

An entity has no index until a model takes it.

Main results:

- `Entity.bracket_continuous`: a continuous entity admits every value.
- `Entity.consistent_resetBounds_iff`: after a reset only the hard range has to be in order.
-/

namespace BranchBound

/-- A range of numbers by its two ends. -/
structure Interval (N : Type) where
  /-- The lower end. -/
  lower : N
  /-- The upper end. -/
  upper : N
  deriving DecidableEq

/-- A bounded entity. -/
structure Entity (N : Type) where
  /-- The index that a model gave, negative before that. -/
  index : Int
  /-- How the entity is held. -/
  representation : Representation
  /-- The values that the entity admits. -/
  integrality : Integrality
  /-- The flags of the entity. -/
  status : Status
  /-- The range fixed from the start. -/
  hard : Interval N
  /-- The working range. -/
  soft : Interval N
  /-- The hash that finds duplicates. -/
  hash : N
  deriving DecidableEq

namespace Entity

variable {N : Type}

/-- The index of an entity that no model has taken. -/
def unplaced : Int := -1

/-- The entity with a flag set besides those it has. -/
def mark (e : Entity N) (s : Status) : Entity N := { e with status := e.status.union s }

/-- The entity with flags cleared. -/
def unmark (e : Entity N) (s : Status) : Entity N := { e with status := e.status.diff s }

/-- The entity with its soft bounds set to the hard ones. -/
def resetBounds (e : Entity N) : Entity N := { e with soft := e.hard }

/-- The entity with its soft bounds set to one value. -/
def fixAt (e : Entity N) (x : N) : Entity N := { e with soft := ⟨x, x⟩ }

@[simp] theorem resetBounds_soft (e : Entity N) : e.resetBounds.soft = e.hard := rfl

@[simp] theorem resetBounds_hard (e : Entity N) : e.resetBounds.hard = e.hard := rfl

@[simp] theorem fixAt_soft (e : Entity N) (x : N) : (e.fixAt x).soft = ⟨x, x⟩ := rfl

@[simp] theorem fixAt_hard (e : Entity N) (x : N) : (e.fixAt x).hard = e.hard := rfl

variable [NumberSystem N]

/-- Whether the hard range holds the soft range, and both are in order, up to a tolerance. -/
def Consistent (e : Entity N) (tolerance : N) : Prop :=
  e.hard.lower ≤ e.soft.lower + tolerance ∧
    e.soft.lower ≤ e.soft.upper + tolerance ∧
    e.soft.upper ≤ e.hard.upper + tolerance

instance (e : Entity N) (tolerance : N) : Decidable (e.Consistent tolerance) :=
  inferInstanceAs (Decidable (_ ∧ _ ∧ _))

/-! ## Valid points next to a value -/

/-- The integers next to a value; one integer twice if it is within the tolerance. -/
def integerBracket (tolerance value : N) : Interval N :=
  let near := NumberSystem.nearest value
  if NumberSystem.magnitude (value - near) ≤ tolerance then ⟨near, near⟩
  else ⟨NumberSystem.floor value, NumberSystem.ceiling value⟩

/-- The valid points next to a value, below and above it. -/
def bracket (e : Entity N) (tolerance value : N) : Interval N :=
  match e.integrality with
  | .continuous => ⟨value, value⟩
  | .semicontinuous =>
    if tolerance < value ∧ value < e.hard.lower - tolerance then ⟨0.0, e.hard.lower⟩
    else ⟨value, value⟩
  | .integer => integerBracket tolerance value
  | .binary =>
    let points := integerBracket tolerance value
    ⟨clamp 0.0 1.0 points.lower, clamp 0.0 1.0 points.upper⟩

/-- A continuous entity admits every value. -/
theorem bracket_continuous {e : Entity N} (h : e.integrality = .continuous)
    (tolerance value : N) : e.bracket tolerance value = ⟨value, value⟩ := by
  simp [bracket, h]

/-- After a reset only the hard range has to be in order. -/
theorem consistent_resetBounds_iff {e : Entity N} {tolerance : N}
    (lower : e.hard.lower ≤ e.hard.lower + tolerance)
    (upper : e.hard.upper ≤ e.hard.upper + tolerance) :
    e.resetBounds.Consistent tolerance ↔ e.hard.lower ≤ e.hard.upper + tolerance := by
  simp [Consistent, lower, upper]

end Entity

/-- The estimate of a branching that has not been observed. -/
def defaultEstimate {N : Type} [NumberSystem N] : N := 1e-5

end BranchBound
