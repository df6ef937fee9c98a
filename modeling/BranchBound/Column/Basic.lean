import BranchBound.Branch
import BranchBound.Column.Costs
import BranchBound.Relaxation

/-!
# Columns

A column is a variable of integer or binary values.  It is judged by the value that the relaxation
gives it, moved into its soft range: the further that value is from the nearest integer, the less
feasible the column is, and it is branched on by cutting the soft range at the integers next to
that value.

A column that has no index, or one past the end of the relaxation, has no value; it is feasible
and is not branched on.

Main results:

- `Column.infeasibility_of_value_none`, `Column.split?_of_value_none`: a column without a value is
  feasible and has no branching.
- `Column.split?_bounds`: a branching keeps the outer ends of the soft range.
- `Column.toEntity_of_observe`: a report changes nothing but what branching has cost.
-/

namespace BranchBound

/-- A variable of integer or binary values. -/
structure Column (N : Type) extends Entity N where
  /-- What branching on it has cost. -/
  costs : PseudoCosts N
  deriving DecidableEq

namespace Column

variable {N : Type} [NumberSystem N]

/-- The value that the relaxation gives, moved into the soft range. -/
def value? (c : Column N) (r : Relaxation N) : Option N :=
  if c.index < 0 then none
  else (r.solution[c.index.toNat]?).map (clamp c.soft.lower c.soft.upper)

/-- How far the value is from an integer, at most one half, and the direction to try first. -/
def infeasibility (c : Column N) (r : Relaxation N) : N × Option Direction :=
  match c.value? r with
  | none => (0.0, none)
  | some value =>
    let distance := NumberSystem.magnitude (value - NumberSystem.nearest value)
    if distance ≤ r.integerTolerance then (0.0, none)
    else
      (lesser distance 0.5,
        some (if value - NumberSystem.floor value < (0.5 : N) then .down else .up))

/-- The column with its soft bounds set to the integer nearest to its value. -/
def fix (c : Column N) (r : Relaxation N) : Column N :=
  match c.value? r with
  | none => c
  | some value => { c with toEntity := c.fixAt (NumberSystem.nearest value) }

/-- The branching at the valid points next to the value, if these are two. -/
def split? (c : Column N) (r : Relaxation N) (way : Direction) : Option (Branch N) :=
  match c.value? r with
  | none => none
  | some value =>
    let points := c.bracket r.integerTolerance value
    if Same points.lower points.upper then none
    else
      some
        { index := c.index
          way := way.code
          value
          down := ⟨c.soft.lower, points.lower⟩
          up := ⟨points.upper, c.soft.upper⟩ }

/-- The step down to the integer before the one nearest to the value, if the soft range has
it. -/
def stepDown? (c : Column N) (value : N) : Option (Branch N) :=
  let near := NumberSystem.nearest value
  let target := near - 1.0
  if target < c.soft.lower then none
  else
    some
      { index := c.index
        way := Direction.down.code
        value
        down := ⟨target, target⟩
        up := ⟨near, c.soft.upper⟩ }

/-- The step up to the integer after the one nearest to the value, if the soft range has it. -/
def stepUp? (c : Column N) (value : N) : Option (Branch N) :=
  let near := NumberSystem.nearest value
  let target := near + 1.0
  if c.soft.upper < target then none
  else
    some
      { index := c.index
        way := Direction.up.code
        value
        down := ⟨c.soft.lower, near⟩
        up := ⟨target, target⟩ }

/-- The step towards a new feasible point: the preferred one lowers the objective as far as the
reduced cost tells, the other one raises it. -/
def step? (c : Column N) (r : Relaxation N) (preferred : Bool) :
    Except Fault (Option (Branch N)) :=
  match r.reducedCosts, c.value? r with
  | none, _ => .ok none
  | some _, none => .ok none
  | some costs, some value =>
    match costs[c.index.toNat]? with
    | none => .error .outOfBounds
    | some cost =>
      let slope := cost * r.sense
      let goDown := if preferred then decide ((0.0 : N) ≤ slope) else decide (slope < (0.0 : N))
      .ok (if goDown then c.stepDown? value else c.stepUp? value)

/-- The column after a branching over a distance that changed the objective. -/
def observe (c : Column N) (direction : Direction) (improvement distance : N) :
    Except Fault (Column N) :=
  match c.costs.observe direction improvement distance with
  | .ok costs => .ok { c with costs }
  | .error e => .error e

/-- A report changes nothing but what branching has cost. -/
theorem toEntity_of_observe {c c' : Column N} {direction : Direction} {improvement distance : N}
    (h : c.observe direction improvement distance = .ok c') : c'.toEntity = c.toEntity := by
  unfold observe at h
  split at h
  · cases h
    rfl
  · cases h

/-- A column without a value is feasible. -/
theorem infeasibility_of_value_none {c : Column N} {r : Relaxation N} (h : c.value? r = none) :
    c.infeasibility r = (0.0, none) := by
  simp [infeasibility, h]

/-- A column without a value has no branching. -/
theorem split?_of_value_none {c : Column N} {r : Relaxation N} (h : c.value? r = none)
    (way : Direction) : c.split? r way = none := by
  simp [split?, h]

/-- A branching keeps the outer ends of the soft range. -/
theorem split?_bounds {c : Column N} {r : Relaxation N} {way : Direction} {b : Branch N}
    (h : c.split? r way = some b) :
    b.down.lower = c.soft.lower ∧ b.up.upper = c.soft.upper := by
  unfold split? at h
  split at h
  · cases h
  · simp only at h
    split at h
    · cases h
    · cases h
      exact ⟨rfl, rfl⟩

end Column

end BranchBound
