import BranchBound.Action
import BranchBound.Entity.Basic

/-!
# Branchings

A branching splits the search on one entity.  It names the entity by its index only, so that it
can be copied and sent along with the node that owns it, and it holds the range of either child
and which child should be explored first.

A branching that callers wrote down may lack its value or an end of a range.  It is applied end by
end, so a missing end leaves what was set before it.

Main results:

- `Branch.apply_eq_ok_iff`: a branching applies to the entity of its index and to no other.
- `Branch.soft_of_apply`: applied, it leaves the range of the chosen child.
- `Branch.run_applyEnds_some`: applied end by end, a branching that lacks nothing does the same.
-/

namespace BranchBound

/-- A split of the search on one entity. -/
structure Branch (N : Type) where
  /-- The index of the entity. -/
  index : Int
  /-- The number of the direction to explore first; every number but that of down means up. -/
  way : Int
  /-- The value that the split was built from. -/
  value : N
  /-- The range of the down child. -/
  down : Interval N
  /-- The range of the up child. -/
  up : Interval N
  deriving DecidableEq

namespace Direction

/-- The direction that a number means where every number is allowed. -/
def ofNumber (n : Int) : Direction := if n = down.code then down else up

@[simp] theorem ofNumber_code (d : Direction) : ofNumber d.code = d := by
  cases d <;> rfl

end Direction

namespace Branch

variable {N : Type}

/-- The direction to explore first. -/
def first (b : Branch N) : Direction := .ofNumber b.way

/-- The range of a child. -/
def bounds (b : Branch N) : Direction → Interval N
  | .down => b.down
  | .up => b.up

/-- The entity of a child: its soft bounds are those of the child, and it is marked as branched
on. -/
def apply (b : Branch N) (e : Entity N) (direction : Direction) : Except Fault (Entity N) :=
  if e.index = b.index then
    .ok ({ e with soft := b.bounds direction }.mark { branchedOn := true })
  else .error (.foreignBranch b.index e.index)

/-- A branching that lacks nothing, as one that may. -/
def allowGaps (b : Branch N) : Branch (Option N) where
  index := b.index
  way := b.way
  value := some b.value
  down := ⟨some b.down.lower, some b.down.upper⟩
  up := ⟨some b.up.lower, some b.up.upper⟩

/-- The end of a range, if it is there. -/
def ofEnd : Option N → Action (Entity N) N
  | some x => return x
  | none => .fail .missingNumber

/-- Makes an entity that of a child, one end after the other. -/
def applyEnds (b : Branch (Option N)) (direction : Direction) : Action (Entity N) Unit := do
  let e ← .state
  if e.index = b.index then
    let lower ← ofEnd (b.bounds direction).lower
    .update fun e => { e with soft := { e.soft with lower } }
    let upper ← ofEnd (b.bounds direction).upper
    .update fun e => { e with soft := { e.soft with upper } }
    .update fun e => e.mark { branchedOn := true }
  else .fail (.foreignBranch b.index e.index)

/-- A branching applies to the entity of its index and to no other. -/
theorem apply_eq_ok_iff {b : Branch N} {e : Entity N} {direction : Direction} :
    (∃ child, b.apply e direction = .ok child) ↔ e.index = b.index := by
  unfold apply
  split <;> simp [*]

/-- Applied, a branching leaves the range of the chosen child. -/
theorem soft_of_apply {b : Branch N} {e child : Entity N} {direction : Direction}
    (h : b.apply e direction = .ok child) : child.soft = b.bounds direction := by
  unfold apply at h
  split at h
  · cases h
    rfl
  · cases h

/-- Applied end by end, a branching that lacks nothing does the same. -/
theorem run_applyEnds_some (b : Branch N) (e : Entity N) (direction : Direction) :
    (b.allowGaps.applyEnds direction).run e =
      match b.apply e direction with
      | .ok child => (.ok (), child)
      | .error fault => (.error fault, e) := by
  unfold applyEnds apply
  rw [Action.run_bind_of_ok (Action.run_state e)]
  by_cases h : e.index = b.index
  · cases direction <;> simp [h, allowGaps, bounds, ofEnd, Action.run_bind]
  · simp [h, allowGaps]

end Branch

end BranchBound
