import BranchBound.Column.Basic
import BranchBound.Entity.Header
import BranchBound.Weights.Stream

/-!
# Columns on the wire, and their hashes

A column is encoded as its header, the two average costs, and the two counts.  Its hash is the
weight of its index.

Main results:

- `Column.run_hashing_of_unplaced`: a column without an index draws no weights and has hash zero.
-/

namespace BranchBound

namespace Column

/-- A column before anything is set: a fresh integer variable between zero and one. -/
def initial : Column Binary64 where
  index := Entity.unplaced
  representation := .core
  integrality := .integer
  status := .none
  hard := ⟨0.0, 1.0⟩
  soft := ⟨0.0, 1.0⟩
  hash := 0.0
  costs := .initial

/-- Writes a column. -/
def encode (c : Column Binary64) : Action Buffer Unit := do
  c.writeHeader
  Buffer.writeReal c.costs.down.cost
  Buffer.writeReal c.costs.up.cost
  Buffer.writeInt c.costs.down.count
  Buffer.writeInt c.costs.up.count

/-- Reads a column. -/
def decode : Action Buffer (Column Binary64) := do
  let entity ← Entity.read initial.toEntity
  let downCost ← Buffer.readReal
  let upCost ← Buffer.readReal
  let downCount ← Buffer.readInt
  let upCount ← Buffer.readInt
  return { entity with costs := ⟨⟨downCost, downCount⟩, ⟨upCost, upCount⟩⟩ }

/-- The hash of a column. -/
def hashing (c : Column Binary64) : Action WeightSource Binary64 := do
  if c.index < 0 then return 0.0
  let weights ← WeightSource.weights (c.index + 1)
  match weights.get? c.index with
  | some weight => return weight
  | none => .fail .outOfBounds

/-- A column without an index draws no weights and has hash zero. -/
theorem run_hashing_of_unplaced {c : Column Binary64} (h : c.index < 0) (s : WeightSource) :
    c.hashing.run s = (.ok 0.0, s) := by
  simp [hashing, h]

end Column

end BranchBound
