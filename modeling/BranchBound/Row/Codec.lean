import BranchBound.Binary64.Arctan
import BranchBound.Entity.Header
import BranchBound.Row.Basic
import BranchBound.Weights.Stream

/-!
# Rows on the wire, and their hashes

A row is encoded as its header, the array of its indices modulo `2 ^ 32`, and the array of its
coefficients.  A row that is read keeps the order of its terms.

The hash of a row has a part for its hard bounds, which enter through the inverse tangent so that
infinite bounds count as a right angle, and a part for its terms.  As many weights are asked for
as the last index needs; the other indices have to be found among them.

Main results:

- `Row.boundHash_eq`: the part of a hash that the bounds give.
- `Row.run_hashing_of_nil`: the hash of an empty row draws no weights.
-/

namespace BranchBound

namespace Row

/-- A row before anything is set: no terms and no bounds. -/
def initial : Row Binary64 where
  index := Entity.unplaced
  representation := .core
  integrality := .continuous
  status := .none
  hard := ⟨.infinity true, .infinity false⟩
  soft := ⟨.infinity true, .infinity false⟩
  hash := 0.0
  indices := []
  coefficients := []

/-- Writes a row. -/
def encode (r : Row Binary64) : Action Buffer Unit := do
  r.writeHeader
  Buffer.writeWholeArray r.indices
  Buffer.writeRealArray r.coefficients

/-- Reads a row. -/
def decode : Action Buffer (Row Binary64) := do
  let entity ← Entity.read initial.toEntity
  let indices ← Buffer.readWholeArray
  let coefficients ← Buffer.readRealArray
  if indices.length = coefficients.length then
    return { entity with indices, coefficients }
  else .fail (.malformed (.unevenRow indices.length coefficients.length))

/-- The seed of the weights of the two bounds, apart from those of the terms. -/
def boundSeed : Nat := 1234568

/-- The weight of a bound: the lower one comes first. -/
def boundWeight (position : Nat) : Binary64 :=
  ((Weights.ofSeed 2 boundSeed).get? position).getD 0.0

/-- The part of a hash that the bounds give. -/
def boundHash (hard : Interval Binary64) : Binary64 :=
  boundWeight 0 * hard.lower.arctan + boundWeight 1 * hard.upper.arctan

/-- The hash of a row. -/
def hashing (r : Row Binary64) : Action WeightSource Binary64 := do
  match r.indices.getLast? with
  | none => return boundHash r.hard
  | some last =>
    let weights ← WeightSource.weights (last + 1)
    let terms ← .ofExcept (r.combine weights.get?)
    return boundHash r.hard + terms

theorem boundWeight_eq {position : Nat} (h : position < 2) :
    boundWeight position = (Weights.ofSeed 2 boundSeed).entry position := by
  have hposition : signedPosition? (Weights.ofSeed 2 boundSeed).size position = some position := by
    have hlt : (position : Int) < (Weights.ofSeed 2 boundSeed).size := Int.ofNat_lt.2 h
    rw [signedPosition?, if_pos (Int.natCast_nonneg position), if_pos hlt, Int.toNat_natCast]
  rw [boundWeight, Weights.get?, hposition, Option.map_some, Option.getD_some]

/-- The bounds enter by their inverse tangents, with the first two weights of their own seed. -/
theorem boundHash_eq (hard : Interval Binary64) :
    boundHash hard =
      (Weights.ofSeed 2 boundSeed).entry 0 * hard.lower.arctan +
        (Weights.ofSeed 2 boundSeed).entry 1 * hard.upper.arctan := by
  rw [boundHash, boundWeight_eq (by decide), boundWeight_eq (by decide)]

/-- The hash of an empty row draws no weights. -/
theorem run_hashing_of_nil {r : Row Binary64} (h : r.indices = []) (s : WeightSource) :
    r.hashing.run s = (.ok (boundHash r.hard), s) := by
  simp [hashing, h]

end Row

end BranchBound
