import BranchBound.Solution.Basic
import BranchBound.Wire.Buffer

/-!
# Solutions on the wire

A solution is encoded as the number of its values, the values, and the quality.  Indices are not
sent: a solution that is read belongs to the variables in order.

Main results:

- `Solution.run_encode`: what the encoding of a solution adds to a buffer.
-/

namespace BranchBound

namespace Solution

/-- Writes a solution. -/
def encode (s : Solution Binary64) : Action Buffer Unit := do
  Buffer.writeInt s.size
  Buffer.writeReals s.values
  Buffer.writeReal s.quality

/-- Reads a solution. -/
def decode : Action Buffer (Solution Binary64) := do
  let size ← Buffer.readInt
  let values ← Buffer.readReals size
  let quality ← Buffer.readReal
  return ofValues values quality

/-- A solution by its size and its quality. -/
def shown (s : Solution Binary64) : String :=
  "Solution(size=" ++ toString s.size ++ ", quality=" ++ s.quality.text ++ ")"

/-- What the encoding of a solution adds to a buffer. -/
theorem run_encode {s : Solution Binary64} (h : Wire.Fits s.size) (b : Buffer) :
    s.encode.run b =
      (.ok (), { b with
        bytes := b.bytes ++ (Wire.encodeInt s.size ++ s.values.flatMap Wire.encodeReal ++
          Wire.encodeReal s.quality) }) := by
  rw [encode, Action.run_bind_of_ok (Buffer.run_writeInt_of_fits h b)]
  simp [Action.run_bind, Buffer.writeReals, Buffer.writeReal]

end Solution

end BranchBound
