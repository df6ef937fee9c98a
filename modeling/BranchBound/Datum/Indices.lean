import BranchBound.Datum.Table

/-!
# Indices from tables

The parts of a list are its elements, and each of them is a table of its own.  A part is held with
one class for all that it holds, so that an integer beside a number is held as a number: it is
then as exact as a number, and no more.  An integer that is a part by itself stays exact.

The indices in a table are integers of 64 bits.  What a part holds as numbers is cut off to them,
what it holds as larger integers goes round, and what it holds in no class is taken one by one.

Main results:

- `Datum.indices_integers`: a list of integers of 64 bits holds just these indices.
-/

namespace BranchBound

namespace Datum

/-- The elements of a table, held with one class for all of them. -/
structure Part where
  /-- The class of the elements together. -/
  type : ElementClass
  /-- The elements, row by row. -/
  elements : List Datum

namespace Part

/-- An element held as a number. -/
def asNumber : Datum → Datum
  | flag b => real (if b then 1.0 else 0.0)
  | integer n => real (Binary64.ofInt n)
  | d => d

/-- Several parts held as one. -/
def ofParts (parts : List Part) : Part :=
  let type := ElementClass.joinAll (parts.map type)
  let elements := parts.flatMap elements
  ⟨type, if type = .real then elements.map asNumber else elements⟩

/-- The index that an element of a part of some class stands for. -/
def index : ElementClass → Datum → Except Fault Int
  | .unsigned, integer n => .ok (n.bmod 0x10000000000000000)
  | .real, real x => .ok (castReal leastInt64 greatestInt64 x)
  | _, d => d.elementWhole leastInt64 greatestInt64

/-- The indices that a part holds. -/
def indices (p : Part) : Except Fault (List Int) := p.elements.mapM (index p.type)

end Part

mutual

/-- A table held as one part. -/
def part : Datum → Part
  | sequence ds => .ofParts (parts ds)
  | array d => d.part
  | d => ⟨d.elementClass, [d]⟩

/-- Several tables, each held as a part. -/
def parts : List Datum → List Part
  | [] => []
  | d :: ds => d.part :: parts ds

end

/-- The indices that a table holds. -/
def indices (d : Datum) : Except Fault (List Int) := do
  let elements ← d.table
  match d with
  | sequence ds => return (← (parts ds).mapM Part.indices).flatten
  | _ => elements.mapM (elementWhole leastInt64 greatestInt64)

/-! ## Lists of integers -/

/-- An integer of 64 bits is the index that it holds. -/
theorem indices_part_integer {n : Int} (h : leastInt64 ≤ n ∧ n ≤ greatestInt64) :
    (integer n).part.indices = .ok [n] := by
  simp [part, elementClass, classOfInt, h, Part.indices, Part.index, elementWhole, bind,
    Except.bind, pure, Except.pure]

/-- A list of integers of 64 bits holds just these indices. -/
theorem indices_integers {ns : List Int} (h : ∀ n ∈ ns, leastInt64 ≤ n ∧ n ≤ greatestInt64) :
    (sequence (ns.map integer)).indices = .ok ns := by
  have held : (parts (ns.map integer)).mapM Part.indices = .ok (ns.map fun n => [n]) := by
    induction ns with
    | nil => rfl
    | cons n ns ih =>
      have first := indices_part_integer (h n (by simp))
      have rest := ih fun m member => h m (by simp [member])
      simp [parts, first, rest, bind, Except.bind, pure, Except.pure]
  have shaped := table_of_scalars integer (fun _ => rfl) (fun _ => rfl) ns
  simp [indices, shaped, held, bind, Except.bind, pure, Except.pure, ← List.flatMap_def]

end Datum

end BranchBound
