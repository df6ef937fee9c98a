import BranchBound.Object.Basic
import BranchBound.Solution.Codec

/-!
# Knowledge on the wire

Columns, rows and solutions can be sent.  What is sent carries the name of its kind as its type
tag, and a registry tells which kind to read for a tag.  Further tags can be registered for the
kinds, also for those that cannot be read.

Main results:

- `Registry.find_register`: a tag finds the kind that was registered for it last.
-/

namespace BranchBound

namespace Object

/-- Writes an object. -/
def encode : Object → Action Buffer Unit
  | column c => c.encode
  | row r => r.encode
  | o => .fail (.noEncoding o.kind)

end Object

/-- What can be read from a buffer. -/
inductive Knowledge where
  /-- An object. -/
  | object (o : Object)
  /-- A solution. -/
  | solution (s : Solution Binary64)
  deriving DecidableEq

namespace Knowledge

/-- The kind of what was read. -/
def kind : Knowledge → Kind
  | object o => o.kind
  | solution _ => .solution

/-- Writes what can be read. -/
def encode : Knowledge → Action Buffer Unit
  | object o => o.encode
  | solution s => s.encode

/-- A buffer that holds nothing but an encoding. -/
def toBuffer (k : Knowledge) : Except Fault Buffer :=
  match k.encode.run { tag := k.kind.name } with
  | (.ok _, b) => .ok b
  | (.error e, _) => .error e

end Knowledge

namespace Kind

/-- Reads an object or solution of a kind. -/
def decode : Kind → Action Buffer Knowledge
  | column => return .object (.column (← Column.decode))
  | row => return .object (.row (← Row.decode))
  | solution => return .solution (← Solution.decode)
  | _ => .fail .unsupported

end Kind

/-- The kinds that type tags stand for; an earlier entry hides a later one. -/
structure Registry where
  /-- Tags and their kinds. -/
  entries : List (String × Kind)

namespace Registry

/-- Every kind that can be read, under its name. -/
def initial : Registry := ⟨[Kind.solution, .column, .row].map fun k => (k.name, k)⟩

/-- The registry with a kind for a tag. -/
def register (r : Registry) (tag : String) (kind : Kind) : Registry :=
  ⟨(tag, kind) :: r.entries⟩

/-- The kind of a tag. -/
def find (r : Registry) (tag : String) : Except Fault Kind :=
  match r.entries.find? (·.1 = tag) with
  | some (_, kind) => .ok kind
  | none => .error (.unknownTag tag)

/-- Reads what the type tag of a buffer stands for. -/
def decode (r : Registry) : Action Buffer Knowledge := do
  let kind ← .ofExcept (r.find (← .state).tag)
  kind.decode

/-- What framed bytes hold, and the buffer after it was read. -/
def decodeFrame (r : Registry) (bs : List UInt8) : Except Fault (Knowledge × Buffer) :=
  match Buffer.unframe bs with
  | .error e => .error e
  | .ok b =>
    match r.decode.run b with
    | (.ok k, b') => .ok (k, b')
    | (.error e, _) => .error e

/-- A tag finds the kind that was registered for it last. -/
@[simp] theorem find_register (r : Registry) (tag : String) (kind : Kind) :
    (r.register tag kind).find tag = .ok kind := by
  simp [find, register]

end Registry

end BranchBound
