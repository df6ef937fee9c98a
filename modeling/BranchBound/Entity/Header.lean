import BranchBound.Entity.Basic
import BranchBound.Wire.Buffer

/-!
# The header of an encoded entity

The encoding of every entity starts with the same nine fields: index, representation, integrality
class, status, the hard bounds, the soft bounds, and the hash.

Fields are written and read in order.  When one of them fails, those before it stay written, or
stay read: the index is taken over at once, and the three codes after they have all been read.

Main results:

- `Entity.run_readHeader_of_lt`: a header that is cut off before its index changes nothing.
-/

namespace BranchBound

namespace Entity

/-- Writes the fields that every entity has. -/
def writeHeader (e : Entity Binary64) : Action Buffer Unit := do
  Buffer.writeInt e.index
  Buffer.writeInt e.representation.code
  Buffer.writeChar e.integrality.letter
  Buffer.writeInt e.status.word
  Buffer.writeReal e.hard.lower
  Buffer.writeReal e.hard.upper
  Buffer.writeReal e.soft.lower
  Buffer.writeReal e.soft.upper
  Buffer.writeReal e.hash

/-- An entity that is being read from a buffer. -/
abbrev InBuffer := Entity Binary64 × Buffer

/-- Reads from the buffer of an entity that is being read. -/
def next {α : Type} (x : Action Buffer α) : Action InBuffer α :=
  x.within Prod.snd fun b s => (s.1, b)

/-- Takes over what has been read. -/
def take (f : Entity Binary64 → Entity Binary64) : Action InBuffer Unit :=
  .update fun s => (f s.1, s.2)

/-- Takes over a code that has to be a member of its enumeration. -/
def takeCode {α : Type} (code : Datum) (enumeration : Enumeration) (found : Option α)
    (f : α → Entity Binary64 → Entity Binary64) : Action InBuffer Unit :=
  match found with
  | some a => take (f a)
  | none => .fail (.malformed (.badHeader code enumeration))

/-- Reads the fields that every entity has. -/
def readHeader : Action InBuffer Unit := do
  let index ← next Buffer.readInt
  take fun e => { e with index }
  let representation ← next Buffer.readInt
  let integrality ← next Buffer.readChar
  let status ← next Buffer.readInt
  takeCode (.integer representation) .representation (Representation.ofCode? representation)
    fun representation e => { e with representation }
  takeCode (.text (String.singleton integrality)) .integrality
    (Integrality.ofLetter? integrality) fun integrality e => { e with integrality }
  take fun e => { e with status := .ofWord status }
  let lower ← next Buffer.readReal
  take fun e => { e with hard := { e.hard with lower } }
  let upper ← next Buffer.readReal
  take fun e => { e with hard := { e.hard with upper } }
  let lower ← next Buffer.readReal
  take fun e => { e with soft := { e.soft with lower } }
  let upper ← next Buffer.readReal
  take fun e => { e with soft := { e.soft with upper } }
  let hash ← next Buffer.readReal
  take fun e => { e with hash }

/-- The entity whose header stands next in a buffer; fields start out as given. -/
def read (start : Entity Binary64) : Action Buffer (Entity Binary64) :=
  ⟨fun b => let (r, e, b') := readHeader.run (start, b); (r.map fun _ => e, b')⟩

/-- A header that is cut off within its index changes nothing. -/
theorem run_readHeader_of_lt {e : Entity Binary64} {b : Buffer} (h : b.size < b.cursor + 4) :
    readHeader.run (e, b) =
      (.error (.malformed (.truncated 4 b.cursor b.remaining)), (e, b)) := by
  have first : (next Buffer.readInt).run (e, b) =
      (.error (.malformed (.truncated 4 b.cursor b.remaining)), (e, b)) := by
    simp [next, Action.run_within, Buffer.readInt, Action.run_bind, Buffer.run_take_of_lt h]
  rw [readHeader, Action.run_bind_of_error first]

end Entity

end BranchBound
