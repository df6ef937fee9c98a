import BranchBound.Action
import BranchBound.Datum.Table
import BranchBound.Wire.Text
import BranchBound.Wire.Word

/-!
# Buffers

A buffer holds bytes that only grow at the end, a cursor from which they are read, and the type
tag of what they encode.  An array is preceded by the number of its elements; raw elements are
not, so that their reader has to know how many there are.

A value from outside is written by its type: texts and integrality classes as a character, other
members of enumerations and integers as an integer, numbers as a double, and tables as an array.
The integers of such an array are taken modulo `2 ^ 32`, while a single integer that does not fit
is refused.

A framed buffer is the number of bytes of its tag, the tag, and its bytes.

Main results:

- `Buffer.run_append`, `Buffer.run_writeInt_of_fits`, `Buffer.run_writeInt_of_not_fits`: what a
  write does to the bytes.
- `Buffer.run_take_of_le`, `Buffer.run_take_of_lt`: what a read does to the cursor.
-/

namespace BranchBound

/-- A buffer of bytes with a cursor. -/
structure Buffer where
  /-- The type tag of what the bytes encode. -/
  tag : String := ""
  /-- The bytes written so far. -/
  bytes : List UInt8 := []
  /-- How many bytes have been read. -/
  cursor : Nat := 0

/-- The two element types of an array.  They are those of the wire; raw elements and arrays of any
other type of numbers are left out. -/
inductive ElementType where
  /-- Integers of 32 bits. -/
  | whole
  /-- Doubles. -/
  | real
  deriving DecidableEq

namespace ElementType

/-- How many bytes an element takes. -/
def width : ElementType → Nat
  | whole => 4
  | real => 8

end ElementType

namespace Buffer

/-- How many bytes there are. -/
def size (b : Buffer) : Nat := b.bytes.length

/-- How many bytes have not been read. -/
def remaining (b : Buffer) : Nat := b.size - b.cursor

/-- Starts reading from the first byte again. -/
def rewind : Action Buffer Unit := .update fun b => { b with cursor := 0 }

/-! ## Writing -/

/-- Adds bytes at the end. -/
def append (bs : List UInt8) : Action Buffer Unit :=
  .update fun b => { b with bytes := b.bytes ++ bs }

/-- Writes an integer, if it has 32 bits. -/
def writeInt (n : Int) : Action Buffer Unit :=
  if Wire.Fits n then append (Wire.encodeInt n) else .fail .overflow

/-- Writes a double. -/
def writeReal (x : Binary64) : Action Buffer Unit := append (Wire.encodeReal x)

/-- Writes an ASCII character. -/
def writeChar (c : Char) : Action Buffer Unit :=
  if c.toNat < 128 then append [UInt8.ofNat c.toNat] else .fail .notAscii

/-- Writes a text of one ASCII character. -/
def writeText (s : String) : Action Buffer Unit :=
  match s.toList with
  | [c] => writeChar c
  | _ => .fail (.notOneCharacter s)

/-- Writes integers modulo `2 ^ 32`. -/
def writeWholes (ns : List Int) : Action Buffer Unit := append (ns.flatMap Wire.encodeInt)

/-- Writes doubles. -/
def writeReals (xs : List Binary64) : Action Buffer Unit := append (xs.flatMap Wire.encodeReal)

/-- Writes integers modulo `2 ^ 32`, preceded by their number. -/
def writeWholeArray (ns : List Int) : Action Buffer Unit := do
  writeInt ns.length
  writeWholes ns

/-- Writes doubles, preceded by their number. -/
def writeRealArray (xs : List Binary64) : Action Buffer Unit := do
  writeInt xs.length
  writeReals xs

/-- Writes the elements of a table as elements of a type. -/
def writeRaw (type : ElementType) (d : Datum) : Action Buffer Unit :=
  match type with
  | .whole => do writeWholes (← .ofExcept d.wholes)
  | .real => do writeReals (← .ofExcept d.reals)

/-- Writes the elements of a table as elements of a type, preceded by their number. -/
def writeArray (type : ElementType) (d : Datum) : Action Buffer Unit :=
  match type with
  | .whole => do writeWholeArray (← .ofExcept d.wholes)
  | .real => do writeRealArray (← .ofExcept d.reals)

/-- Writes the contents of a table, preceded by their number. -/
def writeTable (d : Datum) : Action Buffer Unit := do
  match ← .ofExcept d.contents with
  | .wholes ns => writeWholeArray ns
  | .reals xs => writeRealArray xs

/-- Writes a value as its type asks for. -/
def writeDatum : Datum → Action Buffer Unit
  | .text s => writeText s
  | .member (.integrality i) => writeChar i.letter
  | .member (.role r) => writeInt r.code
  | .member (.representation r) => writeInt r.code
  | .member (.status s) => writeInt s.word
  | .member (.direction d) => writeInt d.code
  | .flag b => writeInt (if b then 1 else 0)
  | .integer n => writeInt n
  | .real x => writeReal x
  | .sequence ds => writeTable (.sequence ds)
  | .array d => writeTable d
  | .nothing => .fail (.unwritable "NoneType")
  | .bytes _ => .fail (.unwritable "bytes")
  | .mapping _ => .fail (.unwritable "dict")

/-! ## Reading -/

/-- Takes the next bytes, if that many are left. -/
def take (n : Nat) : Action Buffer (List UInt8) :=
  ⟨fun b =>
    if b.cursor + n ≤ b.size then
      (.ok ((b.bytes.drop b.cursor).take n), { b with cursor := b.cursor + n })
    else (.error (.malformed (.truncated n b.cursor b.remaining)), b)⟩

/-- Reads an integer. -/
def readInt : Action Buffer Int := do
  return Wire.decodeInt (← take 4)

/-- Reads a double. -/
def readReal : Action Buffer Binary64 := do
  return Wire.decodeReal (← take 8)

/-- Reads an ASCII character; a byte that is none has been read all the same. -/
def readChar : Action Buffer Char := do
  let offset := (← .state).cursor
  match ← take 1 with
  | [c] =>
    if c.toNat < 128 then return Char.ofNat c.toNat
    else .fail (.malformed (.badCharacter offset))
  | _ => .fail (.malformed (.badCharacter offset))

/-- The values of consecutive groups of bytes. -/
def decodeEach {α : Type} (width : Nat) (decode : List UInt8 → α) : Nat → List UInt8 → List α
  | 0, _ => []
  | n + 1, bs => decode (bs.take width) :: decodeEach width decode n (bs.drop width)

/-- Reads as many values of a width as a length says. -/
def readMany {α : Type} (width : Nat) (decode : List UInt8 → α) (length : Int) :
    Action Buffer (List α) := do
  if length < 0 then .fail (.malformed (.negativeLength length))
  let bs ← take (length.toNat * width)
  return decodeEach width decode length.toNat bs

/-- Reads integers. -/
def readWholes (length : Int) : Action Buffer (List Int) :=
  readMany ElementType.whole.width Wire.decodeInt length

/-- Reads doubles. -/
def readReals (length : Int) : Action Buffer (List Binary64) :=
  readMany ElementType.real.width Wire.decodeReal length

/-- Reads integers that are preceded by their number. -/
def readWholeArray : Action Buffer (List Int) := do
  readWholes (← readInt)

/-- Reads doubles that are preceded by their number. -/
def readRealArray : Action Buffer (List Binary64) := do
  readReals (← readInt)

/-! ## Framing -/

/-- The bytes of a buffer after the number of bytes of its tag and the tag. -/
def frame (b : Buffer) : List UInt8 :=
  let tag := Wire.encodeText b.tag
  Wire.encodeInt tag.length ++ tag ++ b.bytes

/-- The buffer of framed bytes. -/
def unframe (bs : List UInt8) : Except Fault Buffer :=
  if bs.length < 4 then .error (.malformed .missingTag)
  else
    let length := Wire.decodeInt (bs.take 4)
    let rest := bs.drop 4
    if length < 0 ∨ rest.length < length then .error (.malformed (.badTagLength length))
    else
      match Wire.decodeText (rest.take length.toNat) with
      | none => .error (.malformed .badTag)
      | some tag => .ok ⟨tag, rest.drop length.toNat, 0⟩

/-- A buffer by its tag and its size. -/
def shown (b : Buffer) : String :=
  "Encoded(type_tag=" ++ Text.quoted b.tag ++ ", size=" ++ toString b.size ++ ")"

/-! ## What the operations do -/

/-- Bytes are added at the end; the cursor stays. -/
@[simp] theorem run_append (bs : List UInt8) (b : Buffer) :
    (append bs).run b = (.ok (), { b with bytes := b.bytes ++ bs }) := rfl

/-- An integer of 32 bits is written as its four bytes. -/
theorem run_writeInt_of_fits {n : Int} (h : Wire.Fits n) (b : Buffer) :
    (writeInt n).run b = (.ok (), { b with bytes := b.bytes ++ Wire.encodeInt n }) := by
  simp [writeInt, h]

/-- Of a larger integer nothing is written. -/
theorem run_writeInt_of_not_fits {n : Int} (h : ¬ Wire.Fits n) (b : Buffer) :
    (writeInt n).run b = (.error .overflow, b) := by
  simp [writeInt, h]

/-- If enough bytes are left, they are taken. -/
theorem run_take_of_le {n : Nat} {b : Buffer} (h : b.cursor + n ≤ b.size) :
    (take n).run b =
      (.ok ((b.bytes.drop b.cursor).take n), { b with cursor := b.cursor + n }) := by
  simp [take, h]

/-- If too few bytes are left, the buffer stays as it is. -/
theorem run_take_of_lt {n : Nat} {b : Buffer} (h : b.size < b.cursor + n) :
    (take n).run b = (.error (.malformed (.truncated n b.cursor b.remaining)), b) := by
  simp [take, Nat.not_le_of_lt h]

end Buffer

end BranchBound
