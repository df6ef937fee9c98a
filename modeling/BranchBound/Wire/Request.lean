import BranchBound.Wire.Buffer

/-!
# Requests to a buffer

Everything that can be asked of a buffer, as data: the writes with the value to be written, the
reads with what is to be read, and the return to the first byte.

Main results:

- `Buffer.Request.run_rewind`: rewinding touches the cursor alone.
-/

namespace BranchBound

namespace Buffer

/-- What can be asked of a buffer. -/
inductive Request where
  /-- Write the integer that a value counts as. -/
  | writeInt (d : Datum)
  /-- Write the number that a value counts as. -/
  | writeReal (d : Datum)
  /-- Write a text of one character. -/
  | writeText (s : String)
  /-- Write the elements of a table. -/
  | writeRaw (type : ElementType) (d : Datum)
  /-- Write the elements of a table, preceded by their number. -/
  | writeArray (type : ElementType) (d : Datum)
  /-- Write a value as its type asks for. -/
  | writeDatum (d : Datum)
  /-- Read an integer. -/
  | readInt
  /-- Read a double. -/
  | readReal
  /-- Read a character. -/
  | readChar
  /-- Read some elements. -/
  | readRaw (type : ElementType) (length : Int)
  /-- Read elements that are preceded by their number. -/
  | readArray (type : ElementType)
  /-- Return to the first byte. -/
  | rewind

/-- What a buffer answers. -/
inductive Reply where
  /-- Nothing but that it is done. -/
  | done
  /-- An integer. -/
  | whole (n : Int)
  /-- A double. -/
  | real (x : Binary64)
  /-- A character. -/
  | char (c : Char)
  /-- Integers. -/
  | wholes (ns : List Int)
  /-- Doubles. -/
  | reals (xs : List Binary64)
  deriving DecidableEq

/-- A write, whose answer is that it is done. -/
def Reply.after (write : Action Buffer Unit) : Action Buffer Reply := do
  write
  return .done

/-- Reads some elements of a type. -/
def readRaw (length : Int) : ElementType → Action Buffer Reply
  | .whole => do return .wholes (← readWholes length)
  | .real => do return .reals (← readReals length)

/-- Does what is asked. -/
def Request.run : Request → Action Buffer Reply
  | writeInt d => do
    let n ← .ofExcept d.toWhole
    Reply.after (Buffer.writeInt n)
  | writeReal d => do
    let x ← .ofExcept d.toReal
    Reply.after (Buffer.writeReal x)
  | writeText s => Reply.after (Buffer.writeText s)
  | writeRaw type d => Reply.after (Buffer.writeRaw type d)
  | writeArray type d => Reply.after (Buffer.writeArray type d)
  | writeDatum d => Reply.after (Buffer.writeDatum d)
  | readInt => do return .whole (← Buffer.readInt)
  | readReal => do return .real (← Buffer.readReal)
  | readChar => do return .char (← Buffer.readChar)
  | readRaw type length => Buffer.readRaw length type
  | readArray type => do
    let length ← Buffer.readInt
    Buffer.readRaw length type
  | rewind => Reply.after Buffer.rewind

/-- Rewinding touches the cursor alone. -/
theorem Request.run_rewind (b : Buffer) :
    (Request.rewind.run).run b = (.ok .done, { b with cursor := 0 }) := rfl

end Buffer

end BranchBound
