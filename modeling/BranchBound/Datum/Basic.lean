import BranchBound.Decimal.Text
import BranchBound.Kind.Basic
import BranchBound.Kind.Status
import BranchBound.NumberSystem
import BranchBound.Text.Quoted

/-!
# Values from outside

Callers hand in values of many kinds: numbers, flags, texts, members of the enumerations, and
tables of such values.  A `Datum` is one of them, and `Datum.shown` is how it appears in a message.

The members of an enumeration are found by their code.  A flag counts as one or zero and a number
finds the member that it equals, whatever its form.  A status is found for every integer.

Main results:

- `Enumeration.find?_value`: the value of a member finds that member.
-/

namespace BranchBound

/-- The classifications that have a name of their own. -/
inductive Enumeration where
  | role
  | representation
  | integrality
  | status
  | direction
  deriving DecidableEq

/-- A member of one of the classifications. -/
inductive Member where
  | role (r : Role)
  | representation (r : Representation)
  | integrality (i : Integrality)
  | status (s : Status)
  | direction (d : Direction)
  deriving DecidableEq

/-- A value handed in from outside. -/
inductive Datum where
  /-- No value. -/
  | nothing
  /-- A truth value. -/
  | flag (b : Bool)
  /-- An integer of any size. -/
  | integer (n : Int)
  /-- A number. -/
  | real (x : Binary64)
  /-- A text. -/
  | text (s : String)
  /-- Bytes. -/
  | bytes (bs : List UInt8)
  /-- A mapping from texts to values, in the order of its entries. -/
  | mapping (entries : List (String × Datum))
  /-- A member of an enumeration. -/
  | member (m : Member)
  /-- A list of values. -/
  | sequence (ds : List Datum)
  /-- A table that is already held as an array of numbers. -/
  | array (d : Datum)

instance : Inhabited Datum := ⟨.nothing⟩

namespace Enumeration

/-- The name of a classification. -/
def name : Enumeration → String
  | role => "ObjectType"
  | representation => "Representation"
  | integrality => "IntegralityClass"
  | status => "StatusFlag"
  | direction => "BranchDirection"

/-- Every classification. -/
def all : List Enumeration := [role, representation, integrality, status, direction]

/-- The classification of a name. -/
def ofName? (s : String) : Option Enumeration := all.find? (·.name = s)

end Enumeration

namespace Member

/-- The name of a member. -/
def name : Member → String
  | role r => r.name
  | representation r => r.name
  | integrality i => i.name
  | status s => s.name
  | direction d => d.name

/-- The classification of a member. -/
def enumeration : Member → Enumeration
  | role _ => .role
  | representation _ => .representation
  | integrality _ => .integrality
  | status _ => .status
  | direction _ => .direction

/-- The value that finds a member. -/
def value : Member → Datum
  | role r => .integer r.code
  | representation r => .integer r.code
  | integrality i => .text (String.singleton i.letter)
  | status s => .integer s.word
  | direction d => .integer d.code

/-- A member as text: its value, save that a status has its name after its classification. -/
def text : Member → String
  | role r => toString r.code
  | representation r => toString r.code
  | integrality i => String.singleton i.letter
  | status s => Enumeration.status.name ++ "." ++ s.name
  | direction d => toString d.code

/-- A member with everything known of it. -/
def shown (m : Member) : String :=
  let value := match m with
    | role r => toString r.code
    | representation r => toString r.code
    | integrality i => Text.quoted (String.singleton i.letter)
    | status s => toString s.word
    | direction d => toString d.code
  "<" ++ m.enumeration.name ++ "." ++ m.name ++ ": " ++ value ++ ">"

end Member

namespace Datum

mutual

/-- A value as it appears in a message. -/
def shown : Datum → String
  | nothing => "None"
  | flag true => "True"
  | flag false => "False"
  | integer n => toString n
  | real x => x.text
  | text s => Text.quoted s
  | bytes bs => "b'" ++ String.ofList
      (bs.flatMap fun b => '\\' :: 'x' :: Text.hexDigits 2 b.toNat) ++ "'"
  | mapping entries => "\x7b" ++ String.intercalate ", " (shownEntries entries) ++ "\x7d"
  | member m => m.shown
  | sequence ds => "[" ++ String.intercalate ", " (shownAll ds) ++ "]"
  | array d => d.shown

/-- Values as they appear in a message. -/
def shownAll : List Datum → List String
  | [] => []
  | d :: ds => d.shown :: shownAll ds

/-- The entries of a mapping as they appear in a message. -/
def shownEntries : List (String × Datum) → List String
  | [] => []
  | (key, d) :: entries => (Text.quoted key ++ ": " ++ d.shown) :: shownEntries entries

end

/-- The integer that a flag or a number equals. -/
def whole? : Datum → Option Int
  | flag b => some (if b then 1 else 0)
  | integer n => some n
  | real x =>
    match x.truncate? with
    | some n => if Same (Binary64.ofInt n) x then some n else none
    | none => none
  | _ => none

end Datum

namespace Enumeration

/-- The member that a value finds. -/
def find? : Enumeration → Datum → Option Member
  | role, d => d.whole?.bind Role.ofCode? |>.map .role
  | representation, d => d.whole?.bind Representation.ofCode? |>.map .representation
  | direction, d => d.whole?.bind Direction.ofCode? |>.map .direction
  | integrality, .text s => Integrality.ofText? s |>.map .integrality
  | integrality, _ => none
  | status, .flag b => some (.status (.ofWord (if b then 1 else 0)))
  | status, .integer n => some (.status (.ofWord n))
  | status, d => d.whole?.bind fun n =>
      if n ∈ [0x000, 0x001, 0x010, 0x100] then some (.status (.ofWord n)) else none

/-- The value of a member finds that member. -/
theorem find?_value (m : Member) : m.enumeration.find? m.value = some m := by
  cases m with
  | role r => cases r <;> rfl
  | representation r => cases r <;> rfl
  | integrality i => cases i <;> rfl
  | status s => simp [Member.enumeration, Member.value, find?]
  | direction d => cases d <;> rfl

end Enumeration

end BranchBound
