import BranchBound.Fault

/-!
# Members from values

The member of an enumeration that a value finds, or the fault that it finds none.  Where only the
direction down has to be told from everything else, any value is taken.

Main results:

- `Datum.toDirection_integer`: the directions are found by their numbers and by no others.
-/

namespace BranchBound

namespace Datum

/-- The representation that a value finds. -/
def toRepresentation (d : Datum) : Except Fault Representation :=
  match Enumeration.representation.find? d with
  | some (.representation r) => .ok r
  | _ => .error (.notMember d .representation)

/-- The integrality class that a value finds. -/
def toIntegrality (d : Datum) : Except Fault Integrality :=
  match Enumeration.integrality.find? d with
  | some (.integrality i) => .ok i
  | _ => .error (.notMember d .integrality)

/-- The status that a value finds. -/
def toStatus (d : Datum) : Except Fault Status :=
  match Enumeration.status.find? d with
  | some (.status s) => .ok s
  | _ => .error (.notMember d .status)

/-- The direction that a value finds. -/
def toDirection (d : Datum) : Except Fault Direction :=
  match Enumeration.direction.find? d with
  | some (.direction d) => .ok d
  | _ => .error (.notMember d .direction)

/-- The member of an enumeration that a value finds. -/
def toMember (d : Datum) (enumeration : Enumeration) : Except Fault Member :=
  match enumeration.find? d with
  | some m => .ok m
  | none => .error (.notMember d enumeration)

/-- The direction of a value where every value is allowed: down is told from all others. -/
def anyDirection (d : Datum) : Direction :=
  if d.whole? = some Direction.down.code then .down else .up

/-- The directions are found by their numbers and by no others. -/
theorem toDirection_integer (n : Int) :
    (integer n).toDirection =
      match Direction.ofCode? n with
      | some d => .ok d
      | none => .error (.notMember (integer n) .direction) := by
  unfold toDirection
  cases h : Direction.ofCode? n <;> simp [Enumeration.find?, whole?, h]

end Datum

end BranchBound
