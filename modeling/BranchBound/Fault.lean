import BranchBound.Datum.Basic

/-!
# Faults

Why an operation failed, one constructor for each cause, and the text that goes with it.  Some
causes are reported by their kind alone and have no text.

Main results:

- `Fault.message_isSome_of_malformed`: malformed data is always reported with a text.
- `exists_of_bind_eq_ok`: a computation in two parts succeeds if both do.
-/

namespace BranchBound

/-- What is wrong with data that was to be read. -/
inductive Malformed where
  /-- Fewer bytes are left than a value needs. -/
  | truncated (need offset left : Nat)
  /-- A byte is no character. -/
  | badCharacter (offset : Nat)
  /-- A length is negative. -/
  | negativeLength (length : Int)
  /-- There is no room for the length of a type tag. -/
  | missingTag
  /-- The length of the type tag is negative or goes past the end. -/
  | badTagLength (length : Int)
  /-- The type tag is no text. -/
  | badTag
  /-- A code in the header of an entity is no member of its enumeration. -/
  | badHeader (code : Datum) (enumeration : Enumeration)
  /-- A row has unequal numbers of indices and coefficients. -/
  | unevenRow (indices coefficients : Nat)

/-- Why an operation failed. -/
inductive Fault where
  /-- The data that was to be read is malformed. -/
  | malformed (cause : Malformed)
  /-- No kind of object is registered for a type tag. -/
  | unknownTag (tag : String)
  /-- A value is no member of an enumeration. -/
  | notMember (value : Datum) (enumeration : Enumeration)
  /-- A text that should be one character is not. -/
  | notOneCharacter (text : String)
  /-- A row was given unequal numbers of indices and coefficients. -/
  | unevenCoefficients (indices coefficients : Nat)
  /-- A solution was given unequal numbers of indices and values. -/
  | unevenValues (indices values : Nat)
  /-- A branching of one object was applied to another. -/
  | foreignBranch (branch entity : Int)
  /-- An object that has an index was to be given one. -/
  | alreadyPlaced (index : Int)
  /-- Objects of a kind have no encoding. -/
  | noEncoding (kind : Kind)
  /-- Values of a type have no representation in a buffer. -/
  | unwritable (type : String)
  /-- A number does not fit. -/
  | overflow
  /-- A value of the right type does not stand for a number. -/
  | notNumeric
  /-- A value of the wrong type, or none, stands where a number is needed. -/
  | missingNumber
  /-- The rows of a table differ in shape. -/
  | ragged
  /-- A seed or the size of a stream is negative. -/
  | negativeCount
  /-- The size of a stream is past all that can be counted. -/
  | noRoom
  /-- An index lies outside its list. -/
  | outOfBounds
  /-- A number was divided by zero. -/
  | divisionByZero
  /-- A character is not an ASCII character. -/
  | notAscii
  /-- Bytes that stand among texts are no ASCII text. -/
  | notText
  /-- An object does not support an operation, or the model it needs is missing. -/
  | unsupported
  /-- A field was given that the kind of object does not have. -/
  | unexpectedField

/-- That a value is no member of an enumeration. -/
def notMemberText (value : Datum) (enumeration : Enumeration) : String :=
  value.shown ++ " is not a valid " ++ enumeration.name

/-- The text of a malformation. -/
def Malformed.message : Malformed → String
  | truncated need offset left =>
    s!"Truncated stream: need {need} bytes at offset {offset}, only {left} left"
  | badCharacter offset => s!"Invalid character at offset {offset}"
  | negativeLength length => s!"Negative sequence length {length}"
  | missingTag => "Stream too short to hold a type tag"
  | badTagLength length => s!"Malformed type tag length {length}"
  | badTag => "Type tag is not valid UTF-8"
  | badHeader code enumeration => "Corrupt entity header: " ++ notMemberText code enumeration
  | unevenRow indices coefficients =>
    s!"Row has {indices} indices but {coefficients} coefficients"

/-- The text of a fault, if its cause has one. -/
def Fault.message : Fault → Option String
  | malformed cause => some cause.message
  | unknownTag tag => some s!"No knowledge type registered for tag '{tag}'"
  | notMember value enumeration => some (notMemberText value enumeration)
  | notOneCharacter text => some ("Expected a single character, got " ++ Text.quoted text)
  | unevenCoefficients indices coefficients =>
    some s!"Got {indices} indices for {coefficients} coefficients"
  | unevenValues indices values => some s!"Got {indices} indices for {values} values"
  | foreignBranch branch entity =>
    some s!"Branch on object {branch} applied to object {entity}"
  | alreadyPlaced index =>
    some s!"Object already carries index {index}; indices are assigned exactly once"
  | noEncoding kind =>
    some (kind.name ++ " does not implement encode; concrete entities must override it")
  | unwritable type => some ("Cannot encode value of type " ++ type)
  | _ => none

/-- Malformed data is always reported with a text. -/
theorem Fault.message_isSome_of_malformed (cause : Malformed) :
    (Fault.malformed cause).message.isSome = true := rfl

/-! ## Computations that succeed -/

/-- A computation in two parts succeeds if both do. -/
theorem exists_of_bind_eq_ok {α β : Type} {x : Except Fault α} {f : α → Except Fault β} {b : β}
    (h : x >>= f = .ok b) : ∃ a, x = .ok a ∧ f a = .ok b := by
  cases x with
  | error e => cases h
  | ok a => exact ⟨a, rfl, h⟩

theorem exists_of_map_eq_ok {α β : Type} {x : Except Fault α} {f : α → β} {b : β}
    (h : x.map f = .ok b) : ∃ a, x = .ok a ∧ b = f a := by
  cases x with
  | error e => cases h
  | ok a =>
    cases h
    exact ⟨a, rfl, rfl⟩

/-- Several computations of which every one gives what is expected of it. -/
theorem mapM_map_of_eq_ok {α β γ : Type} {f : β → Except Fault γ} {make : α → β} {g : α → γ}
    (hf : ∀ a, f (make a) = .ok (g a)) (as : List α) :
    (as.map make).mapM f = .ok (as.map g) := by
  induction as with
  | nil => rfl
  | cons a as ih =>
    rw [List.map_cons, List.mapM_cons, hf, ih]
    rfl

theorem forall_mem_of_mapM {α β : Type} {f : α → Except Fault β} {P : β → Prop}
    (hf : ∀ a b, f a = .ok b → P b) {as : List α} {bs : List β} (h : as.mapM f = .ok bs) :
    ∀ b ∈ bs, P b := by
  induction as generalizing bs with
  | nil =>
    cases h
    simp
  | cons a as ih =>
    rw [List.mapM_cons] at h
    rcases exists_of_bind_eq_ok h with ⟨b, hb, hrest⟩
    rcases exists_of_bind_eq_ok hrest with ⟨bs', hbs, hdone⟩
    cases hdone
    exact List.forall_mem_cons.2 ⟨hf a b hb, ih hbs⟩

end BranchBound
