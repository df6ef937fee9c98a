/-!
# Status flags

A status is a set of three flags.  As a word it has one bit for each of them; a word is read by
these three bits alone, and its other bits are dropped.

Main results:

- `Status.ofWord_word`: the word of a status reads back as that status.
- `Status.contains_union` and `Status.diff_diff`: merging keeps both statuses, and clearing one
  leaves none of its flags.
-/

namespace BranchBound

/-- The flags of an entity. -/
structure Status where
  /-- The entity may not leave the subproblem. -/
  nonRemovable : Bool := false
  /-- The soft bounds were tightened by a branching. -/
  branchedOn : Bool := false
  /-- The entity may be sent to another process. -/
  sendable : Bool := false
  deriving DecidableEq

namespace Status

/-- No flag. -/
def none : Status := {}

/-- The word of a status. -/
def word (s : Status) : Int :=
  (if s.nonRemovable then 0x001 else 0) + (if s.branchedOn then 0x010 else 0) +
    (if s.sendable then 0x100 else 0)

/-- The status of a word; bits that are no flag are dropped. -/
def ofWord (w : Int) : Status where
  nonRemovable := w % 2 = 1
  branchedOn := w / 0x010 % 2 = 1
  sendable := w / 0x100 % 2 = 1

/-- The flags of either status. -/
def union (s t : Status) : Status where
  nonRemovable := s.nonRemovable || t.nonRemovable
  branchedOn := s.branchedOn || t.branchedOn
  sendable := s.sendable || t.sendable

/-- The flags of the first status that the second has not. -/
def diff (s t : Status) : Status where
  nonRemovable := s.nonRemovable && !t.nonRemovable
  branchedOn := s.branchedOn && !t.branchedOn
  sendable := s.sendable && !t.sendable

/-- Whether the first status has every flag of the second. -/
def contains (s t : Status) : Bool :=
  (!t.nonRemovable || s.nonRemovable) && (!t.branchedOn || s.branchedOn) &&
    (!t.sendable || s.sendable)

/-- The names of the flags, in ascending order of their bits. -/
def flagNames (s : Status) : List String :=
  (if s.nonRemovable then ["NON_REMOVABLE"] else []) ++
    (if s.branchedOn then ["BRANCHED_ON"] else []) ++
    (if s.sendable then ["SENDABLE"] else [])

/-- The name of a status: its flags, or that there are none. -/
def name (s : Status) : String :=
  match s.flagNames with
  | [] => "NONE"
  | names => String.intercalate "|" names

/-- The word of a status reads back as that status. -/
@[simp] theorem ofWord_word (s : Status) : ofWord s.word = s := by
  obtain ⟨a, b, c⟩ := s
  cases a <;> cases b <;> cases c <;> decide

/-- Merging keeps the flags of both. -/
theorem contains_union (s t : Status) :
    (s.union t).contains s = true ∧ (s.union t).contains t = true := by
  obtain ⟨a, b, c⟩ := s
  obtain ⟨x, y, z⟩ := t
  revert a b c x y z
  decide

/-- Clearing leaves none of the flags that were cleared. -/
theorem diff_diff (s t : Status) : t.diff (s.diff t) = t := by
  obtain ⟨a, b, c⟩ := s
  obtain ⟨x, y, z⟩ := t
  revert a b c x y z
  decide

end Status

end BranchBound
