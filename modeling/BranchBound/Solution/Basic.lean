import BranchBound.Fault
import BranchBound.NumberSystem

/-!
# Solutions

A solution records values of variables and the quality that they reach.  Every value stands
beside the index of its variable, so that a record restricted to some of its values still tells
which variables they belong to.

Main results:

- `Solution.ofValues_indices`: values given without indices belong to the variables in order.
- `Solution.select_true`: selecting everything changes nothing.
-/

namespace BranchBound

/-- Values of variables and the quality that they reach. -/
structure Solution (N : Type) where
  /-- The values. -/
  values : List N
  /-- The index of the variable of each value. -/
  indices : List Int
  /-- The value of the objective. -/
  quality : N
  deriving DecidableEq

namespace Solution

variable {N : Type}

/-- The first natural numbers as indices. -/
def firstIndices (n : Nat) : List Int := (List.range n).map Int.ofNat

/-- The solution whose values belong to the variables in order. -/
def ofValues (values : List N) (quality : N) : Solution N :=
  ⟨values, firstIndices values.length, quality⟩

/-- The number of values. -/
def size (s : Solution N) : Nat := s.values.length

/-- The first value whose index is sought. -/
def find? (s : Solution N) (sought : Int → Bool) : Option N :=
  (s.indices.zip s.values).find? (fun entry => sought entry.1) |>.map Prod.snd

/-- The values that are to be kept, with their indices. -/
def select (s : Solution N) (keep : N → Bool) : Solution N :=
  let entries := (s.indices.zip s.values).filter fun entry => keep entry.2
  { s with indices := entries.map Prod.fst, values := entries.map Prod.snd }

/-- Values given without indices belong to the variables in order. -/
@[simp] theorem ofValues_indices (values : List N) (quality : N) :
    (ofValues values quality).indices = firstIndices values.length := rfl

/-- Selecting everything changes nothing. -/
theorem select_true {s : Solution N} (h : s.indices.length = s.values.length) :
    s.select (fun _ => true) = s := by
  obtain ⟨values, indices, quality⟩ := s
  have all : ((indices.zip values).filter fun _ => true) = indices.zip values := by simp
  simp only [select, all, Solution.mk.injEq, and_true]
  exact ⟨List.map_snd_zip (Nat.le_of_eq h.symm), List.map_fst_zip (Nat.le_of_eq h)⟩

variable [NumberSystem N]

/-- The value of a variable, zero if it is not recorded. -/
def valueWhere (s : Solution N) (sought : Int → Bool) : N := (s.find? sought).getD 0.0

/-- The value of the variable of an index, zero if it is not recorded. -/
def valueOf (s : Solution N) (index : Int) : N := s.valueWhere (· = index)

/-- The values that are further from zero than a tolerance. -/
def nonzeros (s : Solution N) (tolerance : N) : Solution N :=
  s.select fun x => tolerance < NumberSystem.magnitude x

/-- The values that are further from an integer than a tolerance. -/
def fractional (s : Solution N) (tolerance : N) : Solution N :=
  s.select fun x => tolerance < NumberSystem.magnitude (x - NumberSystem.nearest x)

end Solution

end BranchBound
