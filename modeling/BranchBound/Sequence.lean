/-!
# Positions in a list

A position that is not negative counts from the front of a list, a negative one from its end.
A count that is not negative is how many elements to keep from the front, a negative one how many
to leave out at the end.

Main results:

- `signedGet?_ofNat` and `signedGet?_sub_length`: from the front this is the usual look-up, and from
  the end it finds the same elements.
- `signedGet?_eq_none_iff`: exactly the positions outside the list find nothing.
- `signedCount_le`: no more elements are kept than there are.
-/

namespace BranchBound

variable {α β : Type}

/-- The natural position in a list of a length that a signed position stands for. -/
def signedPosition? (length : Nat) (i : Int) : Option Nat :=
  if 0 ≤ i then if i < length then some i.toNat else none
  else if 0 ≤ i + length then some (i + length).toNat else none

/-- The element at a signed position. -/
def signedGet? (xs : List α) (i : Int) : Option α :=
  (signedPosition? xs.length i).bind (xs[·]?)

/-- The list with the element at a signed position replaced. -/
def signedSet? (xs : List α) (i : Int) (x : α) : Option (List α) :=
  (signedPosition? xs.length i).map (xs.set · x)

/-- How many elements of a list of a length a signed count keeps. -/
def signedCount (length : Nat) (n : Int) : Nat :=
  if 0 ≤ n then min n.toNat length else (length + n).toNat

/-- The elements that a signed count keeps. -/
def signedTake (xs : List α) (n : Int) : List α := xs.take (signedCount xs.length n)

/-- A signed position that is found lies in the list. -/
theorem lt_of_signedPosition? {length k : Nat} {i : Int}
    (h : signedPosition? length i = some k) : k < length := by
  unfold signedPosition? at h
  split at h <;> split at h <;> simp at h <;> omega

/-- From the front this is the usual look-up. -/
theorem signedGet?_ofNat (xs : List α) (k : Nat) : signedGet? xs k = xs[k]? := by
  unfold signedGet? signedPosition?
  by_cases h : k < xs.length
  · simp [h]
  · simp [h]

/-- From the end every element is found as well. -/
theorem signedGet?_sub_length {xs : List α} {k : Nat} (h : k < xs.length) :
    signedGet? xs (k - xs.length) = xs[k]? := by
  have hback : ((k : Int) - xs.length + xs.length).toNat = k := by omega
  unfold signedGet? signedPosition?
  rw [if_neg (by omega), if_pos (by omega), hback, Option.bind_some]

/-- Exactly the positions outside the list find nothing. -/
theorem signedGet?_eq_none_iff (xs : List α) (i : Int) :
    signedGet? xs i = none ↔ (xs.length : Int) ≤ i ∨ i < -xs.length := by
  unfold signedGet?
  cases h : signedPosition? xs.length i with
  | none =>
    simp only [Option.bind_none, true_iff]
    unfold signedPosition? at h
    split at h <;> split at h <;> simp at h <;> omega
  | some k =>
    have hk := lt_of_signedPosition? h
    simp only [Option.bind_some, List.getElem?_eq_getElem hk, reduceCtorEq, false_iff]
    unfold signedPosition? at h
    split at h <;> split at h <;> simp at h <;> omega

/-- No more elements are kept than there are. -/
theorem signedCount_le (length : Nat) (n : Int) : signedCount length n ≤ length := by
  unfold signedCount
  split <;> omega

/-- A count that is not negative keeps that many elements. -/
@[simp] theorem signedTake_ofNat (xs : List α) (n : Nat) : signedTake xs n = xs.take n := by
  simp [signedTake, signedCount, ← List.take_eq_take_min]

end BranchBound
