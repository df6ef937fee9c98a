import BranchBound.Binary64.Grid

/-!
# Double precision numbers

A number is finite, an infinity of either sign, or `nan`.  A finite number is a sign and a place
on the grid of magnitudes, so the two zeros differ by their sign only and every other number has
one representation.  There is one `nan`.

Comparison follows the order of signed places: the two zeros are equal, and no comparison with
`nan` holds.

Main results:

- `Binary64.lt_iff` and `Binary64.le_iff` read the comparisons off the ranks of the numbers.
- `Binary64.not_le_nan` and `Binary64.not_nan_le`: nothing compares with `nan`.
-/

namespace BranchBound

/-- How many places of the grid are finite numbers: 2047 exponents of `2 ^ 52` significands. -/
def placeCount : Nat := 2047 * Grid.step

/-- A double precision number. -/
inductive Binary64 where
  /-- The result of an operation that has no number. -/
  | nan
  /-- The infinity of the given sign. -/
  | infinity (negative : Bool)
  /-- The number of the given sign whose magnitude stands at a place of the grid. -/
  | finite (negative : Bool) (place : Fin placeCount)
  deriving DecidableEq

namespace Binary64

/-- The number of a sign and a place; past the last finite place it is an infinity. -/
def ofPlace (negative : Bool) (place : Nat) : Binary64 :=
  if h : place < placeCount then finite negative ⟨place, h⟩ else infinity negative

/-- The number nearest to `num / den` units of the given sign, a tie going to the even place. -/
def rounded (negative : Bool) (num den : Nat) : Binary64 :=
  ofPlace negative (Grid.nearest num den)

/-- The zero of the given sign. -/
def zero (negative : Bool) : Binary64 := ofPlace negative 0

/-- The number nearest to an integer. -/
def ofInt (n : Int) : Binary64 := rounded (n < 0) (n.natAbs * Grid.one) 1

/-- The number nearest to an integer, if a finite number is. -/
def ofInt? (n : Int) : Option Binary64 :=
  match ofInt n with
  | infinity _ => none
  | x => some x

/-- The number nearest to `n / 10 ^ places`. -/
def ofDecimal (n : Int) (places : Nat) : Binary64 :=
  rounded (n < 0) (n.natAbs * Grid.one) (Nat.pow 10 places)

instance : OfScientific Binary64 where
  ofScientific digits down exponent :=
    if down then ofDecimal digits exponent else ofDecimal (digits * Nat.pow 10 exponent) 0

/-- The signed magnitude of a finite number in units of `2 ^ (-1074)`, zero for the others. -/
def units : Binary64 → Int
  | finite false k => Grid.units k
  | finite true k => -Grid.units k
  | _ => 0

/-- Whether the number is finite. -/
def isFinite : Binary64 → Bool
  | finite _ _ => true
  | _ => false

/-! ## Signs -/

/-- The number of opposite sign. -/
def neg : Binary64 → Binary64
  | nan => nan
  | infinity s => infinity (!s)
  | finite s k => finite (!s) k

instance : Neg Binary64 := ⟨neg⟩

/-- The number without its sign. -/
def abs : Binary64 → Binary64
  | nan => nan
  | infinity _ => infinity false
  | finite _ k => finite false k

/-! ## Comparison -/

/-- The signed place of a number, the infinities standing just outside the finite places. -/
def rank : Binary64 → Option Int
  | nan => none
  | infinity false => some placeCount
  | infinity true => some (-placeCount)
  | finite false k => some k
  | finite true k => some (-(k : Nat))

/-- Whether one number is less than another; never with `nan`. -/
def less (x y : Binary64) : Bool :=
  match x.rank, y.rank with
  | some i, some j => i < j
  | _, _ => false

/-- Whether one number is at most another; never with `nan`. -/
def atMost (x y : Binary64) : Bool :=
  match x.rank, y.rank with
  | some i, some j => i ≤ j
  | _, _ => false

instance : LT Binary64 := ⟨fun x y => x.less y = true⟩
instance : LE Binary64 := ⟨fun x y => x.atMost y = true⟩
instance : DecidableLT Binary64 := fun x y => inferInstanceAs (Decidable (x.less y = true))
instance : DecidableLE Binary64 := fun x y => inferInstanceAs (Decidable (x.atMost y = true))

/-- A number is less than another when its rank is. -/
theorem lt_iff {x y : Binary64} :
    x < y ↔ ∃ i j, x.rank = some i ∧ y.rank = some j ∧ i < j := by
  show x.less y = true ↔ _
  unfold less
  cases hx : x.rank <;> cases hy : y.rank <;> simp

/-- A number is at most another when its rank is. -/
theorem le_iff {x y : Binary64} :
    x ≤ y ↔ ∃ i j, x.rank = some i ∧ y.rank = some j ∧ i ≤ j := by
  show x.atMost y = true ↔ _
  unfold atMost
  cases hx : x.rank <;> cases hy : y.rank <;> simp

/-- Nothing is at most `nan`. -/
theorem not_le_nan (x : Binary64) : ¬ x ≤ nan := by
  simp [le_iff, rank]

/-- The number `nan` is at most nothing. -/
theorem not_nan_le (x : Binary64) : ¬ nan ≤ x := by
  simp [le_iff, rank]

end Binary64

end BranchBound
