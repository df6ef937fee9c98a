import BranchBound.Binary64.Basic

/-!
# Arithmetic of double precision

Every operation takes the exact result and rounds it once, to the nearest number with ties to the
even place.  Operations without a result give `nan`; a finite number over zero is an infinity.
An exact zero sum is positive unless both summands are negative.

Rounding to an integer keeps the sign, also of a result that is zero.

Main results:

- `Binary64.nan_add`, `Binary64.add_nan` and their likes: `nan` is absorbing.
- `Binary64.add_finite` states a sum of finite numbers as one rounding of the exact sum.
-/

namespace BranchBound

namespace Binary64

/-! ## The four operations -/

/-- The number of given sign nearest to an integer count of units. -/
def ofUnits (n : Int) : Binary64 := rounded (n < 0) n.natAbs 1

/-- The sum. -/
def add : Binary64 → Binary64 → Binary64
  | nan, _ => nan
  | _, nan => nan
  | infinity s, infinity t => if s = t then infinity s else nan
  | infinity s, finite _ _ => infinity s
  | finite _ _, infinity t => infinity t
  | finite s j, finite t k =>
    let sum := (finite s j).units + (finite t k).units
    if sum = 0 then zero (s && t) else ofUnits sum

/-- The difference. -/
def sub (x y : Binary64) : Binary64 := add x y.neg

/-- The product. -/
def mul : Binary64 → Binary64 → Binary64
  | nan, _ => nan
  | _, nan => nan
  | infinity s, infinity t => infinity (s ^^ t)
  | infinity s, finite t k => if k.val = 0 then nan else infinity (s ^^ t)
  | finite s j, infinity t => if j.val = 0 then nan else infinity (s ^^ t)
  | finite s j, finite t k => rounded (s ^^ t) (Grid.units j * Grid.units k) Grid.one

/-- The quotient. -/
def div : Binary64 → Binary64 → Binary64
  | nan, _ => nan
  | _, nan => nan
  | infinity _, infinity _ => nan
  | infinity s, finite t _ => infinity (s ^^ t)
  | finite s _, infinity t => zero (s ^^ t)
  | finite s j, finite t k =>
    if k.val = 0 then
      if j.val = 0 then nan else infinity (s ^^ t)
    else rounded (s ^^ t) (Grid.units j * Grid.one) (Grid.units k)

instance : Add Binary64 := ⟨add⟩
instance : Sub Binary64 := ⟨sub⟩
instance : Mul Binary64 := ⟨mul⟩
instance : Div Binary64 := ⟨div⟩

/-! ## Rounding to integers -/

/-- Rounds the magnitude of a finite number to an integer and keeps the sign. -/
def toIntegral (magnitude : Bool → Nat → Nat) : Binary64 → Binary64
  | finite s k => rounded s (magnitude s (Grid.units k) * Grid.one) 1
  | x => x

/-- The nearest integer, a half going to the even one. -/
def nearest : Binary64 → Binary64 :=
  toIntegral fun _ m => roundHalfEven m Grid.one

/-- The largest integer at or below. -/
def floor : Binary64 → Binary64 :=
  toIntegral fun negative m => if negative then Grid.integerAbove m else Grid.integerBelow m

/-- The smallest integer at or above. -/
def ceiling : Binary64 → Binary64 :=
  toIntegral fun negative m => if negative then Grid.integerBelow m else Grid.integerAbove m

/-- The integer part of a finite number, its fraction cut off. -/
def truncate? : Binary64 → Option Int
  | finite false k => some (Grid.integerBelow (Grid.units k) : Int)
  | finite true k => some (-(Grid.integerBelow (Grid.units k) : Int))
  | _ => none

/-! ## Laws of the special numbers -/

@[simp] theorem nan_add (x : Binary64) : nan + x = nan := by
  show add nan x = nan
  cases x <;> rfl

@[simp] theorem add_nan (x : Binary64) : x + nan = nan := by
  show add x nan = nan
  cases x <;> rfl

@[simp] theorem nan_mul (x : Binary64) : nan * x = nan := by
  show mul nan x = nan
  cases x <;> rfl

@[simp] theorem mul_nan (x : Binary64) : x * nan = nan := by
  show mul x nan = nan
  cases x <;> rfl

/-- A sum of finite numbers that is not zero is the exact sum, rounded once. -/
theorem add_finite {s t : Bool} {j k : Fin placeCount}
    (h : (finite s j).units + (finite t k).units ≠ 0) :
    finite s j + finite t k = ofUnits ((finite s j).units + (finite t k).units) := by
  show add (finite s j) (finite t k) = _
  simp [add, h]

/-- A difference adds the number of opposite sign. -/
theorem sub_eq_add_neg (x y : Binary64) : x - y = x + -y := rfl

end Binary64

end BranchBound
