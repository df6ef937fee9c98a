import BranchBound.Binary64.Arith

/-!
# Number systems

Bounds, costs and activities are computed in a number system.  The search runs on double
precision; a statement about exact arithmetic speaks of the same formulas in another system.

A comparison need not be total: two numbers are `Same` when each is at most the other, which
holds of the two zeros of double precision and not of `nan` and itself.

Main results:

- `lesser_eq_or` and `greater_eq_or`: the lesser and the greater of two numbers are one of them.
-/

namespace BranchBound

/-- What the formulas of the search need of the numbers they compute with. -/
class NumberSystem (N : Type) extends Add N, Sub N, Mul N, Div N, LT N, LE N, OfScientific N where
  /-- The number that stands for an integer. -/
  ofInt : Int → N
  /-- The number without its sign. -/
  magnitude : N → N
  /-- The nearest integer, a half going to the even one. -/
  nearest : N → N
  /-- The largest integer at or below. -/
  floor : N → N
  /-- The smallest integer at or above. -/
  ceiling : N → N
  /-- Whether one number is less than another is decidable. -/
  decideLT : DecidableLT N
  /-- Whether one number is at most another is decidable. -/
  decideLE : DecidableLE N

attribute [reducible, instance] NumberSystem.decideLT NumberSystem.decideLE

instance : NumberSystem Binary64 where
  ofInt := Binary64.ofInt
  magnitude := Binary64.abs
  nearest := Binary64.nearest
  floor := Binary64.floor
  ceiling := Binary64.ceiling
  decideLT := inferInstance
  decideLE := inferInstance

section

variable {N : Type} [NumberSystem N]

/-- Whether two numbers are equal in value. -/
def Same (x y : N) : Prop := x ≤ y ∧ y ≤ x

instance (x y : N) : Decidable (Same x y) := inferInstanceAs (Decidable (_ ∧ _))

/-- The lesser of two numbers: the first, unless the second is less. -/
def lesser (x y : N) : N := if y < x then y else x

/-- The greater of two numbers: the first, unless the second is greater. -/
def greater (x y : N) : N := if x < y then y else x

/-- A number moved into a range: up to its lower end, then down to its upper end. -/
def clamp (low high x : N) : N := lesser (greater x low) high

/-- The sum of the products of two lists.  A single product is the sum itself; more are added from
the left to zero, so that their sum is not a negative zero. -/
def dot (xs ys : List N) : N :=
  match xs.zipWith (· * ·) ys with
  | [product] => product
  | products => products.foldl (· + ·) 0.0

/-- The tolerance used where none is given. -/
def defaultTolerance : N := 1e-6

/-- The lesser of two numbers is one of them. -/
theorem lesser_eq_or (x y : N) : lesser x y = x ∨ lesser x y = y := by
  unfold lesser
  split
  · exact Or.inr rfl
  · exact Or.inl rfl

/-- The greater of two numbers is one of them. -/
theorem greater_eq_or (x y : N) : greater x y = x ∨ greater x y = y := by
  unfold greater
  split
  · exact Or.inr rfl
  · exact Or.inl rfl

/-- The empty sum of products is zero. -/
@[simp] theorem dot_nil (ys : List N) : dot [] ys = (0.0 : N) := rfl

/-- The sum of one product is that product. -/
@[simp] theorem dot_singleton (x y : N) : dot [x] [y] = x * y := rfl

end

end BranchBound
