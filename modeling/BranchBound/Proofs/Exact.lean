import BranchBound.Entity.Basic
import Mathlib.Data.Rat.Floor
import Mathlib.Tactic.NormNum

/-!
# Exact numbers

The formulas of the search are those of a number system, and run on double precision, where every
operation rounds its result.  Without rounding a finite number is a rational, and there are the
same special numbers besides: an infinity of either sign, and `nan` where an operation has no
result.  There is one zero, so a quotient by zero has no sign and no result.

What the search would compute if nothing were rounded is what its formulas give in this system.

Main results:

- Theorems `ExactNumber.finite_add`, `ExactNumber.finite_mul` and their likes: on finite numbers the
  operations are those of the rationals.
- Theorem `ExactNumber.dot_finite`: the sum of the products of finite numbers is the sum.
-/

namespace BranchBound

/-- A number that is never rounded. -/
inductive ExactNumber where
  /-- The result of an operation that has no number. -/
  | nan
  /-- The infinity of the given sign. -/
  | infinity (negative : Bool)
  /-- A rational number. -/
  | finite (q : ℚ)
  deriving DecidableEq

namespace ExactNumber

/-! ## Operations -/

/-- The number of opposite sign. -/
def neg : ExactNumber → ExactNumber
  | nan => nan
  | infinity s => infinity (!s)
  | finite p => finite (-p)

/-- The sum. -/
def add : ExactNumber → ExactNumber → ExactNumber
  | nan, _ => nan
  | _, nan => nan
  | infinity s, infinity t => if s = t then infinity s else nan
  | infinity s, finite _ => infinity s
  | finite _, infinity t => infinity t
  | finite p, finite q => finite (p + q)

/-- The product. -/
def mul : ExactNumber → ExactNumber → ExactNumber
  | nan, _ => nan
  | _, nan => nan
  | infinity s, infinity t => infinity (s ^^ t)
  | infinity s, finite q => if q = 0 then nan else infinity (s ^^ decide (q < 0))
  | finite p, infinity t => if p = 0 then nan else infinity (decide (p < 0) ^^ t)
  | finite p, finite q => finite (p * q)

/-- The quotient. -/
def div : ExactNumber → ExactNumber → ExactNumber
  | nan, _ => nan
  | _, nan => nan
  | infinity _, infinity _ => nan
  | infinity s, finite q => if q = 0 then nan else infinity (s ^^ decide (q < 0))
  | finite _, infinity _ => finite 0
  | finite p, finite q => if q = 0 then nan else finite (p / q)

/-- Whether one number is less than another; never with `nan`. -/
def less : ExactNumber → ExactNumber → Bool
  | nan, _ => false
  | _, nan => false
  | infinity s, infinity t => s && !t
  | infinity s, finite _ => s
  | finite _, infinity t => !t
  | finite p, finite q => p < q

/-- Whether one number is at most another; never with `nan`. -/
def atMost : ExactNumber → ExactNumber → Bool
  | nan, _ => false
  | _, nan => false
  | infinity s, infinity t => s || !t
  | infinity s, finite _ => s
  | finite _, infinity t => !t
  | finite p, finite q => p ≤ q

/-- The integer nearest to a rational, a half going to the even one. -/
def halfEven (q : ℚ) : ℤ :=
  let n := ⌊q⌋
  if 2 * (q - n) < 1 then n
  else if 1 < 2 * (q - n) then n + 1
  else n + n % 2

/-- A finite number replaced by an integer. -/
def toIntegral (f : ℚ → ℤ) : ExactNumber → ExactNumber
  | finite q => finite (f q)
  | x => x

instance : NumberSystem ExactNumber where
  add := add
  sub x y := add x y.neg
  mul := mul
  div := div
  lt x y := x.less y = true
  le x y := x.atMost y = true
  ofScientific digits down exponent := finite (OfScientific.ofScientific digits down exponent)
  ofInt n := finite n
  magnitude
    | nan => nan
    | infinity _ => infinity false
    | finite q => finite |q|
  nearest := toIntegral halfEven
  floor := toIntegral Int.floor
  ceiling := toIntegral Int.ceil
  decideLT x y := inferInstanceAs (Decidable (x.less y = true))
  decideLE x y := inferInstanceAs (Decidable (x.atMost y = true))

/-! ## Finite numbers -/

variable {p q : ℚ}

@[simp] theorem finite_add (p q : ℚ) : finite p + finite q = finite (p + q) := rfl

@[simp] theorem finite_sub (p q : ℚ) : finite p - finite q = finite (p - q) :=
  congrArg finite (sub_eq_add_neg p q).symm

@[simp] theorem finite_mul (p q : ℚ) : finite p * finite q = finite (p * q) := rfl

theorem finite_div (hq : q ≠ 0) : finite p / finite q = finite (p / q) := if_neg hq

@[simp] theorem finite_lt_finite : finite p < finite q ↔ p < q := decide_eq_true_iff

@[simp] theorem finite_le_finite : finite p ≤ finite q ↔ p ≤ q := decide_eq_true_iff

theorem greater_finite (p q : ℚ) : greater (finite p) (finite q) = finite (max p q) := by
  unfold greater
  split
  · rename_i hlt
    rw [max_eq_right (finite_lt_finite.1 hlt).le]
  · rename_i hnot
    rw [max_eq_left (not_lt.1 (mt finite_lt_finite.2 hnot))]

@[simp] theorem ofInt_eq (n : ℤ) : (NumberSystem.ofInt n : ExactNumber) = finite n := rfl

theorem zero_eq : (0.0 : ExactNumber) = finite 0 := by
  show finite (0.0 : ℚ) = finite 0
  norm_num

theorem one_eq : (1.0 : ExactNumber) = finite 1 := by
  show finite (1.0 : ℚ) = finite 1
  norm_num

theorem half_eq : (0.5 : ExactNumber) = finite (1 / 2) := by
  show finite (0.5 : ℚ) = finite (1 / 2)
  norm_num

/-! ## Special numbers -/

@[simp] theorem infinity_add_finite (s : Bool) (q : ℚ) : infinity s + finite q = infinity s := rfl

@[simp] theorem infinity_sub_finite (s : Bool) (q : ℚ) : infinity s - finite q = infinity s := rfl

@[simp] theorem add_finite_zero (x : ExactNumber) : x + finite 0 = x := by
  cases x with
  | nan => rfl
  | infinity s => rfl
  | finite p => rw [finite_add, add_zero]

@[simp] theorem sub_finite_zero (x : ExactNumber) : x - finite 0 = x := by
  cases x with
  | nan => rfl
  | infinity s => rfl
  | finite p => rw [finite_sub, sub_zero]

@[simp] theorem not_finite_lt_infinity_true : ¬ finite q < infinity true := Bool.false_ne_true

@[simp] theorem not_infinity_false_lt_finite : ¬ infinity false < finite q := Bool.false_ne_true

/-- A number that is at least zero is rational, or infinity. -/
theorem eq_infinity_or_finite_of_nonneg {x : ExactNumber} (h : 0.0 ≤ x) :
    x = infinity false ∨ ∃ q, 0 ≤ q ∧ x = finite q := by
  rw [zero_eq] at h
  cases x with
  | nan => cases h
  | infinity s =>
    cases s with
    | false => exact Or.inl rfl
    | true => cases h
  | finite q => exact Or.inr ⟨q, finite_le_finite.1 h, rfl⟩

theorem not_finite_lt_iff {x : ExactNumber} (h : x ≠ nan) : ¬ finite p < x ↔ x ≤ finite p := by
  cases x with
  | nan => exact absurd rfl h
  | infinity s =>
    show ¬ (!s) = true ↔ s = true
    cases s <;> decide
  | finite q => rw [finite_lt_finite, finite_le_finite, not_lt]

theorem not_lt_finite_iff {x : ExactNumber} (h : x ≠ nan) : ¬ x < finite p ↔ finite p ≤ x := by
  cases x with
  | nan => exact absurd rfl h
  | infinity s =>
    show ¬ s = true ↔ (!s) = true
    cases s <;> decide
  | finite q => rw [finite_lt_finite, finite_le_finite, not_lt]

/-! ## Sums of products -/

theorem foldl_add_finite (ps : List ℚ) (p : ℚ) :
    (ps.map finite).foldl (· + ·) (finite p) = finite (p + ps.sum) := by
  induction ps generalizing p with
  | nil => rw [List.map_nil, List.foldl_nil, List.sum_nil, add_zero]
  | cons q ps ih => rw [List.map_cons, List.foldl_cons, finite_add, ih, List.sum_cons, add_assoc]

theorem zipWith_mul_finite (ps qs : List ℚ) :
    (ps.map finite).zipWith (· * ·) (qs.map finite) = (ps.zipWith (· * ·) qs).map finite := by
  rw [List.zipWith_map, List.map_zipWith]
  rfl

/-- The sum of the products of finite numbers is the sum. -/
theorem dot_finite (ps qs : List ℚ) :
    dot (ps.map finite) (qs.map finite) = finite (ps.zipWith (· * ·) qs).sum := by
  rw [dot, zipWith_mul_finite]
  split
  · rename_i product hsingle
    rcases List.map_eq_singleton_iff.1 hsingle with ⟨q, hq, rfl⟩
    rw [hq, List.sum_singleton]
  · rw [zero_eq, foldl_add_finite, zero_add]

end ExactNumber

/-- A free entity, one without bounds, of unrounded numbers. -/
def Entity.free : Entity ExactNumber where
  index := unplaced
  representation := .core
  integrality := .continuous
  status := .none
  hard := ⟨.infinity true, .infinity false⟩
  soft := ⟨.infinity true, .infinity false⟩
  hash := 0.0

end BranchBound
