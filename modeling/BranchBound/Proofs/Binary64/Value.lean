import BranchBound.NumberSystem
import BranchBound.Proofs.Binary64.Rounding
import Mathlib.Algebra.Order.Floor.Ring
import Mathlib.Data.Rat.Floor
import Mathlib.Tactic.Linarith

/-!
# The exact value of a double

A finite double stands for a rational number.  Comparisons of finite doubles are comparisons of
these numbers, and rounding a double to an integer loses nothing: floor, ceiling and the nearest
integer are again finite doubles, and they stand for what their names say.

Main results:

- Theorems `Binary64.le_iff_toRat` and `Binary64.lt_iff_toRat`: finite doubles compare as their
  values do.
- Theorems `Binary64.floor_exact` and `Binary64.ceiling_exact`: floor and ceiling are exact.
- Theorem `Binary64.nearest_exact`: the nearest integer is an integer and at most one half away.
- Theorem `Binary64.toRat_nearest_eq_iff`: it is the closest integer, or the even one of two.
- Theorems `Binary64.isInteger_add_one` and `Binary64.isInteger_sub_one`: one step from an integer
  leads to a finite integer, and never backwards.
-/

namespace BranchBound

namespace Binary64

-- The number of units in one has 1075 bits and is never to be evaluated.
attribute [local irreducible] Grid.one

/-! ## Order -/

theorem le_refl_of_ne_nan {x : Binary64} (h : x ≠ nan) : x ≤ x := by
  rw [le_iff]
  rcases hx : x.rank with _ | i
  · cases x with
    | nan => exact absurd rfl h
    | infinity s => cases s <;> simp [rank] at hx
    | finite s k => cases s <;> simp [rank] at hx
  · exact ⟨i, i, rfl, rfl, le_rfl⟩

theorem le_trans {x y z : Binary64} (hxy : x ≤ y) (hyz : y ≤ z) : x ≤ z := by
  rw [le_iff] at *
  rcases hxy with ⟨i, j, hx, hy, hij⟩
  rcases hyz with ⟨j', k, hy', hz, hjk⟩
  rw [hy] at hy'
  cases hy'
  exact ⟨i, k, hx, hz, hij.trans hjk⟩

theorem le_of_lt {x y : Binary64} (h : x < y) : x ≤ y := by
  rw [lt_iff] at h
  rcases h with ⟨i, j, hx, hy, hij⟩
  exact le_iff.2 ⟨i, j, hx, hy, hij.le⟩

theorem lt_of_lt_of_le {x y z : Binary64} (hxy : x < y) (hyz : y ≤ z) : x < z := by
  rw [lt_iff] at *
  rw [le_iff] at hyz
  rcases hxy with ⟨i, j, hx, hy, hij⟩
  rcases hyz with ⟨j', k, hy', hz, hjk⟩
  rw [hy] at hy'
  cases hy'
  exact ⟨i, k, hx, hz, Int.lt_of_lt_of_le hij hjk⟩

theorem lt_of_le_of_lt {x y z : Binary64} (hxy : x ≤ y) (hyz : y < z) : x < z := by
  rw [lt_iff] at *
  rw [le_iff] at hxy
  rcases hxy with ⟨i, j, hx, hy, hij⟩
  rcases hyz with ⟨j', k, hy', hz, hjk⟩
  rw [hy] at hy'
  cases hy'
  exact ⟨i, k, hx, hz, Int.lt_of_le_of_lt hij hjk⟩

theorem ne_nan_of_le_left {x y : Binary64} (h : x ≤ y) : x ≠ nan := by
  rintro rfl
  exact not_nan_le y h

theorem ne_nan_of_le_right {x y : Binary64} (h : x ≤ y) : y ≠ nan := by
  rintro rfl
  exact not_le_nan x h

theorem exists_rank {x : Binary64} (h : x ≠ nan) : ∃ i, x.rank = some i := by
  rcases le_iff.1 (le_refl_of_ne_nan h) with ⟨i, -, hi, -⟩
  exact ⟨i, hi⟩

theorem not_lt_iff {x y : Binary64} (hx : x ≠ nan) (hy : y ≠ nan) : ¬ x < y ↔ y ≤ x := by
  rcases exists_rank hx with ⟨i, hi⟩
  rcases exists_rank hy with ⟨j, hj⟩
  simp [lt_iff, le_iff, hi, hj]

theorem not_lt_of_le {x y : Binary64} (h : y ≤ x) : ¬ x < y :=
  (not_lt_iff (ne_nan_of_le_right h) (ne_nan_of_le_left h)).2 h

/-! ## Values -/

/-- The number that a finite double stands for; zero for the others. -/
def toRat (x : Binary64) : ℚ := x.units / (Grid.one : ℤ)

theorem one_cast_pos : (0 : ℚ) < ((Grid.one : ℤ) : ℚ) := by exact_mod_cast Grid.one_pos

theorem toRat_mul_one (x : Binary64) : x.toRat * (Grid.one : ℤ) = x.units :=
  div_mul_cancel₀ _ one_cast_pos.ne'

theorem intCast_le_toRat_iff {x : Binary64} {n : ℤ} :
    (n : ℚ) ≤ x.toRat ↔ n * (Grid.one : ℤ) ≤ x.units := by
  rw [toRat, le_div_iff₀ one_cast_pos]
  exact_mod_cast Iff.rfl

theorem toRat_eq_intCast_iff {x : Binary64} {n : ℤ} :
    x.toRat = n ↔ x.units = n * (Grid.one : ℤ) := by
  rw [toRat, div_eq_iff one_cast_pos.ne']
  exact_mod_cast Iff.rfl

theorem toRat_le_toRat_iff {x y : Binary64} : x.toRat ≤ y.toRat ↔ x.units ≤ y.units := by
  rw [toRat, toRat, div_le_div_iff_of_pos_right one_cast_pos]
  exact_mod_cast Iff.rfl

theorem isFinite_iff {x : Binary64} : x.isFinite = true ↔ ∃ s k, x = finite s k := by
  cases x <;> simp [isFinite]

theorem ne_nan_of_isFinite {x : Binary64} (h : x.isFinite = true) : x ≠ nan := by
  rintro rfl
  simp [isFinite] at h

/-- Finite doubles compare as their units do. -/
theorem le_iff_units {x y : Binary64} (hx : x.isFinite = true) (hy : y.isFinite = true) :
    x ≤ y ↔ x.units ≤ y.units := by
  rcases isFinite_iff.1 hx with ⟨s, j, rfl⟩
  rcases isFinite_iff.1 hy with ⟨t, k, rfl⟩
  have hle := Grid.units_le_iff (j := j) (k := k)
  have hge := Grid.units_le_iff (j := k) (k := j)
  have hj := Grid.units_eq_zero_iff (k := j)
  have hk := Grid.units_eq_zero_iff (k := k)
  cases s <;> cases t <;> simp [le_iff, rank, units] <;> omega

/-- Finite doubles are ordered as their values are. -/
theorem le_iff_toRat {x y : Binary64} (hx : x.isFinite = true) (hy : y.isFinite = true) :
    x ≤ y ↔ x.toRat ≤ y.toRat := by
  rw [le_iff_units hx hy, toRat_le_toRat_iff]

theorem lt_iff_toRat {x y : Binary64} (hx : x.isFinite = true) (hy : y.isFinite = true) :
    x < y ↔ x.toRat < y.toRat := by
  rw [← not_le, ← le_iff_toRat hy hx, ← not_iff_not, not_not,
    not_lt_iff (ne_nan_of_isFinite hx) (ne_nan_of_isFinite hy)]

/-- Two finite doubles are the same number when their values are equal. -/
theorem same_iff_toRat {x y : Binary64} (hx : x.isFinite = true) (hy : y.isFinite = true) :
    Same x y ↔ x.toRat = y.toRat := by
  show x ≤ y ∧ y ≤ x ↔ _
  rw [le_iff_toRat hx hy, le_iff_toRat hy hx, le_antisymm_iff]

/-! ## Infinities -/

theorem infinity_true_le {x : Binary64} (h : x ≠ nan) : infinity true ≤ x := by
  rw [le_iff]
  cases x with
  | nan => exact absurd rfl h
  | infinity s => cases s <;> simp [rank]
  | finite s k =>
    have hk := k.isLt
    cases s <;> simp [rank]

theorem le_infinity_false {x : Binary64} (h : x ≠ nan) : x ≤ infinity false := by
  rw [le_iff]
  cases x with
  | nan => exact absurd rfl h
  | infinity s => cases s <;> simp [rank]
  | finite s k =>
    have hk := k.isLt
    cases s with
    | false => exact ⟨k, placeCount, rfl, rfl, by omega⟩
    | true => exact ⟨-(k : ℕ), placeCount, rfl, rfl, by omega⟩

/-- Nothing but the negative infinity is at or below it. -/
theorem eq_infinity_true_of_le {x : Binary64} (h : x ≤ infinity true) : x = infinity true := by
  rcases le_iff.1 h with ⟨i, j, hi, hj, hij⟩
  cases hj
  cases x with
  | nan => cases hi
  | infinity s =>
    cases s with
    | true => rfl
    | false =>
      cases hi
      have hpos : 0 < placeCount := by decide
      omega
  | finite s k =>
    have hk := k.isLt
    cases s <;> cases hi <;> omega

/-- Nothing but the positive infinity is at or above it. -/
theorem eq_infinity_false_of_le {x : Binary64} (h : infinity false ≤ x) :
    x = infinity false := by
  rcases le_iff.1 h with ⟨i, j, hi, hj, hij⟩
  cases hi
  cases x with
  | nan => cases hj
  | infinity s =>
    cases s with
    | false => rfl
    | true =>
      cases hj
      have hpos : 0 < placeCount := by decide
      omega
  | finite s k =>
    have hk := k.isLt
    cases s <;> cases hj <;> omega

/-- A number between two finite numbers is finite. -/
theorem isFinite_of_le_of_le {x y z : Binary64} (hx : x.isFinite = true) (hz : z.isFinite = true)
    (hxy : x ≤ y) (hyz : y ≤ z) : y.isFinite = true := by
  cases y with
  | nan => exact absurd hxy (not_le_nan x)
  | infinity s =>
    cases s with
    | false => rwa [eq_infinity_false_of_le hyz] at hz
    | true => rwa [eq_infinity_true_of_le hxy] at hx
  | finite s k => rfl

theorem not_lt_infinity_true (x : Binary64) : ¬ x < infinity true := by
  intro h
  have hx := ne_nan_of_le_left (le_of_lt h)
  exact (not_lt_iff hx (by simp)).2 (infinity_true_le hx) h

theorem not_infinity_false_lt (x : Binary64) : ¬ infinity false < x := by
  intro h
  have hx := ne_nan_of_le_right (le_of_lt h)
  exact (not_lt_iff (by simp) hx).2 (le_infinity_false hx) h

/-! ## Integers -/

/-- Whether a double is finite and its value is an integer. -/
def IsInteger (x : Binary64) : Prop := x.isFinite = true ∧ ∃ n : ℤ, x.toRat = n

theorem IsInteger.isFinite {x : Binary64} (h : x.IsInteger) : x.isFinite = true := h.1

theorem isInteger_iff_dvd {x : Binary64} (hx : x.isFinite = true) :
    x.IsInteger ↔ (Grid.one : ℤ) ∣ x.units := by
  constructor
  · rintro ⟨-, n, hn⟩
    exact ⟨n, by rw [toRat_eq_intCast_iff.1 hn, mul_comm]⟩
  · rintro ⟨n, hn⟩
    exact ⟨hx, n, toRat_eq_intCast_iff.2 (by rw [hn, mul_comm])⟩

instance (x : Binary64) : Decidable x.IsInteger :=
  if hx : x.isFinite = true then decidable_of_iff _ (isInteger_iff_dvd hx).symm
  else isFalse fun h => hx h.isFinite

/-- The signed units of a sign and a magnitude. -/
theorem units_finite (s : Bool) (k : Fin placeCount) :
    (finite s k).units = if s then -(Grid.units k : ℤ) else Grid.units k := by
  cases s <;> simp [units]

/-- An integer next to the magnitude of a finite double is the magnitude of a finite double. -/
theorem exists_rounded_eq {k : Fin placeCount} {m : Nat} (s : Bool)
    (hlow : Grid.units k / Grid.one ≤ m) (hhigh : m ≤ Grid.units k / Grid.one + 1)
    (hfix : Grid.one ∣ Grid.units k → m = Grid.units k / Grid.one) :
    ∃ j : Fin placeCount, rounded s (m * Grid.one) 1 = finite s j ∧
      Grid.units j = m * Grid.one := by
  rcases Grid.exists_units_eq_mul_one k.isLt hlow hhigh hfix with ⟨j, hj, hunits⟩
  refine ⟨⟨j, hj⟩, ?_, hunits⟩
  rw [rounded, ← hunits, Grid.nearest_units, ofPlace, dif_pos hj]

theorem integerBelow_bounds (m : Nat) :
    m / Grid.one ≤ Grid.integerBelow m ∧ Grid.integerBelow m ≤ m / Grid.one + 1 ∧
      (Grid.one ∣ m → Grid.integerBelow m = m / Grid.one) := by
  unfold Grid.integerBelow
  exact ⟨le_rfl, Nat.le_succ _, fun _ => rfl⟩

theorem integerAbove_bounds (m : Nat) :
    m / Grid.one ≤ Grid.integerAbove m ∧ Grid.integerAbove m ≤ m / Grid.one + 1 ∧
      (Grid.one ∣ m → Grid.integerAbove m = m / Grid.one) := by
  have hpos := Grid.one_pos
  unfold Grid.integerAbove
  generalize Grid.one = d at *
  refine ⟨Nat.div_le_div_right (by omega), ?_, ?_⟩
  · calc (m + (d - 1)) / d ≤ (m + d) / d := Nat.div_le_div_right (by omega)
      _ = m / d + 1 := Nat.add_div_right m hpos
  · rintro ⟨q, rfl⟩
    rw [Nat.mul_div_cancel_left q hpos, Nat.mul_add_div hpos, Nat.div_eq_of_lt (by omega),
      Nat.add_zero]

theorem toRat_lt_intCast_iff {x : Binary64} {n : ℤ} :
    x.toRat < n ↔ x.units < n * (Grid.one : ℤ) := by
  rw [← not_le, intCast_le_toRat_iff, not_le]

theorem floor_toRat_eq_iff {x : Binary64} {n : ℤ} :
    ⌊x.toRat⌋ = n ↔
      n * (Grid.one : ℤ) ≤ x.units ∧ x.units < (n + 1) * (Grid.one : ℤ) := by
  rw [Int.floor_eq_iff, intCast_le_toRat_iff, ← toRat_lt_intCast_iff]
  push_cast
  rfl

/-- A magnitude lies between the multiples below and above it. -/
theorem integer_bounds (m : Nat) :
    ((Grid.integerBelow m : ℤ) * (Grid.one : ℤ) ≤ m ∧
        (m : ℤ) < (Grid.integerBelow m + 1) * (Grid.one : ℤ)) ∧
      (-(Grid.integerAbove m : ℤ) * (Grid.one : ℤ) ≤ -m ∧
        -(m : ℤ) < (-(Grid.integerAbove m : ℤ) + 1) * (Grid.one : ℤ)) := by
  have hpos := Grid.one_pos
  unfold Grid.integerBelow Grid.integerAbove
  generalize Grid.one = d at *
  have hbelow := Nat.div_mul_le_self m d
  have hbelow' := Nat.lt_div_mul_add (a := m) hpos
  have habove := Nat.div_mul_le_self (m + (d - 1)) d
  have habove' := Nat.lt_div_mul_add (a := m + (d - 1)) hpos
  generalize m / d = q at *
  generalize (m + (d - 1)) / d = q' at *
  zify [hpos] at *
  refine ⟨⟨?_, ?_⟩, ?_, ?_⟩ <;> linarith

theorem toRat_finite_false_eq {k : Fin placeCount} {m : Nat} (h : Grid.units k = m * Grid.one) :
    (finite false k).toRat = (m : ℤ) := by
  rw [toRat_eq_intCast_iff, units_finite, h]
  push_cast
  simp

theorem toRat_finite_true_eq {k : Fin placeCount} {m : Nat} (h : Grid.units k = m * Grid.one) :
    (finite true k).toRat = (-(m : ℤ) : ℤ) := by
  rw [toRat_eq_intCast_iff, units_finite, h]
  push_cast
  simp

/-- The floor of a finite double is finite, and it is exact. -/
theorem floor_exact {x : Binary64} (hx : x.isFinite = true) :
    x.floor.isFinite = true ∧ x.floor.toRat = ⌊x.toRat⌋ := by
  rcases isFinite_iff.1 hx with ⟨s, k, rfl⟩
  rcases integer_bounds (Grid.units k) with ⟨hbelow, habove⟩
  cases s with
  | false =>
    rcases integerBelow_bounds (Grid.units k) with ⟨hlow, hhigh, hfix⟩
    rcases exists_rounded_eq false hlow hhigh hfix with ⟨j, hj, hunits⟩
    have hfloor : floor (finite false k) = finite false j := by
      rw [← hj]
      simp only [floor, toIntegral, Bool.false_eq_true, if_false]
    have hvalue : ⌊(finite false k).toRat⌋ = (Grid.integerBelow (Grid.units k) : ℤ) := by
      rw [floor_toRat_eq_iff, units_finite]
      simpa only [Bool.false_eq_true, if_false] using hbelow
    rw [hfloor, hvalue]
    exact ⟨rfl, toRat_finite_false_eq hunits⟩
  | true =>
    rcases integerAbove_bounds (Grid.units k) with ⟨hlow, hhigh, hfix⟩
    rcases exists_rounded_eq true hlow hhigh hfix with ⟨j, hj, hunits⟩
    have hfloor : floor (finite true k) = finite true j := by
      rw [← hj]
      simp only [floor, toIntegral, if_true]
    have hvalue : ⌊(finite true k).toRat⌋ = -(Grid.integerAbove (Grid.units k) : ℤ) := by
      rw [floor_toRat_eq_iff, units_finite]
      simpa only [if_true] using habove
    rw [hfloor, hvalue]
    exact ⟨rfl, toRat_finite_true_eq hunits⟩

/-! ### The number of opposite sign -/

@[simp] theorem isFinite_neg (x : Binary64) : (-x).isFinite = x.isFinite := by
  cases x <;> rfl

theorem units_neg (x : Binary64) : (-x).units = -x.units := by
  cases x with
  | nan => rfl
  | infinity s => rfl
  | finite s k => cases s <;> simp [show -finite _ k = finite _ k from rfl, units_finite]

theorem toRat_neg (x : Binary64) : (-x).toRat = -x.toRat := by
  rw [toRat, toRat, units_neg]
  push_cast
  ring

theorem neg_rounded (s : Bool) (num den : Nat) : -rounded s num den = rounded (!s) num den := by
  show neg (ofPlace s _) = ofPlace (!s) _
  unfold ofPlace
  split <;> rfl

/-- Ceiling and floor mirror each other. -/
theorem ceiling_eq_neg_floor_neg {x : Binary64} (hx : x.isFinite = true) :
    x.ceiling = -(-x).floor := by
  rcases isFinite_iff.1 hx with ⟨s, k, rfl⟩
  have hneg : -finite s k = finite (!s) k := rfl
  rw [hneg, floor, toIntegral, neg_rounded, Bool.not_not, ceiling, toIntegral]
  cases s <;> simp only [Bool.not_false, Bool.not_true, Bool.false_eq_true, if_true, if_false]

/-- The ceiling of a finite double is finite, and it is exact. -/
theorem ceiling_exact {x : Binary64} (hx : x.isFinite = true) :
    x.ceiling.isFinite = true ∧ x.ceiling.toRat = ⌈x.toRat⌉ := by
  have hneg : (-x).isFinite = true := by rw [isFinite_neg, hx]
  rcases floor_exact hneg with ⟨hfinite, hvalue⟩
  rw [ceiling_eq_neg_floor_neg hx, isFinite_neg, toRat_neg, hvalue, toRat_neg, Int.floor_neg]
  exact ⟨hfinite, by push_cast; ring⟩

/-! ### The nearest integer -/

theorem roundHalfEven_bounds {num den : Nat} (hden : 0 < den) :
    2 * num ≤ (2 * roundHalfEven num den + 1) * den ∧
      2 * roundHalfEven num den * den ≤ 2 * num + den := by
  have hsplit : den * (num / den) + num % den = num := Nat.div_add_mod num den
  have hr := Nat.mod_lt num hden
  have hparity := Nat.mod_two_eq_zero_or_one (num / den)
  unfold roundHalfEven
  dsimp only
  generalize num / den = q at *
  generalize num % den = r at *
  subst hsplit
  by_cases hlow : 2 * r < den
  · rw [if_pos hlow]
    constructor <;> nlinarith
  · rw [if_neg hlow]
    by_cases hhigh : den < 2 * r
    · rw [if_pos hhigh]
      constructor <;> nlinarith
    · rw [if_neg hhigh]
      rcases hparity with hparity | hparity
      · rw [hparity]
        constructor <;> nlinarith
      · rw [hparity]
        constructor <;> nlinarith

theorem abs_toRat_sub_roundHalfEven_le (k : Fin placeCount) :
    |(finite false k).toRat - (roundHalfEven (Grid.units k) Grid.one : ℤ)| ≤ 1 / 2 := by
  have hbounds := @roundHalfEven_bounds (Grid.units k) _ Grid.one_pos
  rcases hbounds with ⟨hupper, hlower⟩
  have hvalue := toRat_mul_one (finite false k)
  have hpos := one_cast_pos
  rw [units_finite, if_neg Bool.false_ne_true] at hvalue
  generalize roundHalfEven (Grid.units k) Grid.one = m at *
  generalize (finite false k).toRat = q at *
  generalize Grid.units k = n at *
  generalize Grid.one = d at *
  have hupper' : (2 * n : ℚ) ≤ (2 * m + 1) * d := by exact_mod_cast hupper
  have hlower' : (2 * m * d : ℚ) ≤ 2 * n + d := by exact_mod_cast hlower
  push_cast at hvalue hpos ⊢
  rw [abs_le]
  constructor
  · by_contra hlt
    nlinarith
  · by_contra hlt
    nlinarith

/-- The nearest integers of a number and of its opposite mirror each other. -/
theorem nearest_neg (s : Bool) (k : Fin placeCount) :
    (finite (!s) k).nearest = -(finite s k).nearest :=
  (neg_rounded s _ 1).symm

/-- The nearest integer to a magnitude is the magnitude rounded. -/
theorem nearest_finite_false (k : Fin placeCount) :
    (finite false k).nearest.isFinite = true ∧
      (finite false k).nearest.toRat = (roundHalfEven (Grid.units k) Grid.one : ℤ) := by
  have hfix : Grid.one ∣ Grid.units k →
      roundHalfEven (Grid.units k) Grid.one = Grid.units k / Grid.one := by
    intro hdvd
    have hexact := roundHalfEven_mul_right (Grid.units k / Grid.one) Grid.one_pos
    rwa [Nat.div_mul_cancel hdvd] at hexact
  rcases exists_rounded_eq false (div_le_roundHalfEven _ _) (roundHalfEven_le _ _) hfix with
    ⟨j, hj, hunits⟩
  have hnearest : nearest (finite false k) = finite false j := hj
  rw [hnearest]
  exact ⟨rfl, toRat_finite_false_eq hunits⟩

/-- The nearest integer of a finite double is a finite integer, at most one half away. -/
theorem nearest_exact {x : Binary64} (hx : x.isFinite = true) :
    x.nearest.IsInteger ∧ |x.toRat - x.nearest.toRat| ≤ 1 / 2 := by
  rcases isFinite_iff.1 hx with ⟨s, k, rfl⟩
  rcases nearest_finite_false k with ⟨hfinite, hvalue⟩
  have hdist := abs_toRat_sub_roundHalfEven_le k
  rw [← hvalue] at hdist
  cases s with
  | false => exact ⟨⟨hfinite, _, hvalue⟩, hdist⟩
  | true =>
    have hmirror : finite true k = -finite false k := rfl
    have hnearest : (finite true k).nearest = -(finite false k).nearest := nearest_neg false k
    rw [hnearest, hmirror, toRat_neg, toRat_neg, ← abs_neg, neg_sub_neg, neg_sub]
    have hfinite' : (-(finite false k).nearest).isFinite = true := by rw [isFinite_neg, hfinite]
    refine ⟨⟨hfinite', -(roundHalfEven (Grid.units k) Grid.one : ℤ), ?_⟩, hdist⟩
    rw [toRat_neg, hvalue, Int.cast_neg]

/-- The nearest integer stays at or above every integer that the number is at or above. -/
theorem intCast_le_toRat_nearest {x : Binary64} {n : ℤ} (hx : x.isFinite = true)
    (h : (n : ℚ) ≤ x.toRat) : (n : ℚ) ≤ x.nearest.toRat := by
  rcases nearest_exact hx with ⟨⟨-, m, hm⟩, hdist⟩
  rw [hm] at hdist ⊢
  by_contra hlt
  rw [not_le] at hlt
  have hstep : (m : ℚ) + 1 ≤ n := by exact_mod_cast hlt
  have := (abs_le.1 hdist).2
  linarith

/-- The nearest integer stays at or below every integer that the number is at or below. -/
theorem toRat_nearest_le_intCast {x : Binary64} {n : ℤ} (hx : x.isFinite = true)
    (h : x.toRat ≤ n) : x.nearest.toRat ≤ n := by
  rcases nearest_exact hx with ⟨⟨-, m, hm⟩, hdist⟩
  rw [hm] at hdist ⊢
  by_contra hlt
  rw [not_le] at hlt
  have hstep : (n : ℚ) + 1 ≤ m := by exact_mod_cast hlt
  have := (abs_le.1 hdist).1
  linarith

/-! ### Ties -/

/-- What is rounded by just one half is rounded to an even integer. -/
theorem even_roundHalfEven {num den : Nat} (hden : 0 < den)
    (h : 2 * num = (2 * roundHalfEven num den + 1) * den ∨
      2 * num + den = 2 * roundHalfEven num den * den) : Even (roundHalfEven num den) := by
  have hsplit : den * (num / den) + num % den = num := Nat.div_add_mod num den
  have hparity := Nat.mod_two_eq_zero_or_one (num / den)
  have hhalf : 2 * (num % den) = den := by
    have hr := Nat.mod_lt num hden
    have hround := roundHalfEven_eq_or num den
    generalize roundHalfEven num den = m at *
    generalize num / den = q at *
    generalize num % den = r at *
    subst hsplit
    rcases hround with rfl | rfl
    · rcases h with h | h <;> nlinarith
    · rcases h with h | h <;> nlinarith
  unfold roundHalfEven
  dsimp only
  rw [if_neg (by omega), if_neg (by omega), Nat.even_iff]
  omega

theorem even_roundHalfEven_of_abs_eq {k : Fin placeCount}
    (h : |(finite false k).toRat - (roundHalfEven (Grid.units k) Grid.one : ℤ)| = 1 / 2) :
    Even (roundHalfEven (Grid.units k) Grid.one) := by
  have hvalue := toRat_mul_one (finite false k)
  rw [units_finite, if_neg Bool.false_ne_true] at hvalue
  apply even_roundHalfEven Grid.one_pos
  generalize roundHalfEven (Grid.units k) Grid.one = m at *
  generalize (finite false k).toRat = q at *
  generalize Grid.units k = n at *
  generalize Grid.one = d at *
  push_cast at hvalue h
  rcases (abs_eq (by norm_num)).1 h with h | h
  · left
    have hcast : (2 * n : ℚ) = (2 * m + 1) * d := by
      rw [← hvalue, sub_eq_iff_eq_add.1 h]
      ring
    exact_mod_cast hcast
  · right
    have hcast : (2 * n + d : ℚ) = 2 * m * d := by
      rw [← hvalue, sub_eq_iff_eq_add.1 h]
      ring
    exact_mod_cast hcast

/-- A number halfway between two integers is rounded to the even one. -/
theorem even_of_abs_sub_nearest_eq {x : Binary64} {n : ℤ} (hx : x.isFinite = true)
    (hn : x.nearest.toRat = n) (h : |x.toRat - n| = 1 / 2) : Even n := by
  rcases isFinite_iff.1 hx with ⟨s, k, rfl⟩
  have hvalue := (nearest_finite_false k).2
  cases s with
  | false =>
    rw [hn, Int.cast_inj] at hvalue
    subst hvalue
    exact (Int.even_coe_nat _).2 (even_roundHalfEven_of_abs_eq h)
  | true =>
    have hmirror : finite true k = -finite false k := rfl
    have hnearest : (finite true k).nearest = -(finite false k).nearest := nearest_neg false k
    rw [hnearest, toRat_neg, hvalue, ← Int.cast_neg, Int.cast_inj] at hn
    subst hn
    rw [hmirror, toRat_neg, Int.cast_neg, ← abs_neg, neg_sub_neg, neg_sub] at h
    exact ((Int.even_coe_nat _).2 (even_roundHalfEven_of_abs_eq h)).neg

/-- There is one integer less than one half away, and no other that is one half away. -/
theorem eq_of_abs_sub_lt {q : ℚ} {m n : ℤ} (hm : |q - m| ≤ 1 / 2) (hn : |q - n| < 1 / 2) :
    m = n := by
  rw [abs_le] at hm
  rw [abs_lt] at hn
  have hlow : (m : ℚ) < n + 1 := by linarith
  have hhigh : (n : ℚ) < m + 1 := by linarith
  norm_cast at hlow hhigh
  omega

/-- Of two integers at most one half away, only one is even. -/
theorem eq_of_even {q : ℚ} {m n : ℤ} (hm : |q - m| ≤ 1 / 2) (hn : |q - n| ≤ 1 / 2)
    (hm' : Even m) (hn' : Even n) : m = n := by
  rw [abs_le] at hm hn
  have hlow : (m : ℚ) ≤ n + 1 := by linarith
  have hhigh : (n : ℚ) ≤ m + 1 := by linarith
  norm_cast at hlow hhigh
  rw [Int.even_iff] at hm' hn'
  omega

/-- Of the integers at most one half away the nearest one is the closest, or the even one of
two. -/
theorem toRat_nearest_eq_iff {x : Binary64} {n : ℤ} (hx : x.isFinite = true) :
    x.nearest.toRat = n ↔
      |x.toRat - n| < 1 / 2 ∨ |x.toRat - n| = 1 / 2 ∧ Even n := by
  rcases nearest_exact hx with ⟨⟨-, m, hm⟩, hdist⟩
  constructor
  · intro hn
    rw [hn] at hdist
    exact hdist.lt_or_eq.imp_right fun htie => ⟨htie, even_of_abs_sub_nearest_eq hx hn htie⟩
  · intro h
    rw [hm] at hdist ⊢
    rw [Int.cast_inj]
    rcases h with hclose | ⟨htie, heven⟩
    · exact eq_of_abs_sub_lt hdist hclose
    · rcases hdist.lt_or_eq with hclose | htie'
      · exact (eq_of_abs_sub_lt htie.le hclose).symm
      · exact eq_of_even hdist htie.le (even_of_abs_sub_nearest_eq hx hm htie') heven

/-! ### One step from an integer -/

/-- The double that is written `0.0`. -/
theorem zero_eq : (0.0 : Binary64) = finite false ⟨0, by decide⟩ := by
  decide +kernel

theorem units_zero (s : Bool) : (zero s).units = 0 := by
  cases s <;> rfl

theorem isInteger_zero (s : Bool) : (zero s).IsInteger := by
  rw [isInteger_iff_dvd rfl, units_zero]
  exact dvd_zero _

/-- The double that is written `1.0`. -/
theorem one_eq : (1.0 : Binary64) = finite false ⟨1023 * Grid.step, by decide⟩ := by
  decide +kernel

theorem units_one : (1.0 : Binary64).units = Grid.one := by
  rw [one_eq, units_finite, if_neg Bool.false_ne_true, Grid.units_eq_one]

theorem rank_ofPlace (s : Bool) (place : Nat) :
    (ofPlace s place).rank =
      some (if s then -((min place placeCount : ℕ) : ℤ) else (min place placeCount : ℕ)) := by
  unfold ofPlace
  by_cases h : place < placeCount
  · rw [dif_pos h, Nat.min_eq_left h.le]
    cases s <;> rfl
  · rw [dif_neg h, Nat.min_eq_right (not_lt.1 h)]
    cases s <;> rfl

/-- Rounding keeps the order of exact results. -/
theorem ofUnits_mono {m n : ℤ} (h : m ≤ n) : ofUnits m ≤ ofUnits n := by
  rw [le_iff, ofUnits, ofUnits, rounded, rounded, rank_ofPlace, rank_ofPlace]
  refine ⟨_, _, rfl, rfl, ?_⟩
  have hup : m.natAbs ≤ n.natAbs → Grid.nearest m.natAbs 1 ≤ Grid.nearest n.natAbs 1 :=
    Grid.nearest_one_mono
  have hdown : n.natAbs ≤ m.natAbs → Grid.nearest n.natAbs 1 ≤ Grid.nearest m.natAbs 1 :=
    Grid.nearest_one_mono
  by_cases hm : m < 0 <;> by_cases hn : n < 0 <;> simp only [hm, hn, decide_true, decide_false,
    if_true, Bool.false_eq_true, if_false]
  · have := hdown (by omega)
    omega
  · omega
  · omega
  · have := hup (by omega)
    omega

/-- A finite double is its own rounding, up to the sign of zero. -/
theorem same_ofUnits_units {x : Binary64} (hx : x.isFinite = true) : Same x (ofUnits x.units) := by
  rcases isFinite_iff.1 hx with ⟨s, k, rfl⟩
  have hk := k.isLt
  have hrank : (ofUnits (finite s k).units).rank = (finite s k).rank := by
    rw [ofUnits, rounded, rank_ofPlace, units_finite]
    cases s with
    | false =>
      have hneg : ¬ (Grid.units k : ℤ) < 0 := by omega
      simp only [Bool.false_eq_true, if_false, hneg, decide_false, Int.natAbs_natCast,
        Grid.nearest_units, rank]
      congr 2
      omega
    | true =>
      simp only [if_true, Int.natAbs_neg, Int.natAbs_natCast, Grid.nearest_units, rank]
      by_cases hzero : Grid.units k = 0
      · have hplace := Grid.units_eq_zero_iff.1 hzero
        simp [hplace]
      · have hneg : -(Grid.units k : ℤ) < 0 := by omega
        simp only [hneg, decide_true, if_true]
        congr 3
        omega
  have hle := le_refl_of_ne_nan (ne_nan_of_isFinite hx)
  rw [le_iff] at hle
  constructor
  · show finite s k ≤ _
    rw [le_iff, hrank]
    exact hle
  · show _ ≤ finite s k
    rw [le_iff, hrank]
    exact hle

/-- A sum of finite doubles compares as the rounded exact sum. -/
theorem rank_add {x y : Binary64} (hx : x.isFinite = true) (hy : y.isFinite = true) :
    (x + y).rank = (ofUnits (x.units + y.units)).rank := by
  rcases isFinite_iff.1 hx with ⟨s, j, rfl⟩
  rcases isFinite_iff.1 hy with ⟨t, k, rfl⟩
  by_cases hsum : (finite s j).units + (finite t k).units = 0
  · have hzero : finite s j + finite t k = zero (s && t) := by
      show add (finite s j) (finite t k) = _
      simp [add, hsum]
    rw [hzero, hsum, zero, rank_ofPlace]
    cases s <;> cases t <;> decide
  · rw [add_finite hsum]

theorem le_add_of_nonneg {x y : Binary64} (hx : x.isFinite = true) (hy : y.isFinite = true)
    (h : 0 ≤ y.units) : x ≤ x + y := by
  have hround : ofUnits x.units ≤ ofUnits (x.units + y.units) := ofUnits_mono (by omega)
  have hle := le_trans (same_ofUnits_units hx).1 hround
  rwa [le_iff, ← rank_add hx hy, ← le_iff] at hle

/-- Adding zero does not lower a number. -/
theorem le_add_zero {x : Binary64} (h : x ≠ nan) : x ≤ x + (0.0 : Binary64) := by
  rw [zero_eq]
  cases x with
  | nan => exact absurd rfl h
  | infinity s => exact le_refl_of_ne_nan h
  | finite s k =>
    exact le_add_of_nonneg rfl rfl (units_zero false).ge

theorem add_le_of_nonpos {x y : Binary64} (hx : x.isFinite = true) (hy : y.isFinite = true)
    (h : y.units ≤ 0) : x + y ≤ x := by
  have hround : ofUnits (x.units + y.units) ≤ ofUnits x.units := ofUnits_mono (by omega)
  have hle := le_trans hround (same_ofUnits_units hx).2
  rwa [le_iff, ← rank_add hx hy, ← le_iff] at hle

/-- Adding zero to the larger side of a comparison does not change it. -/
theorem le_add_zero_iff {x y : Binary64} : x ≤ y + (0.0 : Binary64) ↔ x ≤ y := by
  constructor
  · intro h
    have hsum := ne_nan_of_le_right h
    refine le_trans h ?_
    rw [zero_eq] at hsum ⊢
    cases y with
    | nan => exact absurd rfl hsum
    | infinity s => exact le_refl_of_ne_nan hsum
    | finite s k => exact add_le_of_nonpos rfl rfl (units_zero false).le
  · intro h
    exact le_trans h (le_add_zero (ne_nan_of_le_right h))

/-- An integer that is at most one past the finite magnitudes is rounded to a finite integer. -/
theorem isInteger_ofUnits {n : ℤ} (hdvd : (Grid.one : ℤ) ∣ n)
    (hbound : n.natAbs ≤ Grid.units (placeCount - 1) + Grid.one) : (ofUnits n).IsInteger := by
  have hplace : Grid.nearest n.natAbs 1 ≤ placeCount - 1 := by
    rw [← Grid.nearest_units_last_add_one]
    exact Grid.nearest_one_mono hbound
  have hlt : Grid.nearest n.natAbs 1 < placeCount := by
    have : 0 < placeCount := by decide
    omega
  have hgrid := Grid.one_dvd_units_nearest (Int.natCast_dvd.1 hdvd)
  have hfinite : ofUnits n = finite (n < 0) ⟨_, hlt⟩ := by
    rw [ofUnits, rounded, ofPlace, dif_pos hlt]
  rw [hfinite, isInteger_iff_dvd rfl, units_finite]
  split
  · exact (Int.dvd_neg).2 (Int.natCast_dvd_natCast.2 hgrid)
  · exact Int.natCast_dvd_natCast.2 hgrid

theorem natAbs_units_le {x : Binary64} (hx : x.isFinite = true) :
    x.units.natAbs ≤ Grid.units (placeCount - 1) := by
  rcases isFinite_iff.1 hx with ⟨s, k, rfl⟩
  have hk := k.isLt
  have hle : Grid.units k ≤ Grid.units (placeCount - 1) := Grid.units_le_iff.2 (by omega)
  rw [units_finite]
  split <;> omega

/-- An integer and one more or less of it add up to a finite integer. -/
theorem isInteger_add {x y : Binary64} (hx : x.IsInteger) (hy : y.IsInteger)
    (hone : y.units.natAbs ≤ Grid.one) : (x + y).IsInteger := by
  have hbound := natAbs_units_le hx.isFinite
  have hdvd := dvd_add ((isInteger_iff_dvd hx.isFinite).1 hx) ((isInteger_iff_dvd hy.isFinite).1 hy)
  rcases isFinite_iff.1 hx.isFinite with ⟨s, j, rfl⟩
  rcases isFinite_iff.1 hy.isFinite with ⟨t, k, rfl⟩
  by_cases hsum : (finite s j).units + (finite t k).units = 0
  · have hzero : finite s j + finite t k = zero (s && t) := by
      show add (finite s j) (finite t k) = _
      simp [add, hsum]
    rw [hzero]
    exact isInteger_zero _
  · rw [add_finite hsum]
    exact isInteger_ofUnits hdvd (by omega)

theorem isInteger_one : (1.0 : Binary64).IsInteger := by
  have hfinite : (1.0 : Binary64).isFinite = true := by rw [one_eq]; rfl
  rw [isInteger_iff_dvd hfinite, units_one]

/-- The step up from an integer leads to a finite integer, and not backwards. -/
theorem isInteger_add_one {x : Binary64} (hx : x.IsInteger) :
    (x + (1.0 : Binary64)).IsInteger ∧ x ≤ x + (1.0 : Binary64) := by
  have hone := units_one
  refine ⟨isInteger_add hx isInteger_one (by omega), ?_⟩
  exact le_add_of_nonneg hx.isFinite isInteger_one.isFinite (by omega)

/-- The step down from an integer leads to a finite integer, and not backwards. -/
theorem isInteger_sub_one {x : Binary64} (hx : x.IsInteger) :
    (x - (1.0 : Binary64)).IsInteger ∧ x - (1.0 : Binary64) ≤ x := by
  have hone : (-(1.0 : Binary64)).units = -Grid.one := by rw [units_neg, units_one]
  have hinteger : (-(1.0 : Binary64)).IsInteger := by
    rw [isInteger_iff_dvd (by rw [isFinite_neg, isInteger_one.isFinite]), hone]
    exact Int.dvd_neg.2 (dvd_refl _)
  rw [sub_eq_add_neg]
  refine ⟨isInteger_add hx hinteger (by omega), ?_⟩
  exact add_le_of_nonpos hx.isFinite hinteger.isFinite (by omega)

end Binary64

end BranchBound
