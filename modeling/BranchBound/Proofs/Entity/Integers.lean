import BranchBound.Object.Build
import BranchBound.Proofs.Binary64.Tolerance
import BranchBound.Proofs.Column.Agreement

/-!
# Integers next to a value

Next to a value an entity of the integer class has one point, the nearest integer, if some integer
is within the tolerance, and the floor and the ceiling if none is.  An entity of the binary class
has the same points, moved between zero and one.

A tolerance of one half or more leaves no value with two points, and below that the values with one
point alternate with those with two.  The points of a larger value are never smaller, wherever the
two values lie: what is beyond the tolerance of an integer stays on its side.

Main results:

- Theorem `Binary64.nearest_mono`: rounding to the nearest integer keeps the order.
- Theorem `Entity.integersAt_integerBracket`: which integers are next to a value.
- Theorem `Entity.integerBracket_mono`: larger values have no smaller points.
- Theorem `Object.bracket_steady`: the points of integer and of binary entities.
-/

namespace BranchBound

open Binary64

-- The number of units in one has 1075 bits and is never to be evaluated.
attribute [local irreducible] Grid.one

/-! ## The nearest integer -/

namespace Binary64

variable {v w x t : Binary64}

/-- No integer is nearer than the nearest one. -/
theorem abs_sub_nearest_le (hv : v.isFinite = true) (n : ℤ) :
    |v.toRat - v.nearest.toRat| ≤ |v.toRat - n| := by
  rcases nearest_exact hv with ⟨⟨-, m, hm⟩, hdist⟩
  by_contra hlt
  rw [not_le] at hlt
  rw [hm] at hdist hlt
  rw [eq_of_abs_sub_lt hdist (hlt.trans_le hdist)] at hlt
  exact hlt.false

/-- Rounding to the nearest integer keeps the order. -/
theorem nearest_mono (hv : v.isFinite = true) (hw : w.isFinite = true) (hle : v ≤ w) :
    v.nearest ≤ w.nearest := by
  rcases nearest_exact hv with ⟨⟨hv', m, hm⟩, hdist⟩
  rcases nearest_exact hw with ⟨⟨hw', n, hn⟩, hdist'⟩
  rw [le_iff_toRat hv hw] at hle
  rw [le_iff_toRat hv' hw', hm, hn, Int.cast_le]
  by_contra hlt
  -- numbers that are rounded in the opposite order are both the middle of two integers
  have hsucc : (n : ℚ) + 1 ≤ m := by exact_mod_cast not_le.1 hlt
  have hlow := (abs_le.1 (hm ▸ hdist)).1
  have hhigh := (abs_le.1 (hn ▸ hdist')).2
  have heq : v.toRat = w.toRat := by linarith
  rw [toRat_nearest_eq_iff hv, heq, ← toRat_nearest_eq_iff hw, hn] at hm
  rw [hm] at hsucc
  linarith

/-- An integer is its own nearest integer, a zero with its sign. -/
theorem nearest_of_isInteger (hx : x.IsInteger) : x.nearest = x := by
  rcases isFinite_iff.1 hx.isFinite with ⟨s, k, rfl⟩
  have hdvd : Grid.one ∣ Grid.units k := by
    have hunits := (isInteger_iff_dvd hx.isFinite).1 hx
    rwa [Int.natCast_dvd, units_finite, apply_ite Int.natAbs, Int.natAbs_neg, ite_self,
      Int.natAbs_natCast] at hunits
  rcases hdvd with ⟨m, hm⟩
  have hround : roundHalfEven (Grid.units k) Grid.one * Grid.one = Grid.units k := by
    rw [hm, Nat.mul_comm Grid.one m, roundHalfEven_mul_right m Grid.one_pos]
  rw [nearest, toIntegral, hround, rounded, Grid.nearest_units, ofPlace, dif_pos k.isLt]

/-- The computed distance to the nearest integer tells whether that integer is near. -/
theorem abs_sub_nearest_le_iff (hv : v.isFinite = true) (ht : (0.0 : Binary64) ≤ t) :
    (v - v.nearest).abs ≤ t ↔ t.Near v.toRat v.nearest.toRat := by
  rcases abs_sub_nearest_exact hv with ⟨hfinite, hdist, -⟩
  rw [le_tolerance_iff hfinite ht, hdist, Near]

/-- The nearest integer is near if some integer is. -/
theorem near_nearest_iff (hv : v.isFinite = true) :
    t.Near v.toRat v.nearest.toRat ↔ ∃ n : ℤ, t.Near v.toRat n := by
  constructor
  · intro h
    rcases (nearest_exact hv).1.2 with ⟨n, hn⟩
    exact ⟨n, hn ▸ h⟩
  · rintro ⟨n, hn⟩
    exact hn.mono (abs_sub_nearest_le hv n)

end Binary64

/-! ## Points of the integer class -/

/-- What the integers next to a finite value are, for a tolerance. -/
structure Interval.IntegersAt (points : Interval Binary64) (tolerance v : Binary64) : Prop where
  /-- The lower point is an integer. -/
  lower : points.lower.IsInteger
  /-- The upper point is an integer. -/
  upper : points.upper.IsInteger
  /-- They are in order. -/
  le : points.lower ≤ points.upper
  /-- They are at most one apart. -/
  le_add_one : points.upper.toRat ≤ points.lower.toRat + 1
  /-- They are one exactly if some integer is within the tolerance. -/
  same_iff : Same points.lower points.upper ↔ ∃ n : ℤ, tolerance.Near v.toRat n
  /-- In that case no integer is nearer. -/
  nearest : Same points.lower points.upper →
    ∀ n : ℤ, |v.toRat - points.lower.toRat| ≤ |v.toRat - n|
  /-- Otherwise the value is between them. -/
  between : points.lower < points.upper → points.lower < v ∧ v < points.upper
  /-- It is beyond the tolerance of either. -/
  far : points.lower < points.upper →
    ¬ tolerance.Near v.toRat points.lower.toRat ∧ ¬ tolerance.Near v.toRat points.upper.toRat

/-- Points next to a value are steady if each of them is the only point next to itself, and a larger
value has no smaller points. -/
structure Steady (points : Binary64 → Interval Binary64) : Prop where
  /-- The lower point is the only one next to itself. -/
  lower_fixed : ∀ v, v.isFinite = true →
    points (points v).lower = ⟨(points v).lower, (points v).lower⟩
  /-- The upper point is the only one next to itself. -/
  upper_fixed : ∀ v, v.isFinite = true →
    points (points v).upper = ⟨(points v).upper, (points v).upper⟩
  /-- The lower points keep the order. -/
  lower_mono : ∀ v w, v.isFinite = true → w.isFinite = true → v ≤ w →
    (points v).lower ≤ (points w).lower
  /-- The upper points keep the order. -/
  upper_mono : ∀ v w, v.isFinite = true → w.isFinite = true → v ≤ w →
    (points v).upper ≤ (points w).upper

namespace Entity

variable {tolerance v w x : Binary64}

theorem integerBracket_of_near (hv : v.isFinite = true) (htol : (0.0 : Binary64) ≤ tolerance)
    (hnear : ∃ n : ℤ, tolerance.Near v.toRat n) :
    integerBracket tolerance v = ⟨v.nearest, v.nearest⟩ :=
  if_pos ((abs_sub_nearest_le_iff hv htol).2 ((near_nearest_iff hv).2 hnear))

theorem integerBracket_of_not_near (hv : v.isFinite = true) (htol : (0.0 : Binary64) ≤ tolerance)
    (hfar : ¬ ∃ n : ℤ, tolerance.Near v.toRat n) :
    integerBracket tolerance v = ⟨v.floor, v.ceiling⟩ :=
  if_neg fun h => hfar ((near_nearest_iff hv).1 ((abs_sub_nearest_le_iff hv htol).1 h))

/-- Beyond the tolerance of all integers a value is between its floor and its ceiling. -/
theorem separates_of_not_near (hv : v.isFinite = true) (htol : (0.0 : Binary64) ≤ tolerance)
    (hfar : ¬ ∃ n : ℤ, tolerance.Near v.toRat n) :
    (⟨v.floor, v.ceiling⟩ : Interval Binary64).Separates v :=
  Column.separates_of_not_le htol hv fun h =>
    hfar ((near_nearest_iff hv).1 ((abs_sub_nearest_le_iff hv htol).1 h))

/-- Which integers are next to a value. -/
theorem integersAt_integerBracket (hv : v.isFinite = true) (htol : (0.0 : Binary64) ≤ tolerance) :
    (integerBracket tolerance v).IntegersAt tolerance v := by
  by_cases hnear : ∃ n : ℤ, tolerance.Near v.toRat n
  · rw [integerBracket_of_near hv htol hnear]
    have hint := (nearest_exact hv).1
    have hle := le_refl_of_ne_nan (ne_nan_of_isFinite hint.isFinite)
    have hnot : ¬ v.nearest < v.nearest := by
      rw [lt_iff_toRat hint.isFinite hint.isFinite]
      exact lt_irrefl _
    exact ⟨hint, hint, hle, by simp, iff_of_true ⟨hle, hle⟩ hnear,
      fun _ => abs_sub_nearest_le hv, fun h => absurd h hnot, fun h => absurd h hnot⟩
  · rw [integerBracket_of_not_near hv htol hnear]
    rcases separates_of_not_near hv htol hnear with ⟨hfloor, hceil, hfloor', hceil', hsucc⟩
    dsimp only at hfloor hceil hfloor' hceil'
    have hstep : (⌈v.toRat⌉ : ℚ) = ⌊v.toRat⌋ + 1 := by exact_mod_cast hsucc
    have hbelow := Int.lt_floor_add_one v.toRat
    have habove := Int.ceil_lt_add_one v.toRat
    refine ⟨⟨hfloor, _, hfloor'⟩, ⟨hceil, _, hceil'⟩, ?_, ?_, iff_of_false ?_ hnear, ?_, ?_, ?_⟩
    · rw [le_iff_toRat hfloor hceil, hfloor', hceil']
      linarith
    · rw [hfloor', hceil']
      exact hstep.le
    · rw [same_iff_toRat hfloor hceil, hfloor', hceil']
      linarith
    · rw [same_iff_toRat hfloor hceil, hfloor', hceil']
      intro heq
      linarith
    · intro _
      rw [lt_iff_toRat hfloor hv, lt_iff_toRat hv hceil, hfloor', hceil']
      constructor <;> linarith
    · intro _
      rw [hfloor', hceil']
      exact ⟨fun h => hnear ⟨_, h⟩, fun h => hnear ⟨_, h⟩⟩

/-- An integer is the only point next to itself. -/
theorem integerBracket_of_isInteger (hx : x.IsInteger) (htol : (0.0 : Binary64) ≤ tolerance) :
    integerBracket tolerance x = ⟨x, x⟩ := by
  have hnear := near_self htol x.toRat
  rcases hx.2 with ⟨n, hn⟩
  rw [integerBracket_of_near hx.isFinite htol ⟨n, hn ▸ hnear⟩, nearest_of_isInteger hx]

/-- Larger values have no smaller points. -/
theorem integerBracket_mono (hv : v.isFinite = true) (hw : w.isFinite = true)
    (htol : (0.0 : Binary64) ≤ tolerance) (hle : v ≤ w) :
    (integerBracket tolerance v).lower ≤ (integerBracket tolerance w).lower ∧
      (integerBracket tolerance v).upper ≤ (integerBracket tolerance w).upper := by
  have hle' := (le_iff_toRat hv hw).1 hle
  rcases floor_exact hv with ⟨hfloor, hfloor'⟩
  rcases floor_exact hw with ⟨hfloorw, hfloorw'⟩
  rcases ceiling_exact hv with ⟨hceil, hceil'⟩
  rcases ceiling_exact hw with ⟨hceilw, hceilw'⟩
  rcases (nearest_exact hv).1 with ⟨hnearv, m, hm⟩
  rcases (nearest_exact hw).1 with ⟨hnearw, n, hn⟩
  by_cases hnear : ∃ n : ℤ, tolerance.Near v.toRat n <;>
    by_cases hnear' : ∃ n : ℤ, tolerance.Near w.toRat n
  · rw [integerBracket_of_near hv htol hnear, integerBracket_of_near hw htol hnear']
    have hmono := nearest_mono hv hw hle
    exact ⟨hmono, hmono⟩
  · -- the larger value is beyond the integer that the smaller one is near
    rw [integerBracket_of_near hv htol hnear, integerBracket_of_not_near hw htol hnear']
    have hclose := (near_nearest_iff hv).2 hnear
    rw [hm] at hclose
    have hside : (m : ℚ) ≤ w.toRat := hclose.le_of_not_near (fun h => hnear' ⟨m, h⟩) hle'
    have hbelow : m ≤ ⌊w.toRat⌋ := Int.le_floor.2 hside
    have habove : m ≤ ⌈w.toRat⌉ := hbelow.trans (Int.floor_le_ceil _)
    rw [le_iff_toRat hnearv hfloorw, le_iff_toRat hnearv hceilw, hm, hfloorw', hceilw']
    exact ⟨by exact_mod_cast hbelow, by exact_mod_cast habove⟩
  · -- the smaller value is before the integer that the larger one is near
    rw [integerBracket_of_not_near hv htol hnear, integerBracket_of_near hw htol hnear']
    have hclose := (near_nearest_iff hw).2 hnear'
    rw [hn] at hclose
    have hside : v.toRat ≤ n := hclose.ge_of_not_near (fun h => hnear ⟨n, h⟩) hle'
    have habove : ⌈v.toRat⌉ ≤ n := Int.ceil_le.2 hside
    have hbelow : ⌊v.toRat⌋ ≤ n := (Int.floor_le_ceil _).trans habove
    rw [le_iff_toRat hfloor hnearw, le_iff_toRat hceil hnearw, hn, hfloor', hceil']
    exact ⟨by exact_mod_cast hbelow, by exact_mod_cast habove⟩
  · rw [integerBracket_of_not_near hv htol hnear, integerBracket_of_not_near hw htol hnear',
      le_iff_toRat hfloor hfloorw, le_iff_toRat hceil hceilw, hfloor', hfloorw', hceil', hceilw']
    exact ⟨by exact_mod_cast Int.floor_mono hle', by exact_mod_cast Int.ceil_mono hle'⟩

/-- The points of the integer class are steady. -/
theorem steady_integerBracket (htol : (0.0 : Binary64) ≤ tolerance) :
    Steady (integerBracket tolerance) where
  lower_fixed _ hv := integerBracket_of_isInteger (integersAt_integerBracket hv htol).lower htol
  upper_fixed _ hv := integerBracket_of_isInteger (integersAt_integerBracket hv htol).upper htol
  lower_mono _ _ hv hw hle := (integerBracket_mono hv hw htol hle).1
  upper_mono _ _ hv hw hle := (integerBracket_mono hv hw htol hle).2

end Entity

/-! ## Points of the binary class -/

/-- A range with both ends moved between zero and one. -/
def Interval.toUnit (i : Interval Binary64) : Interval Binary64 :=
  ⟨clamp 0.0 1.0 i.lower, clamp 0.0 1.0 i.upper⟩

theorem Interval.toUnit_lower (i : Interval Binary64) :
    i.toUnit.lower = clamp 0.0 1.0 i.lower := by
  rw [toUnit]

theorem Interval.toUnit_upper (i : Interval Binary64) :
    i.toUnit.upper = clamp 0.0 1.0 i.upper := by
  rw [toUnit]

/-- Whether a number is zero or one. -/
def Binary64.IsBit (x : Binary64) : Prop := Same x 0.0 ∨ Same x 1.0

/-- A number of a range is moved nowhere. -/
theorem clamp_eq_self {low high x : Binary64} (hlow : low ≤ x) (hhigh : x ≤ high) :
    clamp low high x = x := by
  have hx := ne_nan_of_le_right hlow
  rw [clamp, greater, if_neg ((not_lt_iff hx (ne_nan_of_le_left hlow)).2 hlow), lesser,
    if_neg ((not_lt_iff (ne_nan_of_le_right hhigh) hx).2 hhigh)]

/-- Moving finite numbers between zero and one keeps their order. -/
theorem clamp_unit_mono {x y : Binary64} (hx : x.isFinite = true) (hy : y.isFinite = true)
    (hle : x ≤ y) :
    clamp (0.0 : Binary64) (1.0 : Binary64) x ≤ clamp (0.0 : Binary64) (1.0 : Binary64) y := by
  rcases toRat_clamp_unit hx with ⟨hx', hx''⟩
  rcases toRat_clamp_unit hy with ⟨hy', hy''⟩
  rw [le_iff_toRat hx' hy', hx'', hy'']
  exact min_le_min_right _ (max_le_max_right _ ((le_iff_toRat hx hy).1 hle))

namespace Binary64.IsInteger

variable {x : Binary64}

/-- An integer is moved to zero or one. -/
theorem isBit_clamp_unit (hx : x.IsInteger) :
    (clamp (0.0 : Binary64) (1.0 : Binary64) x).IsBit := by
  rcases toRat_clamp_unit hx.isFinite with ⟨hfinite, hvalue⟩
  rcases hx.2 with ⟨n, hn⟩
  have hbit : min (max n 0) 1 = 0 ∨ min (max n 0) 1 = 1 := by omega
  rw [IsBit, same_iff_toRat hfinite toRat_zero.1, same_iff_toRat hfinite toRat_one.1, hvalue, hn,
    toRat_zero.2, toRat_one.2]
  exact_mod_cast hbit

/-- Moved between zero and one, an integer is the only binary point next to itself. -/
theorem toUnit_integerBracket {tolerance : Binary64} (hx : x.IsInteger)
    (htol : (0.0 : Binary64) ≤ tolerance) :
    (Entity.integerBracket tolerance (clamp (0.0 : Binary64) (1.0 : Binary64) x)).toUnit =
      ⟨clamp 0.0 1.0 x, clamp 0.0 1.0 x⟩ := by
  have hunit : (0.0 : Binary64) ≤ (1.0 : Binary64) := by
    rw [le_iff_toRat toRat_zero.1 toRat_one.1, toRat_zero.2, toRat_one.2]
    exact zero_le_one
  rcases clamp_mem hunit (ne_nan_of_isFinite hx.isFinite) with ⟨hlow, hhigh⟩
  have hint : (clamp (0.0 : Binary64) (1.0 : Binary64) x).IsInteger := by
    rcases toRat_clamp_unit hx.isFinite with ⟨hfinite, hvalue⟩
    rcases hx.2 with ⟨n, hn⟩
    refine ⟨hfinite, min (max n 0) 1, ?_⟩
    rw [hvalue, hn]
    push_cast
    rfl
  rw [Entity.integerBracket_of_isInteger hint htol, Interval.toUnit, clamp_eq_self hlow hhigh]

end Binary64.IsInteger

/-- The points of the binary class are steady. -/
theorem Entity.steady_toUnit {tolerance : Binary64} (htol : (0.0 : Binary64) ≤ tolerance) :
    Steady fun v => (integerBracket tolerance v).toUnit := by
  have hpoints : ∀ v : Binary64, v.isFinite = true →
      (integerBracket tolerance v).IntegersAt tolerance v :=
    fun v hv => integersAt_integerBracket hv htol
  constructor
  · intro v hv
    rw [Interval.toUnit_lower]
    exact (hpoints v hv).lower.toUnit_integerBracket htol
  · intro v hv
    rw [Interval.toUnit_upper]
    exact (hpoints v hv).upper.toUnit_integerBracket htol
  · intro v w hv hw hle
    rw [Interval.toUnit_lower, Interval.toUnit_lower]
    exact clamp_unit_mono (hpoints v hv).lower.isFinite (hpoints w hw).lower.isFinite
      (integerBracket_mono hv hw htol hle).1
  · intro v w hv hw hle
    rw [Interval.toUnit_upper, Interval.toUnit_upper]
    exact clamp_unit_mono (hpoints v hv).upper.isFinite (hpoints w hw).upper.isFinite
      (integerBracket_mono hv hw htol hle).2

namespace Object

theorem bracket_real {o : Object} (hclass : o.header.integrality ≠ .continuous)
    (tolerance v : Binary64) :
    o.bracket (.real v) (.real tolerance) = .ok (o.header.bracket tolerance v) := by
  simp only [bracket, Datum.toReal_real, if_neg hclass, bind, Except.bind]
  rfl

/-- With a tolerance, every entity of the integer class has the same integers next to a value, one
if some integer is within the tolerance and two otherwise, and every entity of the binary class has
these integers moved to zero or one.  Both are steady. -/
theorem bracket_steady {tolerance : Binary64} (htol : (0.0 : Binary64) ≤ tolerance) :
    ∃ integers : Binary64 → Interval Binary64,
      (∀ (o : Object) v, o.header.integrality = .integer →
        o.bracket (.real v) (.real tolerance) = .ok (integers v)) ∧
      (∀ (o : Object) v, o.header.integrality = .binary →
        o.bracket (.real v) (.real tolerance) = .ok (integers v).toUnit) ∧
      (∀ v, v.isFinite = true → (integers v).IntegersAt tolerance v ∧
        (integers v).toUnit.lower.IsBit ∧ (integers v).toUnit.upper.IsBit) ∧
      Steady integers ∧ Steady fun v => (integers v).toUnit := by
  refine ⟨Entity.integerBracket tolerance, ?_, ?_, ?_, Entity.steady_integerBracket htol,
    Entity.steady_toUnit htol⟩
  · intro o v hclass
    rw [bracket_real (by rw [hclass]; decide)]
    simp only [Entity.bracket, hclass]
  · intro o v hclass
    rw [bracket_real (by rw [hclass]; decide)]
    simp only [Entity.bracket, hclass]
    rfl
  · intro v hv
    have hpoints := Entity.integersAt_integerBracket hv htol
    rw [Interval.toUnit_lower, Interval.toUnit_upper]
    exact ⟨hpoints, hpoints.lower.isBit_clamp_unit, hpoints.upper.isBit_clamp_unit⟩

/-- With a tolerance of one half every value has one integer next to it, also the middle of two. -/
theorem bracket_steady_half :
    ∃ integers : Binary64 → Interval Binary64,
      (entity { Fields.plain with integrality := .integer }).bracket (.real 2.5) (.real 0.5) =
          .ok (integers 2.5) ∧
        (integers 2.5).IntegersAt 0.5 2.5 ∧ Steady integers := by
  have hnonneg : (0.0 : Binary64) ≤ 0.5 := by decide +kernel
  have hfinite : (2.5 : Binary64).isFinite = true := by decide +kernel
  rcases bracket_steady hnonneg with ⟨integers, hinteger, -, hpoints, hsteady, -⟩
  exact ⟨integers, hinteger _ _ rfl, (hpoints _ hfinite).1, hsteady⟩

end Object

end BranchBound
