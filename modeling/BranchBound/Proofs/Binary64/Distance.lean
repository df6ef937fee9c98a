import BranchBound.Proofs.Binary64.Value

/-!
# Exact differences and products

A difference of doubles is rounded once.  Nothing is lost, though, if one of the two is an integer
and the other at most one half away from it: the digits that such a double has after the point are
no more than it has in all, and the difference needs no others.  A product with one or minus one is
exact as well.

Main results:

- Theorem `Grid.exists_units_eq_gap`: the gap between a magnitude and a near integer is on the
  grid.
- Theorems `Binary64.sub_integer_exact` and `Binary64.integer_sub_exact`: differences from a near
  integer are exact.
- Theorem `Binary64.le_add_of_le_toRat`: a rounded sum stays on the side of every double on which
  the exact sum is.
- Theorems `Binary64.mul_one_exact` and `Binary64.mul_neg_one_exact`: products with one and minus
  one.
- Theorem `Binary64.abs_sub_nearest_exact`: the distance to the nearest integer is exact.
-/

namespace BranchBound

-- The number of units in one has 1075 bits and is never to be evaluated.
attribute [local irreducible] Grid.one

namespace Grid

theorem significand_lt (place : Nat) : significand place < 2 * step := by
  by_cases h : step ≤ place
  · exact (significand_bounds h).2
  · have hsplit := exponent_mul_add_significand place
    omega

theorem lt_placeCount_of_units_le_one {place : Nat} (h : units place ≤ one) :
    place < placeCount := by
  rw [← units_eq_one, units_le_iff] at h
  have hsteps : 1023 * step < placeCount := by decide
  omega

/-- From one half on the exponent of a magnitude is almost that of one. -/
theorem exponent_of_one_le {place : Nat} (h : one ≤ 2 * units place) :
    1021 ≤ exponent place := by
  have hsig := significand_lt place
  have hpow : 2 ^ oneExponent < 2 ^ (54 + exponent place) := by
    calc 2 ^ oneExponent = one := one_eq_two_pow.symm
      _ ≤ 2 * (significand place * 2 ^ exponent place) := by rwa [← units_eq_mul_two_pow]
      _ < 2 * (2 * step * 2 ^ exponent place) := by
        have hpos := Nat.two_pow_pos (exponent place)
        nlinarith
      _ = 2 ^ (54 + exponent place) := by
        rw [step_eq_two_pow, Nat.pow_add]
        ring
  have hlt := (Nat.pow_lt_pow_iff_right (by decide)).1 hpow
  unfold oneExponent at hlt
  omega

/-- The gap between a magnitude, with its sign, and an integer at most one half away is a
magnitude. -/
theorem exists_units_eq_gap {place : Nat} {u n : ℤ} (hu : u.natAbs = units place)
    (hgap : 2 * (u - n * (one : ℤ)).natAbs ≤ one) :
    ∃ k < placeCount, units k = (u - n * (one : ℤ)).natAbs := by
  suffices hgrid : ∃ k, units k = (u - n * (one : ℤ)).natAbs by
    rcases hgrid with ⟨k, hk⟩
    exact ⟨k, lt_placeCount_of_units_le_one (by omega), hk⟩
  by_cases hn : n = 0
  · exact ⟨place, by simp [hn, hu]⟩
  · -- the magnitude is one half at least, so that it has few digits after the point
    have hwhole : one ≤ (n * (one : ℤ)).natAbs := by
      rw [Int.natAbs_mul, Int.natAbs_natCast]
      exact Nat.le_mul_of_pos_left one (Int.natAbs_pos.2 hn)
    have hexp : 1021 ≤ exponent place := exponent_of_one_le (by omega)
    have hdvd : ((2 ^ exponent place : ℕ) : ℤ) ∣ u := by
      rw [Int.natCast_dvd, hu, units_eq_mul_two_pow]
      exact Nat.dvd_mul_left _ _
    by_cases hint : oneExponent ≤ exponent place
    · have hone : (one : ℤ) ∣ u := by
        refine dvd_trans ?_ hdvd
        rw [one_eq_two_pow]
        exact Int.natCast_dvd_natCast.2 (Nat.pow_dvd_pow 2 hint)
      have hmultiple := Int.natCast_dvd.1 (dvd_sub hone (dvd_mul_left (one : ℤ) n))
      have hpos := one_pos
      have hzero := Nat.eq_zero_of_dvd_of_lt hmultiple (by omega)
      exact ⟨0, by rw [hzero, units_zero]⟩
    · have hone : ((2 ^ exponent place : ℕ) : ℤ) ∣ (one : ℤ) := by
        rw [one_eq_two_pow]
        exact Int.natCast_dvd_natCast.2 (Nat.pow_dvd_pow 2 (by omega))
      rcases Int.natCast_dvd.1 (dvd_sub hdvd (Dvd.dvd.mul_left hone n)) with ⟨m, hm⟩
      have hsmall : m < 2 * step := by
        have hscaled : 2 * (2 ^ exponent place * m) ≤ 2 ^ exponent place * (2 * step) := by
          calc 2 * (2 ^ exponent place * m) ≤ one := by rw [← hm]; exact hgap
            _ = 2 ^ oneExponent := one_eq_two_pow
            _ ≤ 2 ^ (exponent place + 53) := by
              refine Nat.pow_le_pow_right (by decide) ?_
              unfold oneExponent
              omega
            _ = 2 ^ exponent place * (2 * step) := by
              rw [Nat.pow_add, step_eq_two_pow, ← Nat.pow_succ']
        have hle := Nat.le_of_mul_le_mul_left
          (show 2 ^ exponent place * (2 * m) ≤ 2 ^ exponent place * (2 * step) by
            rw [Nat.mul_left_comm]; exact hscaled) (Nat.two_pow_pos _)
        have hpos := step_pos
        omega
      rcases exists_units_eq_mul_two_pow hsmall (exponent place) with ⟨k, hk⟩
      exact ⟨k, by rw [hk, hm, Nat.mul_comm]⟩

end Grid

namespace Binary64

/-! ## Exact sums -/

/-- A sum whose exact magnitude is on the grid is exact. -/
theorem add_exact {x y : Binary64} (hx : x.isFinite = true) (hy : y.isFinite = true) {k : Nat}
    (hk : k < placeCount) (hsum : Grid.units k = (x.units + y.units).natAbs) :
    (x + y).isFinite = true ∧ (x + y).toRat = x.toRat + y.toRat := by
  suffices hunits : (x + y).isFinite = true ∧ (x + y).units = x.units + y.units by
    refine ⟨hunits.1, ?_⟩
    rw [toRat, toRat, toRat, hunits.2]
    push_cast
    ring
  rcases isFinite_iff.1 hx with ⟨s, i, rfl⟩
  rcases isFinite_iff.1 hy with ⟨t, j, rfl⟩
  by_cases hzero : (finite s i).units + (finite t j).units = 0
  · have hadd : finite s i + finite t j = zero (s && t) := by
      show add (finite s i) (finite t j) = _
      simp [add, hzero]
    rw [hadd, hzero]
    exact ⟨rfl, units_zero _⟩
  · have hround : ofUnits ((finite s i).units + (finite t j).units) =
        finite ((finite s i).units + (finite t j).units < 0) ⟨k, hk⟩ := by
      rw [ofUnits, rounded, ← hsum, Grid.nearest_units, ofPlace, dif_pos hk]
    have hplace : Grid.units (⟨k, hk⟩ : Fin placeCount) = Grid.units k := rfl
    rw [add_finite hzero, hround]
    refine ⟨rfl, ?_⟩
    by_cases hneg : (finite s i).units + (finite t j).units < 0
    · rw [decide_eq_true hneg, units_finite true, if_pos rfl]
      omega
    · rw [decide_eq_false hneg, units_finite false, if_neg Bool.false_ne_true]
      omega

/-- Distances in units and in numbers. -/
theorem two_mul_natAbs_le_iff {x y : Binary64} :
    2 * (x.units - y.units).natAbs ≤ Grid.one ↔ |x.toRat - y.toRat| ≤ 1 / 2 := by
  have hpos := one_cast_pos
  have hdist : |x.toRat - y.toRat| = ((x.units - y.units).natAbs : ℤ) / ((Grid.one : ℤ) : ℚ) := by
    rw [toRat, toRat, ← sub_div, abs_div, abs_of_pos hpos, Int.natCast_natAbs]
    push_cast
    rfl
  have hscale : 2 * (x.units - y.units).natAbs ≤ Grid.one ↔
      (2 : ℤ) * ((x.units - y.units).natAbs : ℤ) ≤ (Grid.one : ℤ) := by
    omega
  rw [hdist, div_le_iff₀ hpos, hscale, ← @Int.cast_le ℚ, Int.cast_mul, Int.cast_ofNat]
  constructor
  · intro h
    linarith
  · intro h
    linarith

theorem exists_gap {x y : Binary64} (hx : x.isFinite = true) (hy : y.IsInteger)
    (h : |x.toRat - y.toRat| ≤ 1 / 2) :
    ∃ k < placeCount, Grid.units k = (x.units - y.units).natAbs := by
  rcases isFinite_iff.1 hx with ⟨s, i, rfl⟩
  rcases hy.2 with ⟨n, hn⟩
  have hgap := two_mul_natAbs_le_iff.2 h
  rw [toRat_eq_intCast_iff.1 hn] at hgap ⊢
  have hplace : (finite s i).units.natAbs = Grid.units i := by
    rw [units_finite]
    split <;> simp
  exact Grid.exists_units_eq_gap hplace hgap

/-- An integer at most one half away is subtracted exactly. -/
theorem sub_integer_exact {x y : Binary64} (hx : x.isFinite = true) (hy : y.IsInteger)
    (h : |x.toRat - y.toRat| ≤ 1 / 2) :
    (x - y).isFinite = true ∧ (x - y).toRat = x.toRat - y.toRat := by
  rcases exists_gap hx hy h with ⟨k, hk, hgap⟩
  have hneg : (-y).isFinite = true := by rw [isFinite_neg, hy.isFinite]
  have hsum := add_exact hx hneg hk (by rw [units_neg]; exact hgap)
  rw [toRat_neg, ← sub_eq_add_neg] at hsum
  exact ⟨hsum.1, by linarith only [hsum.2]⟩

/-- From an integer at most one half away it is subtracted exactly. -/
theorem integer_sub_exact {x y : Binary64} (hx : x.isFinite = true) (hy : y.IsInteger)
    (h : |x.toRat - y.toRat| ≤ 1 / 2) :
    (y - x).isFinite = true ∧ (y - x).toRat = y.toRat - x.toRat := by
  rcases exists_gap hx hy h with ⟨k, hk, hgap⟩
  have hneg : (-x).isFinite = true := by rw [isFinite_neg, hx]
  have hsum := add_exact hy.isFinite hneg hk (by rw [units_neg, hgap]; omega)
  rw [toRat_neg, ← sub_eq_add_neg] at hsum
  exact ⟨hsum.1, by linarith only [hsum.2]⟩

/-! ## Rounded sums -/

/-- A rounded sum is at or above every double that the exact sum is at or above. -/
theorem le_add_of_le_toRat {x y z : Binary64} (hx : x.isFinite = true) (hy : y.isFinite = true)
    (hz : z.isFinite = true) (h : z.toRat ≤ x.toRat + y.toRat) : z ≤ x + y := by
  have hunits : z.units ≤ x.units + y.units := by
    have hpos := one_cast_pos
    rw [toRat, toRat, toRat, ← add_div, div_le_div_iff_of_pos_right hpos] at h
    exact_mod_cast h
  have hle := le_trans (same_ofUnits_units hz).1 (ofUnits_mono hunits)
  rwa [le_iff, ← rank_add hx hy, ← le_iff] at hle

theorem le_sub_of_le_toRat {x y z : Binary64} (hx : x.isFinite = true) (hy : y.isFinite = true)
    (hz : z.isFinite = true) (h : z.toRat ≤ x.toRat - y.toRat) : z ≤ x - y := by
  have hneg : (-y).isFinite = true := by rw [isFinite_neg, hy]
  rw [sub_eq_add_neg]
  refine le_add_of_le_toRat hx hneg hz ?_
  rw [toRat_neg]
  linarith

/-- A rounded difference is at or below every double that the exact difference is at or below. -/
theorem sub_le_of_toRat_le {x y z : Binary64} (hx : x.isFinite = true) (hy : y.isFinite = true)
    (hz : z.isFinite = true) (h : x.toRat - y.toRat ≤ z.toRat) : x - y ≤ z := by
  have hneg : (-y).isFinite = true := by rw [isFinite_neg, hy]
  have hunits : x.units + (-y).units ≤ z.units := by
    have hpos := one_cast_pos
    rw [units_neg]
    rw [toRat, toRat, toRat, ← sub_div, div_le_div_iff_of_pos_right hpos] at h
    exact_mod_cast h
  have hle := le_trans (ofUnits_mono hunits) (same_ofUnits_units hz).2
  rwa [sub_eq_add_neg, le_iff, rank_add hx hneg, ← le_iff]

/-! ## Products -/

theorem rounded_of_lt (s : Bool) {num den : Nat} (h : Grid.nearest num den < placeCount) :
    rounded s num den = finite s ⟨Grid.nearest num den, h⟩ := by
  rw [rounded, ofPlace, dif_pos h]

theorem mul_finite (s t : Bool) (j k : Fin placeCount) :
    finite s j * finite t k = rounded (s ^^ t) (Grid.units j * Grid.units k) Grid.one := by
  show mul (finite s j) (finite t k) = _
  rw [mul]

/-- A product with one is exact. -/
theorem mul_one_exact {x : Binary64} (hx : x.isFinite = true) : x * (1.0 : Binary64) = x := by
  rcases isFinite_iff.1 hx with ⟨s, k, rfl⟩
  have hone : Grid.units (⟨1023 * Grid.step, by decide⟩ : Fin placeCount) = Grid.one :=
    Grid.units_eq_one
  have hplace : Grid.nearest (Grid.units k * Grid.one) Grid.one = k :=
    (Grid.nearest_le_of_le Grid.one_pos le_rfl).antisymm
      (Grid.le_nearest_of_le Grid.one_pos le_rfl)
  rw [one_eq, mul_finite, hone, rounded, hplace, ofPlace, dif_pos k.isLt, Bool.xor_false]

/-- A product with minus one is exact. -/
theorem mul_neg_one_exact {x : Binary64} (hx : x.isFinite = true) : x * (-1.0 : Binary64) = -x := by
  rcases isFinite_iff.1 hx with ⟨s, k, rfl⟩
  have hproduct : finite s k * -(1.0 : Binary64) = -(finite s k * (1.0 : Binary64)) := by
    have hneg : -finite false ⟨1023 * Grid.step, by decide⟩ =
        finite true ⟨1023 * Grid.step, by decide⟩ := rfl
    rw [one_eq, hneg, mul_finite, mul_finite, neg_rounded, Bool.xor_true, Bool.xor_false]
  rw [hproduct, mul_one_exact rfl]

/-! ## Magnitudes -/

theorem toRat_abs {x : Binary64} (hx : x.isFinite = true) :
    x.abs.isFinite = true ∧ x.abs.toRat = |x.toRat| := by
  rcases isFinite_iff.1 hx with ⟨s, k, rfl⟩
  have hnonneg : 0 ≤ (finite false k).toRat := by
    have hunits : (0 : ℤ) ≤ (finite false k).units := by simp [units_finite]
    exact div_nonneg (by exact_mod_cast hunits) one_cast_pos.le
  refine ⟨rfl, ?_⟩
  cases s with
  | false => exact (abs_of_nonneg hnonneg).symm
  | true =>
    have hmirror : (finite true k).toRat = -(finite false k).toRat := toRat_neg (finite false k)
    rw [hmirror, abs_neg, abs_of_nonneg hnonneg]
    rfl

/-- Two finite doubles of one value are equal, zeros apart. -/
theorem eq_of_toRat_eq {x y : Binary64} (hx : x.isFinite = true) (hy : y.isFinite = true)
    (h : x.toRat = y.toRat) (hne : x.toRat ≠ 0) : x = y := by
  have hunits : x.units = y.units := by
    have hpos := one_cast_pos.ne'
    rw [toRat, toRat, div_left_inj' hpos] at h
    exact_mod_cast h
  have hne' : x.units ≠ 0 := by
    intro hzero
    simp [toRat, hzero] at hne
  rcases isFinite_iff.1 hx with ⟨s, i, rfl⟩
  rcases isFinite_iff.1 hy with ⟨t, j, rfl⟩
  rw [units_finite] at hne'
  rw [units_finite, units_finite] at hunits
  have hplace : Grid.units i = Grid.units j ∧ s = t := by
    cases s <;> cases t <;> simp at hunits hne' ⊢ <;> omega
  rw [Fin.ext (Grid.units_inj.1 hplace.1), hplace.2]

/-- A finite double apart from the zeros has no other double of its rank. -/
theorem eq_of_le_of_le {x y : Binary64} (hx : x.isFinite = true) (hne : x.toRat ≠ 0)
    (hxy : x ≤ y) (hyx : y ≤ x) : y = x := by
  cases y with
  | nan => exact absurd hxy (not_le_nan x)
  | infinity s =>
    cases s with
    | false => exact (eq_infinity_false_of_le hyx).symm
    | true => exact (eq_infinity_true_of_le hxy).symm
  | finite s k =>
    have hle := (le_iff_toRat hx rfl).1 hxy
    have hge := (le_iff_toRat rfl hx).1 hyx
    exact (eq_of_toRat_eq hx rfl (le_antisymm hle hge) hne).symm

/-- The double that is written `0.5`. -/
theorem half_eq : (0.5 : Binary64) = finite false ⟨Grid.halfPlace, by decide⟩ := by decide +kernel

theorem toRat_half : (0.5 : Binary64).isFinite = true ∧ (0.5 : Binary64).toRat = 1 / 2 := by
  have hpos := one_cast_pos
  have hcast : ((Grid.units Grid.halfPlace : ℤ) : ℚ) * 2 = 1 * ((Grid.one : ℤ) : ℚ) := by
    rw [mul_comm, one_mul]
    exact_mod_cast Grid.two_mul_units_halfPlace
  rw [half_eq]
  refine ⟨rfl, ?_⟩
  rw [toRat, units_finite, if_neg Bool.false_ne_true, div_eq_div_iff hpos.ne' two_ne_zero]
  exact hcast

/-! ## Distances to the nearest integer -/

/-- The distance to the nearest integer is exact, and at most one half. -/
theorem abs_sub_nearest_exact {x : Binary64} (hx : x.isFinite = true) :
    (x - x.nearest).abs.isFinite = true ∧
      (x - x.nearest).abs.toRat = |x.toRat - x.nearest.toRat| ∧
      (x - x.nearest).abs ≤ (0.5 : Binary64) := by
  rcases nearest_exact hx with ⟨hint, hdist⟩
  rcases sub_integer_exact hx hint hdist with ⟨hfinite, hvalue⟩
  rcases toRat_abs hfinite with ⟨hfinite', hvalue'⟩
  rw [hvalue] at hvalue'
  refine ⟨hfinite', hvalue', ?_⟩
  rwa [le_iff_toRat hfinite' toRat_half.1, hvalue', toRat_half.2]

/-- The nearest integer to a number is no further from it than zero is. -/
theorem abs_sub_nearest_le_abs {x : Binary64} (hx : x.isFinite = true) :
    (x - x.nearest).abs ≤ x.abs := by
  rcases nearest_exact hx with ⟨⟨-, n, hn⟩, hdist⟩
  rcases abs_sub_nearest_exact hx with ⟨hfinite, hvalue, -⟩
  rcases toRat_abs hx with ⟨hfinite', hvalue'⟩
  rw [le_iff_toRat hfinite hfinite', hvalue, hvalue']
  rw [hn] at hdist ⊢
  rcases eq_or_ne n 0 with rfl | hne
  · rw [Int.cast_zero, sub_zero]
  · -- another integer is at least one away from zero, and so the number at least one half
    have hone : (1 : ℚ) ≤ |(n : ℚ)| := by exact_mod_cast Int.one_le_abs hne
    have htriangle : |(n : ℚ)| ≤ |x.toRat| + |x.toRat - n| := by
      have hsplit := abs_sub x.toRat (x.toRat - n)
      rwa [sub_sub_cancel] at hsplit
    linarith

end Binary64

end BranchBound
