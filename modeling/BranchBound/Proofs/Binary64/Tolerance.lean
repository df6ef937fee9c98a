import BranchBound.Proofs.Binary64.Distance

/-!
# Tolerances

A tolerance is a number of zero or more; an infinite one admits every distance.  Two numbers are
near if they are at most a tolerance apart, which is said of the exact distance.  A bound that is
moved outwards by a tolerance is rounded, but never moved inwards by that.

Main results:

- Theorem `Binary64.le_tolerance_iff`: how a finite number compares with a tolerance.
- Theorem `Binary64.Near.mono`: closer numbers are near as well.
- Theorems `Binary64.sub_le_self` and `Binary64.le_add_self`: a bound that is moved by a tolerance.
-/

namespace BranchBound

-- The number of units in one has 1075 bits and is never to be evaluated.
attribute [local irreducible] Grid.one

namespace Binary64

/-! ## Numbers near each other -/

theorem tolerance_cases {t : Binary64} (ht : (0.0 : Binary64) ≤ t) :
    t = infinity false ∨ t.isFinite = true ∧ 0 ≤ t.units := by
  cases t with
  | nan => exact absurd ht (not_le_nan _)
  | infinity s =>
    cases s with
    | false => exact Or.inl rfl
    | true => exact absurd ht (by decide +kernel)
  | finite s k =>
    right
    rw [zero_eq, le_iff_units rfl rfl, units_finite, if_neg Bool.false_ne_true,
      Grid.units_zero] at ht
    exact ⟨rfl, ht⟩

/-- How a finite number compares with a tolerance. -/
theorem le_tolerance_iff {x t : Binary64} (hx : x.isFinite = true) (ht : (0.0 : Binary64) ≤ t) :
    x ≤ t ↔ t = infinity false ∨ x.toRat ≤ t.toRat := by
  rcases tolerance_cases ht with rfl | ⟨hfinite, -⟩
  · exact iff_of_true (le_infinity_false (ne_nan_of_isFinite hx)) (Or.inl rfl)
  · rw [le_iff_toRat hx hfinite]
    refine ⟨Or.inr, ?_⟩
    rintro (rfl | h)
    · exact absurd hfinite Bool.false_ne_true
    · exact h

/-- Whether two numbers are at most a tolerance apart, without rounding. -/
def Near (t : Binary64) (p q : ℚ) : Prop := t = infinity false ∨ |p - q| ≤ t.toRat

/-- A number is near itself. -/
theorem near_self {t : Binary64} (ht : (0.0 : Binary64) ≤ t) (q : ℚ) : t.Near q q := by
  rcases tolerance_cases ht with rfl | ⟨-, hnonneg⟩
  · exact Or.inl rfl
  · right
    rw [sub_self, abs_zero]
    exact div_nonneg (by exact_mod_cast hnonneg) one_cast_pos.le

/-- Closer numbers are near as well. -/
theorem Near.mono {t : Binary64} {p q p' q' : ℚ} (h : t.Near p q) (hle : |p' - q'| ≤ |p - q|) :
    t.Near p' q' :=
  h.imp_right hle.trans

/-- A number above one that is near a point, and itself not near it, is above the point. -/
theorem Near.le_of_not_near {t : Binary64} {p q n : ℚ} (h : t.Near p n) (hfar : ¬ t.Near q n)
    (hle : p ≤ q) : n ≤ q := by
  by_contra hlt
  rw [not_le] at hlt
  refine hfar (h.mono ?_)
  rw [abs_sub_comm q, abs_sub_comm p, abs_of_pos (sub_pos.2 hlt),
    abs_of_pos (sub_pos.2 (hle.trans_lt hlt))]
  linarith

/-- A number below one that is near a point, and itself not near it, is below the point. -/
theorem Near.ge_of_not_near {t : Binary64} {p q n : ℚ} (h : t.Near q n) (hfar : ¬ t.Near p n)
    (hle : p ≤ q) : p ≤ n := by
  by_contra hlt
  rw [not_le] at hlt
  refine hfar (h.mono ?_)
  rw [abs_of_pos (sub_pos.2 hlt), abs_of_pos (sub_pos.2 (hlt.trans_le hle))]
  linarith

/-! ## Bounds moved by a tolerance -/

/-- A number is not increased by taking a tolerance from it. -/
theorem sub_le_self {x t : Binary64} (ht : (0.0 : Binary64) ≤ t) (hne : x - t ≠ nan) :
    x - t ≤ x := by
  cases x with
  | nan => exact absurd (nan_add _) hne
  | infinity s =>
    rcases tolerance_cases ht with rfl | ⟨hfinite, -⟩
    · cases s with
      | false => exact absurd rfl hne
      | true => exact le_refl_of_ne_nan hne
    · rcases isFinite_iff.1 hfinite with ⟨u, k, rfl⟩
      exact le_refl_of_ne_nan hne
  | finite s j =>
    rcases tolerance_cases ht with rfl | ⟨hfinite, hnonneg⟩
    · exact infinity_true_le (by simp)
    · rw [sub_eq_add_neg]
      exact add_le_of_nonpos rfl (by rw [isFinite_neg, hfinite]) (by rw [units_neg]; omega)

/-- A number is not decreased by adding a tolerance to it. -/
theorem le_add_self {x t : Binary64} (ht : (0.0 : Binary64) ≤ t) (hne : x + t ≠ nan) :
    x ≤ x + t := by
  cases x with
  | nan => exact absurd (nan_add _) hne
  | infinity s =>
    rcases tolerance_cases ht with rfl | ⟨hfinite, -⟩
    · cases s with
      | false => exact le_refl_of_ne_nan hne
      | true => exact absurd rfl hne
    · rcases isFinite_iff.1 hfinite with ⟨u, k, rfl⟩
      exact le_refl_of_ne_nan hne
  | finite s j =>
    rcases tolerance_cases ht with rfl | ⟨hfinite, hnonneg⟩
    · exact le_infinity_false (by simp)
    · exact le_add_of_nonneg rfl hfinite hnonneg

/-- A bound that is not infinite upwards can be moved down by a tolerance. -/
theorem sub_tolerance_ne_nan {x t : Binary64} (hx : x.isFinite = true ∨ x = infinity true)
    (ht : (0.0 : Binary64) ≤ t) : x - t ≠ nan := by
  rcases tolerance_cases ht with rfl | ⟨hfinite, hnonneg⟩
  · rcases hx with hx | rfl
    · rcases isFinite_iff.1 hx with ⟨s, j, rfl⟩
      nofun
    · nofun
  · rcases hx with hx | rfl
    · rw [sub_eq_add_neg]
      exact ne_nan_of_le_left
        (add_le_of_nonpos hx (by rw [isFinite_neg, hfinite]) (by rw [units_neg]; omega))
    · rcases isFinite_iff.1 hfinite with ⟨u, k, rfl⟩
      nofun

/-- A bound that is not infinite downwards can be moved up by a tolerance. -/
theorem add_tolerance_ne_nan {x t : Binary64} (hx : x.isFinite = true ∨ x = infinity false)
    (ht : (0.0 : Binary64) ≤ t) : x + t ≠ nan := by
  rcases tolerance_cases ht with rfl | ⟨hfinite, hnonneg⟩
  · rcases hx with hx | rfl
    · rcases isFinite_iff.1 hx with ⟨s, j, rfl⟩
      nofun
    · nofun
  · rcases hx with hx | rfl
    · exact ne_nan_of_le_right (le_add_of_nonneg hx hfinite hnonneg)
    · rcases isFinite_iff.1 hfinite with ⟨u, k, rfl⟩
      nofun

end Binary64

end BranchBound
