import BranchBound.Proofs.Binary64.Distance

/-!
# Half a distance over one and the distance

A distance of zero or more is squashed into the range up to one half: half of it is divided by one
and the distance.  Each of the three operations rounds, and the rounded quotient still is at most
one half: half of a distance above one is exact, and a sum is not rounded below its summands.

The quotient of two units or more is not rounded to zero, however large the distance is.  Only half
of a single unit is.

Main results:

- Theorem `Grid.squashed_le`: a squashed distance is at most one half.
- Theorem `Grid.squashed_eq_zero_iff`: it is zero for no unit and for a single unit only.
- Theorem `Binary64.exists_sub_of_lt`: a difference of two numbers in order is positive.
-/

namespace BranchBound

-- The number of units in one has 1075 bits and is never to be evaluated.
attribute [local irreducible] Grid.one

namespace Grid

theorem units_two : units (1024 * step) = 2 * one := by
  rw [← units_eq_one, ← units_add_step (by decide), ← Nat.succ_mul]

/-- The place of half a magnitude. -/
def halved (place : Nat) : Nat := nearest (units halfPlace * units place) one

/-- The place of one and a magnitude. -/
def raised (place : Nat) : Nat := nearest (one + units place) 1

/-- The place of half a magnitude over one and the magnitude. -/
def squashed (place : Nat) : Nat := nearest (units (halved place) * one) (units (raised place))

variable {place : Nat}

/-! ## Half a magnitude -/

theorem halved_le (h : place ≤ 1023 * step) : halved place ≤ halfPlace := by
  have hle : units place ≤ one := by
    rw [← units_eq_one]
    exact units_le_iff.2 h
  exact nearest_le_of_le one_pos (Nat.mul_le_mul_left _ hle)

theorem halved_lt (h : place < placeCount) : halved place < placeCount := by
  have hle : halved place ≤ place := by
    refine nearest_le_of_le one_pos ?_
    rw [Nat.mul_comm, ← two_mul_units_halfPlace]
    exact Nat.mul_le_mul_left _ (by omega)
  omega

/-- Above one the half is exact. -/
theorem halved_eq (h : 1023 * step < place) : halved place = place - step := by
  have hstep := step_pos
  have hdouble : units place = 2 * units (place - step) := by
    rw [← units_add_step (by omega), Nat.sub_add_cancel (by omega)]
  have hexact : units halfPlace * units place = units (place - step) * one := by
    rw [hdouble, ← two_mul_units_halfPlace]
    ring
  apply Nat.le_antisymm
  · exact nearest_le_of_le one_pos hexact.le
  · exact le_nearest_of_le one_pos hexact.ge

/-- Half of four units or more is two units at least. -/
theorem two_le_units_halved (h : 4 ≤ place) : 2 ≤ units (halved place) := by
  have hunits : units 4 = 4 ∧ units 2 = 2 := ⟨units_of_lt (by decide), units_of_lt (by decide)⟩
  have hfour : 4 ≤ units place := by
    rw [← hunits.1]
    exact units_le_iff.2 h
  have hplace : 2 ≤ halved place := by
    refine le_nearest_of_le one_pos ?_
    rw [hunits.2, ← two_mul_units_halfPlace]
    calc 2 * (2 * units halfPlace) = units halfPlace * 4 := by ring
      _ ≤ units halfPlace * units place := Nat.mul_le_mul_left _ hfour
  rw [← hunits.2]
  exact units_le_iff.2 hplace

/-! ## One and a magnitude -/

theorem le_raised (place : Nat) : place ≤ raised place :=
  le_nearest_of_le Nat.one_pos (by omega)

theorem one_le_units_raised (place : Nat) : one ≤ units (raised place) := by
  have hplace : 1023 * step ≤ raised place := by
    refine le_nearest_of_le Nat.one_pos ?_
    rw [units_eq_one]
    omega
  rw [← units_eq_one]
  exact units_le_iff.2 hplace

theorem units_raised_le (h : place ≤ 1023 * step) : units (raised place) ≤ 2 * one := by
  have hle : units place ≤ one := by
    rw [← units_eq_one]
    exact units_le_iff.2 h
  have hplace : raised place ≤ 1024 * step := by
    refine nearest_le_of_le Nat.one_pos ?_
    rw [units_two]
    omega
  rw [← units_two]
  exact units_le_iff.2 hplace

/-- One more than a finite magnitude is finite. -/
theorem raised_lt (h : place < placeCount) : raised place < placeCount := by
  have hle : units place ≤ units (placeCount - 1) := units_le_iff.2 (by omega)
  have hlast : raised place ≤ placeCount - 1 := by
    rw [← nearest_units_last_add_one]
    exact nearest_one_mono (by omega)
  omega

/-! ## The quotient -/

theorem two_mul_units_halved_le (place : Nat) :
    2 * units (halved place) ≤ units (raised place) := by
  by_cases h : place ≤ 1023 * step
  · calc 2 * units (halved place) ≤ 2 * units halfPlace :=
          Nat.mul_le_mul_left _ (units_le_iff.2 (halved_le h))
      _ = one := two_mul_units_halfPlace
      _ ≤ units (raised place) := one_le_units_raised place
  · have hdouble : 2 * units (place - step) = units place := by
      have hstep := step_pos
      rw [← units_add_step (by omega), Nat.sub_add_cancel (by omega)]
    rw [halved_eq (by omega), hdouble]
    exact units_le_iff.2 (le_raised place)

/-- A squashed distance is at most one half. -/
theorem squashed_le (place : Nat) : squashed place ≤ halfPlace := by
  have hpos : 0 < units (raised place) := Nat.lt_of_lt_of_le one_pos (one_le_units_raised place)
  refine nearest_le_of_le hpos ?_
  calc units (halved place) * one = units halfPlace * (2 * units (halved place)) := by
        rw [← two_mul_units_halfPlace]
        ring
    _ ≤ units halfPlace * units (raised place) :=
        Nat.mul_le_mul_left _ (two_mul_units_halved_le place)

/-- The smallest distances: half of a single unit is rounded to zero. -/
theorem squashed_few : ∀ place < 4, 1 ≤ squashed place ↔ 2 ≤ place := by decide +kernel

/-- Two units or more are not squashed to zero. -/
theorem one_le_squashed (h : 2 ≤ place) (hlt : place < placeCount) : 1 ≤ squashed place := by
  by_cases hfew : place < 4
  · exact (squashed_few place hfew).2 h
  · have hpos : 0 < units (raised place) := Nat.lt_of_lt_of_le one_pos (one_le_units_raised place)
    refine le_nearest_of_le hpos ?_
    rw [units_of_lt (by decide), Nat.one_mul]
    by_cases hone : place ≤ 1023 * step
    · calc units (raised place) ≤ 2 * one := units_raised_le hone
        _ ≤ units (halved place) * one := Nat.mul_le_mul_right _ (two_le_units_halved (by omega))
    · have hhalf : halfPlace ≤ halved place := by
        rw [halved_eq (by omega), halfPlace]
        omega
      have hlast : raised place ≤ placeCount - 1 := Nat.le_sub_one_of_lt (raised_lt hlt)
      calc units (raised place) ≤ units (placeCount - 1) := units_le_iff.2 hlast
        _ ≤ units halfPlace * one := units_last_le
        _ ≤ units (halved place) * one := Nat.mul_le_mul_right _ (units_le_iff.2 hhalf)

/-- A squashed distance is zero for no unit and for a single unit only. -/
theorem squashed_eq_zero_iff (h : place < placeCount) : squashed place = 0 ↔ place ≤ 1 := by
  constructor
  · intro hzero
    by_contra hmore
    have hpos := one_le_squashed (by omega) h
    omega
  · intro hle
    have hsmall := squashed_few place (by omega)
    omega

end Grid

namespace Binary64

/-! ## Differences -/

/-- A positive difference of finite numbers is rounded to a positive number. -/
theorem sub_finite {s t : Bool} {j k : Fin placeCount}
    (h : (finite t k).units < (finite s j).units) :
    finite s j - finite t k = infinity false ∨
      ∃ i : Fin placeCount, 0 < i.val ∧ finite s j - finite t k = finite false i := by
  have hneg : -finite t k = finite (!t) k := rfl
  have hsum : (finite s j).units + (finite (!t) k).units =
      (finite s j).units - (finite t k).units := by
    rw [← hneg, units_neg, Int.sub_eq_add_neg]
  have hdiff : finite s j - finite t k =
      rounded false ((finite s j).units - (finite t k).units).natAbs 1 := by
    rw [sub_eq_add_neg, hneg, add_finite (by omega), hsum, ofUnits,
      decide_eq_false (by omega)]
  have hplace : 1 ≤ Grid.nearest ((finite s j).units - (finite t k).units).natAbs 1 := by
    refine Grid.le_nearest_of_le Nat.one_pos ?_
    rw [Grid.units_of_lt (by decide)]
    omega
  rw [hdiff, rounded, ofPlace]
  split
  · rename_i hlt
    exact Or.inr ⟨⟨_, hlt⟩, hplace, rfl⟩
  · exact Or.inl rfl

/-- A difference of two numbers in order is positive. -/
theorem exists_sub_of_lt {x y : Binary64} (h : x < y) :
    y - x = infinity false ∨ ∃ k : Fin placeCount, 0 < k.val ∧ y - x = finite false k := by
  cases y with
  | nan => exact absurd (le_of_lt h) (not_le_nan x)
  | infinity s =>
    cases s with
    | true => exact absurd h (not_lt_infinity_true x)
    | false =>
      left
      cases x with
      | nan => exact absurd (le_of_lt h) (not_nan_le _)
      | infinity t =>
        cases t with
        | true => rfl
        | false => exact absurd h (not_infinity_false_lt _)
      | finite t k => rfl
  | finite s j =>
    cases x with
    | nan => exact absurd (le_of_lt h) (not_nan_le _)
    | infinity t =>
      cases t with
      | true => exact Or.inl rfl
      | false => exact absurd h (not_infinity_false_lt _)
    | finite t k =>
      refine sub_finite ?_
      rwa [← Int.not_le, ← le_iff_units rfl rfl, ← not_lt_iff (by simp) (by simp), not_not]

end Binary64

end BranchBound
