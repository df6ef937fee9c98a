/-!
# The grid of magnitudes

The magnitudes of double precision form a grid that grows coarser upwards: `2 ^ 53` places one
unit apart, then `2 ^ 52` places two units apart, `2 ^ 52` places four units apart, and so on.
The unit is `2 ^ (-1074)`, the smallest positive magnitude.  A place is a natural number, so the
order of places is the order of magnitudes, and a place is even exactly when its significand is.

The grid of this module never ends; where finite numbers stop is decided in
`BranchBound.Binary64.Basic`.

Main results:

- `Grid.units` is the magnitude at a place, in units; below `2 ^ 53` it is the place itself
  (`Grid.units_of_lt`), and one step of the exponent doubles it (`Grid.units_add_step`).
- `Grid.nearest` rounds a quotient of units to a place, a tie going to the even place; a quotient
  below `2 ^ 53` units is rounded to an integer (`Grid.nearest_of_lt`).
-/

namespace BranchBound

/-- The quotient of two naturals rounded to the nearest integer, a half going to the even one. -/
def roundHalfEven (num den : Nat) : Nat :=
  let q := num / den
  let r := num % den
  if 2 * r < den then q
  else if den < 2 * r then q + 1
  else q + q % 2

/-- An exact multiple is rounded to itself. -/
@[simp] theorem roundHalfEven_mul_right (q : Nat) {den : Nat} (h : 0 < den) :
    roundHalfEven (q * den) den = q := by
  simp [roundHalfEven, Nat.mul_mod_left, Nat.mul_div_cancel _ h, h]

/-- An integer over one is rounded to itself. -/
@[simp] theorem roundHalfEven_one (q : Nat) : roundHalfEven q 1 = q := by
  simpa using roundHalfEven_mul_right q Nat.one_pos

/-- The rounded quotient is the floor or the integer after it. -/
theorem roundHalfEven_eq_or (num den : Nat) :
    roundHalfEven num den = num / den ∨ roundHalfEven num den = num / den + 1 := by
  unfold roundHalfEven
  simp only
  split
  · exact Or.inl rfl
  · split
    · exact Or.inr rfl
    · rcases Nat.mod_two_eq_zero_or_one (num / den) with h | h <;> simp [h]

namespace Grid

/-- How many places share one spacing: the `2 ^ 52` significands with a leading bit. -/
def step : Nat := 0x10000000000000

/-- The exponent of the spacing at a place; the first two steps are one unit apart. -/
def exponent (place : Nat) : Nat := place / step - 1

/-- The significand at a place, below `2 ^ 53`. -/
def significand (place : Nat) : Nat := place - exponent place * step

/-- The magnitude at a place, in units of `2 ^ (-1074)`. -/
def units (place : Nat) : Nat := significand place <<< exponent place

/-- The place nearest to `num / den` units, a tie going to the even place. -/
def nearest (num den : Nat) : Nat :=
  let e := (num / den).log2 - 52
  e * step + roundHalfEven num (den <<< e)

/-- The number one is two to this power, in units. -/
def oneExponent : Nat := 1074

/-- Units in the number one. -/
def one : Nat := 1 <<< oneExponent

/-- The largest integer at or below a magnitude in units. -/
def integerBelow (magnitude : Nat) : Nat := magnitude / one

/-- The smallest integer at or above a magnitude in units. -/
def integerAbove (magnitude : Nat) : Nat := (magnitude + (one - 1)) / one

theorem step_pos : 0 < step := by decide

theorem one_pos : 0 < one := by
  rw [one, Nat.one_shiftLeft]
  exact Nat.two_pow_pos oneExponent

/-- Below `2 ^ 53` the places count units. -/
theorem units_of_lt {place : Nat} (h : place < 2 * step) : units place = place := by
  have he : exponent place = 0 := by
    have : place / step < 2 := (Nat.div_lt_iff_lt_mul step_pos).2 h
    unfold exponent
    omega
  simp [units, significand, he]

/-- One step further up, above the first, the magnitude doubles. -/
theorem units_add_step {place : Nat} (h : step ≤ place) :
    units (place + step) = 2 * units place := by
  have hq : 1 ≤ place / step := (Nat.le_div_iff_mul_le step_pos).2 (by omega)
  have hs : (place + step) / step = place / step + 1 := Nat.add_div_right _ step_pos
  have he : exponent (place + step) = exponent place + 1 := by
    unfold exponent
    omega
  have hm : significand (place + step) = significand place := by
    unfold significand
    rw [he, Nat.add_mul]
    omega
  rw [units, units, he, hm, Nat.shiftLeft_succ]

/-- A quotient below `2 ^ 53` units is rounded to an integer. -/
theorem nearest_of_lt {num den : Nat} (h : num / den < 2 * step) :
    nearest num den = roundHalfEven num den := by
  have : (num / den).log2 - 52 = 0 := by
    by_cases h0 : num / den = 0
    · simp [h0]
    · have hlog : (num / den).log2 < 53 := (Nat.log2_lt h0).2 h
      omega
  simp [nearest, this]

end Grid

end BranchBound
