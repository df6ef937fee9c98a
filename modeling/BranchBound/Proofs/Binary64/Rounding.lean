import BranchBound.Binary64.Basic
import Mathlib.Data.Nat.Log
import Mathlib.Order.Monotone.Basic
import Mathlib.Tactic.Ring

/-!
# Rounding to the grid

The magnitudes on the grid ascend with their places, and rounding finds the place of a magnitude
that is on the grid.  It never reverses an order, so that an integer stays an integer when it is
rounded: either it is small enough to be on the grid, or the whole grid up there consists of
integers.

Main results:

- Theorem `Grid.units_strictMono`: a higher place has a greater magnitude.
- Theorems `Grid.nearest_units` and `Grid.nearest_mono`: rounding fixes what is on the grid and
  keeps the order.
- Theorem `Grid.exists_units_eq_mul_one`: the integers that a magnitude rounds to are on the grid.
- Theorem `Grid.one_dvd_units_nearest`: an integer is rounded to an integer.
-/

namespace BranchBound

/-! ## Rounding a quotient to an integer -/

theorem div_le_roundHalfEven (num den : Nat) : num / den ≤ roundHalfEven num den := by
  rcases roundHalfEven_eq_or num den with h | h <;> omega

theorem roundHalfEven_le (num den : Nat) : roundHalfEven num den ≤ num / den + 1 := by
  rcases roundHalfEven_eq_or num den with h | h <;> omega

/-- Of quotients in order with one floor the remainders are in order as well. -/
theorem mod_mul_le_mod_mul {a b c d : Nat} (heq : a / b = c / d) (h : a * d ≤ c * b) :
    a % b * d ≤ c % d * b := by
  have hfirst : b * (a / b) * d + a % b * d = a * d := by
    rw [← Nat.add_mul, Nat.div_add_mod]
  have hsecond : d * (c / d) * b + c % d * b = c * b := by
    rw [← Nat.add_mul, Nat.div_add_mod]
  have hcommon : b * (a / b) * d = d * (c / d) * b := by
    rw [heq]
    ring
  omega

/-- Quotients in order are rounded to integers in order. -/
theorem roundHalfEven_mono {a b c d : Nat} (hb : 0 < b) (hd : 0 < d) (h : a * d ≤ c * b) :
    roundHalfEven a b ≤ roundHalfEven c d := by
  have hq : a / b ≤ c / d := by
    rw [Nat.le_div_iff_mul_le hd]
    have hfloor : a / b * b ≤ a := Nat.div_mul_le_self a b
    have hscaled : a / b * d * b ≤ c * b := by
      calc a / b * d * b = a / b * b * d := by ring
        _ ≤ a * d := Nat.mul_le_mul_right d hfloor
        _ ≤ c * b := h
    exact Nat.le_of_mul_le_mul_right hscaled hb
  rcases Nat.lt_or_eq_of_le hq with hlt | heq
  · have hfloor := roundHalfEven_le a b
    have hceil := div_le_roundHalfEven c d
    omega
  · -- Within one floor twice the remainders decide.
    have hr : 2 * (a % b) * d ≤ 2 * (c % d) * b := by
      rw [Nat.mul_assoc, Nat.mul_assoc]
      exact Nat.mul_le_mul_left 2 (mod_mul_le_mod_mul heq h)
    have hreach : b ≤ 2 * (a % b) → d ≤ 2 * (c % d) := fun h =>
      Nat.le_of_mul_le_mul_right
        (calc d * b = b * d := Nat.mul_comm d b
          _ ≤ 2 * (a % b) * d := Nat.mul_le_mul_right d h
          _ ≤ 2 * (c % d) * b := hr) hb
    have hpass : b < 2 * (a % b) → d < 2 * (c % d) := fun h =>
      Nat.lt_of_mul_lt_mul_right (a := b)
        (calc d * b = b * d := Nat.mul_comm d b
          _ < 2 * (a % b) * d := Nat.mul_lt_mul_of_pos_right h hd
          _ ≤ 2 * (c % d) * b := hr)
    by_cases hlow : 2 * (a % b) < b
    · have hfloor : roundHalfEven a b = a / b := by simp [roundHalfEven, hlow]
      rw [hfloor, heq]
      exact div_le_roundHalfEven c d
    · have hlow' : ¬ 2 * (c % d) < d := Nat.not_lt.2 (hreach (Nat.not_lt.1 hlow))
      by_cases hhigh : d < 2 * (c % d)
      · have hceil : roundHalfEven c d = c / d + 1 := by simp [roundHalfEven, hlow', hhigh]
        rw [hceil, ← heq]
        exact roundHalfEven_le a b
      · have hhigh' : ¬ b < 2 * (a % b) := fun h => hhigh (hpass h)
        simp [roundHalfEven, hlow, hhigh, hlow', hhigh', heq]

namespace Grid

/-! ## Magnitudes -/

/-- The spacing is a power of two. -/
theorem step_eq_two_pow : step = 2 ^ 52 := by decide

/-- A magnitude is its significand, scaled by a power of two. -/
theorem units_eq_mul_two_pow (place : Nat) : units place = significand place * 2 ^ exponent place :=
  Nat.shiftLeft_eq _ _

/-- The number one is a power of two of units. -/
theorem one_eq_two_pow : one = 2 ^ oneExponent := Nat.one_shiftLeft _

/-- The rounded significand of a quotient stands above its exponent. -/
theorem nearest_eq (num den : Nat) :
    nearest num den = ((num / den).log2 - 52) * step +
      roundHalfEven num (den * 2 ^ ((num / den).log2 - 52)) := by
  rw [nearest, Nat.shiftLeft_eq]

/-- From `2 ^ 52` on a significand has its leading bit. -/
theorem significand_bounds {place : Nat} (h : step ≤ place) :
    step ≤ significand place ∧ significand place < 2 * step := by
  have hq : 1 ≤ place / step := (Nat.le_div_iff_mul_le step_pos).2 (by omega)
  have hplace : step * (place / step) + place % step = place := Nat.div_add_mod place step
  have hr : place % step < step := Nat.mod_lt place step_pos
  have hsplit : step * (place / step) = exponent place * step + step := by
    unfold exponent
    calc step * (place / step) = step * (place / step - 1 + 1) := by rw [Nat.sub_add_cancel hq]
      _ = (place / step - 1) * step + step := by ring
  unfold significand
  omega

/-- A place is its exponent and its significand. -/
theorem exponent_mul_add_significand (place : Nat) :
    exponent place * step + significand place = place := by
  have hle : exponent place * step ≤ place := by
    unfold exponent
    calc (place / step - 1) * step ≤ place / step * step := Nat.mul_le_mul_right _ (Nat.sub_le _ _)
      _ ≤ place := Nat.div_mul_le_self _ _
  unfold significand
  omega

@[simp] theorem units_zero : units 0 = 0 := by decide

theorem units_lt_units_succ (place : Nat) : units place < units (place + 1) := by
  induction place using Nat.strongRecOn with
  | ind place ih =>
    by_cases hlow : place + 1 < 2 * step
    · rw [units_of_lt hlow, units_of_lt (by omega)]
      omega
    · by_cases htop : place + 1 = 2 * step
      · have hstep : units (place + 1) = 2 * units step := by
          rw [htop, Nat.two_mul, units_add_step le_rfl]
        rw [hstep, units_of_lt (by omega), units_of_lt (by have := step_pos; omega)]
        omega
      · -- Above the first two steps, one step down halves both magnitudes.
        obtain ⟨low, rfl⟩ : ∃ low, place = low + step := ⟨place - step, by omega⟩
        have hlow' : step ≤ low := by omega
        have hnext : units (low + step + 1) = 2 * units (low + 1) := by
          rw [show low + step + 1 = low + 1 + step by omega, units_add_step (by omega)]
        rw [units_add_step hlow', hnext]
        have hstep := step_pos
        have := ih low (by omega)
        omega

/-- A higher place has a greater magnitude. -/
theorem units_strictMono : StrictMono units :=
  strictMono_nat_of_lt_succ units_lt_units_succ

theorem units_le_iff {j k : Nat} : units j ≤ units k ↔ j ≤ k := units_strictMono.le_iff_le

theorem units_inj {j k : Nat} : units j = units k ↔ j = k := units_strictMono.injective.eq_iff

theorem units_eq_zero_iff {k : Nat} : units k = 0 ↔ k = 0 := by
  constructor
  · intro h
    rwa [← units_zero, units_inj] at h
  · rintro rfl
    exact units_zero

/-- A significand of at most 53 bits can be scaled by any power of two. -/
theorem exists_units_eq_mul_two_pow {m : Nat} (hm : m < 2 * step) (e : Nat) :
    ∃ place, units place = m * 2 ^ e := by
  induction e with
  | zero => exact ⟨m, by simp [units_of_lt hm]⟩
  | succ e ih =>
    rcases ih with ⟨place, hplace⟩
    have hdouble : m * 2 ^ (e + 1) = 2 * units place := by rw [hplace, Nat.pow_succ]; ring
    by_cases hlow : step ≤ place
    · exact ⟨place + step, by rw [hdouble, units_add_step hlow]⟩
    · refine ⟨2 * place, ?_⟩
      rw [hdouble, units_of_lt (by omega), units_of_lt (by omega)]

/-! ## Rounding to a place -/

/-- The exponent that a quotient is rounded with. -/
theorem roundHalfEven_nearest_bounds (num den : Nat) :
    let e := (num / den).log2 - 52
    (e = 0 ∨ step ≤ roundHalfEven num (den * 2 ^ e)) ∧
      roundHalfEven num (den * 2 ^ e) ≤ 2 * step := by
  intro e
  have hdiv : num / (den * 2 ^ e) = num / den / 2 ^ e := (Nat.div_div_eq_div_mul _ _ _).symm
  have hupper : num / (den * 2 ^ e) < 2 * step := by
    rw [hdiv, Nat.div_lt_iff_lt_mul (Nat.two_pow_pos e)]
    have hlog : num / den < 2 ^ ((num / den).log2 + 1) := Nat.lt_log2_self
    have hpow : 2 ^ ((num / den).log2 + 1) ≤ 2 * step * 2 ^ e := by
      rw [step_eq_two_pow, ← Nat.pow_succ', ← Nat.pow_add]
      exact Nat.pow_le_pow_right (by decide) (by omega)
    omega
  constructor
  · by_cases he : e = 0
    · exact Or.inl he
    · have hne : num / den ≠ 0 := by
        intro hzero
        simp [e, hzero] at he
      refine Or.inr (le_trans ?_ (div_le_roundHalfEven _ _))
      rw [hdiv, Nat.le_div_iff_mul_le (Nat.two_pow_pos e)]
      have hpow : step * 2 ^ e = 2 ^ (num / den).log2 := by
        rw [step_eq_two_pow, ← Nat.pow_add]
        congr 1
        omega
      rw [hpow]
      exact Nat.log2_self_le hne
  · have := roundHalfEven_le num (den * 2 ^ e)
    omega

/-- Rounding keeps the order of quotients. -/
theorem nearest_mono {a b c d : Nat} (hb : 0 < b) (hd : 0 < d) (h : a * d ≤ c * b) :
    nearest a b ≤ nearest c d := by
  have hq : a / b ≤ c / d := by
    rw [Nat.le_div_iff_mul_le hd]
    have hscaled : a / b * d * b ≤ c * b := by
      calc a / b * d * b = a / b * b * d := by ring
        _ ≤ a * d := Nat.mul_le_mul_right d (Nat.div_mul_le_self a b)
        _ ≤ c * b := h
    exact Nat.le_of_mul_le_mul_right hscaled hb
  have hlog : (a / b).log2 ≤ (c / d).log2 := by
    rw [Nat.log2_eq_log_two, Nat.log2_eq_log_two]
    exact Nat.log_mono_right hq
  rcases roundHalfEven_nearest_bounds a b with ⟨-, hupper⟩
  rcases roundHalfEven_nearest_bounds c d with ⟨hlower, -⟩
  rw [nearest_eq, nearest_eq]
  generalize he : (a / b).log2 - 52 = e at *
  generalize he' : (c / d).log2 - 52 = e' at *
  have hle : e ≤ e' := by omega
  rcases Nat.lt_or_eq_of_le hle with hlt | rfl
  · -- A greater exponent starts where the smaller one ends.
    have hlower' : step ≤ roundHalfEven c (d * 2 ^ e') := by
      rcases hlower with hzero | hlower
      · omega
      · exact hlower
    have hsteps : (e + 1) * step ≤ e' * step := Nat.mul_le_mul_right step hlt
    have : (e + 1) * step = e * step + step := by ring
    omega
  · have hscaled : a * (d * 2 ^ e) ≤ c * (b * 2 ^ e) := by
      calc a * (d * 2 ^ e) = a * d * 2 ^ e := by ring
        _ ≤ c * b * 2 ^ e := Nat.mul_le_mul_right _ h
        _ = c * (b * 2 ^ e) := by ring
    have := roundHalfEven_mono (Nat.mul_pos hb (Nat.two_pow_pos e))
      (Nat.mul_pos hd (Nat.two_pow_pos e)) hscaled
    omega

theorem nearest_one_mono {m n : Nat} (h : m ≤ n) : nearest m 1 ≤ nearest n 1 :=
  nearest_mono Nat.one_pos Nat.one_pos (Nat.mul_le_mul_right 1 h)

/-- Rounding finds the place of a magnitude on the grid. -/
@[simp] theorem nearest_units (place : Nat) : nearest (units place) 1 = place := by
  by_cases hlow : place < 2 * step
  · rw [units_of_lt hlow, nearest_of_lt (by simpa using hlow), roundHalfEven_one]
  · have hsig : step ≤ significand place ∧ significand place < 2 * step :=
      significand_bounds (by omega)
    have hlog : (units place).log2 = 52 + exponent place := by
      rw [Nat.log2_eq_iff (by
        rw [Ne, units_eq_zero_iff]
        have := step_pos
        omega)]
      have hdouble : 2 * step = 2 ^ (52 + 1) := by decide
      rw [units_eq_mul_two_pow, Nat.pow_add, Nat.add_right_comm, Nat.pow_add, ← step_eq_two_pow,
        ← hdouble]
      constructor
      · exact Nat.mul_le_mul_right _ hsig.1
      · exact Nat.mul_lt_mul_of_pos_right hsig.2 (Nat.two_pow_pos _)
    have he : (units place / 1).log2 - 52 = exponent place := by
      rw [Nat.div_one, hlog]
      omega
    have hrounded :
        roundHalfEven (units place) (1 * 2 ^ exponent place) = significand place := by
      rw [Nat.one_mul, units_eq_mul_two_pow, roundHalfEven_mul_right _ (Nat.two_pow_pos _)]
    rw [nearest_eq, he, hrounded, exponent_mul_add_significand]

/-- What is at most a magnitude on the grid is not rounded past it. -/
theorem nearest_le_of_le {num den place : Nat} (hden : 0 < den) (h : num ≤ units place * den) :
    nearest num den ≤ place := by
  have hmono := nearest_mono hden Nat.one_pos (a := num) (c := units place) (by omega)
  rwa [nearest_units] at hmono

/-- What is at least a magnitude on the grid is not rounded below it. -/
theorem le_nearest_of_le {num den place : Nat} (hden : 0 < den) (h : units place * den ≤ num) :
    place ≤ nearest num den := by
  have hmono := nearest_mono Nat.one_pos hden (a := units place) (c := num) (by omega)
  rwa [nearest_units] at hmono

/-! ## Integers on the grid -/

/-- The first place from which on every magnitude is an integer. -/
def firstIntegral : Nat := 1075 * step

theorem units_firstIntegral : units firstIntegral = step * one := rfl

theorem units_eq_one : units (1023 * step) = one := rfl

/-- The place of one half. -/
def halfPlace : Nat := 1022 * step

theorem two_mul_units_halfPlace : 2 * units halfPlace = one := by
  rw [halfPlace, ← units_add_step (by decide), ← units_eq_one, ← Nat.succ_mul]

/-- One half over the greatest magnitude is more than a unit. -/
theorem units_last_le : units (placeCount - 1) ≤ units halfPlace * one := by decide

/-- One more than the last finite magnitude is rounded back to it. -/
theorem nearest_units_last_add_one :
    nearest (units (placeCount - 1) + one) 1 = placeCount - 1 := by decide +kernel

/-- Far enough up every magnitude is an integer. -/
theorem one_dvd_units {place : Nat} (h : firstIntegral ≤ place) : one ∣ units place := by
  have he : oneExponent ≤ exponent place := by
    have : 1075 ≤ place / step := (Nat.le_div_iff_mul_le step_pos).2 h
    unfold exponent oneExponent
    omega
  rw [one_eq_two_pow, units_eq_mul_two_pow]
  exact Dvd.dvd.mul_left (Nat.pow_dvd_pow 2 he) _

theorem units_lt_of_lt_firstIntegral {place : Nat} (h : place < firstIntegral) :
    units place < step * one := by
  rw [← units_firstIntegral]
  exact units_strictMono h

/-- An integer of at most 53 bits, or the one after these, has a finite place. -/
theorem exists_place_of_le {m : Nat} (hm : m ≤ 2 * step) :
    ∃ k < placeCount, units k = m * one := by
  have htop : units (firstIntegral + step) = 2 * step * one := by
    rw [units_add_step (by decide), units_firstIntegral, Nat.mul_assoc]
  have hlast : firstIntegral + step < placeCount := by decide
  rcases hm.lt_or_eq with hlt | rfl
  · rcases exists_units_eq_mul_two_pow hlt oneExponent with ⟨k, hk⟩
    have hunits : units k = m * one := by rw [hk, one_eq_two_pow]
    have hle : units k ≤ units (firstIntegral + step) := by
      rw [hunits, htop]
      exact Nat.mul_le_mul_right one hm
    exact ⟨k, lt_of_le_of_lt (units_le_iff.1 hle) hlast, hunits⟩
  · exact ⟨_, hlast, htop⟩

/-- An integer next to a finite magnitude, and that magnitude itself if it is an integer, has a
finite place. -/
theorem exists_units_eq_mul_one {place m : Nat} (hplace : place < placeCount)
    (hlow : units place / one ≤ m) (hhigh : m ≤ units place / one + 1)
    (hfix : one ∣ units place → m = units place / one) :
    ∃ k < placeCount, units k = m * one := by
  by_cases h : firstIntegral ≤ place
  · have hdvd := one_dvd_units h
    exact ⟨place, hplace, by rw [hfix hdvd, Nat.div_mul_cancel hdvd]⟩
  · have hbelow : units place / one < step := by
      rw [Nat.div_lt_iff_lt_mul one_pos]
      exact units_lt_of_lt_firstIntegral (by omega)
    exact exists_place_of_le (by omega)

/-- An integer is rounded to an integer. -/
theorem one_dvd_units_nearest {n : Nat} (h : one ∣ n) : one ∣ units (nearest n 1) := by
  by_cases hlow : n < step * one
  · rcases h with ⟨m, hn⟩
    have hn' : n = m * one := by rw [hn, Nat.mul_comm]
    have hm : m < step := by
      rw [hn', Nat.mul_lt_mul_right one_pos] at hlow
      exact hlow
    rcases exists_place_of_le (m := m) (by omega) with ⟨k, -, hk⟩
    rw [hn', ← hk, nearest_units, hk]
    exact Nat.dvd_mul_left one m
  · refine one_dvd_units ?_
    rw [← nearest_units firstIntegral, units_firstIntegral]
    exact nearest_one_mono (by omega)

end Grid

end BranchBound
