import BranchBound.Proofs.Exact
import BranchBound.Row.Basic
import Mathlib.Algebra.Order.Ring.Abs
import Mathlib.Order.Bounds.Basic
import Mathlib.Tactic.Linarith

/-!
# The ranking of violated rows

The infeasibility of a row is the distance of its activity to the soft range, squashed below one
half.  Squashing keeps the order of distances, so that rows with different ranges, and in different
relaxations, are ranked by how far they are from being feasible.

The tolerance decides which rows are violated, but does not enter into the distance: a row is
feasible up to the tolerance, and its infeasibility then starts from the tolerance squashed.

Main results:

- Theorem `Row.squashed_lt_iff`: squashing keeps the order of distances.
- Theorem `Row.infeasibility_cases`: a row is feasible, or violated on one side.
- Theorem `Row.infeasibility_ranks`: what an infeasibility tells of a row, and of two rows.
-/

namespace BranchBound

/-! ## Distances -/

/-- Whether some number is the distance of a rational to a range. -/
def Interval.IsDistance (i : Interval ExactNumber) (a d : ℚ) : Prop :=
  IsLeast {e | ∃ q : ℚ, i.lower ≤ .finite q ∧ .finite q ≤ i.upper ∧ e = |a - q|} d

/-- Whether both ends of a range are rational or the infinity that leaves this end open, in their
order. -/
structure Interval.Regular (i : Interval ExactNumber) : Prop where
  /-- The lower end is open or rational. -/
  lower : i.lower = .infinity true ∨ ∃ p, i.lower = .finite p
  /-- So is the upper end. -/
  upper : i.upper = .infinity false ∨ ∃ p, i.upper = .finite p
  /-- The ends are in order. -/
  ordered : i.lower ≤ i.upper

namespace Interval

variable {i : Interval ExactNumber} {a p t : ℚ}

theorem isDistance_of_lt_lower (h : i.Regular) (hlower : i.lower = .finite p) (ha : a < p) :
    i.IsDistance a (p - a) := by
  refine ⟨⟨p, ?_, ?_, ?_⟩, ?_⟩
  · rw [hlower, ExactNumber.finite_le_finite]
  · exact hlower ▸ h.ordered
  · rw [abs_sub_comm, abs_of_pos (sub_pos.2 ha)]
  · rintro _ ⟨q, hq, -, rfl⟩
    rw [hlower, ExactNumber.finite_le_finite] at hq
    rw [abs_sub_comm]
    exact (sub_le_sub_right hq a).trans (le_abs_self _)

theorem isDistance_of_upper_lt (h : i.Regular) (hupper : i.upper = .finite p) (ha : p < a) :
    i.IsDistance a (a - p) := by
  refine ⟨⟨p, ?_, ?_, ?_⟩, ?_⟩
  · exact hupper ▸ h.ordered
  · rw [hupper, ExactNumber.finite_le_finite]
  · rw [abs_of_pos (sub_pos.2 ha)]
  · rintro _ ⟨q, -, hq, rfl⟩
    rw [hupper, ExactNumber.finite_le_finite] at hq
    exact (sub_le_sub_left hq a).trans (le_abs_self _)

/-- What is below a range is not above it, neither with a tolerance nor without. -/
theorem Regular.not_upper_add_lt (h : i.Regular) (ht : 0 ≤ t) (ha : .finite a < i.lower) :
    ¬ i.upper + .finite t < .finite a := by
  rcases h.upper with hupper | ⟨q, hupper⟩
  · rw [hupper, ExactNumber.infinity_add_finite]
    exact ExactNumber.not_infinity_false_lt_finite
  · have hordered := h.ordered
    rcases h.lower with hlower | ⟨p, hlower⟩
    · rw [hlower] at ha
      exact absurd ha ExactNumber.not_finite_lt_infinity_true
    · rw [hlower, ExactNumber.finite_lt_finite] at ha
      rw [hlower, hupper, ExactNumber.finite_le_finite] at hordered
      rw [hupper, ExactNumber.finite_add, ExactNumber.finite_lt_finite]
      linarith

/-- What is above a range is not below it, neither with a tolerance nor without. -/
theorem Regular.not_lt_lower_sub (h : i.Regular) (ht : 0 ≤ t) (ha : i.upper < .finite a) :
    ¬ .finite a < i.lower - .finite t := by
  rcases h.lower with hlower | ⟨p, hlower⟩
  · rw [hlower, ExactNumber.infinity_sub_finite]
    exact ExactNumber.not_finite_lt_infinity_true
  · have hordered := h.ordered
    rcases h.upper with hupper | ⟨q, hupper⟩
    · rw [hupper] at ha
      exact absurd ha ExactNumber.not_infinity_false_lt_finite
    · rw [hupper, ExactNumber.finite_lt_finite] at ha
      rw [hlower, hupper, ExactNumber.finite_le_finite] at hordered
      rw [hlower, ExactNumber.finite_sub, ExactNumber.finite_lt_finite]
      linarith

end Interval

namespace Row

/-! ## Squashing -/

/-- A distance squashed below one half, without rounding. -/
def squashed (d : ℚ) : ℚ := 1 / 2 * d / (1 + d)

variable {d d' : ℚ}

theorem squash_finite_of_pos (hd : 0 < d) :
    squash (ExactNumber.finite d) = .ok (.finite (squashed d)) := by
  have hdivisor : 1 + d ≠ 0 := by linarith
  have hnonzero : ¬ Same (ExactNumber.finite (1 + d)) (0.0 : ExactNumber) := by
    rw [ExactNumber.zero_eq]
    rintro ⟨hle, -⟩
    rw [ExactNumber.finite_le_finite] at hle
    linarith
  rw [squash, ExactNumber.one_eq, ExactNumber.finite_add, if_neg hnonzero, ExactNumber.half_eq,
    ExactNumber.finite_mul, ExactNumber.finite_div hdivisor, squashed]

theorem squashed_pos (hd : 0 < d) : 0 < squashed d :=
  div_pos (by linarith) (by linarith)

theorem squashed_lt_half (hd : 0 < d) : squashed d < 1 / 2 := by
  rw [squashed, div_lt_iff₀ (by linarith)]
  linarith

/-- Squashing keeps the order of distances. -/
theorem squashed_lt_iff (hd : 0 < d) (hd' : 0 < d') : squashed d < squashed d' ↔ d < d' := by
  have hone : 0 < 1 + d := by linarith
  have hone' : 0 < 1 + d' := by linarith
  rw [squashed, squashed, div_lt_div_iff₀ hone hone']
  constructor <;> intro h <;> linarith

/-! ## Violations -/

/-- Whether the soft range holds an activity, up to a tolerance. -/
def Admits (r : Row ExactNumber) (tolerance : ExactNumber) (a : ℚ) : Prop :=
  r.soft.lower - tolerance ≤ .finite a ∧ .finite a ≤ r.soft.upper + tolerance

/-- Whether an activity is outside the soft range by more than a tolerance: in which direction it
has to move to get there, and how far. -/
inductive Violates (r : Row ExactNumber) (tolerance : ExactNumber) (a : ℚ) : Direction → ℚ → Prop
  /-- The activity is below the range. -/
  | below {p t : ℚ} (hlower : r.soft.lower = .finite p) (htol : tolerance = .finite t)
      (ht : 0 ≤ t) (h : a < p - t) : Violates r tolerance a .up (p - a)
  /-- The activity is above the range. -/
  | above {p t : ℚ} (hupper : r.soft.upper = .finite p) (htol : tolerance = .finite t)
      (ht : 0 ≤ t) (h : p + t < a) : Violates r tolerance a .down (a - p)

/-- What an infeasibility tells of an activity that the soft range does not hold. -/
structure Judges (r : Row ExactNumber) (tolerance : ExactNumber) (a : ℚ)
    (judged : ExactNumber × Option Direction) : Prop where
  /-- The activity is beyond one end of the range, and not beyond both. -/
  oneSide : Xor (.finite a < r.soft.lower - tolerance) (r.soft.upper + tolerance < .finite a)
  /-- The infeasibility is positive. -/
  pos : 0.0 < judged.1
  /-- It is less than one half. -/
  lt_half : judged.1 < 0.5
  /-- The activity has to move up if it is below the range. -/
  up : judged.2 = some .up ↔ .finite a < r.soft.lower
  /-- It has to move down if it is above the range. -/
  down : judged.2 = some .down ↔ r.soft.upper < .finite a

variable {r : Row ExactNumber} {x : Relaxation ExactNumber} {tolerance : ExactNumber} {a : ℚ}
  {way : Direction}

namespace Violates

/-- The distance of a violation is positive. -/
theorem pos (h : r.Violates tolerance a way d) : 0 < d := by
  cases h <;> linarith

/-- The soft range does not hold what violates it. -/
theorem not_admits (h : r.Violates tolerance a way d) : ¬ r.Admits tolerance a := by
  rintro ⟨hlow, hhigh⟩
  cases h with
  | below hlower htol ht h =>
    rw [hlower, htol, ExactNumber.finite_sub, ExactNumber.finite_le_finite] at hlow
    linarith
  | above hupper htol ht h =>
    rw [hupper, htol, ExactNumber.finite_add, ExactNumber.finite_le_finite] at hhigh
    linarith

/-- It is the distance to the soft range. -/
theorem isDistance (h : r.Violates tolerance a way d) (hregular : r.soft.Regular) :
    r.soft.IsDistance a d := by
  cases h with
  | below hlower _ ht h => exact Interval.isDistance_of_lt_lower hregular hlower (by linarith)
  | above hupper _ ht h => exact Interval.isDistance_of_upper_lt hregular hupper (by linarith)

/-- A violation is judged by its distance squashed. -/
theorem judges (h : r.Violates tolerance a way d) (hregular : r.soft.Regular) :
    r.Judges tolerance a (.finite (squashed d), some way) := by
  have hd := h.pos
  have hpos : (0.0 : ExactNumber) < .finite (squashed d) := by
    rw [ExactNumber.zero_eq, ExactNumber.finite_lt_finite]
    exact squashed_pos hd
  have hhalf : .finite (squashed d) < (0.5 : ExactNumber) := by
    rw [ExactNumber.half_eq, ExactNumber.finite_lt_finite]
    exact squashed_lt_half hd
  cases h with
  | @below p t hlower htol ht h =>
    have hfar : .finite a < r.soft.lower - tolerance := by
      rwa [hlower, htol, ExactNumber.finite_sub, ExactNumber.finite_lt_finite]
    have hbelow : .finite a < r.soft.lower := by
      rw [hlower, ExactNumber.finite_lt_finite]
      linarith
    have hnear := hregular.not_upper_add_lt le_rfl hbelow
    rw [ExactNumber.add_finite_zero] at hnear
    exact ⟨Or.inl ⟨hfar, htol ▸ hregular.not_upper_add_lt ht hbelow⟩, hpos, hhalf,
      iff_of_true rfl hbelow, iff_of_false (by simp) hnear⟩
  | @above p t hupper htol ht h =>
    have hfar : r.soft.upper + tolerance < .finite a := by
      rwa [hupper, htol, ExactNumber.finite_add, ExactNumber.finite_lt_finite]
    have habove : r.soft.upper < .finite a := by
      rw [hupper, ExactNumber.finite_lt_finite]
      linarith
    have hnear := hregular.not_lt_lower_sub le_rfl habove
    rw [ExactNumber.sub_finite_zero] at hnear
    exact ⟨Or.inr ⟨hfar, htol ▸ hregular.not_lt_lower_sub ht habove⟩, hpos, hhalf,
      iff_of_false (by simp) hnear, iff_of_true rfl habove⟩

end Violates

/-! ## Infeasibilities -/

/-- Whether a row has an activity without rounding in a relaxation, and a range to measure it
against up to a tolerance. -/
structure Measured (r : Row ExactNumber) (x : Relaxation ExactNumber) (a : ℚ) : Prop where
  /-- The activity is rational. -/
  activity : r.activity x = .ok (.finite a)
  /-- The ends of the soft range are open or rational, and in order. -/
  regular : r.soft.Regular
  /-- The tolerance is not negative. -/
  tolerance : 0.0 ≤ x.feasibilityTolerance

theorem violates_of_lt_lower (hregular : r.soft.Regular) (htol : 0.0 ≤ tolerance)
    (h : .finite a < r.soft.lower - tolerance) :
    ∃ p, r.soft.lower = .finite p ∧ r.Violates tolerance a .up (p - a) := by
  rcases ExactNumber.eq_infinity_or_finite_of_nonneg htol with htol | ⟨t, ht, htol⟩ <;>
    rcases hregular.lower with hlower | ⟨p, hlower⟩ <;> rw [hlower, htol] at h
  · cases h
  · cases h
  · cases h
  · rw [ExactNumber.finite_sub, ExactNumber.finite_lt_finite] at h
    exact ⟨p, hlower, .below hlower htol ht h⟩

theorem violates_of_upper_lt (hregular : r.soft.Regular) (htol : 0.0 ≤ tolerance)
    (h : r.soft.upper + tolerance < .finite a) :
    ∃ p, r.soft.upper = .finite p ∧ r.Violates tolerance a .down (a - p) := by
  rcases ExactNumber.eq_infinity_or_finite_of_nonneg htol with htol | ⟨t, ht, htol⟩ <;>
    rcases hregular.upper with hupper | ⟨p, hupper⟩ <;> rw [hupper, htol] at h
  · cases h
  · cases h
  · cases h
  · rw [ExactNumber.finite_add, ExactNumber.finite_lt_finite] at h
    exact ⟨p, hupper, .above hupper htol ht h⟩

/-- Between the two, the soft range holds the activity: neither comparison is with `nan`. -/
theorem admits_of_not_lt (hregular : r.soft.Regular) (htol : 0.0 ≤ tolerance)
    (hlow : ¬ .finite a < r.soft.lower - tolerance)
    (hhigh : ¬ r.soft.upper + tolerance < .finite a) : r.Admits tolerance a := by
  have hne : r.soft.lower - tolerance ≠ .nan ∧ r.soft.upper + tolerance ≠ .nan := by
    rcases ExactNumber.eq_infinity_or_finite_of_nonneg htol with htol | ⟨t, -, htol⟩ <;>
      rcases hregular.lower with hlower | ⟨p, hlower⟩ <;>
      rcases hregular.upper with hupper | ⟨q, hupper⟩ <;> rw [hlower, hupper, htol] <;>
      exact ⟨nofun, nofun⟩
  exact ⟨(ExactNumber.not_finite_lt_iff hne.1).1 hlow,
    (ExactNumber.not_lt_finite_iff hne.2).1 hhigh⟩

/-- A row is feasible where its soft range holds the activity, and otherwise as infeasible as the
distance says. -/
theorem infeasibility_cases (h : r.Measured x a) :
    (r.Admits x.feasibilityTolerance a ∧ r.infeasibility x = .ok (0.0, none)) ∨
      ∃ way d, r.Violates x.feasibilityTolerance a way d ∧
        r.infeasibility x = .ok (.finite (squashed d), some way) := by
  rw [infeasibility, h.activity]
  dsimp only
  unfold score
  split
  · rename_i hlow
    rcases violates_of_lt_lower h.regular h.tolerance hlow with ⟨p, hlower, hviolates⟩
    refine Or.inr ⟨_, _, hviolates, ?_⟩
    rw [hlower, ExactNumber.finite_sub, squash_finite_of_pos hviolates.pos]
    rfl
  · rename_i hlow
    split
    · rename_i hhigh
      rcases violates_of_upper_lt h.regular h.tolerance hhigh with ⟨p, hupper, hviolates⟩
      refine Or.inr ⟨_, _, hviolates, ?_⟩
      rw [hupper, ExactNumber.finite_sub, squash_finite_of_pos hviolates.pos]
      rfl
    · rename_i hhigh
      exact Or.inl ⟨admits_of_not_lt h.regular h.tolerance hlow hhigh, rfl⟩

/-- A row that is measured has an infeasibility, so that nothing is divided by zero.  It is feasible
exactly if its activity is in the soft range up to the tolerance.  Otherwise the activity is beyond
one end of the range, which gives the direction, and the infeasibility is between zero and one half.
Of two rows that are violated, in any relaxations and on any sides, the one that is further from its
soft range is the more infeasible. -/
theorem infeasibility_ranks (h : r.Measured x a) :
    ∃ judged, r.infeasibility x = .ok judged ∧
      (judged = (0.0, none) ↔ r.Admits x.feasibilityTolerance a) ∧
      (¬ r.Admits x.feasibilityTolerance a →
        r.Judges x.feasibilityTolerance a judged ∧ ∃ d, r.soft.IsDistance a d) ∧
      ∀ (r' : Row ExactNumber) (x' : Relaxation ExactNumber) (a' d d' : ℚ)
        (judged' : ExactNumber × Option Direction),
        r'.Measured x' a' → r'.infeasibility x' = .ok judged' →
        ¬ r.Admits x.feasibilityTolerance a → ¬ r'.Admits x'.feasibilityTolerance a' →
        r.soft.IsDistance a d → r'.soft.IsDistance a' d' →
        (judged.1 < judged'.1 ↔ d < d') := by
  rcases infeasibility_cases h with ⟨hadmits, hjudged⟩ | ⟨way, e, hviolates, hjudged⟩
  · exact ⟨_, hjudged, iff_of_true rfl hadmits, fun hnot => absurd hadmits hnot,
      fun _ _ _ _ _ _ _ _ hnot => absurd hadmits hnot⟩
  · refine ⟨_, hjudged, iff_of_false (by simp) hviolates.not_admits,
      fun _ => ⟨hviolates.judges h.regular, e, hviolates.isDistance h.regular⟩, ?_⟩
    intro r' x' a' d d' judged' h' hjudged' _ hnot' hd hd'
    rcases infeasibility_cases h' with ⟨hadmits', -⟩ | ⟨way', e', hviolates', hscore'⟩
    · exact absurd hadmits' hnot'
    · rw [hjudged'] at hscore'
      cases hscore'
      rw [ExactNumber.finite_lt_finite, squashed_lt_iff hviolates.pos hviolates'.pos,
        hd.unique (hviolates.isDistance h.regular), hd'.unique (hviolates'.isDistance h'.regular)]

/-- A row of twice one variable with a soft range. -/
def ranged (lower upper : ExactNumber) : Row ExactNumber :=
  { Entity.free with soft := ⟨lower, upper⟩, indices := [0], coefficients := [.finite 2] }

/-- A relaxation in which the activity of such a row is seven. -/
def seven : Relaxation ExactNumber :=
  { Relaxation.initial with solution := [.finite (7 / 2)] }

/-- Seven is two above five and three below ten. -/
theorem infeasibility_ranks_twoSides :
    ∃ judged judged', (ranged (.finite 0) (.finite 5)).infeasibility seven = .ok judged ∧
      (ranged (.finite 10) (.infinity false)).infeasibility seven = .ok judged' ∧
      judged.2 = some .down ∧ judged'.2 = some .up ∧ judged.1 < judged'.1 ∧
      judged'.1 < 0.5 := by
  have hactivity (lower upper : ExactNumber) :
      (ranged lower upper).activity seven = .ok (.finite 7) := by
    show Except.ok (ExactNumber.finite (2 * (7 / 2))) = _
    norm_num
  have htol : (0.0 : ExactNumber) ≤ seven.feasibilityTolerance := by decide +kernel
  have hleft : (ranged (.finite 0) (.finite 5)).Measured seven 7 :=
    ⟨hactivity _ _, ⟨Or.inr ⟨0, rfl⟩, Or.inr ⟨5, rfl⟩, by decide +kernel⟩, htol⟩
  have hright : (ranged (.finite 10) (.infinity false)).Measured seven 7 :=
    ⟨hactivity _ _, ⟨Or.inr ⟨10, rfl⟩, Or.inl rfl, by decide +kernel⟩, htol⟩
  have hnot : ¬ (ranged (.finite 0) (.finite 5)).Admits seven.feasibilityTolerance 7 :=
    fun hadmits => absurd hadmits.2 (by decide +kernel)
  have hnot' : ¬ (ranged (.finite 10) (.infinity false)).Admits seven.feasibilityTolerance 7 :=
    fun hadmits => absurd hadmits.1 (by decide +kernel)
  rcases infeasibility_ranks hleft with ⟨judged, hjudged, -, hdown, hranks⟩
  rcases infeasibility_ranks hright with ⟨judged', hjudged', -, hup, -⟩
  have hless := (hranks _ _ _ _ _ _ hright hjudged' hnot hnot'
    (Interval.isDistance_of_upper_lt hleft.regular rfl (by norm_num : (5 : ℚ) < 7))
    (Interval.isDistance_of_lt_lower hright.regular rfl (by norm_num : (7 : ℚ) < 10))).2
    (by norm_num)
  exact ⟨judged, judged', hjudged, hjudged', (hdown hnot).1.down.2 (by decide +kernel),
    (hup hnot').1.up.2 (by decide +kernel), hless, (hup hnot').1.lt_half⟩

end Row

end BranchBound
