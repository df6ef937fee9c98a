import BranchBound.Proofs.Binary64.Tolerance
import BranchBound.Proofs.Column.Fixing
import BranchBound.Proofs.Entity.Integers

/-!
# Points of a semicontinuous entity

The valid points of a semicontinuous entity are zero and the numbers of its hard range.  If the
range is above zero, there is a gap in between, and the values in it that are beyond the tolerance
of both its ends have these ends next to them.

Every other value is taken for a valid point and has itself next to it.  So it is with the values
in a gap below zero, those at an end of a gap, and those outside all valid points, even if a valid
point is within the tolerance.

Main results:

- Theorem `Interval.closest_of_gap`: the ends of a gap are next to the values far inside it.
- Theorem `Interval.InGap.closest`: a value that is found in the gap above zero is inside it.
- Theorem `Object.bracket_closest_iff`: which values have the closest valid points next to them.
-/

namespace BranchBound

open Binary64

-- The number of units in one has 1075 bits and is never to be evaluated.
attribute [local irreducible] Grid.one

namespace Interval

/-- The valid points of a semicontinuous entity of a hard range: zero, and the range. -/
def ZeroOrIn (hard : Interval Binary64) (x : Binary64) : Prop :=
  Same x 0.0 ∨ hard.lower ≤ x ∧ x ≤ hard.upper

instance (hard : Interval Binary64) : DecidablePred hard.ZeroOrIn := fun x =>
  inferInstanceAs (Decidable (Same x 0.0 ∨ hard.lower ≤ x ∧ x ≤ hard.upper))

/-- What the points next to a value of a semicontinuous entity should be: one valid point if there
is one within the tolerance, and else the closest ones below and above the value. -/
structure Closest (hard : Interval Binary64) (tolerance v : Binary64)
    (points : Interval Binary64) : Prop where
  /-- The lower point is valid. -/
  lower : hard.ZeroOrIn points.lower
  /-- The upper point is valid. -/
  upper : hard.ZeroOrIn points.upper
  /-- If some valid point is within the tolerance, both are one such point. -/
  snapped : (∃ x, hard.ZeroOrIn x ∧ tolerance.Near v.toRat x.toRat) →
    Same points.lower points.upper ∧ tolerance.Near v.toRat points.lower.toRat
  /-- If none is, the lower point is the greatest of the valid points up to the value. -/
  below : (¬ ∃ x, hard.ZeroOrIn x ∧ tolerance.Near v.toRat x.toRat) →
    points.lower ≤ v ∧ ∀ x, hard.ZeroOrIn x → x ≤ v → x ≤ points.lower
  /-- The upper point is the least of those from the value on. -/
  above : (¬ ∃ x, hard.ZeroOrIn x ∧ tolerance.Near v.toRat x.toRat) →
    v ≤ points.upper ∧ ∀ x, hard.ZeroOrIn x → v ≤ x → points.upper ≤ x

variable {hard : Interval Binary64} {tolerance v x a b : Binary64}

theorem zeroOrIn_zero (hard : Interval Binary64) : hard.ZeroOrIn 0.0 :=
  Or.inl (same_self toRat_zero.1)

theorem ZeroOrIn.isFinite (hhard : hard.Bounded) (hx : hard.ZeroOrIn x) : x.isFinite = true := by
  rcases hx with ⟨hle, hge⟩ | ⟨hlow, hhigh⟩
  · exact isFinite_of_le_of_le toRat_zero.1 toRat_zero.1 hge hle
  · exact isFinite_of_le_of_le hhard.finite_lower hhard.finite_upper hlow hhigh

/-- The ends of a gap between valid points are next to the values that are far from both. -/
theorem closest_of_gap (hhard : hard.Bounded) (hv : v.isFinite = true) (ha : hard.ZeroOrIn a)
    (hb : hard.ZeroOrIn b) (hav : a < v) (hvb : v < b)
    (hgap : ∀ x, hard.ZeroOrIn x → x ≤ a ∨ b ≤ x)
    (hfar : ¬ tolerance.Near v.toRat a.toRat) (hfar' : ¬ tolerance.Near v.toRat b.toRat) :
    hard.Closest tolerance v ⟨a, b⟩ := by
  have hav' := (lt_iff_toRat (ha.isFinite hhard) hv).1 hav
  have hvb' := (lt_iff_toRat hv (hb.isFinite hhard)).1 hvb
  -- every other valid point is further away than one of the ends
  have hnone : ¬ ∃ x, hard.ZeroOrIn x ∧ tolerance.Near v.toRat x.toRat := by
    rintro ⟨x, hx, hnear⟩
    rcases hgap x hx with hle | hle
    · have hle' := (le_iff_toRat (hx.isFinite hhard) (ha.isFinite hhard)).1 hle
      refine hfar (hnear.mono ?_)
      rw [abs_of_pos (sub_pos.2 hav'), abs_of_pos (sub_pos.2 (hle'.trans_lt hav'))]
      linarith
    · have hle' := (le_iff_toRat (hb.isFinite hhard) (hx.isFinite hhard)).1 hle
      refine hfar' (hnear.mono ?_)
      rw [abs_of_neg (sub_neg.2 hvb'), abs_of_neg (sub_neg.2 (hvb'.trans_le hle'))]
      linarith
  refine ⟨ha, hb, fun h => absurd h hnone, fun _ => ⟨le_of_lt hav, ?_⟩,
    fun _ => ⟨le_of_lt hvb, ?_⟩⟩
  · intro x hx hxv
    refine (hgap x hx).resolve_right fun hle => ?_
    exact not_lt_of_le (le_trans hle hxv) hvb
  · intro x hx hvx
    refine (hgap x hx).resolve_left fun hle => ?_
    exact not_lt_of_le (le_trans hvx hle) hav

/-- A valid point is next to itself. -/
theorem closest_self (hhard : hard.Bounded) (htol : (0.0 : Binary64) ≤ tolerance)
    (hv : hard.ZeroOrIn v) : hard.Closest tolerance v ⟨v, v⟩ := by
  have hnear := near_self htol v.toRat
  have hsome : ∃ x, hard.ZeroOrIn x ∧ tolerance.Near v.toRat x.toRat := ⟨v, hv, hnear⟩
  exact ⟨hv, hv, fun _ => ⟨same_self (hv.isFinite hhard), hnear⟩, fun h => absurd hsome h,
    fun h => absurd hsome h⟩

/-- Whether a value is found in the gap above zero, beyond the tolerance of both ends. -/
def InGap (hard : Interval Binary64) (tolerance v : Binary64) : Prop :=
  tolerance < v ∧ v < hard.lower - tolerance

/-- A value that is found in the gap above zero has its ends next to it. -/
theorem InGap.closest (h : hard.InGap tolerance v) (hhard : hard.Bounded)
    (htol : (0.0 : Binary64) ≤ tolerance) : hard.Closest tolerance v ⟨0.0, hard.lower⟩ := by
  rcases h with ⟨hlow, hhigh⟩
  have hpos : (0.0 : Binary64) < v := lt_of_le_of_lt htol hlow
  have hlt : v < hard.lower :=
    lt_of_lt_of_le hhigh (sub_le_self htol (ne_nan_of_le_right (le_of_lt hhigh)))
  have hv := isFinite_of_le_of_le toRat_zero.1 hhard.finite_lower (le_of_lt hpos) (le_of_lt hlt)
  have htolf := isFinite_of_le_of_le toRat_zero.1 hv htol (le_of_lt hlow)
  have hlow' := (lt_iff_toRat htolf hv).1 hlow
  -- the end less the tolerance is rounded, but not past the value
  have hhigh' : v.toRat < hard.lower.toRat - tolerance.toRat := by
    by_contra hle
    exact not_lt_of_le (sub_le_of_toRat_le hhard.finite_lower htolf hv (not_lt.1 hle)) hhigh
  have hnonneg := (le_iff_toRat toRat_zero.1 htolf).1 htol
  rw [toRat_zero.2] at hnonneg
  have hfar : ∀ q : ℚ, tolerance.toRat < |v.toRat - q| → ¬ tolerance.Near v.toRat q := by
    rintro q hdist (rfl | hle)
    · exact absurd htolf Bool.false_ne_true
    · exact not_lt.2 hle hdist
  refine closest_of_gap hhard hv hard.zeroOrIn_zero
    (Or.inr ⟨le_refl_of_ne_nan (ne_nan_of_isFinite hhard.finite_lower), hhard.le⟩) hpos hlt ?_
    (hfar _ ?_) (hfar _ ?_)
  · rintro x (⟨hle, -⟩ | ⟨hle, -⟩)
    · exact Or.inl hle
    · exact Or.inr hle
  · rw [toRat_zero.2, sub_zero, abs_of_nonneg (hnonneg.trans hlow'.le)]
    exact hlow'
  · rw [abs_sub_comm, abs_of_nonneg (by linarith)]
    linarith

end Interval

/-! ## Semicontinuous entities -/

namespace Entity

variable {e : Entity Binary64} {tolerance v : Binary64}

theorem bracket_of_inGap (hclass : e.integrality = .semicontinuous)
    (h : e.hard.InGap tolerance v) : e.bracket tolerance v = ⟨0.0, e.hard.lower⟩ := by
  simp only [bracket, hclass]
  exact if_pos h

theorem bracket_of_not_inGap (hclass : e.integrality = .semicontinuous)
    (h : ¬ e.hard.InGap tolerance v) : e.bracket tolerance v = ⟨v, v⟩ := by
  simp only [bracket, hclass]
  exact if_neg h

end Entity

namespace Object

/-- Next to a value of a semicontinuous entity are the points that should be there exactly if the
value is valid itself, or is found in the gap above zero beyond the tolerance of its ends.  Next to
every value that is not found in that gap is the value itself. -/
theorem bracket_closest_iff {o : Object} {tolerance : Binary64}
    (hclass : o.header.integrality = .semicontinuous) (hhard : o.header.hard.Bounded)
    (htol : (0.0 : Binary64) ≤ tolerance) (v : Binary64) :
    ∃ points, o.bracket (.real v) (.real tolerance) = .ok points ∧
      (o.header.hard.Closest tolerance v points ↔
        o.header.hard.ZeroOrIn v ∨ o.header.hard.InGap tolerance v) ∧
      (¬ o.header.hard.InGap tolerance v → points = ⟨v, v⟩) := by
  refine ⟨_, bracket_real (by rw [hclass]; decide) tolerance v, ?_,
    Entity.bracket_of_not_inGap hclass⟩
  by_cases hgap : o.header.hard.InGap tolerance v
  · rw [Entity.bracket_of_inGap hclass hgap]
    exact iff_of_true (hgap.closest hhard htol) (Or.inr hgap)
  · rw [Entity.bracket_of_not_inGap hclass hgap]
    exact ⟨fun h => Or.inl h.lower,
      fun h => Interval.closest_self hhard htol (h.resolve_right hgap)⟩

/-- A semicontinuous entity of a hard range. -/
def semicontinuous (hard : Interval Binary64) : Object :=
  entity { Fields.plain with integrality := .semicontinuous, hard, soft := hard }

/-- Between zero and the range from two to eight, one has its closest valid points next to it. -/
theorem bracket_closest_one :
    ∃ points, (semicontinuous ⟨2.0, 8.0⟩).bracket (.real 1.0) (.real 1e-6) = .ok points ∧
      Interval.Closest ⟨2.0, 8.0⟩ 1e-6 1.0 points := by
  have hhard : (⟨2.0, 8.0⟩ : Interval Binary64).Bounded :=
    ⟨by decide +kernel, by decide +kernel, by decide +kernel⟩
  have hnonneg : (0.0 : Binary64) ≤ 1e-6 := by decide +kernel
  have hgap : (⟨2.0, 8.0⟩ : Interval Binary64).InGap 1e-6 1.0 :=
    ⟨by decide +kernel, by decide +kernel⟩
  rcases bracket_closest_iff (o := semicontinuous ⟨2.0, 8.0⟩) rfl hhard hnonneg 1.0 with
    ⟨points, hpoints, hclosest, -⟩
  exact ⟨points, hpoints, hclosest.2 (Or.inr hgap)⟩

/-- The fields of a semicontinuous entity of a range below zero. -/
def negativeFields : Fields where
  hardLower := some (.real (-8.0))
  hardUpper := some (.real (-2.0))
  integrality := some (.text "S")

/-- In the gap between the range from minus eight to minus two and zero, minus one has itself next
to it, and so has a value above zero within the tolerance.  Neither of them is valid. -/
theorem bracket_below_zero :
    build .entity negativeFields = .ok (semicontinuous ⟨-8.0, -2.0⟩) ∧
      (semicontinuous ⟨-8.0, -2.0⟩).bracket (.real (-1.0)) (.real 1e-6) = .ok ⟨-1.0, -1.0⟩ ∧
      (semicontinuous ⟨-8.0, -2.0⟩).bracket (.real 5e-7) (.real 1e-6) = .ok ⟨5e-7, 5e-7⟩ ∧
      ¬ Interval.Closest ⟨-8.0, -2.0⟩ 1e-6 (-1.0) ⟨-1.0, -1.0⟩ ∧
      ¬ Interval.Closest ⟨-8.0, -2.0⟩ 1e-6 5e-7 ⟨5e-7, 5e-7⟩ ∧
      Interval.Closest ⟨-8.0, -2.0⟩ 1e-6 (-1.0) ⟨-2.0, 0.0⟩ := by
  have hhard : (⟨-8.0, -2.0⟩ : Interval Binary64).Bounded :=
    ⟨by decide +kernel, by decide +kernel, by decide +kernel⟩
  have hrange : (semicontinuous ⟨-8.0, -2.0⟩).header.hard = ⟨-8.0, -2.0⟩ := rfl
  have hnone : ∀ v : Binary64, ¬ (semicontinuous ⟨-8.0, -2.0⟩).header.hard.InGap 1e-6 v := by
    rintro v ⟨hlow, hhigh⟩
    rw [hrange] at hhigh
    exact absurd (le_of_lt (lt_of_lt_of_le hlow (le_of_lt hhigh))) (by decide +kernel)
  have hself : ∀ v : Binary64,
      (semicontinuous ⟨-8.0, -2.0⟩).bracket (.real v) (.real 1e-6) = .ok ⟨v, v⟩ := by
    intro v
    rw [bracket_real (by decide), Entity.bracket_of_not_inGap rfl (hnone v)]
  refine ⟨rfl, hself _, hself _, fun h => absurd h.lower (by decide +kernel),
    fun h => absurd h.lower (by decide +kernel), ?_⟩
  have hone : (-1.0 : Binary64).toRat = (-1 : ℤ) := toRat_eq_intCast_iff.2 (by decide +kernel)
  have htwo : (-2.0 : Binary64).toRat = (-2 : ℤ) := toRat_eq_intCast_iff.2 (by decide +kernel)
  have hsmall : (1e-6 : Binary64).toRat < 1 := by
    rw [← toRat_one.2, ← lt_iff_toRat (by decide +kernel) toRat_one.1]
    decide +kernel
  have hfar : ∀ q : ℚ, |(-1.0 : Binary64).toRat - q| = 1 →
      ¬ (1e-6 : Binary64).Near (-1.0 : Binary64).toRat q := by
    rintro q hdist (hopen | hle)
    · exact absurd hopen (by decide +kernel)
    · linarith
  refine Interval.closest_of_gap hhard (by decide +kernel) (by decide +kernel) (by decide +kernel)
    (by decide +kernel) (by decide +kernel) ?_ (hfar _ ?_) (hfar _ ?_)
  · rintro x (⟨-, hge⟩ | ⟨-, hle⟩)
    · exact Or.inr hge
    · exact Or.inl hle
  · rw [hone, htwo]
    norm_num
  · rw [hone, toRat_zero.2]
    norm_num

end Object

end BranchBound
