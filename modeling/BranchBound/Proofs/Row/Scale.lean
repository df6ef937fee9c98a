import BranchBound.Proofs.Binary64.Squash
import BranchBound.Proofs.Binary64.Tolerance
import BranchBound.Row.Basic

/-!
# The scale of the infeasibility of rows

An infeasibility is meant to lie between zero and one half, and to be zero exactly where there is no
direction to move in.  For a row it is the squashed excess of its activity over the soft range.  A
finite excess is squashed as meant, except for one: half of the least number is rounded to zero, and
the row is then feasible with a direction.  An infinite excess over one and itself is no number.

The excess is infinite for an infinite activity outside the range, and also for finite numbers that
are too far apart for their difference to be finite.

Main results:

- Theorem `Row.squash_finite`: how a finite distance is squashed.
- Theorem `Row.inScale_score_iff`: which activities are judged on the scale.
-/

namespace BranchBound

open Binary64

-- The number of units in one has 1075 bits and is never to be evaluated.
attribute [local irreducible] Grid.one

/-- Whether an infeasibility and a direction are on the scale: a number between zero and one half,
which is zero exactly if there is no direction. -/
def InScale (judged : Binary64 × Option Direction) : Prop :=
  ((0.0 : Binary64) ≤ judged.1 ∧ judged.1 ≤ (0.5 : Binary64)) ∧
    (judged.2 = none ↔ Same judged.1 (0.0 : Binary64))

instance : DecidablePred InScale := fun judged =>
  inferInstanceAs (Decidable (((0.0 : Binary64) ≤ judged.1 ∧ judged.1 ≤ (0.5 : Binary64)) ∧
    (judged.2 = none ↔ Same judged.1 (0.0 : Binary64))))

theorem inScale_feasible : InScale (0.0, none) := by decide +kernel

theorem not_inScale_nan (way : Option Direction) : ¬ InScale (nan, way) := by
  rintro ⟨⟨hlow, -⟩, -⟩
  exact not_le_nan _ hlow

namespace Binary64

/-- The least positive number. -/
def least : Binary64 := finite false ⟨1, by decide⟩

theorem finite_false_le_iff {j k : Fin placeCount} :
    finite false j ≤ finite false k ↔ j.val ≤ k.val := by
  rw [le_iff_units rfl rfl, units_finite, units_finite, if_neg Bool.false_ne_true,
    if_neg Bool.false_ne_true, Int.ofNat_le, Grid.units_le_iff]

theorem div_finite (s t : Bool) (j : Fin placeCount) {k : Fin placeCount} (h : k.val ≠ 0) :
    finite s j / finite t k = rounded (s ^^ t) (Grid.units j * Grid.one) (Grid.units k) := by
  show div (finite s j) (finite t k) = _
  rw [div, if_neg h]

/-- A number up to one half with a direction is on the scale unless it is zero. -/
theorem inScale_finite_iff {k : Fin placeCount} (hk : k.val ≤ Grid.halfPlace) (way : Direction) :
    InScale (finite false k, some way) ↔ k.val ≠ 0 := by
  have hzero : Same (finite false k) (0.0 : Binary64) ↔ k.val = 0 := by
    show finite false k ≤ (0.0 : Binary64) ∧ (0.0 : Binary64) ≤ finite false k ↔ _
    rw [zero_eq, finite_false_le_iff, finite_false_le_iff]
    simp
  have hrange : (0.0 : Binary64) ≤ finite false k ∧ finite false k ≤ (0.5 : Binary64) := by
    rw [zero_eq, half_eq, finite_false_le_iff, finite_false_le_iff]
    exact ⟨Nat.zero_le _, hk⟩
  unfold InScale
  dsimp only
  rw [hzero]
  simp [hrange]

end Binary64

namespace Row

/-! ## Squashing -/

/-- A finite distance is squashed without a fault, and in the range. -/
theorem squash_finite (k : Fin placeCount) :
    ∃ j : Fin placeCount, squash (finite false k) = .ok (finite false j) ∧
      j.val = Grid.squashed k := by
  have hhalved := Grid.halved_lt k.isLt
  have hraised := Grid.raised_lt k.isLt
  have hpos : 0 < Grid.units (Grid.raised k) :=
    Nat.lt_of_lt_of_le Grid.one_pos (Grid.one_le_units_raised k)
  have hplace : Grid.raised k ≠ 0 := fun hzero => hpos.ne' (Grid.units_eq_zero_iff.2 hzero)
  have hsquashed : Grid.squashed k < placeCount :=
    Nat.lt_of_le_of_lt (Grid.squashed_le k) (by decide)
  have hproduct : (0.5 : Binary64) * finite false k = finite false ⟨Grid.halved k, hhalved⟩ := by
    rw [half_eq, mul_finite, rounded_of_lt _ hhalved]
    rfl
  have hsum : (1.0 : Binary64) + finite false k = finite false ⟨Grid.raised k, hraised⟩ := by
    have hunits : (1.0 : Binary64).units + (finite false k).units =
        ((Grid.one + Grid.units k : ℕ) : ℤ) := by
      rw [units_one, units_finite, if_neg Bool.false_ne_true]
      push_cast
      rfl
    have hone := Grid.one_pos
    rw [one_eq] at hunits ⊢
    rw [add_finite (by omega), hunits, ofUnits, decide_eq_false (by omega), Int.natAbs_natCast,
      rounded_of_lt _ hraised]
    rfl
  have hquotient : finite false ⟨Grid.halved k, hhalved⟩ / finite false ⟨Grid.raised k, hraised⟩ =
      finite false ⟨Grid.squashed k, hsquashed⟩ := by
    rw [div_finite _ _ _ hplace, rounded_of_lt _ hsquashed]
    rfl
  have hnonzero : ¬ Same (finite false ⟨Grid.raised k, hraised⟩) (0.0 : Binary64) := by
    rintro ⟨hle, -⟩
    rw [zero_eq, finite_false_le_iff] at hle
    exact hplace (Nat.le_zero.1 hle)
  refine ⟨⟨Grid.squashed k, hsquashed⟩, ?_, rfl⟩
  rw [squash, hproduct, hsum, if_neg hnonzero, hquotient]

/-- An infinite distance is squashed to no number. -/
theorem squash_infinity : squash (infinity false) = .ok nan := by
  have hsum : (1.0 : Binary64) + infinity false = infinity false := by
    rw [one_eq]
    rfl
  have hproduct : (0.5 : Binary64) * infinity false = infinity false := by decide +kernel
  have hnonzero : ¬ Same (infinity false) (0.0 : Binary64) := by decide +kernel
  rw [squash, hproduct, hsum, if_neg hnonzero]
  rfl

/-! ## The excess of an activity -/

/-- How far an activity is outside the soft range, if it is so by more than a tolerance. -/
def excess (r : Row Binary64) (tolerance activity : Binary64) : Option Binary64 :=
  if activity < r.soft.lower - tolerance then some (r.soft.lower - activity)
  else if r.soft.upper + tolerance < activity then some (activity - r.soft.upper)
  else none

variable {r : Row Binary64} {tolerance activity v : Binary64}

/-- An excess is positive. -/
theorem excess_cases (htol : (0.0 : Binary64) ≤ tolerance)
    (h : r.excess tolerance activity = some v) :
    v = infinity false ∨ ∃ k : Fin placeCount, 0 < k.val ∧ v = finite false k := by
  unfold excess at h
  split at h
  · rename_i hbelow
    cases h
    have hne := ne_nan_of_le_right (le_of_lt hbelow)
    exact exists_sub_of_lt (lt_of_lt_of_le hbelow (sub_le_self htol hne))
  · split at h
    · rename_i habove
      cases h
      have hne := ne_nan_of_le_left (le_of_lt habove)
      exact exists_sub_of_lt (lt_of_le_of_lt (le_add_self htol hne) habove)
    · cases h

theorem score_of_excess_none (h : r.excess tolerance activity = none) :
    r.score tolerance activity = .ok (0.0, none) := by
  unfold excess at h
  unfold score
  split at h
  · cases h
  · split at h
    · cases h
    · rename_i hbelow habove
      rw [if_neg hbelow, if_neg habove]

theorem exists_score_of_excess (h : r.excess tolerance activity = some v) :
    ∃ way : Direction, r.score tolerance activity = (squash v).map (·, some way) := by
  unfold excess at h
  unfold score
  split at h
  · rename_i hbelow
    cases h
    exact ⟨.up, if_pos hbelow⟩
  · rename_i hbelow
    split at h
    · rename_i habove
      cases h
      rw [if_neg hbelow]
      exact ⟨.down, if_pos habove⟩
    · cases h

/-- An activity is judged on the scale exactly if its excess, if there is one, is finite and more
than the least number. -/
theorem inScale_score_iff (htol : (0.0 : Binary64) ≤ tolerance) :
    ∃ judged, r.score tolerance activity = .ok judged ∧
      (InScale judged ↔
        ∀ v, r.excess tolerance activity = some v → v.isFinite = true ∧ v ≠ least) := by
  cases hexcess : r.excess tolerance activity with
  | none =>
    refine ⟨_, score_of_excess_none hexcess, iff_of_true inScale_feasible ?_⟩
    intro v hv
    cases hv
  | some v =>
    rcases exists_score_of_excess hexcess with ⟨way, hscore⟩
    rcases excess_cases htol hexcess with rfl | ⟨k, hpos, rfl⟩
    · refine ⟨(nan, some way), by rw [hscore, squash_infinity]; rfl, ?_⟩
      refine iff_of_false (not_inScale_nan _) fun hall => ?_
      exact absurd (hall _ rfl).1 Bool.false_ne_true
    · rcases squash_finite k with ⟨j, hsquash, hj⟩
      refine ⟨(finite false j, some way), by rw [hscore, hsquash]; rfl, ?_⟩
      rw [inScale_finite_iff (by rw [hj]; exact Grid.squashed_le k), hj, ne_eq,
        Grid.squashed_eq_zero_iff k.isLt]
      constructor
      · rintro hmore _ ⟨⟩
        refine ⟨rfl, ?_⟩
        rintro heq
        cases heq
        exact hmore (Nat.le_refl 1)
      · intro hall hle
        refine (hall _ rfl).2 ?_
        rw [least, finite.injEq]
        exact ⟨rfl, Fin.ext (by dsimp only; omega)⟩

end Row

end BranchBound
