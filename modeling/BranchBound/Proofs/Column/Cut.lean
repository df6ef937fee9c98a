import BranchBound.Column.Basic
import BranchBound.Proofs.Binary64.Value
import Mathlib.Order.Lattice

/-!
# Cutting an integral range

A column is searched over the integers of its soft range.  As long as the ends of that range are
integers, or infinities where the range has no end, every value that the column is judged by lies
in the range, and a branching cuts the range between two successive integers with the value
strictly between them.

No tolerance is mentioned below: a value within the tolerance of an integer is not cut, and what a
cut looks like does not depend on which other values are cut.

Main results:

- Theorem `Interval.Integral.value_mem`: the value of a column is finite and in its range.
- Theorem `Interval.Integral.nearest_mem`: so is the integer nearest to it.
- Theorem `Column.Searchable.cut_of_split?`: every branching of a column is a cut at successive
  integers.
-/

namespace BranchBound

open Binary64

-- The number of units in one has 1075 bits and is never to be evaluated.
attribute [local irreducible] Grid.one

/-! ## Integral ranges -/

/-- A range in order whose ends are integers, or the infinities that leave it open. -/
structure Interval.Integral (i : Interval Binary64) : Prop where
  /-- The lower end is an integer, or there is none. -/
  lower : i.lower.IsInteger ∨ i.lower = infinity true
  /-- The upper end is an integer, or there is none. -/
  upper : i.upper.IsInteger ∨ i.upper = infinity false
  /-- The ends are in order. -/
  le : i.lower ≤ i.upper

theorem le_lesser {x y z : Binary64} (hx : z ≤ x) (hy : z ≤ y) : z ≤ lesser x y := by
  rcases lesser_eq_or x y with h | h <;> rw [h] <;> assumption

theorem lesser_le_right {x y : Binary64} (hx : x ≠ nan) (hy : y ≠ nan) : lesser x y ≤ y := by
  unfold lesser
  split
  · exact le_refl_of_ne_nan hy
  · rename_i h
    exact (not_lt_iff hy hx).1 h

theorem le_greater_right {x y : Binary64} (hx : x ≠ nan) (hy : y ≠ nan) : y ≤ greater x y := by
  unfold greater
  split
  · exact le_refl_of_ne_nan hy
  · rename_i h
    exact (not_lt_iff hx hy).1 h

/-- A number that is moved into a range in order lies in it. -/
theorem clamp_mem {low high x : Binary64} (h : low ≤ high) (hx : x ≠ nan) :
    low ≤ clamp low high x ∧ clamp low high x ≤ high := by
  have hlow := le_greater_right hx (ne_nan_of_le_left h)
  have hraised := ne_nan_of_le_right hlow
  exact ⟨le_lesser hlow h, lesser_le_right hraised (ne_nan_of_le_right h)⟩

/-- A finite number that is moved into a range of finite ends, or without ends, stays finite. -/
theorem isFinite_clamp {low high x : Binary64} (hx : x.isFinite = true)
    (hlow : low.isFinite = true ∨ low = infinity true)
    (hhigh : high.isFinite = true ∨ high = infinity false) :
    (clamp low high x).isFinite = true := by
  have hraised : (greater x low).isFinite = true := by
    rcases hlow with hlow | rfl
    · rcases greater_eq_or x low with h | h <;> rw [h] <;> assumption
    · rwa [greater, if_neg (not_lt_infinity_true x)]
  unfold clamp
  rcases hhigh with hhigh | rfl
  · rcases lesser_eq_or (greater x low) high with h | h <;> rw [h] <;> assumption
  · rwa [lesser, if_neg (not_infinity_false_lt _)]

namespace Interval.Integral

variable {i : Interval Binary64}

/-- A finite number that is moved into an integral range is finite and lies in it. -/
theorem value_mem (h : i.Integral) {x : Binary64} (hx : x.isFinite = true) :
    (clamp i.lower i.upper x).isFinite = true ∧ i.lower ≤ clamp i.lower i.upper x ∧
      clamp i.lower i.upper x ≤ i.upper := by
  refine ⟨isFinite_clamp hx (h.lower.imp_left IsInteger.isFinite)
    (h.upper.imp_left IsInteger.isFinite), clamp_mem h.le (ne_nan_of_isFinite hx)⟩

/-- An integer at or below a value is at or above the lower end if the value is. -/
theorem lower_le_of_floor (h : i.Integral) {v x : Binary64} (hv : v.isFinite = true)
    (hx : x.isFinite = true) (hlow : i.lower ≤ v) (hfloor : (⌊v.toRat⌋ : ℚ) ≤ x.toRat) :
    i.lower ≤ x := by
  rcases h.lower with ⟨hfinite, n, hn⟩ | hopen
  · rw [le_iff_toRat hfinite hv, hn] at hlow
    rw [le_iff_toRat hfinite hx, hn]
    have hint : n ≤ ⌊v.toRat⌋ := Int.le_floor.2 hlow
    exact le_trans (by exact_mod_cast hint) hfloor
  · rw [hopen]
    exact infinity_true_le (ne_nan_of_isFinite hx)

/-- An integer at or above a value is at or below the upper end if the value is. -/
theorem le_upper_of_ceil (h : i.Integral) {v x : Binary64} (hv : v.isFinite = true)
    (hx : x.isFinite = true) (hhigh : v ≤ i.upper) (hceil : x.toRat ≤ (⌈v.toRat⌉ : ℚ)) :
    x ≤ i.upper := by
  rcases h.upper with ⟨hfinite, n, hn⟩ | hopen
  · rw [le_iff_toRat hv hfinite, hn] at hhigh
    rw [le_iff_toRat hx hfinite, hn]
    have hint : ⌈v.toRat⌉ ≤ n := Int.ceil_le.2 hhigh
    exact le_trans hceil (by exact_mod_cast hint)
  · rw [hopen]
    exact le_infinity_false (ne_nan_of_isFinite hx)

/-- The integer nearest to a value of an integral range lies in the range. -/
theorem nearest_mem (h : i.Integral) {v : Binary64} (hv : v.isFinite = true)
    (hlow : i.lower ≤ v) (hhigh : v ≤ i.upper) :
    i.lower ≤ v.nearest ∧ v.nearest ≤ i.upper := by
  have hfinite := (nearest_exact hv).1.isFinite
  constructor
  · exact h.lower_le_of_floor hv hfinite hlow (intCast_le_toRat_nearest hv (Int.floor_le _))
  · exact h.le_upper_of_ceil hv hfinite hhigh (toRat_nearest_le_intCast hv (Int.le_ceil _))

end Interval.Integral

/-! ## Points next to a value -/

/-- The points of a bracket are two successive integers around a value. -/
structure Interval.Separates (points : Interval Binary64) (v : Binary64) : Prop where
  /-- The lower point is finite. -/
  finite_lower : points.lower.isFinite = true
  /-- The upper point is finite. -/
  finite_upper : points.upper.isFinite = true
  /-- The lower point is the floor of the value. -/
  lower_eq : points.lower.toRat = ⌊v.toRat⌋
  /-- The upper point is the ceiling of the value. -/
  upper_eq : points.upper.toRat = ⌈v.toRat⌉
  /-- The two points are successive. -/
  ceil_eq : ⌈v.toRat⌉ = ⌊v.toRat⌋ + 1

theorem toRat_zero : (0.0 : Binary64).isFinite = true ∧ (0.0 : Binary64).toRat = 0 := by
  rw [zero_eq]
  refine ⟨rfl, ?_⟩
  rw [toRat, units_finite, if_neg Bool.false_ne_true, Grid.units_zero, Nat.cast_zero,
    Int.cast_zero, zero_div]

theorem toRat_one : (1.0 : Binary64).isFinite = true ∧ (1.0 : Binary64).toRat = 1 := by
  refine ⟨isInteger_one.isFinite, ?_⟩
  have hvalue : (1.0 : Binary64).toRat = (1 : ℤ) := by
    rw [toRat_eq_intCast_iff, units_one, one_mul]
  simpa using hvalue

theorem toRat_lesser {x y : Binary64} (hx : x.isFinite = true) (hy : y.isFinite = true) :
    (lesser x y).toRat = min x.toRat y.toRat := by
  unfold lesser
  split
  · rename_i h
    rw [min_eq_right ((lt_iff_toRat hy hx).1 h).le]
  · rename_i h
    have hle := (not_lt_iff (ne_nan_of_isFinite hy) (ne_nan_of_isFinite hx)).1 h
    rw [min_eq_left ((le_iff_toRat hx hy).1 hle)]

theorem toRat_greater {x y : Binary64} (hx : x.isFinite = true) (hy : y.isFinite = true) :
    (greater x y).toRat = max x.toRat y.toRat := by
  unfold greater
  split
  · rename_i h
    rw [max_eq_right ((lt_iff_toRat hx hy).1 h).le]
  · rename_i h
    have hle := (not_lt_iff (ne_nan_of_isFinite hx) (ne_nan_of_isFinite hy)).1 h
    rw [max_eq_left ((le_iff_toRat hy hx).1 hle)]

/-- A finite number moved between zero and one. -/
theorem toRat_clamp_unit {x : Binary64} (hx : x.isFinite = true) :
    (clamp (0.0 : Binary64) (1.0 : Binary64) x).isFinite = true ∧
      (clamp (0.0 : Binary64) (1.0 : Binary64) x).toRat = min (max x.toRat 0) 1 := by
  have hraised : (greater x (0.0 : Binary64)).isFinite = true := by
    rcases greater_eq_or x (0.0 : Binary64) with h | h <;> rw [h]
    · exact hx
    · exact toRat_zero.1
  refine ⟨isFinite_clamp hx (Or.inl toRat_zero.1) (Or.inl toRat_one.1), ?_⟩
  rw [clamp, toRat_lesser hraised toRat_one.1, toRat_greater hx toRat_zero.1, toRat_zero.2,
    toRat_one.2]

/-- The integers next to a value are one, or two successive ones around it. -/
theorem Entity.integerBracket_cases (tolerance v : Binary64) :
    Entity.integerBracket tolerance v = ⟨v.nearest, v.nearest⟩ ∨
      Entity.integerBracket tolerance v = ⟨v.floor, v.ceiling⟩ := by
  unfold Entity.integerBracket
  dsimp only
  split
  · exact Or.inl rfl
  · exact Or.inr rfl

theorem same_self {x : Binary64} (hx : x.isFinite = true) : Same x x :=
  (same_iff_toRat hx hx).2 rfl

/-- Floor and ceiling of a value that is no integer are successive. -/
theorem ceil_eq_floor_add_one {q : ℚ} (h : (⌊q⌋ : ℚ) ≠ ⌈q⌉) : ⌈q⌉ = ⌊q⌋ + 1 := by
  have hle : ⌊q⌋ ≤ ⌈q⌉ := Int.floor_le_ceil q
  have hge : ⌈q⌉ ≤ ⌊q⌋ + 1 := Int.ceil_le_floor_add_one q
  have hne : ⌊q⌋ ≠ ⌈q⌉ := by exact_mod_cast h
  omega

/-- The integers next to a finite value, if they differ, are successive and around it. -/
theorem Entity.separates_integerBracket {tolerance v : Binary64} (hv : v.isFinite = true)
    (hdiff : ¬ Same (Entity.integerBracket tolerance v).lower
      (Entity.integerBracket tolerance v).upper) :
    (Entity.integerBracket tolerance v).Separates v := by
  rcases Entity.integerBracket_cases tolerance v with h | h
  · rw [h] at hdiff
    exact absurd (same_self (nearest_exact hv).1.isFinite) hdiff
  · rcases floor_exact hv with ⟨hfloor, hfloor'⟩
    rcases ceiling_exact hv with ⟨hceil, hceil'⟩
    rw [h] at hdiff ⊢
    rw [same_iff_toRat hfloor hceil, hfloor', hceil'] at hdiff
    exact ⟨hfloor, hceil, hfloor', hceil', ceil_eq_floor_add_one hdiff⟩

/-- Between zero and one, successive integers that differ are zero and one. -/
theorem floor_eq_zero_of_clamp_ne {n m : ℤ} (hm : m = n ∨ m = n + 1)
    (hne : min (max (n : ℚ) 0) 1 ≠ min (max (m : ℚ) 0) 1) : n = 0 ∧ m = 1 := by
  have hne' : min (max n 0) 1 ≠ min (max m 0) 1 := by exact_mod_cast hne
  omega

/-- The binary points next to a finite value, if they differ, are zero and one around it. -/
theorem Entity.separates_binary (tolerance : Binary64) {v : Binary64} (hv : v.isFinite = true)
    {points : Interval Binary64}
    (hlower : points.lower =
      clamp (0.0 : Binary64) (1.0 : Binary64) (Entity.integerBracket tolerance v).lower)
    (hupper : points.upper =
      clamp (0.0 : Binary64) (1.0 : Binary64) (Entity.integerBracket tolerance v).upper)
    (hdiff : ¬ Same points.lower points.upper) : points.Separates v := by
  rcases Entity.integerBracket_cases tolerance v with h | h
  · have hpoint := (toRat_clamp_unit (nearest_exact hv).1.isFinite).1
    rw [h] at hlower hupper
    dsimp only at hlower hupper
    rw [← hlower] at hpoint
    rw [hupper, ← hlower] at hdiff
    exact absurd (same_self hpoint) hdiff
  · rcases floor_exact hv with ⟨hfloor, hfloor'⟩
    rcases ceiling_exact hv with ⟨hceil, hceil'⟩
    rcases toRat_clamp_unit hfloor with ⟨hlow, hlow'⟩
    rcases toRat_clamp_unit hceil with ⟨hhigh, hhigh'⟩
    rw [h] at hlower hupper
    dsimp only at hlower hupper
    rw [← hlower] at hlow hlow'
    rw [← hupper] at hhigh hhigh'
    rw [hfloor'] at hlow'
    rw [hceil'] at hhigh'
    rw [same_iff_toRat hlow hhigh, hlow', hhigh'] at hdiff
    have hsuccessive : ⌈v.toRat⌉ = ⌊v.toRat⌋ ∨ ⌈v.toRat⌉ = ⌊v.toRat⌋ + 1 := by
      have hle : ⌊v.toRat⌋ ≤ ⌈v.toRat⌉ := Int.floor_le_ceil _
      have hge : ⌈v.toRat⌉ ≤ ⌊v.toRat⌋ + 1 := Int.ceil_le_floor_add_one _
      omega
    rcases floor_eq_zero_of_clamp_ne hsuccessive hdiff with ⟨hzero, hone⟩
    refine ⟨hlow, hhigh, ?_, ?_, by omega⟩
    · rw [hlow', hzero]
      norm_num
    · rw [hhigh', hone]
      norm_num

/-! ## Branchings -/

namespace Column

/-- What a column that is searched over integers looks like. -/
structure Searchable (c : Column Binary64) : Prop where
  /-- It is an integer or a binary column. -/
  integrality : c.integrality = .integer ∨ c.integrality = .binary
  /-- Its soft range is integral. -/
  soft : c.soft.Integral

/-- A branching that cuts a range between two successive integers, the value between them. -/
structure IsCut (soft : Interval Binary64) (b : Branch Binary64) (n : ℤ) : Prop where
  /-- The down child has the lower end of the range. -/
  down_lower : b.down.lower = soft.lower
  /-- The up child has the upper end of the range. -/
  up_upper : b.up.upper = soft.upper
  /-- The upper end of the down child is a finite number. -/
  finite_down : b.down.upper.isFinite = true
  /-- The lower end of the up child is a finite number. -/
  finite_up : b.up.lower.isFinite = true
  /-- The value is a finite number. -/
  finite_value : b.value.isFinite = true
  /-- The down child ends at an integer. -/
  toRat_down : b.down.upper.toRat = n
  /-- The up child starts at the next integer. -/
  toRat_up : b.up.lower.toRat = (n + 1 : ℤ)
  /-- The value lies above the down child. -/
  lt_value : (n : ℚ) < b.value.toRat
  /-- The value lies below the up child. -/
  value_lt : b.value.toRat < (n + 1 : ℤ)
  /-- The down child is not empty. -/
  lower_le : soft.lower ≤ b.down.upper
  /-- The up child is not empty. -/
  le_upper : b.up.lower ≤ soft.upper

/-- The value of a column in a relaxation of finite values is finite and in the soft range. -/
theorem Searchable.value_mem {c : Column Binary64} (hc : c.Searchable)
    {r : Relaxation Binary64} (hr : ∀ x ∈ r.solution, x.isFinite = true) {v : Binary64}
    (hv : c.value? r = some v) :
    v.isFinite = true ∧ c.soft.lower ≤ v ∧ v ≤ c.soft.upper := by
  unfold value? at hv
  split at hv
  · cases hv
  · rcases Option.map_eq_some_iff.1 hv with ⟨x, hx, rfl⟩
    exact hc.soft.value_mem (hr x (List.mem_of_getElem? hx))

/-- The points that a column is branched at, if they differ, are successive integers. -/
theorem Searchable.separates_bracket {c : Column Binary64} (hc : c.Searchable)
    {tolerance v : Binary64} (hv : v.isFinite = true)
    (hdiff : ¬ Same (c.bracket tolerance v).lower (c.bracket tolerance v).upper) :
    (c.bracket tolerance v).Separates v := by
  rcases hc.integrality with h | h
  · have hpoints : c.bracket tolerance v = Entity.integerBracket tolerance v := by
      simp only [Entity.bracket, h]
    rw [hpoints] at hdiff ⊢
    exact Entity.separates_integerBracket hv hdiff
  · have hpoints : c.bracket tolerance v =
        ⟨clamp (0.0 : Binary64) (1.0 : Binary64) (Entity.integerBracket tolerance v).lower,
          clamp (0.0 : Binary64) (1.0 : Binary64) (Entity.integerBracket tolerance v).upper⟩ := by
      simp only [Entity.bracket, h]
    generalize c.bracket tolerance v = points at *
    exact Entity.separates_binary tolerance hv (by rw [hpoints]) (by rw [hpoints]) hdiff

/-- Every branching of a column is a cut of its soft range at successive integers. -/
theorem Searchable.cut_of_split? {c : Column Binary64} (hc : c.Searchable)
    {r : Relaxation Binary64} (hr : ∀ x ∈ r.solution, x.isFinite = true) {way : Direction}
    {b : Branch Binary64} (hb : c.split? r way = some b) :
    b.index = c.index ∧ c.value? r = some b.value ∧ ∃ n, IsCut c.soft b n := by
  unfold split? at hb
  split at hb
  · cases hb
  · rename_i v hv
    dsimp only at hb
    split at hb
    · cases hb
    · rename_i hdiff
      cases hb
      rcases hc.value_mem hr hv with ⟨hfinite, hlow, hhigh⟩
      have hsep := hc.separates_bracket hfinite hdiff
      have hne : v.toRat ≠ ⌊v.toRat⌋ := by
        intro heq
        have hceil : ⌈v.toRat⌉ = ⌊v.toRat⌋ := by
          rw [Int.ceil_eq_iff]
          constructor <;> linarith
        have := hsep.ceil_eq
        omega
      refine ⟨rfl, hv, ⌊v.toRat⌋, rfl, rfl, hsep.finite_lower, hsep.finite_upper, hfinite,
        hsep.lower_eq, ?_, ?_, ?_, ?_, ?_⟩
      · rw [hsep.upper_eq, hsep.ceil_eq]
      · exact lt_of_le_of_ne (Int.floor_le _) hne.symm
      · push_cast
        exact Int.lt_floor_add_one _
      · exact hc.soft.lower_le_of_floor hfinite hsep.finite_lower hlow hsep.lower_eq.ge
      · exact hc.soft.le_upper_of_ceil hfinite hsep.finite_upper hhigh hsep.upper_eq.le

end Column

end BranchBound
