import BranchBound.Proofs.Column.Cut

/-!
# Ranges within a range

Everything that a column makes of its soft range lies within that range and is integral again: the
range that it is fixed to, the ranges of the children of its branching, and those of the children
of its steps.

A step moves by one from the integer nearest to the value.  Where the doubles lie further apart
than one, it may not move at all; it never leaves the soft range.

Main results:

- Theorem `Interval.Within.trans`: ranges may be narrowed again and again.
- Theorem `Column.Searchable.fix_within`: fixing a column narrows its range.
- Theorem `Column.Searchable.split?_within`: so do the children of its branching.
- Theorem `Column.Searchable.step?_within`: and those of its steps.
-/

namespace BranchBound

open Binary64

-- The number of units in one has 1075 bits and is never to be evaluated.
attribute [local irreducible] Grid.one

namespace Interval

/-- An integral range within another. -/
structure Within (i outer : Interval Binary64) : Prop where
  /-- The range is integral. -/
  integral : i.Integral
  /-- It does not start before the other. -/
  lower_le : outer.lower ≤ i.lower
  /-- It does not end after the other. -/
  le_upper : i.upper ≤ outer.upper

/-- A range within a range within a range is within that. -/
theorem Within.trans {i j k : Interval Binary64} (hij : i.Within j) (hjk : j.Within k) :
    i.Within k where
  integral := hij.integral
  lower_le := le_trans hjk.lower_le hij.lower_le
  le_upper := le_trans hij.le_upper hjk.le_upper

namespace Integral

variable {i : Interval Binary64} {x : Binary64}

theorem ne_nan_lower (h : i.Integral) : i.lower ≠ nan := ne_nan_of_le_left h.le

theorem ne_nan_upper (h : i.Integral) : i.upper ≠ nan := ne_nan_of_le_right h.le

/-- An integral range is within itself. -/
theorem within_self (h : i.Integral) : i.Within i where
  integral := h
  lower_le := le_refl_of_ne_nan h.ne_nan_lower
  le_upper := le_refl_of_ne_nan h.ne_nan_upper

/-- An integer of the range, as a range. -/
theorem point_within (hx : x.IsInteger) (hlow : i.lower ≤ x) (hhigh : x ≤ i.upper) :
    Within ⟨x, x⟩ i where
  integral := ⟨Or.inl hx, Or.inl hx, le_refl_of_ne_nan (ne_nan_of_isFinite hx.isFinite)⟩
  lower_le := hlow
  le_upper := hhigh

/-- The range up to an integer of it. -/
theorem below_within (h : i.Integral) (hx : x.IsInteger) (hlow : i.lower ≤ x)
    (hhigh : x ≤ i.upper) : Within ⟨i.lower, x⟩ i where
  integral := ⟨h.lower, Or.inl hx, hlow⟩
  lower_le := le_refl_of_ne_nan h.ne_nan_lower
  le_upper := hhigh

/-- The range from an integer of it. -/
theorem above_within (h : i.Integral) (hx : x.IsInteger) (hlow : i.lower ≤ x)
    (hhigh : x ≤ i.upper) : Within ⟨x, i.upper⟩ i where
  integral := ⟨Or.inl hx, h.upper, hhigh⟩
  lower_le := hlow
  le_upper := le_refl_of_ne_nan h.ne_nan_upper

end Integral

end Interval

namespace Column

/-- Whether both children of a branching lie within a range. -/
def Narrows (soft : Interval Binary64) (b : Branch Binary64) : Prop :=
  ∀ direction, (b.bounds direction).Within soft

/-- A branching narrows a range if either child does. -/
theorem narrows_iff {soft : Interval Binary64} {b : Branch Binary64} :
    Narrows soft b ↔ b.down.Within soft ∧ b.up.Within soft := by
  constructor
  · intro h
    exact ⟨h .down, h .up⟩
  · rintro ⟨hdown, hup⟩ (_ | _)
    · exact hdown
    · exact hup

/-- A column that is fixed has a range within its range. -/
theorem Searchable.fix_within {c : Column Binary64} (hc : c.Searchable)
    {r : Relaxation Binary64} (hr : ∀ x ∈ r.solution, x.isFinite = true) :
    (c.fix r).soft.Within c.soft := by
  unfold fix
  split
  · exact hc.soft.within_self
  · rename_i v hv
    rcases hc.value_mem hr hv with ⟨hfinite, hlow, hhigh⟩
    rcases hc.soft.nearest_mem hfinite hlow hhigh with ⟨hnearLow, hnearHigh⟩
    exact Interval.Integral.point_within (nearest_exact hfinite).1 hnearLow hnearHigh

/-- The children of a branching of a column lie within its range. -/
theorem Searchable.split?_within {c : Column Binary64} (hc : c.Searchable)
    {r : Relaxation Binary64} (hr : ∀ x ∈ r.solution, x.isFinite = true) {way : Direction}
    {b : Branch Binary64} (hb : c.split? r way = some b) : Narrows c.soft b := by
  rcases hc.cut_of_split? hr hb with ⟨-, -, n, hcut⟩
  have hdown : b.down.upper.IsInteger := ⟨hcut.finite_down, n, hcut.toRat_down⟩
  have hup : b.up.lower.IsInteger := ⟨hcut.finite_up, n + 1, hcut.toRat_up⟩
  -- the two integers are in order, so that each of them is in the range
  have hle : b.down.upper ≤ b.up.lower := by
    rw [le_iff_toRat hcut.finite_down hcut.finite_up, hcut.toRat_down, hcut.toRat_up]
    push_cast
    linarith
  have hbelow := hc.soft.below_within hdown hcut.lower_le (le_trans hle hcut.le_upper)
  have habove := hc.soft.above_within hup (le_trans hcut.lower_le hle) hcut.le_upper
  rw [← hcut.down_lower] at hbelow
  rw [← hcut.up_upper] at habove
  exact narrows_iff.2 ⟨hbelow, habove⟩

/-- The children of a step down lie within the range of the column. -/
theorem Searchable.stepDown?_within {c : Column Binary64} (hc : c.Searchable) {v : Binary64}
    (hv : v.isFinite = true) (hlow : c.soft.lower ≤ v) (hhigh : v ≤ c.soft.upper)
    {b : Branch Binary64} (hb : c.stepDown? v = some b) : Narrows c.soft b := by
  rcases hc.soft.nearest_mem hv hlow hhigh with ⟨hnearLow, hnearHigh⟩
  have hnear := (nearest_exact hv).1
  rcases isInteger_sub_one hnear with ⟨htarget, hback⟩
  unfold stepDown? at hb
  dsimp only at hb
  split at hb
  · cases hb
  · rename_i hin
    have hin' := (not_lt_iff (ne_nan_of_isFinite htarget.isFinite) hc.soft.ne_nan_lower).1 hin
    cases hb
    exact narrows_iff.2 ⟨Interval.Integral.point_within htarget hin' (le_trans hback hnearHigh),
      hc.soft.above_within hnear hnearLow hnearHigh⟩

/-- The children of a step up lie within the range of the column. -/
theorem Searchable.stepUp?_within {c : Column Binary64} (hc : c.Searchable) {v : Binary64}
    (hv : v.isFinite = true) (hlow : c.soft.lower ≤ v) (hhigh : v ≤ c.soft.upper)
    {b : Branch Binary64} (hb : c.stepUp? v = some b) : Narrows c.soft b := by
  rcases hc.soft.nearest_mem hv hlow hhigh with ⟨hnearLow, hnearHigh⟩
  have hnear := (nearest_exact hv).1
  rcases isInteger_add_one hnear with ⟨htarget, hforth⟩
  unfold stepUp? at hb
  dsimp only at hb
  split at hb
  · cases hb
  · rename_i hin
    have hin' := (not_lt_iff hc.soft.ne_nan_upper (ne_nan_of_isFinite htarget.isFinite)).1 hin
    cases hb
    exact narrows_iff.2 ⟨hc.soft.below_within hnear hnearLow hnearHigh,
      Interval.Integral.point_within htarget (le_trans hnearLow hforth) hin'⟩

/-- The children of a step of a column lie within its range. -/
theorem Searchable.step?_within {c : Column Binary64} (hc : c.Searchable)
    {r : Relaxation Binary64} (hr : ∀ x ∈ r.solution, x.isFinite = true) {preferred : Bool}
    {b : Branch Binary64} (hb : c.step? r preferred = .ok (some b)) : Narrows c.soft b := by
  unfold step? at hb
  split at hb
  · cases hb
  · cases hb
  · rename_i costs v _ hvalue
    rcases hc.value_mem hr hvalue with ⟨hv, hlow, hhigh⟩
    split at hb
    · cases hb
    · dsimp only at hb
      generalize hdown : (if preferred = true then _ else _) = goDown at hb
      cases goDown with
      | true =>
        rw [if_pos rfl, Except.ok.injEq] at hb
        exact hc.stepDown?_within hv hlow hhigh hb
      | false =>
        rw [if_neg Bool.false_ne_true, Except.ok.injEq] at hb
        exact hc.stepUp?_within hv hlow hhigh hb

end Column

end BranchBound
