import BranchBound.Proofs.Binary64.Distance
import BranchBound.Proofs.Datum.Tables
import BranchBound.Proofs.Wire.Record
import BranchBound.Workspace.ModelTask
import Mathlib.Data.List.Nodup

/-!
# Selections from solutions

A solution that is recorded without indices, from a list, from a model or from a buffer, keeps the
values that it is given there, each at the position of its variable.  A selection keeps some of
them with their indices, and from then on positions and indices are not the same.  What is found
under an index stays what it was, or zero if it was not kept.

However many selections are made one after the other, a value is kept if every one of them would
have kept it at first.  So it does not matter in which order they are made; and a selection that
keeps whatever another one keeps can be left out beside it.  Such are those of the same kind with a
smaller tolerance.  And since the nearest integer to a number is no further from it than zero is, a
value far from an integer is also far from zero.

Main results:

- Theorem `Solution.Origin.kept_of_gives`: what a solution is recorded with.
- Theorem `Solution.restricts_select`: what a selection from values in order holds.
- Theorem `Selection.keeps_of_milder`: selections that another one makes superfluous.
- Theorem `Solution.narrow_eq`: a chain of selections as one selection.
- Theorem `Solution.selections_consistent`: chains of selections from recorded solutions.
-/

namespace BranchBound

open Binary64

/-! ## Look-ups by an index -/

/-- What is found under a key that no two entries share is the entry with this key. -/
theorem find?_eq_some_iff_of_nodup {α : Type} {entries : List (Int × α)}
    (h : (entries.map Prod.fst).Nodup) {i : Int} {entry : Int × α} :
    entries.find? (fun e => e.1 = i) = some entry ↔ entry ∈ entries ∧ entry.1 = i := by
  constructor
  · intro hfound
    exact ⟨List.mem_of_find?_eq_some hfound, by simpa using List.find?_some hfound⟩
  · rintro ⟨hmem, rfl⟩
    cases hfound : entries.find? (fun e => e.1 = entry.1) with
    | none =>
      have hnone := List.find?_eq_none.1 hfound entry hmem
      exact absurd (decide_eq_true rfl) hnone
    | some e =>
      have hkey : e.1 = entry.1 := by simpa using List.find?_some hfound
      rw [List.inj_on_of_nodup_map h (List.mem_of_find?_eq_some hfound) hmem hkey]

/-- What is found among some of the entries is what was found among all, if it is still there. -/
theorem find?_filter_of_nodup {α : Type} {entries : List (Int × α)}
    (h : (entries.map Prod.fst).Nodup) (keep : Int × α → Bool) (i : Int) :
    (entries.filter keep).find? (fun e => e.1 = i) =
      (entries.find? fun e => e.1 = i).filter keep := by
  have hkept : ((entries.filter keep).map Prod.fst).Nodup :=
    h.sublist (List.filter_sublist.map _)
  ext entry
  rw [find?_eq_some_iff_of_nodup hkept, Option.filter_eq_some_iff, find?_eq_some_iff_of_nodup h,
    List.mem_filter]
  tauto

namespace Solution

variable {s : Solution Binary64}

/-! ## Selections -/

/-- The values with their indices. -/
def entries (s : Solution Binary64) : List (Int × Binary64) := s.indices.zip s.values

theorem map_fst_entries (heven : s.indices.length = s.values.length) :
    s.entries.map Prod.fst = s.indices :=
  List.map_fst_zip heven.le

/-- The value that is found for an integer. -/
def valueAt (s : Solution Binary64) (i : Int) : Binary64 := s.valueWhere (seeks (.integer i))

theorem valueAt_eq (s : Solution Binary64) (i : Int) :
    s.valueAt i = ((s.entries.find? fun e => e.1 = i).map Prod.snd).getD 0.0 := by
  have hseeks (index : Int) : seeks (.integer i) index = decide (index = i) :=
    decide_eq_decide.2 ((Option.some.injEq i index).to_iff.trans eq_comm)
  unfold valueAt valueWhere find?
  simp only [hseeks]
  rfl

theorem even_select (s : Solution Binary64) (keep : Binary64 → Bool) :
    (s.select keep).indices.length = (s.select keep).values.length := by
  rw [select, List.length_map, List.length_map]

/-- A selection keeps some of the values with their indices. -/
theorem entries_select (s : Solution Binary64) (keep : Binary64 → Bool) :
    (s.select keep).entries = s.entries.filter fun e => keep e.2 :=
  List.zip_map'.trans (List.map_id' _)

/-- Two selections are one. -/
theorem select_select (s : Solution Binary64) (keep keep' : Binary64 → Bool) :
    (s.select keep).select keep' = s.select fun x => keep x && keep' x := by
  have hentries : (s.select keep).entries.filter (fun e => keep' e.2) =
      s.entries.filter fun e => keep e.2 && keep' e.2 := by
    rw [entries_select, List.filter_filter]
    simp only [Bool.and_comm]
  unfold entries at hentries
  rw [select, hentries]
  rfl

/-- From nothing nothing is selected. -/
theorem select_of_values_nil (hvalues : s.values = [])
    (heven : s.indices.length = s.values.length) (keep : Binary64 → Bool) :
    s.select keep = s := by
  have hindices : s.indices = [] := by
    rwa [hvalues, List.length_nil, List.length_eq_zero_iff] at heven
  rw [select, hvalues, hindices]
  cases s
  cases hvalues
  cases hindices
  rfl

/-- What is found in a selection is what was found, if it was kept, and zero otherwise. -/
theorem valueAt_select (h : s.indices.Nodup) (heven : s.indices.length = s.values.length)
    (keep : Binary64 → Bool) (i : Int) :
    (s.select keep).valueAt i = if keep (s.valueAt i) then s.valueAt i else 0.0 := by
  have hkeys : (s.entries.map Prod.fst).Nodup := by rwa [map_fst_entries heven]
  rw [valueAt_eq, valueAt_eq, entries_select, find?_filter_of_nodup hkeys]
  cases s.entries.find? fun e => e.1 = i with
  | none =>
    show (0.0 : Binary64) = if keep 0.0 then 0.0 else 0.0
    rw [ite_self]
  | some e =>
    rw [Option.filter_some]
    show _ = if keep e.2 then e.2 else 0.0
    split <;> rfl

/-! ## Recorded solutions -/

/-- What a solution is recorded from, where no indices are given. -/
inductive Origin where
  /-- Values and a quality. -/
  | fields (values quality : Datum)
  /-- The relaxation of a model, and a quality. -/
  | relaxation (m : Model) (quality : Binary64)
  /-- The bytes that come next in a buffer. -/
  | buffer (b : Buffer)

namespace Origin

/-- Whether a solution is what is recorded from an origin. -/
def Gives : Origin → Solution Binary64 → Prop
  | fields values quality, s => build values quality .nothing = .ok s
  | relaxation m quality, s => m.capture quality = s
  | buffer b, s => ∃ b', decode.run b = (.ok s, b')

/-- Whether a solution holds the very values and the quality of its origin: the numbers of a list,
the values of the relaxation, or the doubles on the wire. -/
def Kept : Origin → Solution Binary64 → Prop
  | fields values quality, s => ∀ xs q, Datum.Lists (xs.map .real) values → quality = .real q →
      s.values = xs ∧ s.quality = q
  | relaxation m quality, s => s.values = m.relaxation.solution ∧ s.quality = quality
  | buffer b, s => ∃ reals last rest,
      b.unread = Wire.encodeInt s.values.length ++ (reals ++ last) ++ rest ∧
        Grammar.real.each reals s.values ∧ Grammar.real last s.quality

end Origin

theorem length_firstIndices (n : Nat) : (firstIndices n).length = n := by
  rw [firstIndices, List.length_map, List.length_range]

/-- A list of doubles is recorded as it is. -/
theorem build_of_lists {xs : List Binary64} {values : Datum}
    (h : Datum.Lists (xs.map .real) values) (q : Binary64) :
    build values (.real q) .nothing = .ok (ofValues xs q) := by
  rw [build, h.reals]
  exact if_pos (length_firstIndices _)

/-- Nothing is read past the end of a buffer. -/
theorem cursor_le_of_decode {b b' : Buffer} (h : decode.run b = (.ok s, b')) :
    b.cursor ≤ b.size := by
  by_contra hpast
  have hfirst : Buffer.readInt.run b = (.error _, b) :=
    Action.run_bind_of_error (Buffer.run_take_of_lt (by omega))
  rw [decode, Action.run_bind_of_error hfirst] at h
  cases h

/-- A solution that is recorded keeps what it is recorded from. -/
theorem Origin.kept_of_gives {origin : Origin} (h : origin.Gives s) : origin.Kept s := by
  cases origin with
  | fields values quality =>
    rintro xs q hvalues rfl
    have hbuilt := (build_of_lists hvalues q).symm.trans h
    cases hbuilt
    exact ⟨rfl, rfl⟩
  | relaxation m quality =>
    cases h
    exact ⟨rfl, rfl⟩
  | buffer b =>
    rcases h with ⟨b', hrun⟩
    rcases reads_decode.sound (cursor_le_of_decode hrun) hrun with
      ⟨_, rest, hnext, ⟨reals, last, -, hvalues, hquality, -, rfl⟩, -⟩
    exact ⟨reals, last, rest, hnext, hvalues, hquality⟩

/-- Whether a solution holds its values in the order of the variables. -/
def Ordered (s : Solution Binary64) : Prop := s = ofValues s.values s.quality

/-- A solution that is recorded holds its values in the order of the variables. -/
theorem Origin.ordered_of_gives {origin : Origin} (h : origin.Gives s) : s.Ordered := by
  cases origin with
  | fields values quality =>
    rcases exists_of_bind_eq_ok h with ⟨values, -, h⟩
    rcases exists_of_bind_eq_ok h with ⟨indices, hindices, h⟩
    cases hindices
    dsimp only at h
    split at h
    · rcases exists_of_bind_eq_ok h with ⟨quality, -, h⟩
      cases h
      rfl
    · cases h
  | relaxation m quality =>
    cases h
    rfl
  | buffer b =>
    rcases h with ⟨b', hrun⟩
    rcases reads_decode.sound (cursor_le_of_decode hrun) hrun with
      ⟨_, _, -, ⟨_, _, -, -, -, hordered, -⟩, -⟩
    exact hordered

theorem pairwise_firstIndices (n : Nat) : (firstIndices n).Pairwise (· < ·) := by
  rw [firstIndices, List.pairwise_map]
  exact List.pairwise_lt_range.imp Int.ofNat_lt.2

theorem getElem?_firstIndices {n k : Nat} {i : Int} :
    (firstIndices n)[k]? = some i ↔ k < n ∧ i = k := by
  rw [firstIndices, List.getElem?_map, Option.map_eq_some_iff]
  constructor
  · rintro ⟨m, hm, rfl⟩
    rcases List.getElem?_eq_some_iff.1 hm with ⟨hlt, rfl⟩
    rw [List.length_range] at hlt
    rw [List.getElem_range]
    exact ⟨hlt, rfl⟩
  · rintro ⟨hlt, rfl⟩
    exact ⟨k, List.getElem?_range hlt, rfl⟩

namespace Ordered

theorem indices_eq (h : s.Ordered) : s.indices = firstIndices s.values.length :=
  congrArg indices h

theorem even (h : s.Ordered) : s.indices.length = s.values.length := by
  rw [h.indices_eq, length_firstIndices]

theorem increasing (h : s.Ordered) : s.indices.Pairwise (· < ·) := by
  rw [h.indices_eq]
  exact pairwise_firstIndices _

/-- The entries of such a solution are its values at their positions. -/
theorem mem_entries_iff (h : s.Ordered) {e : Int × Binary64} :
    e ∈ s.entries ↔ 0 ≤ e.1 ∧ s.values[e.1.toNat]? = some e.2 := by
  rw [entries, h.indices_eq, List.mem_iff_getElem?]
  simp only [List.getElem?_zip_eq_some, getElem?_firstIndices]
  constructor
  · rintro ⟨n, ⟨-, hindex⟩, hvalue⟩
    rw [hindex, Int.toNat_natCast]
    exact ⟨Int.natCast_nonneg n, hvalue⟩
  · rintro ⟨hnonneg, hvalue⟩
    have hlt := (List.getElem?_eq_some_iff.1 hvalue).1
    exact ⟨e.1.toNat, ⟨hlt, (Int.toNat_of_nonneg hnonneg).symm⟩, hvalue⟩

/-- Under a position the value at this position is found, and under any other integer zero. -/
theorem valueAt_eq (h : s.Ordered) (i : Int) :
    s.valueAt i = if 0 ≤ i then s.values[i.toNat]?.getD 0.0 else 0.0 := by
  have hkeys : (s.entries.map Prod.fst).Nodup := by
    rw [map_fst_entries h.even]
    exact h.increasing.imp Int.ne_of_lt
  rw [Solution.valueAt_eq]
  cases hfound : s.entries.find? fun e => e.1 = i with
  | some e =>
    rcases (find?_eq_some_iff_of_nodup hkeys).1 hfound with ⟨hmem, rfl⟩
    rcases h.mem_entries_iff.1 hmem with ⟨hnonneg, hvalue⟩
    rw [if_pos hnonneg, hvalue]
    rfl
  | none =>
    show (0.0 : Binary64) = _
    split
    · rename_i hnonneg
      cases hvalue : s.values[i.toNat]? with
      | none => rfl
      | some x =>
        have hmem : (i, x) ∈ s.entries := h.mem_entries_iff.2 ⟨hnonneg, hvalue⟩
        exact absurd (decide_eq_true rfl) (List.find?_eq_none.1 hfound _ hmem)
    · rfl

/-- Where no value is nan, none is found. -/
theorem valueAt_ne_nan (h : s.Ordered) (hvalues : ∀ x ∈ s.values, x ≠ nan) (i : Int) :
    s.valueAt i ≠ nan := by
  have hzero : (0.0 : Binary64) ≠ nan := by decide +kernel
  rw [h.valueAt_eq]
  split
  · cases hvalue : s.values[i.toNat]? with
    | none => exact hzero
    | some x => exact hvalues x (List.mem_of_getElem? hvalue)
  · exact hzero

end Ordered

/-- Whether a solution holds just those values of another one that are to be kept. -/
structure Restricts (s original : Solution Binary64) (keep : Binary64 → Bool) : Prop where
  /-- There is an index for every value. -/
  even : s.indices.length = s.values.length
  /-- The indices increase. -/
  increasing : s.indices.Pairwise (· < ·)
  /-- Under its indices are just the values that are to be kept, each at its position. -/
  mem_entries : ∀ e, e ∈ s.entries ↔
    (0 ≤ e.1 ∧ original.values[e.1.toNat]? = some e.2) ∧ keep e.2 = true
  /-- The quality is the same. -/
  quality : s.quality = original.quality
  /-- What is found is what was found, if it is to be kept, and zero otherwise. -/
  found : ∀ i, s.valueAt i = if keep (original.valueAt i) then original.valueAt i else 0.0

/-- A selection from values in order holds just those that it keeps. -/
theorem restricts_select (h : s.Ordered) (keep : Binary64 → Bool) :
    (s.select keep).Restricts s keep where
  even := even_select s keep
  increasing := by
    have hkeys : (s.entries.map Prod.fst).Pairwise (· < ·) := by
      rw [map_fst_entries h.even]
      exact h.increasing
    exact hkeys.sublist (List.filter_sublist.map _)
  mem_entries e := by rw [entries_select, List.mem_filter, h.mem_entries_iff]
  quality := rfl
  found := valueAt_select (h.increasing.imp Int.ne_of_lt) h.even keep

end Solution

/-! ## Chains of selections -/

/-- A selection from a solution. -/
inductive Selection where
  /-- The values that are further from zero than a tolerance. -/
  | nonzeros (tolerance : Binary64)
  /-- The values that are further from an integer than a tolerance. -/
  | fractional (tolerance : Binary64)

namespace Selection

/-- Whether a selection keeps a value. -/
def keeps : Selection → Binary64 → Bool
  | nonzeros t, x => t < x.abs
  | fractional t, x => t < (x - x.nearest).abs

/-- The solution that is selected. -/
def run (f : Selection) (s : Solution Binary64) : Except Fault (Solution Binary64) :=
  match f with
  | nonzeros t => s.selectBy (.real t) Solution.nonzeros
  | fractional t => s.selectBy (.real t) Solution.fractional

/-- With a number as its tolerance a selection does not fail. -/
theorem run_eq {s : Solution Binary64} (heven : s.indices.length = s.values.length)
    (f : Selection) : f.run s = .ok (s.select f.keeps) := by
  have hselect (t : Binary64) (select : Solution Binary64 → Binary64 → Solution Binary64)
      (keep : Binary64 → Bool) (hkeep : select s t = s.select keep) :
      s.selectBy (.real t) select = .ok (s.select keep) := by
    unfold Solution.selectBy
    split
    · rename_i hempty
      rw [Solution.select_of_values_nil (List.isEmpty_iff.1 hempty) heven]
    · rw [Datum.toReal_real, ← hkeep]
      rfl
  cases f with
  | nonzeros t => exact hselect t _ _ rfl
  | fractional t => exact hselect t _ _ rfl

/-- Whether a selection keeps whatever another one keeps, as its tolerance is not larger. -/
def Milder : Selection → Selection → Prop
  | nonzeros t, nonzeros u => t ≤ u
  | fractional t, fractional u => t ≤ u
  | nonzeros t, fractional u => t ≤ u
  | fractional _, nonzeros _ => False

/-- A milder selection keeps what the other one keeps. -/
theorem keeps_of_milder {f g : Selection} {x : Binary64} (h : f.Milder g)
    (hkept : g.keeps x = true) : f.keeps x = true := by
  cases f with
  | nonzeros t =>
    cases g with
    | nonzeros u => exact decide_eq_true (lt_of_le_of_lt h (of_decide_eq_true hkept))
    | fractional u =>
      have hlt : u < (x - x.nearest).abs := of_decide_eq_true hkept
      have hnumber := ne_nan_of_le_right (le_of_lt hlt)
      have hfinite : x.isFinite = true := by
        cases x with
        | nan => exact absurd rfl hnumber
        | infinity s => exact absurd (by cases s <;> rfl) hnumber
        | finite s k => rfl
      exact decide_eq_true
        (lt_of_le_of_lt h (lt_of_lt_of_le hlt (abs_sub_nearest_le_abs hfinite)))
  | fractional t =>
    cases g with
    | nonzeros u => exact False.elim h
    | fractional u => exact decide_eq_true (lt_of_le_of_lt h (of_decide_eq_true hkept))

end Selection

namespace Solution

/-- A chain of selections, the first one first. -/
def narrow (s : Solution Binary64) (fs : List Selection) : Except Fault (Solution Binary64) :=
  fs.foldlM (fun s f => f.run s) s

/-- A chain of selections keeps what every one of them keeps. -/
theorem narrow_eq {s : Solution Binary64} (heven : s.indices.length = s.values.length)
    (fs : List Selection) :
    s.narrow fs = .ok (s.select fun x => fs.all fun f => f.keeps x) := by
  induction fs generalizing s with
  | nil => exact congrArg Except.ok (select_true heven).symm
  | cons f fs ih =>
    have hstep : s.narrow (f :: fs) = (s.select f.keeps).narrow fs := by
      rw [narrow, List.foldlM_cons, Selection.run_eq heven]
      rfl
    rw [hstep, ih (even_select s f.keeps), select_select]
    rfl

/-- Chains that keep the same values select the same. -/
theorem narrow_congr {s : Solution Binary64} (heven : s.indices.length = s.values.length)
    {fs fs' : List Selection}
    (h : ∀ x, (∀ f ∈ fs', f.keeps x = true) ↔ ∀ f ∈ fs, f.keeps x = true) :
    s.narrow fs' = s.narrow fs := by
  have hkeep : (fun x => fs'.all fun f => f.keeps x) = fun x => fs.all fun f => f.keeps x := by
    funext x
    rw [Bool.eq_iff_iff, List.all_eq_true, List.all_eq_true]
    exact h x
  rw [narrow_eq heven, narrow_eq heven, hkeep]

/-- A selection that is milder than another one in the chain changes nothing. -/
theorem narrow_milder {s : Solution Binary64} (heven : s.indices.length = s.values.length)
    {f g : Selection} {before after : List Selection} (hg : g ∈ before ++ after)
    (hmilder : f.Milder g) : s.narrow (before ++ f :: after) = s.narrow (before ++ after) := by
  refine narrow_congr heven fun x => ?_
  have hmem {k : Selection} : k ∈ before ++ f :: after ↔ k = f ∨ k ∈ before ++ after := by
    simp only [List.mem_append, List.mem_cons]
    tauto
  constructor
  · exact fun hall k hk => hall k (hmem.2 (Or.inr hk))
  · intro hall k hk
    rcases hmem.1 hk with rfl | hk
    · exact Selection.keeps_of_milder hmilder (hall g hg)
    · exact hall k hk

/-- The order of the selections of a chain does not matter. -/
theorem narrow_perm {s : Solution Binary64} (heven : s.indices.length = s.values.length)
    {fs fs' : List Selection} (hperm : fs'.Perm fs) : s.narrow fs' = s.narrow fs := by
  refine narrow_congr heven fun x => ?_
  exact ⟨fun hall f hf => hall f (hperm.mem_iff.2 hf), fun hall f hf => hall f (hperm.mem_iff.1 hf)⟩

/-- By the selection of the values far from zero a value is kept, or it was near zero. -/
theorem valueAt_nonzeros {s s' : Solution Binary64} (h : s.Ordered)
    (hvalues : ∀ x ∈ s.values, x ≠ nan) {t : Binary64} (ht : (0.0 : Binary64) ≤ t)
    (hs' : s.narrow [.nonzeros t] = .ok s') (i : Int) :
    s'.valueAt i = s.valueAt i ∨ s'.valueAt i = 0.0 ∧ (s.valueAt i).abs ≤ t := by
  have hnumber : (s.valueAt i).abs ≠ nan := by
    have hne := h.valueAt_ne_nan hvalues i
    cases hvalue : s.valueAt i with
    | nan => exact absurd hvalue hne
    | infinity s => exact nofun
    | finite s k => exact nofun
  rw [narrow_eq h.even] at hs'
  cases hs'
  rw [(restricts_select h _).found i]
  split
  · exact Or.inl rfl
  · rename_i hdropped
    refine Or.inr ⟨rfl, (not_lt_iff (ne_nan_of_le_right ht) hnumber).1 fun hlt => hdropped ?_⟩
    refine List.all_eq_true.2 fun f hf => ?_
    rw [List.mem_singleton.1 hf]
    exact decide_eq_true hlt

/-- A solution that is recorded keeps the values and the quality of its origin, and finds them under
their positions.  A chain of selections from it succeeds, and holds just those values that every
selection of the chain keeps, under their indices.  The order of the selections does not matter, and
one that is milder than another one in the chain changes nothing, wherever it is made; so the values
far from zero need not be selected before those far from an integer.  By the selection of the values
far from zero alone a value becomes zero only if it is no further from zero than the tolerance. -/
theorem selections_consistent {origin : Origin} {s : Solution Binary64} (h : origin.Gives s) :
    origin.Kept s ∧
    (∀ i : Int, s.valueAt i = if 0 ≤ i then s.values[i.toNat]?.getD 0.0 else 0.0) ∧
    (∀ fs : List Selection, ∃ s', s.narrow fs = .ok s' ∧
      s'.Restricts s fun x => fs.all fun f => f.keeps x) ∧
    (∀ (t : Binary64) (s' : Solution Binary64), (0.0 : Binary64) ≤ t →
      (∀ x ∈ s.values, x ≠ nan) → s.narrow [.nonzeros t] = .ok s' →
      ∀ i, s'.valueAt i = s.valueAt i ∨ s'.valueAt i = 0.0 ∧ (s.valueAt i).abs ≤ t) ∧
    (∀ fs fs' : List Selection, fs'.Perm fs → s.narrow fs' = s.narrow fs) ∧
    (∀ (f g : Selection) (before after : List Selection), g ∈ before ++ after → f.Milder g →
      s.narrow (before ++ f :: after) = s.narrow (before ++ after)) ∧
    ∀ t : Binary64, (0.0 : Binary64) ≤ t →
      s.narrow [.nonzeros t, .fractional t] = s.narrow [.fractional t] := by
  have hordered := Origin.ordered_of_gives h
  refine ⟨Origin.kept_of_gives h, hordered.valueAt_eq,
    fun fs => ⟨_, narrow_eq hordered.even fs, restricts_select hordered _⟩,
    fun t s' ht hvalues hs' => valueAt_nonzeros hordered hvalues ht hs',
    fun fs fs' => narrow_perm hordered.even,
    fun f g before after => narrow_milder hordered.even, fun t ht => ?_⟩
  have hmilder : (Selection.nonzeros t).Milder (.fractional t) :=
    le_refl_of_ne_nan (ne_nan_of_le_right ht)
  have hmem : Selection.fractional t ∈ [] ++ [.fractional t] := List.mem_cons_self
  exact narrow_milder hordered.even hmem hmilder

/-- Values of every kind: an integer, a small one, one between two integers and an infinity. -/
def varied : List Binary64 := [3.0, 0.25, -2.5, .infinity true]

/-- Of the values of every kind only the small one is no further from zero than a quarter, and only
the half is further than that from an integer. -/
theorem selections_consistent_varied :
    ∃ s, build (.sequence (varied.map .real)) (.real 7.0) .nothing = .ok s ∧ s.values = varied ∧
      s.quality = 7.0 ∧
      (∃ s', s.narrow [.nonzeros 0.25] = .ok s' ∧ s'.quality = 7.0 ∧
        s'.valueAt 1 = 0.0 ∧ s'.valueAt 2 = -2.5 ∧
        ∀ i, s'.valueAt i = s.valueAt i ∨
          s'.valueAt i = 0.0 ∧ (s.valueAt i).abs ≤ (0.25 : Binary64)) ∧
      s.narrow [.nonzeros 0.25, .fractional 0.25] = s.narrow [.fractional 0.25] ∧
      s.narrow [.fractional 0.25, .nonzeros 1.0, .fractional 0.125] =
        s.narrow [.nonzeros 1.0, .fractional 0.25] := by
  have hlist : Datum.Lists (varied.map .real) (.sequence (varied.map .real)) := .sequence
  have hbuilt := build_of_lists hlist 7.0
  have hnonneg : (0.0 : Binary64) ≤ (0.25 : Binary64) := by decide +kernel
  have hnumbers : ∀ x ∈ varied, x ≠ nan := by decide +kernel
  have hgives : (Origin.fields (.sequence (varied.map .real)) (.real 7.0)).Gives
      (ofValues varied 7.0) := hbuilt
  rcases selections_consistent hgives with
    ⟨hkept, hfound, hchain, hsmall, hperm, hmilder, habsorbed⟩
  rcases hkept varied 7.0 hlist rfl with ⟨hvalues, hquality⟩
  refine ⟨_, hbuilt, hvalues, hquality, ?_, habsorbed 0.25 hnonneg, ?_⟩
  · rcases hchain [.nonzeros 0.25] with ⟨s', hs', hrestricts⟩
    refine ⟨s', hs', hrestricts.quality, ?_, ?_, hsmall 0.25 s' hnonneg hnumbers hs'⟩
    · rw [hrestricts.found, hfound]
      decide +kernel
    · rw [hrestricts.found, hfound]
      decide +kernel
  · have hless : (Selection.fractional 0.125).Milder (.fractional 0.25) := by
      show (0.125 : Binary64) ≤ (0.25 : Binary64)
      decide +kernel
    have hmem : Selection.fractional 0.25 ∈ [.fractional 0.25, .nonzeros 1.0] ++ [] :=
      List.mem_cons_self
    exact (hmilder _ _ [.fractional 0.25, .nonzeros 1.0] [] hmem hless).trans
      (hperm _ _ (List.Perm.swap _ _ _))

end Solution

end BranchBound
