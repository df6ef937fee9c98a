import BranchBound.Proofs.Exact
import BranchBound.Proofs.Row.Construction
import BranchBound.Proofs.Row.Lookup
import Mathlib.Algebra.BigOperators.Group.List.Basic

/-!
# The normal form of a row

A row holds the terms that it is built from in the order of their indices, and terms of one index in
the order in which they were given.  So the terms of every single index are the same list in the row
as they were before, and a list that ascends is known from these lists alone: two rows are built
alike exactly if they were given the same terms for every index.  Where no index is given twice, the
order of the terms makes no difference at all.

Nothing is lost on the way: without rounding the activity of a row is the sum over the terms as they
were given.

Main results:

- Theorem `Row.sortTerms_eq_iff`: which terms are ordered to the same terms.
- Theorem `Row.normalises_ofOrdered`: the row of ordered terms holds them in normal form.
- Theorem `Row.activity_ofTerms`: the activity of such a row in exact arithmetic.
- Theorem `Object.build_eq_iff`: which fields give the same row.
- Theorem `Object.built_in_normal_form`: rows that are built from fields.
-/

namespace BranchBound

namespace Row

variable {N : Type}

/-! ## Terms in order -/

/-- The terms of one index, in the order in which they stand. -/
def termsAt (terms : List (Int × N)) (i : Int) : List (Int × N) :=
  terms.filter fun t => t.1 = i

theorem termsAt_cons (t : Int × N) (terms : List (Int × N)) (i : Int) :
    termsAt (t :: terms) i = if t.1 = i then t :: termsAt terms i else termsAt terms i := by
  simp only [termsAt, List.filter_cons, decide_eq_true_eq]

/-- A term is among those of its index. -/
theorem mem_termsAt {t : Int × N} {terms : List (Int × N)} {i : Int} :
    t ∈ termsAt terms i ↔ t ∈ terms ∧ t.1 = i := by
  simp only [termsAt, List.mem_filter, decide_eq_true_eq]

/-- Ordering terms keeps the order of those of one index. -/
theorem termsAt_sortTerms (terms : List (Int × N)) (i : Int) :
    termsAt (sortTerms terms) i = termsAt terms i := by
  have hle : (termsAt terms i).Pairwise fun s t => decide (s.1 ≤ t.1) = true := by
    refine List.pairwise_of_forall_mem_list fun s hs t ht => ?_
    rw [(mem_termsAt.1 hs).2, (mem_termsAt.1 ht).2, decide_eq_true_eq]
  have hsorted : (termsAt terms i).Sublist (sortTerms terms) :=
    List.sublist_mergeSort index_le_trans index_le_total hle List.filter_sublist
  have hsub : (termsAt terms i).Sublist (termsAt (sortTerms terms) i) := by
    have hfilter := hsorted.filter fun t => t.1 = i
    simpa only [termsAt, List.filter_filter, Bool.and_self] using hfilter
  have hlength : (termsAt terms i).length = (termsAt (sortTerms terms) i).length :=
    ((sortTerms_perm terms).filter _).length_eq.symm
  exact (hsub.eq_of_length hlength).symm

/-- The terms of every index are all terms. -/
theorem mem_iff_of_termsAt_eq {ss ts : List (Int × N)} (h : ∀ i, termsAt ss i = termsAt ts i)
    {t : Int × N} : t ∈ ss ↔ t ∈ ts := by
  have hiff : t ∈ termsAt ss t.1 ↔ t ∈ termsAt ts t.1 := by rw [h]
  simpa only [mem_termsAt, and_true] using hiff

/-- The first of terms that ascend has the least index. -/
theorem head_le_of_mem {s t : Int × N} {terms : List (Int × N)} (h : ∀ u ∈ terms, s.1 ≤ u.1)
    (ht : t ∈ s :: terms) : s.1 ≤ t.1 := by
  rcases List.mem_cons.1 ht with rfl | hin
  · exact le_rfl
  · exact h t hin

/-- Terms that ascend are known from the terms of every index. -/
theorem eq_of_termsAt_eq {ss ts : List (Int × N)} (hs : ss.Pairwise fun s t => s.1 ≤ t.1)
    (ht : ts.Pairwise fun s t => s.1 ≤ t.1) (h : ∀ i, termsAt ss i = termsAt ts i) : ss = ts := by
  have hmem {t : Int × N} : t ∈ ss ↔ t ∈ ts := mem_iff_of_termsAt_eq h
  induction ss generalizing ts with
  | nil =>
    symm
    exact List.eq_nil_iff_forall_not_mem.2 fun t ht => List.not_mem_nil (hmem.2 ht)
  | cons s ss ih =>
    cases ts with
    | nil => exact absurd (hmem.1 List.mem_cons_self) List.not_mem_nil
    | cons t ts =>
      rw [List.pairwise_cons] at hs ht
      -- the first terms have the same index, since either is among the terms of the other list
      have hle : s.1 ≤ t.1 := head_le_of_mem hs.1 (hmem.2 List.mem_cons_self)
      have hge : t.1 ≤ s.1 := head_le_of_mem ht.1 (hmem.1 List.mem_cons_self)
      have hindex : s.1 = t.1 := Int.le_antisymm hle hge
      have hfirst := h t.1
      rw [termsAt_cons, termsAt_cons, if_pos hindex, if_pos rfl, List.cons.injEq] at hfirst
      rcases hfirst with ⟨rfl, hrest⟩
      have hrests : ∀ i, termsAt ss i = termsAt ts i := by
        intro i
        have hi := h i
        rw [termsAt_cons, termsAt_cons] at hi
        split at hi
        · exact (List.cons.inj hi).2
        · exact hi
      rw [ih hs.2 ht.2 hrests (mem_iff_of_termsAt_eq hrests)]

/-- Terms are ordered to the same terms exactly if they are the same for every index. -/
theorem sortTerms_eq_iff {ss ts : List (Int × N)} :
    sortTerms ss = sortTerms ts ↔ ∀ i, termsAt ss i = termsAt ts i := by
  constructor
  · intro h i
    rw [← termsAt_sortTerms ss, h, termsAt_sortTerms]
  · intro h
    refine eq_of_termsAt_eq (sortTerms_sorted ss) (sortTerms_sorted ts) fun i => ?_
    rw [termsAt_sortTerms, termsAt_sortTerms, h]

/-- Where no index stands twice, another order of the terms has the same term for every index. -/
theorem termsAt_eq_of_perm {ss ts : List (Int × N)} (h : ss.Perm ts)
    (hdistinct : (ss.map Prod.fst).Nodup) (i : Int) : termsAt ss i = termsAt ts i := by
  have hsingle {us : List (Int × N)} (hus : (us.map Prod.fst).Nodup) :
      (termsAt us i).Pairwise fun _ _ => False := by
    have hne : (termsAt us i).Pairwise fun s t => s.1 ≠ t.1 :=
      (List.pairwise_map.1 hus).sublist List.filter_sublist
    refine hne.imp_of_mem fun hs ht hdiffer => hdiffer ?_
    rw [(mem_termsAt.1 hs).2, (mem_termsAt.1 ht).2]
  exact (h.filter _).eq_of_pairwise (fun _ _ _ _ hfalse => hfalse.elim) (hsingle hdistinct)
    (hsingle ((h.map _).nodup hdistinct))

/-! ## Rows in normal form -/

/-- The terms of a row, in the order in which it holds them. -/
def terms (r : Row N) : List (Int × N) := r.indices.zip r.coefficients

/-- Whether a row holds some terms in normal form. -/
structure Normalises (r : Row N) (given : List (Int × N)) : Prop where
  /-- There is a coefficient for every index. -/
  even : r.indices.length = r.coefficients.length
  /-- The indices ascend. -/
  sorted : r.indices.Pairwise (· ≤ ·)
  /-- The terms are those given, each as often as it was. -/
  perm : r.terms.Perm given
  /-- The terms of one index stand in the order in which they were given. -/
  stable : ∀ i, termsAt r.terms i = termsAt given i

variable {e : Entity N} {indices indices' : List Int} {coefficients coefficients' : List N}

/-- The row of some terms that are in order already. -/
def ofOrdered (e : Entity N) (terms : List (Int × N)) : Row N :=
  { e with indices := terms.map Prod.fst, coefficients := terms.map Prod.snd }

theorem terms_ofOrdered (e : Entity N) (terms : List (Int × N)) :
    (ofOrdered e terms).terms = terms :=
  List.zip_map'.trans (List.map_id' _)

/-- The row of as many indices as coefficients is that of their terms in order. -/
theorem ofTerms_eq_ok (heven : indices.length = coefficients.length) :
    ofTerms e indices coefficients = .ok (ofOrdered e (sortTerms (indices.zip coefficients))) :=
  if_pos heven

/-- Such a row holds its terms in normal form. -/
theorem normalises_ofOrdered (e : Entity N) (terms : List (Int × N)) :
    (ofOrdered e (sortTerms terms)).Normalises terms where
  even := by rw [ofOrdered, List.length_map, List.length_map]
  sorted := List.pairwise_map.2 (sortTerms_sorted terms)
  perm := by
    rw [terms_ofOrdered]
    exact sortTerms_perm terms
  stable i := by rw [terms_ofOrdered, termsAt_sortTerms]

/-- Rows are built alike exactly if they are given the same terms for every index. -/
theorem ofTerms_eq_iff (heven : indices.length = coefficients.length)
    (heven' : indices'.length = coefficients'.length) :
    ofTerms e indices' coefficients' = ofTerms e indices coefficients ↔
      ∀ i, termsAt (indices'.zip coefficients') i = termsAt (indices.zip coefficients) i := by
  rw [ofTerms_eq_ok heven, ofTerms_eq_ok heven', ← sortTerms_eq_iff, Except.ok.injEq]
  constructor
  · intro h
    rw [← terms_ofOrdered e (sortTerms (indices'.zip coefficients')), h, terms_ofOrdered]
  · intro h
    rw [h]

/-! ## Activities -/

/-- Terms are ordered by their indices alone, whatever is done to the coefficients. -/
theorem sortTerms_map {M : Type} (f : N → M) (terms : List (Int × N)) :
    sortTerms (terms.map (Prod.map id f)) = (sortTerms terms).map (Prod.map id f) := by
  have hkeys : ∀ s ∈ terms, ∀ t ∈ terms,
      decide (s.1 ≤ t.1) = decide ((Prod.map id f s).1 ≤ (Prod.map id f t).1) :=
    fun _ _ _ _ => rfl
  exact (List.map_mergeSort hkeys).symm

/-- What some terms come to where the variables have some values. -/
def total (terms : List (Int × ℚ)) (value : Int → ℚ) : ℚ :=
  (terms.map fun t => t.2 * value t.1).sum

/-- The order of the terms makes no difference to what they come to. -/
theorem total_perm {ss ts : List (Int × ℚ)} (h : ss.Perm ts) (value : Int → ℚ) :
    total ss value = total ts value :=
  (h.map _).sum_eq

variable {x : Relaxation ExactNumber} {value : Int → ℚ}

/-- The activity of a row of finite terms, without rounding. -/
theorem activity_ofOrdered (e : Entity ExactNumber) {terms : List (Int × ℚ)}
    (hvalue : ∀ t ∈ terms, signedGet? x.solution t.1 = some (.finite (value t.1))) :
    (ofOrdered e (terms.map (Prod.map id .finite))).activity x =
      .ok (.finite (total terms value)) := by
  have hindices : (terms.map (Prod.map id ExactNumber.finite)).map Prod.fst =
      terms.map Prod.fst := by
    rw [List.map_map]
    rfl
  have hcoefficients : (terms.map (Prod.map id ExactNumber.finite)).map Prod.snd =
      (terms.map Prod.snd).map .finite := by
    rw [List.map_map, List.map_map]
    rfl
  have hgather : gather (signedGet? x.solution) (terms.map Prod.fst) =
      .ok ((terms.map fun t => value t.1).map .finite) := by
    rw [gather_eq_ok_iff, List.map_map, List.map_map, List.map_map]
    exact List.map_congr_left hvalue
  have hsum : dot ((terms.map Prod.snd).map ExactNumber.finite)
      ((terms.map fun t => value t.1).map .finite) = .finite (total terms value) := by
    rw [ExactNumber.dot_finite, List.zipWith_map, List.zipWith_self]
    rfl
  rw [ofOrdered, activity, hindices, hcoefficients]
  split
  · rename_i hempty
    rw [List.isEmpty_iff, List.map_eq_nil_iff] at hempty
    rw [hempty, ExactNumber.zero_eq]
    rfl
  · rw [combine, hgather]
    exact congrArg Except.ok hsum

/-- Without rounding the activity of a row is the sum over the terms that it was given, in which an
index may stand more than once. -/
theorem activity_ofTerms (e : Entity ExactNumber) {indices : List Int} {coefficients : List ℚ}
    (heven : indices.length = coefficients.length)
    (hvalue : ∀ i ∈ indices, signedGet? x.solution i = some (.finite (value i))) :
    ∃ r, ofTerms e indices (coefficients.map .finite) = .ok r ∧
      r.activity x = .ok (.finite (total (indices.zip coefficients) value)) := by
  have heven' : indices.length = (coefficients.map ExactNumber.finite).length := by
    rw [List.length_map, heven]
  have hmem : ∀ t ∈ sortTerms (indices.zip coefficients), t.1 ∈ indices :=
    fun t ht => (List.of_mem_zip ((sortTerms_perm _).mem_iff.1 ht)).1
  refine ⟨_, ofTerms_eq_ok heven', ?_⟩
  rw [List.zip_map_right, sortTerms_map,
    activity_ofOrdered e fun t ht => hvalue t.1 (hmem t ht), total_perm (sortTerms_perm _)]

end Row

/-! ## Rows that are built from fields -/

namespace Object

open Row

variable {f f' : Fields} {e : Entity Binary64} {indices indices' : List Int}
  {coefficients coefficients' : List Binary64}

/-- Fields with one header give the same row exactly if they give the same terms for every index. -/
theorem build_eq_iff (h : f.Gives e indices coefficients)
    (h' : f'.Gives e indices' coefficients') (heven : indices.length = coefficients.length)
    (heven' : indices'.length = coefficients'.length) :
    build .row f' = build .row f ↔
      ∀ i, termsAt (indices'.zip coefficients') i = termsAt (indices.zip coefficients) i := by
  rw [← ofTerms_eq_iff (e := e) heven heven', build_of_gives h, build_of_gives h',
    ofTerms_eq_ok heven, ofTerms_eq_ok heven']
  simp only [Except.map, Except.ok.injEq, Object.row.injEq]

/-- A row that is built from as many indices as coefficients holds its terms in normal form.  Fields
with the same header give the same row exactly if they give the same terms for every index; so they
do if they give the terms in any other order and no index stands twice.  The same row has the same
bytes, hash and activities.  Without rounding its activity is the sum over the terms as they were
given, with any values for coefficients. -/
theorem built_in_normal_form (h : f.Gives e indices coefficients)
    (heven : indices.length = coefficients.length) :
    (∃ r, build .row f = .ok (.row r) ∧ r.toEntity = e ∧
      r.Normalises (indices.zip coefficients)) ∧
    (∀ (f' : Fields) (indices' : List Int) (coefficients' : List Binary64),
      f'.Gives e indices' coefficients' → indices'.length = coefficients'.length →
      (build .row f' = build .row f ↔
        ∀ i, termsAt (indices'.zip coefficients') i = termsAt (indices.zip coefficients) i) ∧
      (indices.Nodup → (indices'.zip coefficients').Perm (indices.zip coefficients) →
        build .row f' = build .row f)) ∧
    ∀ (e' : Entity ExactNumber) (amounts : List ℚ) (x : Relaxation ExactNumber) (value : Int → ℚ),
      indices.length = amounts.length →
      (∀ i ∈ indices, signedGet? x.solution i = some (.finite (value i))) →
      ∃ r, ofTerms e' indices (amounts.map .finite) = .ok r ∧
        r.activity x = .ok (.finite (total (indices.zip amounts) value)) := by
  refine ⟨?_, ?_, fun e' amounts x value heven' hvalue => activity_ofTerms e' heven' hvalue⟩
  · refine ⟨_, by rw [build_of_gives h, ofTerms_eq_ok heven]; rfl, rfl, ?_⟩
    exact normalises_ofOrdered e _
  · intro f' indices' coefficients' h' heven'
    refine ⟨build_eq_iff h h' heven heven', fun hdistinct hperm => ?_⟩
    have hindices : (indices.zip coefficients).map Prod.fst = indices :=
      List.map_fst_zip heven.le
    exact (build_eq_iff h h' heven heven').2 fun i =>
      (termsAt_eq_of_perm hperm.symm (hindices.symm ▸ hdistinct) i).symm

/-- Two terms of one index may be moved over a term of another index, but not over each other;
either of them counts in the activity. -/
theorem built_in_normal_form_repeated :
    (∃ r, build .row (rowFields [2, 0, 2] [1.0, 3.0, -1.0]) = .ok (.row r) ∧
      r.Normalises [(2, 1.0), (0, 3.0), (2, -1.0)]) ∧
    build .row (rowFields [0, 2, 2] [3.0, 1.0, -1.0]) =
      build .row (rowFields [2, 0, 2] [1.0, 3.0, -1.0]) ∧
    build .row (rowFields [2, 0, 2] [-1.0, 3.0, 1.0]) ≠
      build .row (rowFields [2, 0, 2] [1.0, 3.0, -1.0]) ∧
    build .row (rowFields [3, 1] [5.0, 4.0]) = build .row (rowFields [1, 3] [4.0, 5.0]) ∧
    ∃ r, ofTerms .free [2, 0, 2] [.finite 1, .finite 3, .finite (-1 / 2)] = .ok r ∧
      r.activity { Relaxation.initial with solution := [.finite 2, .finite 7, .finite 4] } =
        .ok (.finite 8) := by
  have hgives {indices : List Int} (coefficients : List Binary64)
      (hsmall : indices ⊆ [0, 1, 2, 3]) :
      (rowFields indices coefficients).Gives Row.initial.toEntity indices coefficients := by
    have hwords : ∀ n ∈ ([0, 1, 2, 3] : List Int),
        Datum.leastInt64 ≤ n ∧ n ≤ Datum.greatestInt64 := by decide
    exact gives_rowFields coefficients fun n hn => hwords n (hsmall hn)
  have hgiven : (rowFields [2, 0, 2] [1.0, 3.0, -1.0]).Gives _ _ _ := hgives _ (by simp)
  have hmoved : (rowFields [0, 2, 2] [3.0, 1.0, -1.0]).Gives _ _ _ := hgives _ (by simp)
  have hcrossed : (rowFields [2, 0, 2] [-1.0, 3.0, 1.0]).Gives _ _ _ := hgives _ (by simp)
  have hpair : (rowFields [1, 3] [4.0, 5.0]).Gives _ _ _ := hgives _ (by simp)
  rcases built_in_normal_form hgiven (by simp) with ⟨⟨r, hr, -, hnormal⟩, hsame, hexact⟩
  refine ⟨⟨r, hr, hnormal⟩, ?_, ?_, ?_, ?_⟩
  · refine (hsame _ _ _ hmoved (by simp)).1.2 fun i => ?_
    by_cases hi : i = 0
    · rw [hi]
      decide +kernel
    · simp [termsAt, List.filter_cons, Ne.symm hi]
  · rw [Ne, (hsame _ _ _ hcrossed (by simp)).1]
    intro h
    exact absurd (h 2) (by decide +kernel)
  · exact ((built_in_normal_form hpair (by simp)).2.1 _ _ _ (hgives _ (by simp)) (by simp)).2
      (by decide) (List.Perm.swap _ _ _)
  · have hvalue : ∀ i ∈ [2, 0, 2], signedGet? [.finite 2, .finite 7, .finite 4] i =
        some (ExactNumber.finite (if i = 0 then 2 else 4)) := by decide +kernel
    rcases hexact .free [1, 3, -1 / 2]
      { Relaxation.initial with solution := [.finite 2, .finite 7, .finite 4] }
      (fun i => if i = 0 then 2 else 4) (by simp) hvalue with ⟨r, hterms, hactivity⟩
    refine ⟨r, hterms, hactivity.trans ?_⟩
    norm_num [total]

end Object

end BranchBound
