import BranchBound.Object.Build
import BranchBound.Proofs.Datum.Tables
import BranchBound.Proofs.Wire.Record

/-!
# Rows from lists

A row that is built from a list of integers of 64 bits and a list of as many doubles holds them as
its terms, ordered by the integers.  Such a list is held by its elements one by one, so that no
element is lost or changed on the way.

Main results:

- Theorems `Object.build_of_gives` and `Object.gives_of_build`: the row of some fields.
- Theorem `Object.build_row`: the row of two lists.
- Theorem `Object.build_ofTerm`: the row of one term.
- Theorem `Object.even_of_build`: a row that was built has a coefficient for every index.
-/

namespace BranchBound

/-- A row with one term. -/
def Row.ofTerm (i : Int) (coefficient : Binary64) : Row Binary64 :=
  { initial with indices := [i], coefficients := [coefficient] }

/-- What the fields of a row give: a header, a list of indices and a list of coefficients. -/
structure Fields.Gives (f : Fields) (e : Entity Binary64) (indices : List Int)
    (coefficients : List Binary64) : Prop where
  /-- There are no fields that a row does not have. -/
  suits : f.suit .row = true
  /-- The header is the one of the fields that every object has. -/
  header : f.header Row.initial.toEntity = .ok e
  /-- The indices are those of their table. -/
  indices : tableField f.indices Datum.indices = .ok indices
  /-- The coefficients are those of their table. -/
  coefficients : tableField f.coefficients Datum.reals = .ok coefficients

namespace Object

/-- The row of fields is the one of what they give. -/
theorem build_of_gives {f : Fields} {e : Entity Binary64} {indices : List Int}
    {coefficients : List Binary64} (h : f.Gives e indices coefficients) :
    build .row f = (Row.ofTerms e indices coefficients).map row := by
  rw [build, if_pos h.suits]
  simp only [buildRow, h.header, h.indices, h.coefficients, bind, Except.bind]
  cases Row.ofTerms e indices coefficients <;> rfl

/-- What is built from the fields of a row is the row of what they give. -/
theorem gives_of_build {f : Fields} {o : Object} (h : build .row f = .ok o) :
    ∃ e indices coefficients r, f.Gives e indices coefficients ∧
      Row.ofTerms e indices coefficients = .ok r ∧ o = row r := by
  unfold build at h
  split at h
  · rename_i hsuits
    rcases exists_of_bind_eq_ok h with ⟨e, hheader, h⟩
    rcases exists_of_bind_eq_ok h with ⟨indices, hindices, h⟩
    rcases exists_of_bind_eq_ok h with ⟨coefficients, hcoefficients, h⟩
    rcases exists_of_bind_eq_ok h with ⟨r, hterms, hdone⟩
    cases hdone
    exact ⟨e, indices, coefficients, r, ⟨hsuits, hheader, hindices, hcoefficients⟩, hterms, rfl⟩
  · cases h

/-- The fields of a row with some terms. -/
def rowFields (indices : List Int) (coefficients : List Binary64) : Fields where
  indices := some (.sequence (indices.map .integer))
  coefficients := some (.sequence (coefficients.map .real))

/-- Two lists, the first one of integers of 64 bits, give just their elements, and nothing else is
set. -/
theorem gives_rowFields {indices : List Int} (coefficients : List Binary64)
    (hwords : ∀ n ∈ indices, Datum.leastInt64 ≤ n ∧ n ≤ Datum.greatestInt64) :
    (rowFields indices coefficients).Gives Row.initial.toEntity indices coefficients where
  suits := rfl
  header := rfl
  indices := Datum.indices_integers hwords
  coefficients := Datum.Lists.reals .sequence

/-- The row of two lists has their terms in order, and nothing else is set. -/
theorem build_row {indices : List Int} {coefficients : List Binary64} {r : Row Binary64}
    (hwords : ∀ n ∈ indices, Datum.leastInt64 ≤ n ∧ n ≤ Datum.greatestInt64)
    (hterms : Row.ofTerms Row.initial.toEntity indices coefficients = .ok r) :
    build .row (rowFields indices coefficients) = .ok (.row r) := by
  rw [build_of_gives (gives_rowFields coefficients hwords), hterms]
  rfl

/-- The row of one term. -/
theorem build_ofTerm {i : Int} (hword : Datum.leastInt64 ≤ i ∧ i ≤ Datum.greatestInt64)
    (coefficient : Binary64) :
    build .row (rowFields [i] [coefficient]) = .ok (.row (.ofTerm i coefficient)) := by
  apply build_row (by simpa using hword)
  rw [Row.ofTerms, if_pos (by rw [List.length_singleton, List.length_singleton]),
    List.zip_cons_cons, List.zip_nil_right, Row.sortTerms, List.mergeSort_singleton]
  rfl

/-- A row that was built has a coefficient for every index. -/
theorem even_of_build {fields : Fields} {r : Row Binary64}
    (h : build .row fields = .ok (.row r)) : r.indices.length = r.coefficients.length := by
  rcases gives_of_build h with ⟨_, _, _, r', -, hterms, hr⟩
  cases hr
  exact Row.even_of_ofTerms hterms

end Object

end BranchBound
