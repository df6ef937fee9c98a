import BranchBound.Datum.Table
import BranchBound.Wire.Word

/-!
# What tables hold

Whatever a table is taken from, its integers have 32 bits at the end: those that are checked lie in
that range, and those that go round or are cast come to lie in it.

A list of numbers, and the array of such a list, hold just these numbers: neither is a double
changed, nor an integer of 32 bits.

Main results:

- Theorem `Datum.fits_of_wholes`: the integers of a table have 32 bits.
- Theorems `Datum.Lists.wholes` and `Datum.Lists.reals`: what a list holds as one of a type.
- Theorems `Datum.Lists.contents_wholes` and `Datum.Lists.contents_reals`: what a list holds by
  itself.
-/

namespace BranchBound

namespace Datum

/-! ## Integers of 32 bits -/

theorem fits_of_elementWhole {d : Datum} {n : Int}
    (h : d.elementWhole leastInt32 greatestInt32 = .ok n) : Wire.Fits n := by
  rcases exists_of_bind_eq_ok h with ⟨m, -, hrange⟩
  split at hrange
  · rename_i hin
    cases hrange
    unfold leastInt32 greatestInt32 at hin
    unfold Wire.Fits
    omega
  · cases hrange

theorem fits_of_elementWord {d : Datum} {n : Int} (h : d.elementWord = .ok n) : Wire.Fits n := by
  unfold elementWord at h
  split at h
  · rcases exists_of_bind_eq_ok h with ⟨m, -, hdone⟩
    cases hdone
    exact Wire.fits_bmod m
  · exact fits_of_elementWhole h

theorem fits_castReal (x : Binary64) : Wire.Fits (castReal leastInt32 greatestInt32 x) := by
  have hleast : Wire.Fits leastInt32 := by decide
  unfold castReal
  split
  · split
    · rename_i hin
      unfold leastInt32 greatestInt32 at hin
      unfold Wire.Fits
      omega
    · exact hleast
  · exact hleast

theorem fits_of_castWord {d : Datum} {n : Int} (h : d.castWord = .ok n) : Wire.Fits n := by
  unfold castWord at h
  split at h
  · cases h
    exact Wire.fits_bmod _
  · cases h
    exact fits_castReal _
  · exact fits_of_elementWord h

mutual

theorem fits_of_words {d : Datum} {ns : List Int} (h : d.words = .ok ns) :
    ∀ n ∈ ns, Wire.Fits n := by
  cases d with
  | sequence ds =>
    rw [words] at h
    exact fits_of_wordsOf h
  | array d =>
    rw [words] at h
    exact forall_mem_of_mapM (fun _ _ => fits_of_castWord) h
  | nothing | flag _ | integer _ | real _ | text _ | bytes _ | mapping _ | member _ =>
    simp only [words] at h
    rcases exists_of_map_eq_ok h with ⟨n, hn, rfl⟩
    exact List.forall_mem_singleton.2 (fits_of_elementWord hn)

theorem fits_of_wordsOf {ds : List Datum} {ns : List Int} (h : wordsOf ds = .ok ns) :
    ∀ n ∈ ns, Wire.Fits n := by
  cases ds with
  | nil =>
    cases h
    exact List.forall_mem_nil _
  | cons d ds =>
    rw [wordsOf] at h
    rcases exists_of_bind_eq_ok h with ⟨first, hfirst, h⟩
    rcases exists_of_bind_eq_ok h with ⟨rest, hrest, hdone⟩
    cases hdone
    exact List.forall_mem_append.2 ⟨fits_of_words hfirst, fits_of_wordsOf hrest⟩

end

/-- The integers of a table have 32 bits. -/
theorem fits_of_wholes {d : Datum} {ns : List Int} (h : d.wholes = .ok ns) :
    ∀ n ∈ ns, Wire.Fits n := by
  rcases exists_of_bind_eq_ok h with ⟨-, -, hwords⟩
  exact fits_of_words hwords

/-! ## Lists of numbers -/

/-- A list of some values, or the array of this list. -/
inductive Lists (ds : List Datum) : Datum → Prop where
  | sequence : Lists ds (.sequence ds)
  | array : Lists ds (.array (.sequence ds))

theorem table_integers (ns : List Int) :
    (sequence (ns.map integer)).table = .ok (ns.map integer) :=
  table_of_scalars integer (fun _ => rfl) (fun _ => rfl) ns

theorem table_reals (xs : List Binary64) : (sequence (xs.map real)).table = .ok (xs.map real) :=
  table_of_scalars real (fun _ => rfl) (fun _ => rfl) xs

theorem elementReals (xs : List Binary64) : (xs.map real).mapM elementReal = .ok xs := by
  have hvalues : (xs.map real).mapM elementReal = .ok (xs.map id) :=
    mapM_map_of_eq_ok (fun x => by simp [elementReal]) xs
  rwa [List.map_id] at hvalues

/-- An integer of 32 bits counts as itself. -/
theorem elementWord_integer {n : Int} (h : Wire.Fits n) : (integer n).elementWord = .ok n := by
  have hrange : leastInt32 ≤ n ∧ n ≤ greatestInt32 := by
    unfold Wire.Fits at h
    unfold leastInt32 greatestInt32
    omega
  unfold elementWord elementWhole
  rw [if_neg (by simp [isConverted]), toWhole_integer]
  exact if_pos hrange

theorem wordsOf_integers {ns : List Int} (h : ∀ n ∈ ns, Wire.Fits n) :
    wordsOf (ns.map integer) = .ok ns := by
  induction ns with
  | nil => rfl
  | cons n ns ih =>
    rw [List.forall_mem_cons] at h
    rw [List.map_cons, wordsOf, words, elementWord_integer h.1, ih h.2]
    · rfl
    all_goals exact nofun

/-- Integers of 32 bits are cast to themselves. -/
theorem castWords_integers {ns : List Int} (h : ∀ n ∈ ns, Wire.Fits n) :
    (ns.map integer).mapM castWord = .ok ns := by
  have hcast : (ns.map integer).mapM castWord = .ok (ns.map fun n => n.bmod 0x100000000) :=
    mapM_map_of_eq_ok (f := castWord) (fun _ => rfl) ns
  have hsame : ∀ n ∈ ns, n.bmod 0x100000000 = n := fun n hn => Wire.bmod_of_fits (h n hn)
  rw [hcast, List.map_congr_left hsame, List.map_id']

/-- Elements of one class alone have that class together. -/
theorem ElementClass.joinAll_eq_of_forall {c : ElementClass} (hc : c.join c = c)
    {cs : List ElementClass} (hne : cs ≠ []) (hcs : ∀ d ∈ cs, d = c) : joinAll cs = c := by
  have hflag : c.join flag = c := by
    cases c <;> rfl
  unfold joinAll
  induction cs with
  | nil => exact absurd rfl hne
  | cons d cs ih =>
    rw [List.forall_mem_cons] at hcs
    rw [List.foldr_cons, hcs.1]
    by_cases hrest : cs = []
    · rw [hrest, List.foldr_nil, hflag]
    · rw [ih hrest hcs.2, hc]

theorem elementClass_integer {n : Int} (h : Wire.Fits n) : (integer n).elementClass = .signed := by
  unfold Wire.Fits at h
  rw [elementClass, classOfInt, if_pos]
  unfold leastInt64 greatestInt64
  omega

theorem joinAll_integers {ns : List Int} (hne : ns ≠ []) (h : ∀ n ∈ ns, Wire.Fits n) :
    ElementClass.joinAll ((ns.map integer).map elementClass) = .signed := by
  rw [List.map_map]
  refine ElementClass.joinAll_eq_of_forall rfl ?_ (List.forall_mem_map.2 fun n hn => ?_)
  · rwa [Ne, List.map_eq_nil_iff]
  · exact elementClass_integer (h n hn)

theorem joinAll_reals (xs : List Binary64) :
    ElementClass.joinAll ((xs.map real).map elementClass) = .flag ∨
      ElementClass.joinAll ((xs.map real).map elementClass) = .real := by
  by_cases hne : xs = []
  · rw [hne]
    exact Or.inl rfl
  · right
    rw [List.map_map]
    refine ElementClass.joinAll_eq_of_forall rfl ?_ (List.forall_mem_map.2 fun _ _ => rfl)
    rwa [Ne, List.map_eq_nil_iff]

namespace Lists

variable {d : Datum} {ns : List Int} {xs : List Binary64}

/-- An array is the table that its list is. -/
theorem table {ds : List Datum} (h : Lists ds d) : d.table = (Datum.sequence ds).table := by
  cases h with
  | sequence => rfl
  | array => exact table_array _

/-- A list of integers of 32 bits holds just these. -/
theorem wholes (h : Lists (ns.map integer) d) (hns : ∀ n ∈ ns, Wire.Fits n) :
    d.wholes = .ok ns := by
  cases h with
  | sequence =>
    rw [Datum.wholes, table_integers, words]
    exact wordsOf_integers hns
  | array =>
    have helements := elementsOf_of_scalars integer (fun _ => rfl) ns
    rw [Datum.wholes, table_array, table_integers, words, elements, helements]
    exact castWords_integers hns

/-- A list of doubles holds just these. -/
theorem reals (h : Lists (xs.map real) d) : d.reals = .ok xs := by
  rw [Datum.reals, h.table, table_reals]
  exact elementReals xs

/-- Integers of 32 bits are kept as such. -/
theorem contents_wholes (h : Lists (ns.map integer) d) (hne : ns ≠ [])
    (hns : ∀ n ∈ ns, Wire.Fits n) : d.contents = .ok (.wholes ns) := by
  have htable : d.table = .ok (ns.map integer) := h.table.trans (table_integers ns)
  have hvalues : (ns.map integer).mapM toWhole = .ok (ns.map id) :=
    mapM_map_of_eq_ok toWhole_integer ns
  simp only [contents, htable, bind, Except.bind, joinAll_integers hne hns, hvalues, pure,
    Except.pure, List.map_id]

/-- Doubles are kept as such; an empty list counts as one of doubles. -/
theorem contents_reals (h : Lists (xs.map real) d) : d.contents = .ok (.reals xs) := by
  have htable : d.table = .ok (xs.map real) := h.table.trans (table_reals xs)
  rcases joinAll_reals xs with hclass | hclass <;>
    simp only [contents, htable, bind, Except.bind, hclass, elementReals, pure, Except.pure]

end Lists

end Datum

end BranchBound
