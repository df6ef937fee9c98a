import BranchBound.Proofs.Row.Construction
import BranchBound.Proofs.Wire.Entry

/-!
# Integers of more than 32 bits

A single integer of more than 32 bits is refused.  The indices of a row and the integers of a list
are not: they are taken modulo `2 ^ 32` without a fault, and another integer is read back.  A list
is only taken as one of integers if all of them have one machine width of 64 bits; any other list
of integers is written as doubles, and is refused if one of them is too large for that.

Main results:

- Theorem `Buffer.delivers_row_iff`: a row is read back with its indices modulo `2 ^ 32`.
- Theorems `Buffer.contents_of_oneWidth` and `Buffer.contents_of_not_oneWidth`: what a list of
  integers is taken as.
- Theorems `Buffer.delivers_list_iff`, `Buffer.delivers_list_as_reals_iff` and
  `Buffer.refuses_list`: what becomes of it.
- Theorem `Buffer.sent_integers`: which integers are refused, and what the others are read back as.
-/

namespace BranchBound

/-! ## Integers modulo `2 ^ 32` -/

namespace Wire

/-- The integer of 32 bits that an integer is modulo `2 ^ 32`. -/
def wrap (n : Int) : Int := n.bmod intModulus

theorem fits_wrap (n : Int) : Fits (wrap n) := fits_bmod n

/-- Exactly the integers of 32 bits are what they are modulo `2 ^ 32`. -/
theorem wrap_eq_self_iff {n : Int} : wrap n = n ↔ Fits n := by
  constructor
  · intro h
    rw [← h]
    exact fits_wrap n
  · exact bmod_of_fits

/-- An integer is written as what it is modulo `2 ^ 32`. -/
theorem encodeInt_wrap (n : Int) : encodeInt (wrap n) = encodeInt n := by
  rw [encodeInt, wrap, Int.bmod_emod, encodeInt]

theorem flatMap_encodeInt_wrap (ns : List Int) :
    (ns.map wrap).flatMap encodeInt = ns.flatMap encodeInt := by
  rw [List.flatMap_map]
  exact congrArg (List.flatMap · ns) (funext encodeInt_wrap)

theorem forall_fits_map_wrap (ns : List Int) : ∀ n ∈ ns.map wrap, Fits n := by
  intro n hn
  rcases List.mem_map.1 hn with ⟨m, -, rfl⟩
  exact fits_wrap m

theorem map_wrap_eq_self_iff {ns : List Int} : ns.map wrap = ns ↔ ∀ n ∈ ns, Fits n := by
  have hall : ns.map wrap = ns.map id ↔ ∀ n ∈ ns, wrap n = id n := List.map_inj_left
  rw [List.map_id] at hall
  rw [hall]
  exact forall₂_congr fun n _ => wrap_eq_self_iff

end Wire

namespace Row

/-- A row with its indices modulo `2 ^ 32`. -/
def wrapped (r : Row Binary64) : Row Binary64 := { r with indices := r.indices.map Wire.wrap }

/-- A row is written as it is with its indices modulo `2 ^ 32`. -/
theorem record_wrapped (r : Row Binary64) : r.wrapped.record = r.record := by
  simp only [record, indexBytes, wrapped, List.length_map, Wire.flatMap_encodeInt_wrap]

theorem wrapped_eq_self_iff {r : Row Binary64} :
    r.wrapped = r ↔ ∀ n ∈ r.indices, Wire.Fits n := by
  rw [← Wire.map_wrap_eq_self_iff]
  rcases r with ⟨entity, indices, coefficients⟩
  rw [wrapped, mk.injEq]
  exact ⟨fun h => h.2.1, fun h => ⟨rfl, h, rfl⟩⟩

end Row

namespace Buffer

variable {α : Type}

/-! ## What is written and read back -/

/-- Whether a write adds some bytes to every buffer that are read as some value. -/
def Delivers (write : Action Buffer Unit) (read : Action Buffer α) (a : α) : Prop :=
  ∃ bs, (∀ b, write.run b = (.ok (), { b with bytes := b.bytes ++ bs })) ∧
    ∀ b rest, b.cursor ≤ b.size → b.unread = bs ++ rest →
      read.run b = (.ok a, b.advance bs.length)

/-- Whether a write fails and leaves every buffer as it is. -/
def Refuses (write : Action Buffer Unit) (fault : Fault) : Prop :=
  ∀ b, write.run b = (.error fault, b)

theorem Delivers.of_reads {write : Action Buffer Unit} {read : Action Buffer α} {a : α}
    {bs : List UInt8} {G : Grammar α} (hread : Reads read G) (hbs : G bs a)
    (hwrite : ∀ b, write.run b = (.ok (), { b with bytes := b.bytes ++ bs })) :
    Delivers write read a :=
  ⟨bs, hwrite, fun _ _ hb hnext => hread.complete hb hnext hbs⟩

/-- What is read back was not refused. -/
theorem Delivers.not_refuses {write : Action Buffer Unit} {read : Action Buffer α} {a : α}
    {fault : Fault} (h : Delivers write read a) : ¬ Refuses write fault := by
  intro hrefuses
  rcases h with ⟨bs, hwrite, -⟩
  have hboth := (hwrite {}).symm.trans (hrefuses {})
  cases hboth

/-- A single integer is read back exactly if it has 32 bits. -/
theorem delivers_writeInt_iff {n : Int} : Delivers (writeInt n) readInt n ↔ Wire.Fits n := by
  constructor
  · intro h
    exact Decidable.byContradiction fun hnot => h.not_refuses (run_writeInt_of_not_fits hnot)
  · intro hfits
    exact .of_reads reads_readInt ⟨hfits, rfl⟩ (run_writeInt_of_fits hfits)

/-- An array of integers is read back modulo `2 ^ 32`, exactly if its length has 32 bits. -/
theorem delivers_writeWholeArray_iff {ns : List Int} :
    Delivers (writeWholeArray ns) readWholeArray (ns.map Wire.wrap) ↔ Wire.Fits ns.length := by
  constructor
  · intro h
    exact Decidable.byContradiction fun hnot =>
      h.not_refuses (run_writeWholeArray_of_not_fits hnot)
  · intro hlength
    have hbytes : Grammar.int.array (Wire.encodeInt ns.length ++ ns.flatMap Wire.encodeInt)
        (ns.map Wire.wrap) := by
      rw [← Wire.flatMap_encodeInt_wrap, ← List.length_map (f := Wire.wrap)]
      exact ⟨_, by rwa [List.length_map],
        Grammar.each_int_iff.2 ⟨Wire.forall_fits_map_wrap ns, rfl⟩, rfl⟩
    exact .of_reads reads_readWholeArray hbytes (run_writeWholeArray hlength)

/-- An array of doubles is read back, exactly if its length has 32 bits. -/
theorem delivers_writeRealArray_iff {xs : List Binary64} :
    Delivers (writeRealArray xs) readRealArray xs ↔ Wire.Fits xs.length := by
  constructor
  · intro h
    exact Decidable.byContradiction fun hnot =>
      h.not_refuses (run_writeRealArray_of_not_fits hnot)
  · intro hlength
    exact .of_reads reads_readRealArray ⟨_, hlength, Grammar.each_real_flatMap xs, rfl⟩
      (run_writeRealArray hlength)

/-- A row is read back with its indices modulo `2 ^ 32`, exactly if its own index and the number of
its terms have 32 bits. -/
theorem delivers_row_iff {r : Row Binary64} (heven : r.indices.length = r.coefficients.length) :
    Delivers r.encode Row.decode r.wrapped ↔
      Wire.Fits r.index ∧ Wire.Fits r.indices.length := by
  constructor
  · rintro ⟨bs, hwrite, -⟩
    rcases Row.lengths_of_run_encode (hwrite {}) with ⟨hindex, hlength, -⟩
    exact ⟨hindex, hlength⟩
  · rintro ⟨hindex, hlength⟩
    have hwrapped : r.wrapped.Fits := by
      constructor
      · exact hindex
      · rwa [Row.wrapped, List.length_map]
      · exact Wire.forall_fits_map_wrap r.indices
      · rwa [Row.wrapped, List.length_map]
    have hrecord := Row.grammar_record hwrapped
    rw [Row.record_wrapped] at hrecord
    exact .of_reads Row.reads_decode hrecord
      (Row.run_encode_of_lengths hindex hlength (by rwa [← heven]))

end Buffer

/-! ## Lists of integers -/

namespace Datum

theorem classOfInt_eq_signed_iff {n : Int} :
    classOfInt n = .signed ↔ leastInt64 ≤ n ∧ n ≤ greatestInt64 := by
  unfold classOfInt
  split
  · rename_i h
    exact iff_of_true rfl h
  · rename_i h
    split <;> exact iff_of_false (by decide) h

theorem classOfInt_eq_unsigned_iff {n : Int} :
    classOfInt n = .unsigned ↔ greatestInt64 < n ∧ n ≤ greatestWord64 := by
  unfold classOfInt leastInt64 greatestInt64 greatestWord64
  split
  · exact iff_of_false (by decide) (by omega)
  · split
    · exact iff_of_true rfl (by omega)
    · exact iff_of_false (by decide) (by omega)

/-- An integer counts neither as a flag nor as a text. -/
theorem classOfInt_ne (n : Int) : classOfInt n ≠ .flag ∧ classOfInt n ≠ .text := by
  unfold classOfInt
  split
  · decide
  · split <;> decide

namespace ElementClass

/-- Only flags and elements of a class of integers have that class, or that of flags, together. -/
theorem eq_of_joinAll_eq {c : ElementClass} (hc : c = signed ∨ c = unsigned)
    {cs : List ElementClass} (h : joinAll cs = flag ∨ joinAll cs = c) :
    ∀ d ∈ cs, d = flag ∨ d = c := by
  have hjoin (a b : ElementClass) (hab : a.join b = flag ∨ a.join b = c) :
      (a = flag ∨ a = c) ∧ (b = flag ∨ b = c) := by
    rcases hc with rfl | rfl <;> cases a <;> cases b <;> simp_all [join]
  unfold joinAll at h
  induction cs with
  | nil => exact fun d hd => absurd hd List.not_mem_nil
  | cons a cs ih =>
    rcases hjoin _ _ h with ⟨hfirst, hrest⟩
    exact List.forall_mem_cons.2 ⟨hfirst, ih hrest⟩

/-- Without a text there is no text together. -/
theorem joinAll_ne_text {cs : List ElementClass} (h : ∀ c ∈ cs, c ≠ text) :
    joinAll cs ≠ text := by
  have hjoin (a b : ElementClass) (ha : a ≠ text) (hb : b ≠ text) : a.join b ≠ text := by
    cases a <;> cases b <;> simp_all [join]
  unfold joinAll
  induction cs with
  | nil => decide
  | cons a cs ih =>
    rw [List.forall_mem_cons] at h
    exact hjoin _ _ h.1 (ih h.2)

end ElementClass

end Datum

namespace Buffer

variable {α : Type}

/-- Whether there are integers that all have 64 bits with a sign, or that all are larger and have
64 bits without one. -/
def OneWidth (ns : List Int) : Prop :=
  ns ≠ [] ∧ ((∀ n ∈ ns, Datum.leastInt64 ≤ n ∧ n ≤ Datum.greatestInt64) ∨
    ∀ n ∈ ns, Datum.greatestInt64 < n ∧ n ≤ Datum.greatestWord64)

instance (ns : List Int) : Decidable (OneWidth ns) := inferInstanceAs (Decidable (_ ∧ _))

/-- The class of integers together. -/
def classOfInts (ns : List Int) : Datum.ElementClass :=
  .joinAll ((ns.map Datum.integer).map Datum.elementClass)

theorem classOfInts_eq (ns : List Int) :
    classOfInts ns = .joinAll (ns.map Datum.classOfInt) := by
  have hclass : Datum.elementClass ∘ Datum.integer = Datum.classOfInt := by
    funext n
    rw [Function.comp_apply, Datum.elementClass]
  rw [classOfInts, List.map_map, hclass]

theorem of_classOfInts_eq {ns : List Int} {c : Datum.ElementClass}
    (hc : c = .signed ∨ c = .unsigned) (hclass : classOfInts ns = c) :
    ns ≠ [] ∧ ∀ n ∈ ns, Datum.classOfInt n = c := by
  rw [classOfInts_eq] at hclass
  constructor
  · rintro rfl
    rcases hc with rfl | rfl <;> cases hclass
  · intro n hn
    have hmem := Datum.ElementClass.eq_of_joinAll_eq hc (Or.inr hclass) _
      (List.mem_map_of_mem hn)
    exact hmem.resolve_left (Datum.classOfInt_ne n).1

theorem classOfInts_eq_of_forall {ns : List Int} {c : Datum.ElementClass} (hc : c.join c = c)
    (hne : ns ≠ []) (h : ∀ n ∈ ns, Datum.classOfInt n = c) : classOfInts ns = c := by
  rw [classOfInts_eq]
  refine Datum.ElementClass.joinAll_eq_of_forall hc ?_ (List.forall_mem_map.2 h)
  rwa [Ne, List.map_eq_nil_iff]

/-- Integers have one width exactly if they have a class of integers together. -/
theorem oneWidth_iff {ns : List Int} :
    OneWidth ns ↔ classOfInts ns = .signed ∨ classOfInts ns = .unsigned := by
  constructor
  · rintro ⟨hne, hsigned | hunsigned⟩
    · exact Or.inl (classOfInts_eq_of_forall rfl hne fun n hn =>
        Datum.classOfInt_eq_signed_iff.2 (hsigned n hn))
    · exact Or.inr (classOfInts_eq_of_forall rfl hne fun n hn =>
        Datum.classOfInt_eq_unsigned_iff.2 (hunsigned n hn))
  · rintro (hsigned | hunsigned)
    · rcases of_classOfInts_eq (Or.inl rfl) hsigned with ⟨hne, hall⟩
      exact ⟨hne, Or.inl fun n hn => Datum.classOfInt_eq_signed_iff.1 (hall n hn)⟩
    · rcases of_classOfInts_eq (Or.inr rfl) hunsigned with ⟨hne, hall⟩
      exact ⟨hne, Or.inr fun n hn => Datum.classOfInt_eq_unsigned_iff.1 (hall n hn)⟩

/-- Integers of one width are taken as a list of integers. -/
theorem contents_of_oneWidth {ns : List Int} (h : OneWidth ns) :
    (Datum.sequence (ns.map .integer)).contents = .ok (.wholes ns) := by
  have htable := Datum.table_integers ns
  have hvalues : (ns.map Datum.integer).mapM Datum.toWhole = .ok (ns.map id) :=
    mapM_map_of_eq_ok Datum.toWhole_integer ns
  rcases oneWidth_iff.1 h with hclass | hclass <;>
    simp only [Datum.contents, htable, bind, Except.bind, hvalues, pure, Except.pure,
      List.map_id, show Datum.ElementClass.joinAll _ = _ from hclass]

/-- Integers count as numbers one by one.  The conversion itself is not to be unfolded. -/
theorem mapM_elementReal (ns : List Int) :
    (ns.map Datum.integer).mapM Datum.elementReal = ns.mapM Datum.realOfInt := by
  have hreal (n : Int) : (Datum.integer n).elementReal = Datum.realOfInt n := by
    rw [Datum.elementReal, Datum.toReal]
    intro h
    cases h
  induction ns with
  | nil => rfl
  | cons n ns ih => rw [List.map_cons, List.mapM_cons, List.mapM_cons, ih, hreal]

/-- Other integers are taken as doubles. -/
theorem contents_of_not_oneWidth {ns : List Int} (h : ¬ OneWidth ns) :
    (Datum.sequence (ns.map .integer)).contents = (ns.mapM Datum.realOfInt).map .reals := by
  have htable := Datum.table_integers ns
  have htext : classOfInts ns ≠ .text := by
    rw [classOfInts_eq]
    exact Datum.ElementClass.joinAll_ne_text
      (List.forall_mem_map.2 fun n _ => (Datum.classOfInt_ne n).2)
  rw [oneWidth_iff, not_or] at h
  unfold Datum.contents
  rw [htable]
  simp only [bind, Except.bind, mapM_elementReal]
  rw [show Datum.ElementClass.joinAll _ = classOfInts ns from rfl]
  cases hclass : classOfInts ns with
  | signed => exact absurd hclass h.1
  | unsigned => exact absurd hclass h.2
  | text => exact absurd hclass htext
  | flag | real | other => cases ns.mapM Datum.realOfInt <;> rfl

theorem length_of_mapM_eq_ok {β : Type} {f : α → Except Fault β} {as : List α} {bs : List β}
    (h : as.mapM f = .ok bs) : bs.length = as.length := by
  induction as generalizing bs with
  | nil =>
    cases h
    rfl
  | cons a as ih =>
    rw [List.mapM_cons] at h
    rcases exists_of_bind_eq_ok h with ⟨b, -, hrest⟩
    rcases exists_of_bind_eq_ok hrest with ⟨bs', hbs, hdone⟩
    cases hdone
    rw [List.length_cons, List.length_cons, ih hbs]

/-- A value is read back as its entry is. -/
theorem delivers_item_iff {d : Datum} {e : Entry} {read : Action Buffer α} {a : α}
    (hitem : d.item? = some e) : Delivers (writeDatum d) read a ↔ Delivers e.write read a := by
  have henters := enters_writeDatum d
  rw [hitem] at henters
  have hrun : ∀ b, (writeDatum d).run b = e.write.run b := henters
  simp only [Delivers, hrun]

/-- A list of integers of one width is read back modulo `2 ^ 32`, exactly if its length has 32
bits. -/
theorem delivers_list_iff {ns : List Int} (h : OneWidth ns) :
    Delivers (writeDatum (.sequence (ns.map .integer))) readWholeArray (ns.map Wire.wrap) ↔
      Wire.Fits ns.length := by
  have hitem : (Datum.sequence (ns.map .integer)).item? = some (.wholes true ns) := by
    rw [Datum.item?, Datum.entryOfTable?, contents_of_oneWidth h]
  rw [delivers_item_iff hitem, Entry.write, delivers_writeWholeArray_iff]

/-- Any other list of integers is read back as the doubles that its integers count as, exactly if
its length has 32 bits. -/
theorem delivers_list_as_reals_iff {ns : List Int} {xs : List Binary64} (h : ¬ OneWidth ns)
    (hvalues : ns.mapM Datum.realOfInt = .ok xs) :
    Delivers (writeDatum (.sequence (ns.map .integer))) readRealArray xs ↔
      Wire.Fits ns.length := by
  have hitem : (Datum.sequence (ns.map .integer)).item? = some (.reals true xs) := by
    rw [Datum.item?, Datum.entryOfTable?, contents_of_not_oneWidth h, hvalues]
    rfl
  rw [delivers_item_iff hitem, Entry.write, delivers_writeRealArray_iff,
    length_of_mapM_eq_ok hvalues]

/-- A list is refused as a whole if one of its integers counts as no double. -/
theorem refuses_list {ns : List Int} {fault : Fault} (h : ¬ OneWidth ns)
    (hvalues : ns.mapM Datum.realOfInt = .error fault) :
    Refuses (writeDatum (.sequence (ns.map .integer))) fault := by
  have hcontents := contents_of_not_oneWidth h
  rw [hvalues] at hcontents
  intro b
  rw [writeDatum, writeTable, hcontents]
  exact Action.run_bind_of_error (Action.run_ofExcept _ b)

/-- A single integer of more than 32 bits is refused.  Whether a row, or a list of integers of one
width, is read back does not depend on these integers: they come back modulo `2 ^ 32`, and so
unchanged exactly if all of them have 32 bits.  Other lists of integers come back as doubles, or are
refused. -/
theorem sent_integers {r : Row Binary64} (heven : r.indices.length = r.coefficients.length)
    (ns : List Int) :
    (∀ n, (Delivers (writeInt n) readInt n ↔ Wire.Fits n) ∧
        (¬ Wire.Fits n → Refuses (writeInt n) .overflow)) ∧
      ((Delivers r.encode Row.decode r.wrapped ↔
          Wire.Fits r.index ∧ Wire.Fits r.indices.length) ∧
        (r.wrapped = r ↔ ∀ n ∈ r.indices, Wire.Fits n)) ∧
      (OneWidth ns →
        (Delivers (writeDatum (.sequence (ns.map .integer))) readWholeArray (ns.map Wire.wrap) ↔
            Wire.Fits ns.length) ∧
          (ns.map Wire.wrap = ns ↔ ∀ n ∈ ns, Wire.Fits n)) ∧
      (¬ OneWidth ns →
        (∀ xs, ns.mapM Datum.realOfInt = .ok xs →
            (Delivers (writeDatum (.sequence (ns.map .integer))) readRealArray xs ↔
              Wire.Fits ns.length)) ∧
          ∀ fault, ns.mapM Datum.realOfInt = .error fault →
            Refuses (writeDatum (.sequence (ns.map .integer))) fault) := by
  refine ⟨fun n => ⟨delivers_writeInt_iff, run_writeInt_of_not_fits⟩, ?_, ?_, ?_⟩
  · exact ⟨delivers_row_iff heven, Row.wrapped_eq_self_iff⟩
  · intro hwidth
    exact ⟨delivers_list_iff hwidth, Wire.map_wrap_eq_self_iff⟩
  · intro hwidth
    exact ⟨fun xs => delivers_list_as_reals_iff hwidth, fun fault => refuses_list hwidth⟩

/-- A row whose index is the least integer that is too large for 32 bits. -/
def overflowingRow : Row Binary64 := .ofTerm 0x80000000 1.0

/-- The row is built without a fault. -/
theorem build_overflowingRow :
    Object.build .row (Object.rowFields [0x80000000] [1.0]) = .ok (.row overflowingRow) :=
  Object.build_ofTerm (by decide) 1.0

/-- For that row and a list with the same integer. -/
theorem sent_integers_overflowingRow :
    (∀ n, (Delivers (writeInt n) readInt n ↔ Wire.Fits n) ∧
        (¬ Wire.Fits n → Refuses (writeInt n) .overflow)) ∧
      ((Delivers overflowingRow.encode Row.decode overflowingRow.wrapped ↔
          Wire.Fits overflowingRow.index ∧ Wire.Fits overflowingRow.indices.length) ∧
        (overflowingRow.wrapped = overflowingRow ↔
          ∀ n ∈ overflowingRow.indices, Wire.Fits n)) ∧
      (Delivers (writeDatum (.sequence [.integer 0x80000000])) readWholeArray [-0x80000000] ↔
        Wire.Fits 1) := by
  have hsent := sent_integers (Object.even_of_build build_overflowingRow) [0x80000000]
  have hwidth : OneWidth [0x80000000] := by decide
  exact ⟨hsent.1, hsent.2.1, (hsent.2.2.1 hwidth).1⟩

/-- The row is built and written without a fault and read back with another index, and so is the
list, while the integer alone is refused. -/
theorem overflowingRow_wraps :
    Object.build .row (Object.rowFields [0x80000000] [1.0]) = .ok (.row overflowingRow) ∧
      Delivers overflowingRow.encode Row.decode overflowingRow.wrapped ∧
      overflowingRow.wrapped.indices = [-0x80000000] ∧
      Delivers (writeDatum (.sequence [.integer 0x80000000])) readWholeArray [-0x80000000] ∧
      Refuses (writeInt 0x80000000) .overflow := by
  have heven := Object.even_of_build build_overflowingRow
  have hwidth : OneWidth [0x80000000] := by decide
  refine ⟨build_overflowingRow, ?_, by decide, ?_, run_writeInt_of_not_fits (by decide)⟩
  · exact (delivers_row_iff heven).2 (by decide)
  · exact (delivers_list_iff hwidth).2 (by decide)

end Buffer

end BranchBound
