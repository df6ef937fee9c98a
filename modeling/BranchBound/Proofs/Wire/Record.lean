import BranchBound.Object.Codec
import BranchBound.Proofs.Wire.Header

/-!
# Records

The record of a column, a row or a solution is what its encoding adds to a buffer.  Columns have
records of one length; the arrays of rows and of solutions are preceded by their lengths.

Each of the three has a grammar, which its reader reads.  The record of something that fits is in
the grammar, and only records are, but for bits of status words that are no flag and for patterns
of `nan`.

Main results:

- Theorem `Kind.reads_decode`: what the reader of a kind reads.
- Theorem `Knowledge.run_encode`: an encoding adds the record.
- Theorem `Knowledge.grammar_record`: a record stands for what was encoded.
- Theorem `Knowledge.eq_record`: bytes that stand for something are its record.
-/

namespace BranchBound

/-! ## Writing arrays -/

namespace Buffer

theorem run_writeWholes (ns : List Int) (b : Buffer) :
    (writeWholes ns).run b =
      (.ok (), { b with bytes := b.bytes ++ ns.flatMap Wire.encodeInt }) := rfl

theorem run_writeReals (xs : List Binary64) (b : Buffer) :
    (writeReals xs).run b =
      (.ok (), { b with bytes := b.bytes ++ xs.flatMap Wire.encodeReal }) := rfl

theorem run_writeReal (x : Binary64) (b : Buffer) :
    (writeReal x).run b = (.ok (), { b with bytes := b.bytes ++ Wire.encodeReal x }) := rfl

/-- An array of integers is added to a buffer if its length has 32 bits. -/
theorem run_writeWholeArray {ns : List Int} (h : Wire.Fits ns.length) (b : Buffer) :
    (writeWholeArray ns).run b =
      (.ok (), { b with bytes :=
        b.bytes ++ (Wire.encodeInt ns.length ++ ns.flatMap Wire.encodeInt) }) := by
  unfold writeWholeArray
  rw [Action.run_bind_of_ok (run_writeInt_of_fits h b), run_writeWholes, List.append_assoc]

/-- An array of doubles is added to a buffer if its length has 32 bits. -/
theorem run_writeRealArray {xs : List Binary64} (h : Wire.Fits xs.length) (b : Buffer) :
    (writeRealArray xs).run b =
      (.ok (), { b with bytes :=
        b.bytes ++ (Wire.encodeInt xs.length ++ xs.flatMap Wire.encodeReal) }) := by
  unfold writeRealArray
  rw [Action.run_bind_of_ok (run_writeInt_of_fits h b), run_writeReals, List.append_assoc]

/-- Of an array of integers whose length has more bits nothing is written. -/
theorem run_writeWholeArray_of_not_fits {ns : List Int} (h : ¬ Wire.Fits ns.length) (b : Buffer) :
    (writeWholeArray ns).run b = (.error .overflow, b) := by
  rw [writeWholeArray, Action.run_bind_of_error (run_writeInt_of_not_fits h b)]

/-- Of an array of doubles whose length has more bits nothing is written. -/
theorem run_writeRealArray_of_not_fits {xs : List Binary64} (h : ¬ Wire.Fits xs.length)
    (b : Buffer) : (writeRealArray xs).run b = (.error .overflow, b) := by
  rw [writeRealArray, Action.run_bind_of_error (run_writeInt_of_not_fits h b)]

end Buffer

/-! ## Columns -/

namespace Column

/-- Whether the integers of a column have 32 bits. -/
structure Fits (c : Column Binary64) : Prop where
  /-- The index has. -/
  index : Wire.Fits c.index
  /-- The number of branchings down has. -/
  down : Wire.Fits c.costs.down.count
  /-- The number of branchings up has. -/
  up : Wire.Fits c.costs.up.count

/-- The average costs of a column. -/
def averages (c : Column Binary64) : List Binary64 := [c.costs.down.cost, c.costs.up.cost]

/-- The counts of a column, as bytes. -/
def countBytes (c : Column Binary64) : List UInt8 :=
  Wire.encodeInt c.costs.down.count ++ Wire.encodeInt c.costs.up.count

/-- The record of a column. -/
def record (c : Column Binary64) : List UInt8 :=
  c.headerBytes ++ (c.averages.flatMap Wire.encodeReal ++ c.countBytes)

/-- Which bytes stand for which columns. -/
def grammar : Grammar (Column Binary64) := fun bs c =>
  ∃ front costs, Grammar.header front c.toEntity ∧ Grammar.real.each costs c.averages ∧
    Wire.Fits c.costs.down.count ∧ Wire.Fits c.costs.up.count ∧
    bs = front ++ (costs ++ c.countBytes)

/-- Columns are read by their grammar. -/
theorem reads_decode : Buffer.Reads decode grammar := by
  refine Buffer.Reads.congr
    ((Entity.reads_read initial.toEntity).bind fun entity =>
      Buffer.reads_readReal.bind fun downCost =>
      Buffer.reads_readReal.bind fun upCost =>
      Buffer.reads_readInt.bind fun downCount =>
      Buffer.reads_readInt.bind fun upCount =>
      Buffer.reads_pure _) fun bs c => ?_
  constructor
  · rintro ⟨entity, front, _, rfl, hheader, downCost, _, _, rfl, hdownCost,
      upCost, _, _, rfl, hupCost, downCount, _, _, rfl, ⟨hdownCount, rfl⟩,
      upCount, _, _, rfl, ⟨hupCount, rfl⟩, rfl, rfl⟩
    refine ⟨front, _, hheader, ⟨_, _, rfl, hdownCost, _, _, rfl, hupCost, rfl⟩, hdownCount,
      hupCount, ?_⟩
    simp only [countBytes, List.append_assoc, List.append_nil]
  · rcases c with ⟨entity, ⟨_, _⟩, ⟨_, _⟩⟩
    rintro ⟨front, _, hheader, ⟨_, _, rfl, hdownCost, _, _, rfl, hupCost, rfl⟩, hdownCount,
      hupCount, rfl⟩
    simp only [countBytes, List.append_assoc, List.nil_append]
    exact ⟨entity, front, _, rfl, hheader, _, _, _, rfl, hdownCost, _, _, _, rfl, hupCost,
      _, _, _, rfl, ⟨hdownCount, rfl⟩, _, _, [], (List.append_nil _).symm, ⟨hupCount, rfl⟩,
      rfl, rfl⟩

/-- An encoding adds the record. -/
theorem run_encode {c : Column Binary64} (h : c.Fits) (b : Buffer) :
    c.encode.run b = (.ok (), { b with bytes := b.bytes ++ c.record }) := by
  unfold encode
  rw [Action.run_bind_of_ok (Entity.run_writeHeader h.index b)]
  simp [Buffer.writeReal, Action.run_bind, Buffer.run_writeInt_of_fits h.down,
    Buffer.run_writeInt_of_fits h.up, record, averages, countBytes]

/-- A column is written to the end only if it fits. -/
theorem fits_of_run_encode {c : Column Binary64} {b b' : Buffer}
    (h : c.encode.run b = (.ok (), b')) : c.Fits := by
  unfold encode at h
  by_cases hindex : Wire.Fits c.index
  · rw [Action.run_bind_of_ok (Entity.run_writeHeader hindex b),
      Action.run_bind_of_ok (Buffer.run_writeReal _ _),
      Action.run_bind_of_ok (Buffer.run_writeReal _ _)] at h
    by_cases hdown : Wire.Fits c.costs.down.count
    · rw [Action.run_bind_of_ok (Buffer.run_writeInt_of_fits hdown _)] at h
      by_cases hup : Wire.Fits c.costs.up.count
      · exact ⟨hindex, hdown, hup⟩
      · rw [Buffer.run_writeInt_of_not_fits hup] at h
        cases h
    · rw [Action.run_bind_of_error (Buffer.run_writeInt_of_not_fits hdown _)] at h
      cases h
  · unfold Entity.writeHeader at h
    rw [Action.run_bind_of_error
      (Action.run_bind_of_error (Buffer.run_writeInt_of_not_fits hindex b))] at h
    cases h

/-- A record stands for the column. -/
theorem grammar_record {c : Column Binary64} (h : c.Fits) : grammar c.record c :=
  ⟨_, _, Entity.header_headerBytes h.index, Grammar.each_real_flatMap _, h.down, h.up, rfl⟩

/-- Bytes that stand for a column are its record. -/
theorem eq_record {bs back : List UInt8} {c : Column Binary64} (h : grammar bs c)
    (hword : Status.Defined (Entity.statusWord (bs ++ back)))
    (hreals : ∀ x ∈ c.headerReals ++ c.averages, x ≠ .nan) : c.Fits ∧ bs = c.record := by
  rcases h with ⟨front, costs, hheader, heach, hdown, hup, rfl⟩
  rw [List.append_assoc] at hword
  rw [List.forall_mem_append] at hreals
  rcases Entity.eq_headerBytes hheader hword hreals.1 with ⟨hindex, rfl⟩
  rw [Grammar.eq_of_each_real heach hreals.2]
  exact ⟨⟨hindex, hdown, hup⟩, rfl⟩

end Column

/-! ## Rows -/

namespace Row

/-- Whether the integers of a row have 32 bits, and there is a coefficient for every index, as in
every row that was built or read. -/
structure Fits (r : Row Binary64) : Prop where
  /-- The index of the row has. -/
  index : Wire.Fits r.index
  /-- The number of terms has. -/
  length : Wire.Fits r.indices.length
  /-- The indices of the variables have. -/
  indices : ∀ n ∈ r.indices, Wire.Fits n
  /-- There are as many coefficients as indices. -/
  even : r.indices.length = r.coefficients.length

/-- A row that was built has a coefficient for every index. -/
theorem even_of_ofTerms {e : Entity Binary64} {indices : List Int}
    {coefficients : List Binary64} {r : Row Binary64}
    (h : ofTerms e indices coefficients = .ok r) :
    r.indices.length = r.coefficients.length := by
  unfold ofTerms at h
  split at h
  · cases h
    rw [List.length_map, List.length_map]
  · cases h

/-- The array of the indices of a row, as bytes. -/
def indexBytes (r : Row Binary64) : List UInt8 :=
  Wire.encodeInt r.indices.length ++ r.indices.flatMap Wire.encodeInt

/-- The record of a row. -/
def record (r : Row Binary64) : List UInt8 :=
  r.headerBytes ++ (r.indexBytes ++
    (Wire.encodeInt r.coefficients.length ++ r.coefficients.flatMap Wire.encodeReal))

/-- Which bytes stand for which rows. -/
def grammar : Grammar (Row Binary64) := fun bs r =>
  ∃ front reals, Grammar.header front r.toEntity ∧ Wire.Fits r.indices.length ∧
    (∀ n ∈ r.indices, Wire.Fits n) ∧ r.indices.length = r.coefficients.length ∧
    Grammar.real.each reals r.coefficients ∧
    bs = front ++ (r.indexBytes ++ (Wire.encodeInt r.coefficients.length ++ reals))

/-- Rows are read by their grammar. -/
theorem reads_decode : Buffer.Reads decode grammar := by
  have hlast (entity : Entity Binary64) (indices : List Int) (coefficients : List Binary64) :
      Buffer.Reads
        (if indices.length = coefficients.length then
          return { entity with indices, coefficients }
        else .fail (.malformed (.unevenRow indices.length coefficients.length)))
        (fun bs r => indices.length = coefficients.length ∧
          Grammar.pure (⟨entity, indices, coefficients⟩ : Row Binary64) bs r) := by
    by_cases heven : indices.length = coefficients.length
    · rw [if_pos heven]
      exact (Buffer.reads_pure _).congr fun bs r => (and_iff_right heven).symm
    · rw [if_neg heven]
      exact (Buffer.reads_fail _).congr fun bs r =>
        ⟨False.elim, fun hrow => absurd hrow.1 heven⟩
  refine Buffer.Reads.congr
    ((Entity.reads_read initial.toEntity).bind fun entity =>
      Buffer.reads_readWholeArray.bind fun indices =>
      Buffer.reads_readRealArray.bind fun coefficients =>
      hlast entity indices coefficients) fun bs r => ?_
  constructor
  · rintro ⟨entity, front, _, rfl, hheader, indices, _, _, rfl, ⟨_, hlength, hindices, rfl⟩,
      coefficients, _, _, rfl, ⟨reals, -, hcoefficients, rfl⟩, heven, rfl, rfl⟩
    rcases Grammar.each_int_iff.1 hindices with ⟨hfits, rfl⟩
    refine ⟨front, reals, hheader, hlength, hfits, heven, hcoefficients, ?_⟩
    simp only [indexBytes, List.append_nil, List.append_assoc]
  · rcases r with ⟨entity, indices, coefficients⟩
    rintro ⟨front, reals, hheader, hlength, hfits, heven, hcoefficients, rfl⟩
    have hlength' : Wire.Fits coefficients.length := by
      rw [← show indices.length = coefficients.length from heven]
      exact hlength
    exact ⟨entity, front, _, rfl, hheader, indices, _, _, rfl,
      ⟨_, hlength, Grammar.each_int_iff.2 ⟨hfits, rfl⟩, rfl⟩,
      coefficients, _, [], (List.append_nil _).symm, ⟨reals, hlength', hcoefficients, rfl⟩,
      heven, rfl, rfl⟩

/-- An encoding adds the record, in which indices of more than 32 bits are cut. -/
theorem run_encode_of_lengths {r : Row Binary64} (hindex : Wire.Fits r.index)
    (hindices : Wire.Fits r.indices.length) (hcoefficients : Wire.Fits r.coefficients.length)
    (b : Buffer) : r.encode.run b = (.ok (), { b with bytes := b.bytes ++ r.record }) := by
  unfold encode
  rw [Action.run_bind_of_ok (Entity.run_writeHeader hindex b),
    Action.run_bind_of_ok (Buffer.run_writeWholeArray hindices _),
    Buffer.run_writeRealArray hcoefficients]
  simp only [record, indexBytes, List.append_assoc]

/-- An encoding adds the record. -/
theorem run_encode {r : Row Binary64} (h : r.Fits) (b : Buffer) :
    r.encode.run b = (.ok (), { b with bytes := b.bytes ++ r.record }) := by
  have hlength : Wire.Fits r.coefficients.length := by
    rw [← h.even]
    exact h.length
  exact run_encode_of_lengths h.index h.length hlength b

/-- A row is written to the end only if its own index and the lengths of its arrays fit. -/
theorem lengths_of_run_encode {r : Row Binary64} {b b' : Buffer}
    (h : r.encode.run b = (.ok (), b')) :
    Wire.Fits r.index ∧ Wire.Fits r.indices.length ∧ Wire.Fits r.coefficients.length := by
  unfold encode at h
  by_cases hindex : Wire.Fits r.index
  · rw [Action.run_bind_of_ok (Entity.run_writeHeader hindex b)] at h
    by_cases hindices : Wire.Fits r.indices.length
    · rw [Action.run_bind_of_ok (Buffer.run_writeWholeArray hindices _)] at h
      by_cases hcoefficients : Wire.Fits r.coefficients.length
      · exact ⟨hindex, hindices, hcoefficients⟩
      · rw [Buffer.run_writeRealArray_of_not_fits hcoefficients] at h
        simp at h
    · rw [Action.run_bind_of_error (Buffer.run_writeWholeArray_of_not_fits hindices _)] at h
      simp at h
  · rw [Action.run_bind_of_error (Entity.run_writeHeader_of_not_fits hindex b)] at h
    simp at h

/-- A record stands for the row. -/
theorem grammar_record {r : Row Binary64} (h : r.Fits) : grammar r.record r :=
  ⟨_, _, Entity.header_headerBytes h.index, h.length, h.indices, h.even,
    Grammar.each_real_flatMap _, rfl⟩

/-- Bytes that stand for a row are its record. -/
theorem eq_record {bs back : List UInt8} {r : Row Binary64} (h : grammar bs r)
    (hword : Status.Defined (Entity.statusWord (bs ++ back)))
    (hreals : ∀ x ∈ r.headerReals ++ r.coefficients, x ≠ .nan) : r.Fits ∧ bs = r.record := by
  rcases h with ⟨front, reals, hheader, hlength, hindices, heven, heach, rfl⟩
  rw [List.append_assoc] at hword
  rw [List.forall_mem_append] at hreals
  rcases Entity.eq_headerBytes hheader hword hreals.1 with ⟨hindex, rfl⟩
  rw [Grammar.eq_of_each_real heach hreals.2]
  exact ⟨⟨hindex, hlength, hindices, heven⟩, rfl⟩

end Row

/-! ## Solutions -/

namespace Solution

/-- The record of a solution. -/
def record (s : Solution Binary64) : List UInt8 :=
  Wire.encodeInt s.size ++ (s.values.flatMap Wire.encodeReal ++ Wire.encodeReal s.quality)

/-- Which bytes stand for which solutions. -/
def grammar : Grammar (Solution Binary64) := fun bs s =>
  ∃ reals last, Wire.Fits s.size ∧ Grammar.real.each reals s.values ∧
    Grammar.real last s.quality ∧ s = .ofValues s.values s.quality ∧
    bs = Wire.encodeInt s.size ++ (reals ++ last)

/-- Solutions are read by their grammar. -/
theorem reads_decode : Buffer.Reads decode grammar := by
  refine Buffer.Reads.congr
    (Buffer.reads_readInt.bind fun size =>
      (Buffer.reads_readReals size).bind fun values =>
      Buffer.reads_readReal.bind fun quality =>
      Buffer.reads_pure _) fun bs s => ?_
  constructor
  · rintro ⟨size, _, _, rfl, ⟨hsize, rfl⟩, values, _, _, rfl, ⟨rfl, hvalues⟩,
      quality, _, _, rfl, hquality, rfl, rfl⟩
    rw [List.append_nil]
    exact ⟨_, _, hsize, hvalues, hquality, rfl, rfl⟩
  · rintro ⟨reals, last, hsize, hvalues, hquality, hordered, rfl⟩
    exact ⟨_, _, _, rfl, ⟨hsize, rfl⟩, s.values, _, _, rfl, ⟨rfl, hvalues⟩,
      s.quality, _, [], (List.append_nil _).symm, hquality, rfl, hordered⟩

/-- A solution is written only if the number of its values fits. -/
theorem fits_of_run_encode {s : Solution Binary64} {b b' : Buffer}
    (h : s.encode.run b = (.ok (), b')) : Wire.Fits s.size := by
  by_cases hsize : Wire.Fits s.size
  · exact hsize
  · rw [encode, Action.run_bind_of_error (Buffer.run_writeInt_of_not_fits hsize b)] at h
    simp at h

/-- A record stands for the solution whose values belong to the variables in order. -/
theorem grammar_record {s : Solution Binary64} (h : Wire.Fits s.size) :
    grammar s.record (.ofValues s.values s.quality) :=
  ⟨_, _, h, Grammar.each_real_flatMap _, Grammar.real_encodeReal _, rfl, rfl⟩

/-- Bytes that stand for a solution are its record. -/
theorem eq_record {bs : List UInt8} {s : Solution Binary64} (h : grammar bs s)
    (hreals : ∀ x ∈ s.quality :: s.values, x ≠ .nan) : Wire.Fits s.size ∧ bs = s.record := by
  rcases h with ⟨reals, last, hsize, heach, hlast, -, rfl⟩
  rw [List.forall_mem_cons] at hreals
  rw [Grammar.eq_of_each_real heach hreals.2, Grammar.eq_of_real hlast hreals.1]
  exact ⟨hsize, rfl⟩

end Solution

/-! ## Knowledge -/

namespace Knowledge

/-- Whether something can be sent: it is a column, a row or a solution, and its integers have 32
bits. -/
def Fits : Knowledge → Prop
  | object (.column c) => c.Fits
  | object (.row r) => r.Fits
  | object _ => False
  | solution s => Wire.Fits s.size

/-- The record of what can be sent. -/
def record : Knowledge → List UInt8
  | object (.column c) => c.record
  | object (.row r) => r.record
  | object _ => []
  | solution s => s.record

/-- What is received when something was sent: the indices of solutions are not sent. -/
def received : Knowledge → Knowledge
  | solution s => solution (.ofValues s.values s.quality)
  | k => k

/-- The doubles of what can be sent. -/
def reals : Knowledge → List Binary64
  | object (.column c) => c.headerReals ++ c.averages
  | object (.row r) => r.headerReals ++ r.coefficients
  | object _ => []
  | solution s => s.quality :: s.values

/-- Which bytes stand for what can be sent. -/
def grammar : Grammar Knowledge := fun bs k =>
  match k with
  | object (.column c) => Column.grammar bs c
  | object (.row r) => Row.grammar bs r
  | object _ => False
  | solution s => Solution.grammar bs s

/-- Whether the status word among some bytes, if what they stand for has one, has no other bits
than those of the flags. -/
def StatusDefined (bs : List UInt8) : Knowledge → Prop
  | object _ => Status.Defined (Entity.statusWord bs)
  | solution _ => True

theorem kind_received (k : Knowledge) : k.received.kind = k.kind := by
  cases k <;> rfl

/-- An encoding adds the record. -/
theorem run_encode {k : Knowledge} (h : k.Fits) (b : Buffer) :
    k.encode.run b = (.ok (), { b with bytes := b.bytes ++ k.record }) := by
  cases k with
  | object o =>
    cases o with
    | column c => exact Column.run_encode h b
    | row r => exact Row.run_encode h b
    | _ => exact False.elim h
  | solution s =>
    unfold encode record Solution.record
    rw [Solution.run_encode h b, List.append_assoc (Wire.encodeInt _)]

/-- A record stands for what is received. -/
theorem grammar_record {k : Knowledge} (h : k.Fits) : grammar k.record k.received := by
  cases k with
  | object o =>
    cases o with
    | column c => exact Column.grammar_record h
    | row r => exact Row.grammar_record h
    | _ => exact False.elim h
  | solution s => exact Solution.grammar_record h

/-- Bytes that stand for something are its record if no bits of a status word and no patterns of
`nan` get lost. -/
theorem eq_record {bs back : List UInt8} {k : Knowledge} (h : grammar bs k)
    (hword : k.StatusDefined (bs ++ back)) (hreals : ∀ x ∈ k.reals, x ≠ .nan) :
    k.Fits ∧ bs = k.record := by
  cases k with
  | object o =>
    cases o with
    | column c => exact Column.eq_record h hword hreals
    | row r => exact Row.eq_record h hword hreals
    | _ => exact False.elim h
  | solution s => exact Solution.eq_record h hreals

end Knowledge

namespace Kind

/-- Whether something of a kind can be read. -/
def Readable (kind : Kind) : Prop := kind = .column ∨ kind = .row ∨ kind = .solution

/-- The reader of a kind reads what is of that kind. -/
theorem reads_decode {kind : Kind} (h : kind.Readable) :
    Buffer.Reads kind.decode (fun bs k => k.kind = kind ∧ Knowledge.grammar bs k) := by
  rcases h with rfl | rfl | rfl
  · refine (Column.reads_decode.map fun c => Knowledge.object (.column c)).congr fun bs k => ?_
    constructor
    · rintro ⟨c, hc, rfl⟩
      exact ⟨rfl, hc⟩
    · rintro ⟨hkind, hk⟩
      rcases k with ⟨_ | _ | _ | c | _⟩ | _ <;> cases hkind
      exact ⟨c, hk, rfl⟩
  · refine (Row.reads_decode.map fun r => Knowledge.object (.row r)).congr fun bs k => ?_
    constructor
    · rintro ⟨r, hr, rfl⟩
      exact ⟨rfl, hr⟩
    · rintro ⟨hkind, hk⟩
      rcases k with ⟨_ | _ | _ | _ | r⟩ | _ <;> cases hkind
      exact ⟨r, hk, rfl⟩
  · refine (Solution.reads_decode.map Knowledge.solution).congr fun bs k => ?_
    constructor
    · rintro ⟨s, hs, rfl⟩
      exact ⟨rfl, hs⟩
    · rintro ⟨hkind, hk⟩
      rcases k with ⟨_ | _ | _ | _ | _⟩ | s <;> cases hkind
      exact ⟨s, hk, rfl⟩

end Kind

end BranchBound
