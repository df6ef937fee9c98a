import BranchBound.Entity.Header
import BranchBound.Proofs.Wire.Grammar

/-!
# The header on the wire

The header of an entity is read field by field into an entity that exists already.  In the end no
field of that entity is left, so that a header that was read depends on its bytes alone.

What is written is what is read, but for two things: a status word may have bits that are no flag,
and these are dropped, and `nan` may be sent by other patterns than the one that is written.

Main results:

- Theorem `Entity.reads_read`: the grammar of a header.
- Theorem `Entity.run_writeHeader`: what a header adds to a buffer.
- Theorem `Entity.header_headerBytes`: what is written is read back.
- Theorem `Entity.eq_headerBytes`: what is read is written back, but for the two things above.
-/

namespace BranchBound

/-! ## Reading into an entity -/

namespace Entity

variable {α : Type}

/-- What an entity that is being read becomes, with the buffer alone as the state. -/
def collect (x : Action InBuffer Unit) (e : Entity Binary64) :
    Action Buffer (Entity Binary64) :=
  ⟨fun b => let (r, e', b') := x.run (e, b); (r.map fun _ => e', b')⟩

/-- Reads the member that a code stands for, from no bytes. -/
def ofCode (code : Datum) (enumeration : Enumeration) : Option α → Action Buffer α
  | some a => return a
  | none => .fail (.malformed (.badHeader code enumeration))

theorem read_eq_collect (start : Entity Binary64) : read start = collect readHeader start := rfl

theorem collect_next (x : Action Buffer α) (f : α → Action InBuffer Unit)
    (e : Entity Binary64) :
    collect (next x >>= f) e = x >>= fun a => collect (f a) e := by
  refine congrArg Action.mk (funext fun b => ?_)
  simp only [next, Action.run_bind, Action.run_within]
  rcases x.run b with ⟨_ | a, b'⟩ <;> rfl

theorem collect_take_bind (g : Entity Binary64 → Entity Binary64)
    (f : Unit → Action InBuffer Unit) (e : Entity Binary64) :
    collect (take g >>= f) e = collect (f ()) (g e) := rfl

theorem collect_take (g : Entity Binary64 → Entity Binary64) (e : Entity Binary64) :
    collect (take g) e = pure (g e) := rfl

theorem collect_takeCode (code : Datum) (enumeration : Enumeration) (found : Option α)
    (g : α → Entity Binary64 → Entity Binary64) (f : Unit → Action InBuffer Unit)
    (e : Entity Binary64) :
    collect (takeCode code enumeration found g >>= f) e =
      ofCode code enumeration found >>= fun a => collect (f ()) (g a e) := by
  cases found <;> rfl

/-- A code takes no bytes and stands for the member that was found. -/
theorem reads_ofCode (code : Datum) (enumeration : Enumeration) (found : Option α) :
    Buffer.Reads (ofCode code enumeration found) (Grammar.member found) := by
  cases found with
  | none =>
    refine (Buffer.reads_fail _).congr fun bs a => ⟨False.elim, ?_⟩
    rintro ⟨-, hfound⟩
    cases hfound
  | some a' =>
    refine (Buffer.reads_pure a').congr fun bs a => and_congr_right fun _ => ?_
    rw [Option.some.injEq]
    exact eq_comm

/-! ## The grammar of a header -/

/-- The byte of the letter of an integrality class. -/
def letterByte (i : Integrality) : UInt8 := UInt8.ofNat i.letter.toNat

/-- The doubles of a header, in order. -/
def headerReals (e : Entity Binary64) : List Binary64 :=
  [e.hard.lower, e.hard.upper, e.soft.lower, e.soft.upper, e.hash]

/-- The bytes of a header before its status word. -/
def headerCodes (e : Entity Binary64) : List UInt8 :=
  Wire.encodeInt e.index ++ Wire.encodeInt e.representation.code ++ [letterByte e.integrality]

/-- The bytes of a header. -/
def headerBytes (e : Entity Binary64) : List UInt8 :=
  e.headerCodes ++ Wire.encodeInt e.status.word ++ e.headerReals.flatMap Wire.encodeReal

end Entity

/-- Headers of entities; the status may be sent by any word that has its flags. -/
def Grammar.header : Grammar (Entity Binary64) := fun bs e =>
  ∃ word reals, Wire.Fits e.index ∧ Wire.Fits word ∧ e.status = .ofWord word ∧
    Grammar.real.each reals e.headerReals ∧ bs = e.headerCodes ++ Wire.encodeInt word ++ reals

namespace Entity

/-- An ASCII character is added to a buffer as one byte. -/
theorem run_writeChar {c : Char} (h : c.toNat < 128) (b : Buffer) :
    (Buffer.writeChar c).run b =
      (.ok (), { b with bytes := b.bytes ++ [UInt8.ofNat c.toNat] }) := by
  simp [Buffer.writeChar, h]

/-- A letter is an ASCII character. -/
theorem letter_toNat_lt (i : Integrality) : i.letter.toNat < 128 := by
  cases i <;> decide

/-- A code of a representation has 32 bits. -/
theorem fits_code (r : Representation) : Wire.Fits r.code := by
  cases r <;> decide

/-- A status word has 32 bits. -/
theorem fits_word (s : Status) : Wire.Fits s.word := by
  rcases s with ⟨_ | _, _ | _, _ | _⟩ <;> decide

/-- A header is read by its grammar, whatever entity it is read into. -/
theorem reads_read (start : Entity Binary64) : Buffer.Reads (read start) Grammar.header := by
  rw [read_eq_collect]
  unfold readHeader
  simp only [collect_next, collect_take_bind, collect_takeCode, collect_take]
  refine Buffer.Reads.congr
    (Buffer.reads_readInt.bind fun index =>
      Buffer.reads_readInt.bind fun code =>
      Buffer.reads_readChar.bind fun letter =>
      Buffer.reads_readInt.bind fun word =>
      (reads_ofCode _ _ _).bind fun representation =>
      (reads_ofCode _ _ _).bind fun integrality =>
      Buffer.reads_readReal.bind fun hardLower =>
      Buffer.reads_readReal.bind fun hardUpper =>
      Buffer.reads_readReal.bind fun softLower =>
      Buffer.reads_readReal.bind fun softUpper =>
      Buffer.reads_readReal.bind fun hash =>
      Buffer.reads_pure _) fun bs e => ?_
  constructor
  · rintro ⟨index, _, _, rfl, ⟨hindex, rfl⟩, code, _, _, rfl, ⟨-, rfl⟩,
      letter, _, _, rfl, ⟨-, rfl⟩, word, _, _, rfl, ⟨hword, rfl⟩,
      representation, _, _, rfl, ⟨rfl, hrepresentation⟩,
      integrality, _, _, rfl, ⟨rfl, hintegrality⟩,
      hardLower, _, _, rfl, hhardLower, hardUpper, _, _, rfl, hhardUpper,
      softLower, _, _, rfl, hsoftLower, softUpper, _, _, rfl, hsoftUpper,
      hash, _, _, rfl, hhash, rfl, rfl⟩
    refine ⟨word, _, hindex, hword, rfl,
      ⟨_, _, rfl, hhardLower, _, _, rfl, hhardUpper, _, _, rfl, hsoftLower,
        _, _, rfl, hsoftUpper, _, _, rfl, hhash, rfl⟩, ?_⟩
    simp only [headerCodes, letterByte, Representation.code_of_ofCode? hrepresentation,
      Integrality.letter_of_ofLetter? hintegrality, List.nil_append, List.append_assoc]
  · rcases e with ⟨index, representation, integrality, status, ⟨_, _⟩, ⟨_, _⟩, hash⟩
    rintro ⟨word, reals, hindex, hword, rfl, hreals, rfl⟩
    rcases hreals with ⟨_, _, rfl, hhardLower, _, _, rfl, hhardUpper, _, _, rfl, hsoftLower,
      _, _, rfl, hsoftUpper, _, _, rfl, hhash, rfl⟩
    simp only [headerCodes, letterByte, List.append_assoc]
    exact ⟨index, _, _, rfl, ⟨hindex, rfl⟩, _, _, _, rfl, ⟨fits_code _, rfl⟩,
      _, _, _, rfl, ⟨letter_toNat_lt _, rfl⟩, word, _, _, rfl, ⟨hword, rfl⟩,
      representation, [], _, rfl, ⟨rfl, Representation.ofCode?_code _⟩,
      integrality, [], _, rfl, ⟨rfl, Integrality.ofLetter?_letter _⟩,
      _, _, _, rfl, hhardLower, _, _, _, rfl, hhardUpper, _, _, _, rfl, hsoftLower,
      _, _, _, rfl, hsoftUpper, _, _, _, rfl, hhash, rfl, rfl⟩

/-! ## Status words -/

end Entity

namespace Status

/-- Whether a word has no other bits than those of the flags. -/
def Defined (word : Int) : Prop := BitVec.ofInt 32 word ||| 0x111 = 0x111

instance (word : Int) : Decidable (Defined word) := inferInstanceAs (Decidable (_ = _))

/-- Of a word without other bits nothing is dropped. -/
theorem word_ofWord {word : Int} (hfits : Wire.Fits word) (h : Defined word) :
    (ofWord word).word = word := by
  have hbits : (word % Wire.intModulus).toNat ||| 0x111 = 0x111 := by
    have hnat := congrArg BitVec.toNat h
    rw [BitVec.toNat_or, BitVec.toNat_ofInt] at hnat
    exact hnat
  have hle : (word % Wire.intModulus).toNat ≤ 0x111 := by
    rw [← hbits]
    exact Nat.left_le_or
  rcases hfits with ⟨hlow, hhigh⟩
  have hword : word % Wire.intModulus = word := by
    unfold Wire.intModulus at hle ⊢
    omega
  have hsmall : ∀ n : Fin 0x112, n.val ||| 0x111 = 0x111 → (ofWord n.val).word = n.val := by
    decide +kernel
  have hnonneg : 0 ≤ word := by
    rw [← hword]
    exact Int.emod_nonneg _ (by decide)
  rw [hword] at hbits hle
  have hfound := hsmall ⟨word.toNat, by omega⟩ hbits
  simpa only [Int.toNat_of_nonneg hnonneg] using hfound

end Status

namespace Entity

/-- The status word among the bytes of a header. -/
def statusWord (bs : List UInt8) : Int := Wire.decodeInt ((bs.drop 9).take 4)

theorem length_headerCodes (e : Entity Binary64) : e.headerCodes.length = 9 := by
  simp [headerCodes]

/-- The status word comes after the codes of a header. -/
theorem statusWord_eq (e : Entity Binary64) {word : Int} (hfits : Wire.Fits word)
    (rest : List UInt8) :
    statusWord (e.headerCodes ++ (Wire.encodeInt word ++ rest)) = word := by
  unfold statusWord
  rw [List.drop_left' e.length_headerCodes, List.take_left' (Wire.length_encodeInt word),
    Wire.decodeInt_encodeInt hfits]

/-! ## Writing a header -/

/-- A header is added to a buffer if its index has 32 bits. -/
theorem run_writeHeader {e : Entity Binary64} (h : Wire.Fits e.index) (b : Buffer) :
    e.writeHeader.run b = (.ok (), { b with bytes := b.bytes ++ e.headerBytes }) := by
  unfold writeHeader
  rw [Action.run_bind_of_ok (Buffer.run_writeInt_of_fits h b),
    Action.run_bind_of_ok (Buffer.run_writeInt_of_fits (fits_code _) _),
    Action.run_bind_of_ok (run_writeChar (letter_toNat_lt _) _),
    Action.run_bind_of_ok (Buffer.run_writeInt_of_fits (fits_word _) _)]
  simp [Buffer.writeReal, Action.run_bind, headerBytes, headerCodes, headerReals, letterByte]

/-- Of an index of more than 32 bits nothing is written, nor of the header after it. -/
theorem run_writeHeader_of_not_fits {e : Entity Binary64} (h : ¬ Wire.Fits e.index)
    (b : Buffer) : e.writeHeader.run b = (.error .overflow, b) :=
  Action.run_bind_of_error (Buffer.run_writeInt_of_not_fits h b)

/-- What is written is read back. -/
theorem header_headerBytes {e : Entity Binary64} (h : Wire.Fits e.index) :
    Grammar.header e.headerBytes e :=
  ⟨e.status.word, _, h, fits_word _, (Status.ofWord_word _).symm, Grammar.each_real_flatMap _,
    rfl⟩

/-- What is read is written back if no bits of the status word and no patterns of `nan` get
lost. -/
theorem eq_headerBytes {bs back : List UInt8} {e : Entity Binary64} (h : Grammar.header bs e)
    (hword : Status.Defined (statusWord (bs ++ back)))
    (hreals : ∀ x ∈ e.headerReals, x ≠ .nan) : Wire.Fits e.index ∧ bs = e.headerBytes := by
  rcases h with ⟨word, reals, hindex, hfits, hstatus, heach, rfl⟩
  rw [List.append_assoc, List.append_assoc, statusWord_eq e hfits] at hword
  refine ⟨hindex, ?_⟩
  rw [headerBytes, hstatus, Status.word_ofWord hfits hword,
    Grammar.eq_of_each_real heach hreals]

end Entity

/-- The bytes of a header are of one number. -/
theorem Grammar.length_header {bs : List UInt8} {e : Entity Binary64} (h : header bs e) :
    bs.length = 53 := by
  rcases h with ⟨word, reals, -, -, -, heach, rfl⟩
  have hreals := ((each_iff fun _ _ => Iff.rfl).1 heach).1
  rw [List.length_append, List.length_append, Entity.length_headerCodes, Wire.length_encodeInt,
    hreals]
  rfl

end BranchBound
