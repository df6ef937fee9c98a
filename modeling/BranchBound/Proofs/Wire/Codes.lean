import BranchBound.Proofs.Wire.Record

/-!
# The codes of a header

Three codes stand in the header of an entity after its index: its representation, its integrality
class and its status.  The header is refused if the first is no representation or the second is no
integrality class, in this order, once all three have been read.

The status is never refused.  Every word of 32 bits stands for the status of those of its bits that
are flags; a word with other bits is read as if they were not set, and is not the word of the status
that was read.

Main results:

- Theorem `Entity.run_read_of_refused`: how far a header is read whose codes are refused.
- Theorem `Status.word_ofWord_iff`: which words are those of the status that is read.
- Theorem `Object.decode_put`: how a column or a row is read whose codes were replaced.
-/

namespace BranchBound

/-- The three codes of a header, as they are sent. -/
structure Codes where
  /-- The code of the representation. -/
  representation : Int
  /-- The letter of the integrality class. -/
  letter : Char
  /-- The word of the status. -/
  status : Int

namespace Codes

/-- Whether codes can be sent, whatever they stand for. -/
structure Fits (codes : Codes) : Prop where
  /-- The representation has 32 bits. -/
  representation : Wire.Fits codes.representation
  /-- The letter is an ASCII character. -/
  letter : codes.letter.toNat < 128
  /-- The status has 32 bits. -/
  status : Wire.Fits codes.status

/-- Codes as bytes. -/
def bytes (codes : Codes) : List UInt8 :=
  Wire.encodeInt codes.representation ++
    ([UInt8.ofNat codes.letter.toNat] ++ Wire.encodeInt codes.status)

/-- Bytes that start with a header, with its codes replaced. -/
def put (codes : Codes) (bs : List UInt8) : List UInt8 := bs.take 4 ++ (codes.bytes ++ bs.drop 13)

/-- The fault of codes that are refused, or a header with what they stand for. -/
def judge (codes : Codes) (e : Entity Binary64) : Except Fault (Entity Binary64) :=
  match Representation.ofCode? codes.representation, Integrality.ofLetter? codes.letter with
  | none, _ => .error (.malformed (.badHeader (.integer codes.representation) .representation))
  | some _, none =>
    .error (.malformed (.badHeader (.text (String.singleton codes.letter)) .integrality))
  | some representation, some integrality =>
    .ok { e with representation, integrality, status := .ofWord codes.status }

/-- A buffer that holds nothing but a record with its codes replaced. -/
def sent (codes : Codes) (k : Knowledge) : Buffer := { bytes := codes.put k.record }

theorem unread_sent (codes : Codes) (k : Knowledge) :
    (codes.sent k).unread = codes.put k.record ++ [] := (List.append_nil _).symm

theorem length_bytes (codes : Codes) : codes.bytes.length = 9 := by
  simp [bytes]

/-- With its codes replaced, a header is its index, the codes and its numbers. -/
theorem put_header {front : List UInt8} {e : Entity Binary64} (h : Grammar.header front e) :
    ∃ reals, Grammar.real.each reals e.headerReals ∧ Wire.Fits e.index ∧ front.length = 53 ∧
      ∀ (codes : Codes) (back : List UInt8),
        codes.put (front ++ back) =
          Wire.encodeInt e.index ++ (codes.bytes ++ (reals ++ back)) := by
  have hlength := Grammar.length_header h
  rcases h with ⟨word, reals, hindex, -, -, hreals, rfl⟩
  refine ⟨reals, hreals, hindex, hlength, fun codes back => ?_⟩
  have hcodes : (e.headerCodes ++ Wire.encodeInt word).length = 13 := by
    rw [List.length_append, e.length_headerCodes, Wire.length_encodeInt]
  rw [put, List.append_assoc _ reals, List.drop_left' hcodes]
  simp only [Entity.headerCodes, List.append_assoc]
  rw [List.take_left' (Wire.length_encodeInt _)]

/-- Codes that are not refused make a header of their header. -/
theorem header_put {codes : Codes} (hcodes : codes.Fits) {e e' : Entity Binary64}
    {reals : List UInt8} (hindex : Wire.Fits e.index)
    (hreals : Grammar.real.each reals e.headerReals) (hjudge : codes.judge e = .ok e') :
    Grammar.header (Wire.encodeInt e.index ++ (codes.bytes ++ reals)) e' := by
  unfold judge at hjudge
  split at hjudge
  · cases hjudge
  · cases hjudge
  · rename_i representation integrality hrepresentation hintegrality
    cases hjudge
    refine ⟨codes.status, reals, hindex, hcodes.status, rfl, hreals, ?_⟩
    simp only [bytes, Entity.headerCodes, Entity.letterByte, List.append_assoc,
      Representation.code_of_ofCode? hrepresentation,
      Integrality.letter_of_ofLetter? hintegrality]

end Codes

/-- A reader that is amid a buffer reads what comes next there. -/
theorem Buffer.Reads.next {α : Type} {x : Action Buffer α} {G : Grammar α} (hx : Reads x G)
    {b : Buffer} {n : Nat} {bs back : List UInt8} {a : α} (ha : G bs a)
    (hb : (b.advance n).cursor ≤ (b.advance n).size) (hnext : (b.advance n).unread = bs ++ back) :
    x.run (b.advance n) = (.ok a, b.advance (n + bs.length)) ∧
      (b.advance (n + bs.length)).cursor ≤ (b.advance (n + bs.length)).size ∧
      (b.advance (n + bs.length)).unread = back := by
  rw [← advance_advance]
  exact ⟨hx.complete hb hnext ha, cursor_add_length_le hb hnext, unread_advance_length hnext⟩

namespace Entity

/-- A header whose codes are refused is read to the end of the codes. -/
theorem run_read_of_refused {e : Entity Binary64} {codes : Codes} (hcodes : codes.Fits) {f : Fault}
    (hjudge : codes.judge e = .error f) (hindex : Wire.Fits e.index) {b : Buffer}
    {rest : List UInt8} (hb : b.cursor ≤ b.size)
    (hnext : b.unread = Wire.encodeInt e.index ++ (codes.bytes ++ rest))
    (start : Entity Binary64) : (read start).run b = (.error f, b.advance 13) := by
  simp only [Codes.bytes, List.append_assoc] at hnext
  rcases Buffer.reads_readInt.next (n := 0) ⟨hindex, rfl⟩ hb hnext with ⟨hrun₁, hin₁, hnext₁⟩
  rcases Buffer.reads_readInt.next ⟨hcodes.representation, rfl⟩ hin₁ hnext₁ with
    ⟨hrun₂, hin₂, hnext₂⟩
  rcases Buffer.reads_readChar.next ⟨hcodes.letter, rfl⟩ hin₂ hnext₂ with ⟨hrun₃, hin₃, hnext₃⟩
  rcases Buffer.reads_readInt.next ⟨hcodes.status, rfl⟩ hin₃ hnext₃ with ⟨hrun₄, -, -⟩
  simp only [Wire.length_encodeInt, List.length_singleton] at hrun₁ hrun₂ hrun₃ hrun₄
  rw [read_eq_collect]
  unfold readHeader
  simp only [collect_next, collect_take_bind, collect_takeCode, collect_take]
  rw [Action.run_bind_of_ok (show Buffer.readInt.run b = _ from hrun₁),
    Action.run_bind_of_ok hrun₂, Action.run_bind_of_ok hrun₃, Action.run_bind_of_ok hrun₄]
  unfold Codes.judge at hjudge
  split at hjudge
  · rename_i hrepresentation
    cases hjudge
    rw [hrepresentation]
    rfl
  · rename_i representation hintegrality hrepresentation
    cases hjudge
    rw [hrepresentation, hintegrality]
    rfl
  · cases hjudge

end Entity

/-! ## Status words -/

namespace Status

theorem defined_word (s : Status) : Defined s.word := by
  rcases s with ⟨_ | _, _ | _, _ | _⟩ <;> decide

/-- A word is that of the status that it stands for exactly if it has no other bits than those of
the flags. -/
theorem word_ofWord_iff {word : Int} (h : Wire.Fits word) :
    (ofWord word).word = word ↔ Defined word := by
  constructor
  · intro hword
    rw [← hword]
    exact defined_word _
  · exact word_ofWord h

end Status

/-! ## Columns and rows -/

namespace Codes

variable {codes : Codes} {e : Entity Binary64}

/-- Whether the first two codes stand for a representation and an integrality class. -/
structure Known (codes : Codes) : Prop where
  /-- The representation is one. -/
  representation : (Representation.ofCode? codes.representation).isSome = true
  /-- The integrality class is one. -/
  integrality : (Integrality.ofLetter? codes.letter).isSome = true

/-- Known codes make a header with the status that their word stands for. -/
theorem Known.judge_eq (h : codes.Known) :
    ∃ e', codes.judge e = .ok e' ∧ e'.status = .ofWord codes.status := by
  rcases Option.isSome_iff_exists.1 h.representation with ⟨representation, hrepresentation⟩
  rcases Option.isSome_iff_exists.1 h.integrality with ⟨integrality, hintegrality⟩
  rw [judge, hrepresentation, hintegrality]
  exact ⟨_, rfl, rfl⟩

/-- An unknown representation is refused, whatever the other codes are. -/
theorem judge_of_representation (h : Representation.ofCode? codes.representation = none) :
    codes.judge e =
      .error (.malformed (.badHeader (.integer codes.representation) .representation)) := by
  rw [judge, h]

/-- An unknown integrality class is refused if the representation is not. -/
theorem judge_of_integrality
    (hknown : (Representation.ofCode? codes.representation).isSome = true)
    (h : Integrality.ofLetter? codes.letter = none) :
    codes.judge e =
      .error (.malformed (.badHeader (.text (String.singleton codes.letter)) .integrality)) := by
  rcases Option.isSome_iff_exists.1 hknown with ⟨representation, hrepresentation⟩
  rw [judge, hrepresentation, h]

/-- With known codes in place of its own, the record of a column or a row stands for the same object
with what the codes stand for. -/
theorem grammar_put {o : Object} {bs : List UInt8} {e' : Entity Binary64} (hcodes : codes.Fits)
    (h : Knowledge.grammar bs (.object o)) (hjudge : codes.judge o.header = .ok e') :
    Knowledge.grammar (codes.put bs) (.object (o.setHeader e')) := by
  cases o with
  | column c =>
    rcases h with ⟨front, costs, hheader, heach, hdown, hup, rfl⟩
    rcases put_header hheader with ⟨reals, hreals, hindex, -, hput⟩
    rw [hput, ← List.append_assoc codes.bytes, ← List.append_assoc (Wire.encodeInt _)]
    exact ⟨_, costs, header_put hcodes hindex hreals hjudge, heach, hdown, hup, rfl⟩
  | row r =>
    rcases h with ⟨front, reals, hheader, hlength, hindices, heven, heach, rfl⟩
    rcases put_header hheader with ⟨headerReals, hreals, hindex, -, hput⟩
    rw [hput, ← List.append_assoc codes.bytes, ← List.append_assoc (Wire.encodeInt _)]
    exact ⟨_, reals, header_put hcodes hindex hreals hjudge, hlength, hindices, heven, heach, rfl⟩
  | _ => exact h.elim

/-- The record of a column or a row starts with its header. -/
theorem exists_header {o : Object} {bs : List UInt8} (h : Knowledge.grammar bs (.object o)) :
    ∃ front back, Grammar.header front o.header ∧ bs = front ++ back := by
  cases o with
  | column c =>
    rcases h with ⟨front, _, hheader, -, -, -, rfl⟩
    exact ⟨front, _, hheader, rfl⟩
  | row r =>
    rcases h with ⟨front, _, hheader, -, -, -, -, rfl⟩
    exact ⟨front, _, hheader, rfl⟩
  | _ => exact h.elim

theorem length_put {o : Object} {bs : List UInt8} (h : Knowledge.grammar bs (.object o)) :
    (codes.put bs).length = bs.length := by
  rcases exists_header h with ⟨front, back, hheader, rfl⟩
  rcases put_header hheader with ⟨reals, hreals, -, hlength, hput⟩
  have hreals' : reals.length = 40 := ((Grammar.each_iff fun _ _ => Iff.rfl).1 hreals).1
  simp only [hput, List.length_append, hlength, hreals', length_bytes, Wire.length_encodeInt]
  omega

end Codes

namespace Object

variable {o : Object} {bs rest : List UInt8} {codes : Codes} {b : Buffer}

theorem readable_of_grammar (h : Knowledge.grammar bs (.object o)) : o.kind.Readable := by
  cases o with
  | column c => exact Or.inl rfl
  | row r => exact Or.inr (Or.inl rfl)
  | _ => exact h.elim

/-- What reads a column or a row fails if the reading of its header does. -/
theorem run_decode_of_header_error (h : Knowledge.grammar bs (.object o)) {b' : Buffer} {f : Fault}
    (hread : ∀ start, (Entity.read start).run b = (.error f, b')) :
    o.kind.decode.run b = (.error f, b') := by
  cases o with
  | column c => exact Action.run_bind_of_error (Action.run_bind_of_error (hread _))
  | row r => exact Action.run_bind_of_error (Action.run_bind_of_error (hread _))
  | _ => exact h.elim

/-- A column or a row whose codes were replaced is read to its end with what the codes stand for. -/
theorem run_decode_put (h : Knowledge.grammar bs (.object o)) (hcodes : codes.Fits)
    (hb : b.cursor ≤ b.size) (hnext : b.unread = codes.put bs ++ rest) {e : Entity Binary64}
    (hjudge : codes.judge o.header = .ok e) :
    o.kind.decode.run b = (.ok (.object (o.setHeader e)), b.advance bs.length) := by
  have hread := Codes.grammar_put hcodes h hjudge
  have hkind : (Knowledge.object (o.setHeader e)).kind = o.kind := kind_setHeader e o
  rw [(Kind.reads_decode (readable_of_grammar h)).complete hb hnext ⟨hkind, hread⟩,
    Codes.length_put h]

/-- A column or a row whose codes were replaced by some that are refused is read to their end. -/
theorem run_decode_put_of_refused (h : Knowledge.grammar bs (.object o)) (hcodes : codes.Fits)
    (hb : b.cursor ≤ b.size) (hnext : b.unread = codes.put bs ++ rest) {f : Fault}
    (hjudge : codes.judge o.header = .error f) :
    o.kind.decode.run b = (.error f, b.advance 13) := by
  rcases Codes.exists_header h with ⟨front, back, hheader, rfl⟩
  rcases Codes.put_header hheader with ⟨reals, -, hindex, -, hput⟩
  rw [hput, List.append_assoc, List.append_assoc] at hnext
  exact run_decode_of_header_error h (Entity.run_read_of_refused hcodes hjudge hindex hb hnext)

/-- A column or a row whose codes were replaced is refused for its representation if that is
unknown, and else for its integrality class if that is.  Otherwise it is read, whatever its status
word; its status is that of the flags in this word, and it has the same word exactly if the word has
no other bits. -/
theorem decode_put (h : Knowledge.grammar bs (.object o)) (hcodes : codes.Fits)
    (hb : b.cursor ≤ b.size) (hnext : b.unread = codes.put bs ++ rest) :
    (Representation.ofCode? codes.representation = none →
      o.kind.decode.run b =
        (.error (.malformed (.badHeader (.integer codes.representation) .representation)),
          b.advance 13)) ∧
    ((Representation.ofCode? codes.representation).isSome = true →
      Integrality.ofLetter? codes.letter = none →
      o.kind.decode.run b =
        (.error (.malformed (.badHeader (.text (String.singleton codes.letter)) .integrality)),
          b.advance 13)) ∧
    (codes.Known → ∃ o' : Object, o.kind.decode.run b = (.ok (.object o'), b.advance bs.length) ∧
      o'.header.status = .ofWord codes.status ∧
      (o'.header.status.word = codes.status ↔ Status.Defined codes.status)) := by
  refine ⟨fun hnone => ?_, fun hknown hnone => ?_, fun hknown => ?_⟩
  · exact run_decode_put_of_refused h hcodes hb hnext (Codes.judge_of_representation hnone)
  · exact run_decode_put_of_refused h hcodes hb hnext (Codes.judge_of_integrality hknown hnone)
  · rcases hknown.judge_eq (e := o.header) with ⟨e, hjudge, hstatus⟩
    refine ⟨_, run_decode_put h hcodes hb hnext hjudge, ?_⟩
    rw [header_setHeader, hstatus]
    exact ⟨rfl, Status.word_ofWord_iff hcodes.status⟩

/-- The codes of a continuous row, and a status word with all bits set. -/
def allBits : Codes := ⟨0, 'C', -1⟩

/-- A fresh row is read with all flags from its record with these codes, and its status has another
word. -/
theorem decode_put_allBits :
    ∃ o' : Object, (row Row.initial).kind.decode.run (allBits.sent (.object (row Row.initial))) =
        (.ok (.object o'),
          (allBits.sent (.object (row Row.initial))).advance Row.initial.record.length) ∧
      o'.header.status = ⟨true, true, true⟩ ∧ o'.header.status.word ≠ allBits.status := by
  have hfits : (Knowledge.object (row Row.initial)).Fits := ⟨by decide, by decide, by decide, rfl⟩
  have hcodes : allBits.Fits := ⟨by decide, by decide, by decide⟩
  have hknown : allBits.Known := ⟨by decide, by decide⟩
  rcases (decode_put (Knowledge.grammar_record hfits) hcodes (Nat.zero_le _)
    (allBits.unread_sent _)).2.2 hknown with ⟨o', hrun, hstatus, hword⟩
  exact ⟨o', hrun, by rw [hstatus]; decide, by rw [Ne, hword]; decide⟩

/-- The codes of an integer column, and a status word in which only a bit is set that is no flag. -/
def flagless : Codes := ⟨0, 'I', 2⟩

/-- A fresh column is read unchanged from its record with these codes: without a fault and without
flags. -/
theorem decode_flagless :
    ¬ Status.Defined flagless.status ∧
      ((column Column.initial).kind.decode.run
        (flagless.sent (.object (column Column.initial)))).1 =
          .ok (.object (column Column.initial)) ∧
      (column Column.initial).header.status.word ≠ flagless.status := by
  have hfits : (Knowledge.object (column Column.initial)).Fits :=
    ⟨by decide, by decide, by decide⟩
  have hcodes : flagless.Fits := ⟨by decide, by decide, by decide⟩
  have hjudge : flagless.judge (column Column.initial).header =
      .ok (column Column.initial).header := rfl
  have hrun := run_decode_put (Knowledge.grammar_record hfits) hcodes (Nat.zero_le _)
    (flagless.unread_sent _) hjudge
  rw [setHeader_header] at hrun
  exact ⟨by decide, by rw [hrun], by decide⟩

end Object

end BranchBound
