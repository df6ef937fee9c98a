import BranchBound.Proofs.Datum.Tables
import BranchBound.Proofs.Wire.Record
import BranchBound.Wire.Request

/-!
# Entries of a buffer

Every write leaves one entry in a buffer: an integer, a double, a character, or elements of one
type with or without their number.  The entry tells which bytes were added, which request reads
them, and what that request answers.

A write adds its entry as a whole, or fails and leaves the buffer as it is.  Only integers in a
list of values of any type are taken modulo `2 ^ 32`; all other entries are written unchanged.

Main results:

- Theorem `Buffer.Request.reads`: every read reads a grammar.
- Theorem `Buffer.Entry.run_reader`: the reader of an entry that comes next takes it off.
- Theorem `Buffer.Request.run_write`: a write adds its entry or leaves the buffer as it is.
- Theorem `Buffer.Request.exact_of_item?`: which entries are written unchanged.
-/

namespace BranchBound

namespace Buffer

/-! ## Entries -/

/-- What a write leaves in a buffer.  Elements may be counted, that is, preceded by their
number. -/
inductive Entry where
  | whole (n : Int)
  | real (x : Binary64)
  | char (c : Char)
  | wholes (counted : Bool) (ns : List Int)
  | reals (counted : Bool) (xs : List Binary64)

namespace Entry

/-- The bytes of the number in front of elements that are counted. -/
def count (counted : Bool) (length : Nat) : List UInt8 :=
  if counted then Wire.encodeInt length else []

/-- The bytes of an entry. -/
def bytes : Entry → List UInt8
  | whole n => Wire.encodeInt n
  | real x => Wire.encodeReal x
  | char c => [UInt8.ofNat c.toNat]
  | wholes counted ns => count counted ns.length ++ ns.flatMap Wire.encodeInt
  | reals counted xs => count counted xs.length ++ xs.flatMap Wire.encodeReal

/-- How many bytes an entry takes. -/
def width : Entry → Nat
  | whole _ => 4
  | real _ => 8
  | char _ => 1
  | wholes counted ns => (if counted then 4 else 0) + 4 * ns.length
  | reals counted xs => (if counted then 4 else 0) + 8 * xs.length

/-- Whether a buffer takes an entry: integers and numbers of elements have 32 bits, and
characters are ASCII. -/
def Writable : Entry → Prop
  | whole n => Wire.Fits n
  | real _ => True
  | char c => c.toNat < 128
  | wholes counted ns => counted = true → Wire.Fits ns.length
  | reals counted xs => counted = true → Wire.Fits xs.length

/-- Whether no element of an entry is changed by taking it modulo `2 ^ 32`. -/
def Exact : Entry → Prop
  | wholes _ ns => ∀ n ∈ ns, Wire.Fits n
  | _ => True

/-- The write of an entry. -/
def write : Entry → Action Buffer Unit
  | whole n => writeInt n
  | real x => writeReal x
  | char c => writeChar c
  | wholes true ns => writeWholeArray ns
  | wholes false ns => writeWholes ns
  | reals true xs => writeRealArray xs
  | reals false xs => writeReals xs

/-- The request that reads an entry; elements without their number have to be counted by the
reader. -/
def reader : Entry → Request
  | whole _ => .readInt
  | real _ => .readReal
  | char _ => .readChar
  | wholes true _ => .readArray .whole
  | wholes false ns => .readRaw .whole ns.length
  | reals true _ => .readArray .real
  | reals false xs => .readRaw .real xs.length

/-- The answer to the request that reads an entry. -/
def reply : Entry → Reply
  | whole n => .whole n
  | real x => .real x
  | char c => .char c
  | wholes _ ns => .wholes ns
  | reals _ xs => .reals xs

theorem length_count (counted : Bool) (length : Nat) :
    (count counted length).length = if counted then 4 else 0 := by
  cases counted <;> simp [count]

theorem length_flatMap_of_width {α : Type} {encode : α → List UInt8} {width : Nat}
    (h : ∀ a, (encode a).length = width) (as : List α) :
    (as.flatMap encode).length = width * as.length := by
  induction as with
  | nil => rfl
  | cons a as ih => rw [List.flatMap_cons, List.length_append, ih, h, List.length_cons,
      Nat.mul_succ, Nat.add_comm]

@[simp] theorem length_bytes (e : Entry) : e.bytes.length = e.width := by
  cases e with
  | whole n => exact Wire.length_encodeInt n
  | real x => exact Wire.length_encodeReal x
  | char c => rfl
  | wholes counted ns =>
    rw [bytes, List.length_append, length_count, length_flatMap_of_width Wire.length_encodeInt,
      width]
  | reals counted xs =>
    rw [bytes, List.length_append, length_count, length_flatMap_of_width Wire.length_encodeReal,
      width]

end Entry

/-! ## Readers -/

namespace Request

/-- Whether a request is a read. -/
def IsRead : Request → Prop
  | readInt | readReal | readChar | readRaw _ _ | readArray _ => True
  | writeInt _ | writeReal _ | writeText _ | writeRaw _ _ | writeArray _ _ | writeDatum _
  | rewind => False

/-- Which bytes stand for some elements of a type. -/
def elements (length : Int) : ElementType → Grammar Reply
  | .whole => fun bs reply => ∃ ns, Grammar.int.many length bs ns ∧ reply = .wholes ns
  | .real => fun bs reply => ∃ xs, Grammar.real.many length bs xs ∧ reply = .reals xs

/-- Which bytes stand for the answers to a read. -/
def grammar : Request → Grammar Reply
  | readInt => fun bs reply => ∃ n, Grammar.int bs n ∧ reply = .whole n
  | readReal => fun bs reply => ∃ x, Grammar.real bs x ∧ reply = .real x
  | readChar => fun bs reply => ∃ c, Grammar.char bs c ∧ reply = .char c
  | readRaw type length => elements length type
  | readArray type => Grammar.int.andThen fun length => elements length type
  | writeInt _ | writeReal _ | writeText _ | writeRaw _ _ | writeArray _ _ | writeDatum _
  | rewind => fun _ _ => False

/-- Elements of a type are read into the answer that holds them. -/
theorem reads_elements (length : Int) (type : ElementType) :
    Reads (Buffer.readRaw length type) (elements length type) := by
  cases type with
  | whole => exact (reads_readWholes length).map Reply.wholes
  | real => exact (reads_readReals length).map Reply.reals

/-- Every read reads a grammar. -/
theorem reads {r : Request} (hr : r.IsRead) : Reads r.run r.grammar := by
  cases r with
  | readInt => exact reads_readInt.map Reply.whole
  | readReal => exact reads_readReal.map Reply.real
  | readChar => exact reads_readChar.map Reply.char
  | readRaw type length => exact reads_elements length type
  | readArray type => exact reads_readInt.bind fun length => reads_elements length type
  | _ => exact hr.elim

end Request

theorem Entry.isRead_reader (e : Entry) : e.reader.IsRead := by
  rcases e with _ | _ | _ | ⟨counted, _⟩ | ⟨counted, _⟩
  · trivial
  · trivial
  · trivial
  · cases counted <;> trivial
  · cases counted <;> trivial

/-- The bytes of an entry stand for the answer to its reader. -/
theorem Entry.grammar_reader {e : Entry} (he : e.Writable) (hexact : e.Exact) :
    e.reader.grammar e.bytes e.reply := by
  cases e with
  | whole n => exact ⟨n, ⟨he, rfl⟩, rfl⟩
  | real x => exact ⟨x, Grammar.real_encodeReal x, rfl⟩
  | char c => exact ⟨c, ⟨he, rfl⟩, rfl⟩
  | wholes counted ns =>
    have helements : Request.elements ns.length .whole (ns.flatMap Wire.encodeInt) (.wholes ns) :=
      ⟨ns, ⟨rfl, Grammar.each_int_iff.2 ⟨hexact, rfl⟩⟩, rfl⟩
    cases counted with
    | false => exact helements
    | true => exact ⟨ns.length, _, _, rfl, ⟨he rfl, rfl⟩, helements⟩
  | reals counted xs =>
    have helements : Request.elements xs.length .real (xs.flatMap Wire.encodeReal) (.reals xs) :=
      ⟨xs, ⟨rfl, Grammar.each_real_flatMap xs⟩, rfl⟩
    cases counted with
    | false => exact helements
    | true => exact ⟨xs.length, _, _, rfl, ⟨he rfl, rfl⟩, helements⟩

/-- The reader of an entry that comes next takes it off. -/
theorem Entry.run_reader {e : Entry} (he : e.Writable) (hexact : e.Exact) {b : Buffer}
    (hb : b.cursor ≤ b.size) {rest : List UInt8} (hnext : b.unread = e.bytes ++ rest) :
    e.reader.run.run b = (.ok e.reply, b.advance e.width) := by
  rw [← Entry.length_bytes]
  exact (Request.reads e.isRead_reader).complete hb hnext (grammar_reader he hexact)

/-! ## Writes -/

/-- The buffer with an entry at its end. -/
def put (b : Buffer) (e : Entry) : Buffer := { b with bytes := b.bytes ++ e.bytes }

/-- An entry is written as a whole, or not at all. -/
theorem Entry.run_write (e : Entry) (b : Buffer) :
    e.Writable ∧ e.write.run b = (.ok (), b.put e) ∨
      ¬ e.Writable ∧ ∃ fault, e.write.run b = (.error fault, b) := by
  by_cases he : e.Writable
  · left
    refine ⟨he, ?_⟩
    cases e with
    | whole n => exact run_writeInt_of_fits he b
    | real x => rfl
    | char c => exact Entity.run_writeChar he b
    | wholes counted ns =>
      cases counted with
      | false => rfl
      | true =>
        have hlength : Wire.Fits ns.length := by simpa [Writable] using he
        rw [write, run_writeWholeArray hlength, put, bytes, count, if_pos rfl]
    | reals counted xs =>
      cases counted with
      | false => rfl
      | true =>
        have hlength : Wire.Fits xs.length := by simpa [Writable] using he
        rw [write, run_writeRealArray hlength, put, bytes, count, if_pos rfl]
  · right
    refine ⟨he, ?_⟩
    cases e with
    | whole n => exact ⟨_, run_writeInt_of_not_fits he b⟩
    | real x => simp [Writable] at he
    | char c =>
      simp only [Writable] at he
      exact ⟨.notAscii, by simp [write, writeChar, he]⟩
    | wholes counted ns =>
      cases counted with
      | false => simp [Writable] at he
      | true =>
        have hlength : ¬ Wire.Fits ns.length := by simpa [Writable] using he
        exact ⟨.overflow, by rw [write, run_writeWholeArray_of_not_fits hlength]⟩
    | reals counted xs =>
      cases counted with
      | false => simp [Writable] at he
      | true =>
        have hlength : ¬ Wire.Fits xs.length := by simpa [Writable] using he
        exact ⟨.overflow, by rw [write, run_writeRealArray_of_not_fits hlength]⟩

end Buffer

/-- The entry of a text. -/
def Datum.entryOfText? (s : String) : Option Buffer.Entry :=
  match s.toList with
  | [c] => some (.char c)
  | _ => none

/-- The entry of a table. -/
def Datum.entryOfTable? (d : Datum) : Option Buffer.Entry :=
  match d.contents with
  | .ok (.wholes ns) => some (.wholes true ns)
  | .ok (.reals xs) => some (.reals true xs)
  | .error _ => none

/-- The entry of a value that is written as its type asks for.  An integrality class counts as its
letter, and all other members of enumerations as their numbers. -/
def Datum.item? : Datum → Option Buffer.Entry
  | text s => entryOfText? s
  | member (.integrality i) => some (.char i.letter)
  | member (.role r) => some (.whole r.code)
  | member (.representation r) => some (.whole r.code)
  | member (.status s) => some (.whole s.word)
  | member (.direction d) => some (.whole d.code)
  | flag b => some (.whole (if b then 1 else 0))
  | integer n => some (.whole n)
  | real x => some (.real x)
  | sequence ds => entryOfTable? (.sequence ds)
  | array d => entryOfTable? d
  | nothing | bytes _ | mapping _ => none

namespace Buffer

namespace Request

/-- The entry of a request that is a write. -/
def item? : Request → Option Entry
  | writeInt d => d.toWhole.toOption.map .whole
  | writeReal d => d.toReal.toOption.map .real
  | writeText s => Datum.entryOfText? s
  | writeRaw .whole d => d.wholes.toOption.map (.wholes false)
  | writeRaw .real d => d.reals.toOption.map (.reals false)
  | writeArray .whole d => d.wholes.toOption.map (.wholes true)
  | writeArray .real d => d.reals.toOption.map (.reals true)
  | writeDatum d => d.item?
  | readInt | readReal | readChar | readRaw _ _ | readArray _ | rewind => none

/-- Whether a request is a write. -/
def IsWrite : Request → Prop
  | writeInt _ | writeReal _ | writeText _ | writeRaw _ _ | writeArray _ _ | writeDatum _ => True
  | readInt | readReal | readChar | readRaw _ _ | readArray _ | rewind => False

end Request

/-- A write that is the one of its entry, or fails if it has none. -/
def Enters (x : Action Buffer Unit) (entry : Option Entry) : Prop :=
  match entry with
  | some e => ∀ b, x.run b = e.write.run b
  | none => ∀ b, ∃ fault, x.run b = (.error fault, b)

theorem enters_ofExcept {α : Type} (x : Except Fault α) (f : α → Action Buffer Unit)
    (make : α → Entry) (hf : ∀ a, f a = (make a).write) :
    Enters (.ofExcept x >>= f) (x.toOption.map make) := by
  cases x with
  | error fault =>
    intro b
    exact ⟨fault, rfl⟩
  | ok a =>
    intro b
    rw [← hf]
    rfl

theorem enters_writeText (s : String) : Enters (writeText s) (Datum.entryOfText? s) := by
  unfold writeText Datum.entryOfText?
  rcases s.toList with _ | ⟨c, _ | ⟨c', rest⟩⟩
  · exact fun _ => ⟨_, rfl⟩
  · exact fun _ => rfl
  · exact fun _ => ⟨_, rfl⟩

theorem enters_writeTable (d : Datum) : Enters (writeTable d) (Datum.entryOfTable? d) := by
  unfold writeTable Datum.entryOfTable?
  cases hcontents : d.contents with
  | error fault =>
    intro b
    exact ⟨fault, rfl⟩
  | ok contents =>
    cases contents with
    | wholes ns =>
      intro b
      rw [Action.run_bind_of_ok (Action.run_ofExcept _ b), Entry.write]
    | reals xs =>
      intro b
      rw [Action.run_bind_of_ok (Action.run_ofExcept _ b), Entry.write]

theorem enters_writeDatum (d : Datum) : Enters (writeDatum d) d.item? := by
  cases d with
  | text s => exact enters_writeText s
  | member m =>
    cases m <;> exact fun _ => rfl
  | flag _ | integer _ | real _ => exact fun _ => rfl
  | sequence ds => exact enters_writeTable (.sequence ds)
  | array d => exact enters_writeTable d
  | nothing | bytes _ | mapping _ => exact fun _ => ⟨_, rfl⟩

theorem run_ofExcept_after {α : Type} (x : Except Fault α) (f : α → Action Buffer Unit)
    (b : Buffer) :
    (Action.ofExcept x >>= fun a => Reply.after (f a)).run b =
      (Reply.after (Action.ofExcept x >>= f)).run b := by
  cases x <;> rfl

/-- Every write is the one of its entry. -/
theorem Request.exists_enters {r : Request} (hr : r.IsWrite) :
    ∃ x, Enters x r.item? ∧ ∀ b, r.run.run b = (Reply.after x).run b := by
  cases r with
  | writeInt d =>
    exact ⟨_, enters_ofExcept d.toWhole Buffer.writeInt .whole fun _ => by rw [Entry.write],
      run_ofExcept_after d.toWhole Buffer.writeInt⟩
  | writeReal d =>
    exact ⟨_, enters_ofExcept d.toReal Buffer.writeReal .real fun _ => by rw [Entry.write],
      run_ofExcept_after d.toReal Buffer.writeReal⟩
  | writeText s => exact ⟨_, enters_writeText s, fun _ => rfl⟩
  | writeRaw type d =>
    refine ⟨_, ?_, fun _ => rfl⟩
    cases type with
    | whole =>
      exact enters_ofExcept d.wholes writeWholes (.wholes false) fun _ => by rw [Entry.write]
    | real => exact enters_ofExcept d.reals writeReals (.reals false) fun _ => by rw [Entry.write]
  | writeArray type d =>
    refine ⟨_, ?_, fun _ => rfl⟩
    cases type with
    | whole =>
      exact enters_ofExcept d.wholes writeWholeArray (.wholes true) fun _ => by rw [Entry.write]
    | real =>
      exact enters_ofExcept d.reals writeRealArray (.reals true) fun _ => by rw [Entry.write]
  | writeDatum d => exact ⟨_, enters_writeDatum d, fun _ => rfl⟩
  | readInt | readReal | readChar | readRaw _ _ | readArray _ | rewind => exact hr.elim

theorem Request.isWrite_of_item? {r : Request} {e : Entry} (h : r.item? = some e) :
    r.IsWrite := by
  cases r <;> trivial

/-- An entry that a buffer takes is added by every request that asks for it. -/
theorem Request.run_of_item? {r : Request} {e : Entry} (h : r.item? = some e)
    (he : e.Writable) (b : Buffer) : r.run.run b = (.ok .done, b.put e) := by
  rcases exists_enters (isWrite_of_item? h) with ⟨x, henters, hrun⟩
  rw [h] at henters
  rcases e.run_write b with ⟨-, hok⟩ | ⟨hnot, -⟩
  · rw [hrun, Reply.after, Action.run_bind_of_ok ((henters b).trans hok), Action.run_pure]
  · exact absurd he hnot

/-- Whether a request succeeds in some buffer. -/
def Request.Succeeds (r : Request) : Prop := ∃ b reply b', r.run.run b = (.ok reply, b')

/-- A write adds its entry, or leaves the buffer as it is. -/
theorem Request.run_write {r : Request} (hr : r.IsWrite) (b : Buffer) :
    (∃ e, r.item? = some e ∧ e.Writable ∧ r.run.run b = (.ok .done, b.put e)) ∨
      ∃ fault, r.run.run b = (.error fault, b) := by
  rcases exists_enters hr with ⟨x, henters, hrun⟩
  cases hentry : r.item? with
  | none =>
    rw [hentry] at henters
    rcases henters b with ⟨fault, hfault⟩
    exact Or.inr ⟨fault, by rw [hrun, Reply.after, Action.run_bind_of_error hfault]⟩
  | some e =>
    rcases e.run_write b with ⟨he, -⟩ | ⟨-, fault, hfault⟩
    · exact Or.inl ⟨e, rfl, he, run_of_item? hentry he b⟩
    · rw [hentry] at henters
      have hfail := (henters b).trans hfault
      exact Or.inr ⟨fault, by rw [hrun, Reply.after, Action.run_bind_of_error hfail]⟩

theorem Request.writable_of_succeeds {r : Request} {e : Entry} (h : r.item? = some e)
    (hr : r.Succeeds) : e.Writable := by
  rcases hr with ⟨b, reply, b', hrun⟩
  rcases run_write (isWrite_of_item? h) b with ⟨e', he', hwritable, -⟩ | ⟨fault, hfault⟩
  · have heq : e = e' := Option.some.inj (h.symm.trans he')
    rwa [heq]
  · rw [hfault] at hrun
    cases hrun

/-! ## Which entries are exact -/

theorem exists_of_toOption_map {α β : Type} {x : Except Fault α} {make : α → β} {b : β}
    (h : x.toOption.map make = some b) : ∃ a, x = .ok a ∧ make a = b := by
  cases x with
  | error fault => cases h
  | ok a => exact ⟨a, rfl, Option.some.inj h⟩

/-- Only a value that is written as its type asks for may be changed. -/
theorem Request.exact_of_item? {r : Request} {e : Entry} (h : r.item? = some e)
    (hr : ∀ d, r ≠ .writeDatum d) : e.Exact := by
  cases r with
  | writeInt d =>
    rcases exists_of_toOption_map h with ⟨n, -, rfl⟩
    trivial
  | writeReal d =>
    rcases exists_of_toOption_map h with ⟨x, -, rfl⟩
    trivial
  | writeText s =>
    have htext : Datum.entryOfText? s = some e := h
    unfold Datum.entryOfText? at htext
    split at htext
    · cases htext
      trivial
    · cases htext
  | writeRaw type d =>
    cases type with
    | whole =>
      rcases exists_of_toOption_map h with ⟨ns, hns, rfl⟩
      exact Datum.fits_of_wholes hns
    | real =>
      rcases exists_of_toOption_map h with ⟨xs, -, rfl⟩
      trivial
  | writeArray type d =>
    cases type with
    | whole =>
      rcases exists_of_toOption_map h with ⟨ns, hns, rfl⟩
      exact Datum.fits_of_wholes hns
    | real =>
      rcases exists_of_toOption_map h with ⟨xs, -, rfl⟩
      trivial
  | writeDatum d => exact absurd rfl (hr d)
  | readInt | readReal | readChar | readRaw _ _ | readArray _ | rewind => cases h

end Buffer

end BranchBound
