import BranchBound.Proofs.Wire.Entry
import Mathlib.Algebra.GroupWithZero.Nat

/-!
# A buffer as a queue

What was written to a buffer and has not been read yet waits in it as a queue of entries, of
different types and widths.  A write adds its entry at the end, a reader of the right type takes
the first entry off, and the bytes of the entries taken before stay where they are, so that
everything can be read once more.

Main results:

- Theorem `Buffer.item?_of_leaves`: the entries of values that stand for themselves.
- Theorem `Buffer.Holds.take`: the first entry is taken by its reader.
- Theorem `Buffer.Holds.run_turns`: writes and reads in step leave the entries not yet taken.
- Theorem `Buffer.typed_queue`: a buffer is a faithful queue over every run of writes and reads.
-/

namespace BranchBound

namespace Buffer

/-! ## Queues of entries -/

/-- A buffer that holds entries, some of which have been taken. -/
structure Holds (b : Buffer) (taken pending : List Entry) : Prop where
  /-- The bytes are those of the entries. -/
  bytes : b.bytes = taken.flatMap Entry.bytes ++ pending.flatMap Entry.bytes
  /-- The cursor is behind the entries that were taken. -/
  cursor : b.cursor = (taken.flatMap Entry.bytes).length
  /-- The buffer took every entry. -/
  writable : ∀ e ∈ taken ++ pending, e.Writable
  /-- No entry was changed. -/
  exact : ∀ e ∈ taken ++ pending, e.Exact

namespace Holds

variable {b : Buffer} {taken pending : List Entry}

theorem empty (tag : String) : Holds { tag } [] [] := by
  constructor <;> simp

theorem unread_eq (h : Holds b taken pending) : b.unread = pending.flatMap Entry.bytes := by
  rw [unread, h.bytes, h.cursor, List.drop_left]

theorem cursor_le (h : Holds b taken pending) : b.cursor ≤ b.size := by
  rw [size, h.bytes, h.cursor, List.length_append]
  omega

/-- What remains is the total width of the entries not taken. -/
theorem remaining_eq (h : Holds b taken pending) :
    b.remaining = (pending.map Entry.width).sum := by
  rw [← length_unread, h.unread_eq, List.length_flatMap]
  simp

theorem put (h : Holds b taken pending) {e : Entry} (he : e.Writable) (hexact : e.Exact) :
    Holds (b.put e) taken (pending ++ [e]) where
  bytes := by simp [Buffer.put, h.bytes]
  cursor := h.cursor
  writable := by
    have hall := h.writable
    simp only [List.mem_append, List.mem_singleton] at hall ⊢
    grind
  exact := by
    have hall := h.exact
    simp only [List.mem_append, List.mem_singleton] at hall ⊢
    grind

/-- The first entry is taken by its reader. -/
theorem take {e : Entry} (h : Holds b taken (e :: pending)) :
    e.reader.run.run b = (.ok e.reply, b.advance e.width) ∧
      Holds (b.advance e.width) (taken ++ [e]) pending := by
  have hmem : e ∈ taken ++ e :: pending := by simp
  constructor
  · exact e.run_reader (h.writable e hmem) (h.exact e hmem) h.cursor_le h.unread_eq
  · constructor
    · simp [advance, h.bytes]
    · simp [advance, h.cursor]
    · simpa using h.writable
    · simpa using h.exact

/-- After a return to the first byte no entry is taken. -/
theorem rewind (h : Holds b taken pending) :
    Holds { b with cursor := 0 } [] (taken ++ pending) where
  bytes := by simp [h.bytes]
  cursor := rfl
  writable := h.writable
  exact := h.exact

end Holds

end Buffer

/-! ## Values that stand for themselves -/

/-- Which entry is left by a value that is written as its type asks for. -/
inductive Datum.Leaves : Datum → Buffer.Entry → Prop where
  | integer (n : Int) : Leaves (.integer n) (.whole n)
  | flag (b : Bool) : Leaves (.flag b) (.whole (if b then 1 else 0))
  | real (x : Binary64) : Leaves (.real x) (.real x)
  | text (c : Char) : Leaves (.text (String.singleton c)) (.char c)
  | integrality (i : Integrality) : Leaves (.member (.integrality i)) (.char i.letter)
  | role (r : Role) : Leaves (.member (.role r)) (.whole r.code)
  | representation (r : Representation) : Leaves (.member (.representation r)) (.whole r.code)
  | status (s : Status) : Leaves (.member (.status s)) (.whole s.word)
  | direction (d : Direction) : Leaves (.member (.direction d)) (.whole d.code)
  | wholes {ns : List Int} {d : Datum} (h : Lists (ns.map .integer) d) (hne : ns ≠ [])
      (hns : ∀ n ∈ ns, Wire.Fits n) : Leaves d (.wholes true ns)
  | reals {xs : List Binary64} {d : Datum} (h : Lists (xs.map .real) d) :
      Leaves d (.reals true xs)

namespace Buffer

/-- Which entry is left by the write of a value that stands for itself. -/
inductive Request.Leaves : Request → Entry → Prop where
  | int (n : Int) : Leaves (.writeInt (.integer n)) (.whole n)
  | real (x : Binary64) : Leaves (.writeReal (.real x)) (.real x)
  | text (c : Char) : Leaves (.writeText (String.singleton c)) (.char c)
  | rawWholes {ns : List Int} {d : Datum} (h : Datum.Lists (ns.map .integer) d)
      (hns : ∀ n ∈ ns, Wire.Fits n) : Leaves (.writeRaw .whole d) (.wholes false ns)
  | rawReals {xs : List Binary64} {d : Datum} (h : Datum.Lists (xs.map .real) d) :
      Leaves (.writeRaw .real d) (.reals false xs)
  | wholes {ns : List Int} {d : Datum} (h : Datum.Lists (ns.map .integer) d)
      (hns : ∀ n ∈ ns, Wire.Fits n) : Leaves (.writeArray .whole d) (.wholes true ns)
  | reals {xs : List Binary64} {d : Datum} (h : Datum.Lists (xs.map .real) d) :
      Leaves (.writeArray .real d) (.reals true xs)
  | datum {d : Datum} {e : Entry} (h : d.Leaves e) : Leaves (.writeDatum d) e

theorem entryOfText?_singleton (c : Char) :
    Datum.entryOfText? (String.singleton c) = some (.char c) := by
  rw [Datum.entryOfText?, String.toList_singleton]

/-- An array is written as the table that its list is. -/
theorem item?_of_lists {ds : List Datum} {d : Datum} (h : Datum.Lists ds d) :
    d.item? = (Datum.sequence ds).entryOfTable? := by
  cases h <;> rfl

theorem datumItem?_of_leaves {d : Datum} {e : Entry} (h : d.Leaves e) : d.item? = some e := by
  cases h with
  | text c => exact entryOfText?_singleton c
  | wholes h hne hns =>
    rw [item?_of_lists h, Datum.entryOfTable?, Datum.Lists.contents_wholes .sequence hne hns]
  | reals h => rw [item?_of_lists h, Datum.entryOfTable?, Datum.Lists.contents_reals .sequence]
  | integer | flag | real | integrality | role | representation | status | direction => rfl

/-- The entry of a value that stands for itself is its own. -/
theorem item?_of_leaves {r : Request} {e : Entry} (h : r.Leaves e) : r.item? = some e := by
  cases h with
  | int n => rw [Request.item?, Datum.toWhole_integer]; rfl
  | real x => rw [Request.item?, Datum.toReal_real]; rfl
  | text c => exact entryOfText?_singleton c
  | rawWholes h hns => rw [Request.item?, h.wholes hns]; rfl
  | rawReals h => rw [Request.item?, h.reals]; rfl
  | wholes h hns => rw [Request.item?, h.wholes hns]; rfl
  | reals h => rw [Request.item?, h.reals]; rfl
  | datum h => exact datumItem?_of_leaves h

/-- The entry of a value that stands for itself is exact. -/
theorem exact_of_leaves {r : Request} {e : Entry} (h : r.Leaves e) : e.Exact := by
  cases h with
  | rawWholes _ hns | wholes _ hns => exact hns
  | datum h =>
    cases h with
    | wholes _ _ hns => exact hns
    | _ => trivial
  | _ => trivial

/-! ## Runs of writes and reads -/

/-- What a buffer answers to requests, one after the other, and the buffer after them. -/
def answers : List Request → Buffer → List (Except Fault Reply) × Buffer
  | [], b => ([], b)
  | r :: rs, b =>
    let (answer, b) := r.run.run b
    let (rest, b) := answers rs b
    (answer :: rest, b)

theorem answers_cons {r : Request} {rs : List Request} {b b' b'' : Buffer}
    {answer : Except Fault Reply} {rest : List (Except Fault Reply)}
    (hfirst : r.run.run b = (answer, b')) (hrest : answers rs b' = (rest, b'')) :
    answers (r :: rs) b = (answer :: rest, b'') := by
  simp only [answers, hfirst, hrest]

/-- One turn of a run: a write, with the entry that it adds, or the read of an entry. -/
inductive Turn where
  | write (r : Request) (e : Entry)
  | read (e : Entry)

namespace Turn

/-- What is asked in a turn. -/
def request : Turn → Request
  | write r _ => r
  | read e => e.reader

/-- What a queue answers in a turn. -/
def reply : Turn → Reply
  | write _ _ => .done
  | read e => e.reply

/-- Whether a write succeeds, and adds the entry that it is said to add without changing it. -/
def Sound : Turn → Prop
  | write r e => r.Succeeds ∧ r.item? = some e ∧ e.Exact
  | read _ => True

end Turn

theorem Turn.sound_of_leaves {r : Request} {e : Entry} (h : r.Leaves e) (he : e.Writable) :
    (Turn.write r e).Sound :=
  ⟨⟨{}, .done, _, Request.run_of_item? (item?_of_leaves h) he {}⟩, item?_of_leaves h,
    exact_of_leaves h⟩

/-- The entries that are written in a run, in order. -/
def written : List Turn → List Entry
  | [] => []
  | .write _ e :: turns => e :: written turns
  | .read _ :: turns => written turns

/-- The entries that are read in a run, in order. -/
def consumed : List Turn → List Entry
  | [] => []
  | .write _ _ :: turns => consumed turns
  | .read e :: turns => e :: consumed turns

/-- Whether every read in a run is that of the next entry not read yet, where some entries are
waiting from before. -/
def InStep (pending : List Entry) (turns : List Turn) : Prop :=
  ∀ front, front <+: turns → consumed front <+: pending ++ written front

theorem inStep_nil (pending : List Entry) : InStep pending [] := by
  intro front hfront
  rw [List.prefix_nil.1 hfront]
  exact List.nil_prefix

theorem inStep_write_iff {pending : List Entry} {r : Request} {e : Entry} {turns : List Turn} :
    InStep pending (.write r e :: turns) ↔ InStep (pending ++ [e]) turns := by
  constructor
  · intro h front hfront
    have hstep := h (.write r e :: front) ((List.prefix_cons_inj _).2 hfront)
    rw [List.append_assoc]
    exact hstep
  · intro h front hfront
    rcases List.prefix_cons_iff.1 hfront with rfl | ⟨front', rfl, hfront'⟩
    · exact List.nil_prefix
    · have hstep := h front' hfront'
      rw [List.append_assoc] at hstep
      exact hstep

theorem inStep_read_iff {pending : List Entry} {e : Entry} {turns : List Turn} :
    InStep pending (.read e :: turns) ↔ ∃ rest, pending = e :: rest ∧ InStep rest turns := by
  constructor
  · intro h
    have hfirst := h [.read e] (by simp)
    cases pending with
    | nil => simp [consumed, written] at hfirst
    | cons e' rest =>
      have heq : e = e' := by simpa [consumed, written] using hfirst
      subst heq
      refine ⟨rest, rfl, ?_⟩
      intro front hfront
      have hstep := h (.read e :: front) ((List.prefix_cons_inj _).2 hfront)
      simpa [consumed, written] using hstep
  · rintro ⟨rest, rfl, h⟩ front hfront
    rcases List.prefix_cons_iff.1 hfront with rfl | ⟨front', rfl, hfront'⟩
    · exact List.nil_prefix
    · simpa [consumed, written] using h front' hfront'

/-- Along a run in step every answer is that of a queue, and the buffer holds what was written. -/
theorem Holds.run_turns {turns : List Turn} {b : Buffer} {taken pending : List Entry}
    (h : Holds b taken pending) (hsound : ∀ t ∈ turns, t.Sound) (hstep : InStep pending turns) :
    ∃ b' rest, answers (turns.map Turn.request) b = (turns.map fun t => .ok t.reply, b') ∧
      pending ++ written turns = consumed turns ++ rest ∧
      Holds b' (taken ++ consumed turns) rest := by
  induction turns generalizing b taken pending with
  | nil =>
    refine ⟨b, pending, rfl, ?_, ?_⟩
    · simp [written, consumed]
    · simpa [consumed] using h
  | cons t turns ih =>
    rw [List.forall_mem_cons] at hsound
    cases t with
    | write r e =>
      rcases hsound.1 with ⟨hr, hentry, hexact⟩
      have he := Request.writable_of_succeeds hentry hr
      have hrun := Request.run_of_item? hentry he b
      rcases ih (h.put he hexact) hsound.2 (inStep_write_iff.1 hstep) with
        ⟨b', rest, hrest, horder, hheld⟩
      refine ⟨b', rest, answers_cons hrun hrest, ?_, hheld⟩
      rw [List.append_assoc] at horder
      exact horder
    | read e =>
      rcases inStep_read_iff.1 hstep with ⟨waiting, rfl, hnext⟩
      rcases h.take with ⟨hrun, htaken⟩
      rcases ih htaken hsound.2 hnext with ⟨b', rest, hrest, horder, hheld⟩
      refine ⟨b', rest, answers_cons hrun hrest, ?_, ?_⟩
      · simpa [written, consumed] using horder
      · simpa [consumed] using hheld

/-- The readers of all entries that wait take them all. -/
theorem Holds.run_readers {b : Buffer} {taken pending : List Entry}
    (h : Holds b taken pending) :
    ∃ b', answers (pending.map Entry.reader) b = (pending.map fun e => .ok e.reply, b') ∧
      Holds b' (taken ++ pending) [] := by
  induction pending generalizing b taken with
  | nil => exact ⟨b, rfl, by simpa using h⟩
  | cons e pending ih =>
    rcases h.take with ⟨hrun, htaken⟩
    rcases ih htaken with ⟨b', hrest, hheld⟩
    refine ⟨b', answers_cons hrun hrest, ?_⟩
    simpa using hheld

/-! ## The queue -/

/-- What holds of every write in every buffer. -/
structure WriteLaws : Prop where
  /-- A write adds an entry at the end, or leaves the buffer as it is. -/
  run : ∀ r : Request, r.IsWrite → ∀ b,
    (∃ e, r.item? = some e ∧ r.run.run b = (.ok .done, { b with bytes := b.bytes ++ e.bytes })) ∨
      ∃ fault, r.run.run b = (.error fault, b)
  /-- Only a value that is written as its type asks for may be changed. -/
  exact : ∀ (r : Request) (e : Entry), r.item? = some e → (∀ d, r ≠ .writeDatum d) → e.Exact
  /-- A value that stands for itself adds its own entry, and is not changed. -/
  leaves : ∀ (r : Request) (e : Entry), r.Leaves e → r.item? = some e ∧ e.Exact ∧
    (e.Writable → ∀ b, r.run.run b = (.ok .done, { b with bytes := b.bytes ++ e.bytes }))

theorem writeLaws : WriteLaws where
  run := by
    intro r hr b
    rcases Request.run_write hr b with ⟨e, hentry, -, hrun⟩ | hfail
    · exact Or.inl ⟨e, hentry, hrun⟩
    · exact Or.inr hfail
  exact := fun r e h hr => Request.exact_of_item? h hr
  leaves := by
    intro r e h
    have hitem := item?_of_leaves h
    exact ⟨hitem, exact_of_leaves h, fun he b => Request.run_of_item? hitem he b⟩

/-- Over a run of writes that succeed and of reads in step with them, a buffer that starts empty
is a queue: no read fails, every read gives the entry that is due, what remains are the entries
not read yet, and all of them can be read again. -/
theorem typed_queue (tag : String) {turns : List Turn} (hsound : ∀ t ∈ turns, t.Sound)
    (hstep : InStep [] turns) :
    WriteLaws ∧ ∃ b pending,
      answers (turns.map Turn.request) { tag } = (turns.map fun t => .ok t.reply, b) ∧
        written turns = consumed turns ++ pending ∧
        b.remaining = (pending.map Entry.width).sum ∧
        (answers (.rewind :: (written turns).map Entry.reader) b).1 =
          .ok .done :: (written turns).map fun e => .ok e.reply := by
  rcases (Holds.empty tag).run_turns hsound hstep with ⟨b, pending, hrun, horder, hheld⟩
  rw [List.nil_append] at horder hheld
  refine ⟨writeLaws, b, pending, hrun, horder, hheld.remaining_eq, ?_⟩
  have hrewound := hheld.rewind
  rw [← horder] at hrewound
  rcases hrewound.run_readers with ⟨b', hagain, -⟩
  rw [answers_cons (Request.run_rewind b) hagain]

/-- A run that writes a letter, doubles without their number, the array of two integers, a flag and
a list of one double, and reads the first three. -/
def mixedRun : List Turn :=
  [.write (.writeDatum (.member (.integrality .integer))) (.char 'I'),
    .write (.writeRaw .real (.sequence [.real 0.5, .real (-0.0)])) (.reals false [0.5, -0.0]),
    .read (.char 'I'),
    .write (.writeArray .whole (.array (.sequence [.integer 1, .integer (-2)])))
      (.wholes true [1, -2]),
    .read (.reals false [0.5, -0.0]),
    .write (.writeDatum (.flag true)) (.whole 1),
    .write (.writeDatum (.sequence [.real 2.5])) (.reals true [2.5]),
    .read (.wholes true [1, -2])]

/-- In the mixed run the flag and the last double are left. -/
theorem typed_queue_mixedRun :
    ∃ b, answers (mixedRun.map Turn.request) { tag := "Row" } =
        ([.ok .done, .ok .done, .ok (.char 'I'), .ok .done, .ok (.reals [0.5, -0.0]), .ok .done,
          .ok .done, .ok (.wholes [1, -2])], b) ∧
      b.remaining = 16 ∧
      (answers [.rewind, .readChar, .readRaw .real 2, .readArray .whole, .readInt,
          .readArray .real] b).1 =
        [.ok .done, .ok (.char 'I'), .ok (.reals [0.5, -0.0]), .ok (.wholes [1, -2]),
          .ok (.whole 1), .ok (.reals [2.5])] := by
  have hpair : ∀ n ∈ [1, (-2 : Int)], Wire.Fits n := by decide
  have hletter : 'I'.toNat < 128 := by decide
  have hsound : ∀ t ∈ mixedRun, t.Sound := by
    simp only [mixedRun, List.forall_mem_cons]
    refine ⟨Turn.sound_of_leaves (.datum (.integrality .integer)) hletter,
      Turn.sound_of_leaves (.rawReals .sequence) nofun, trivial,
      Turn.sound_of_leaves (.wholes .array hpair) fun _ => by decide, trivial,
      Turn.sound_of_leaves (.datum (.flag true)) (by decide : Wire.Fits 1),
      Turn.sound_of_leaves (.datum (.reals .sequence)) fun _ => by decide, trivial, by simp⟩
  have hstep : InStep [] mixedRun := by
    simp [mixedRun, inStep_write_iff, inStep_read_iff, inStep_nil]
  rcases typed_queue "Row" hsound hstep with ⟨-, b, pending, hrun, horder, hremaining, hagain⟩
  have horder : consumed mixedRun ++ [.whole 1, .reals true [2.5]] =
      consumed mixedRun ++ pending := horder
  have hpending := List.append_cancel_left horder
  refine ⟨b, hrun, ?_, hagain⟩
  rw [hremaining, ← hpending]
  rfl

end Buffer

end BranchBound
