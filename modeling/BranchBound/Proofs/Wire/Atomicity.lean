import BranchBound.Proofs.Column.Learning
import BranchBound.Proofs.Wire.RoundTrip
import BranchBound.Proofs.Wire.Wrapping
import Mathlib.Data.List.TakeWhile

/-!
# Encodings that fail on their way

A record is written piece by piece, and a piece with an integer of more than 32 bits is refused.
The pieces before it stay in the buffer.  A refused first piece thus leaves the buffer as it was; a
later one leaves the beginning of a record there, and whatever is written next is read from the
wrong place.

A solution is one piece that can be refused.  A row has as many coefficients as indices, so that
after its header only too many of them are refused.  A column has its two numbers of branchings at
the end of its record, and they may outgrow 32 bits by reports.

Main results:

- Theorem `Buffer.run_writePieces`: what is written of a list of pieces.
- Theorem `Knowledge.run_encode_eq`: what an encoding adds, whether or not it succeeds.
- Theorem `Knowledge.Reachable.sound`: what holds for everything that can be made.
- Theorem `Knowledge.attempts_allOrNothing`: which encodings are all or nothing, and how records are
  read back after a run of them.
-/

namespace BranchBound

/-! ## Pieces -/

/-- A piece of a record, which may have to be refused. -/
structure Piece where
  /-- The bytes of the piece. -/
  bytes : List UInt8
  /-- Whether the integers in it that are checked have 32 bits. -/
  fits : Bool
  /-- There is no empty piece. -/
  ne_nil : bytes ≠ []

namespace Piece

/-- What is written of a list of pieces: those before the first that is refused. -/
def written (ps : List Piece) : List UInt8 := (ps.takeWhile fits).flatMap bytes

/-- All bytes of a list of pieces. -/
def all (ps : List Piece) : List UInt8 := ps.flatMap bytes

/-- Whether no piece is refused. -/
def Complete (ps : List Piece) : Prop := ∀ p ∈ ps, p.fits = true

/-- Whether no piece but the first is refused where the first is not. -/
def Atomic (ps : List Piece) : Prop := (∀ p ∈ ps.head?, p.fits = true) → Complete ps

instance (ps : List Piece) : Decidable (Complete ps) := inferInstanceAs (Decidable (∀ p ∈ ps, _))

variable {ps : List Piece}

theorem written_of_complete (h : Complete ps) : written ps = all ps := by
  rw [written, List.takeWhile_eq_self_iff.2 h, all]

/-- If some piece is refused, all that is written and something more makes up all bytes. -/
theorem exists_missing (h : ¬ Complete ps) : ∃ missing, missing ≠ [] ∧
    all ps = written ps ++ missing := by
  refine ⟨(ps.dropWhile fits).flatMap bytes, ?_, ?_⟩
  · intro hnil
    apply h
    rw [List.flatMap_eq_nil_iff] at hnil
    have hdrop : ps.dropWhile fits = [] :=
      List.eq_nil_iff_forall_not_mem.2 fun p hp => p.ne_nil (hnil p hp)
    exact List.dropWhile_eq_nil_iff.1 hdrop
  · rw [written, all, ← List.flatMap_append, List.takeWhile_append_dropWhile]

theorem atomic_cons_iff {p : Piece} : Atomic (p :: ps) ↔ (p.fits = true → Complete (p :: ps)) := by
  simp [Atomic]

/-- Of pieces some of which are refused nothing is written exactly if the first one is. -/
theorem written_eq_nil_iff (h : ¬ Complete ps) : written ps = [] ↔ Atomic ps := by
  cases ps with
  | nil => exact absurd (fun p hp => absurd hp (List.not_mem_nil)) h
  | cons p ps =>
    rw [atomic_cons_iff, written]
    cases hfits : p.fits with
    | false => simp [hfits]
    | true => simp [hfits, p.ne_nil, h]

end Piece

namespace Buffer

/-- Writes a piece unless it is refused. -/
def writePiece (p : Piece) : Action Buffer Unit :=
  if p.fits then .update fun b => { b with bytes := b.bytes ++ p.bytes } else .fail .overflow

/-- Writes pieces one after the other. -/
def writePieces : List Piece → Action Buffer Unit
  | [] => return
  | p :: ps => do
    writePiece p
    writePieces ps

theorem run_writePiece_of_fits {p : Piece} (h : p.fits = true) (b : Buffer) :
    (writePiece p).run b = (.ok (), { b with bytes := b.bytes ++ p.bytes }) := by
  rw [writePiece, if_pos h]
  rfl

theorem run_writePiece_of_not_fits {p : Piece} (h : p.fits ≠ true) (b : Buffer) :
    (writePiece p).run b = (.error .overflow, b) := by
  rw [writePiece, if_neg h]
  rfl

/-- The pieces before the first one that is refused are written. -/
theorem run_writePieces (ps : List Piece) (b : Buffer) :
    (writePieces ps).run b =
      (if Piece.Complete ps then .ok () else .error .overflow,
        { b with bytes := b.bytes ++ Piece.written ps }) := by
  induction ps generalizing b with
  | nil => simp [writePieces, Piece.Complete, Piece.written]
  | cons p ps ih =>
    have hcomplete : Piece.Complete (p :: ps) ↔ p.fits = true ∧ Piece.Complete ps :=
      List.forall_mem_cons
    by_cases hp : p.fits = true
    · rw [writePieces, Action.run_bind_of_ok (run_writePiece_of_fits hp b), ih]
      simp only [hcomplete, hp, true_and, Piece.written, List.takeWhile_cons_of_pos,
        List.flatMap_cons, List.append_assoc]
    · rw [writePieces, Action.run_bind_of_error (run_writePiece_of_not_fits hp b)]
      simp [hcomplete, hp, Piece.written]

end Buffer

/-! ## The pieces of a record -/

theorem Entity.headerBytes_ne_nil (e : Entity Binary64) : e.headerBytes ≠ [] := by
  intro hnil
  have hlength := congrArg List.length hnil
  simp only [headerBytes, List.length_append, e.length_headerCodes, List.length_nil] at hlength
  omega

theorem Wire.encodeInt_append_ne_nil (n : Int) (bs : List UInt8) : encodeInt n ++ bs ≠ [] := by
  intro hnil
  have hlength := congrArg List.length hnil
  simp only [List.length_append, length_encodeInt, List.length_nil] at hlength
  omega

namespace Piece

/-- A header, which has an index. -/
def header (e : Entity Binary64) : Piece :=
  ⟨e.headerBytes, decide (Wire.Fits e.index), e.headerBytes_ne_nil⟩

/-- An integer and something after it that is never refused. -/
def counted (n : Int) (bs : List UInt8) : Piece :=
  ⟨Wire.encodeInt n ++ bs, decide (Wire.Fits n), Wire.encodeInt_append_ne_nil n bs⟩

/-- The two averages of a column. -/
def averages (c : Column Binary64) : Piece :=
  ⟨c.averages.flatMap Wire.encodeReal, true, by
    intro hnil
    have hlength := congrArg List.length hnil
    simp [Column.averages] at hlength⟩

end Piece

namespace Buffer

/-- What adds the bytes of a piece if that fits, and is refused if not, writes the piece. -/
theorem run_eq_writePiece {p : Piece} {x : Action Buffer Unit} {b : Buffer}
    (hok : p.fits = true → x.run b = (.ok (), { b with bytes := b.bytes ++ p.bytes }))
    (herror : p.fits ≠ true → x.run b = (.error .overflow, b)) :
    x.run b = (writePiece p).run b := by
  by_cases h : p.fits = true
  · rw [hok h, run_writePiece_of_fits h]
  · rw [herror h, run_writePiece_of_not_fits h]

theorem run_writeHeader_eq (e : Entity Binary64) (b : Buffer) :
    e.writeHeader.run b = (writePiece (.header e)).run b :=
  run_eq_writePiece (fun h => Entity.run_writeHeader (of_decide_eq_true h) b)
    fun h => Entity.run_writeHeader_of_not_fits (by simpa [Piece.header] using h) b

/-- An integer with something after it is written if the integer is. -/
theorem run_counted {n : Int} {bs : List UInt8} {x : Action Buffer Unit}
    (hok : Wire.Fits n → ∀ b,
      x.run b = (.ok (), { b with bytes := b.bytes ++ (Wire.encodeInt n ++ bs) }))
    (herror : ¬ Wire.Fits n → ∀ b, x.run b = (.error .overflow, b)) (b : Buffer) :
    x.run b = (writePiece (.counted n bs)).run b :=
  run_eq_writePiece (fun h => hok (of_decide_eq_true h) b)
    fun h => herror (by simpa [Piece.counted] using h) b

theorem run_writeInt_eq (n : Int) (b : Buffer) :
    (writeInt n).run b = (writePiece (.counted n [])).run b := by
  refine run_counted (fun h b => ?_) run_writeInt_of_not_fits b
  rw [run_writeInt_of_fits h, List.append_nil]

theorem run_writeWholeArray_eq (ns : List Int) (b : Buffer) :
    (writeWholeArray ns).run b =
      (writePiece (.counted ns.length (ns.flatMap Wire.encodeInt))).run b :=
  run_counted run_writeWholeArray run_writeWholeArray_of_not_fits b

theorem run_writeRealArray_eq (xs : List Binary64) (b : Buffer) :
    (writeRealArray xs).run b =
      (writePiece (.counted xs.length (xs.flatMap Wire.encodeReal))).run b :=
  run_counted run_writeRealArray run_writeRealArray_of_not_fits b

theorem run_writePieces_singleton (p : Piece) (b : Buffer) :
    (writePieces [p]).run b = (writePiece p).run b := by
  rw [writePieces, writePieces, Action.run_bind]
  rcases (writePiece p).run b with ⟨_ | _, b'⟩ <;> rfl

end Buffer

/-- Actions that do the same, followed by actions that do the same. -/
theorem Action.run_bind_congr {σ α β : Type} {x y : Action σ α} {f g : α → Action σ β} {s : σ}
    (hx : x.run s = y.run s) (hf : ∀ a s', (f a).run s' = (g a).run s') :
    (x >>= f).run s = (y >>= g).run s := by
  rw [run_bind, run_bind, hx]
  rcases y.run s with ⟨_ | a, s'⟩
  · rfl
  · exact hf a s'

namespace Column

/-- The pieces of the record of a column. -/
def pieces (c : Column Binary64) : List Piece :=
  [.header c.toEntity, .averages c, .counted c.costs.down.count [], .counted c.costs.up.count []]

theorem run_encode_pieces (c : Column Binary64) (b : Buffer) :
    c.encode.run b = (Buffer.writePieces c.pieces).run b := by
  rw [encode, pieces, Buffer.writePieces]
  refine Action.run_bind_congr (Buffer.run_writeHeader_eq _ b) fun _ b => ?_
  rw [Action.run_bind_of_ok (Buffer.run_writeReal _ b), Action.run_bind_of_ok
    (Buffer.run_writeReal _ _), Buffer.writePieces, Action.run_bind_of_ok
    (Buffer.run_writePiece_of_fits (p := .averages c) rfl b)]
  simp only [Piece.averages, averages, List.flatMap_cons, List.flatMap_nil, List.append_nil,
    List.append_assoc]
  refine Action.run_bind_congr (Buffer.run_writeInt_eq _ _) fun _ b => ?_
  rw [Buffer.run_writePieces_singleton, Buffer.run_writeInt_eq]

theorem complete_pieces_iff {c : Column Binary64} : Piece.Complete c.pieces ↔ c.Fits := by
  simp only [Piece.Complete, pieces, Piece.header, Piece.averages, Piece.counted,
    List.forall_mem_cons, decide_eq_true_eq]
  constructor
  · rintro ⟨hindex, -, hdown, hup, -⟩
    exact ⟨hindex, hdown, hup⟩
  · rintro ⟨hindex, hdown, hup⟩
    exact ⟨hindex, trivial, hdown, hup, List.forall_mem_nil _⟩

theorem all_pieces (c : Column Binary64) : Piece.all c.pieces = c.record := by
  simp [Piece.all, pieces, Piece.header, Piece.averages, Piece.counted, record, countBytes]

/-- If the first number of a column is refused, its header and its averages are written. -/
theorem written_of_down {c : Column Binary64} (hindex : Wire.Fits c.index)
    (hdown : ¬ Wire.Fits c.costs.down.count) :
    Piece.written c.pieces = c.headerBytes ++ c.averages.flatMap Wire.encodeReal := by
  simp [Piece.written, pieces, Piece.header, Piece.averages, Piece.counted, hindex, hdown]

theorem length_leftover {c : Column Binary64} (hindex : Wire.Fits c.index) :
    (c.headerBytes ++ c.averages.flatMap Wire.encodeReal).length = 69 := by
  rw [List.length_append, Grammar.length_header (Entity.header_headerBytes hindex)]
  simp [averages]

end Column

namespace Row

/-- The pieces of the record of a row. -/
def pieces (r : Row Binary64) : List Piece :=
  [.header r.toEntity, .counted r.indices.length (r.indices.flatMap Wire.encodeInt),
    .counted r.coefficients.length (r.coefficients.flatMap Wire.encodeReal)]

theorem run_encode_pieces (r : Row Binary64) (b : Buffer) :
    r.encode.run b = (Buffer.writePieces r.pieces).run b := by
  rw [encode, pieces, Buffer.writePieces]
  refine Action.run_bind_congr (Buffer.run_writeHeader_eq _ b) fun _ b => ?_
  rw [Buffer.writePieces]
  refine Action.run_bind_congr (Buffer.run_writeWholeArray_eq _ b) fun _ b => ?_
  rw [Buffer.run_writePieces_singleton, Buffer.run_writeRealArray_eq]

theorem complete_pieces_iff {r : Row Binary64} : Piece.Complete r.pieces ↔
    Wire.Fits r.index ∧ Wire.Fits r.indices.length ∧ Wire.Fits r.coefficients.length := by
  simp only [Piece.Complete, pieces, Piece.header, Piece.counted, List.forall_mem_cons,
    decide_eq_true_eq]
  exact and_congr_right fun _ => and_congr_right fun _ => and_iff_left (List.forall_mem_nil _)

theorem all_pieces (r : Row Binary64) : Piece.all r.pieces = r.record := by
  simp [Piece.all, pieces, Piece.header, Piece.counted, record, indexBytes]

end Row

namespace Solution

/-- The one piece of the record of a solution. -/
def pieces (s : Solution Binary64) : List Piece :=
  [.counted s.size (s.values.flatMap Wire.encodeReal ++ Wire.encodeReal s.quality)]

theorem run_encode_pieces (s : Solution Binary64) (b : Buffer) :
    s.encode.run b = (Buffer.writePieces s.pieces).run b := by
  rw [pieces, Buffer.run_writePieces_singleton]
  refine Buffer.run_counted (fun h b => ?_) (fun h b => ?_) b
  · rw [run_encode h, List.append_assoc (Wire.encodeInt _)]
  · rw [encode, Action.run_bind_of_error (Buffer.run_writeInt_of_not_fits h b)]

theorem complete_pieces_iff {s : Solution Binary64} :
    Piece.Complete s.pieces ↔ Wire.Fits s.size := by
  simp only [Piece.Complete, pieces, Piece.counted, List.forall_mem_singleton, decide_eq_true_eq]

theorem all_pieces (s : Solution Binary64) : Piece.all s.pieces = s.record := by
  simp [Piece.all, pieces, Piece.counted, record]

end Solution

/-- A kind of which something was read can be read. -/
theorem Kind.readable_of_run_decode {kind : Kind} {b b' : Buffer} {k : Knowledge}
    (h : kind.decode.run b = (.ok k, b')) : kind.Readable := by
  cases kind with
  | column => exact Or.inl rfl
  | row => exact Or.inr (Or.inl rfl)
  | solution => exact Or.inr (Or.inr rfl)
  | _ => cases h

/-- What is built for a row is one. -/
theorem Object.row_of_build {f : Fields} {o : Object} (h : build .row f = .ok o) :
    ∃ r, o = row r := by
  rcases gives_of_build h with ⟨_, _, _, r, -, -, hr⟩
  exact ⟨r, hr⟩

namespace Knowledge

/-- The pieces of the record of what can be sent. -/
def pieces : Knowledge → List Piece
  | object (.column c) => c.pieces
  | object (.row r) => r.pieces
  | object _ => []
  | solution s => s.pieces

/-- Whether an encoding would leave a buffer either with the whole record or as it was. -/
def AllOrNothing (k : Knowledge) (b : Buffer) : Prop :=
  k.encode.run b = (.ok (), { b with bytes := b.bytes ++ k.record }) ∨
    ∃ e, k.encode.run b = (.error e, b)

variable {k : Knowledge}

theorem all_pieces (h : k.kind.Readable) : Piece.all k.pieces = k.record := by
  cases k with
  | object o =>
    cases o with
    | column c => exact c.all_pieces
    | row r => exact r.all_pieces
    | _ => rfl
  | solution s => exact s.all_pieces

/-- An encoding writes the pieces before the first that is refused. -/
theorem run_encode_eq (h : k.kind.Readable) (b : Buffer) :
    k.encode.run b =
      (if Piece.Complete k.pieces then .ok () else .error .overflow,
        { b with bytes := b.bytes ++ Piece.written k.pieces }) := by
  rw [← Buffer.run_writePieces]
  cases k with
  | object o =>
    cases o with
    | column c => exact c.run_encode_pieces b
    | row r => exact r.run_encode_pieces b
    | _ => rcases h with h | h | h <;> cases h
  | solution s =>
    rw [encode, pieces]
    exact s.run_encode_pieces b

/-- An encoding is all or nothing exactly if no piece but the first is refused where the first is
not. -/
theorem allOrNothing_iff (h : k.kind.Readable) (b : Buffer) :
    k.AllOrNothing b ↔ Piece.Atomic k.pieces := by
  rw [AllOrNothing, run_encode_eq h]
  by_cases hcomplete : Piece.Complete k.pieces
  · rw [if_pos hcomplete, Piece.written_of_complete hcomplete, all_pieces h]
    exact iff_of_true (Or.inl rfl) fun _ => hcomplete
  · rw [if_neg hcomplete, ← Piece.written_eq_nil_iff hcomplete]
    constructor
    · rintro (hrun | ⟨e, hrun⟩)
      · cases hrun
      · have hbytes := congrArg (fun r => r.2.bytes) hrun
        exact List.append_right_eq_self.1 hbytes
    · intro hnil
      refine Or.inr ⟨.overflow, ?_⟩
      rw [hnil, List.append_nil]

/-! ## What can be made -/

/-- What can be made: columns, rows and solutions that are built or read, with headers that are set
to anything, and the columns after reports. -/
inductive Reachable : Knowledge → Prop
  /-- A column or a row is built. -/
  | built {kind : Kind} {f : Fields} {o : Object} (hkind : kind = .column ∨ kind = .row)
      (h : Object.build kind f = .ok o) : Reachable (object o)
  /-- A solution has any values. -/
  | solution (s : Solution Binary64) : Reachable (solution s)
  /-- Something is read from a buffer. -/
  | read {kind : Kind} {b b' : Buffer} {k : Knowledge} (hb : b.cursor ≤ b.size)
      (h : kind.decode.run b = (.ok k, b')) : Reachable k
  /-- The header of an object is set. -/
  | changed {o : Object} (ho : Reachable (object o)) (e : Entity Binary64) :
      Reachable (object (o.setHeader e))
  /-- A branching is reported to an object. -/
  | observed {o o' : Object} (ho : Reachable (object o)) {direction : Direction}
      {improvement distance : Datum} (h : o.observe direction improvement distance = .ok o') :
      Reachable (object o')

/-- What holds for everything that can be made: it can be sent, the numbers of a column are not
below 32 bits, and a row has as many coefficients as indices. -/
def Sound : Knowledge → Prop
  | object (.column c) => ∀ direction, -0x80000000 ≤ c.count direction
  | object (.row r) => r.indices.length = r.coefficients.length
  | object _ => False
  | solution _ => True

theorem Sound.readable (h : k.Sound) : k.kind.Readable := by
  cases k with
  | object o =>
    cases o with
    | column c => exact Or.inl rfl
    | row r => exact Or.inr (Or.inl rfl)
    | _ => exact h.elim
  | solution s => exact Or.inr (Or.inr rfl)

/-- What is read is sound. -/
theorem sound_of_grammar {bs : List UInt8} (h : grammar bs k) : k.Sound := by
  cases k with
  | object o =>
    cases o with
    | column c =>
      rcases h with ⟨front, costs, -, -, hdown, hup, -⟩
      intro direction
      cases direction with
      | down => exact hdown.1
      | up => exact hup.1
    | row r =>
      rcases h with ⟨front, reals, -, -, -, heven, -, -⟩
      exact heven
    | _ => exact h.elim
  | solution s => exact trivial

/-- What is built is sound. -/
theorem sound_of_build {kind : Kind} {f : Fields} {o : Object}
    (hkind : kind = .column ∨ kind = .row) (h : Object.build kind f = .ok o) :
    (object o).Sound := by
  rcases hkind with rfl | rfl
  · rcases Object.column_of_build h with ⟨c, rfl, hcosts⟩
    intro direction
    rw [Column.count, hcosts]
    cases direction <;> decide
  · rcases Object.row_of_build h with ⟨r, rfl⟩
    exact Object.even_of_build h

/-- A report leaves an object sound. -/
theorem sound_of_observe {o o' : Object} {direction : Direction} {improvement distance : Datum}
    (ho : (object o).Sound) (h : o.observe direction improvement distance = .ok o') :
    (object o').Sound := by
  cases o with
  | column c =>
    rcases Object.observe_cases h with rfl | ⟨i, x, c', hobserve, rfl⟩
    · exact ho
    · intro other
      exact (ho other).trans (Column.count_le_of_observe hobserve other)
  | _ => cases h

theorem sound_setHeader {o : Object} (ho : (object o).Sound) (e : Entity Binary64) :
    (object (o.setHeader e)).Sound := by
  cases o with
  | column c => exact ho
  | row r => exact ho
  | _ => exact ho.elim

/-- Everything that can be made is sound. -/
theorem Reachable.sound (h : k.Reachable) : k.Sound := by
  induction h with
  | built hkind h => exact sound_of_build hkind h
  | solution s => exact trivial
  | read hb h =>
    rcases (Kind.reads_decode (Kind.readable_of_run_decode h)).sound hb h with
      ⟨bs, rest, -, ⟨-, hgrammar⟩, -⟩
    exact sound_of_grammar hgrammar
  | changed ho e ih => exact sound_setHeader ih e
  | observed ho h ih => exact sound_of_observe ih h

/-! ## Which encodings are all or nothing -/

/-- Whether there is room for the numbers of a column, or the terms of a row, unless the index is
refused before them. -/
def InRange : Knowledge → Prop
  | object (.column c) => Wire.Fits c.index → ∀ direction, c.count direction < 0x80000000
  | object (.row r) => Wire.Fits r.index → r.indices.length < 0x80000000
  | object _ => True
  | solution _ => True

theorem atomic_pieces_iff (h : k.Sound) : Piece.Atomic k.pieces ↔ k.InRange := by
  cases k with
  | object o =>
    cases o with
    | column c =>
      have hatomic : Piece.Atomic c.pieces ↔ (Wire.Fits c.index → c.Fits) := by
        rw [← Column.complete_pieces_iff, ← decide_eq_true_iff (p := Wire.Fits c.index)]
        exact Piece.atomic_cons_iff
      rw [pieces, hatomic, InRange]
      refine forall_congr' fun hindex => ⟨fun hfits direction => ?_, fun hcounts => ?_⟩
      · cases direction with
        | down => exact hfits.down.2
        | up => exact hfits.up.2
      · exact ⟨hindex, ⟨h .down, hcounts .down⟩, ⟨h .up, hcounts .up⟩⟩
    | row r =>
      have heven : r.indices.length = r.coefficients.length := h
      have hatomic : Piece.Atomic r.pieces ↔ (Wire.Fits r.index → Wire.Fits r.index ∧
          Wire.Fits r.indices.length ∧ Wire.Fits r.coefficients.length) := by
        rw [← Row.complete_pieces_iff, ← decide_eq_true_iff (p := Wire.Fits r.index)]
        exact Piece.atomic_cons_iff
      rw [pieces, hatomic, InRange, ← heven]
      unfold Wire.Fits
      refine forall_congr' fun hindex => ?_
      omega
    | _ => exact h.elim
  | solution s =>
    refine iff_of_true (fun hfirst => ?_) trivial
    simpa [Piece.Complete, pieces, Solution.pieces] using hfirst

/-- What is out of range is refused, with the beginning of its record left in the buffer. -/
theorem exists_leftover (h : k.Sound) (hrange : ¬ k.InRange) (b : Buffer) :
    ∃ left missing, left ≠ [] ∧ missing ≠ [] ∧ k.record = left ++ missing ∧
      k.encode.run b = (.error .overflow, { b with bytes := b.bytes ++ left }) := by
  rw [← atomic_pieces_iff h] at hrange
  have hcomplete : ¬ Piece.Complete k.pieces := fun hall => hrange fun _ => hall
  rcases Piece.exists_missing hcomplete with ⟨missing, hmissing, hall⟩
  refine ⟨_, missing, fun hnil => ?_, hmissing, (all_pieces h.readable).symm.trans hall, ?_⟩
  · exact hrange ((Piece.written_eq_nil_iff hcomplete).1 hnil)
  · rw [run_encode_eq h.readable, if_neg hcomplete]

/-! ## Runs of encodings -/

/-- A buffer after an encoding into it, whether or not that succeeded. -/
def attempt (b : Buffer) (k : Knowledge) : Buffer := (k.encode.run b).2

/-- A buffer after encodings into it, one after the other. -/
def attempts (b : Buffer) (ks : List Knowledge) : Buffer := ks.foldl attempt b

/-- Those of a list whose encodings succeed. -/
def accepted (ks : List Knowledge) : List Knowledge := ks.filter fun k => Piece.Complete k.pieces

theorem attempts_eq {ks : List Knowledge} (hks : ∀ k ∈ ks, k.kind.Readable) (b : Buffer) :
    attempts b ks = { b with bytes := b.bytes ++ ks.flatMap fun k => Piece.written k.pieces } := by
  induction ks generalizing b with
  | nil => simp [attempts]
  | cons k ks ih =>
    rw [List.forall_mem_cons] at hks
    have hfirst : attempt b k = { b with bytes := b.bytes ++ Piece.written k.pieces } :=
      congrArg Prod.snd (run_encode_eq hks.1 b)
    have hrest := ih hks.2 (attempt b k)
    rw [hfirst] at hrest
    rw [List.flatMap_cons, ← List.append_assoc]
    rw [attempts, List.foldl_cons, hfirst]
    exact hrest

/-- In range, just the records of what is accepted are written. -/
theorem flatMap_written {ks : List Knowledge} (hks : ∀ k ∈ ks, k.Sound)
    (hrange : ∀ k ∈ ks, k.InRange) :
    (ks.flatMap fun k => Piece.written k.pieces) = (accepted ks).flatMap record := by
  induction ks with
  | nil => rfl
  | cons k ks ih =>
    rw [List.forall_mem_cons] at hks hrange
    rw [List.flatMap_cons, ih hks.2 hrange.2]
    by_cases hcomplete : Piece.Complete k.pieces
    · have haccepted : accepted (k :: ks) = k :: accepted ks :=
        List.filter_cons_of_pos (decide_eq_true hcomplete)
      rw [haccepted, List.flatMap_cons, Piece.written_of_complete hcomplete,
        all_pieces hks.1.readable]
    · have haccepted : accepted (k :: ks) = accepted ks :=
        List.filter_cons_of_neg (by simpa using hcomplete)
      have hnil := (Piece.written_eq_nil_iff hcomplete).2 ((atomic_pieces_iff hks.1).2 hrange.1)
      rw [haccepted, hnil, List.nil_append]

/-! ## Reading back -/

/-- What is sent with an encoding: the indices of a row modulo `2 ^ 32`. -/
def sent : Knowledge → Knowledge
  | object (.row r) => object (.row r.wrapped)
  | k => k

theorem record_sent (k : Knowledge) : k.sent.record = k.record := by
  rcases k with ⟨_ | _ | _ | c | r⟩ | s
  case object.row => exact r.record_wrapped
  all_goals rfl

theorem kind_sent (k : Knowledge) : k.sent.kind = k.kind := by
  rcases k with ⟨_ | _ | _ | c | r⟩ | s <;> rfl

/-- What is accepted can be sent. -/
theorem fits_sent (h : k.Sound) (hcomplete : Piece.Complete k.pieces) : k.sent.Fits := by
  cases k with
  | object o =>
    cases o with
    | column c => exact Column.complete_pieces_iff.1 hcomplete
    | row r =>
      have heven : r.indices.length = r.coefficients.length := h
      rcases Row.complete_pieces_iff.1 hcomplete with ⟨hindex, hlength, -⟩
      exact ⟨hindex, by rwa [Row.wrapped, List.length_map],
        Wire.forall_fits_map_wrap r.indices, by rwa [Row.wrapped, List.length_map]⟩
    | _ => exact h.elim
  | solution s => exact Solution.complete_pieces_iff.1 hcomplete

/-- The records of what was accepted are read back one after the other. -/
theorem run_decodeAll_accepted {ks : List Knowledge}
    (hks : ∀ k ∈ ks, k.Sound ∧ Piece.Complete k.pieces) {b : Buffer} (hb : b.cursor ≤ b.size)
    (hnext : b.unread = ks.flatMap record) :
    ∃ marks, marks.length = ks.length ∧
      (decodeAll (ks.map kind)).run b =
        (.ok ((ks.map fun k => k.sent.received).zip marks), { b with cursor := b.size }) := by
  have hfits : ∀ k ∈ ks.map sent, k.Fits := by
    intro k hk
    rcases List.mem_map.1 hk with ⟨k', hk', rfl⟩
    exact fits_sent (hks k' hk').1 (hks k' hk').2
  have hrecords : (ks.map sent).flatMap record = ks.flatMap record := by
    rw [List.flatMap_map]
    exact congrArg (List.flatMap · ks) (funext record_sent)
  have hkinds : (ks.map sent).map kind = ks.map kind := by
    rw [List.map_map]
    exact congrArg (List.map · ks) (funext kind_sent)
  have hend : b.cursor + (ks.flatMap record).length = b.size := by
    rw [← hnext, Buffer.length_unread, Buffer.remaining]
    omega
  have hrun := run_decodeAll hfits hb (by rw [hrecords, hnext, List.append_nil] :
    b.unread = (ks.map sent).flatMap record ++ [])
  rw [hkinds, hrecords, Buffer.advance, hend, List.map_map] at hrun
  exact ⟨_, by rw [length_ends, List.length_map], hrun⟩

/-- Of what can be made, the encoding is all or nothing exactly if it is in range; otherwise it
fails and leaves the beginning of a record.  If all of a run of encodings are in range, they add to
a buffer the records of those that are accepted, and these are read back, after the records that
were there before. -/
theorem attempts_allOrNothing {ks : List Knowledge} (hks : ∀ k ∈ ks, k.Reachable) :
    (∀ k ∈ ks, ∀ b : Buffer, (k.AllOrNothing b ↔ k.InRange) ∧
      (¬ k.InRange → ∃ left missing, left ≠ [] ∧ missing ≠ [] ∧ k.record = left ++ missing ∧
        k.encode.run b = (.error .overflow, { b with bytes := b.bytes ++ left }))) ∧
    ((∀ k ∈ ks, k.InRange) → ∀ (b : Buffer) (olds : List Knowledge),
      (∀ k ∈ olds, k.Reachable ∧ Piece.Complete k.pieces) → b.cursor ≤ b.size →
      b.unread = olds.flatMap record →
      attempts b ks = { b with bytes := b.bytes ++ (accepted ks).flatMap record } ∧
      ∃ marks, marks.length = (olds ++ accepted ks).length ∧
        (decodeAll ((olds ++ accepted ks).map kind)).run (attempts b ks) =
          (.ok (((olds ++ accepted ks).map fun k => k.sent.received).zip marks),
            { attempts b ks with cursor := (attempts b ks).size })) := by
  have hsound : ∀ k ∈ ks, k.Sound := fun k hk => (hks k hk).sound
  constructor
  · intro k hk b
    refine ⟨?_, fun hrange => exists_leftover (hsound k hk) hrange b⟩
    rw [allOrNothing_iff (hsound k hk).readable, atomic_pieces_iff (hsound k hk)]
  · intro hrange b olds holds hb hnext
    have hattempts := attempts_eq (fun k hk => (hsound k hk).readable) b
    rw [flatMap_written hsound hrange] at hattempts
    refine ⟨hattempts, run_decodeAll_accepted (fun k hk => ?_) ?_ ?_⟩
    · rcases List.mem_append.1 hk with hold | hnew
      · exact ⟨(holds k hold).1.sound, (holds k hold).2⟩
      · rcases List.mem_filter.1 hnew with ⟨hin, hcomplete⟩
        exact ⟨hsound k hin, of_decide_eq_true hcomplete⟩
    · rw [hattempts]
      show b.cursor ≤ (b.bytes ++ (accepted ks).flatMap record).length
      rw [List.length_append]
      exact hb.trans (Nat.le_add_right _ _)
    · rw [hattempts, List.flatMap_append, ← hnext]
      exact List.drop_append_of_le_length hb

/-- A column whose index has more than 32 bits. -/
def wideColumn : Knowledge := object (.column { Column.initial with index := 0x80000000 })

/-- A column as it is built. -/
def freshColumn : Knowledge := object (.column Column.initial)

/-- A solution with one value. -/
def single : Knowledge := solution ⟨[0.5], [3], 1.0⟩

/-- The first of three is refused, and the other two are read back. -/
theorem attempts_three :
    (∀ k ∈ [wideColumn, freshColumn, single], k.AllOrNothing {}) ∧
      ∃ marks left, marks.length = 2 ∧
        (decodeAll [.column, .solution]).run (attempts {} [wideColumn, freshColumn, single]) =
          (.ok ([freshColumn, solution (.ofValues [0.5] 1.0)].zip marks), left) := by
  have hbuild : Object.build .column {} = .ok (.column Column.initial) := rfl
  have hfresh : freshColumn.Reachable := .built (Or.inl rfl) hbuild
  have hwide : wideColumn.Reachable :=
    hfresh.changed { Column.initial.toEntity with index := 0x80000000 }
  have hks : ∀ k ∈ [wideColumn, freshColumn, single], k.Reachable := by
    rw [List.forall_mem_cons, List.forall_mem_cons, List.forall_mem_singleton]
    exact ⟨hwide, hfresh, .solution _⟩
  have hrange : ∀ k ∈ [wideColumn, freshColumn, single], k.InRange := by
    rw [List.forall_mem_cons, List.forall_mem_cons, List.forall_mem_singleton]
    refine ⟨fun hindex => absurd hindex (by decide), fun _ direction => ?_, trivial⟩
    cases direction <;> decide
  have hrefused : ¬ Piece.Complete wideColumn.pieces := fun h =>
    absurd (Column.complete_pieces_iff.1 h).index (by decide)
  have hcolumn : Piece.Complete freshColumn.pieces :=
    Column.complete_pieces_iff.2 ⟨by decide, by decide, by decide⟩
  have hsolution : Piece.Complete single.pieces :=
    Solution.complete_pieces_iff.2 (by rw [Solution.size]; decide)
  have haccepted : accepted [wideColumn, freshColumn, single] = [freshColumn, single] := by
    simp [accepted, hrefused, hcolumn, hsolution]
  rcases attempts_allOrNothing hks with ⟨hall, hback⟩
  refine ⟨fun k hk => (hall k hk {}).1.2 (hrange k hk), ?_⟩
  have hempty : ({} : Buffer).unread = [].flatMap record := rfl
  rcases (hback hrange {} [] (List.forall_mem_nil _) (Nat.zero_le _) hempty).2 with
    ⟨marks, hmarks, hrun⟩
  have hkinds : [freshColumn, single].map kind = [.column, .solution] := rfl
  have hread : ([freshColumn, single].map fun k => k.sent.received) =
      [freshColumn, solution (.ofValues [0.5] 1.0)] := rfl
  rw [List.nil_append, haccepted] at hmarks hrun
  rw [hkinds, hread] at hrun
  exact ⟨marks, _, hmarks, hrun⟩

/-- A column with as many branchings downwards as 32 bits can count. -/
def brimming : Column Binary64 :=
  { Column.initial with costs := ⟨⟨defaultEstimate, 0x7fffffff⟩, .initial⟩ }

/-- The column is read and told of another branching, without a fault; to write it then fails after
69 bytes. -/
theorem leftover_brimming :
    (Column.Origin.buffer { bytes := brimming.record }).Gives brimming ∧
      ∃ c, (Object.column brimming).observe .down (.real 1.0) (.real 1.0) = .ok (.column c) ∧
        (object (.column c)).Reachable ∧ ¬ (object (.column c)).AllOrNothing {} ∧
        ∃ left, left.length = 69 ∧
          (object (.column c)).encode.run {} = (.error .overflow, { bytes := left }) := by
  have hfits : brimming.Fits := ⟨by decide, by decide, by decide⟩
  have hlong : ¬ (1.0 : Binary64) ≤ PseudoCosts.shortDistance := by decide +kernel
  have hgives := Column.Origin.gives_record hfits
  have hminus : brimming.count .down ≠ -1 := by decide
  rcases Column.exists_observe hlong hminus 1.0 with ⟨c, hc, hheader, hcount, -⟩
  have hobserve : (Object.column brimming).observe .down (.real 1.0) (.real 1.0) =
      .ok (.column c) := by
    rw [Object.observe_real, hc]
    rfl
  have hbrimming : (object (.column brimming)).Reachable := by
    rcases hgives with ⟨hb, b', hrun⟩
    have hread : Kind.column.decode.run { bytes := brimming.record } =
        (.ok (object (.column brimming)), b') := by
      rw [Kind.decode, Action.run_bind_of_ok hrun, Action.run_pure]
    exact .read hb hread
  have hreachable : (object (.column c)).Reachable := hbrimming.observed hobserve
  have hindex : Wire.Fits c.index := by
    rw [hheader]
    decide
  have hdown : ¬ Wire.Fits c.costs.down.count := by
    have hcount' : c.costs.down.count = 0x80000000 := hcount
    rw [hcount']
    decide
  refine ⟨hgives, c, hobserve, hreachable, ?_, _, Column.length_leftover hindex, ?_⟩
  · rw [allOrNothing_iff hreachable.sound.readable, atomic_pieces_iff hreachable.sound]
    exact fun hrange => hdown ⟨hreachable.sound .down, hrange hindex .down⟩
  · rw [run_encode_eq hreachable.sound.readable, pieces, Column.written_of_down hindex hdown,
      if_neg fun hcomplete => hdown (Column.complete_pieces_iff.1 hcomplete).down]
    rfl

end Knowledge

end BranchBound
