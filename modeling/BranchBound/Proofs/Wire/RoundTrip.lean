import BranchBound.Proofs.Wire.Frame

/-!
# Round trips

What fits is read back from its frame, and nothing is left unread.  Records need no frame to be
told apart: written one after the other into a buffer that holds anything already, they are read
back one after the other from where the first one starts, whatever follows the last one.

Main results:

- Theorem `Knowledge.decodeFrame_frame`: what fits is read back from its frame.
- Theorems `Knowledge.run_encodeAll` and `Knowledge.run_decodeAll`: records one after the other.
- Theorem `Knowledge.round_trip`: both together.
-/

namespace BranchBound

namespace Knowledge

/-! ## One record in a frame -/

/-- What fits is of a kind that can be read. -/
theorem Fits.readable {k : Knowledge} (h : k.Fits) : k.kind.Readable := by
  cases k with
  | object o =>
    cases o with
    | column c => exact Or.inl rfl
    | row r => exact Or.inr (Or.inl rfl)
    | _ => exact False.elim h
  | solution s => exact Or.inr (Or.inr rfl)

/-- The buffer of what fits holds its record and nothing else. -/
theorem toBuffer_of_fits {k : Knowledge} (h : k.Fits) :
    k.toBuffer = .ok { tag := k.kind.name, bytes := k.record } := by
  unfold toBuffer
  rw [run_encode h]
  rfl

/-- A column is sent exactly if its integers have 32 bits. -/
theorem exists_toBuffer_column_iff {c : Column Binary64} :
    (∃ sent, (object (.column c)).toBuffer = .ok sent) ↔ c.Fits := by
  constructor
  · rintro ⟨sent, hsent⟩
    unfold toBuffer at hsent
    split at hsent
    · rename_i b hrun
      exact Column.fits_of_run_encode hrun
    · cases hsent
  · intro hfits
    exact ⟨_, toBuffer_of_fits hfits⟩

/-- The record that comes next in a buffer is read, and nothing after it. -/
theorem run_decode_record {k : Knowledge} (h : k.Fits) {b : Buffer} {rest : List UInt8}
    (hb : b.cursor ≤ b.size) (hnext : b.unread = k.record ++ rest) :
    k.kind.decode.run b = (.ok k.received, b.advance k.record.length) :=
  (Kind.reads_decode h.readable).complete hb hnext ⟨k.kind_received, grammar_record h⟩

/-- What fits is read back from its frame. -/
theorem decodeFrame_frame {k : Knowledge} (h : k.Fits) :
    ∃ sent left, k.toBuffer = .ok sent ∧
      Registry.initial.decodeFrame sent.frame = .ok (k.received, left) ∧ left.remaining = 0 := by
  have hframe : Buffer.unframe (Buffer.mk k.kind.name k.record 0).frame =
      .ok (Buffer.mk k.kind.name k.record 0) := Buffer.unframe_frame (Kind.fits_name k.kind)
  have hfind : Registry.initial.find (Buffer.mk k.kind.name k.record 0).tag = .ok k.kind :=
    Registry.find_eq_ok_iff.2 ⟨h.readable, rfl⟩
  have hdecode : k.kind.decode.run (Buffer.mk k.kind.name k.record 0) =
      (.ok k.received, (Buffer.mk k.kind.name k.record 0).advance k.record.length) :=
    run_decode_record h (Nat.zero_le _) (List.append_nil _).symm
  rw [← Registry.run_decode_of_find hfind] at hdecode
  refine ⟨_, _, toBuffer_of_fits h, Registry.decodeFrame_of_run hframe hdecode, ?_⟩
  unfold Buffer.remaining
  rw [Buffer.size_advance, Buffer.cursor_advance, Nat.zero_add]
  exact Nat.sub_self k.record.length

/-! ## Records one after the other -/

/-- Writes one thing after the other; the answer is how large the buffer was after each. -/
def encodeAll : List Knowledge → Action Buffer (List Nat)
  | [] => return []
  | k :: ks => do
    k.encode
    let b ← .state
    let marks ← encodeAll ks
    return b.size :: marks

/-- Reads one thing of each kind after the other; with each stands where the cursor was after
it. -/
def decodeAll : List Kind → Action Buffer (List (Knowledge × Nat))
  | [] => return []
  | kind :: kinds => do
    let k ← kind.decode
    let b ← .state
    let rest ← decodeAll kinds
    return (k, b.cursor) :: rest

/-- Where records end that follow each other from some position. -/
def ends : Nat → List Knowledge → List Nat
  | _, [] => []
  | start, k :: ks => (start + k.record.length) :: ends (start + k.record.length) ks

theorem length_ends (start : Nat) (ks : List Knowledge) : (ends start ks).length = ks.length := by
  induction ks generalizing start with
  | nil => rfl
  | cons k ks ih => rw [ends, List.length_cons, ih, List.length_cons]

/-- Every encoding adds its record. -/
theorem run_encodeAll {ks : List Knowledge} (hks : ∀ k ∈ ks, k.Fits) (b : Buffer) :
    (encodeAll ks).run b =
      (.ok (ends b.size ks), { b with bytes := b.bytes ++ ks.flatMap record }) := by
  induction ks generalizing b with
  | nil => simp [encodeAll, ends]
  | cons k ks ih =>
    rw [List.forall_mem_cons] at hks
    let b' : Buffer := { b with bytes := b.bytes ++ k.record }
    have hsize : b'.size = b.size + k.record.length := List.length_append
    rw [encodeAll, Action.run_bind_of_ok (run_encode hks.1 b),
      Action.run_bind_of_ok (Action.run_state b'), Action.run_bind_of_ok (ih hks.2 b'),
      Action.run_pure, hsize, ends, List.flatMap_cons, ← List.append_assoc]

/-- Every decoding takes its record and leaves what comes after it. -/
theorem run_decodeAll {ks : List Knowledge} (hks : ∀ k ∈ ks, k.Fits) {b : Buffer}
    {rest : List UInt8} (hb : b.cursor ≤ b.size)
    (hnext : b.unread = ks.flatMap record ++ rest) :
    (decodeAll (ks.map kind)).run b =
      (.ok ((ks.map received).zip (ends b.cursor ks)),
        b.advance (ks.flatMap record).length) := by
  induction ks generalizing b with
  | nil => rfl
  | cons k ks ih =>
    rw [List.forall_mem_cons] at hks
    rw [List.flatMap_cons, List.append_assoc] at hnext
    let b' := b.advance k.record.length
    have hb' : b'.cursor ≤ b'.size := Buffer.cursor_add_length_le hb hnext
    have hnext' : b'.unread = ks.flatMap record ++ rest := Buffer.unread_advance_length hnext
    rw [List.map_cons, decodeAll, Action.run_bind_of_ok (run_decode_record hks.1 hb hnext),
      Action.run_bind_of_ok (Action.run_state b'), Action.run_bind_of_ok (ih hks.2 hb' hnext'),
      Action.run_pure, Buffer.advance_advance, List.flatMap_cons, List.length_append]
    rfl

/-- What fits is read back, from frames of its own as well as from one buffer that holds other
bytes before and after. -/
theorem round_trip {ks : List Knowledge} (hks : ∀ k ∈ ks, k.Fits) :
    (∀ k ∈ ks, ∃ sent left, k.toBuffer = .ok sent ∧
      Registry.initial.decodeFrame sent.frame = .ok (k.received, left) ∧ left.remaining = 0) ∧
    ∀ b : Buffer, ∃ added marks, marks.length = ks.length ∧
      (encodeAll ks).run b = (.ok marks, { b with bytes := b.bytes ++ added }) ∧
      ∀ rest, (decodeAll (ks.map kind)).run
          { b with bytes := b.bytes ++ added ++ rest, cursor := b.bytes.length } =
        (.ok ((ks.map received).zip marks),
          { b with bytes := b.bytes ++ added ++ rest, cursor := (b.bytes ++ added).length }) := by
  refine ⟨fun k hk => decodeFrame_frame (hks k hk), fun b => ?_⟩
  refine ⟨ks.flatMap record, ends b.size ks, length_ends _ _, run_encodeAll hks b,
    fun rest => ?_⟩
  let full : Buffer :=
    { b with bytes := b.bytes ++ ks.flatMap record ++ rest, cursor := b.bytes.length }
  have hin : full.cursor ≤ full.size := by
    show b.bytes.length ≤ (b.bytes ++ ks.flatMap record ++ rest).length
    rw [List.length_append, List.length_append]
    omega
  have hnext : full.unread = ks.flatMap record ++ rest := by
    show (b.bytes ++ ks.flatMap record ++ rest).drop b.bytes.length = _
    rw [List.append_assoc, List.drop_left]
  have hrun := run_decodeAll hks hin hnext
  rw [List.length_append]
  exact hrun

/-- One of each kind: a column, a row whose indices do not ascend, and a solution whose values do
not belong to the first variables. -/
def assortment : List Knowledge :=
  [.object (.column Column.initial),
    .object (.row { Row.initial with indices := [2, -1], coefficients := [1.5, .nan] }),
    .solution ⟨[0.5, 2.5], [7, 3], 1.0⟩]

/-- One of each kind is read back. -/
theorem round_trip_assortment :
    (∀ k ∈ assortment, k.Fits) ∧
    (∀ k ∈ assortment, ∃ sent left, k.toBuffer = .ok sent ∧
      Registry.initial.decodeFrame sent.frame = .ok (k.received, left) ∧ left.remaining = 0) ∧
    ∀ b : Buffer, ∃ added marks, marks.length = assortment.length ∧
      (encodeAll assortment).run b = (.ok marks, { b with bytes := b.bytes ++ added }) ∧
      ∀ rest, (decodeAll (assortment.map kind)).run
          { b with bytes := b.bytes ++ added ++ rest, cursor := b.bytes.length } =
        (.ok ((assortment.map received).zip marks),
          { b with bytes := b.bytes ++ added ++ rest,
                   cursor := (b.bytes ++ added).length }) := by
  have hfits : ∀ k ∈ assortment, k.Fits := by
    rw [assortment, List.forall_mem_cons, List.forall_mem_cons, List.forall_mem_singleton]
    refine ⟨⟨?_, ?_, ?_⟩, ⟨?_, ?_, ?_, ?_⟩, ?_⟩
    · show Wire.Fits (-1)
      decide
    · show Wire.Fits 0
      decide
    · show Wire.Fits 0
      decide
    · show Wire.Fits (-1)
      decide
    · show Wire.Fits 2
      decide
    · show ∀ n ∈ [2, -1], Wire.Fits n
      decide
    · simp only [List.length_cons, List.length_nil]
    · show Wire.Fits 2
      decide
  exact ⟨hfits, round_trip hfits⟩

end Knowledge

end BranchBound
