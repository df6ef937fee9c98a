import BranchBound.Proofs.Wire.Acceptance

/-!
# Records that are cut off

Every record tells where it ends: no record begins with a shorter one of the same kind.  So a
frame that is cut off anywhere, be it in the tag, in a length, or inside a value, is reported as
malformed, whatever the lengths say that survived the cut.

An index of a row that has more than 32 bits is cut when it is sent.  Such a row is not received
as it was, but what is sent of it ends where the record of any other row of that length does.

Main results:

- Theorem `Buffer.Reads.eq_of_prefix`: what a reader reads does not begin with less that it reads.
- Theorem `Knowledge.shaped_of_toBuffer`: everything that is sent has the shape of its kind.
- Theorem `Buffer.unframe_append`: what follows a frame belongs to its bytes.
- Theorem `Knowledge.malformed_of_strict_prefix`: no truncation goes unnoticed.
-/

namespace BranchBound

/-! ## Readers tell where they end -/

/-- Of two texts of one grammar, neither is the beginning of the other. -/
theorem Buffer.Reads.eq_of_prefix {α : Type} {x : Action Buffer α} {G : Grammar α}
    (hx : Reads x G) {bs bs' : List UInt8} {a a' : α} (h : G bs a) (h' : G bs' a')
    (hpre : bs <+: bs') : bs = bs' := by
  rcases hpre with ⟨rest, hrest⟩
  let b : Buffer := { bytes := bs' }
  have hshort : x.run b = (.ok a, b.advance bs.length) :=
    hx.complete (Nat.zero_le _) hrest.symm h
  have hlong : x.run b = (.ok a', b.advance bs'.length) :=
    hx.complete (Nat.zero_le _) (List.append_nil bs').symm h'
  have hcursor : bs.length = bs'.length := by
    have hsame := congrArg (fun result => result.2.cursor) (hshort.symm.trans hlong)
    simpa [b] using hsame
  exact List.IsPrefix.eq_of_length ⟨rest, hrest⟩ hcursor

/-! ## The shape of a record -/

/-- An integer is sent as some integer of 32 bits. -/
theorem Grammar.int_encodeInt (n : Int) :
    int (Wire.encodeInt n) (Wire.decodeInt (Wire.encodeInt n)) :=
  int_iff.2 ⟨Wire.length_encodeInt n, rfl⟩

theorem Grammar.each_int_flatMap (ns : List Int) :
    int.each (ns.flatMap Wire.encodeInt)
      (ns.map fun n => Wire.decodeInt (Wire.encodeInt n)) := by
  induction ns with
  | nil => simp [each]
  | cons n ns ih => exact ⟨_, _, List.flatMap_cons, int_encodeInt n, ih⟩

/-- The parts of a row, with arrays of any lengths. -/
def Row.parts : Grammar (List Binary64) :=
  Grammar.header.andThen fun _ => Grammar.int.array.andThen fun _ => Grammar.real.array

theorem Row.reads_parts :
    Buffer.Reads (do
      let _ ← Entity.read initial.toEntity
      let _ ← Buffer.readWholeArray
      Buffer.readRealArray) parts :=
  (Entity.reads_read _).bind fun _ =>
    Buffer.reads_readWholeArray.bind fun _ => Buffer.reads_readRealArray

/-- The record of a row is made of its parts, also if its indices are cut. -/
theorem Row.parts_record {r : Row Binary64} (hindex : Wire.Fits r.index)
    (hindices : Wire.Fits r.indices.length) (hcoefficients : Wire.Fits r.coefficients.length) :
    parts r.record r.coefficients := by
  let received := r.indices.map fun n => Wire.decodeInt (Wire.encodeInt n)
  have harray : Grammar.int.array r.indexBytes received := by
    refine ⟨_, ?_, Grammar.each_int_flatMap r.indices, ?_⟩
    · simpa [received] using hindices
    · simp [received, indexBytes]
  exact ⟨r.toEntity, _, _, rfl, Entity.header_headerBytes hindex, received, _, _, rfl, harray,
    _, hcoefficients, Grammar.each_real_flatMap _, rfl⟩

/-- What stands for a row is made of the parts of one. -/
theorem Row.parts_of_grammar {bs : List UInt8} {r : Row Binary64} (h : grammar bs r) :
    parts bs r.coefficients := by
  rcases h with ⟨front, reals, hheader, hlength, hfits, heven, heach, rfl⟩
  refine ⟨r.toEntity, front, _, rfl, hheader, r.indices, _, _, rfl, ?_, reals, ?_, heach, rfl⟩
  · exact ⟨_, hlength, Grammar.each_int_iff.2 ⟨hfits, rfl⟩, rfl⟩
  · rwa [heven] at hlength

namespace Kind

/-- The bytes that have the shape of a kind: what stands for something of that kind, and for rows
what would if there were as many coefficients as indices. -/
def Shaped : Kind → List UInt8 → Prop
  | column, bs => ∃ c, Column.grammar bs c
  | row, bs => ∃ coefficients, Row.parts bs coefficients
  | solution, bs => ∃ s, Solution.grammar bs s
  | _, _ => False

theorem shaped_of_grammar {bs : List UInt8} {k : Knowledge} (h : Knowledge.grammar bs k) :
    k.kind.Shaped bs := by
  cases k with
  | object o =>
    cases o with
    | column c => exact ⟨c, h⟩
    | row r => exact ⟨r.coefficients, Row.parts_of_grammar h⟩
    | _ => exact False.elim h
  | solution s => exact ⟨s, h⟩

/-- Bytes of the shape of a kind do not begin with less of that shape. -/
theorem eq_of_shaped_prefix {kind : Kind} {bs bs' : List UInt8} (h : kind.Shaped bs)
    (h' : kind.Shaped bs') (hpre : bs <+: bs') : bs = bs' := by
  cases kind with
  | column =>
    rcases h with ⟨c, hc⟩
    rcases h' with ⟨c', hc'⟩
    exact Column.reads_decode.eq_of_prefix hc hc' hpre
  | row =>
    rcases h with ⟨xs, hxs⟩
    rcases h' with ⟨xs', hxs'⟩
    exact Row.reads_parts.eq_of_prefix hxs hxs' hpre
  | solution =>
    rcases h with ⟨s, hs⟩
    rcases h' with ⟨s', hs'⟩
    exact Solution.reads_decode.eq_of_prefix hs hs' hpre
  | _ => exact False.elim h

theorem name_injective {kind kind' : Kind} (h : kind.name = kind'.name) : kind = kind' := by
  revert h
  cases kind <;> cases kind' <;> decide

end Kind

namespace Knowledge

/-- What can be encoded is a record of the shape of its kind, under the name of the kind. -/
theorem shaped_of_toBuffer {k : Knowledge} {sent : Buffer} (h : k.toBuffer = .ok sent) :
    k.kind.Readable ∧ k.kind.Shaped sent.bytes ∧
      sent = { tag := k.kind.name, bytes := k.record } := by
  have hrun : k.encode.run { tag := k.kind.name } = (.ok (), sent) := by
    unfold toBuffer at h
    split at h
    · rename_i hrun
      cases h
      exact hrun
    · cases h
  cases k with
  | object o =>
    cases o with
    | column c =>
      have hfits := Column.fits_of_run_encode hrun
      have hsent := hrun.symm.trans (Column.run_encode hfits _)
      cases hsent
      exact ⟨Or.inl rfl, ⟨c, Column.grammar_record hfits⟩, rfl⟩
    | row r =>
      rcases Row.lengths_of_run_encode hrun with ⟨hindex, hindices, hcoefficients⟩
      have hsent := hrun.symm.trans (Row.run_encode_of_lengths hindex hindices hcoefficients _)
      cases hsent
      exact ⟨Or.inr (Or.inl rfl), ⟨_, Row.parts_record hindex hindices hcoefficients⟩, rfl⟩
    | _ => cases hrun
  | solution s =>
    have hsize : Wire.Fits s.size := by
      simp only [encode] at hrun
      exact Solution.fits_of_run_encode hrun
    have hfits : (solution s).Fits := hsize
    have hshape : Kind.solution.Shaped s.record := ⟨_, Solution.grammar_record hsize⟩
    rw [run_encode hfits] at hrun
    cases hrun
    exact ⟨Or.inr (Or.inr rfl), hshape, rfl⟩

/-! ## Cutting off a frame -/

end Knowledge

/-- What follows a frame belongs to its bytes. -/
theorem Buffer.unframe_append {bs : List UInt8} {b : Buffer} (h : unframe bs = .ok b)
    (rest : List UInt8) : unframe (bs ++ rest) = .ok { b with bytes := b.bytes ++ rest } := by
  unfold unframe at h
  split at h
  · cases h
  · rename_i hsize
    simp only at h
    split at h
    · cases h
    · rename_i hbounds
      split at h
      · cases h
      · rename_i tag htag
        cases h
        have hfour : 4 ≤ bs.length := Nat.le_of_not_lt hsize
        have htake : (bs ++ rest).take 4 = bs.take 4 := List.take_append_of_le_length hfour
        have hdrop : (bs ++ rest).drop 4 = bs.drop 4 ++ rest :=
          List.drop_append_of_le_length hfour
        have hlength : (Wire.decodeInt (bs.take 4)).toNat ≤ (bs.drop 4).length := by omega
        unfold unframe
        simp only [htake, hdrop, List.take_append_of_le_length hlength,
          List.drop_append_of_le_length hlength, htag, List.length_append]
        rw [if_neg (by omega), if_neg (by push_cast; omega)]

namespace Knowledge

/-- Whatever can be encoded: when its frame is cut off anywhere, the rest is reported as
malformed. -/
theorem malformed_of_strict_prefix {k : Knowledge} {sent : Buffer} (h : k.toBuffer = .ok sent)
    {p : List UInt8} (hpre : p <+: sent.frame) (hcut : p ≠ sent.frame) :
    ∃ cause, Registry.initial.decodeFrame p = .error (.malformed cause) := by
  rcases shaped_of_toBuffer h with ⟨hreadable, hshaped, hsent⟩
  rcases hpre with ⟨rest, hrest⟩
  cases hframe : Buffer.unframe p with
  | error e =>
    rcases Buffer.malformed_of_unframe hframe with ⟨cause, rfl⟩
    exact ⟨cause, Registry.decodeFrame_of_error hframe⟩
  | ok b =>
    -- the tag survived the cut, so the bytes after it did not
    have hwhole := Buffer.unframe_append hframe rest
    have hsentFrame : Buffer.unframe sent.frame = .ok sent := by
      rw [hsent]
      exact Buffer.unframe_frame (Kind.fits_name k.kind)
    rw [hrest, hsentFrame] at hwhole
    have hbuffer : sent = { b with bytes := b.bytes ++ rest } := Except.ok.inj hwhole
    have htag : b.tag = k.kind.name := by
      have htags := congrArg Buffer.tag hbuffer
      rw [hsent] at htags
      exact htags.symm
    have hcursor : b.cursor = 0 := (Buffer.frame_of_unframe hframe).2
    have hin : b.cursor ≤ b.size := by omega
    cases hrun : Registry.initial.decode.run b with
    | mk result b' =>
      have houtcome := Registry.decodeFrame_of_run hframe hrun
      cases result with
      | error e =>
        rcases (Registry.run_decode_error hin hrun).1 with ⟨cause, rfl⟩ | ⟨hunknown, -⟩
        · exact ⟨cause, houtcome⟩
        · exact absurd htag.symm (hunknown k.kind hreadable)
      | ok k' =>
        rcases Registry.run_decode_ok hin hrun with ⟨used, left, hnext, hname, hgrammar, -⟩
        have hkind : k'.kind = k.kind := Kind.name_injective (hname.trans htag)
        have hused : k.kind.Shaped used := hkind ▸ Kind.shaped_of_grammar hgrammar
        have hbytes : sent.bytes = used ++ (left ++ rest) := by
          rw [hbuffer, ← List.append_assoc, ← hnext]
          simp [Buffer.unread, hcursor]
        have hend := Kind.eq_of_shaped_prefix hused hshaped ⟨_, hbytes.symm⟩
        have hnothing : left ++ rest = [] := by
          rw [hend] at hbytes
          exact List.append_cancel_left (hbytes.symm.trans (List.append_nil _).symm)
        rw [List.append_eq_nil_iff] at hnothing
        rw [hnothing.2, List.append_nil] at hrest
        exact absurd hrest hcut

/-- A row with an index of more than 32 bits. -/
def wideRow : Row Binary64 :=
  { Row.initial with indices := [0x100000001], coefficients := [1.5] }

/-- The frame of such a row without its last byte is reported as malformed. -/
theorem malformed_of_strict_prefix_wideRow :
    ∃ sent cause, (object (.row wideRow)).toBuffer = .ok sent ∧
      Registry.initial.decodeFrame sent.frame.dropLast = .error (.malformed cause) := by
  let sent : Buffer := { tag := Kind.row.name, bytes := wideRow.record }
  have hsent : (object (.row wideRow)).toBuffer = .ok sent := by
    have hencode := Row.run_encode_of_lengths (r := wideRow) (by decide) (by decide) (by decide)
      { tag := Kind.row.name }
    simp only [toBuffer, encode, Object.encode, kind, Object.kind, hencode]
    rfl
  have hcut : sent.frame.dropLast ≠ sent.frame := by
    intro heq
    have hlength := congrArg List.length heq
    rw [List.length_dropLast] at hlength
    simp [Buffer.frame] at hlength
  rcases malformed_of_strict_prefix hsent (List.dropLast_prefix _) hcut with ⟨cause, hcause⟩
  exact ⟨sent, cause, hsent, hcause⟩

end Knowledge

end BranchBound
