import BranchBound.Proofs.Wire.RoundTrip

/-!
# Decoding any bytes

Whatever bytes are decoded, the outcome is something that can be sent, a report of malformed data,
or a report of an unknown tag, and nothing outside the bytes is read.  Bytes that are accepted are
what is sent again: nothing is normalised but status words with bits that are no flag and
patterns of `nan`.

Main results:

- Theorem `Buffer.malformed_of_unframe`: why bytes are no frame.
- Theorem `Registry.run_decode_ok` and `Registry.run_decode_error`: what decoding a frame leaves.
- Theorem `Registry.frame_of_decodeFrame`: what was decoded is sent as it came.
- Theorem `Registry.safe_and_exact`: all of this together.
-/

namespace BranchBound

/-- Bytes that are no frame are malformed. -/
theorem Buffer.malformed_of_unframe {bs : List UInt8} {e : Fault} (h : unframe bs = .error e) :
    ∃ cause, e = .malformed cause := by
  unfold unframe at h
  split at h
  · cases h
    exact ⟨_, rfl⟩
  · simp only at h
    split at h
    · cases h
      exact ⟨_, rfl⟩
    · split at h
      · cases h
        exact ⟨_, rfl⟩
      · cases h

namespace Registry

/-- What is decoded came next in the buffer and is of the kind of the tag. -/
theorem run_decode_ok {b b' : Buffer} {k : Knowledge} (hb : b.cursor ≤ b.size)
    (h : Registry.initial.decode.run b = (.ok k, b')) :
    ∃ used rest, b.unread = used ++ rest ∧ k.kind.name = b.tag ∧ Knowledge.grammar used k ∧
      b' = b.advance used.length := by
  cases hfind : Registry.initial.find b.tag with
  | error e =>
    unfold decode at h
    rw [Action.run_bind_of_ok (Action.run_state b), hfind,
      Action.run_bind_of_error (Action.run_ofExcept _ b)] at h
    cases h
  | ok kind =>
    rcases find_eq_ok_iff.1 hfind with ⟨hreadable, hname⟩
    rw [run_decode_of_find hfind] at h
    rcases (Kind.reads_decode hreadable).sound hb h with
      ⟨used, rest, hnext, ⟨rfl, hgrammar⟩, hleft⟩
    exact ⟨used, rest, hnext, hname, hgrammar, hleft⟩

/-- Decoding fails on malformed data or on a tag that is not known, and reads no further than the
end. -/
theorem run_decode_error {b b' : Buffer} {e : Fault} (hb : b.cursor ≤ b.size)
    (h : Registry.initial.decode.run b = (.error e, b')) :
    ((∃ cause, e = .malformed cause) ∨
      (∀ kind : Kind, kind.Readable → kind.name ≠ b.tag) ∧ e = .unknownTag b.tag) ∧
      ∃ n, n ≤ b.remaining ∧ b' = b.advance n := by
  cases hfind : Registry.initial.find b.tag with
  | error e' =>
    unfold decode at h
    rw [Action.run_bind_of_ok (Action.run_state b), hfind,
      Action.run_bind_of_error (Action.run_ofExcept _ b)] at h
    cases h
    refine ⟨Or.inr ⟨fun kind hreadable hname => ?_, eq_unknownTag hfind⟩, 0, Nat.zero_le _, rfl⟩
    rw [find_eq_ok_iff.2 ⟨hreadable, hname⟩] at hfind
    cases hfind
  | ok kind =>
    rw [run_decode_of_find hfind] at h
    rcases (Kind.reads_decode (find_eq_ok_iff.1 hfind).1).refuses hb h with ⟨hcause, hleft⟩
    exact ⟨Or.inl hcause, hleft⟩

/-- Something is decoded from bytes only if they are a frame from which it is read. -/
theorem run_of_decodeFrame {r : Registry} {bs : List UInt8} {k : Knowledge} {left : Buffer}
    (h : r.decodeFrame bs = .ok (k, left)) :
    ∃ b, Buffer.unframe bs = .ok b ∧ r.decode.run b = (.ok k, left) := by
  unfold decodeFrame at h
  split at h
  · cases h
  · rename_i b hframe
    split at h
    · rename_i k' b' hrun
      cases h
      exact ⟨b, hframe, hrun⟩
    · cases h

/-- Bytes that are no frame are reported as such. -/
theorem decodeFrame_of_error {r : Registry} {bs : List UInt8} {e : Fault}
    (h : Buffer.unframe bs = .error e) : r.decodeFrame bs = .error e := by
  unfold decodeFrame
  rw [h]

/-- What was decoded is sent as it came, without the bytes that were not read. -/
theorem frame_of_decodeFrame {bs : List UInt8} {k : Knowledge} {left : Buffer}
    (h : Registry.initial.decodeFrame bs = .ok (k, left)) (hword : k.StatusDefined left.bytes)
    (hreals : ∀ x ∈ k.reals, x ≠ .nan) :
    ∃ sent, k.toBuffer = .ok sent ∧ sent.frame = bs.take (bs.length - left.remaining) := by
  rcases run_of_decodeFrame h with ⟨b, hframe, hrun⟩
  rcases Buffer.frame_of_unframe hframe with ⟨hbytes, hcursor⟩
  have hb : b.cursor ≤ b.size := by
    rw [hcursor]
    exact Nat.zero_le _
  rcases run_decode_ok hb hrun with ⟨used, rest, hnext, hname, hgrammar, rfl⟩
  have hunread : b.bytes = used ++ rest := by
    rw [← hnext, Buffer.unread, hcursor, List.drop_zero]
  have hword' : k.StatusDefined (used ++ rest) := by
    rw [← hunread]
    exact hword
  rcases Knowledge.eq_record hgrammar hword' hreals with ⟨hfits, rfl⟩
  refine ⟨_, Knowledge.toBuffer_of_fits hfits, ?_⟩
  -- the bytes are the frame that is sent, and those that were not read
  have hsplit : bs = (Buffer.mk k.kind.name k.record 0).frame ++ rest := by
    rw [← hbytes, hname]
    unfold Buffer.frame
    rw [hunread, List.append_assoc, List.append_assoc, List.append_assoc]
  have hremaining : (b.advance k.record.length).remaining = rest.length := by
    rw [← Buffer.length_unread, Buffer.unread_advance_length hnext]
  rw [hremaining, hsplit, List.length_append, Nat.add_sub_cancel, List.take_left]

/-- Decoding any bytes is safe, and what it accepts it has read exactly. -/
theorem safe_and_exact (bs : List UInt8) :
    ((∃ k left, Registry.initial.decodeFrame bs = .ok (k, left)) ∨
      (∃ cause, Registry.initial.decodeFrame bs = .error (.malformed cause)) ∨
      (∃ tag, (∀ kind : Kind, kind.Readable → kind.name ≠ tag) ∧
        Registry.initial.decodeFrame bs = .error (.unknownTag tag))) ∧
    (∀ b, Buffer.unframe bs = .ok b →
      ∃ n, n ≤ b.remaining ∧ (Registry.initial.decode.run b).2 = b.advance n) ∧
    (∀ k left, Registry.initial.decodeFrame bs = .ok (k, left) → k.StatusDefined left.bytes →
      (∀ x ∈ k.reals, x ≠ .nan) →
      ∃ sent, k.toBuffer = .ok sent ∧ sent.frame = bs.take (bs.length - left.remaining)) := by
  have hin : ∀ b, Buffer.unframe bs = .ok b → b.cursor ≤ b.size := by
    intro b hframe
    rw [(Buffer.frame_of_unframe hframe).2]
    exact Nat.zero_le _
  refine ⟨?_, fun b hframe => ?_, fun k left h => frame_of_decodeFrame h⟩
  · cases hframe : Buffer.unframe bs with
    | error e =>
      rcases Buffer.malformed_of_unframe hframe with ⟨cause, rfl⟩
      exact Or.inr (Or.inl ⟨cause, decodeFrame_of_error hframe⟩)
    | ok b =>
      cases hrun : Registry.initial.decode.run b with
      | mk result b' =>
        have houtcome := decodeFrame_of_run hframe hrun
        cases result with
        | ok k => exact Or.inl ⟨k, b', houtcome⟩
        | error e =>
          rcases (run_decode_error (hin b hframe) hrun).1 with
            ⟨cause, rfl⟩ | ⟨hunknown, rfl⟩
          · exact Or.inr (Or.inl ⟨cause, houtcome⟩)
          · exact Or.inr (Or.inr ⟨b.tag, hunknown, houtcome⟩)
  · cases hrun : Registry.initial.decode.run b with
    | mk result b' =>
      cases result with
      | ok k =>
        rcases run_decode_ok (hin b hframe) hrun with ⟨used, rest, hnext, -, -, rfl⟩
        refine ⟨used.length, ?_, rfl⟩
        rw [← Buffer.length_unread, hnext, List.length_append]
        exact Nat.le_add_right _ _
      | error e => exact (run_decode_error (hin b hframe) hrun).2

/-- A solution of one value that equals its quality. -/
def halfSolution : Solution Binary64 := ⟨[0.5], [0], 0.5⟩

/-- A frame with one byte after the solution is accepted, and sent again without that byte. -/
theorem safe_and_exact_halfSolution :
    ∃ bs left sent, Registry.initial.decodeFrame bs = .ok (.solution halfSolution, left) ∧
      left.remaining = 1 ∧ (Knowledge.solution halfSolution).toBuffer = .ok sent ∧
      sent.frame = bs.take (bs.length - left.remaining) := by
  let k := Knowledge.solution halfSolution
  let b : Buffer := { tag := k.kind.name, bytes := k.record ++ [7] }
  have hfits : k.Fits := by
    show Wire.Fits halfSolution.size
    decide
  have hframe : Buffer.unframe b.frame = .ok b := Buffer.unframe_frame (Kind.fits_name _)
  have hrun : Registry.initial.decode.run b = (.ok k, b.advance k.record.length) := by
    rw [run_decode_of_find (find_eq_ok_iff.2 ⟨hfits.readable, rfl⟩)]
    exact Knowledge.run_decode_record hfits (Nat.zero_le _) rfl
  have hdecode := decodeFrame_of_run hframe hrun
  have hreals : ∀ x ∈ k.reals, x ≠ .nan := by decide +kernel
  have hleft : (b.advance k.record.length).remaining = 1 := by decide +kernel
  rcases (safe_and_exact b.frame).2.2 k _ hdecode trivial hreals with ⟨sent, hsent, htake⟩
  exact ⟨b.frame, _, sent, hdecode, hleft, hsent, htake⟩

end Registry

end BranchBound
