import BranchBound.Proofs.Wire.Record

/-!
# Frames

A frame determines the tag and the bytes that it was made of, and is determined by them.  The
tags that are known at the start are the names of the kinds that can be read.

Main results:

- Theorem `Buffer.unframe_frame`: a frame is taken apart again.
- Theorem `Buffer.frame_of_unframe`: what is taken apart was a frame.
- Theorem `Registry.find_eq_ok_iff`: the tags that are known at the start.
-/

namespace BranchBound

/-- A frame is taken apart into the tag and the bytes. -/
theorem Buffer.unframe_frame {b : Buffer} (h : Wire.Fits (Wire.encodeText b.tag).length) :
    unframe b.frame = .ok { b with cursor := 0 } := by
  have hframe : b.frame = Wire.encodeInt (Wire.encodeText b.tag).length ++
      (Wire.encodeText b.tag ++ b.bytes) := List.append_assoc _ _ _
  have hsize : ¬ b.frame.length < 4 := by
    rw [hframe, List.length_append, Wire.length_encodeInt]
    omega
  have hlength : Wire.decodeInt (b.frame.take 4) = (Wire.encodeText b.tag).length := by
    rw [hframe, List.take_left' (Wire.length_encodeInt _), Wire.decodeInt_encodeInt h]
  have hrest : b.frame.drop 4 = Wire.encodeText b.tag ++ b.bytes := by
    rw [hframe, List.drop_left' (Wire.length_encodeInt _)]
  have hbounds : ¬ (((Wire.encodeText b.tag).length : Int) < 0 ∨
      ((Wire.encodeText b.tag ++ b.bytes).length : Int) < (Wire.encodeText b.tag).length) := by
    rw [List.length_append]
    omega
  unfold unframe
  simp only [hlength, hrest]
  rw [if_neg hsize, if_neg hbounds, Int.toNat_natCast, List.take_left, List.drop_left,
    Wire.decodeText_encodeText]

/-- A frame is the only one that is taken apart into its tag and bytes. -/
theorem Buffer.frame_of_unframe {bs : List UInt8} {b : Buffer} (h : unframe bs = .ok b) :
    b.frame = bs ∧ b.cursor = 0 := by
  unfold unframe at h
  split at h
  · cases h
  · rename_i hsize
    simp only at h
    split at h
    · cases h
    · rename_i hbounds
      split at h
      · cases h
      · rename_i tag htag
        cases h
        have hfour : (bs.take 4).length = 4 := by
          rw [List.length_take]
          omega
        have hlength : ((bs.drop 4).take (Wire.decodeInt (bs.take 4)).toNat).length =
            (Wire.decodeInt (bs.take 4)).toNat := by
          rw [List.length_take]
          omega
        have hcast : (((Wire.decodeInt (bs.take 4)).toNat : Nat) : Int) =
            Wire.decodeInt (bs.take 4) := Int.toNat_of_nonneg (by omega)
        refine ⟨?_, rfl⟩
        unfold frame
        simp only [Wire.encodeText_of_decodeText htag, hlength, hcast,
          Wire.encodeInt_decodeInt hfour, List.append_assoc, List.take_append_drop]

/-- The name of a kind is a tag of few bytes. -/
theorem Kind.fits_name (kind : Kind) : Wire.Fits (Wire.encodeText kind.name).length := by
  cases kind <;> decide

/-- The tags known at the start are the names of the kinds that can be read. -/
theorem Registry.find_eq_ok_iff {tag : String} {kind : Kind} :
    Registry.initial.find tag = .ok kind ↔ kind.Readable ∧ kind.name = tag := by
  constructor
  · intro h
    unfold find at h
    split at h
    · rename_i found kind' hfound
      cases h
      have htag : found = tag := by simpa using List.find?_some hfound
      have hmem := List.mem_of_find?_eq_some hfound
      simp only [initial, List.map_cons, List.map_nil, List.mem_cons, List.not_mem_nil,
        or_false, Prod.mk.injEq] at hmem
      rw [← htag]
      rcases hmem with ⟨rfl, rfl⟩ | ⟨rfl, rfl⟩ | ⟨rfl, rfl⟩
      · exact ⟨Or.inr (Or.inr rfl), rfl⟩
      · exact ⟨Or.inl rfl, rfl⟩
      · exact ⟨Or.inr (Or.inl rfl), rfl⟩
    · cases h
  · rintro ⟨rfl | rfl | rfl, rfl⟩ <;> rfl

/-- What a frame holds is read by the reader of its tag. -/
theorem Registry.run_decode_of_find {r : Registry} {b : Buffer} {kind : Kind}
    (h : r.find b.tag = .ok kind) : r.decode.run b = kind.decode.run b := by
  unfold decode
  rw [Action.run_bind_of_ok (Action.run_state b), h,
    Action.run_bind_of_ok (Action.run_ofExcept _ b)]

/-- The outcome of decoding a frame is that of reading its bytes. -/
theorem Registry.decodeFrame_of_run {r : Registry} {bs : List UInt8} {b b' : Buffer}
    {result : Except Fault Knowledge} (hframe : Buffer.unframe bs = .ok b)
    (h : r.decode.run b = (result, b')) : r.decodeFrame bs = result.map (·, b') := by
  unfold decodeFrame
  rw [hframe]
  simp only [h]
  cases result <;> rfl

/-- A tag that is not known is reported. -/
theorem Registry.eq_unknownTag {r : Registry} {tag : String} {e : Fault}
    (h : r.find tag = .error e) : e = .unknownTag tag := by
  unfold find at h
  split at h
  · cases h
  · cases h
    rfl

end BranchBound
