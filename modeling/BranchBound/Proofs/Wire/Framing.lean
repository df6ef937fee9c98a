import BranchBound.Proofs.Wire.Acceptance
import BranchBound.Proofs.Wire.Utf8

/-!
# Which bytes are a frame

A frame is an integer of four bytes in two's complement, as many bytes of well-formed text as it
says, and any bytes after them.  Exactly such bytes can be taken apart, and taking them apart loses
nothing: tags of less than `2 ^ 31` bytes together with any payload, and the frames, determine each
other.

Main results:

- Theorem `Wire.decodeInt_eq_twosComplement`: what the first four bytes say.
- Theorem `Buffer.exists_unframe_iff`: exactly the frames can be taken apart.
- Theorem `Buffer.framing_bijective`: putting together and taking apart are inverse to each other.
-/

namespace BranchBound

namespace Wire

/-- The integer that four bytes stand for in two's complement, the least byte first. -/
def twosComplement (a b c d : UInt8) : Int :=
  let n : Nat := a.toNat + 0x100 * b.toNat + 0x10000 * c.toNat + 0x1000000 * d.toNat
  if n < 0x80000000 then n else n - 0x100000000

/-- Four bytes are read as the integer that they stand for. -/
theorem decodeInt_eq_twosComplement (a b c d : UInt8) :
    decodeInt [a, b, c, d] = twosComplement a b c d := by
  have ha := a.toNat_lt
  have hb := b.toNat_lt
  have hc := c.toNat_lt
  have hd := d.toNat_lt
  have hvalue : ofLittleEndian [a, b, c, d] =
      a.toNat + 0x100 * b.toNat + 0x10000 * c.toNat + 0x1000000 * d.toNat := by
    simp only [ofLittleEndian]
    omega
  unfold decodeInt twosComplement intModulus
  rw [hvalue]
  dsimp only
  rw [Int.bmod_def]
  split <;> split <;> omega

end Wire

namespace Buffer

open Wire

/-- Whether bytes are a frame. -/
def Framed (bs : List UInt8) : Prop :=
  ∃ a b c d rest, bs = a :: b :: c :: d :: rest ∧
    0 ≤ twosComplement a b c d ∧ twosComplement a b c d ≤ rest.length ∧
    Utf8 (rest.take (twosComplement a b c d).toNat)

/-- What taking bytes apart comes to, once the first four have been read. -/
theorem unframe_cons (a b c d : UInt8) (rest : List UInt8) :
    unframe (a :: b :: c :: d :: rest) =
      let length := twosComplement a b c d
      if length < 0 ∨ rest.length < length then .error (.malformed (.badTagLength length))
      else
        match decodeText (rest.take length.toNat) with
        | none => .error (.malformed .badTag)
        | some tag => .ok ⟨tag, rest.drop length.toNat, 0⟩ := by
  have hlong : ¬ (a :: b :: c :: d :: rest).length < 4 := by simp
  have hlength : decodeInt ((a :: b :: c :: d :: rest).take 4) = twosComplement a b c d :=
    decodeInt_eq_twosComplement a b c d
  unfold unframe
  rw [if_neg hlong, hlength]
  rfl

/-- Four bytes at least are needed. -/
theorem exists_cons_of_unframe {bs : List UInt8} {buffer : Buffer} (h : unframe bs = .ok buffer) :
    ∃ a b c d rest, bs = a :: b :: c :: d :: rest := by
  by_cases hshort : bs.length < 4
  · unfold unframe at h
    rw [if_pos hshort] at h
    cases h
  · rcases bs with _ | ⟨a, _ | ⟨b, _ | ⟨c, _ | ⟨d, rest⟩⟩⟩⟩ <;> simp at hshort ⊢

/-- Exactly the frames can be taken apart. -/
theorem exists_unframe_iff {bs : List UInt8} : (∃ b, unframe bs = .ok b) ↔ Framed bs := by
  constructor
  · rintro ⟨buffer, h⟩
    rcases exists_cons_of_unframe h with ⟨a, b, c, d, rest, rfl⟩
    rw [unframe_cons] at h
    dsimp only at h
    split at h
    · cases h
    · rename_i hinside
      have htext : (decodeText (rest.take (twosComplement a b c d).toNat)).isSome = true := by
        split at h
        · cases h
        · rename_i tag htag
          rw [htag]
          rfl
      refine ⟨a, b, c, d, rest, rfl, by omega, by omega, ?_⟩
      rwa [← decodeText_isSome_iff_utf8]
  · rintro ⟨a, b, c, d, rest, rfl, hnonneg, hinside, htext⟩
    rcases Option.isSome_iff_exists.1 ((decodeText_isSome_iff_utf8 _).2 htext) with ⟨tag, htag⟩
    refine ⟨⟨tag, rest.drop (twosComplement a b c d).toNat, 0⟩, ?_⟩
    rw [unframe_cons]
    dsimp only
    rw [if_neg (by omega), htag]

/-- The tag of a frame has less than `2 ^ 31` bytes. -/
theorem length_tag_of_unframe {bs : List UInt8} {b : Buffer} (h : unframe bs = .ok b) :
    (encodeText b.tag).length < 0x80000000 := by
  rcases exists_unframe_iff.1 ⟨b, h⟩ with ⟨a₀, a₁, a₂, a₃, rest, rfl, hnonneg, hinside, -⟩
  have hfits : Fits (twosComplement a₀ a₁ a₂ a₃) := by
    rw [← decodeInt_eq_twosComplement]
    exact fits_decodeInt _
  rw [unframe_cons] at h
  dsimp only at h
  rw [if_neg (by omega)] at h
  split at h
  · cases h
  · rename_i tag htag
    cases h
    rw [encodeText_of_decodeText htag, List.length_take]
    unfold Fits at hfits
    omega

/-- Tags of less than `2 ^ 31` bytes with any payload, and the frames, determine each other;
everything else is reported as malformed. -/
theorem framing_bijective :
    (∀ b : Buffer, (encodeText b.tag).length < 0x80000000 →
      unframe b.frame = .ok { b with cursor := 0 }) ∧
    (∀ bs b, unframe bs = .ok b →
      b.frame = bs ∧ b.cursor = 0 ∧ (encodeText b.tag).length < 0x80000000) ∧
    (∀ bs, (∃ b, unframe bs = .ok b) ↔ Framed bs) ∧
    ∀ bs, ¬ Framed bs → ∃ cause, unframe bs = .error (.malformed cause) := by
  refine ⟨?_, ?_, fun bs => exists_unframe_iff, ?_⟩
  · intro b hlength
    refine unframe_frame ?_
    unfold Fits
    omega
  · intro bs b h
    exact ⟨(frame_of_unframe h).1, (frame_of_unframe h).2, length_tag_of_unframe h⟩
  · intro bs hbs
    cases h : unframe bs with
    | ok b => exact absurd (exists_unframe_iff.1 ⟨b, h⟩) hbs
    | error e =>
      rcases malformed_of_unframe h with ⟨cause, rfl⟩
      exact ⟨cause, rfl⟩

/-- A buffer whose tag has characters of one byte to four, read up to its second byte. -/
def manyWidths : Buffer := ⟨"xß語😀", [0xED, 0xA0, 0x80], 2⟩

/-- A frame of that tag is taken apart again, and bytes of a surrogate are no frame. -/
theorem framing_bijective_manyWidths :
    (encodeText manyWidths.tag).length = 10 ∧
      unframe manyWidths.frame = .ok { manyWidths with cursor := 0 } ∧
      { manyWidths with cursor := 0 }.frame = manyWidths.frame ∧
      ¬ Framed [3, 0, 0, 0, 0xED, 0xA0, 0x80] ∧
      ∃ cause, unframe [3, 0, 0, 0, 0xED, 0xA0, 0x80] = .error (.malformed cause) := by
  have hlength : (encodeText manyWidths.tag).length = 10 := by decide +kernel
  have htaken := framing_bijective.1 manyWidths (by rw [hlength]; decide)
  have hput := framing_bijective.2.1 _ _ htaken
  have hsurrogate : ¬ Framed [3, 0, 0, 0, 0xED, 0xA0, 0x80] := by
    rintro ⟨a, b, c, d, rest, heq, -, -, htext⟩
    cases heq
    exact absurd htext (by decide)
  exact ⟨hlength, htaken, hput.1, hsurrogate, framing_bijective.2.2.2 _ hsurrogate⟩

end Buffer

end BranchBound
