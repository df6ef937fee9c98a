import BranchBound.Wire.Text

/-!
# Well-formed text

Which bytes are a text can be told from their values alone.  A character takes one byte to four,
and its first byte says how many; every other byte of it lies between `80` and `BF`.  Three kinds of
groups have that form and are none the less no characters: a group that stands for a code point
that fits into fewer bytes, one that stands for a surrogate, and one that stands for a number past
the last code point.

Main results:

- Theorem `Wire.utf8Char_iff`: a group of bytes is a character exactly if some character has these
  bytes.
- Theorem `Wire.decodeText_isSome_iff_utf8`: exactly the sequences of such groups are read as a
  text.
-/

namespace BranchBound

namespace Wire

/-- Whether a byte can go on with a character that another one began. -/
def Continues (b : UInt8) : Prop := 0x80 ≤ b.toNat ∧ b.toNat ≤ 0xBF

/-- Whether bytes are one character. -/
inductive Utf8Char : List UInt8 → Prop where
  /-- A code point of seven bits is its own byte. -/
  | one {a : UInt8} (first : a.toNat ≤ 0x7F) : Utf8Char [a]
  /-- Two bytes.  The first bytes `C0` and `C1` would leave no more than seven bits. -/
  | two {a b : UInt8} (first : 0xC2 ≤ a.toNat ∧ a.toNat ≤ 0xDF) (second : Continues b) :
    Utf8Char [a, b]
  /-- Three bytes.  After `E0` a small second byte would leave no more than eleven bits, and after
  `ED` a great one would make a surrogate. -/
  | three {a b c : UInt8} (first : 0xE0 ≤ a.toNat ∧ a.toNat ≤ 0xEF) (second : Continues b)
    (third : Continues c) (long : a.toNat = 0xE0 → 0xA0 ≤ b.toNat)
    (scalar : a.toNat = 0xED → b.toNat ≤ 0x9F) : Utf8Char [a, b, c]
  /-- Four bytes.  After `F0` a small second byte would leave no more than sixteen bits, and after
  `F4` a great one would go past the last code point. -/
  | four {a b c d : UInt8} (first : 0xF0 ≤ a.toNat ∧ a.toNat ≤ 0xF4) (second : Continues b)
    (third : Continues c) (fourth : Continues d) (long : a.toNat = 0xF0 → 0x90 ≤ b.toNat)
    (scalar : a.toNat = 0xF4 → b.toNat ≤ 0x8F) : Utf8Char [a, b, c, d]

/-- Whether bytes are characters, one after another. -/
inductive Utf8 : List UInt8 → Prop where
  /-- No bytes are no characters. -/
  | nil : Utf8 []
  /-- A character and those after it. -/
  | cons {group rest : List UInt8} (first : Utf8Char group) (others : Utf8 rest) :
    Utf8 (group ++ rest)

/-! ## Characters -/

/-- The code point of a character is a scalar value. -/
theorem scalar_toNat (c : Char) :
    c.val.toNat < 0xD800 ∨ 0xDFFF < c.val.toNat ∧ c.val.toNat < 0x110000 := c.valid

/-- Every scalar value is the code point of a character. -/
theorem exists_char {v : Nat} (h : v < 0xD800 ∨ 0xDFFF < v ∧ v < 0x110000) :
    ∃ c : Char, c.val.toNat = v :=
  ⟨Char.ofNatAux v h, rfl⟩

/-- The bytes of a character are well formed. -/
theorem utf8Char_utf8EncodeChar (c : Char) : Utf8Char (String.utf8EncodeChar c) := by
  have hscalar := scalar_toNat c
  unfold String.utf8EncodeChar
  generalize c.val.toNat = v at hscalar ⊢
  dsimp only
  split
  · exact .one (by rw [UInt8.toNat_ofNat']; omega)
  · split
    · refine .two ?_ ?_ <;> simp only [Continues, UInt8.toNat_ofNat'] <;> omega
    · split
      · refine .three ?_ ?_ ?_ ?_ ?_ <;> simp only [Continues, UInt8.toNat_ofNat'] <;> omega
      · refine .four ?_ ?_ ?_ ?_ ?_ ?_ <;> simp only [Continues, UInt8.toNat_ofNat'] <;> omega

/-- Well-formed bytes are those of a character. -/
theorem Utf8Char.exists_char {bs : List UInt8} (h : Utf8Char bs) :
    ∃ c : Char, String.utf8EncodeChar c = bs := by
  cases h with
  | @one a first =>
    rcases Wire.exists_char (v := a.toNat) (by omega) with ⟨c, hc⟩
    refine ⟨c, ?_⟩
    simp [String.utf8EncodeChar, hc, first]
  | @two a b first second =>
    unfold Continues at second
    rcases Wire.exists_char (v := (a.toNat - 0xC0) * 64 + (b.toNat - 0x80)) (by omega) with ⟨c, hc⟩
    refine ⟨c, ?_⟩
    unfold String.utf8EncodeChar
    rw [hc]
    dsimp only
    rw [if_neg (by omega), if_pos (by omega)]
    simp only [List.cons.injEq, ← UInt8.toNat_inj, UInt8.toNat_ofNat', and_true]
    omega
  | @three a b c first second third long scalar =>
    unfold Continues at second third
    rcases Wire.exists_char
      (v := (a.toNat - 0xE0) * 4096 + (b.toNat - 0x80) * 64 + (c.toNat - 0x80)) (by omega)
      with ⟨x, hx⟩
    refine ⟨x, ?_⟩
    unfold String.utf8EncodeChar
    rw [hx]
    dsimp only
    rw [if_neg (by omega), if_neg (by omega), if_pos (by omega)]
    simp only [List.cons.injEq, ← UInt8.toNat_inj, UInt8.toNat_ofNat', and_true]
    omega
  | @four a b c d first second third fourth long scalar =>
    unfold Continues at second third fourth
    rcases Wire.exists_char (v := (a.toNat - 0xF0) * 262144 + (b.toNat - 0x80) * 4096 +
      (c.toNat - 0x80) * 64 + (d.toNat - 0x80)) (by omega) with ⟨x, hx⟩
    refine ⟨x, ?_⟩
    unfold String.utf8EncodeChar
    rw [hx]
    dsimp only
    rw [if_neg (by omega), if_neg (by omega), if_neg (by omega)]
    simp only [List.cons.injEq, ← UInt8.toNat_inj, UInt8.toNat_ofNat', and_true]
    omega

/-- Bytes are a character exactly if some character has these bytes. -/
theorem utf8Char_iff {bs : List UInt8} :
    Utf8Char bs ↔ ∃ c : Char, String.utf8EncodeChar c = bs := by
  constructor
  · exact Utf8Char.exists_char
  · rintro ⟨c, rfl⟩
    exact utf8Char_utf8EncodeChar c

/-! ## Texts -/

/-- Bytes are well formed exactly if some characters encode to them. -/
theorem utf8_iff {bs : List UInt8} :
    Utf8 bs ↔ ∃ cs : List Char, bs = cs.flatMap String.utf8EncodeChar := by
  constructor
  · intro h
    induction h with
    | nil => exact ⟨[], rfl⟩
    | cons first _ ih =>
      rcases first.exists_char with ⟨c, rfl⟩
      rcases ih with ⟨cs, rfl⟩
      exact ⟨c :: cs, List.flatMap_cons.symm⟩
  · rintro ⟨cs, rfl⟩
    induction cs with
    | nil => exact .nil
    | cons c cs ih =>
      rw [List.flatMap_cons]
      exact .cons (utf8Char_utf8EncodeChar c) ih

/-- Exactly the well-formed bytes are read as a text. -/
theorem decodeText_isSome_iff_utf8 (bs : List UInt8) :
    (decodeText bs).isSome = true ↔ Utf8 bs := by
  rw [decodeText_isSome_iff, utf8_iff]
  simp only [List.utf8Encode, List.toList_data_toByteArray]

instance : DecidablePred Utf8 := fun bs => decidable_of_iff _ (decodeText_isSome_iff_utf8 bs)

-- An overlong form, a surrogate, and the number after the last code point.
example : ¬ Utf8 [0xC0, 0x80] ∧ ¬ Utf8 [0xED, 0xA0, 0x80] ∧ ¬ Utf8 [0xF4, 0x90, 0x80, 0x80] := by
  decide

end Wire

end BranchBound
