/-!
# Text on the wire

A text is sent as its UTF-8 bytes.  Bytes are a text only if they are the UTF-8 bytes of some
sequence of Unicode scalar values: overlong forms, surrogates and values past the last code point
are refused.

Main results:

- `Wire.decodeText_encodeText` and `Wire.encodeText_of_decodeText`: bytes and texts determine
  each other.
- `Wire.decodeText_isSome_iff`: bytes are a text exactly when some characters encode to them.
-/

namespace BranchBound

namespace Wire

/-- The bytes of a text. -/
def encodeText (s : String) : List UInt8 := s.toByteArray.data.toList

/-- The text of some bytes. -/
def decodeText (bs : List UInt8) : Option String := String.fromUTF8? bs.toByteArray

private theorem toByteArray_toList (b : ByteArray) : b.data.toList.toByteArray = b := by
  apply ByteArray.ext
  simp [List.data_toByteArray]

/-- A text is read back. -/
@[simp] theorem decodeText_encodeText (s : String) : decodeText (encodeText s) = some s := by
  simp [decodeText, encodeText, toByteArray_toList, String.fromUTF8?, s.isValidUTF8,
    String.fromUTF8]

/-- Bytes that are read as a text are the bytes of that text. -/
theorem encodeText_of_decodeText {bs : List UInt8} {s : String} (h : decodeText bs = some s) :
    encodeText s = bs := by
  unfold decodeText String.fromUTF8? at h
  split at h
  · cases h
    simp [encodeText, String.fromUTF8]
  · cases h

/-- Bytes are a text exactly when some characters encode to them. -/
theorem decodeText_isSome_iff (bs : List UInt8) :
    (decodeText bs).isSome = true ↔ ∃ cs : List Char, bs = cs.utf8Encode.data.toList := by
  constructor
  · intro h
    obtain ⟨s, hs⟩ := Option.isSome_iff_exists.1 h
    obtain ⟨cs, hcs⟩ := s.isValidUTF8
    exact ⟨cs, by rw [← encodeText_of_decodeText hs, encodeText, hcs]⟩
  · rintro ⟨cs, rfl⟩
    have valid : cs.utf8Encode.IsValidUTF8 := ⟨cs, rfl⟩
    simp [decodeText, toByteArray_toList, String.fromUTF8?, valid]

end Wire

end BranchBound
