import BranchBound.Binary64.Basic

/-!
# The bit pattern of a double

A double is written as 64 bits: the sign, then the place of the magnitude.  The infinities stand
on the place just past the finite ones, and every pattern further up is read as the one `nan`,
which is written with the leading bit of its significand set.

Main results:

- `Binary64.ofBits_bits`: the pattern of a number reads back as that number.
- `Binary64.bits_lt`: a pattern has 64 bits.
-/

namespace BranchBound

namespace Binary64

/-- The weight of the sign bit. -/
def signBit : Nat := 0x8000000000000000

/-- The pattern written for `nan`. -/
def nanBits : Nat := 0x7ff8000000000000

/-- The 64 bits of a number. -/
def bits : Binary64 → Nat
  | nan => nanBits
  | infinity negative => negative.toNat * signBit + placeCount
  | finite negative place => negative.toNat * signBit + place

/-- The number that a pattern of 64 bits stands for. -/
def ofBits (pattern : Nat) : Binary64 :=
  let negative := decide (signBit ≤ pattern)
  let place := pattern % signBit
  if placeCount < place then nan else ofPlace negative place

theorem placeCount_lt_signBit : placeCount < signBit := by decide

/-- The sign and the place of a pattern are read apart. -/
theorem ofBits_sign_add {negative : Bool} {place : Nat} (h : place < signBit) :
    ofBits (negative.toNat * signBit + place) =
      if placeCount < place then nan else ofPlace negative place := by
  cases negative with
  | false => simp [ofBits, Nat.mod_eq_of_lt h, Nat.not_le_of_lt h]
  | true => simp [ofBits, Nat.mod_eq_of_lt h]

/-- The pattern of a number reads back as that number. -/
@[simp] theorem ofBits_bits (x : Binary64) : ofBits x.bits = x := by
  cases x with
  | nan => decide
  | infinity s => rw [bits, ofBits_sign_add placeCount_lt_signBit]; simp [ofPlace]
  | finite s k =>
    rw [bits, ofBits_sign_add (Nat.lt_trans k.isLt placeCount_lt_signBit)]
    simp [ofPlace, k.isLt, Nat.not_lt_of_lt k.isLt]

/-- A pattern has 64 bits. -/
theorem bits_lt (x : Binary64) : x.bits < 2 * signBit := by
  cases x with
  | nan => decide
  | infinity s => cases s <;> decide
  | finite s k =>
    have hk : k.val < 9218868437227405312 := k.isLt
    cases s <;> simp [bits, signBit] <;> omega

/-- Two numbers of one pattern are equal. -/
theorem bits_injective {x y : Binary64} (h : x.bits = y.bits) : x = y := by
  rw [← ofBits_bits x, h, ofBits_bits]

end Binary64

end BranchBound
