import BranchBound.Binary64.Bits

/-!
# Words on the wire

Numbers are sent with their least byte first: integers as four bytes in two's complement, doubles
as the eight bytes of their bit pattern.

Main results:

- `Wire.ofLittleEndian_littleEndian` and `Wire.littleEndian_ofLittleEndian`: bytes and numbers
  determine each other.
- `Wire.decodeInt_encodeInt` and `Wire.encodeInt_decodeInt`: an integer of 32 bits is read back,
  and four bytes are the encoding of the integer that they are read as.
- `Wire.decodeReal_encodeReal`: a double is read back.
-/

namespace BranchBound

namespace Wire

/-- The bytes of a number of the given width, the least byte first. -/
def littleEndian : (width n : Nat) → List UInt8
  | 0, _ => []
  | width + 1, n => UInt8.ofNat n :: littleEndian width (n / 256)

/-- The number that bytes stand for, the least byte first. -/
def ofLittleEndian : List UInt8 → Nat
  | [] => 0
  | b :: bs => b.toNat + 256 * ofLittleEndian bs

@[simp] theorem length_littleEndian (width n : Nat) : (littleEndian width n).length = width := by
  induction width generalizing n with
  | zero => rfl
  | succ width ih => simp [littleEndian, ih]

/-- A number that fits is read back. -/
theorem ofLittleEndian_littleEndian {width n : Nat} (h : n < Nat.pow 256 width) :
    ofLittleEndian (littleEndian width n) = n := by
  induction width generalizing n with
  | zero =>
    have : n = 0 := by simpa using h
    simp [littleEndian, ofLittleEndian, this]
  | succ width ih =>
    have hq : n / 256 < Nat.pow 256 width := by
      rw [Nat.div_lt_iff_lt_mul (by decide)]
      exact h
    rw [littleEndian, ofLittleEndian, ih hq]
    simp only [UInt8.toNat_ofNat']
    omega

/-- Bytes are the encoding of the number that they are read as. -/
theorem littleEndian_ofLittleEndian (bs : List UInt8) :
    littleEndian bs.length (ofLittleEndian bs) = bs := by
  induction bs with
  | nil => rfl
  | cons b bs ih =>
    have hb : b.toNat < 256 := b.toNat_lt
    have hq : (b.toNat + 256 * ofLittleEndian bs) / 256 = ofLittleEndian bs := by omega
    have hr : UInt8.ofNat (b.toNat + 256 * ofLittleEndian bs) = b := by
      apply UInt8.toNat_inj.1
      simp only [UInt8.toNat_ofNat']
      omega
    simp [littleEndian, ofLittleEndian, hq, hr, ih]

/-- The number of some bytes fits their width. -/
theorem ofLittleEndian_lt (bs : List UInt8) : ofLittleEndian bs < Nat.pow 256 bs.length := by
  induction bs with
  | nil => decide
  | cons b bs ih =>
    have hb : b.toNat < 256 := b.toNat_lt
    have hpow : Nat.pow 256 (bs.length + 1) = Nat.pow 256 bs.length * 256 := rfl
    rw [ofLittleEndian, List.length_cons, hpow]
    omega

/-! ## Integers -/

/-- How many integers have 32 bits. -/
def intModulus : Nat := 0x100000000

/-- Whether an integer has 32 bits. -/
def Fits (n : Int) : Prop := -0x80000000 ≤ n ∧ n < 0x80000000

instance (n : Int) : Decidable (Fits n) := inferInstanceAs (Decidable (_ ∧ _))

/-- The four bytes of an integer, taken modulo `2 ^ 32`. -/
def encodeInt (n : Int) : List UInt8 := littleEndian 4 (n % intModulus).toNat

/-- The integer that four bytes stand for. -/
def decodeInt (bs : List UInt8) : Int := (ofLittleEndian bs : Int).bmod intModulus

@[simp] theorem length_encodeInt (n : Int) : (encodeInt n).length = 4 :=
  length_littleEndian 4 _

/-- An integer is read back modulo `2 ^ 32`, from the range around zero. -/
theorem decodeInt_encodeInt_eq_bmod (n : Int) :
    decodeInt (encodeInt n) = n.bmod intModulus := by
  have h0 : (0 : Int) ≤ n % intModulus := Int.emod_nonneg _ (by decide)
  have h1 : n % intModulus < intModulus := Int.emod_lt_of_pos _ (by decide)
  have hlt : (n % intModulus).toNat < Nat.pow 256 4 := by
    have : Nat.pow 256 4 = intModulus := by decide
    omega
  rw [decodeInt, encodeInt, ofLittleEndian_littleEndian hlt, Int.toNat_of_nonneg h0,
    Int.emod_bmod]

/-- An integer of 32 bits stays as it is modulo `2 ^ 32`. -/
theorem bmod_of_fits {n : Int} (h : Fits n) : n.bmod intModulus = n := by
  unfold Fits at h
  apply Int.bmod_eq_of_le <;> simp [intModulus] <;> omega

/-- An integer of 32 bits is read back. -/
theorem decodeInt_encodeInt {n : Int} (h : Fits n) : decodeInt (encodeInt n) = n :=
  (decodeInt_encodeInt_eq_bmod n).trans (bmod_of_fits h)

/-- An integer taken modulo `2 ^ 32` has 32 bits. -/
theorem fits_bmod (n : Int) : Fits (n.bmod intModulus) := by
  have h0 := Int.le_bmod (x := n) (m := intModulus) (by decide)
  have h1 := Int.bmod_lt (x := n) (m := intModulus) (by decide)
  unfold Fits
  simp only [intModulus] at h0 h1 ⊢
  omega

/-- What four bytes are read as has 32 bits. -/
theorem fits_decodeInt (bs : List UInt8) : Fits (decodeInt bs) := fits_bmod _

/-- Four bytes are the encoding of the integer that they are read as. -/
theorem encodeInt_decodeInt {bs : List UInt8} (h : bs.length = 4) :
    encodeInt (decodeInt bs) = bs := by
  have hlt : ofLittleEndian bs < intModulus := by
    have := ofLittleEndian_lt bs
    rw [h] at this
    exact this
  have hmod : ((ofLittleEndian bs : Int).bmod intModulus) % intModulus = ofLittleEndian bs := by
    rw [Int.bmod_emod]
    exact Int.emod_eq_of_lt (by omega) (by exact_mod_cast hlt)
  rw [encodeInt, decodeInt, hmod, Int.toNat_natCast, ← h]
  exact littleEndian_ofLittleEndian bs

/-! ## Doubles -/

/-- The eight bytes of a double. -/
def encodeReal (x : Binary64) : List UInt8 := littleEndian 8 x.bits

/-- The double that eight bytes stand for. -/
def decodeReal (bs : List UInt8) : Binary64 := .ofBits (ofLittleEndian bs)

@[simp] theorem length_encodeReal (x : Binary64) : (encodeReal x).length = 8 :=
  length_littleEndian 8 _

/-- A double is read back. -/
@[simp] theorem decodeReal_encodeReal (x : Binary64) : decodeReal (encodeReal x) = x := by
  have : x.bits < Nat.pow 256 8 := Nat.lt_of_lt_of_eq x.bits_lt (by decide)
  rw [decodeReal, encodeReal, ofLittleEndian_littleEndian this, Binary64.ofBits_bits]

end Wire

end BranchBound
