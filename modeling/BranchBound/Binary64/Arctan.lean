import BranchBound.Binary64.Bits

/-!
# The inverse tangent

The inverse tangent of a number is the one that the machine's floating-point library gives for its
bit pattern.  Nothing is assumed about its last bit; what is built from it depends on the number
alone.
-/

namespace BranchBound

namespace Binary64

/-- The inverse tangent, as the machine computes it on the pattern. -/
def arctan (x : Binary64) : Binary64 :=
  ofBits (Float.ofBits (UInt64.ofNat x.bits)).atan.toBits.toNat

end Binary64

end BranchBound
