/-!
# Double-precision numbers as property values

Numeric properties are carried through unread: the mount core never computes with them, it only
asks whether a value differs from the one last sent. A number is therefore kept as its 64 bits,
with the comparison of the IEEE 754 standard: a NaN differs from every number, itself included,
and the two zeros agree.
-/

namespace ShadowMount

/-- A double-precision number, given by its interchange encoding. -/
structure Binary64 where
  /-- Sign, eleven exponent bits and fifty-two fraction bits. -/
  bits : UInt64
  deriving DecidableEq, Inhabited

namespace Binary64

/-- The encoding without the sign bit. -/
def magnitude (a : Binary64) : UInt64 := a.bits &&& 0x7FFFFFFFFFFFFFFF

/-- Not a number: the exponent bits are all ones and the fraction is not zero. -/
def isNaN (a : Binary64) : Bool := decide (0x7FF0000000000000 < a.magnitude)

/-- One of the two zeros. -/
def isZero (a : Binary64) : Bool := a.magnitude == 0

/-- Numeric equality. -/
def same (a b : Binary64) : Bool :=
  !a.isNaN && !b.isNaN && (a.bits == b.bits || (a.isZero && b.isZero))

/-- Exactly the NaNs differ from themselves. -/
theorem same_self (a : Binary64) : a.same a = !a.isNaN := by
  simp [same]

end Binary64

end ShadowMount
