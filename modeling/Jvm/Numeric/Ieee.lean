/-!
# IEEE 754 equality on bit patterns

Floating-point constants are kept as their bits, so that the payload of a NaN is never lost.  Comparing two of them
is a rule on the bits: a NaN equals nothing, the two zeros equal each other, and otherwise equal means the same bits.
-/
namespace Jvm
namespace Ieee

/-- The fields of a binary interchange format below its sign bit, by the number of values that each can take. -/
structure Format where
  exponents : Nat
  fractions : Nat

/-- The 32-bit format: eight bits of exponent and twenty-three of fraction. -/
def single : Format := ⟨0x100, 0x800000⟩

/-- The 64-bit format: eleven bits of exponent and fifty-two of fraction. -/
def double : Format := ⟨0x800, 0x10000000000000⟩

namespace Format

def exponent (f : Format) (bits : Nat) : Nat := bits / f.fractions % f.exponents

def fraction (f : Format) (bits : Nat) : Nat := bits % f.fractions

/-- Whether a bit pattern is a NaN: the exponent is the greatest one and the fraction is not zero. -/
def isNaN (f : Format) (bits : Nat) : Bool :=
  f.exponent bits + 1 = f.exponents && f.fraction bits ≠ 0

def isZero (f : Format) (bits : Nat) : Bool := f.exponent bits = 0 && f.fraction bits = 0

/-- Equality of the numbers that two bit patterns stand for. -/
def equal (f : Format) (a b : Nat) : Bool :=
  !f.isNaN a && !f.isNaN b && (a = b || f.isZero a && f.isZero b)

end Format

end Ieee
end Jvm
