import Jvm.ClassFile.Basic
import Jvm.Numeric.Ieee
/-!
# Agreement of class files

Two pools, or two classes, agree when they hold the same values.  Floating-point constants are compared as numbers, not
as bits: a NaN agrees with nothing, itself included, and the two zeros agree.  Everything else has to be identical.
-/
namespace Jvm

namespace Constant

/-- Whether two constants hold the same value. -/
def agrees : Constant → Constant → Bool
  | float a, float b => Ieee.single.equal a.toNat b.toNat
  | double a, double b => Ieee.double.equal a.toNat b.toNat
  | a, b => a = b

end Constant

namespace ConstantPool

/-- Whether two slots hold the same value, or nothing both. -/
def slotAgrees : Option Constant → Option Constant → Bool
  | none, none => true
  | some a, some b => a.agrees b
  | _, _ => false

def slotsAgree : List (Option Constant) → List (Option Constant) → Bool
  | [], [] => true
  | a :: as, b :: bs => slotAgrees a b && slotsAgree as bs
  | _, _ => false

def agrees (a b : ConstantPool) : Bool := a.count = b.count && slotsAgree a.slots.toList b.slots.toList

end ConstantPool

namespace ClassFile

/-- Whether two classes agree: their pools do, and all else is identical. -/
def agrees (a b : ClassFile) : Bool := a.pool.agrees b.pool && { a with pool := b.pool } = b

end ClassFile

end Jvm
