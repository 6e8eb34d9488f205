/-!
# Opcodes

The operations that the machine knows.  Some come in a short form, in which the opcode itself names a constant or a
local variable: `iconst k` stands for the seven opcodes that push `k - 1`, and `iloadShort k` and `istoreShort k` for
the four that name the local variable `k`.
-/
namespace Jvm

inductive Opcode where
  | nop
  | aconstNull
  | iconst (k : Fin 7)
  | bipush
  | sipush
  | iload
  | iloadShort (k : Fin 4)
  | istore
  | istoreShort (k : Fin 4)
  | pop
  | dup
  | iadd
  | isub
  | imul
  | ret
  deriving DecidableEq

namespace Opcode

/-- Every opcode, by increasing byte. -/
def all : List Opcode :=
  [nop, aconstNull, iconst 0, iconst 1, iconst 2, iconst 3, iconst 4, iconst 5, iconst 6, bipush, sipush, iload,
    iloadShort 0, iloadShort 1, iloadShort 2, iloadShort 3, istore, istoreShort 0, istoreShort 1, istoreShort 2,
    istoreShort 3, pop, dup, iadd, isub, imul, ret]

def toByte : Opcode → UInt8
  | nop => 0x00
  | aconstNull => 0x01
  | iconst k => 0x02 + UInt8.ofNat k.val
  | bipush => 0x10
  | sipush => 0x11
  | iload => 0x15
  | iloadShort k => 0x1A + UInt8.ofNat k.val
  | istore => 0x36
  | istoreShort k => 0x3B + UInt8.ofNat k.val
  | pop => 0x57
  | dup => 0x59
  | iadd => 0x60
  | isub => 0x64
  | imul => 0x68
  | ret => 0xB1

def ofByte? (b : UInt8) : Option Opcode := all.find? fun op => op.toByte = b

def mnemonic : Opcode → String
  | nop => "nop"
  | aconstNull => "aconst_null"
  | iconst 0 => "iconst_m1"
  | iconst k => "iconst_" ++ toString (k.val - 1)
  | bipush => "bipush"
  | sipush => "sipush"
  | iload => "iload"
  | iloadShort k => "iload_" ++ toString k.val
  | istore => "istore"
  | istoreShort k => "istore_" ++ toString k.val
  | pop => "pop"
  | dup => "dup"
  | iadd => "iadd"
  | isub => "isub"
  | imul => "imul"
  | ret => "return"

/-- **The byte of an opcode stands for that opcode.** -/
@[simp] theorem ofByte?_toByte (op : Opcode) : ofByte? op.toByte = some op := by
  rcases op with _ | _ | k | _ | _ | _ | k | _ | k | _ | _ | _ | _ | _ | _ <;> (try revert k) <;> decide

end Opcode

end Jvm
