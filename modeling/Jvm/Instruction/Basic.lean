import Jvm.Instruction.Opcode
/-!
# Instructions

An instruction is an operation with its operand.  Short and long forms of loading and storing become the same
instruction; the three ways of pushing a number stay apart in what they are called, not in what they do.
-/
namespace Jvm

/-- How an instruction that pushes a number came by it. -/
inductive PushForm where
  /-- The opcode names the number. -/
  | iconst
  /-- A signed byte follows the opcode. -/
  | bipush
  /-- A signed number of two bytes follows the opcode. -/
  | sipush
  deriving DecidableEq

namespace PushForm

def name : PushForm → String
  | iconst => "iconst"
  | bipush => "bipush"
  | sipush => "sipush"

end PushForm

inductive IntOp where
  | add
  | sub
  | mul
  deriving DecidableEq

namespace IntOp

/-- The result, in two's complement of 32 bits. -/
def apply : IntOp → Int32 → Int32 → Int32
  | add, a, b => a + b
  | sub, a, b => a - b
  | mul, a, b => a * b

def name : IntOp → String
  | add => "iadd"
  | sub => "isub"
  | mul => "imul"

end IntOp

inductive Instruction where
  | nop
  | aconstNull
  | push (form : PushForm) (value : Int32)
  /-- Pushes the number in a local variable. -/
  | iload (index : UInt16)
  /-- Pops a number into a local variable. -/
  | istore (index : UInt16)
  | pop
  /-- Pushes the top value once more. -/
  | dup
  /-- Pops two numbers, the right one first, and pushes the result. -/
  | arith (op : IntOp)
  | ret
  deriving DecidableEq

namespace Instruction

/-- The instruction of an opcode.  An operand that follows the opcode is zero until it is fetched. -/
def ofOpcode : Opcode → Instruction
  | .nop => nop
  | .aconstNull => aconstNull
  | .iconst k => push .iconst (Int32.ofInt ((k.val : Int) - 1))
  | .bipush => push .bipush 0
  | .sipush => push .sipush 0
  | .iload => iload 0
  | .iloadShort k => iload (UInt16.ofNat k.val)
  | .istore => istore 0
  | .istoreShort k => istore (UInt16.ofNat k.val)
  | .pop => pop
  | .dup => dup
  | .iadd => arith .add
  | .isub => arith .sub
  | .imul => arith .mul
  | .ret => ret

/-- The instruction as text: its name, and its operand if it has one. -/
def text : Instruction → String
  | nop => "nop"
  | aconstNull => "aconst_null"
  | push form value => form.name ++ " " ++ toString value.toInt
  | iload index => "iload " ++ toString index.toNat
  | istore index => "istore " ++ toString index.toNat
  | pop => "pop"
  | dup => "dup"
  | arith op => op.name
  | ret => "return"

end Instruction

end Jvm
