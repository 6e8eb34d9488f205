import Jvm.Instruction.Basic
import Jvm.Machine.Error
/-!
# Reading instructions

A code cursor stands at a pc of a method's code.  Like every reader it leaves a cursor behind also when it fails: a byte
that was read stays read.
-/
namespace Jvm

@[ext] structure CodeCursor where
  code : Array UInt8
  /-- The pc of the next byte. -/
  pc : Nat
  deriving DecidableEq

/-- A reader of values of type `α` from code. -/
abbrev CodeReader (α : Type) := EStateM RuntimeError CodeCursor α

namespace CodeReader

def byte : CodeReader UInt8 := fun c =>
  match c.code[c.pc]? with
  | some b => .ok b { c with pc := c.pc + 1 }
  | none => .error (.unexpectedEndOfCode c.pc) c

def signedByte : CodeReader Int8 := do return (← byte).toInt8

/-- The next two bytes as a signed number: a signed high byte, then an unsigned low byte. -/
def signedPair : CodeReader Int16 := do
  let high ← signedByte
  let low ← byte
  return Int16.ofInt (high.toInt * 256 + low.toNat)

end CodeReader

namespace Instruction

/-- Reads the operand that follows the opcode into the instruction.  Only an instruction of the opcode's own kind takes
an operand; with any other nothing is read and nothing changes. -/
def readOperand : Opcode → Instruction → CodeReader Instruction
  | .bipush, push .bipush _ => do return push .bipush (← CodeReader.signedByte).toInt32
  | .sipush, push .sipush _ => do return push .sipush (← CodeReader.signedPair).toInt32
  | .iload, iload _ => do return iload (← CodeReader.byte).toUInt16
  | .istore, istore _ => do return istore (← CodeReader.byte).toUInt16
  | _, i => pure i

def reader (op : Opcode) : CodeReader Instruction := readOperand op (ofOpcode op)

end Instruction

/-- A decoded instruction and its place in the code. -/
structure Step where
  /-- The pc of its opcode. -/
  pc : Nat
  opcode : Opcode
  instruction : Instruction
  /-- The pc behind it. -/
  nextPc : Nat
  deriving DecidableEq

/-- The next instruction: its opcode, the operand that belongs to it, and the pcs in front of it and behind it. -/
def CodeReader.instruction : CodeReader Step := fun c =>
  match byte c with
  | .error e c => .error e c
  | .ok b d =>
    match Opcode.ofByte? b with
    | none => .error (.unsupportedOpcode b c.pc) d
    | some opcode =>
      match Instruction.reader opcode d with
      | .error e d => .error e d
      | .ok i d => .ok ⟨c.pc, opcode, i, d.pc⟩ d

end Jvm
