import Jvm.Text.Hex
/-!
# What can go wrong in a run

Each error that an instruction meets carries the pc of that instruction.
-/
namespace Jvm

inductive RuntimeError where
  /-- The byte at `pc` is no known opcode. -/
  | unsupportedOpcode (opcode : UInt8) (pc : Nat)
  /-- An opcode or an operand was to be read at `pc`, where the code has ended. -/
  | unexpectedEndOfCode (pc : Nat)
  | stackOverflow (pc : Nat)
  | stackUnderflow (pc : Nat)
  /-- A local variable that the frame does not have. -/
  | localIndexOutOfRange (index maxLocals : UInt16) (pc : Nat)
  /-- A value of another kind than the instruction needs. -/
  | typeMismatch (expected : String) (pc : Nat)
  /-- A frame was pushed at the greatest depth that the thread allows. -/
  | callStackOverflow (depth : Nat)
  /-- The method to run has no body. -/
  | missingCode (method : String)
  /-- There is no frame to act on. -/
  | noActiveFrame
  deriving DecidableEq

namespace RuntimeError

def message : RuntimeError → String
  | unsupportedOpcode opcode pc => "unsupported opcode 0x" ++ Hex.text 2 opcode.toNat ++ s!" at pc {pc}"
  | unexpectedEndOfCode pc => s!"unexpected end of code at pc {pc}"
  | stackOverflow pc => s!"operand stack overflow at pc {pc}"
  | stackUnderflow pc => s!"operand stack underflow at pc {pc}"
  | localIndexOutOfRange index maxLocals pc =>
    s!"local variable {index} out of range (max_locals {maxLocals}) at pc {pc}"
  | typeMismatch expected pc => s!"expected {expected} at pc {pc}"
  | callStackOverflow depth => s!"call stack overflow at depth {depth}"
  | missingCode method => s!"method {method} has no code"
  | noActiveFrame => "no active frame"

end RuntimeError

end Jvm
