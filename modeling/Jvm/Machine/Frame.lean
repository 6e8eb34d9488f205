import Jvm.ClassFile.Member
import Jvm.Instruction.CodeCursor
import Jvm.Machine.Storage
/-!
# Frames

The state of one method that is being executed.  An action on a frame may fail and **leaves the frame behind as far as
it got**: a value that was popped before the failure stays popped.
-/
namespace Jvm

@[ext] structure Frame where
  code : Array UInt8
  locals : LocalVariables
  stack : OperandStack
  /-- The pc of the instruction in execution. -/
  pc : Nat
  /-- The pc of the next instruction. -/
  nextPc : Nat
  deriving DecidableEq

namespace Frame

def ofCode (body : Code) : Frame where
  code := body.code
  locals := .ofSize body.maxLocals.toNat
  stack := .ofCapacity body.maxStack.toNat
  pc := 0
  nextPc := 0

/-- The frame of a method.  A method without a body is named in the error; if its name does not resolve, by its
index. -/
def ofMethod (pool : ConstantPool) (m : Member) : Except RuntimeError Frame :=
  match m.code? with
  | some body => .ok (ofCode body)
  | none =>
    match m.name pool with
    | .ok name => .error (.missingCode name)
    | .error _ => .error (.missingCode ("#" ++ toString m.nameIndex.toNat))

/-- Decodes the instruction that stands at the next pc.  The frame itself does not move. -/
def fetch (f : Frame) : Except RuntimeError Step :=
  match CodeReader.instruction ⟨f.code, f.nextPc⟩ with
  | .ok s _ => .ok s
  | .error e _ => .error e

/-- Records that an instruction was decoded: it is the one in execution, and the next one stands behind it. -/
def enter (f : Frame) (s : Step) : Frame := { f with pc := s.pc, nextPc := s.nextPc }

/-- How many bytes of code lie ahead. -/
def work (f : Frame) : Nat := f.code.size - f.nextPc

abbrev Action (α : Type) := EStateM RuntimeError Frame α

/-- Lets the next instruction be the one at `pc`, wherever that is. -/
def setNextPc (pc : Nat) : Action Unit := fun f => .ok () { f with nextPc := pc }

def push (v : Value) : Action Unit := fun f =>
  match f.stack.push? v with
  | some stack => .ok () { f with stack := stack }
  | none => .error (.stackOverflow f.pc) f

def pop : Action Value := fun f =>
  match f.stack.pop? with
  | some (v, stack) => .ok v { f with stack := stack }
  | none => .error (.stackUnderflow f.pc) f

def peek : Action Value := fun f =>
  match f.stack.peek? with
  | some v => .ok v f
  | none => .error (.stackUnderflow f.pc) f

def asInt (v : Value) : Action Int32 := fun f =>
  match v.int? with
  | some n => .ok n f
  | none => .error (.typeMismatch "int" f.pc) f

/-- Pops a number.  A value of another kind is popped too. -/
def popInt : Action Int32 := do
  let v ← pop
  asInt v

def noSuchLocal (f : Frame) (index : UInt16) : RuntimeError :=
  .localIndexOutOfRange index (UInt16.ofNat f.locals.size) f.pc

def load (index : UInt16) : Action Value := fun f =>
  match f.locals.get? index with
  | some v => .ok v f
  | none => .error (f.noSuchLocal index) f

def loadInt (index : UInt16) : Action Int32 := do
  let v ← load index
  asInt v

def store (index : UInt16) (v : Value) : Action Unit := fun f =>
  match f.locals.set? index v with
  | some locals => .ok () { f with locals := locals }
  | none => .error (f.noSuchLocal index) f

end Frame

end Jvm
