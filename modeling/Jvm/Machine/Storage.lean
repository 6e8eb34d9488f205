import Jvm.Machine.Value
/-!
# Operand stacks and local variables

The two stores of a frame.  Both have a fixed size: a stack refuses what goes beyond its capacity, and local variables
are there from the start, holding null.
-/
namespace Jvm

/-- A stack of values with a bound on its depth. -/
@[ext] structure OperandStack where
  capacity : Nat
  /-- The values, from bottom to top. -/
  slots : Array Value
  deriving DecidableEq

namespace OperandStack

def ofCapacity (capacity : Nat) : OperandStack := ⟨capacity, #[]⟩

def depth (s : OperandStack) : Nat := s.slots.size

def isFull (s : OperandStack) : Bool := s.capacity ≤ s.depth

/-- Puts a value on top; nothing if the stack is full. -/
@[inline] def push? (s : OperandStack) (v : Value) : Option OperandStack :=
  if s.isFull then none else some { s with slots := s.slots.push v }

def peek? (s : OperandStack) : Option Value := s.slots.back?

/-- Takes the top value off; nothing if there is none. -/
@[inline] def pop? (s : OperandStack) : Option (Value × OperandStack) :=
  match s.slots.back? with
  | none => none
  | some v => some (v, { s with slots := s.slots.pop })

def text (s : OperandStack) : String := Value.rowText s.slots

end OperandStack

@[ext] structure LocalVariables where
  slots : Array Value
  deriving DecidableEq

namespace LocalVariables

/-- A number of local variables that hold null. -/
def ofSize (size : Nat) : LocalVariables := ⟨Array.replicate size .null⟩

def size (l : LocalVariables) : Nat := l.slots.size

def isEmpty (l : LocalVariables) : Bool := l.slots.isEmpty

def get? (l : LocalVariables) (index : UInt16) : Option Value := l.slots[index.toNat]?

/-- Replaces the value at an index; nothing if there is no such variable. -/
@[inline] def set? (l : LocalVariables) (index : UInt16) (v : Value) : Option LocalVariables :=
  if index.toNat < l.size then some { l with slots := l.slots.setIfInBounds index.toNat v } else none

def text (l : LocalVariables) : String := Value.rowText l.slots

end LocalVariables

end Jvm
