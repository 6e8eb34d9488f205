import Jvm.Constant.Resolve
/-!
# Attributes

An attribute is a named window of bytes.  Only the window of a `Code` attribute is looked into; any other is passed over
as it is, and reported.  The body of a `Code` attribute ends in a list of attributes of its own, which are decoded like
all others, so that their faults are found, and then dropped.

**Nesting is bounded by length.**  In front of a nested window stand the ten fixed bytes of the enclosing body, the two
bytes of the count and the six bytes of the nested attribute's own head.  So a window inside another is at least
eighteen bytes shorter, and in a window of `n` bytes there is room for `n / 18 + 1` levels at most.
-/
namespace Jvm

structure ExceptionHandler where
  /-- First pc that the row covers. -/
  startPc : UInt16
  /-- First pc that it no longer covers. -/
  endPc : UInt16
  handlerPc : UInt16
  catchType : UInt16
  deriving DecidableEq

structure Code where
  maxStack : UInt16
  maxLocals : UInt16
  code : Array UInt8
  handlers : List ExceptionHandler
  deriving DecidableEq

inductive Attribute where
  | code (body : Code)
  | skipped (name : String) (length : UInt32)
  deriving DecidableEq

namespace ExceptionHandler

def decoder : Decoder ExceptionHandler := do
  return ⟨← Decoder.u2, ← Decoder.u2, ← Decoder.u2, ← Decoder.u2⟩

end ExceptionHandler

namespace Code

/-- Reads the body of a method; `nested` reads the attributes that it ends with. -/
def decoder (nested : Decoder (List Attribute)) : Decoder Code := do
  let maxStack ← Decoder.u2
  let maxLocals ← Decoder.u2
  let length ← Decoder.u4
  let code ← Decoder.bytes length.toNat
  let handlers ← Decoder.counted ExceptionHandler.decoder
  let _ ← nested
  return ⟨maxStack, maxLocals, code.toArray, handlers⟩

end Code

namespace Attribute

def codeName : String := "Code"

def name : Attribute → String
  | code _ => codeName
  | skipped name _ => name

def code? : Attribute → Option Code
  | code body => some body
  | skipped _ _ => none

/-- Reads a method body in a window of the declared length, which it has to fill. -/
def codeIn (length : UInt32) (nested : Decoder (List Attribute)) : Decoder Attribute := do
  let window ← Decoder.window length.toNat
  let (body, rest) ← Decoder.inside window (Code.decoder nested)
  if rest.isEmpty then return .code body
  else throw (.attributeLengthMismatch codeName length (length.toNat - rest.remaining))

/-- Passes over a window of the declared length, and reports it. -/
def skip (name : String) (length : UInt32) : Decoder Attribute := do
  let window ← Decoder.window length.toNat
  Decoder.report (.skippedAttribute name length window.offset)
  return .skipped name length

/-- Reads one attribute.  Its name has to resolve before its length is read.  Given the length of a method body,
`nested` reads the attributes that the body ends with. -/
def record (pool : ConstantPool) (nested : Nat → Decoder (List Attribute)) : Decoder Attribute := do
  let index ← Decoder.u2
  let name ← Decoder.ofExcept (pool.utf8 index)
  let length ← Decoder.u4
  if name = codeName then codeIn length (nested length.toNat) else skip name length

/-- Reads a list of attributes in which method bodies are nested at most `levels` deep, the list's own level
included. -/
def listUpTo (pool : ConstantPool) : (levels : Nat) → Decoder (List Attribute)
  | 0 => pure []
  | levels + 1 => Decoder.counted (record pool fun _ => listUpTo pool levels)

/-- As many levels of attributes as there is room for in a window of `length` bytes. -/
def levels (length : Nat) : Nat := length / 18 + 1

def decoder (pool : ConstantPool) : Decoder Attribute :=
  record pool fun length => listUpTo pool (levels length)

def listDecoder (pool : ConstantPool) : Decoder (List Attribute) := Decoder.counted (decoder pool)

end Attribute

end Jvm
