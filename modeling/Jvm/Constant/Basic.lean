import Jvm.Constant.Tag
import Jvm.Decoder.Basic
import Jvm.Text.ModifiedUtf8
/-!
# Constants

One entry of a constant pool: its kind and its payload.  Floating-point payloads are kept as bits, and references as
the indices that the file gives, resolved or not.
-/
namespace Jvm

inductive Constant where
  | utf8 (text : Text)
  | integer (value : Int32)
  /-- A floating-point number of 32 bits. -/
  | float (bits : UInt32)
  | long (value : Int64)
  /-- A floating-point number of 64 bits. -/
  | double (bits : UInt64)
  /-- A class, by the index of its name. -/
  | classRef (name : UInt16)
  /-- A string, by the index of its text. -/
  | string (text : UInt16)
  /-- A member of a class, by the indices of the class and of the member's name and descriptor. -/
  | member (kind : RefKind) (owner signature : UInt16)
  | nameAndType (name descriptor : UInt16)
  | methodHandle (kind : UInt8) (reference : UInt16)
  /-- A method type, by the index of its descriptor. -/
  | methodType (descriptor : UInt16)
  /-- A dynamic call site, by its bootstrap method and the index of its name and descriptor. -/
  | invokeDynamic (bootstrap signature : UInt16)
  deriving DecidableEq

namespace Constant

def tag : Constant → Tag
  | utf8 _ => .utf8
  | integer _ => .integer
  | float _ => .float
  | long _ => .long
  | double _ => .double
  | classRef _ => .classRef
  | string _ => .string
  | member kind _ _ => .member kind
  | nameAndType _ _ => .nameAndType
  | methodHandle _ _ => .methodHandle
  | methodType _ => .methodType
  | invokeDynamic _ _ => .invokeDynamic

def isWide (c : Constant) : Bool := c.tag.isWide

def width (c : Constant) : Nat := c.tag.width

/-! ## Reading -/

/-- Reads the payload of a text: its length and its bytes.  Bytes that spell no text are refused at the first of
them. -/
def textPayload : Decoder Constant := do
  let length ← Decoder.u2
  let start ← Decoder.offset
  let payload ← Decoder.bytes length.toNat
  match ModifiedUtf8.decode? payload with
  | some text => return .utf8 text
  | none => throw (.malformedUtf8 start)

def payload : Tag → Decoder Constant
  | .utf8 => textPayload
  | .integer => do return .integer (← Decoder.i4)
  | .float => do return .float (← Decoder.u4)
  | .long => do return .long (← Decoder.i8)
  | .double => do return .double (← Decoder.u8)
  | .classRef => do return .classRef (← Decoder.u2)
  | .string => do return .string (← Decoder.u2)
  | .member kind => do return .member kind (← Decoder.u2) (← Decoder.u2)
  | .nameAndType => do return .nameAndType (← Decoder.u2) (← Decoder.u2)
  | .methodHandle => do return .methodHandle (← Decoder.u1) (← Decoder.u2)
  | .methodType => do return .methodType (← Decoder.u2)
  | .invokeDynamic => do return .invokeDynamic (← Decoder.u2) (← Decoder.u2)

def decoder : Decoder Constant := do
  let start ← Decoder.offset
  let byte ← Decoder.u1
  match Tag.ofByte? byte with
  | some tag => payload tag
  | none => throw (.unsupportedConstantTag byte start)

/-! ## Writing -/

def payloadBytes : Constant → Bytes
  | utf8 text => beBytes 2 (ModifiedUtf8.encode text).length ++ ModifiedUtf8.encode text
  | integer value => beBytes 4 value.toUInt32.toNat
  | float bits => beBytes 4 bits.toNat
  | long value => beBytes 8 value.toUInt64.toNat
  | double bits => beBytes 8 bits.toNat
  | classRef name => beBytes 2 name.toNat
  | string text => beBytes 2 text.toNat
  | member _ owner signature => beBytes 2 owner.toNat ++ beBytes 2 signature.toNat
  | nameAndType name descriptor => beBytes 2 name.toNat ++ beBytes 2 descriptor.toNat
  | methodHandle kind reference => beBytes 1 kind.toNat ++ beBytes 2 reference.toNat
  | methodType descriptor => beBytes 2 descriptor.toNat
  | invokeDynamic bootstrap signature => beBytes 2 bootstrap.toNat ++ beBytes 2 signature.toNat

/-- A constant as a class file holds it: its tag and its payload. -/
def toBytes (c : Constant) : Bytes := c.tag.toByte :: c.payloadBytes

end Constant

end Jvm
