import Jvm.Text.Hex
/-!
# What can be wrong with a class file

Each error says what was found and where.  Offsets are absolute in the buffer, also for what lies inside a window.
-/
namespace Jvm

inductive DecodeError where
  /-- A read at `offset` needed more bytes than were left. -/
  | truncatedInput (offset needed remaining : Nat)
  | badMagic (found : UInt32)
  /-- No constant stands at this index of the pool. -/
  | invalidConstantIndex (index : UInt16)
  /-- The constant at this index is not of the kind that was asked for. -/
  | wrongConstantKind (index : UInt16) (expected found : String)
  /-- The tag at `offset` belongs to no constant, so its length cannot be known. -/
  | unsupportedConstantTag (tag : UInt8) (offset : Nat)
  /-- The bytes from `offset` on are no modified UTF-8. -/
  | malformedUtf8 (offset : Nat)
  /-- The text at this index has an unpaired surrogate where a string is needed. -/
  | notUnicode (index : UInt16)
  /-- An attribute that is decoded did not fill its declared length. -/
  | attributeLengthMismatch (name : String) (declared : UInt32) (consumed : Nat)
  /-- The class ends at `offset`, and bytes follow. -/
  | trailingBytes (offset remaining : Nat)
  deriving DecidableEq

namespace DecodeError

def message : DecodeError → String
  | truncatedInput offset needed remaining =>
    s!"truncated input at offset {offset}: needed {needed} bytes, {remaining} remaining"
  | badMagic found => "bad magic: 0x" ++ Hex.text 8 found.toNat
  | invalidConstantIndex index => s!"invalid constant pool index {index}"
  | wrongConstantKind index expected found =>
    s!"constant pool index {index}: expected {expected}, found {found}"
  | unsupportedConstantTag tag offset => s!"unsupported constant pool tag {tag} at offset {offset}"
  | malformedUtf8 offset => s!"malformed modified UTF-8 at offset {offset}"
  | notUnicode index => s!"constant pool index {index} is not valid Unicode"
  | attributeLengthMismatch name declared consumed =>
    s!"attribute {name}: declared length {declared}, decoded {consumed}"
  | trailingBytes offset remaining => s!"{remaining} trailing bytes at offset {offset}"

end DecodeError

end Jvm
