import Jvm.Log.Event
/-!
# Events as log records

How an event is written down: a level, the part of the machine that it comes from, a message and named fields.
-/
namespace Jvm

inductive LogLevel where
  | trace
  | debug
  | info
  | warn
  deriving DecidableEq

namespace LogLevel

def name : LogLevel → String
  | trace => "TRACE"
  | debug => "DEBUG"
  | info => "INFO"
  | warn => "WARN"

end LogLevel

inductive LogField where
  | number (value : Nat)
  | text (value : String)
  deriving DecidableEq

structure LogRecord where
  level : LogLevel
  /-- The part of the machine that it comes from. -/
  target : String
  message : String
  fields : List (String × LogField)

namespace DecodeEvent

def toRecord : DecodeEvent → LogRecord
  | skippedAttribute name length _ =>
    ⟨.trace, "minijvm::classfile", "skipping attribute", [("attribute", .text name), ("length", .number length.toNat)]⟩
  | decodedClass majorVersion minorVersion constants fields methods =>
    ⟨.debug, "minijvm::classfile", "decoded class",
      [("major_version", .number majorVersion.toNat), ("minor_version", .number minorVersion.toNat),
        ("constants", .number constants.toNat), ("fields", .number fields), ("methods", .number methods)]⟩

end DecodeEvent

namespace Event

def toRecord : Event → LogRecord
  | decoding event => event.toRecord
  | step s stack locals =>
    ⟨.trace, "minijvm::interp", "step",
      [("pc", .number s.pc), ("opcode", .number s.opcode.toByte.toNat), ("mnemonic", .text s.opcode.mnemonic),
        ("instruction", .text s.instruction.text), ("stack", .text stack.text), ("locals", .text locals.text)]⟩
  | starting className => ⟨.info, "minijvm::launcher", "starting", [("class", .text className)]⟩
  | finished className executed =>
    ⟨.info, "minijvm::launcher", "finished", [("class", .text className), ("executed", .number executed)]⟩
  | failed className error =>
    ⟨.warn, "minijvm::launcher", "launch failed", [("class", .text className), ("error", .text error)]⟩

end Event

end Jvm
