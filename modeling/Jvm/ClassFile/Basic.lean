import Jvm.ClassFile.Member
/-!
# Class files

A class file is a header, a constant pool, and what the class declares in terms of it.  `ClassFile.parse` accepts a byte
string only as a whole: bytes behind the class are refused.
-/
namespace Jvm

structure ClassFile where
  minorVersion : UInt16
  majorVersion : UInt16
  pool : ConstantPool
  access : AccessFlags
  thisClass : UInt16
  /-- Index of the class that it extends; zero if there is none. -/
  superClass : UInt16
  interfaces : List UInt16
  fields : List Member
  methods : List Member
  attributes : List Attribute
  deriving DecidableEq

namespace ClassFile

def magic : UInt32 := 0xCAFEBABE

def magicDecoder : Decoder Unit := do
  let found ← Decoder.u4
  if found = magic then return () else throw (.badMagic found)

/-- Reads a class, and reports it.  Bytes may follow. -/
def decoder : Decoder ClassFile := do
  magicDecoder
  let minorVersion ← Decoder.u2
  let majorVersion ← Decoder.u2
  let pool ← ConstantPool.decoder
  let access ← Decoder.u2
  let thisClass ← Decoder.u2
  let superClass ← Decoder.u2
  let interfaces ← Decoder.table
  let fields ← Decoder.counted (Member.decoder pool)
  let methods ← Decoder.counted (Member.decoder pool)
  let attributes ← Attribute.listDecoder pool
  Decoder.report (.decodedClass majorVersion minorVersion pool.count fields.length methods.length)
  return ⟨minorVersion, majorVersion, pool, ⟨access⟩, thisClass, superClass, interfaces, fields, methods, attributes⟩

def finish : Decoder Unit := fun s =>
  if s.cursor.isEmpty then .ok () s
  else .error (.trailingBytes s.cursor.offset s.cursor.remaining) s

/-- Reads a class that has to end with its bytes. -/
def wholeDecoder : Decoder ClassFile := do
  let c ← decoder
  finish
  return c

/-- Decodes a byte string as one class file, and says what was reported on the way. -/
def parseWithEvents (bytes : Bytes) : Except DecodeError ClassFile × Array DecodeEvent :=
  let decoded := wholeDecoder.runAt (.ofBytes bytes)
  (decoded.result, decoded.events)

def parse (bytes : Bytes) : Except DecodeError ClassFile := (parseWithEvents bytes).1

end ClassFile

end Jvm
