import Jvm.ClassFile.AccessFlags
import Jvm.ClassFile.Attribute
/-!
# Fields and methods

Both have the same shape: flags, a name, a descriptor and attributes.  Name and descriptor are indices into the pool of
the class and are resolved only when asked for.
-/
namespace Jvm

structure Member where
  access : AccessFlags
  nameIndex : UInt16
  descriptorIndex : UInt16
  attributes : List Attribute
  deriving DecidableEq

namespace Member

def mainName : String := "main"

def mainDescriptor : String := "([Ljava/lang/String;)V"

def decoder (pool : ConstantPool) : Decoder Member := do
  let access ← Decoder.u2
  let nameIndex ← Decoder.u2
  let descriptorIndex ← Decoder.u2
  let attributes ← Attribute.listDecoder pool
  return ⟨⟨access⟩, nameIndex, descriptorIndex, attributes⟩

def name (pool : ConstantPool) (m : Member) : Except DecodeError String := pool.utf8 m.nameIndex

def descriptor (pool : ConstantPool) (m : Member) : Except DecodeError String := pool.utf8 m.descriptorIndex

/-- The body of a method: its first `Code` attribute. -/
def code? (m : Member) : Option Code := m.attributes.findSome? Attribute.code?

/-- The member's name and descriptor.  **Both have to resolve**, the name first. -/
def signature (pool : ConstantPool) (m : Member) : Except DecodeError Signature := do
  let name ← m.name pool
  let descriptor ← m.descriptor pool
  return ⟨name, descriptor⟩

def hasSignature (pool : ConstantPool) (m : Member) (signature : Signature) : Except DecodeError Bool := do
  return (← m.signature pool) = signature

def mainSignature : Signature := ⟨mainName, mainDescriptor⟩

def isMain (pool : ConstantPool) (m : Member) : Except DecodeError Bool := m.hasSignature pool mainSignature

end Member

end Jvm
