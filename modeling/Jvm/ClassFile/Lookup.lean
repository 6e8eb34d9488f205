import Jvm.ClassFile.Basic
/-!
# Names in a class

The names that a class gives itself, and the search for a method by name and descriptor.  The search goes through the
methods in order and **stops at the first one that matches or cannot be resolved**: a broken method hides what comes
after it, never what comes before.
-/
namespace Jvm
namespace ClassFile

def thisName (c : ClassFile) : Except DecodeError String := c.pool.className c.thisClass

def superName? (c : ClassFile) : Except DecodeError (Option String) :=
  if c.superClass = 0 then .ok none else (c.pool.className c.superClass).map some

def interfaceNames (c : ClassFile) : Except DecodeError (List String) := c.interfaces.mapM c.pool.className

/-- The position, counted from `start`, of the first member with the given signature. -/
def positionFrom (pool : ConstantPool) (signature : Signature) :
    (start : Nat) → List Member → Except DecodeError (Option Nat)
  | _, [] => .ok none
  | start, m :: rest =>
    match m.hasSignature pool signature with
    | .error e => .error e
    | .ok true => .ok (some start)
    | .ok false => positionFrom pool signature (start + 1) rest

def methodPosition? (c : ClassFile) (name descriptor : String) : Except DecodeError (Option Nat) :=
  positionFrom c.pool ⟨name, descriptor⟩ 0 c.methods

def mainPosition? (c : ClassFile) : Except DecodeError (Option Nat) :=
  c.methodPosition? Member.mainName Member.mainDescriptor

def findMethod? (c : ClassFile) (name descriptor : String) : Except DecodeError (Option Member) :=
  (c.methodPosition? name descriptor).map fun position => position.bind (c.methods[·]?)

def mainMethod? (c : ClassFile) : Except DecodeError (Option Member) :=
  c.findMethod? Member.mainName Member.mainDescriptor

end ClassFile
end Jvm
