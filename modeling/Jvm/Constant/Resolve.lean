import Jvm.Constant.Pool
/-!
# Looking constants up

Resolution follows the references of a pool from index to index.  It refuses at the **first** slot at fault, and names
that slot.
-/
namespace Jvm

/-- The name and the descriptor of a member, resolved. -/
structure Signature where
  name : String
  descriptor : String
  deriving DecidableEq

/-- A member reference, resolved. -/
structure MemberRef where
  owner : String
  signature : Signature
  deriving DecidableEq

namespace ConstantPool

def get (pool : ConstantPool) (index : UInt16) : Except DecodeError Constant :=
  match pool.slots[index.toNat]? with
  | some (some c) => .ok c
  | _ => .error (.invalidConstantIndex index)

/-- The constant at an index, as far as `pick` takes it: a constant of another kind is refused. -/
def select {α : Type} (pool : ConstantPool) (index : UInt16) (expected : String) (pick : Constant → Option α) :
    Except DecodeError α := do
  let c ← pool.get index
  match pick c with
  | some a => return a
  | none => throw (.wrongConstantKind index expected c.tag.name)

def text (pool : ConstantPool) (index : UInt16) : Except DecodeError Text :=
  pool.select index Tag.utf8.name fun | .utf8 t => some t | _ => none

/-- The text at an index as a string, which no unpaired surrogate may prevent. -/
def utf8 (pool : ConstantPool) (index : UInt16) : Except DecodeError String := do
  match (← pool.text index).toString? with
  | some s => return s
  | none => throw (.notUnicode index)

def integer (pool : ConstantPool) (index : UInt16) : Except DecodeError Int32 :=
  pool.select index Tag.integer.name fun | .integer v => some v | _ => none

def float (pool : ConstantPool) (index : UInt16) : Except DecodeError UInt32 :=
  pool.select index Tag.float.name fun | .float bits => some bits | _ => none

def long (pool : ConstantPool) (index : UInt16) : Except DecodeError Int64 :=
  pool.select index Tag.long.name fun | .long v => some v | _ => none

def double (pool : ConstantPool) (index : UInt16) : Except DecodeError UInt64 :=
  pool.select index Tag.double.name fun | .double bits => some bits | _ => none

def className (pool : ConstantPool) (index : UInt16) : Except DecodeError String := do
  let name ← pool.select index Tag.classRef.name fun | .classRef name => some name | _ => none
  pool.utf8 name

def string (pool : ConstantPool) (index : UInt16) : Except DecodeError Text := do
  let text ← pool.select index Tag.string.name fun | .string text => some text | _ => none
  pool.text text

/-- The name and descriptor at an index; the name is resolved first. -/
def signature (pool : ConstantPool) (index : UInt16) : Except DecodeError Signature := do
  let (name, descriptor) ← pool.select index Tag.nameAndType.name
    fun | .nameAndType name descriptor => some (name, descriptor) | _ => none
  let name ← pool.utf8 name
  let descriptor ← pool.utf8 descriptor
  return ⟨name, descriptor⟩

/-- The member reference at an index; the member's name and descriptor are resolved before its class. -/
def memberRef (pool : ConstantPool) (index : UInt16) : Except DecodeError MemberRef := do
  let (owner, signature) ← pool.select index "member reference"
    fun | .member _ owner signature => some (owner, signature) | _ => none
  let signature ← pool.signature signature
  let owner ← pool.className owner
  return ⟨owner, signature⟩

end ConstantPool

end Jvm
