/-!
# Kinds of constants

The tag byte in front of each constant.  Tags have gaps, and two kinds are *wide*: such a constant takes up two indices
of the pool.
-/
namespace Jvm

/-- What a member reference refers to. -/
inductive RefKind where
  | field
  | method
  | interfaceMethod
  deriving DecidableEq

inductive Tag where
  | utf8
  | integer
  | float
  | long
  | double
  | classRef
  | string
  | member (kind : RefKind)
  | nameAndType
  | methodHandle
  | methodType
  | invokeDynamic
  deriving DecidableEq

namespace Tag

/-- Every kind, by increasing tag byte. -/
def all : List Tag :=
  [utf8, integer, float, long, double, classRef, string, member .field, member .method, member .interfaceMethod,
    nameAndType, methodHandle, methodType, invokeDynamic]

def toByte : Tag → UInt8
  | utf8 => 1
  | integer => 3
  | float => 4
  | long => 5
  | double => 6
  | classRef => 7
  | string => 8
  | member .field => 9
  | member .method => 10
  | member .interfaceMethod => 11
  | nameAndType => 12
  | methodHandle => 15
  | methodType => 16
  | invokeDynamic => 18

def ofByte? (b : UInt8) : Option Tag := all.find? fun t => t.toByte = b

/-- The name of a kind, as error messages have it. -/
def name : Tag → String
  | utf8 => "Utf8"
  | integer => "Integer"
  | float => "Float"
  | long => "Long"
  | double => "Double"
  | classRef => "Class"
  | string => "String"
  | member .field => "Fieldref"
  | member .method => "Methodref"
  | member .interfaceMethod => "InterfaceMethodref"
  | nameAndType => "NameAndType"
  | methodHandle => "MethodHandle"
  | methodType => "MethodType"
  | invokeDynamic => "InvokeDynamic"

/-- Whether constants of this kind take up two indices of the pool. -/
def isWide : Tag → Bool
  | long | double => true
  | _ => false

/-- How many indices of the pool constants of this kind take up. -/
def width (t : Tag) : Nat := if t.isWide then 2 else 1

/-- **The byte of a kind stands for that kind.** -/
@[simp] theorem ofByte?_toByte (t : Tag) : ofByte? t.toByte = some t := by
  rcases t with _ | _ | _ | _ | _ | _ | _ | k | _ | _ | _ | _ <;> (try cases k) <;> rfl

end Tag

end Jvm
