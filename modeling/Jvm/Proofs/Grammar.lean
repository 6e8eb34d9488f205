import Jvm.ClassFile.Basic
/-!
# The grammar of class files

Which byte strings spell which class, said without a decoder.  A *spelling* relates a value to the byte strings that
stand for it.  Numbers have exactly one spelling, most significant byte first; a list is spelled item by item, in front
of it the number of its items in two bytes.

Two things make the grammar more than a list of fields.  Attributes are named through the pool, so their spelling is
relative to the pool that the same file spells before them; and the body of a `Code` attribute ends in attributes of its
own, which are part of its bytes and **not** of its value.
-/
namespace Jvm

/-- Which byte strings stand for a value. -/
abbrev Spelling (α : Type) := α → Bytes → Prop

/-! ## Numbers and lists -/

/-- A number of one byte. -/
def be1 (v : UInt8) : Bytes := beBytes 1 v.toNat

/-- A number of two bytes. -/
def be2 (v : UInt16) : Bytes := beBytes 2 v.toNat

/-- A number of four bytes. -/
def be4 (v : UInt32) : Bytes := beBytes 4 v.toNat

/-- A number of eight bytes. -/
def be8 (v : UInt64) : Bytes := beBytes 8 v.toNat

@[simp] theorem length_be1 (v : UInt8) : (be1 v).length = 1 := length_beBytes 1 _

@[simp] theorem length_be2 (v : UInt16) : (be2 v).length = 2 := length_beBytes 2 _

@[simp] theorem length_be4 (v : UInt32) : (be4 v).length = 4 := length_beBytes 4 _

@[simp] theorem length_be8 (v : UInt64) : (be8 v).length = 8 := length_beBytes 8 _

/-- The only spelling of a number of two bytes. -/
def TwoBytes : Spelling UInt16 := fun v bytes => bytes = be2 v

/-- Items one behind the other. -/
inductive InOrder {α : Type} (item : Spelling α) : Spelling (List α)
  | nil : InOrder item [] []
  | cons {x : α} {xs : List α} {first rest : Bytes} (head : item x first) (tail : InOrder item xs rest) :
    InOrder item (x :: xs) (first ++ rest)

theorem InOrder.append {α : Type} {item : Spelling α} {xs ys : List α} {front back : Bytes} (h : InOrder item xs front)
    (h' : InOrder item ys back) : InOrder item (xs ++ ys) (front ++ back) := by
  induction h with
  | nil => exact h'
  | cons head _ ih =>
    rw [List.append_assoc]
    exact .cons head ih

/-- The number of the items, which has to fit into two bytes, and then the items. -/
inductive Counted {α : Type} (item : Spelling α) : Spelling (List α)
  | mk {xs : List α} {count : UInt16} {items : Bytes} (length : xs.length = count.toNat)
    (spelled : InOrder item xs items) :
    Counted item xs (be2 count ++ items)

theorem Counted.two_le {α : Type} {item : Spelling α} {xs : List α} {bytes : Bytes} (h : Counted item xs bytes) :
    2 ≤ bytes.length := by
  obtain ⟨-, -⟩ := h
  rw [List.length_append, length_be2]
  omega

/-! ## Constants -/

namespace Constant

/-- The layout of each kind of constant: the byte of its kind, and its payload.  The bytes of a text are any that decode
to it, their number in front of them. -/
inductive Spelled : Spelling Constant
  | utf8 {text : Text} {payload : Bytes} {length : UInt16} (counted : payload.length = length.toNat)
      (decodes : ModifiedUtf8.decode? payload = some text) : Spelled (.utf8 text) (1 :: (be2 length ++ payload))
  | integer (v : Int32) : Spelled (.integer v) (3 :: be4 v.toUInt32)
  | float (bits : UInt32) : Spelled (.float bits) (4 :: be4 bits)
  | long (v : Int64) : Spelled (.long v) (5 :: be8 v.toUInt64)
  | double (bits : UInt64) : Spelled (.double bits) (6 :: be8 bits)
  | classRef (name : UInt16) : Spelled (.classRef name) (7 :: be2 name)
  | string (text : UInt16) : Spelled (.string text) (8 :: be2 text)
  | field (owner signature : UInt16) : Spelled (.member .field owner signature) (9 :: (be2 owner ++ be2 signature))
  | method (owner signature : UInt16) : Spelled (.member .method owner signature) (10 :: (be2 owner ++ be2 signature))
  | interfaceMethod (owner signature : UInt16) :
    Spelled (.member .interfaceMethod owner signature) (11 :: (be2 owner ++ be2 signature))
  | nameAndType (name descriptor : UInt16) : Spelled (.nameAndType name descriptor) (12 :: (be2 name ++ be2 descriptor))
  | methodHandle (kind : UInt8) (reference : UInt16) :
    Spelled (.methodHandle kind reference) (15 :: (be1 kind ++ be2 reference))
  | methodType (descriptor : UInt16) : Spelled (.methodType descriptor) (16 :: be2 descriptor)
  | invokeDynamic (bootstrap signature : UInt16) :
    Spelled (.invokeDynamic bootstrap signature) (18 :: (be2 bootstrap ++ be2 signature))

/-- The constants that take up two indices. -/
def TakesTwo (c : Constant) : Prop := (∃ v, c = .long v) ∨ (∃ bits, c = .double bits)

/-- What a constant is called where another kind was asked for. -/
def kindName : Constant → String
  | utf8 _ => "Utf8"
  | integer _ => "Integer"
  | float _ => "Float"
  | long _ => "Long"
  | double _ => "Double"
  | classRef _ => "Class"
  | string _ => "String"
  | member .field _ _ => "Fieldref"
  | member .method _ _ => "Methodref"
  | member .interfaceMethod _ _ => "InterfaceMethodref"
  | nameAndType _ _ => "NameAndType"
  | methodHandle _ _ => "MethodHandle"
  | methodType _ => "MethodType"
  | invokeDynamic _ _ => "InvokeDynamic"

theorem name_tag (c : Constant) : c.tag.name = c.kindName := by
  cases c with
  | member kind owner signature => cases kind <;> rfl
  | _ => rfl

end Constant

namespace ConstantPool

/-- The constants that fill a given number of slots.  A wide constant leaves the slot behind it empty, and nothing is
spelled for that slot; in the last slot a wide constant has no slot behind it. -/
inductive Fills : Nat → Spelling (List (Option Constant))
  | done : Fills 0 [] []
  | narrow {n : Nat} {c : Constant} {slots : List (Option Constant)} {first rest : Bytes} (one : ¬ c.TakesTwo)
      (head : c.Spelled first) (tail : Fills n slots rest) : Fills (n + 1) (some c :: slots) (first ++ rest)
  | wide {n : Nat} {c : Constant} {slots : List (Option Constant)} {first rest : Bytes} (two : c.TakesTwo)
      (head : c.Spelled first) (tail : Fills n slots rest) : Fills (n + 2) (some c :: none :: slots) (first ++ rest)
  | wideLast {c : Constant} {last : Bytes} (two : c.TakesTwo) (head : c.Spelled last) : Fills 1 [some c] last

/-- The declared size of a pool, and constants for the slots behind slot zero. -/
inductive Spelled : Spelling ConstantPool
  | mk {count : UInt16} {slots : List (Option Constant)} {constants : Bytes}
      (fills : Fills (count.toNat - 1) slots constants) :
      Spelled ⟨count, (none :: slots).toArray⟩ (be2 count ++ constants)

/-- What a name index stands for: the slot holds the text of this string, which therefore has no unpaired surrogate. -/
def Names (pool : ConstantPool) (index : UInt16) (name : String) : Prop :=
  pool.slots[index.toNat]? = some (some (.utf8 (Text.ofString name)))

end ConstantPool

/-! ## Attributes -/

namespace ExceptionHandler

/-- A row of an exception table. -/
def Spelled : Spelling ExceptionHandler := fun h bytes =>
  bytes = be2 h.startPc ++ be2 h.endPc ++ be2 h.handlerPc ++ be2 h.catchType

end ExceptionHandler

namespace Code

/-- What stands in front of the attributes of a method body: its sizes, its instructions and its exception table. -/
inductive Front : Spelling Code
  | mk {body : Code} {length : UInt32} {rows : Bytes} (counted : body.code.size = length.toNat)
      (table : Counted ExceptionHandler.Spelled body.handlers rows) :
    Front body (be2 body.maxStack ++ be2 body.maxLocals ++ be4 length ++ body.code.toList ++ rows)

theorem Front.ten_le {body : Code} {bytes : Bytes} (h : body.Front bytes) : 10 ≤ bytes.length := by
  obtain ⟨-, table⟩ := h
  have hrows := table.two_le
  simp only [List.length_append, length_be2, length_be4]
  omega

end Code

namespace Attribute

/-- An attribute of the class file that spells `pool`: the index of its name, its length, and a window of that length.
Under the name `Code` the window is a method body; under any other its bytes are arbitrary. -/
inductive Spelled (pool : ConstantPool) : Spelling Attribute
  | code {index : UInt16} {length : UInt32} {body : Code} {nested : List Attribute} {front attributes : Bytes}
      (named : pool.Names index "Code") (filled : (front ++ attributes).length = length.toNat)
      (spelled : body.Front front) (inner : Counted (Spelled pool) nested attributes) :
    Spelled pool (.code body) (be2 index ++ be4 length ++ (front ++ attributes))
  | skipped {index : UInt16} {length : UInt32} {name : String} {window : Bytes} (named : pool.Names index name)
      (other : name ≠ "Code") (filled : window.length = length.toNat) :
    Spelled pool (.skipped name length) (be2 index ++ be4 length ++ window)

end Attribute

namespace Code

/-- A whole method body; the attributes that it ends with leave no trace in its value. -/
def Spelled (pool : ConstantPool) : Spelling Code := fun body bytes =>
  ∃ front attributes nested, body.Front front ∧ Counted (Attribute.Spelled pool) nested attributes ∧
    bytes = front ++ attributes

end Code

/-! ## Members and classes -/

namespace Member

/-- A field or a method. -/
def Spelled (pool : ConstantPool) : Spelling Member := fun m bytes =>
  ∃ attributes, Counted (Attribute.Spelled pool) m.attributes attributes ∧
    bytes = be2 m.access.bits ++ be2 m.nameIndex ++ be2 m.descriptorIndex ++ attributes

end Member

namespace ClassFile

/-- A class: magic, versions, pool, flags, the class and what it extends and implements, and then in terms of its own
pool its fields, its methods and its attributes. -/
def Spelled : Spelling ClassFile := fun c bytes =>
  ∃ pool interfaces fields methods attributes, c.pool.Spelled pool ∧
    Counted TwoBytes c.interfaces interfaces ∧
    Counted (Member.Spelled c.pool) c.fields fields ∧ Counted (Member.Spelled c.pool) c.methods methods ∧
    Counted (Attribute.Spelled c.pool) c.attributes attributes ∧
    bytes = be4 0xCAFEBABE ++ be2 c.minorVersion ++ be2 c.majorVersion ++ pool ++ be2 c.access.bits ++
      be2 c.thisClass ++
      be2 c.superClass ++ interfaces ++ fields ++ methods ++ attributes

end ClassFile

end Jvm
