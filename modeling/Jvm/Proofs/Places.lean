import Jvm.Proofs.Acceptance
/-!
# Places in a class file

Where the attributes of a class file stand, said of its bytes and without a decoder.  A place is a cursor: an absolute
offset, and the bytes from there to the end of the buffer or of the method body that encloses it.  Everything in front
of a place has to be well-formed, whatever comes behind it; so places are also there in files that are refused.
-/
namespace Jvm

/-- The place of an item in the counted list that begins at `list`: only whole items stand before it, and not all of
them. -/
def BeginsItem {α : Type} (item : Spelling α) (list c : Cursor) : Prop :=
  ∃ count first before, Spans TwoBytes count list first ∧ before.length < UInt16.toNat count ∧
    Spans (InOrder item) before first c

/-- A class file up to its interfaces, by the pool that it spells. -/
def ClassFile.Head : Spelling ConstantPool := fun pool bytes =>
  ∃ minorVersion majorVersion access thisClass superClass interfaces constants table, pool.Spelled constants ∧
    Counted TwoBytes interfaces table ∧
    bytes = be4 0xCAFEBABE ++ be2 minorVersion ++ be2 majorVersion ++ constants ++ be2 access ++ be2 thisClass ++
      be2 superClass ++ table

/-- The window of an attribute with the name `Code` whose record begins at `c`. -/
def CodeWindowAt (pool : ConstantPool) (c window : Cursor) : Prop :=
  ∃ index length start behind, pool.Names index "Code" ∧ c.Took (be2 index ++ be4 length) start ∧
    window.remaining = UInt32.toNat length ∧ window.offset = start.offset ∧ start.Took window.bytes behind

/-- The places of the fields and of the methods of the class. -/
inductive MembersPlace (bytes : Bytes) (pool : ConstantPool) : Cursor → Prop
  | fields {c : Cursor} (head : Spans ClassFile.Head pool (.ofBytes bytes) c) : MembersPlace bytes pool c
  | methods {fields c : Cursor} {fs : List Member} (head : Spans ClassFile.Head pool (.ofBytes bytes) fields)
      (between : Spans (Counted (Member.Spelled pool)) fs fields c) : MembersPlace bytes pool c

/-- The places of the lists of attributes: of each field and method, of the class, and of each method body at any
depth. -/
inductive ListPlace (bytes : Bytes) (pool : ConstantPool) : Cursor → Prop
  | ofMember {members member c : Cursor} {front : Bytes} (outer : MembersPlace bytes pool members)
      (begins : BeginsItem (Member.Spelled pool) members member) (six : front.length = 6)
      (behind : member.Took front c) :
    ListPlace bytes pool c
  | ofClass {fields methods c : Cursor} {fs ms : List Member} (head : Spans ClassFile.Head pool (.ofBytes bytes) fields)
      (between : Spans (Counted (Member.Spelled pool)) fs fields methods)
      (behind : Spans (Counted (Member.Spelled pool)) ms methods c) : ListPlace bytes pool c
  | ofBody {list record window c : Cursor} {body : Code} (outer : ListPlace bytes pool list)
      (begins : BeginsItem (Attribute.Spelled pool) list record) (opens : CodeWindowAt pool record window)
      (behind : Spans Code.Front body window c) : ListPlace bytes pool c

/-- The places of attributes. -/
def AttributePlace (bytes : Bytes) (pool : ConstantPool) (c : Cursor) : Prop :=
  ∃ list, ListPlace bytes pool list ∧ BeginsItem (Attribute.Spelled pool) list c

/-- The windows of the attributes with the name `Code`. -/
def CodeWindow (bytes : Bytes) (pool : ConstantPool) (window : Cursor) : Prop :=
  ∃ c, AttributePlace bytes pool c ∧ CodeWindowAt pool c window

/-- The index that an attribute of the file gives as its name. -/
def NamesAttribute (bytes : Bytes) (pool : ConstantPool) (index : UInt16) : Prop :=
  ∃ c behind, AttributePlace bytes pool c ∧ c.Took (be2 index) behind

/-- A window of a method body whose bytes are not a method body: a reader that enters it does not leave it. -/
def OpenWindow (bytes : Bytes) (pool : ConstantPool) (window : Cursor) : Prop :=
  CodeWindow bytes pool window ∧ ∀ body : Code, ¬ body.Spelled pool window.bytes

/-- The offset is that of a byte of the window, or of its end. -/
def Cursor.Around (window : Cursor) (offset : Nat) : Prop := window.offset ≤ offset ∧ offset ≤ window.stop

/-- Where the bytes end that a read at an offset can take: at the end of the innermost method body around it that is not
complete, and at the end of the file if there is none.  Bodies that are complete are left behind, also if the read is
made right at their end. -/
inductive ReadEnd (bytes : Bytes) (offset stop : Nat) : Prop
  | file (outside : ∀ pool window, OpenWindow bytes pool window → ¬ window.Around offset) (ends : stop = bytes.length)
  | body {pool : ConstantPool} {window : Cursor} (opened : OpenWindow bytes pool window) (around : window.Around offset)
      (innermost : ∀ pool' window', OpenWindow bytes pool' window' → window'.Around offset → window.stop ≤ window'.stop)
      (ends : stop = window.stop)

/-- **A read can only end in one place.** -/
theorem ReadEnd.unique {bytes : Bytes} {offset stop stop' : Nat} (h : ReadEnd bytes offset stop)
    (h' : ReadEnd bytes offset stop') : stop = stop' := by
  cases h with
  | file outside ends =>
    cases h' with
    | file outside' ends' => exact ends.trans ends'.symm
    | body opened' around' innermost' ends' => exact absurd around' (outside _ _ opened')
  | body opened around innermost ends =>
    cases h' with
    | file outside' ends' => exact absurd around (outside' _ _ opened)
    | body opened' around' innermost' ends' =>
      have hle := innermost _ _ opened' around'
      have hge := innermost' _ _ opened around
      omega

theorem BeginsItem.took {α : Type} {R : Spelling α} {list c : Cursor} (h : BeginsItem R list c) :
    ∃ taken, list.Took taken c := by
  obtain ⟨count, first, before, ⟨_, h₁, -⟩, -, ⟨_, h₂, -⟩⟩ := h
  exact ⟨_, h₁.trans h₂⟩

theorem BeginsItem.remaining_le {α : Type} {R : Spelling α} {list c : Cursor} (h : BeginsItem R list c) :
    c.remaining ≤ list.remaining := by
  obtain ⟨taken, ht⟩ := h.took
  have hrem := ht.remaining
  omega

theorem CodeWindowAt.remaining_le {pool : ConstantPool} {c window : Cursor} (h : CodeWindowAt pool c window) :
    window.remaining ≤ c.remaining := by
  obtain ⟨index, length, start, behind, -, hc, -, -, hw⟩ := h
  have hrem := (hc.trans hw).remaining
  rw [List.length_append] at hrem
  have hlen : window.bytes.length = window.remaining := rfl
  omega

theorem CodeWindowAt.stop_le {pool : ConstantPool} {c window : Cursor} (h : CodeWindowAt pool c window) :
    window.stop ≤ c.stop := by
  obtain ⟨index, length, start, behind, -, hc, hlen, ho, hw⟩ := h
  have hstart := hc.stop
  have hrem := hw.remaining
  have hlen' : window.bytes.length = window.remaining := rfl
  unfold Cursor.stop at *
  omega

theorem CodeWindowAt.offset_le {pool : ConstantPool} {c window : Cursor} (h : CodeWindowAt pool c window) :
    c.offset ≤ window.offset := by
  obtain ⟨index, length, start, behind, -, hc, -, ho, -⟩ := h
  rw [ho]
  exact hc.offset_le

end Jvm
