import Jvm.Proofs.BigEndian
import Jvm.Proofs.Disassembly
/-!
# Assembly

Code as a list of written instructions: opcodes, each with the operand that it takes.  The listing of assembled code
gives the instructions back, each at the pc where its bytes begin (`disassemble_assemble`).
-/
namespace Jvm

/-- What an opcode is followed by in the code. -/
@[reducible] def Opcode.Operand : Opcode → Type
  | .bipush => Int8
  | .sipush => Int16
  | .iload | .istore => UInt8
  | _ => Unit

/-- An opcode with its operand. -/
structure Written where
  opcode : Opcode
  operand : opcode.Operand

namespace Written

/-- The bytes of an operand. -/
def operandBytes : (op : Opcode) → op.Operand → Bytes
  | .bipush, n => [n.toUInt8]
  | .sipush, n => beBytes 2 n.toUInt16.toNat
  | .iload, k => [k]
  | .istore, k => [k]
  | _, _ => []

/-- The bytes of a written instruction. -/
def bytes (w : Written) : Bytes := w.opcode.toByte :: operandBytes w.opcode w.operand

/-- What is written. -/
def instruction : Written → Instruction
  | ⟨.bipush, n⟩ => .push .bipush (Int32.ofInt n.toInt)
  | ⟨.sipush, n⟩ => .push .sipush (Int32.ofInt n.toInt)
  | ⟨.iload, k⟩ => .iload k.toUInt16
  | ⟨.istore, k⟩ => .istore k.toUInt16
  | ⟨op, _⟩ => .ofOpcode op

end Written

/-- The bytes of a list of written instructions. -/
def assemble (code : List Written) : Bytes := code.flatMap Written.bytes

/-- The instructions with their pcs, if the first one stands at `pc`. -/
def numbered (pc : Nat) : List Written → List (Nat × Instruction)
  | [] => []
  | w :: code => (pc, w.instruction) :: numbered (pc + w.bytes.length) code

theorem length_numbered : ∀ (pc : Nat) (code : List Written), (numbered pc code).length = code.length
  | _, [] => rfl
  | pc, w :: code => congrArg (· + 1) (length_numbered (pc + w.bytes.length) code)

theorem assemble_append (x y : List Written) : assemble (x ++ y) = assemble x ++ assemble y := List.flatMap_append

theorem numbered_append : ∀ (pc : Nat) (x y : List Written),
    numbered pc (x ++ y) = numbered pc x ++ numbered (pc + (assemble x).length) y
  | pc, [], y => rfl
  | pc, w :: x, y => by
    have hpc : pc + w.bytes.length + (assemble x).length = pc + (assemble (w :: x)).length := by
      simp [assemble, Nat.add_assoc]
    rw [List.cons_append, numbered, numbered, numbered_append _ x y, hpc]
    rfl

/-! ## Places -/

/-- The pc of the `k`-th instruction, which is the end of the code if there are only `k`. -/
def pcOf (code : List Written) (k : Nat) : Nat := (assemble (code.take k)).length

theorem pcOf_cons (w : Written) (code : List Written) (k : Nat) :
    pcOf (w :: code) (k + 1) = w.bytes.length + pcOf code k := by
  simp [pcOf, assemble]

theorem pcOf_succ {code : List Written} {k : Nat} {w : Written} (hw : code[k]? = some w) :
    pcOf code (k + 1) = pcOf code k + w.bytes.length := by
  simp [pcOf, List.take_add_one, hw, assemble]

theorem drop_pcOf (code : List Written) (k : Nat) : (assemble code).drop (pcOf code k) = assemble (code.drop k) := by
  have hsplit : assemble code = assemble (code.take k) ++ assemble (code.drop k) := by
    rw [← assemble_append, List.take_append_drop]
  rw [hsplit, pcOf, List.drop_left]

/-! ## Reading back what is written -/

theorem signedByte_toUInt8 (n : Int8) : Int.bmod (beNat [n.toUInt8]) 256 = n.toInt := by
  have hbyte : beNat [n.toUInt8] = n.toUInt8.toNat := by simp [beNat]
  rw [hbyte, ← toInt_toInt8, Int8.toInt8_toUInt8]

theorem signedPair_toUInt16 (n : Int16) : Int.bmod (beNat (beBytes 2 n.toUInt16.toNat)) 65536 = n.toInt := by
  have hlt : n.toUInt16.toNat < 256 ^ 2 := n.toUInt16.toNat_lt
  rw [beNat_beBytes_of_lt hlt]
  exact (BitVec.toInt_eq_toNat_bmod n.toBitVec).symm

theorem unsignedByte_eq (k : UInt8) : UInt16.ofNat (beNat [k]) = k.toUInt16 := by
  simp [beNat]

/-- **Code begins with what is written first.** -/
theorem codeHead_bytes (w : Written) (rest : Bytes) :
    codeHead (w.bytes ++ rest) = .instruction w.instruction w.bytes.length := by
  obtain ⟨op, operand⟩ := w
  cases op with
  | bipush =>
    have hhead : codeHead (Written.bytes ⟨.bipush, operand⟩ ++ rest) =
        .instruction (.push .bipush (Int32.ofInt (Int.bmod (beNat [operand.toUInt8]) 256))) 2 := rfl
    rw [hhead, signedByte_toUInt8]
    rfl
  | sipush =>
    have hhead : codeHead (Written.bytes ⟨.sipush, operand⟩ ++ rest) =
        .instruction (.push .sipush (Int32.ofInt (Int.bmod (beNat (beBytes 2 operand.toUInt16.toNat)) 65536))) 3 := rfl
    rw [hhead, signedPair_toUInt16]
    rfl
  | iload =>
    have hhead : codeHead (Written.bytes ⟨.iload, operand⟩ ++ rest) =
        .instruction (.iload (UInt16.ofNat (beNat [operand]))) 2 := rfl
    rw [hhead, unsignedByte_eq]
    rfl
  | istore =>
    have hhead : codeHead (Written.bytes ⟨.istore, operand⟩ ++ rest) =
        .instruction (.istore (UInt16.ofNat (beNat [operand]))) 2 := rfl
    rw [hhead, unsignedByte_eq]
    rfl
  | iconst k => fin_cases k <;> rfl
  | iloadShort k | istoreShort k => fin_cases k <;> rfl
  | nop | aconstNull | pop | dup | iadd | isub | imul | ret => rfl

/-- **The listing of assembled code is what was written.** -/
theorem disassemble_assemble : ∀ (pc : Nat) (code : List Written),
    disassemble pc (assemble code) = ⟨numbered pc code, .endOfCode (pc + (assemble code).length)⟩
  | pc, [] => by
    rw [disassemble]
    rfl
  | pc, w :: code => by
    have hhead : codeHead (assemble (w :: code)) = .instruction w.instruction w.bytes.length := codeHead_bytes w _
    have hrest : (assemble (w :: code)).drop w.bytes.length = assemble code := List.drop_left
    have hlength : (assemble (w :: code)).length = w.bytes.length + (assemble code).length := List.length_append
    rw [disassemble]
    split
    · rename_i i width hi
      rw [hhead] at hi
      cases hi
      rw [hrest, disassemble_assemble _ code, numbered, hlength, Nat.add_assoc]
    · rename_i byte hi
      rw [hhead] at hi
      cases hi
    · rename_i hi
      rw [hhead] at hi
      cases hi

end Jvm
