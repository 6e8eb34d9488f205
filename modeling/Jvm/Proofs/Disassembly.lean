import Jvm.Machine.Frame
import Mathlib.Data.Fintype.Basic
import Mathlib.Tactic.FinCases
/-!
# Disassembly

The listing of a piece of code: its instructions from front to back with their pcs, and why the listing ends.  It is
made from the bytes alone, opcode by opcode, and does not know the machine; `Frame.fetch_eq` says that the machine
decodes nothing else.
-/
namespace Jvm

/-- What a piece of code begins with. -/
inductive CodeHead where
  /-- An instruction, and the number of its bytes. -/
  | instruction (i : Instruction) (width : Nat)
  /-- A byte that is no opcode. -/
  | unsupported (byte : UInt8)
  /-- The end of the code, before an opcode or in the middle of an instruction. -/
  | ended
  deriving DecidableEq

/-- Every opcode, with the number of bytes of its operand and the instruction that the operand makes.  An operand that
is pushed is a number in two's complement; one that names a local variable is not. -/
def opcodeTable : List (UInt8 × Nat × (List UInt8 → Instruction)) :=
  [(0x00, 0, fun _ => .nop),
    (0x01, 0, fun _ => .aconstNull),
    (0x02, 0, fun _ => .push .iconst (-1)),
    (0x03, 0, fun _ => .push .iconst 0),
    (0x04, 0, fun _ => .push .iconst 1),
    (0x05, 0, fun _ => .push .iconst 2),
    (0x06, 0, fun _ => .push .iconst 3),
    (0x07, 0, fun _ => .push .iconst 4),
    (0x08, 0, fun _ => .push .iconst 5),
    (0x10, 1, fun operand => .push .bipush (Int32.ofInt (Int.bmod (beNat operand) 256))),
    (0x11, 2, fun operand => .push .sipush (Int32.ofInt (Int.bmod (beNat operand) 65536))),
    (0x15, 1, fun operand => .iload (UInt16.ofNat (beNat operand))),
    (0x1A, 0, fun _ => .iload 0),
    (0x1B, 0, fun _ => .iload 1),
    (0x1C, 0, fun _ => .iload 2),
    (0x1D, 0, fun _ => .iload 3),
    (0x36, 1, fun operand => .istore (UInt16.ofNat (beNat operand))),
    (0x3B, 0, fun _ => .istore 0),
    (0x3C, 0, fun _ => .istore 1),
    (0x3D, 0, fun _ => .istore 2),
    (0x3E, 0, fun _ => .istore 3),
    (0x57, 0, fun _ => .pop),
    (0x59, 0, fun _ => .dup),
    (0x60, 0, fun _ => .arith .add),
    (0x64, 0, fun _ => .arith .sub),
    (0x68, 0, fun _ => .arith .mul),
    (0xB1, 0, fun _ => .ret)]

/-- What a piece of code begins with. -/
def codeHead : List UInt8 → CodeHead
  | [] => .ended
  | byte :: rest =>
    match opcodeTable.lookup byte with
    | none => .unsupported byte
    | some (size, make) => if size ≤ rest.length then .instruction (make (rest.take size)) (size + 1) else .ended

/-- An instruction has at least its opcode, and all its bytes are there. -/
theorem codeHead_width {bytes : List UInt8} {i : Instruction} {width : Nat}
    (h : codeHead bytes = .instruction i width) :
    0 < width ∧ width ≤ bytes.length := by
  unfold codeHead at h
  split at h
  · cases h
  · rename_i byte rest
    split at h
    · cases h
    · split at h
      · rename_i hle
        cases h
        exact ⟨Nat.succ_pos _, Nat.succ_le_succ hle⟩
      · cases h

/-- Why a listing ends. -/
inductive Ending where
  /-- The code ends here, or the end cuts the next instruction. -/
  | endOfCode (pc : Nat)
  /-- The byte at `pc` is no opcode. -/
  | unsupported (byte : UInt8) (pc : Nat)
  deriving DecidableEq

/-- The error of a run that comes to the end of its listing. -/
def Ending.error : Ending → RuntimeError
  | endOfCode pc => .unexpectedEndOfCode pc
  | unsupported byte pc => .unsupportedOpcode byte pc

/-- The instructions of a piece of code, front to back. -/
structure Listing where
  /-- The instructions with their pcs. -/
  lines : List (Nat × Instruction)
  /-- Why there are no more. -/
  ending : Ending
  deriving DecidableEq

/-- The listing of the bytes that begin at `pc`. -/
def disassemble (pc : Nat) (bytes : List UInt8) : Listing :=
  match _ : codeHead bytes with
  | .instruction i width =>
    let rest := disassemble (pc + width) (bytes.drop width)
    ⟨(pc, i) :: rest.lines, rest.ending⟩
  | .unsupported byte => ⟨[], .unsupported byte pc⟩
  | .ended => ⟨[], .endOfCode (pc + bytes.length)⟩
termination_by bytes.length
decreasing_by
  have := codeHead_width ‹_›
  simp only [List.length_drop]
  omega

/-- The listing of a code array from a pc on. -/
def listing (code : Array UInt8) (pc : Nat) : Listing := disassemble pc (code.toList.drop pc)

theorem listing_of_instruction {code : Array UInt8} {pc width : Nat} {i : Instruction}
    (h : codeHead (code.toList.drop pc) = .instruction i width) :
    listing code pc = ⟨(pc, i) :: (listing code (pc + width)).lines, (listing code (pc + width)).ending⟩ := by
  rw [listing, disassemble]
  split <;> simp_all [listing, List.drop_drop]

theorem listing_of_unsupported {code : Array UInt8} {pc : Nat} {byte : UInt8}
    (h : codeHead (code.toList.drop pc) = .unsupported byte) : listing code pc = ⟨[], .unsupported byte pc⟩ := by
  rw [listing, disassemble]
  split <;> simp_all

theorem listing_of_ended {code : Array UInt8} {pc : Nat} (h : codeHead (code.toList.drop pc) = .ended) :
    listing code pc = ⟨[], .endOfCode (pc + (code.toList.drop pc).length)⟩ := by
  rw [listing, disassemble]
  split <;> simp_all

/-! ## The machine decodes what code begins with -/

/-- The reader takes an operand of a fixed size, and finds the end of the code if the operand is cut. -/
structure CodeReader.Takes {α : Type} (r : CodeReader α) (size : Nat) (make : List UInt8 → α) : Prop where
  whole : ∀ {code : Array UInt8} {pc : Nat} {operand rest : List UInt8}, code.toList.drop pc = operand ++ rest →
    operand.length = size → r ⟨code, pc⟩ = .ok (make operand) ⟨code, pc + size⟩
  cut : ∀ {code : Array UInt8} {pc : Nat}, (code.toList.drop pc).length < size →
    ∃ c, r ⟨code, pc⟩ = .error (.unexpectedEndOfCode (pc + (code.toList.drop pc).length)) c

namespace CodeReader.Takes

variable {α β : Type}

theorem pure (a : α) : Takes (Pure.pure a) 0 fun _ => a where
  whole _ _ := rfl
  cut h := absurd h (Nat.not_lt_zero _)

theorem byte : Takes CodeReader.byte 1 fun operand => operand.headD 0 where
  whole := by
    intro code pc operand rest h hsize
    obtain ⟨b, rfl⟩ := List.length_eq_one_iff.1 hsize
    have hget : code[pc]? = some b := by
      rw [← Array.getElem?_toList, ← Nat.add_zero pc, ← List.getElem?_drop, h]
      rfl
    simp [CodeReader.byte, hget]
  cut := by
    intro code pc h
    have hsize : code.size ≤ pc := by
      rw [List.length_drop, Array.length_toList] at h
      omega
    exact ⟨⟨code, pc⟩, by simp [CodeReader.byte, hsize]⟩

theorem bind {r : CodeReader α} {next : α → CodeReader β} {n m : Nat} {f : List UInt8 → α} {g : α → List UInt8 → β}
    (hr : Takes r n f) (hnext : ∀ a, Takes (next a) m (g a)) :
    Takes (r >>= next) (n + m) fun operand => g (f (operand.take n)) (operand.drop n) where
  whole := by
    intro code pc operand rest h hsize
    have hfirst : code.toList.drop pc = operand.take n ++ (operand.drop n ++ rest) := by
      rw [h, ← List.append_assoc, List.take_append_drop]
    have hn : (operand.take n).length = n := by
      rw [List.length_take]
      omega
    have hsecond : code.toList.drop (pc + n) = operand.drop n ++ rest := by
      rw [← List.drop_drop, hfirst, List.drop_left' hn]
    have hm : (operand.drop n).length = m := by
      rw [List.length_drop]
      omega
    simp only [Bind.bind, EStateM.bind, hr.whole hfirst hn, (hnext _).whole hsecond hm, Nat.add_assoc]
  cut := by
    intro code pc h
    by_cases hn : (code.toList.drop pc).length < n
    · obtain ⟨c, hc⟩ := hr.cut hn
      exact ⟨c, by simp only [Bind.bind, EStateM.bind, hc]⟩
    · have hfirst := (List.take_append_drop n (code.toList.drop pc)).symm
      have hlen : ((code.toList.drop pc).take n).length = n := by
        rw [List.length_take]
        omega
      have hrest : (code.toList.drop pc).length = n + (code.toList.drop (pc + n)).length := by
        simp only [List.length_drop] at hn ⊢
        omega
      have hshort : (code.toList.drop (pc + n)).length < m := by omega
      obtain ⟨c, hc⟩ := (hnext (f ((code.toList.drop pc).take n))).cut hshort
      refine ⟨c, ?_⟩
      simp only [Bind.bind, EStateM.bind, hr.whole hfirst hlen, hc]
      rw [hrest, Nat.add_assoc]

theorem congr {r : CodeReader α} {size : Nat} {f g : List UInt8 → α} (hr : Takes r size f)
    (h : ∀ operand, operand.length = size → f operand = g operand) : Takes r size g where
  whole hdrop hsize := h _ hsize ▸ hr.whole hdrop hsize
  cut := hr.cut

end CodeReader.Takes

theorem toInt_toInt8 (b : UInt8) : b.toInt8.toInt = Int.bmod b.toNat 256 := by
  rw [← Int8.toInt_toBitVec, UInt8.toBitVec_toInt8, BitVec.toInt_eq_toNat_bmod]
  rfl

theorem signedByte_eq (b : UInt8) : b.toInt8.toInt32 = Int32.ofInt (Int.bmod b.toNat 256) := by
  rw [← toInt_toInt8]
  exact (Int32.ofInt_int8ToInt b.toInt8).symm

theorem signedPair_eq (a b : UInt8) : (Int16.ofInt (a.toInt8.toInt * 256 + b.toNat)).toInt32 =
    Int32.ofInt (Int.bmod (a.toNat * 256 + b.toNat) 65536) := by
  have hmod : Int.bmod (Int.bmod a.toNat 256 * 256 + b.toNat) 65536 = Int.bmod (a.toNat * 256 + b.toNat) 65536 := by
    rw [Int.bmod_def a.toNat 256]
    split <;> (rw [Int.bmod_def, Int.bmod_def]; omega)
  rw [← Int32.ofInt_int16ToInt, Int16.toInt_ofInt, toInt_toInt8]
  exact congrArg Int32.ofInt hmod

open CodeReader

/-- **Every opcode has its row in the table**, and its operand is read as that row says. -/
theorem Instruction.reader_takes (op : Opcode) :
    ∃ size make, opcodeTable.lookup op.toByte = some (size, make) ∧ Takes (reader op) size make := by
  cases op with
  | bipush =>
    refine ⟨1, _, rfl, (Takes.bind (.bind .byte fun b => .pure b.toInt8) fun b => .pure (push .bipush b.toInt32)).congr
      ?_⟩
    intro operand hsize
    obtain ⟨b, rfl⟩ := List.length_eq_one_iff.1 hsize
    exact congrArg (push .bipush) (by simpa [beNat] using signedByte_eq b)
  | sipush =>
    refine ⟨2, _, rfl, (Takes.bind (.bind (.bind .byte fun a => .pure a.toInt8) fun a => .bind .byte fun b =>
      .pure (Int16.ofInt (a.toInt * 256 + b.toNat))) fun n => .pure (push .sipush n.toInt32)).congr ?_⟩
    intro operand hsize
    obtain ⟨a, b, rfl⟩ := List.length_eq_two.1 hsize
    exact congrArg (push .sipush) (by simpa [beNat] using signedPair_eq a b)
  | iload =>
    refine ⟨1, _, rfl, (Takes.bind .byte fun b => .pure (iload b.toUInt16)).congr ?_⟩
    intro operand hsize
    obtain ⟨b, rfl⟩ := List.length_eq_one_iff.1 hsize
    simp [beNat]
  | istore =>
    refine ⟨1, _, rfl, (Takes.bind .byte fun b => .pure (istore b.toUInt16)).congr ?_⟩
    intro operand hsize
    obtain ⟨b, rfl⟩ := List.length_eq_one_iff.1 hsize
    simp [beNat]
  | iconst k => fin_cases k <;> exact ⟨0, _, rfl, .pure _⟩
  | iloadShort k | istoreShort k => fin_cases k <;> exact ⟨0, _, rfl, .pure _⟩
  | nop | aconstNull | pop | dup | iadd | isub | imul | ret => exact ⟨0, _, rfl, .pure _⟩

theorem Opcode.toByte_of_ofByte? {b : UInt8} {op : Opcode} (h : ofByte? b = some op) : op.toByte = b := by
  simpa using List.find?_some h

theorem lookup_of_unknown {byte : UInt8} (h : Opcode.ofByte? byte = none) : opcodeTable.lookup byte = none := by
  have hknown : ∀ b ∈ opcodeTable.map Prod.fst, (Opcode.ofByte? b).isSome := by decide +kernel
  rw [List.lookup_eq_none_iff]
  intro row hrow
  have hsome := hknown row.1 (List.mem_map_of_mem hrow)
  rw [bne_iff_ne]
  rintro rfl
  rw [h] at hsome
  exact absurd hsome Bool.false_ne_true

/-- **A frame decodes what its code begins with at its next pc**, and fails where the listing ends. -/
theorem Frame.fetch_eq (f : Frame) :
    match codeHead (f.code.toList.drop f.nextPc) with
    | .instruction i width => ∃ op, f.fetch = .ok ⟨f.nextPc, op, i, f.nextPc + width⟩
    | .unsupported byte => f.fetch = .error (.unsupportedOpcode byte f.nextPc)
    | .ended => f.fetch = .error (.unexpectedEndOfCode (f.nextPc + (f.code.toList.drop f.nextPc).length)) := by
  cases h : f.code.toList.drop f.nextPc with
  | nil =>
    obtain ⟨c, hc⟩ := Takes.byte.cut (show (f.code.toList.drop f.nextPc).length < 1 by rw [h]; exact Nat.one_pos)
    rw [h] at hc
    show f.fetch = _
    rw [fetch, CodeReader.instruction, hc]
  | cons b rest =>
    have hbyte : byte ⟨f.code, f.nextPc⟩ = .ok b ⟨f.code, f.nextPc + 1⟩ :=
      Takes.byte.whole (show _ = [b] ++ rest from h) rfl
    have hrest : f.code.toList.drop (f.nextPc + 1) = rest := by
      rw [← List.drop_drop, h]
      rfl
    cases hop : Opcode.ofByte? b with
    | none =>
      simp only [codeHead, lookup_of_unknown hop, fetch, CodeReader.instruction, hbyte, hop]
    | some op =>
      obtain ⟨size, make, hrow, htakes⟩ := Instruction.reader_takes op
      rw [Opcode.toByte_of_ofByte? hop] at hrow
      by_cases hsize : size ≤ rest.length
      · have hread := htakes.whole (hrest.trans (List.take_append_drop size rest).symm) (List.length_take_of_le hsize)
        simp only [codeHead, hrow, if_pos hsize]
        refine ⟨op, ?_⟩
        simp only [fetch, CodeReader.instruction, hbyte, hop, hread, Nat.add_assoc, Nat.add_comm 1]
      · obtain ⟨c, hc⟩ := htakes.cut (show (f.code.toList.drop (f.nextPc + 1)).length < size by rw [hrest]; omega)
        rw [hrest] at hc
        simp only [codeHead, hrow, if_neg hsize, fetch, CodeReader.instruction, hbyte, hop, hc, List.length_cons,
          Nat.add_assoc, Nat.add_comm 1]

/-- **What a frame decodes is the first line of the listing from its next pc on**, which goes on behind that
instruction; if there is no line, the frame fails as the listing ends. -/
theorem Frame.fetch_cases (f : Frame) :
    (∃ op i next, f.fetch = .ok ⟨f.nextPc, op, i, next⟩ ∧ f.nextPc < next ∧ next ≤ f.code.size ∧
      listing f.code f.nextPc = ⟨(f.nextPc, i) :: (listing f.code next).lines, (listing f.code next).ending⟩) ∨
    f.fetch = .error (listing f.code f.nextPc).ending.error ∧ (listing f.code f.nextPc).lines = [] := by
  have hfetch := f.fetch_eq
  cases hhead : codeHead (f.code.toList.drop f.nextPc) with
  | instruction i width =>
    rw [hhead] at hfetch
    obtain ⟨op, hop⟩ := hfetch
    obtain ⟨hpos, hle⟩ := codeHead_width hhead
    rw [List.length_drop, Array.length_toList] at hle
    exact .inl ⟨op, i, _, hop, by omega, by omega, listing_of_instruction hhead⟩
  | unsupported byte =>
    rw [hhead] at hfetch
    rw [listing_of_unsupported hhead]
    exact .inr ⟨hfetch, rfl⟩
  | ended =>
    rw [hhead] at hfetch
    rw [listing_of_ended hhead]
    exact .inr ⟨hfetch, rfl⟩

end Jvm
