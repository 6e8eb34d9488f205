import Jvm.Proofs.Assembly
/-!
# Streams of instructions

Code read instruction by instruction to its end, each with its opcode and its operand.  Nothing is lost and nothing is
added: what was written is read back, each instruction where its bytes begin, and what is read to the end can be written
again and gives the same bytes (`CodeReader.stream_inverts_assemble`).

Both directions come from one statement about a single instruction, `CodeReader.instruction_eq_ok`: a reader succeeds
exactly in front of something written, whatever stands behind it.
-/
namespace Jvm

/-! ## Operands -/

namespace Written

/-- **An opcode and what it makes of its operand give the operand away.** -/
theorem ext_instruction {w w' : Written} (hop : w.opcode = w'.opcode) (hi : w.instruction = w'.instruction) :
    w = w' := by
  obtain ⟨op, operand⟩ := w
  obtain ⟨op', operand'⟩ := w'
  cases hop
  cases op with
  | bipush =>
    have hvalue : operand.toInt32 = operand'.toInt32 := by
      simpa only [instruction, Instruction.push.injEq, Int32.ofInt_int8ToInt, true_and] using hi
    have hsame : operand.toInt = operand'.toInt := by rw [← Int8.toInt_toInt32, hvalue, Int8.toInt_toInt32]
    rw [Int8.toInt_inj.1 hsame]
  | sipush =>
    have hvalue : operand.toInt32 = operand'.toInt32 := by
      simpa only [instruction, Instruction.push.injEq, Int32.ofInt_int16ToInt, true_and] using hi
    have hsame : operand.toInt = operand'.toInt := by rw [← Int16.toInt_toInt32, hvalue, Int16.toInt_toInt32]
    rw [Int16.toInt_inj.1 hsame]
  | iload | istore =>
    injection hi with hindex
    rw [UInt8.toUInt16_inj.1 hindex]
  | _ => rfl

/-- The step of an instruction that is written at `pc`. -/
def stepAt (pc : Nat) (w : Written) : Step := ⟨pc, w.opcode, w.instruction, pc + w.bytes.length⟩

/-- Any bytes of the right number are those of an operand. -/
theorem exists_operand {op : Opcode} {size : Nat} {make : List UInt8 → Instruction}
    (hrow : opcodeTable.lookup op.toByte = some (size, make)) {bs : Bytes} (hsize : bs.length = size) :
    ∃ operand, operandBytes op operand = bs := by
  cases op with
  | bipush =>
    cases hrow
    obtain ⟨b, rfl⟩ := List.length_eq_one_iff.1 hsize
    exact ⟨b.toInt8, rfl⟩
  | sipush =>
    cases hrow
    have hlt : beNat bs < 256 ^ 2 := hsize ▸ beNat_lt bs
    have hnumber : (UInt16.ofNat (beNat bs)).toNat = beNat bs := UInt16.toNat_ofNat_of_lt' hlt
    refine ⟨(UInt16.ofNat (beNat bs)).toInt16, ?_⟩
    show beBytes 2 (UInt16.ofNat (beNat bs)).toNat = bs
    rw [hnumber, ← hsize, beBytes_beNat]
  | iload | istore =>
    cases hrow
    obtain ⟨b, rfl⟩ := List.length_eq_one_iff.1 hsize
    exact ⟨b, rfl⟩
  | iconst k | iloadShort k | istoreShort k =>
    fin_cases k <;> (cases hrow; exact ⟨(), (List.eq_nil_of_length_eq_zero hsize).symm⟩)
  | nop | aconstNull | pop | dup | iadd | isub | imul | ret =>
    cases hrow
    exact ⟨(), (List.eq_nil_of_length_eq_zero hsize).symm⟩

/-- **The row of its opcode makes an instruction of what is written.** -/
theorem row_of_operand (w : Written) {size : Nat} {make : List UInt8 → Instruction}
    (hrow : opcodeTable.lookup w.opcode.toByte = some (size, make)) :
    (operandBytes w.opcode w.operand).length = size ∧ make (operandBytes w.opcode w.operand) = w.instruction := by
  have hhead := codeHead_bytes w []
  simp only [List.append_nil, bytes, codeHead, hrow] at hhead
  split at hhead
  · injection hhead with hmake hwidth
    have hlength : (operandBytes w.opcode w.operand).length = size := by
      rw [List.length_cons] at hwidth
      omega
    rw [List.take_of_length_le (Nat.le_of_eq hlength)] at hmake
    exact ⟨hlength, hmake⟩
  · cases hhead

end Written

/-! ## One instruction -/

namespace CodeReader

variable {code : Array UInt8} {pc : Nat} {rest : Bytes}

/-- What is written is read, and the reader stops behind it. -/
theorem instruction_of_written {w : Written} (h : code.toList.drop pc = w.bytes ++ rest) :
    instruction ⟨code, pc⟩ = .ok (w.stepAt pc) ⟨code, pc + w.bytes.length⟩ := by
  obtain ⟨size, make, hrow, htakes⟩ := Instruction.reader_takes w.opcode
  obtain ⟨hlength, hmake⟩ := w.row_of_operand hrow
  have hbyte := Takes.byte.whole
    (show _ = [w.opcode.toByte] ++ (Written.operandBytes w.opcode w.operand ++ rest) from h) rfl
  have hbehind : code.toList.drop (pc + 1) = Written.operandBytes w.opcode w.operand ++ rest := by
    rw [← List.drop_drop, h]
    rfl
  have hwidth : pc + 1 + size = pc + w.bytes.length := by
    rw [Written.bytes, List.length_cons, hlength]
    omega
  unfold instruction
  rw [hbyte]
  dsimp only [List.headD_cons]
  rw [Opcode.ofByte?_toByte]
  dsimp only
  rw [htakes.whole hbehind hlength, hmake, hwidth]
  rfl

/-- Where something is read, it is written: the opcode is known, and its operand is not cut. -/
theorem written_of_instruction {s : Step} {c : CodeCursor} (h : instruction ⟨code, pc⟩ = .ok s c) :
    ∃ (w : Written) (rest : Bytes), code.toList.drop pc = w.bytes ++ rest := by
  unfold instruction at h
  cases hdrop : code.toList.drop pc with
  | nil =>
    obtain ⟨d, hbyte⟩ := Takes.byte.cut (show (code.toList.drop pc).length < 1 by rw [hdrop]; exact Nat.one_pos)
    rw [hbyte] at h
    cases h
  | cons b rest =>
    have hbyte := Takes.byte.whole (show _ = [b] ++ rest from hdrop) rfl
    have hrest : code.toList.drop (pc + 1) = rest := by
      rw [← List.drop_drop, hdrop]
      rfl
    rw [hbyte] at h
    dsimp only [List.headD_cons] at h
    cases hop : Opcode.ofByte? b with
    | none =>
      rw [hop] at h
      cases h
    | some op =>
      obtain rfl := Opcode.toByte_of_ofByte? hop
      obtain ⟨size, make, hrow, htakes⟩ := Instruction.reader_takes op
      by_cases hsize : size ≤ rest.length
      · obtain ⟨operand, hoperand⟩ := Written.exists_operand hrow (List.length_take_of_le hsize)
        refine ⟨⟨op, operand⟩, rest.drop size, ?_⟩
        rw [Written.bytes, hoperand, List.cons_append, List.take_append_drop]
      · obtain ⟨d, hcut⟩ := htakes.cut (show (code.toList.drop (pc + 1)).length < size by rw [hrest]; omega)
        rw [hop] at h
        dsimp only at h
        rw [hcut] at h
        cases h

/-- **An instruction is read exactly where one is written.** -/
theorem instruction_eq_ok {s : Step} {c : CodeCursor} : instruction ⟨code, pc⟩ = .ok s c ↔
    ∃ (w : Written) (rest : Bytes),
      code.toList.drop pc = w.bytes ++ rest ∧ s = w.stepAt pc ∧ c = ⟨code, pc + w.bytes.length⟩ := by
  constructor
  · intro h
    obtain ⟨w, rest, hw⟩ := written_of_instruction h
    rw [instruction_of_written hw] at h
    cases h
    exact ⟨w, rest, hw, rfl, rfl⟩
  · rintro ⟨w, rest, hw, rfl, rfl⟩
    exact instruction_of_written hw

/-! ## Streams -/

theorem size_sub_lt_of_instruction {s : Step} {c d : CodeCursor} (h : instruction c = .ok s d) :
    d.code.size - d.pc < c.code.size - c.pc := by
  obtain ⟨w, rest, hw, -, rfl⟩ := instruction_eq_ok.1 h
  have hlength := congrArg List.length hw
  rw [List.length_drop, Array.length_toList, List.length_append] at hlength
  have hpos : 0 < w.bytes.length := Nat.succ_pos _
  show c.code.size - (c.pc + w.bytes.length) < c.code.size - c.pc
  omega

/-- All instructions from a cursor to the end of the code, one behind the other. -/
def stream (c : CodeCursor) : Except RuntimeError (List Step) :=
  if c.code.size ≤ c.pc then .ok []
  else
    match _ : instruction c with
    | .error e _ => .error e
    | .ok s d => (stream d).map (s :: ·)
termination_by c.code.size - c.pc
decreasing_by exact size_sub_lt_of_instruction ‹_›

end CodeReader

/-- The steps of written instructions, the first of which stands at `pc`: each begins where the bytes of all before it
end. -/
def stepsFrom (pc : Nat) (code : List Written) : List Step := code.mapIdx fun k w => w.stepAt (pc + pcOf code k)

theorem stepsFrom_cons (pc : Nat) (w : Written) (code : List Written) :
    stepsFrom pc (w :: code) = w.stepAt pc :: stepsFrom (pc + w.bytes.length) code := by
  simp only [stepsFrom, List.mapIdx_cons, pcOf_cons, Nat.add_assoc]
  rfl

namespace CodeReader

variable {code : Array UInt8}

theorem stream_of_end {pc : Nat} (h : code.size ≤ pc) : stream ⟨code, pc⟩ = .ok [] := by
  rw [stream, if_pos h]

theorem stream_of_written {pc : Nat} {w : Written} {rest : Bytes} (h : code.toList.drop pc = w.bytes ++ rest) :
    stream ⟨code, pc⟩ = (stream ⟨code, pc + w.bytes.length⟩).map (w.stepAt pc :: ·) := by
  have hread := instruction_of_written h
  have hahead : ¬ code.size ≤ pc := by
    intro hle
    rw [List.drop_eq_nil_of_le (by rwa [Array.length_toList])] at h
    cases h
  rw [stream, if_neg hahead]
  split
  · rename_i e d herror
    rw [hread] at herror
    cases herror
  · rename_i s d hok
    rw [hread] at hok
    cases hok
    rfl

/-- **Written code is read back**, from wherever it begins to the end. -/
theorem stream_of_assembled : ∀ {written : List Written} {pc : Nat}, code.toList.drop pc = assemble written →
    stream ⟨code, pc⟩ = .ok (stepsFrom pc written)
  | [], pc, h => by
    have hend : code.size ≤ pc := by
      rw [← Array.length_toList]
      exact List.drop_eq_nil_iff.1 h
    exact stream_of_end hend
  | w :: written, pc, h => by
    have hw : code.toList.drop pc = w.bytes ++ assemble written := h
    have hrest : code.toList.drop (pc + w.bytes.length) = assemble written := by
      rw [← List.drop_drop, hw, List.drop_left]
    rw [stream_of_written hw, stream_of_assembled hrest, stepsFrom_cons]
    rfl

/-- **What is read to the end was written.** -/
theorem assembled_of_stream {c : CodeCursor} {steps : List Step} (h : stream c = .ok steps) :
    ∃ written, steps = stepsFrom c.pc written ∧ assemble written = c.code.toList.drop c.pc := by
  fun_induction stream c generalizing steps with
  | case1 c hend =>
    cases h
    refine ⟨[], rfl, ?_⟩
    rw [List.drop_eq_nil_of_le (by rwa [Array.length_toList])]
    rfl
  | case2 c hahead e d hread => cases h
  | case3 c hahead s d hread ih =>
    cases hstream : stream d with
    | error e =>
      rw [hstream] at h
      cases h
    | ok later =>
      rw [hstream] at h
      cases h
      obtain ⟨written, rfl, hwritten⟩ := ih hstream
      obtain ⟨w, rest, hw, rfl, rfl⟩ := instruction_eq_ok.1 hread
      refine ⟨w :: written, (stepsFrom_cons c.pc w written).symm, ?_⟩
      show w.bytes ++ assemble written = c.code.toList.drop c.pc
      rw [hwritten, ← List.drop_drop, hw, List.drop_left]

end CodeReader

theorem stepsFrom_injective : ∀ {pc : Nat} {code code' : List Written}, stepsFrom pc code = stepsFrom pc code' →
    code = code'
  | _, [], [], _ => rfl
  | pc, [], w' :: code', h => by
    rw [stepsFrom_cons] at h
    cases h
  | pc, w :: code, [], h => by
    rw [stepsFrom_cons] at h
    cases h
  | pc, w :: code, w' :: code', h => by
    rw [stepsFrom_cons, stepsFrom_cons] at h
    injection h with hstep hrest
    injection hstep with _ hop hi _
    obtain rfl := Written.ext_instruction hop hi
    rw [stepsFrom_injective hrest]

namespace CodeReader

/-- **Instructions decode in one way.**  A list of opcodes with their operands is read back from its bytes, each where
the bytes of those before it end, and the steps that are read determine the list.  Any bytes that are read to their end
without an error are the bytes of the list that was read. -/
theorem stream_inverts_assemble :
    (∀ written : List Written, stream ⟨(assemble written).toArray, 0⟩ = .ok (stepsFrom 0 written)) ∧
    (∀ written written' : List Written, stepsFrom 0 written = stepsFrom 0 written' → written = written') ∧
    ∀ (code : Array UInt8) (steps : List Step), stream ⟨code, 0⟩ = .ok steps →
      ∃ written, steps = stepsFrom 0 written ∧ assemble written = code.toList := by
  refine ⟨fun written => ?_, fun _ _ => stepsFrom_injective, fun code steps h => assembled_of_stream h⟩
  refine stream_of_assembled ?_
  rw [List.drop_zero, List.toList_toArray]

/-- An opcode of each length, with operands whose first bit is set. -/
def signedOperands : List Written := [⟨.bipush, -1⟩, ⟨.sipush, -32767⟩, ⟨.istore, 200⟩, ⟨.iloadShort (Fin.last 3), ()⟩]

/-- The numbers are read with their sign, and the index of a local variable without one. -/
theorem signedOperands_stream :
    ∃ steps, stream ⟨#[0x10, 0xFF, 0x11, 0x80, 0x01, 0x36, 0xC8, 0x1D], 0⟩ = .ok steps ∧
      steps.map (fun s => (s.pc, s.instruction)) =
        [(0, .push .bipush (-1)), (2, .push .sipush (-32767)), (5, .istore 200), (7, .iload 3)] ∧
      ∃ written, steps = stepsFrom 0 written ∧ assemble written = [0x10, 0xFF, 0x11, 0x80, 0x01, 0x36, 0xC8, 0x1D] := by
  obtain ⟨hread, -, hwritten⟩ := stream_inverts_assemble
  have hbytes : (assemble signedOperands).toArray = #[0x10, 0xFF, 0x11, 0x80, 0x01, 0x36, 0xC8, 0x1D] := by decide
  have hstream := hread signedOperands
  rw [hbytes] at hstream
  exact ⟨_, hstream, by decide, hwritten _ _ hstream⟩

end CodeReader

end Jvm
