import Jvm.ClassFile.Agreement
import Jvm.Proofs.FloatEquality
import Jvm.Proofs.SlotLayout
/-!
# Agreement is a partial equivalence

Pools and classes agree by what they hold, and a pool may hold numbers that differ from themselves.  So agreement is
symmetric and transitive, and a pool or class agrees with itself exactly if it has no NaN:
`ClassFile.agreement_partial_equivalence`.

What carries this from one number through the slots to the class is stronger: at each level two values agree exactly if
neither has a NaN and they are the same once every negative zero is made positive (`DecidedByForm`).  Any comparison
that is decided by such a form is a partial equivalence.
-/
namespace Jvm

/-! ## Comparisons decided by a form -/

/-- Two values agree exactly if both are sound and they have the same form. -/
def DecidedByForm {α : Type} (agrees : α → α → Bool) (sound : α → Prop) (form : α → α) : Prop :=
  ∀ a b, agrees a b = true ↔ sound a ∧ sound b ∧ form a = form b

namespace DecidedByForm

variable {α : Type} {agrees : α → α → Bool} {sound : α → Prop} {form : α → α}

theorem symm (h : DecidedByForm agrees sound form) (a b : α) (hab : agrees a b = true) : agrees b a = true := by
  obtain ⟨ha, hb, hform⟩ := (h a b).1 hab
  exact (h b a).2 ⟨hb, ha, hform.symm⟩

theorem trans (h : DecidedByForm agrees sound form) (a b c : α) (hab : agrees a b = true) (hbc : agrees b c = true) :
    agrees a c = true := by
  obtain ⟨ha, -, hform⟩ := (h a b).1 hab
  obtain ⟨-, hc, hform'⟩ := (h b c).1 hbc
  exact (h a c).2 ⟨ha, hc, hform.trans hform'⟩

theorem self_iff (h : DecidedByForm agrees sound form) (a : α) : agrees a a = true ↔ sound a :=
  (h a a).trans ⟨fun ha => ha.1, fun ha => ⟨ha, ha, rfl⟩⟩

end DecidedByForm

/-! ## Constants -/

namespace Constant

/-- Whether the constant is a floating-point number with the bits of a NaN. -/
def isNaN : Constant → Bool
  | float bits => 0x7F800000 < bits && bits < 0x80000000 || 0xFF800000 < bits
  | double bits => 0x7FF0000000000000 < bits && bits < 0x8000000000000000 || 0xFFF0000000000000 < bits
  | _ => false

/-- The constant, or the positive zero of its width if it is the negative one. -/
def dropZeroSign : Constant → Constant
  | float bits => float (if bits = 0x80000000 then 0 else bits)
  | double bits => double (if bits = 0x8000000000000000 then 0 else bits)
  | c => c

theorem isNaN_float (x : UInt32) : (float x).isNaN = Ieee.single.isNaN x.toNat := by
  rw [Bool.eq_iff_iff, Ieee.isNaN_single]
  simp [isNaN]

theorem isNaN_double (x : UInt64) : (double x).isNaN = Ieee.double.isNaN x.toNat := by
  rw [Bool.eq_iff_iff, Ieee.isNaN_double]
  simp [isNaN]

theorem decidedByForm_agrees : DecidedByForm agrees (·.isNaN = false) dropZeroSign := by
  intro a b
  beta_reduce
  fun_cases agrees a b with
  | case1 x y =>
    rw [(Ieee.fits_single x).equal_iff (Ieee.fits_single y), isNaN_float, isNaN_float, dropZeroSign, dropZeroSign,
      float.injEq, Ieee.dropZeroSign_single, Ieee.dropZeroSign_single, UInt32.toNat_inj]
  | case2 x y =>
    rw [(Ieee.fits_double x).equal_iff (Ieee.fits_double y), isNaN_double, isNaN_double, dropZeroSign, dropZeroSign,
      double.injEq, Ieee.dropZeroSign_double, Ieee.dropZeroSign_double, UInt64.toNat_inj]
  | case3 a b hfloat hdouble =>
    -- the two are not numbers of one width, so at most one of them has a sign to drop
    rw [decide_eq_true_eq]
    constructor
    · rintro rfl
      cases a with
      | float x => exact (hfloat x x rfl rfl).elim
      | double x => exact (hdouble x x rfl rfl).elim
      | _ => exact ⟨rfl, rfl, rfl⟩
    · rintro ⟨-, -, hform⟩
      revert hform
      fun_cases dropZeroSign a <;> fun_cases dropZeroSign b <;> grind

end Constant

/-! ## Pools -/

namespace ConstantPool

open Constant

theorem decidedByForm_slotAgrees : DecidedByForm slotAgrees (fun slot => ∀ c ∈ slot, c.isNaN = false)
    (Option.map dropZeroSign) := by
  intro a b
  cases a with
  | none => cases b <;> simp [slotAgrees]
  | some a =>
    cases b with
    | none => simp [slotAgrees]
    | some b => simpa [slotAgrees] using decidedByForm_agrees a b

theorem decidedByForm_slotsAgree :
    DecidedByForm slotsAgree (fun slots => ∀ slot ∈ slots, ∀ c ∈ slot, c.isNaN = false)
      (List.map (Option.map dropZeroSign)) := by
  intro as
  induction as with
  | nil => intro bs; cases bs <;> simp [slotsAgree]
  | cons a as ih =>
    intro bs
    cases bs with
    | nil => simp [slotsAgree]
    | cons b bs =>
      rw [slotsAgree, Bool.and_eq_true, decidedByForm_slotAgrees, ih, List.map_cons, List.map_cons, List.cons.injEq]
      simp only [List.forall_mem_cons]
      tauto

/-- No constant of the pool is a NaN. -/
def NaNFree (pool : ConstantPool) : Prop := ∀ entry ∈ pool.entries, entry.2.isNaN = false

instance (pool : ConstantPool) : Decidable pool.NaNFree := inferInstanceAs (Decidable (∀ entry ∈ pool.entries, _))

/-- The pool with the positive zero in place of each negative one. -/
def dropZeroSigns (pool : ConstantPool) : ConstantPool := ⟨pool.count, pool.slots.map (Option.map dropZeroSign)⟩

theorem nanFree_iff {pool : ConstantPool} : pool.NaNFree ↔ ∀ slot ∈ pool.slots.toList, ∀ c ∈ slot, c.isNaN = false := by
  constructor
  · intro h slot hslot c hc
    obtain ⟨index, hindex⟩ := List.mem_iff_getElem?.1 hslot
    rw [Array.getElem?_toList, Option.mem_def.1 hc] at hindex
    exact h (index, c) (mem_entries.2 hindex)
  · rintro h ⟨index, c⟩ hentry
    have hslot := mem_entries.1 hentry
    rw [← Array.getElem?_toList] at hslot
    exact h _ (List.mem_of_getElem? hslot) c rfl

theorem dropZeroSigns_inj {a b : ConstantPool} : a.dropZeroSigns = b.dropZeroSigns ↔
    a.count = b.count ∧ a.slots.toList.map (Option.map dropZeroSign) =
      b.slots.toList.map (Option.map dropZeroSign) := by
  rw [ConstantPool.ext_iff, ← Array.toList_inj, dropZeroSigns, dropZeroSigns, Array.toList_map, Array.toList_map]

theorem decidedByForm_agrees : DecidedByForm agrees NaNFree dropZeroSigns := by
  intro a b
  rw [agrees, Bool.and_eq_true, decide_eq_true_eq, decidedByForm_slotsAgree, nanFree_iff, nanFree_iff,
    dropZeroSigns_inj]
  tauto

end ConstantPool

/-! ## Classes -/

namespace ClassFile

/-- The class with the positive zero in place of each negative one among its constants. -/
def dropZeroSigns (c : ClassFile) : ClassFile := { c with pool := c.pool.dropZeroSigns }

theorem decidedByForm_agrees : DecidedByForm agrees (·.pool.NaNFree) dropZeroSigns := by
  intro a b
  rw [agrees, Bool.and_eq_true, decide_eq_true_eq, ConstantPool.decidedByForm_agrees]
  cases a
  cases b
  simp only [dropZeroSigns, mk.injEq]
  tauto

/-- **Agreement of pools and of classes is a partial equivalence**, with floating-point constants compared as floats.
Those that agree with themselves are those without a NaN, and two of them agree exactly if they differ in the signs of
zeros only. -/
theorem agreement_partial_equivalence :
    (∀ x y, (Constant.float x).agrees (.float y) = (Float32.ofBits x == Float32.ofBits y)) ∧
    (∀ x y, (Constant.double x).agrees (.double y) = (Float.ofBits x == Float.ofBits y)) ∧
    (∀ a b : ConstantPool, a.agrees b = true → b.agrees a = true) ∧
    (∀ a b c : ConstantPool, a.agrees b = true → b.agrees c = true → a.agrees c = true) ∧
    (∀ a : ConstantPool, a.agrees a = true ↔ a.NaNFree) ∧
    (∀ a b : ConstantPool, a.agrees b = true ↔ a.NaNFree ∧ b.NaNFree ∧ a.dropZeroSigns = b.dropZeroSigns) ∧
    (∀ a b : ClassFile, a.agrees b = true → b.agrees a = true) ∧
    (∀ a b c : ClassFile, a.agrees b = true → b.agrees c = true → a.agrees c = true) ∧
    (∀ a : ClassFile, a.agrees a = true ↔ a.pool.NaNFree) ∧
    (∀ a b : ClassFile, a.agrees b = true ↔ a.pool.NaNFree ∧ b.pool.NaNFree ∧ a.dropZeroSigns = b.dropZeroSigns) ∧
    (∀ bytes a b, parse bytes = .ok a → parse bytes = .ok b → (a.agrees b = true ↔ a.pool.NaNFree)) := by
  have hpool := ConstantPool.decidedByForm_agrees
  refine ⟨Ieee.equal_single_eq_beq, Ieee.equal_double_eq_beq, hpool.symm, hpool.trans, hpool.self_iff, hpool,
    decidedByForm_agrees.symm, decidedByForm_agrees.trans, decidedByForm_agrees.self_iff, decidedByForm_agrees,
    fun bytes a b ha hb => ?_⟩
  obtain rfl : a = b := Except.ok.inj (ha.symm.trans hb)
  exact decidedByForm_agrees.self_iff a

/-- A class with two constants, a number of each width. -/
def numbersFile (x : UInt32) (y : UInt64) : Bytes :=
  be4 0xCAFEBABE ++ [0, 0, 0, 52, 0, 4] ++ Constant.toBytes (.float x) ++ Constant.toBytes (.double y) ++
    [0, 32, 0, 0, 0, 0, 0, 0, 0, 0, 0, 0, 0, 0]

def numbersClass (x : UInt32) (y : UInt64) : ClassFile :=
  ⟨0, 52, ⟨4, #[none, some (.float x), some (.double y), none]⟩, ⟨32⟩, 0, 0, [], [], [], []⟩

/-- Zeros of different signs agree, in either order and through a third class.  A class with a NaN does not agree with
itself, read twice from the same bytes. -/
theorem numbersFile_agreement :
    parse (numbersFile 0x80000000 0) = .ok (numbersClass 0x80000000 0) ∧
    parse (numbersFile 0 0x8000000000000000) = .ok (numbersClass 0 0x8000000000000000) ∧
    (numbersClass 0x80000000 0).agrees (numbersClass 0 0) = true ∧
    (numbersClass 0 0x8000000000000000).agrees (numbersClass 0x80000000 0) = true ∧
    parse (numbersFile 0 0xFFF8000000000001) = .ok (numbersClass 0 0xFFF8000000000001) ∧
    (numbersClass 0 0xFFF8000000000001).agrees (numbersClass 0 0xFFF8000000000001) = false := by
  obtain ⟨-, -, -, -, -, -, hsymm, htrans, -, hforms, hparse⟩ := agreement_partial_equivalence
  have hfirst : (numbersClass 0x80000000 0).agrees (numbersClass 0 0) = true :=
    (hforms _ _).2 ⟨by decide +kernel, by decide +kernel, by decide +kernel⟩
  have hsecond : (numbersClass 0 0).agrees (numbersClass 0 0x8000000000000000) = true :=
    (hforms _ _).2 ⟨by decide +kernel, by decide +kernel, by decide +kernel⟩
  have hnan : parse (numbersFile 0 0xFFF8000000000001) = .ok (numbersClass 0 0xFFF8000000000001) := by decide +kernel
  refine ⟨by decide +kernel, by decide +kernel, hfirst, hsymm _ _ (htrans _ _ _ hfirst hsecond), hnan, ?_⟩
  rw [← Bool.not_eq_true, hparse _ _ _ hnan hnan]
  decide +kernel

end ClassFile

end Jvm
