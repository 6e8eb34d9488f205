import Jvm.Proofs.Assembly
import Jvm.Proofs.RunLaws
import Mathlib.Logic.Relation
/-!
# Short and long forms are interchangeable

A number or a local variable can be written in a short form or in longer ones.  Writing an instruction in a longer form
moves every instruction behind it, and changes nothing else: `Thread.run_of_longer_forms` says that the run goes the
same way, and that an error names the place to which the failing instruction was moved.

The argument has two halves.  What an instruction does to a frame does not depend on where it stands, but for the place
that an error names (`Frame.Portable`); and the two frames stay in front of the same instruction of the two programs
(`Thread.Beside`).
-/
namespace Jvm

/-! ## Longer forms -/

/-- An instruction and the next longer form of it.  The first short opcode of a number pushes -1. -/
inductive Written.Longer : Written → Written → Prop where
  | iconst (k : Fin 7) : Longer ⟨.iconst k, ()⟩ ⟨.bipush, Int8.ofInt ((k.val : Int) - 1)⟩
  | bipush (n : Int8) : Longer ⟨.bipush, n⟩ ⟨.sipush, n.toInt16⟩
  | iload (k : Fin 4) : Longer ⟨.iloadShort k, ()⟩ ⟨.iload, UInt8.ofNat k.val⟩
  | istore (k : Fin 4) : Longer ⟨.istoreShort k, ()⟩ ⟨.istore, UInt8.ofNat k.val⟩

/-- The instructions in the same order, each in the same form or in a longer one. -/
abbrev Lengthened : List Written → List Written → Prop := List.Forall₂ (Relation.ReflTransGen Written.Longer)

/-- The two instructions do the same: both return, or neither does and they have one effect. -/
def Instruction.Same (i j : Instruction) : Prop := (i = .ret ↔ j = .ret) ∧ i.effect = j.effect

theorem Written.Longer.same {w w' : Written} (h : w.Longer w') : w.instruction.Same w'.instruction := by
  cases h with
  | iconst k => fin_cases k <;> exact ⟨by simp [Written.instruction, Instruction.ofOpcode], rfl⟩
  | bipush n =>
    have hvalue : Int32.ofInt n.toInt16.toInt = Int32.ofInt n.toInt := by rw [Int8.toInt_toInt16]
    refine ⟨by simp [Written.instruction], ?_⟩
    simp only [Written.instruction, Instruction.effect, hvalue]
  | iload k => fin_cases k <;> exact ⟨by simp [Written.instruction, Instruction.ofOpcode], rfl⟩
  | istore k => fin_cases k <;> exact ⟨by simp [Written.instruction, Instruction.ofOpcode], rfl⟩

/-- **However often it is lengthened, an instruction does the same.** -/
theorem Written.same_of_longer {w w' : Written} (h : Relation.ReflTransGen Longer w w') :
    w.instruction.Same w'.instruction := by
  induction h with
  | refl => exact ⟨Iff.rfl, rfl⟩
  | tail _ hlast ih => exact ⟨ih.1.trans hlast.same.1, ih.2.trans hlast.same.2⟩

/-! ## Places -/

/-- `φ` takes the place of each instruction of `code`, and its end, to the corresponding place of `code'`. -/
def Relocates (φ : Nat → Nat) (code code' : List Written) : Prop := ∀ k ≤ code.length, φ (pcOf code k) = pcOf code' k

/-- Where an instruction stands in the second code, by where it stands in the first. -/
def relocation : List Written → List Written → Nat → Nat
  | w :: code, w' :: code', pc => if pc = 0 then 0 else w'.bytes.length + relocation code code' (pc - w.bytes.length)
  | _, _, _ => 0

theorem relocates_relocation : ∀ {code code' : List Written}, code.length = code'.length →
    Relocates (relocation code code') code code'
  | [], [], _, k, _ => by simp [relocation, pcOf, assemble]
  | _ :: _, _ :: _, _, 0, _ => by simp [relocation, pcOf, assemble]
  | w :: code, w' :: code', hlength, k + 1, hk => by
    have hrest := relocates_relocation (Nat.succ.inj hlength) k (Nat.le_of_succ_le_succ hk)
    -- an instruction has at least its opcode, so the place is not the first one
    have hpos : w.bytes.length + pcOf code k ≠ 0 := by
      simp [Written.bytes]
    rw [pcOf_cons, pcOf_cons, relocation, if_neg hpos, Nat.add_sub_cancel_left, hrest]

namespace Frame

variable {f : Frame} {code : List Written} {k : Nat}

theorem fetch_of_written {w : Written} (hcode : f.code.toList = assemble code) (hnext : f.nextPc = pcOf code k)
    (hw : code[k]? = some w) : ∃ op, f.fetch = .ok ⟨pcOf code k, op, w.instruction, pcOf code (k + 1)⟩ := by
  obtain ⟨hk, rfl⟩ := List.getElem?_eq_some_iff.1 hw
  have hahead : f.code.toList.drop f.nextPc = code[k].bytes ++ assemble (code.drop (k + 1)) := by
    rw [hcode, hnext, drop_pcOf, List.drop_eq_getElem_cons hk]
    rfl
  have hfetch := f.fetch_eq
  rw [hahead, codeHead_bytes] at hfetch
  obtain ⟨op, hop⟩ := hfetch
  exact ⟨op, by rw [hop, hnext, pcOf_succ hw]⟩

theorem fetch_of_end (hcode : f.code.toList = assemble code) (hnext : f.nextPc = pcOf code code.length) :
    f.fetch = .error (.unexpectedEndOfCode (pcOf code code.length)) := by
  have hahead : f.code.toList.drop f.nextPc = [] := by
    rw [hcode, hnext, drop_pcOf, List.drop_length]
    rfl
  have hfetch := f.fetch_eq
  rw [hahead] at hfetch
  rw [hfetch, hnext]
  rfl

end Frame

/-! ## The same frame in other code -/

/-- The error of an instruction that was moved. -/
def RuntimeError.mapPc (φ : Nat → Nat) : RuntimeError → RuntimeError
  | unsupportedOpcode opcode pc => .unsupportedOpcode opcode (φ pc)
  | unexpectedEndOfCode pc => .unexpectedEndOfCode (φ pc)
  | stackOverflow pc => .stackOverflow (φ pc)
  | stackUnderflow pc => .stackUnderflow (φ pc)
  | localIndexOutOfRange index maxLocals pc => .localIndexOutOfRange index maxLocals (φ pc)
  | typeMismatch expected pc => .typeMismatch expected (φ pc)
  | callStackOverflow depth => .callStackOverflow depth
  | missingCode method => .missingCode method
  | noActiveFrame => .noActiveFrame

namespace Frame

/-- The frame with its values in store, in other code. -/
def moved (φ : Nat → Nat) (code : Array UInt8) (nextPc : Nat) (f : Frame) : Frame :=
  { f with code := code, pc := φ f.pc, nextPc := nextPc }

/-- An instruction is entered at the corresponding place. -/
theorem enter_moved {φ : Nat → Nat} (code : Array UInt8) (nextPc : Nat) (f : Frame) (s s' : Step)
    (hplace : φ s.pc = s'.pc) :
    (f.moved φ code nextPc).enter s' = (f.enter s).moved φ code s'.nextPc := by
  simp only [enter, moved, hplace]

/-- The action does the same in other code, and an error names the place there. -/
def Portable {α : Type} (action : Frame.Action α) : Prop :=
  ∀ (φ : Nat → Nat) (code : Array UInt8) (nextPc : Nat) (f : Frame),
  action (f.moved φ code nextPc) =
    match action f with
    | .ok a g => .ok a (g.moved φ code nextPc)
    | .error e g => .error (e.mapPc φ) (g.moved φ code nextPc)

namespace Portable

variable {α β : Type}

theorem pure (a : α) : Portable (Pure.pure a) := fun _ _ _ _ => rfl

theorem bind {action : Frame.Action α} {next : α → Frame.Action β} (ha : Portable action)
    (hn : ∀ a, Portable (next a)) :
    Portable (action >>= next) := by
  intro φ code nextPc f
  have hfirst := ha φ code nextPc f
  simp only [Bind.bind, EStateM.bind]
  cases hact : action f with
  | ok a g =>
    rw [hact] at hfirst
    simp only [hfirst]
    exact hn a φ code nextPc g
  | error e g =>
    rw [hact] at hfirst
    simp only [hfirst]

theorem push (v : Value) : Portable (Frame.push v) := by
  intro φ code nextPc f
  simp only [Frame.push, moved]
  cases f.stack.push? v <;> rfl

theorem pop : Portable Frame.pop := by
  intro φ code nextPc f
  simp only [Frame.pop, moved]
  cases f.stack.pop? <;> rfl

theorem peek : Portable Frame.peek := by
  intro φ code nextPc f
  simp only [Frame.peek, moved]
  cases f.stack.peek? <;> rfl

theorem asInt (v : Value) : Portable (Frame.asInt v) := by
  intro φ code nextPc f
  simp only [Frame.asInt, moved]
  cases v.int? <;> rfl

theorem load (index : UInt16) : Portable (Frame.load index) := by
  intro φ code nextPc f
  simp only [Frame.load, moved]
  cases f.locals.get? index <;> rfl

theorem store (index : UInt16) (v : Value) : Portable (Frame.store index v) := by
  intro φ code nextPc f
  simp only [Frame.store, moved]
  cases f.locals.set? index v <;> rfl

end Portable

end Frame

/-- **No instruction depends on the code that it stands in.** -/
theorem Instruction.effect_portable (i : Instruction) : Frame.Portable i.effect :=
  i.effect_induction (motive := @Frame.Portable) .pure .bind .push .pop .peek .asInt .load .store

/-! ## Two programs side by side -/

namespace Thread

/-- What the frames of a thread have in store. -/
def contents (t : Thread) : List (OperandStack × LocalVariables) := t.frames.map fun f => (f.stack, f.locals)

section

variable {φ : Nat → Nat} {code code' : List Written} {t u : Thread}

/-- Both threads have finished, or both have one frame, in front of the same instruction of `code` and of `code'`, with
the same values in store. -/
def Beside (φ : Nat → Nat) (code code' : List Written) (t u : Thread) : Prop :=
  t.frames = [] ∧ u.frames = [] ∨
    ∃ k f, k ≤ code.length ∧ f.code.toList = assemble code ∧ f.nextPc = pcOf code k ∧ t.frames = [f] ∧
      u.frames = [f.moved φ (assemble code').toArray (pcOf code' k)]

/-- An instruction leaves its frame in the same code and in front of the same instruction. -/
theorem leftBy_stands {g : Frame} {k : Nat} (i : Instruction) (hcode : g.code.toList = assemble code)
    (hnext : g.nextPc = pcOf code k) :
    (g.leftBy i.effect).code.toList = assemble code ∧ (g.leftBy i.effect).nextPc = pcOf code k := by
  obtain ⟨hkept, -, hstays⟩ := i.effect_keepsCode g
  exact ⟨(congrArg Array.toList hkept).trans hcode, hstays.trans hnext⟩

theorem Beside.contents_eq (h : Beside φ code code' t u) : u.contents = t.contents := by
  rcases h with ⟨ht, hu⟩ | ⟨k, f, -, -, -, ht, hu⟩
  · rw [contents, contents, ht, hu]
  · rw [contents, contents, ht, hu]
    rfl

theorem Beside.frames_eq_nil_iff (h : Beside φ code code' t u) : t.frames = [] ↔ u.frames = [] := by
  rcases h with ⟨ht, hu⟩ | ⟨k, f, -, -, -, ht, hu⟩
  · rw [ht, hu]
  · rw [ht, hu]
    simp

/-- Two steps side by side: both succeed, or both fail in the same way, and the threads that they leave are side by
side. -/
inductive StepsBeside (φ : Nat → Nat) (code code' : List Written) :
    EStateM.Result RuntimeError Thread Step → EStateM.Result RuntimeError Thread Step → Prop where
  | ok {s s' : Step} {t u : Thread} : Beside φ code code' t u → StepsBeside φ code code' (.ok s t) (.ok s' u)
  | error {e : RuntimeError} {t u : Thread} : Beside φ code code' t u →
    StepsBeside φ code code' (.error e t) (.error (e.mapPc φ) u)

variable (hcodes : Lengthened code code') (hφ : Relocates φ code code')

include hcodes hφ

/-- **A step of the one program is a step of the other.** -/
theorem step_beside (h : Beside φ code code' t u) : StepsBeside φ code code' t.step u.step := by
  rcases id h with ⟨ht, hu⟩ | ⟨k, f, hk, hcode, hnext, ht, hu⟩
  · rw [step_nil ht, step_nil hu]
    exact .error h
  have hlength := hcodes.length_eq
  rw [step_cons ht, step_cons hu]
  rcases Nat.lt_or_eq_of_le hk with hlt | rfl
  · obtain ⟨op, hfetch⟩ := f.fetch_of_written hcode hnext (List.getElem?_eq_getElem hlt)
    obtain ⟨op', hfetch'⟩ := (f.moved φ (assemble code').toArray (pcOf code' k)).fetch_of_written rfl rfl
      (List.getElem?_eq_getElem (hlength ▸ hlt))
    obtain ⟨hret, heffect⟩ := Written.same_of_longer (hcodes.get hlt (hlength ▸ hlt))
    simp only [hfetch, hfetch', List.get_eq_getElem] at hret heffect ⊢
    by_cases hreturns : code[k].instruction = .ret
    · rw [if_pos hreturns, if_pos (hret.1 hreturns)]
      exact .ok (.inl ⟨rfl, rfl⟩)
    · rw [if_neg hreturns, if_neg (mt hret.2 hreturns), ← heffect]
      -- the two instructions are entered at corresponding places
      have hentered := f.enter_moved (assemble code').toArray (pcOf code' k)
        ⟨pcOf code k, op, code[k].instruction, pcOf code (k + 1)⟩
        ⟨pcOf code' k, op', code'[k].instruction, pcOf code' (k + 1)⟩ (hφ k hk)
      rw [hentered, code[k].instruction.effect_portable]
      set g := f.enter ⟨pcOf code k, op, code[k].instruction, pcOf code (k + 1)⟩
      have hstands := leftBy_stands (g := g) code[k].instruction hcode rfl
      unfold Frame.leftBy at hstands
      cases heffect' : code[k].instruction.effect g with
      | ok a g' =>
        rw [heffect'] at hstands
        exact .ok (.inr ⟨k + 1, g', hlt, hstands.1, hstands.2, rfl, rfl⟩)
      | error e g' =>
        rw [heffect'] at hstands
        exact .error (.inr ⟨k + 1, g', hlt, hstands.1, hstands.2, rfl, rfl⟩)
  · have hend := f.fetch_of_end hcode hnext
    have hnext' : (f.moved φ (assemble code').toArray (pcOf code' code.length)).nextPc = pcOf code' code'.length := by
      rw [← hlength]
      rfl
    have hend' := Frame.fetch_of_end rfl hnext'
    rw [hend, hend', ← hlength, ← hφ _ (Nat.le_refl _)]
    exact .error h

/-- **The two programs run to the same count, or fail in the same way**, with the same values in store. -/
theorem run_beside (h : Beside φ code code' t u) :
    u.run.1 = t.run.1.mapError (RuntimeError.mapPc φ) ∧ u.run.2.contents = t.run.2.contents := by
  -- By induction over the run of `t`; the run of `u` keeps step with it.
  induction t using run_induction generalizing u with
  | finished t hframes =>
    rw [run_of_finished hframes, run_of_finished (h.frames_eq_nil_iff.1 hframes)]
    exact ⟨rfl, h.contents_eq⟩
  | failed t e t' hframes hstep =>
    have hsame := step_beside hcodes hφ h
    rw [hstep] at hsame
    generalize hu : u.step = r at hsame
    cases hsame with
    | error h' =>
      rw [run_of_error hframes hstep, run_of_error (mt h.frames_eq_nil_iff.2 hframes) hu]
      exact ⟨rfl, h'.contents_eq⟩
  | next t s t' hstep ih =>
    have hsame := step_beside hcodes hφ h
    rw [hstep] at hsame
    generalize hu : u.step = r at hsame
    cases hsame with
    | ok h' =>
      obtain ⟨hresult, hcontents⟩ := ih h'
      rw [run_of_step hstep, run_of_step hu, hresult]
      refine ⟨?_, hcontents⟩
      cases t'.run.1 with
      | ok n => rfl
      | error e => rfl

/-- **After each number of steps they have the same values in store**, or have failed in the same way. -/
theorem after_beside : ∀ {k : Nat} {t u : Thread}, Beside φ code code' t u →
    (u.after k).map contents = ((t.after k).map contents).mapError (RuntimeError.mapPc φ)
  | 0, t, u, h => congrArg Except.ok h.contents_eq
  | k + 1, t, u, h => by
    have hsame := step_beside hcodes hφ h
    generalize ht : t.step = r at hsame
    generalize hu : u.step = r' at hsame
    cases hsame with
    | ok h' =>
      rw [after_succ_of_step ht, after_succ_of_step hu]
      exact after_beside h'
    | error _ =>
      rw [after_succ_of_error ht, after_succ_of_error hu]
      rfl

end

/-- **Short and long forms are interchangeable.**  Let the second program be the first with any of its instructions in
longer forms, and let `φ` take places in the first to the corresponding places in the second; there is such a `φ`.  Of
two fresh frames with the same sizes, the one runs to the same count as the other, or to the same error at the place
that `φ` gives.  After every number of steps, and at the end, they have the same operands and the same local variables.
-/
theorem run_of_longer_forms (code code' : List Written) (hcodes : Lengthened code code') (maxStack maxLocals : UInt16)
    (handlers handlers' : List ExceptionHandler) (t u : Thread)
    (ht : t.frames = [.ofCode ⟨maxStack, maxLocals, (assemble code).toArray, handlers⟩])
    (hu : u.frames = [.ofCode ⟨maxStack, maxLocals, (assemble code').toArray, handlers'⟩]) :
    (∃ φ, Relocates φ code code') ∧ ∀ φ, Relocates φ code code' →
      u.run.1 = t.run.1.mapError (RuntimeError.mapPc φ) ∧ u.run.2.contents = t.run.2.contents ∧
        ∀ k, (u.after k).map contents = ((t.after k).map contents).mapError (RuntimeError.mapPc φ) := by
  refine ⟨⟨_, relocates_relocation hcodes.length_eq⟩, fun φ hφ => ?_⟩
  have hstart : Beside φ code code' t u := by
    refine .inr ⟨0, _, Nat.zero_le _, rfl, rfl, ht, ?_⟩
    have hzero : φ 0 = 0 := hφ 0 (Nat.zero_le _)
    rw [hu, Frame.moved]
    simp only [Frame.ofCode, hzero]
    rfl
  obtain ⟨hresult, hcontents⟩ := run_beside hcodes hφ hstart
  exact ⟨hresult, hcontents, fun k => after_beside hcodes hφ hstart⟩

/-- `iconst_5`, `bipush -3`, `iadd`, `istore_3`, `iload_3`, `iadd` and `return`. -/
def shortSum : List Written :=
  [⟨.iconst (Fin.last 6), ()⟩, ⟨.bipush, (-3 : Int8)⟩, ⟨.iadd, ()⟩, ⟨.istoreShort (Fin.last 3), ()⟩,
    ⟨.iloadShort (Fin.last 3), ()⟩, ⟨.iadd, ()⟩, ⟨.ret, ()⟩]

/-- `sipush 5`, `sipush -3`, `iadd`, `istore 3`, `iload_3`, `iadd` and `return`. -/
def longSum : List Written :=
  [⟨.sipush, (5 : Int16)⟩, ⟨.sipush, (-3 : Int16)⟩, ⟨.iadd, ()⟩, ⟨.istore, (3 : UInt8)⟩, ⟨.iloadShort (Fin.last 3), ()⟩,
    ⟨.iadd, ()⟩, ⟨.ret, ()⟩]

/-- The first instruction is lengthened twice, and one is left as it is.  The second addition lacks an operand; it
stands at pc 6, and in the longer program at pc 10.  Both programs have stored the first sum by then. -/
theorem shortSum_lengthened :
    (run ⟨0, [.ofCode ⟨2, 4, (assemble shortSum).toArray, []⟩], 1⟩).1 = .error (.stackUnderflow 6) ∧
      (run ⟨0, [.ofCode ⟨2, 4, (assemble longSum).toArray, []⟩], 1⟩).1 = .error (.stackUnderflow 10) ∧
      (after 4 ⟨0, [.ofCode ⟨2, 4, (assemble longSum).toArray, []⟩], 1⟩).map contents =
        .ok [(⟨2, #[]⟩, ⟨#[.null, .null, .null, .int 2]⟩)] := by
  have hcodes : Lengthened shortSum longSum :=
    .cons (.tail (.single (.iconst (Fin.last 6))) (.bipush 5)) (.cons (.single (.bipush (-3))) (.cons .refl
      (.cons (.single (.istore (Fin.last 3))) (.cons .refl (.cons .refl (.cons .refl .nil))))))
  obtain ⟨⟨φ, hφ⟩, hruns⟩ := run_of_longer_forms shortSum longSum hcodes 2 4 [] []
    ⟨0, [.ofCode ⟨2, 4, (assemble shortSum).toArray, []⟩], 1⟩ ⟨0, [.ofCode ⟨2, 4, (assemble longSum).toArray, []⟩], 1⟩
      rfl rfl
  obtain ⟨hresult, -, hafter⟩ := hruns φ hφ
  have hshort : (run ⟨0, [.ofCode ⟨2, 4, (assemble shortSum).toArray, []⟩], 1⟩).1 = .error (.stackUnderflow 6) := by rfl
  have hplace : φ 6 = 10 := hφ 5 (by decide)
  refine ⟨hshort, ?_, (hafter 4).trans rfl⟩
  rw [hresult, hshort]
  show Except.error (RuntimeError.stackUnderflow (φ 6)) = _
  rw [hplace]

end Thread
end Jvm
