import Jvm.Proofs.RunLaws
/-!
# Control does not depend on numbers

Two threads are kind-equal if they differ in nothing but the numbers that their values hold.  No instruction looks at a
number to decide what to do, so kind-equal threads run in step: `Thread.run_kindEq`.  What a check of kinds and depths
says of one thread, it says of all threads that are kind-equal to it.

The argument goes by composition.  `Frame.Alike` relates two actions that do the same to kind-equal frames; it holds of
the primitive actions and of what is put together from them.
-/
namespace Jvm

/-- The kind of a value, which leaves out the number. -/
inductive Kind where
  | int
  | null
  deriving DecidableEq

def Value.kind : Value → Kind
  | .int _ => .int
  | .null => .null

/-- The frames differ at most in numbers on their stacks and in their local variables. -/
structure Frame.KindEq (f g : Frame) : Prop where
  code : f.code = g.code
  pc : f.pc = g.pc
  nextPc : f.nextPc = g.nextPc
  capacity : f.stack.capacity = g.stack.capacity
  stack : f.stack.slots.map Value.kind = g.stack.slots.map Value.kind
  locals : f.locals.slots.map Value.kind = g.locals.slots.map Value.kind

/-- The threads differ at most in the numbers that their frames hold. -/
structure Thread.KindEq (t u : Thread) : Prop where
  pc : t.pc = u.pc
  maxDepth : t.maxDepth = u.maxDepth
  frames : List.Forall₂ Frame.KindEq t.frames u.frames

/-- Two results are alike: values that `R` relates, or the same error, with states that `S` relates. -/
inductive ResultRel {σ α : Type} (S : σ → σ → Prop) (R : α → α → Prop) :
    EStateM.Result RuntimeError σ α → EStateM.Result RuntimeError σ α → Prop where
  | ok {a b : α} {f g : σ} : R a b → S f g → ResultRel S R (.ok a f) (.ok b g)
  | error {e : RuntimeError} {f g : σ} : S f g → ResultRel S R (.error e f) (.error e g)

namespace Frame

variable {f g : Frame} {v w : Value} {α β : Type}

theorem KindEq.depth (h : f.KindEq g) : f.stack.depth = g.stack.depth := by
  simpa [OperandStack.depth] using congrArg Array.size h.stack

theorem KindEq.size (h : f.KindEq g) : f.locals.size = g.locals.size := by
  simpa [LocalVariables.size] using congrArg Array.size h.locals

theorem KindEq.fetch (h : f.KindEq g) : f.fetch = g.fetch := by
  rw [Frame.fetch, Frame.fetch, h.code, h.nextPc]

theorem KindEq.noSuchLocal (h : f.KindEq g) (index : UInt16) : f.noSuchLocal index = g.noSuchLocal index := by
  rw [Frame.noSuchLocal, Frame.noSuchLocal, h.size, h.pc]

/-! ## Actions -/

/-- On kind-equal frames the actions fail with the same error, or give values that `R` relates; what they leave is
kind-equal. -/
def Alike (R : α → α → Prop) (x y : Frame.Action α) : Prop :=
  ∀ f g : Frame, f.KindEq g → ResultRel KindEq R (x f) (y g)

/-- The values have one kind. -/
abbrev SameKind (v w : Value) : Prop := v.kind = w.kind

/-- The values are whatever they are. -/
abbrev Anyway (_ _ : α) : Prop := True

namespace Alike

theorem pure {R : α → α → Prop} {a b : α} (h : R a b) : Alike R (Pure.pure a) (Pure.pure b) := fun _ _ hfg => .ok h hfg

theorem bind {R : α → α → Prop} {Q : β → β → Prop} {x y : Frame.Action α} {k l : α → Frame.Action β} (hx : Alike R x y)
    (hk : ∀ a b, R a b → Alike Q (k a) (l b)) : Alike Q (x >>= k) (y >>= l) := by
  intro f g hfg
  have hfirst := hx f g hfg
  simp only [Bind.bind, EStateM.bind]
  generalize x f = a at hfirst ⊢
  generalize y g = b at hfirst ⊢
  cases hfirst with
  | ok hab hfg' => exact hk _ _ hab _ _ hfg'
  | error hfg' => exact .error hfg'

theorem push (h : SameKind v w) : Alike Anyway (Frame.push v) (Frame.push w) := by
  intro f g hfg
  have hfull : f.stack.isFull = g.stack.isFull := by
    rw [OperandStack.isFull, OperandStack.isFull, hfg.capacity, hfg.depth]
  simp only [Frame.push, OperandStack.push?, hfull]
  cases g.stack.isFull with
  | true => simpa [hfg.pc] using .error hfg
  | false =>
    have hstack : (f.stack.slots.push v).map Value.kind = (g.stack.slots.push w).map Value.kind := by
      rw [Array.map_push, Array.map_push, hfg.stack, h]
    simpa using .ok trivial { hfg with stack := hstack }

/-- The top values of two stacks have one kind, or there is none on both. -/
theorem back?_cases (h : f.KindEq g) :
    (∃ v w, f.stack.slots.back? = some v ∧ g.stack.slots.back? = some w ∧ SameKind v w) ∨
      f.stack.slots.back? = none ∧ g.stack.slots.back? = none := by
  have hback : f.stack.slots.back?.map Value.kind = g.stack.slots.back?.map Value.kind := by
    rw [← Array.back?_map, ← Array.back?_map, h.stack]
  cases hf : f.stack.slots.back? with
  | none =>
    cases hg : g.stack.slots.back? with
    | none => exact .inr ⟨rfl, rfl⟩
    | some w => simp [hf, hg] at hback
  | some v =>
    cases hg : g.stack.slots.back? with
    | none => simp [hf, hg] at hback
    | some w => exact .inl ⟨v, w, rfl, rfl, by simpa [hf, hg] using hback⟩

theorem pop : Alike SameKind Frame.pop Frame.pop := by
  intro f g hfg
  have hstack : f.stack.slots.pop.map Value.kind = g.stack.slots.pop.map Value.kind := by
    rw [Array.map_pop, Array.map_pop, hfg.stack]
  rcases back?_cases hfg with ⟨v, w, hv, hw, hkind⟩ | ⟨hv, hw⟩
  · simp only [Frame.pop, OperandStack.pop?, hv, hw]
    exact .ok hkind { hfg with stack := hstack }
  · simp only [Frame.pop, OperandStack.pop?, hv, hw, hfg.pc]
    exact .error hfg

theorem peek : Alike SameKind Frame.peek Frame.peek := by
  intro f g hfg
  rcases back?_cases hfg with ⟨v, w, hv, hw, hkind⟩ | ⟨hv, hw⟩
  · simp only [Frame.peek, OperandStack.peek?, hv, hw]
    exact .ok hkind hfg
  · simp only [Frame.peek, OperandStack.peek?, hv, hw, hfg.pc]
    exact .error hfg

theorem asInt (h : SameKind v w) : Alike Anyway (Frame.asInt v) (Frame.asInt w) := by
  intro f g hfg
  rcases v with n | _ <;> rcases w with m | _
  · exact .ok trivial hfg
  · cases h
  · cases h
  · simp only [Frame.asInt, Value.int?, hfg.pc]
    exact .error hfg

theorem popInt : Alike Anyway Frame.popInt Frame.popInt := bind pop fun _ _ => asInt

theorem load (index : UInt16) : Alike SameKind (Frame.load index) (Frame.load index) := by
  intro f g hfg
  have hget : f.locals.slots[index.toNat]?.map Value.kind = g.locals.slots[index.toNat]?.map Value.kind := by
    rw [← Array.getElem?_map, ← Array.getElem?_map, hfg.locals]
  simp only [Frame.load, LocalVariables.get?, hfg.noSuchLocal]
  cases hf : f.locals.slots[index.toNat]? with
  | none =>
    cases hg : g.locals.slots[index.toNat]? with
    | none => exact .error hfg
    | some w => simp [hf, hg] at hget
  | some v =>
    cases hg : g.locals.slots[index.toNat]? with
    | none => simp [hf, hg] at hget
    | some w => exact .ok (by simpa [hf, hg] using hget) hfg

theorem loadInt (index : UInt16) : Alike Anyway (Frame.loadInt index) (Frame.loadInt index) :=
  bind (load index) fun _ _ => asInt

theorem store (index : UInt16) (h : SameKind v w) : Alike Anyway (Frame.store index v) (Frame.store index w) := by
  intro f g hfg
  simp only [Frame.store, LocalVariables.set?, hfg.size, hfg.noSuchLocal]
  by_cases hlt : index.toNat < g.locals.size
  · have hlocals : (f.locals.slots.setIfInBounds index.toNat v).map Value.kind =
        (g.locals.slots.setIfInBounds index.toNat w).map Value.kind := by
      rw [Array.map_setIfInBounds, Array.map_setIfInBounds, hfg.locals, h]
    simp only [if_pos hlt]
    exact .ok trivial { hfg with locals := hlocals }
  · simp only [if_neg hlt]
    exact .error hfg

end Alike

end Frame

/-- **No instruction depends on numbers**, whether it succeeds or fails. -/
theorem Instruction.effect_alike (i : Instruction) : Frame.Alike Frame.Anyway i.effect i.effect := by
  cases i with
  | nop | ret => exact .pure trivial
  | aconstNull | push _ _ => exact .push rfl
  | iload index => exact .bind (.loadInt index) fun _ _ _ => .push rfl
  | istore index => exact .bind .popInt fun _ _ _ => .store index rfl
  | pop => exact .bind .pop fun _ _ _ => .pure trivial
  | dup => exact .bind .peek fun _ _ => .push
  | arith op => exact .bind .popInt fun _ _ _ => .bind .popInt fun _ _ _ => .push rfl

/-! ## Steps and runs -/

namespace Thread

variable {t u : Thread}

/-- **Kind-equal threads take the same step**, or fail in the same way. -/
theorem step_kindEq (h : t.KindEq u) : ResultRel KindEq Eq t.step u.step := by
  cases hf : t.frames with
  | nil =>
    have hg : u.frames = [] := List.forall₂_nil_left_iff.1 (hf ▸ h.frames)
    rw [step_nil hf, step_nil hg]
    exact .error h
  | cons f below =>
    obtain ⟨g, below', hfg, hbelow, hg⟩ := List.forall₂_cons_left_iff.1 (hf ▸ h.frames)
    rw [step_cons hf, step_cons hg, hfg.fetch]
    cases g.fetch with
    | error e => exact .error h
    | ok s =>
      by_cases hret : s.instruction = .ret
      · simp only [if_pos hret]
        exact .ok rfl ⟨rfl, h.maxDepth, hbelow⟩
      · have henter : (f.enter s).KindEq (g.enter s) := ⟨hfg.code, rfl, rfl, hfg.capacity, hfg.stack, hfg.locals⟩
        have heffect := s.instruction.effect_alike _ _ henter
        simp only [if_neg hret]
        generalize s.instruction.effect (f.enter s) = x at heffect ⊢
        generalize s.instruction.effect (g.enter s) = y at heffect ⊢
        cases heffect with
        | ok _ hfg' => exact .ok rfl ⟨rfl, h.maxDepth, .cons hfg' hbelow⟩
        | error hfg' => exact .error ⟨rfl, h.maxDepth, .cons hfg' hbelow⟩

theorem KindEq.frames_eq_nil_iff (h : t.KindEq u) : t.frames = [] ↔ u.frames = [] := by
  rw [← List.length_eq_zero_iff, ← List.length_eq_zero_iff, h.frames.length_eq]

/-- **Kind-equal threads run alike**: to the same count or the same error, with every field of it, and to kind-equal
threads. -/
theorem run_kindEq (h : t.KindEq u) : t.run.1 = u.run.1 ∧ t.run.2.KindEq u.run.2 := by
  -- By induction over the run of `t`; the run of `u` keeps step with it.
  induction t using run_induction generalizing u with
  | finished t hframes =>
    rw [run_of_finished hframes, run_of_finished (h.frames_eq_nil_iff.1 hframes)]
    exact ⟨rfl, h⟩
  | failed t e t' hframes hstep =>
    have hsame := step_kindEq h
    rw [hstep] at hsame
    generalize hu : u.step = r at hsame
    cases hsame with
    | error h' =>
      rw [run_of_error hframes hstep, run_of_error (mt h.frames_eq_nil_iff.2 hframes) hu]
      exact ⟨rfl, h'⟩
  | next t s t' hstep ih =>
    have hsame := step_kindEq h
    rw [hstep] at hsame
    generalize hu : u.step = r at hsame
    cases hsame with
    | ok _ h' =>
      rw [run_of_step hstep, run_of_step hu]
      exact ⟨congrArg (Except.map (· + 1)) (ih h').1, (ih h').2⟩

/-- Two numbers in store, a null reference on the stack, and in front of `iload_0`, `iload_1`, `imul`, `istore_1` and
`istore_0`. -/
def productFrame (a b : Int32) : Frame :=
  ⟨#[0x1A, 0x1B, 0x68, 0x3C, 0x3B], ⟨#[.int a, .int b]⟩, ⟨3, #[.null]⟩, 0, 0⟩

/-- Whatever the product is, the null reference cannot be stored as a number. -/
theorem productFrame_alike :
    (run ⟨0, [productFrame 3 4], 1⟩).1 = .error (.typeMismatch "int" 4) ∧
      (run ⟨0, [productFrame 0 (-1)], 1⟩).1 = .error (.typeMismatch "int" 4) ∧
      KindEq (run ⟨0, [productFrame 3 4], 1⟩).2 (run ⟨0, [productFrame 0 (-1)], 1⟩).2 := by
  have hlocals : (productFrame 3 4).locals.slots.map Value.kind =
      (productFrame 0 (-1)).locals.slots.map Value.kind := by
    simp [productFrame, Value.kind]
  have hkind : KindEq ⟨0, [productFrame 3 4], 1⟩ ⟨0, [productFrame 0 (-1)], 1⟩ :=
    ⟨rfl, rfl, .cons ⟨rfl, rfl, rfl, rfl, rfl, hlocals⟩ .nil⟩
  obtain ⟨hresult, hthread⟩ := run_kindEq hkind
  exact ⟨rfl, hresult.symm.trans rfl, hthread⟩

end Thread

end Jvm
