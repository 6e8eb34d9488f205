import Jvm.Proofs.RunLaws
/-!
# More room changes nothing but shortage

Give a method a higher stack, more local variables and more code behind its code: whatever it did before, it still does.
Only a run that ended for want of one of the three can end differently.  `Thread.run_of_more_room` says so of whole
runs, step by step.

An action is *robust* when this holds of it alone.  The notion is the same for readers of code, for actions on frames
and for steps of threads, and it survives composition; so it is shown of the primitive actions, one by one, and of
nothing else.
-/
namespace Jvm

/-- The errors that more room can prevent. -/
def RuntimeError.IsShortage : RuntimeError → Prop
  | stackOverflow _ | localIndexOutOfRange _ _ _ | unexpectedEndOfCode _ => True
  | _ => False

section Robust

variable {σ α β : Type} {S : σ → σ → Prop}

/-- The second result is the first one in more room, unless the first one is an error for want of room. -/
inductive Outlasts (S : σ → σ → Prop) : EStateM.Result RuntimeError σ α → EStateM.Result RuntimeError σ α → Prop where
  | ok {a : α} {x y : σ} : S x y → Outlasts S (.ok a x) (.ok a y)
  | error {e : RuntimeError} {x y : σ} : S x y → Outlasts S (.error e x) (.error e y)
  | shortage {e : RuntimeError} {x : σ} {r : EStateM.Result RuntimeError σ α} : e.IsShortage → Outlasts S (.error e x) r

/-- The action does in a state with more room what it does in any state. -/
def Robust (S : σ → σ → Prop) (action : EStateM RuntimeError σ α) : Prop :=
  ∀ x y, S x y → Outlasts S (action x) (action y)

theorem Robust.pure (a : α) : Robust S (Pure.pure a) := fun _ _ h => .ok h

theorem Robust.bind {action : EStateM RuntimeError σ α} {next : α → EStateM RuntimeError σ β} (ha : Robust S action)
    (hn : ∀ a, Robust S (next a)) : Robust S (action >>= next) := by
  intro x y h
  have hfirst := ha x y h
  simp only [Bind.bind, EStateM.bind]
  generalize action x = r at hfirst ⊢
  generalize action y = r' at hfirst ⊢
  cases hfirst with
  | ok h' => exact hn _ _ _ h'
  | error h' => exact .error h'
  | shortage he => exact .shortage he

end Robust

/-! ## Longer code -/

/-- The second cursor stands at the same pc, and there is more code. -/
structure CodeCursor.Within (c d : CodeCursor) : Prop where
  code : ∃ more, d.code = c.code ++ more
  pc : c.pc = d.pc

theorem CodeReader.robust_byte : Robust CodeCursor.Within CodeReader.byte := by
  rintro ⟨code, pc⟩ ⟨_, _⟩ ⟨⟨more, rfl⟩, rfl⟩
  by_cases hlt : pc < code.size
  · have hget : (code ++ more)[pc]? = code[pc]? := Array.getElem?_append_left hlt
    simp only [CodeReader.byte, hget, Array.getElem?_eq_getElem hlt]
    exact .ok ⟨⟨more, rfl⟩, rfl⟩
  · have hget : code[pc]? = none := Array.getElem?_eq_none (Nat.le_of_not_lt hlt)
    simp only [CodeReader.byte, hget]
    exact .shortage trivial

theorem CodeReader.robust_signedByte : Robust CodeCursor.Within CodeReader.signedByte :=
  robust_byte.bind fun _ => .pure _

theorem Instruction.robust_reader (op : Opcode) : Robust CodeCursor.Within (reader op) := by
  cases op with
  | bipush => exact CodeReader.robust_signedByte.bind fun _ => .pure _
  | sipush =>
    exact .bind (CodeReader.robust_signedByte.bind fun _ => CodeReader.robust_byte.bind fun _ => .pure _)
      fun _ => .pure _
  | iload | istore => exact CodeReader.robust_byte.bind fun _ => .pure _
  | _ => exact .pure _

namespace Frame

variable {f g : Frame}

/-- The second frame is in the same state, and it has more room: a higher stack, more local variables, more code. -/
structure Within (f g : Frame) : Prop where
  code : ∃ more, g.code = f.code ++ more
  pc : f.pc = g.pc
  nextPc : f.nextPc = g.nextPc
  capacity : f.stack.capacity ≤ g.stack.capacity
  stack : f.stack.slots = g.stack.slots
  locals : ∃ more, g.locals.slots = f.locals.slots ++ more

/-- **What can be decoded stays decoded**, and a byte that is no opcode stays none. -/
theorem Within.fetch (h : f.Within g) :
    (∃ s, f.fetch = .ok s ∧ g.fetch = .ok s) ∨ ∃ e, f.fetch = .error e ∧ (e.IsShortage ∨ g.fetch = .error e) := by
  have hbyte := CodeReader.robust_byte ⟨f.code, f.nextPc⟩ ⟨g.code, g.nextPc⟩ ⟨h.code, h.nextPc⟩
  simp only [Frame.fetch, CodeReader.instruction]
  generalize CodeReader.byte ⟨f.code, f.nextPc⟩ = r at hbyte ⊢
  generalize CodeReader.byte ⟨g.code, g.nextPc⟩ = r' at hbyte ⊢
  cases hbyte with
  | shortage he => exact .inr ⟨_, rfl, .inl he⟩
  | error _ => exact .inr ⟨_, rfl, .inr rfl⟩
  | @ok byte c d hcd =>
    cases hop : Opcode.ofByte? byte with
    | none =>
      simp only [hop, h.nextPc]
      exact .inr ⟨_, rfl, .inr rfl⟩
    | some op =>
      have hread := Instruction.robust_reader op c d hcd
      simp only [hop]
      generalize Instruction.reader op c = q at hread ⊢
      generalize Instruction.reader op d = q' at hread ⊢
      cases hread with
      | shortage he => exact .inr ⟨_, rfl, .inl he⟩
      | error _ => exact .inr ⟨_, rfl, .inr rfl⟩
      | ok hcd' => exact .inl ⟨_, rfl, by simp only [h.nextPc, hcd'.pc]⟩

/-! ## Higher stacks and more local variables -/

theorem robust_push (v : Value) : Robust Within (Frame.push v) := by
  intro f g h
  by_cases hfull : f.stack.isFull = true
  · simp only [Frame.push, OperandStack.push?, if_pos hfull]
    exact .shortage trivial
  · have hcapacity := h.capacity
    have hroom : ¬ g.stack.isFull = true := by
      rw [OperandStack.isFull, OperandStack.depth, decide_eq_true_eq] at hfull ⊢
      rw [h.stack] at hfull
      omega
    simp only [Frame.push, OperandStack.push?, if_neg hfull, if_neg hroom]
    exact .ok { h with stack := by rw [h.stack] }

theorem robust_pop : Robust Within Frame.pop := by
  intro f g h
  simp only [Frame.pop, OperandStack.pop?, h.stack]
  cases g.stack.slots.back? with
  | none =>
    rw [h.pc]
    exact .error h
  | some v => exact .ok { h with stack := rfl }

theorem robust_peek : Robust Within Frame.peek := by
  intro f g h
  simp only [Frame.peek, OperandStack.peek?, h.stack, h.pc]
  cases g.stack.slots.back? with
  | none => exact .error h
  | some v => exact .ok h

theorem robust_asInt (v : Value) : Robust Within (Frame.asInt v) := by
  intro f g h
  simp only [Frame.asInt, h.pc]
  cases v.int? with
  | none => exact .error h
  | some n => exact .ok h

theorem robust_load (index : UInt16) : Robust Within (Frame.load index) := by
  intro f g h
  obtain ⟨more, hlocals⟩ := h.locals
  by_cases hlt : index.toNat < f.locals.slots.size
  · have hget : g.locals.slots[index.toNat]? = f.locals.slots[index.toNat]? := by
      rw [hlocals, Array.getElem?_append_left hlt]
    simp only [Frame.load, LocalVariables.get?, hget, Array.getElem?_eq_getElem hlt]
    exact .ok h
  · have hget : f.locals.slots[index.toNat]? = none := Array.getElem?_eq_none (Nat.le_of_not_lt hlt)
    simp only [Frame.load, LocalVariables.get?, hget]
    exact .shortage trivial

theorem robust_store (index : UInt16) (v : Value) : Robust Within (Frame.store index v) := by
  intro f g h
  obtain ⟨more, hlocals⟩ := h.locals
  by_cases hlt : index.toNat < f.locals.size
  · have hlt' : index.toNat < g.locals.size := by
      simp only [LocalVariables.size, hlocals, Array.size_append] at hlt ⊢
      omega
    simp only [Frame.store, LocalVariables.set?, if_pos hlt, if_pos hlt']
    refine .ok { h with locals := ⟨more, ?_⟩ }
    show g.locals.slots.setIfInBounds index.toNat v = _
    rw [hlocals, Array.setIfInBounds_append_left hlt]
  · simp only [Frame.store, LocalVariables.set?, if_neg hlt]
    exact .shortage trivial

end Frame

/-- **Every instruction is robust.** -/
theorem Instruction.robust_effect (i : Instruction) : Robust Frame.Within i.effect :=
  i.effect_induction (motive := fun _ => Robust Frame.Within) .pure .bind Frame.robust_push Frame.robust_pop
    Frame.robust_peek
    Frame.robust_asInt Frame.robust_load Frame.robust_store

/-! ## Steps and runs -/

namespace Thread

variable {t u : Thread}

/-- Frame by frame, the second thread has more room. -/
structure Within (t u : Thread) : Prop where
  frames : List.Forall₂ Frame.Within t.frames u.frames

theorem robust_step : Robust Within step := by
  intro t u h
  cases hf : t.frames with
  | nil =>
    have hg : u.frames = [] := List.forall₂_nil_left_iff.1 (hf ▸ h.frames)
    rw [step_nil hf, step_nil hg]
    exact .error h
  | cons f below =>
    obtain ⟨g, below', hfg, hbelow, hg⟩ := List.forall₂_cons_left_iff.1 (hf ▸ h.frames)
    rw [step_cons hf, step_cons hg]
    rcases hfg.fetch with ⟨s, hfetch, hfetch'⟩ | ⟨e, hfetch, hshort | hfetch'⟩
    · simp only [hfetch, hfetch']
      by_cases hret : s.instruction = .ret
      · simp only [if_pos hret]
        exact .ok ⟨hbelow⟩
      · have henter : (f.enter s).Within (g.enter s) := { hfg with pc := rfl, nextPc := rfl }
        have heffect := s.instruction.robust_effect _ _ henter
        simp only [if_neg hret]
        generalize s.instruction.effect (f.enter s) = r at heffect ⊢
        generalize s.instruction.effect (g.enter s) = r' at heffect ⊢
        cases heffect with
        | ok hfg' => exact .ok ⟨.cons hfg' hbelow⟩
        | error hfg' => exact .error ⟨.cons hfg' hbelow⟩
        | shortage he => exact .shortage he
    · simp only [hfetch]
      exact .shortage hshort
    · simp only [hfetch, hfetch']
      exact .error h

theorem Within.frames_eq_nil_iff (h : t.Within u) : t.frames = [] ↔ u.frames = [] := by
  rw [← List.length_eq_zero_iff, ← List.length_eq_zero_iff, h.frames.length_eq]

/-- The values on the stack of the active frame. -/
def operands (t : Thread) : Array Value :=
  match t.frames with
  | [] => #[]
  | f :: _ => f.stack.slots

theorem Within.operands (h : t.Within u) : t.operands = u.operands := by
  unfold Thread.operands
  cases hf : t.frames with
  | nil =>
    have hg : u.frames = [] := List.forall₂_nil_left_iff.1 (hf ▸ h.frames)
    rw [hg]
  | cons f below =>
    obtain ⟨g, below', hfg, -, hg⟩ := List.forall₂_cons_left_iff.1 (hf ▸ h.frames)
    rw [hg]
    exact hfg.stack

/-- The first `k` steps, as far as they succeed: their records, each with the operands that it finds. -/
def history : Nat → Thread → List (Step × Array Value)
  | 0, _ => []
  | k + 1, t =>
    match t.step with
    | .ok s t' => (s, t.operands) :: history k t'
    | .error _ _ => []

theorem history_of_step {s : Step} {t' : Thread} (h : t.step = .ok s t') (k : Nat) :
    t.history (k + 1) = (s, t.operands) :: t'.history k := by
  rw [history, h]

/-- **In more room a run goes the same way**, up to the point where it failed for want of room. -/
theorem run_within (h : t.Within u) :
    (∀ n, t.run.1 = .ok n → u.run.1 = .ok n ∧ u.history n = t.history n ∧ (t.history n).length = n) ∧
      (∀ e, t.run.1 = .error e → e.IsShortage ∨ u.run.1 = .error e) := by
  -- By induction over the run of `t`; the run of `u` keeps step with it as long as there is room.
  induction t using run_induction generalizing u with
  | finished t hframes =>
    rw [run_of_finished hframes, run_of_finished (h.frames_eq_nil_iff.1 hframes)]
    refine ⟨fun n hn => ?_, fun e he => nomatch he⟩
    cases hn
    exact ⟨rfl, rfl, rfl⟩
  | failed t e t' hframes hstep =>
    have hsame := robust_step t u h
    rw [hstep] at hsame
    rw [run_of_error hframes hstep]
    refine ⟨fun n hn => (nomatch hn), fun e he => ?_⟩
    cases he
    generalize hu : u.step = r at hsame
    cases hsame with
    | shortage hshort => exact .inl hshort
    | error _ =>
      rw [run_of_error (mt h.frames_eq_nil_iff.2 hframes) hu]
      exact .inr rfl
  | next t s t' hstep ih =>
    have hsame := robust_step t u h
    rw [hstep] at hsame
    generalize hu : u.step = r at hsame
    cases hsame with
    | ok h' =>
      obtain ⟨hok, herror⟩ := ih h'
      rw [run_of_step hstep, run_of_step hu]
      refine ⟨fun n hn => ?_, fun e he => ?_⟩
      · obtain ⟨m, hm, rfl⟩ := map_add_eq_ok.1 hn
        obtain ⟨hresult, hhistory, hlength⟩ := hok m hm
        rw [history_of_step hstep, history_of_step hu, h.operands, hhistory, List.length_cons, hlength]
        exact ⟨map_add_eq_ok.2 ⟨m, hresult, rfl⟩, rfl, rfl⟩
      · rw [map_add_eq_error] at he ⊢
        exact herror e he

theorem within_ofCode {body body' : Code} {more : Array UInt8} (hstack : body.maxStack ≤ body'.maxStack)
    (hlocals : body.maxLocals ≤ body'.maxLocals) (hcode : body'.code = body.code ++ more) :
    (Frame.ofCode body).Within (Frame.ofCode body') where
  code := ⟨more, hcode⟩
  pc := rfl
  nextPc := rfl
  capacity := UInt16.le_iff_toNat_le.1 hstack
  stack := rfl
  locals := by
    have hle := UInt16.le_iff_toNat_le.1 hlocals
    refine ⟨Array.replicate (body'.maxLocals.toNat - body.maxLocals.toNat) .null, ?_⟩
    simp only [Frame.ofCode, LocalVariables.ofSize, Array.replicate_append_replicate]
    rw [Nat.add_sub_cancel' hle]

/-- **Runs are monotone in their resources.**  Let one body have at least the stack and the local variables of another,
and its code with anything behind it.  If the run of a fresh frame of the smaller body succeeds, so does that of the
larger, with the same count, the same steps and the same operands before each of them.  If it fails with anything but a
shortage, the larger one fails the same. -/
theorem run_of_more_room (body body' : Code) (more : Array UInt8) (hstack : body.maxStack ≤ body'.maxStack)
    (hlocals : body.maxLocals ≤ body'.maxLocals) (hcode : body'.code = body.code ++ more) (t u : Thread)
    (ht : t.frames = [.ofCode body]) (hu : u.frames = [.ofCode body']) :
    (∀ n, t.run.1 = .ok n → u.run.1 = .ok n ∧ u.history n = t.history n ∧ (t.history n).length = n) ∧
      (∀ e, t.run.1 = .error e → ¬ e.IsShortage → u.run.1 = .error e) := by
  have hframes : t.Within u := by
    refine ⟨?_⟩
    rw [ht, hu]
    exact .cons (within_ofCode hstack hlocals hcode) .nil
  obtain ⟨hok, herror⟩ := run_within hframes
  exact ⟨hok, fun e he hshort => (herror e he).resolve_left hshort⟩

/-- `bipush 11`, `istore_0`, `iload_0`, `dup`, `imul`, `pop` and `return`. -/
def squareCode : Array UInt8 := #[0x10, 0x0B, 0x3B, 0x1A, 0x59, 0x68, 0x57, 0xB1]

/-- With room to spare, and in front of a byte that is no opcode, the square is computed in the same seven steps.  And a
load that finds no number fails as it did: the kind of the value is looked at before the room on the stack. -/
theorem squareCode_in_more_room :
    (run ⟨0, [.ofCode ⟨7, 4, squareCode ++ #[0xFF], []⟩], 1⟩).1 = .ok 7 ∧
      history 7 ⟨0, [.ofCode ⟨7, 4, squareCode ++ #[0xFF], []⟩], 1⟩ =
        history 7 ⟨0, [.ofCode ⟨2, 1, squareCode, []⟩], 1⟩ ∧
      (run ⟨0, [.ofCode ⟨3, 2, #[0x1A] ++ #[0x59], []⟩], 1⟩).1 = .error (.typeMismatch "int" 0) := by
  obtain ⟨hok, -⟩ := run_of_more_room ⟨2, 1, squareCode, []⟩ ⟨7, 4, squareCode ++ #[0xFF], []⟩ #[0xFF] (by decide)
    (by decide) rfl
    ⟨0, [.ofCode ⟨2, 1, squareCode, []⟩], 1⟩ ⟨0, [.ofCode ⟨7, 4, squareCode ++ #[0xFF], []⟩], 1⟩ rfl rfl
  obtain ⟨-, herror⟩ := run_of_more_room ⟨0, 1, #[0x1A], []⟩ ⟨3, 2, #[0x1A] ++ #[0x59], []⟩ #[0x59] (by decide)
    (by decide) rfl
    ⟨0, [.ofCode ⟨0, 1, #[0x1A], []⟩], 1⟩ ⟨0, [.ofCode ⟨3, 2, #[0x1A] ++ #[0x59], []⟩], 1⟩ rfl rfl
  obtain ⟨hresult, hhistory, -⟩ := hok 7 rfl
  exact ⟨hresult, hhistory, herror _ rfl id⟩

end Thread
end Jvm
