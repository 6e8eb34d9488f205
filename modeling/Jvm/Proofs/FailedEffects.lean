import Jvm.Proofs.ListSemantics
/-!
# What a failing instruction leaves behind

An instruction that fails has taken values off the operand stack, or it has done nothing.  Everything else is as it was:
the frames below, and the code, the pcs and the local variables of the active frame.  How many values are gone is a
matter of the instruction, of the error and of what was on the stack (`Instruction.Costs`);
`Instruction.residue_of_execute` says so of every instruction with every operand.

Most instructions look before they take anything, so that their failures are those of a single action (`Frame.Spares`).
Storing and arithmetic take their operands one by one.
-/
namespace Jvm

/-- The second frame is the first one without the values that were on top of its stack, given from bottom to top. -/
structure Frame.Loses (f : Frame) (lost : List Value) (g : Frame) : Prop where
  code : g.code = f.code
  pc : g.pc = f.pc
  nextPc : g.nextPc = f.nextPc
  locals : g.locals = f.locals
  capacity : g.stack.capacity = f.stack.capacity
  stack : f.stack.slots.toList = g.stack.slots.toList ++ lost

/-- The number of values that are gone when an instruction has failed with this error on this stack, of which the top
value comes first.  Doing nothing never fails, and returning fails for want of a frame only. -/
def Instruction.Costs (stack : List Value) (e : RuntimeError) (n : Nat) : Instruction → Prop
  | nop | ret => False
  | aconstNull | push _ _ | iload _ | pop | dup => n = 0
  | istore _ =>
    (∃ pc, e = .stackUnderflow pc) ∧ n = 0 ∨
      ((∃ expected pc, e = .typeMismatch expected pc) ∨
        ∃ index maxLocals pc, e = .localIndexOutOfRange index maxLocals pc) ∧ n = 1
  | arith _ =>
    stack = [] ∧ n = 0 ∨ (stack.head? = some .null ∨ stack.length = 1) ∧ n = 1 ∨
      (∃ a rest, stack = .int a :: .null :: rest) ∧ n = 2

/-! ## Instructions that look first -/

namespace Frame

variable {α β : Type}

theorem loses_nil (f : Frame) : f.Loses [] f := ⟨rfl, rfl, rfl, rfl, rfl, (List.append_nil _).symm⟩

/-- The action only looks: whether it succeeds or fails, nothing has happened. -/
def Looks (action : Frame.Action α) : Prop := ∀ f : Frame, f.leftBy action = f

/-- When the action fails, nothing has happened. -/
def Spares (action : Frame.Action α) : Prop := ∀ f e g, action f = .error e g → g = f

theorem Looks.ok {action : Frame.Action α} {f g : Frame} {a : α} (hlooks : Looks action) (h : action f = .ok a g) :
    g = f := by
  have hleft := hlooks f
  rwa [leftBy, h] at hleft

theorem Looks.spares {action : Frame.Action α} (hlooks : Looks action) : Spares action := by
  intro f e g h
  have hleft := hlooks f
  rwa [leftBy, h] at hleft

theorem Looks.bind {action : Frame.Action α} {next : α → Frame.Action β} (hlooks : Looks action)
    (hnext : ∀ a, Looks (next a)) :
    Looks (action >>= next) := by
  intro f
  cases hact : action f with
  | error e g =>
    obtain rfl := hlooks.spares f e g hact
    rw [leftBy, bind_of_error hact]
  | ok a g =>
    obtain rfl := hlooks.ok hact
    rw [leftBy, bind_of_ok hact]
    exact hnext a g

/-- **Whoever has only looked has not spoiled anything yet.** -/
theorem Spares.bind {action : Frame.Action α} {next : α → Frame.Action β} (hlooks : Looks action)
    (hnext : ∀ a, Spares (next a)) :
    Spares (action >>= next) := by
  intro f e g h
  cases hact : action f with
  | error e' x =>
    rw [bind_of_error hact] at h
    cases h
    exact hlooks.spares f e g hact
  | ok a x =>
    obtain rfl := hlooks.ok hact
    rw [bind_of_ok hact] at h
    exact hnext a x e g h

theorem looks_peek : Looks peek := by
  intro f
  unfold leftBy peek
  cases f.stack.peek? <;> rfl

theorem looks_asInt (v : Value) : Looks (asInt v) := by
  intro f
  unfold leftBy asInt
  cases v.int? <;> rfl

theorem looks_load (index : UInt16) : Looks (load index) := by
  intro f
  unfold leftBy load
  cases f.locals.get? index <;> rfl

theorem spares_push (v : Value) : Spares (push v) := by
  intro f e g h
  unfold push at h
  split at h <;> cases h
  rfl

theorem spares_pop : Spares pop := by
  intro f e g h
  unfold pop at h
  split at h <;> cases h
  rfl

end Frame

open Jvm.Frame Stores

theorem Instruction.spares_iload (index : UInt16) : Spares (effect (iload index)) :=
  .bind ((looks_load index).bind looks_asInt) fun _ => spares_push _

theorem Instruction.spares_dup : Spares (effect dup) := .bind looks_peek spares_push

theorem Instruction.spares_pop : Spares (effect pop) := by
  intro f e g h
  cases hpop : Frame.pop f with
  | error e' x =>
    rw [effect, bind_of_error hpop] at h
    cases h
    exact Frame.spares_pop f e g hpop
  | ok v x =>
    rw [effect, bind_of_ok hpop] at h
    cases h

/-! ## Instructions that take their operands one by one -/

/-- Values that go from the top of the stack leave room. -/
theorem Stores.loses_onFrame (lost stack : List Value) (room : Nat) (locals : Array Value) (f : Frame) :
    (onFrame ⟨lost.reverse ++ stack, room, locals⟩ f).Loses lost (onFrame ⟨stack, room + lost.length, locals⟩ f) where
  code := rfl
  pc := rfl
  nextPc := rfl
  locals := rfl
  capacity := by
    simp only [onFrame, List.length_append, List.length_reverse]
    omega
  stack := by simp [onFrame]

/-- A frame that lost values, and how many of them. -/
def Frame.Spoiled (i : Instruction) (f : Frame) (e : RuntimeError) (g : Frame) : Prop :=
  ∃ lost, f.Loses lost g ∧ i.Costs f.stores.stack e lost.length

namespace Instruction

variable {σ : Stores} {f g : Frame} {e : RuntimeError} {index : UInt16} {op : IntOp}

theorem istore_residue (h : (istore index).effect (σ.onFrame f) = .error e g) :
    (σ.onFrame f).Spoiled (istore index) e g := by
  obtain ⟨stack, room, locals⟩ := σ
  rcases stack with _ | ⟨n | _, stack⟩
  · rw [effect, bind_of_error popInt_nil] at h
    cases h
    exact ⟨[], loses_nil _, .inl ⟨⟨_, rfl⟩, rfl⟩⟩
  · rw [effect, bind_of_ok popInt_int, store_eq] at h
    split at h <;> cases h
    exact ⟨[.int n], loses_onFrame [.int n] stack room locals f, .inr ⟨.inr ⟨_, _, _, rfl⟩, rfl⟩⟩
  · rw [effect, bind_of_error popInt_null] at h
    cases h
    exact ⟨[.null], loses_onFrame [.null] stack room locals f, .inr ⟨.inl ⟨_, _, rfl⟩, rfl⟩⟩

theorem arith_residue (h : (arith op).effect (σ.onFrame f) = .error e g) :
    (∀ pc, e ≠ .stackOverflow pc) ∧ (σ.onFrame f).Spoiled (arith op) e g := by
  unfold Frame.Spoiled
  rw [stores_onFrame]
  obtain ⟨stack, room, locals⟩ := σ
  rcases stack with _ | ⟨b | _, stack⟩
  · rw [effect, bind_of_error popInt_nil] at h
    cases h
    exact ⟨by simp, [], loses_nil _, .inl ⟨rfl, rfl⟩⟩
  · rw [effect, bind_of_ok popInt_int] at h
    rcases stack with _ | ⟨a | _, stack⟩
    · rw [bind_of_error popInt_nil] at h
      cases h
      exact ⟨by simp, [.int b], loses_onFrame [.int b] [] room locals f, .inr (.inl ⟨.inr rfl, rfl⟩)⟩
    · -- the operands that were taken leave room for the result
      rw [bind_of_ok popInt_int, push_of_room] at h
      cases h
    · rw [bind_of_error popInt_null] at h
      cases h
      exact ⟨by simp, [.null, .int b], loses_onFrame [.null, .int b] stack room locals f,
        .inr (.inr ⟨⟨b, stack, rfl⟩, rfl⟩)⟩
  · rw [effect, bind_of_error popInt_null] at h
    cases h
    exact ⟨by simp, [.null], loses_onFrame [.null] stack room locals f, .inr (.inl ⟨.inl rfl, rfl⟩)⟩

/-- **What a failing effect leaves of a frame**, one case for each instruction. -/
theorem effect_residue {i : Instruction} (hi : i ≠ ret) (hroom : f.stack.depth ≤ f.stack.capacity)
    (h : i.effect f = .error e g) :
    (∀ op pc, i = arith op → e ≠ .stackOverflow pc) ∧ f.Spoiled i e g := by
  have hspared (hspares : Spares i.effect) (hcosts : i.Costs f.stores.stack e 0) : f.Spoiled i e g := by
    obtain rfl := hspares f e g h
    exact ⟨[], loses_nil g, hcosts⟩
  -- storing and arithmetic are shown of frames that are given by what they have in store
  have hstores := onFrame_stores hroom
  cases i with
  | nop => cases h
  | ret => exact absurd rfl hi
  | aconstNull => exact ⟨nofun, hspared (spares_push _) rfl⟩
  | push form v => exact ⟨nofun, hspared (spares_push _) rfl⟩
  | iload index => exact ⟨nofun, hspared (spares_iload index) rfl⟩
  | pop => exact ⟨nofun, hspared Instruction.spares_pop rfl⟩
  | dup => exact ⟨nofun, hspared spares_dup rfl⟩
  | istore index =>
    rw [← hstores] at h ⊢
    exact ⟨nofun, istore_residue h⟩
  | arith op =>
    rw [← hstores] at h ⊢
    obtain ⟨hoverflow, hspoiled⟩ := arith_residue h
    exact ⟨fun _ pc _ => hoverflow pc, hspoiled⟩

theorem execute_of_no_frame {i : Instruction} {t t' : Thread} (ht : t.frames = []) (h : i.execute t = .error e t') :
    i ≠ nop ∧ e = .noActiveFrame ∧ t' = t := by
  obtain ⟨pc, frames, maxDepth⟩ := t
  cases ht
  cases i <;> cases h <;> exact ⟨nofun, rfl, rfl⟩

/-- **A failing instruction spoils at most the top of the active operand stack.**  Let no stack be higher than it may
be.  If the instruction fails, all frames are there and the ones below the active one are the same; the active one has
lost no more than the values that its failure costs.  Doing nothing never fails, returning fails only without a frame,
and arithmetic never finds the stack full. -/
theorem residue_of_execute (t : Thread) (hroom : ∀ f ∈ t.frames, f.stack.depth ≤ f.stack.capacity) (i : Instruction)
    (e : RuntimeError) (t' : Thread) (h : i.execute t = .error e t') :
    i ≠ nop ∧ (i = ret → e = .noActiveFrame) ∧ (∀ op pc, i = arith op → e ≠ .stackOverflow pc) ∧
      (t.frames = [] ∧ e = .noActiveFrame ∧ t' = t ∨
        ∃ f below g lost, t.frames = f :: below ∧ t' = { t with frames := g :: below } ∧ f.Loses lost g ∧
          i.Costs f.stack.slots.toList.reverse e lost.length) := by
  cases ht : t.frames with
  | nil =>
    obtain ⟨hnop, rfl, rfl⟩ := execute_of_no_frame ht h
    exact ⟨hnop, fun _ => rfl, nofun, .inl ⟨rfl, rfl, rfl⟩⟩
  | cons f below =>
    by_cases hret : i = ret
    · -- there is a frame to return from
      subst hret
      obtain ⟨pc, frames, maxDepth⟩ := t
      cases ht
      cases h
    · rw [execute_eq_onActive hret (by simp [ht])] at h
      simp only [Thread.onActive, ht] at h
      cases heffect : i.effect f with
      | ok a g =>
        rw [heffect] at h
        cases h
      | error e' g =>
        rw [heffect] at h
        cases h
        obtain ⟨hoverflow, lost, hloses, hcosts⟩ := effect_residue hret (hroom f (by simp [ht])) heffect
        refine ⟨?_, fun hi => absurd hi hret, hoverflow, .inr ⟨f, below, g, lost, rfl, rfl, hloses, hcosts⟩⟩
        rintro rfl
        exact hcosts

/-- Two frames, each with null and then a number on a full stack. -/
def nullBelow : List Frame :=
  [⟨#[0x60], ⟨#[.int 1]⟩, ⟨2, #[.null, .int 7]⟩, 0, 1⟩, ⟨#[0xB1], ⟨#[]⟩, ⟨2, #[.null, .int 8]⟩, 0, 0⟩]

/-- A sum with null takes both operands off the active stack before it fails; a number that has no place to be stored is
gone too. -/
theorem nullBelow_residue :
    (∃ g t', (arith .add).execute ⟨5, nullBelow, 2⟩ = .error (.typeMismatch "int" 0) t' ∧
      t'.frames = g :: nullBelow.tail ∧
      g.stack.slots.toList = [] ∧ g.locals = ⟨#[.int 1]⟩) ∧
    ∃ g t', (istore 1).execute ⟨5, nullBelow, 2⟩ = .error (.localIndexOutOfRange 1 1 0) t' ∧
    t'.frames = g :: nullBelow.tail ∧
      g.stack.slots.toList = [.null] ∧ g.nextPc = 1 := by
  have hroom : ∀ f ∈ nullBelow, f.stack.depth ≤ f.stack.capacity := by decide
  constructor
  · obtain ⟨-, -, -, ⟨hnil, -⟩ | ⟨f, below, g, lost, ht, ht', hloses, hcosts⟩⟩ :=
      residue_of_execute ⟨5, nullBelow, 2⟩ hroom (arith .add) (.typeMismatch "int" 0) _ rfl
    · cases hnil
    · cases ht
      obtain ⟨⟨⟩, -⟩ | ⟨⟨⟨⟩⟩ | ⟨⟨⟩⟩, -⟩ | ⟨-, htwo⟩ := hcosts
      have hstack : [] ++ [Value.null, Value.int 7] = g.stack.slots.toList ++ lost := hloses.stack
      exact ⟨g, _, rfl, congrArg Thread.frames ht', (List.append_inj_left' hstack htwo.symm).symm, hloses.locals⟩
  · obtain ⟨-, -, -, ⟨hnil, -⟩ | ⟨f, below, g, lost, ht, ht', hloses, hcosts⟩⟩ :=
      residue_of_execute ⟨5, nullBelow, 2⟩ hroom (istore 1) (.localIndexOutOfRange 1 1 0) _ rfl
    · cases hnil
    · cases ht
      obtain ⟨⟨_, ⟨⟩⟩, -⟩ | ⟨-, hone⟩ := hcosts
      obtain ⟨v, rfl⟩ := List.length_eq_one_iff.1 hone
      have hstack : [Value.null] ++ [Value.int 7] = g.stack.slots.toList ++ [v] := hloses.stack
      exact ⟨g, _, rfl, congrArg Thread.frames ht', (List.append_inj_left' hstack rfl).symm, hloses.nextPc⟩

end Instruction

end Jvm
