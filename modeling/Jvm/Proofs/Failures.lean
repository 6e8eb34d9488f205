import Jvm.Proofs.RunLaws
/-!
# How instructions fail

There are two ways for a step to fail.  The instruction cannot be decoded; or it is decoded, and fails when it is
executed, with an error that carries its own pc.  The two kinds of errors have nothing in common, so an error tells
which way it was: `Thread.step_error_cases`.
-/
namespace Jvm

namespace RuntimeError

/-- The errors of the instruction at `pc` when it is executed. -/
def RaisedAt (pc : Nat) : RuntimeError → Prop
  | stackOverflow p | stackUnderflow p | localIndexOutOfRange _ _ p | typeMismatch _ p => p = pc
  | _ => False

/-- The errors of an instruction that cannot be decoded. -/
def IsUndecodable : RuntimeError → Prop
  | unsupportedOpcode _ _ | unexpectedEndOfCode _ => True
  | _ => False

theorem RaisedAt.not_undecodable {pc : Nat} {e : RuntimeError} (h : e.RaisedAt pc) : ¬ e.IsUndecodable := by
  cases e <;> simp_all [RaisedAt, IsUndecodable]

theorem RaisedAt.pc_eq {p pc : Nat} {e : RuntimeError} (h : e.RaisedAt p) (h' : e.RaisedAt pc) : p = pc := by
  cases e <;> simp_all [RaisedAt]

end RuntimeError

namespace Frame

variable {f : Frame} {e : RuntimeError}

theorem isUndecodable_of_fetch (h : f.fetch = .error e) : e.IsUndecodable := by
  rcases f.fetch_cases with ⟨op, i, next, hfetch, -⟩ | ⟨hfetch, -⟩
  · rw [hfetch] at h
    cases h
  · rw [hfetch] at h
    cases h
    cases (listing f.code f.nextPc).ending <;> exact trivial

/-- The action leaves the pc alone, and its errors carry it. -/
def CarriesPc {α : Type} (action : Frame.Action α) : Prop := ∀ f : Frame,
  match action f with
  | .ok _ g => g.pc = f.pc
  | .error e _ => e.RaisedAt f.pc

namespace CarriesPc

variable {α β : Type}

theorem pure (a : α) : CarriesPc (Pure.pure a) := fun _ => rfl

theorem bind {action : Frame.Action α} {next : α → Frame.Action β} (ha : CarriesPc action)
    (hn : ∀ a, CarriesPc (next a)) :
    CarriesPc (action >>= next) := by
  intro f
  have hfirst := ha f
  simp only [Bind.bind, EStateM.bind]
  cases hact : action f with
  | error e g =>
    rw [hact] at hfirst
    exact hfirst
  | ok a g =>
    rw [hact] at hfirst
    have hpc : g.pc = f.pc := hfirst
    have hnext := hn a g
    rwa [hpc] at hnext

theorem push (v : Value) : CarriesPc (Frame.push v) := by
  intro f
  unfold Frame.push
  cases f.stack.push? v <;> exact rfl

theorem pop : CarriesPc Frame.pop := by
  intro f
  unfold Frame.pop
  cases f.stack.pop? <;> exact rfl

theorem peek : CarriesPc Frame.peek := by
  intro f
  unfold Frame.peek
  cases f.stack.peek? <;> exact rfl

theorem asInt (v : Value) : CarriesPc (Frame.asInt v) := by
  intro f
  unfold Frame.asInt
  cases v.int? <;> exact rfl

theorem load (index : UInt16) : CarriesPc (Frame.load index) := by
  intro f
  unfold Frame.load
  cases f.locals.get? index <;> exact rfl

theorem store (index : UInt16) (v : Value) : CarriesPc (Frame.store index v) := by
  intro f
  unfold Frame.store
  cases f.locals.set? index v <;> exact rfl

end CarriesPc

end Frame

theorem Instruction.effect_carriesPc (i : Instruction) : Frame.CarriesPc i.effect :=
  i.effect_induction (motive := @Frame.CarriesPc) .pure .bind .push .pop .peek .asInt .load .store

/-- **A step that fails was not decoded, or it was and its error carries its pc.** -/
theorem Thread.step_error_cases {t t' : Thread} {e : RuntimeError} {f : Frame} {below : List Frame}
    (ht : t.frames = f :: below) (h : t.step = .error e t') :
    f.fetch = .error e ∧ e.IsUndecodable ∧ t' = t ∨ ∃ s, f.fetch = .ok s ∧ e.RaisedAt s.pc := by
  rcases step_eq_error ht h with ⟨hfetch, rfl⟩ | ⟨s, g, hfetch, -, heffect, -⟩
  · exact .inl ⟨hfetch, Frame.isUndecodable_of_fetch hfetch, rfl⟩
  · have hcarries := s.instruction.effect_carriesPc (f.enter s)
    rw [heffect] at hcarries
    exact .inr ⟨s, hfetch, hcarries⟩

end Jvm
