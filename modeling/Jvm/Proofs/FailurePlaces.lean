import Jvm.Proofs.Failures
import Jvm.Proofs.MachineInvariant
/-!
# Where a run failed

An error of a run names a place in the code, and the place comes from different sources: an opcode that is not known is
blamed on the next pc, the end of the code on the cursor that came to it, and a failing instruction on the pc of the
frame, which moved before the instruction took effect.  `Thread.run_error_points_at` says that they are all about the
step that failed, whatever frame of the thread it was in and however many steps went before.

The number of local variables in an error has sixteen bits.  It is right because no body declares more (`Frame.Fits`).
-/
namespace Jvm

namespace RuntimeError

/-- What an error says of the frame `f` whose step failed, and of the thread `t'` that was left.  Three errors are none
of a run. -/
def PointsAt (f : Frame) (t' : Thread) : RuntimeError → Prop
  | unsupportedOpcode opcode pc => pc = f.nextPc ∧ f.code[f.nextPc]? = some opcode
  | unexpectedEndOfCode pc => pc = max f.nextPc f.code.size
  | stackOverflow pc | stackUnderflow pc | typeMismatch _ pc =>
    pc = f.nextPc ∧ t'.pc = f.nextPc ∧ t'.active?.map Frame.pc = some f.nextPc
  | localIndexOutOfRange index maxLocals pc =>
    pc = f.nextPc ∧ t'.pc = f.nextPc ∧ t'.active?.map Frame.pc = some f.nextPc ∧
      maxLocals.toNat = f.locals.size ∧ f.locals.size ≤ index.toNat
  | callStackOverflow _ | missingCode _ | noActiveFrame => False

/-- An error about a local variable gives their number, in sixteen bits, and an index beyond them. -/
def CountsLocals (n : Nat) : RuntimeError → Prop
  | localIndexOutOfRange index maxLocals _ => maxLocals = UInt16.ofNat n ∧ n ≤ index.toNat
  | _ => True

end RuntimeError

namespace Frame

/-- The action keeps the number of local variables, and an error of it gives that number. -/
def CountsLocals {α : Type} (action : Frame.Action α) : Prop := ∀ f : Frame,
  match action f with
  | .ok _ g => g.locals.size = f.locals.size
  | .error e _ => e.CountsLocals f.locals.size

namespace CountsLocals

variable {α β : Type}

theorem pure (a : α) : CountsLocals (Pure.pure a) := fun _ => rfl

theorem bind {action : Frame.Action α} {next : α → Frame.Action β} (ha : CountsLocals action)
    (hn : ∀ a, CountsLocals (next a)) :
    CountsLocals (action >>= next) := by
  intro f
  have hfirst := ha f
  simp only [Bind.bind, EStateM.bind]
  cases hact : action f with
  | error e g =>
    rw [hact] at hfirst
    exact hfirst
  | ok a g =>
    rw [hact] at hfirst
    have hsize : g.locals.size = f.locals.size := hfirst
    have hnext := hn a g
    rwa [hsize] at hnext

theorem push (v : Value) : CountsLocals (Frame.push v) := by
  intro f
  unfold Frame.push
  cases f.stack.push? v with
  | none => exact trivial
  | some stack => exact rfl

theorem pop : CountsLocals Frame.pop := by
  intro f
  unfold Frame.pop
  cases f.stack.pop? with
  | none => exact trivial
  | some top => exact rfl

theorem peek : CountsLocals Frame.peek := by
  intro f
  unfold Frame.peek
  cases f.stack.peek? with
  | none => exact trivial
  | some v => exact rfl

theorem asInt (v : Value) : CountsLocals (Frame.asInt v) := by
  intro f
  unfold Frame.asInt
  cases v.int? with
  | none => exact trivial
  | some n => exact rfl

theorem load (index : UInt16) : CountsLocals (Frame.load index) := by
  intro f
  unfold Frame.load
  cases hget : f.locals.get? index with
  | none => exact ⟨rfl, Array.getElem?_eq_none_iff.1 hget⟩
  | some v => exact rfl

theorem store (index : UInt16) (v : Value) : CountsLocals (Frame.store index v) := by
  intro f
  unfold Frame.store LocalVariables.set?
  by_cases hlt : index.toNat < f.locals.size
  · rw [if_pos hlt]
    exact Array.size_setIfInBounds
  · rw [if_neg hlt]
    exact ⟨rfl, Nat.le_of_not_lt hlt⟩

end CountsLocals

theorem getElem?_of_unsupported {code : Array UInt8} {pc : Nat} {byte : UInt8}
    (h : codeHead (code.toList.drop pc) = .unsupported byte) : code[pc]? = some byte := by
  rw [← Array.getElem?_toList, ← Nat.add_zero pc, ← List.getElem?_drop]
  generalize code.toList.drop pc = bytes at h
  unfold codeHead at h
  split at h
  · cases h
  · split at h
    · cases h
      rfl
    · split at h <;> cases h

/-- **A frame that cannot decode its next instruction blames the byte there, or the end of its code.** -/
theorem pointsAt_of_fetch {f : Frame} {e : RuntimeError} (h : f.fetch = .error e) (t' : Thread) : e.PointsAt f t' := by
  have hfetch := f.fetch_eq
  cases hhead : codeHead (f.code.toList.drop f.nextPc) with
  | instruction i width =>
    rw [hhead] at hfetch
    obtain ⟨op, hop⟩ := hfetch
    rw [hop] at h
    cases h
  | unsupported byte =>
    rw [hhead] at hfetch
    rw [hfetch] at h
    cases h
    exact ⟨rfl, getElem?_of_unsupported hhead⟩
  | ended =>
    rw [hhead] at hfetch
    rw [hfetch] at h
    cases h
    -- if the next pc is beyond the code, nothing is left of it there
    show f.nextPc + (f.code.toList.drop f.nextPc).length = max f.nextPc f.code.size
    rw [List.length_drop, Array.length_toList]
    omega

end Frame

theorem Instruction.effect_countsLocals (i : Instruction) : Frame.CountsLocals i.effect :=
  i.effect_induction (motive := @Frame.CountsLocals) .pure .bind .push .pop .peek .asInt .load .store

namespace Thread

variable {t t' : Thread} {e : RuntimeError}

/-- **A step that fails is blamed on the instruction that it was to execute.** -/
theorem pointsAt_of_step {f : Frame} {below : List Frame} (ht : t.frames = f :: below)
    (hlocals : f.locals.size < UInt16.size) (h : t.step = .error e t') : e.PointsAt f t' := by
  rcases step_eq_error ht h with ⟨hfetch, -⟩ | ⟨s, g, hfetch, -, heffect, rfl⟩
  · exact Frame.pointsAt_of_fetch hfetch t'
  · have hpc : s.pc = f.nextPc := by
      rcases f.fetch_cases with ⟨op, i, next, hf, -⟩ | ⟨hf, -⟩
      · rw [hf] at hfetch
        cases hfetch
        rfl
      · rw [hf] at hfetch
        cases hfetch
    have hleft : g.pc = s.pc := by
      have hkeeps := s.instruction.effect_keepsCode (f.enter s)
      rw [Frame.leftBy, heffect] at hkeeps
      exact hkeeps.2.1
    have hraised : e.RaisedAt f.nextPc := by
      have hcarries := s.instruction.effect_carriesPc (f.enter s)
      rw [heffect] at hcarries
      exact hpc ▸ hcarries
    have hcounts : e.CountsLocals f.locals.size := by
      have heffects := s.instruction.effect_countsLocals (f.enter s)
      rw [heffect] at heffects
      exact heffects
    have hplace : g.pc = f.nextPc := hleft.trans hpc
    cases e with
    | stackOverflow _ | stackUnderflow _ | typeMismatch _ _ => exact ⟨hraised, hpc, congrArg some hplace⟩
    | localIndexOutOfRange index maxLocals _ =>
      obtain ⟨rfl, hbeyond⟩ := hcounts
      exact ⟨hraised, hpc, congrArg some hplace, UInt16.toNat_ofNat_of_lt' hlocals, hbeyond⟩
    | _ => exact hraised.elim

/-- **The error of a run is about its last step.**  Let every frame fit some body.  A run that fails has taken a number
of steps, and then one of the active frame failed: the error points there, and says what was wrong with it.  It is never
the error of a thread without frames, of a full call stack or of a method without code. -/
theorem run_error_points_at (t : Thread) (origins : List Origin) (hfits : List.Forall₂ Frame.Fits t.frames origins)
    (e : RuntimeError) (h : t.run.1 = .error e) :
    ∃ k u f below, t.after k = .ok u ∧ u.frames = f :: below ∧ u.step = .error e t.run.2 ∧ e.PointsAt f t.run.2 := by
  induction t using run_induction generalizing origins with
  | finished t hframes =>
    rw [run_of_finished hframes] at h
    cases h
  | failed t e' t' hframes hstep =>
    rw [run_of_error hframes hstep] at h ⊢
    cases h
    obtain ⟨f, below, ht⟩ := List.exists_cons_of_ne_nil hframes
    obtain ⟨origin, -, hfit, -, -⟩ := List.forall₂_cons_left_iff.1 (ht ▸ hfits)
    have hlocals : f.locals.size < UInt16.size := hfit.locals ▸ origin.body.maxLocals.toNat_lt
    exact ⟨0, t, f, below, rfl, ht, hstep, pointsAt_of_step ht hlocals hstep⟩
  | next t s t' hstep ih =>
    have hchanges := changes_step t
    rw [leftBy, hstep] at hchanges
    obtain ⟨origins', -, hfits'⟩ := hchanges.frames.origins hfits
    rw [run_of_step hstep] at h ⊢
    obtain ⟨k, u, f, below, hafter, hrest⟩ := ih origins' hfits' (map_add_eq_error.1 h)
    exact ⟨k + 1, u, f, below, (after_succ_of_step hstep k).trans hafter, hrest⟩

/-- A body that returns, and one that pushes a number and has no local variable to store it in. -/
def lostNumber : List Code := [⟨0, 0, #[0xB1], []⟩, ⟨1, 2, #[0x11, 0x00, 0x05, 0x36, 0x02], []⟩]

/-- The upper frame returns; the lower one loses its number at pc 3, and there the thread and the frame stand. -/
theorem lostNumber_points_at :
    let t : Thread := ⟨8, lostNumber.map Frame.ofCode, 2⟩
    List.Forall₂ Frame.Fits t.frames (lostNumber.map fun body => ⟨body, false⟩) ∧
      t.run.1 = .error (.localIndexOutOfRange 2 2 3) ∧ t.run.2.pc = 3 ∧ t.run.2.active?.map Frame.pc = some 3 := by
  intro t
  have hfits : List.Forall₂ Frame.Fits t.frames (lostNumber.map fun body => ⟨body, false⟩) :=
    .cons (Frame.fits_ofCode _) (.cons (Frame.fits_ofCode _) .nil)
  have hrun : t.run.1 = .error (.localIndexOutOfRange 2 2 3) := rfl
  obtain ⟨k, u, f, below, -, -, -, hpc, hthread, hframe, -⟩ := run_error_points_at t _ hfits _ hrun
  rw [← hpc] at hthread hframe
  exact ⟨hfits, hrun, hthread, hframe⟩

end Thread

end Jvm
