import Jvm.Machine.Run
import Jvm.Proofs.Disassembly
/-!
# Laws of steps and runs

`Thread.step_cons` says all that a step can do.  A step that succeeds leaves fewer bytes ahead, so the bound on the
number of steps is never met, and a run unrolls step by step: `Thread.run_of_step`, `run_of_error` and
`run_of_finished`.
-/
namespace Jvm

/-! ## What instructions do to a frame -/

/-- The frame that an action leaves behind, also when it fails. -/
def Frame.leftBy {α : Type} (f : Frame) (action : Frame.Action α) : Frame :=
  match action f with
  | .ok _ g => g
  | .error _ g => g

/-- The action leaves the code and the pcs of every frame alone. -/
def Frame.KeepsCode {α : Type} (action : Frame.Action α) : Prop := ∀ f : Frame,
  (f.leftBy action).code = f.code ∧ (f.leftBy action).pc = f.pc ∧ (f.leftBy action).nextPc = f.nextPc

namespace Frame.KeepsCode

variable {α β : Type}

theorem pure (a : α) : KeepsCode (Pure.pure a : Frame.Action α) := fun _ => ⟨rfl, rfl, rfl⟩

theorem bind {action : Frame.Action α} {next : α → Frame.Action β} (ha : KeepsCode action)
    (hn : ∀ a, KeepsCode (next a)) :
    KeepsCode (action >>= next) := by
  intro f
  have hf := ha f
  unfold leftBy at hf ⊢
  cases hact : action f with
  | error e g =>
    rw [hact] at hf
    simpa [Bind.bind, EStateM.bind, hact] using hf
  | ok a g =>
    rw [hact] at hf
    have hg := hn a g
    simp only [Bind.bind, EStateM.bind, hact]
    exact ⟨hg.1.trans hf.1, hg.2.1.trans hf.2.1, hg.2.2.trans hf.2.2⟩

theorem push (v : Value) : KeepsCode (Frame.push v) := by
  intro f
  unfold leftBy Frame.push
  cases f.stack.push? v <;> exact ⟨rfl, rfl, rfl⟩

theorem pop : KeepsCode Frame.pop := by
  intro f
  unfold leftBy Frame.pop
  cases f.stack.pop? <;> exact ⟨rfl, rfl, rfl⟩

theorem peek : KeepsCode Frame.peek := by
  intro f
  unfold leftBy Frame.peek
  cases f.stack.peek? <;> exact ⟨rfl, rfl, rfl⟩

theorem asInt (v : Value) : KeepsCode (Frame.asInt v) := by
  intro f
  unfold leftBy Frame.asInt
  cases v.int? <;> exact ⟨rfl, rfl, rfl⟩

theorem load (index : UInt16) : KeepsCode (Frame.load index) := by
  intro f
  unfold leftBy Frame.load
  cases f.locals.get? index <;> exact ⟨rfl, rfl, rfl⟩

theorem store (index : UInt16) (v : Value) : KeepsCode (Frame.store index v) := by
  intro f
  unfold leftBy Frame.store
  cases f.locals.set? index v <;> exact ⟨rfl, rfl, rfl⟩

end Frame.KeepsCode

namespace Instruction

/-- The effect of an instruction on the frame alone; returning has none. -/
def effect : Instruction → Frame.Action Unit
  | nop | ret => pure ()
  | aconstNull => Frame.push .null
  | push _ v => Frame.push (.int v)
  | iload index => do
    let v ← Frame.loadInt index
    Frame.push (.int v)
  | istore index => do
    let v ← Frame.popInt
    Frame.store index (.int v)
  | pop => do
    let _ ← Frame.pop
  | dup => do
    let v ← Frame.peek
    Frame.push v
  | arith op => do
    let b ← Frame.popInt
    let a ← Frame.popInt
    Frame.push (.int (op.apply a b))

/-- **What holds of the single actions on a frame and survives composition holds of the effect of every instruction.**
-/
theorem effect_induction {motive : (α : Type) → Frame.Action α → Prop}
    (pure : ∀ {α : Type} (a : α), motive α (Pure.pure a))
    (bind : ∀ {α β : Type} {action : Frame.Action α} {next : α → Frame.Action β}, motive α action →
      (∀ a, motive β (next a)) →
      motive β (action >>= next))
    (push : ∀ v, motive Unit (Frame.push v)) (pop : motive Value Frame.pop) (peek : motive Value Frame.peek)
    (asInt : ∀ v, motive Int32 (Frame.asInt v)) (load : ∀ index, motive Value (Frame.load index))
    (store : ∀ index v, motive Unit (Frame.store index v)) (i : Instruction) : motive Unit i.effect := by
  have popInt : motive Int32 Frame.popInt := bind pop asInt
  cases i with
  | nop | ret => exact pure ()
  | aconstNull | push _ _ => exact push _
  | iload index => exact bind (bind (load index) asInt) fun _ => push _
  | istore index => exact bind popInt fun _ => store _ _
  | pop => exact bind pop fun _ => pure _
  | dup => exact bind peek push
  | arith op => exact bind popInt fun _ => bind popInt fun _ => push _

theorem effect_keepsCode (i : Instruction) : Frame.KeepsCode i.effect :=
  i.effect_induction (motive := @Frame.KeepsCode) .pure .bind .push .pop .peek .asInt .load .store

/-- Every instruction but returning acts on the active frame alone. -/
theorem execute_eq_onActive {i : Instruction} {t : Thread} (hi : i ≠ ret) (ht : t.frames ≠ []) :
    i.execute t = Thread.onActive i.effect t := by
  cases i with
  | ret => exact absurd rfl hi
  | nop =>
    obtain ⟨pc, _ | ⟨f, below⟩, maxDepth⟩ := t
    · exact absurd rfl ht
    · rfl
  | aconstNull | push _ _ | iload _ | istore _ | pop | dup | arith _ => rfl

end Instruction

/-! ## Steps -/

namespace Thread

variable {t t' : Thread} {s : Step} {e : RuntimeError}

/-- **All that a step can do** to a thread with an active frame. -/
theorem step_cons {f : Frame} {below : List Frame} (ht : t.frames = f :: below) :
    t.step =
      match f.fetch with
      | .error e => .error e t
      | .ok s =>
        if s.instruction = .ret then .ok s { t with pc := s.pc, frames := below }
        else
          match s.instruction.effect (f.enter s) with
          | .ok _ g => .ok s { t with pc := s.pc, frames := g :: below }
          | .error e g => .error e { t with pc := s.pc, frames := g :: below } := by
  have hfetch : t.fetch = f.fetch := by simp [fetch, ht]
  rw [step, hfetch]
  cases f.fetch with
  | error e => rfl
  | ok s =>
    have henter : t.enter s = { t with pc := s.pc, frames := f.enter s :: below } := by simp [enter, ht]
    simp only [henter]
    by_cases hret : s.instruction = .ret
    · rw [if_pos hret, hret]
      rfl
    · rw [if_neg hret, Instruction.execute_eq_onActive hret (List.cons_ne_nil _ _)]
      simp only [onActive]
      cases s.instruction.effect (f.enter s) <;> rfl

theorem step_nil (ht : t.frames = []) : t.step = .error .noActiveFrame t := by
  have hfetch : t.fetch = .error .noActiveFrame := by simp [fetch, ht]
  rw [step, hfetch]

/-- A step that succeeds ends the active frame or moves it on. -/
theorem step_eq_ok (h : t.step = .ok s t') : ∃ f below, t.frames = f :: below ∧ f.fetch = .ok s ∧
    (s.instruction = .ret ∧ t' = { t with pc := s.pc, frames := below } ∨
      s.instruction ≠ .ret ∧ ∃ g, s.instruction.effect (f.enter s) = .ok () g ∧
        t' = { t with pc := s.pc, frames := g :: below }) := by
  cases ht : t.frames with
  | nil =>
    rw [step_nil ht] at h
    cases h
  | cons f below =>
    refine ⟨f, below, rfl, ?_⟩
    rw [step_cons ht] at h
    cases hfetch : f.fetch with
    | error e =>
      rw [hfetch] at h
      cases h
    | ok s' =>
      simp only [hfetch] at h
      by_cases hret : s'.instruction = .ret
      · rw [if_pos hret] at h
        cases h
        exact ⟨rfl, .inl ⟨hret, rfl⟩⟩
      · rw [if_neg hret] at h
        cases heffect : s'.instruction.effect (f.enter s') with
        | error e g =>
          rw [heffect] at h
          cases h
        | ok a g =>
          rw [heffect] at h
          cases h
          exact ⟨rfl, .inr ⟨hret, g, heffect, rfl⟩⟩

/-- A step that fails was not decoded, and then nothing changed; or it failed in its effect on the active frame. -/
theorem step_eq_error {f : Frame} {below : List Frame} (ht : t.frames = f :: below) (h : t.step = .error e t') :
    f.fetch = .error e ∧ t' = t ∨
      ∃ s g, f.fetch = .ok s ∧ s.instruction ≠ .ret ∧ s.instruction.effect (f.enter s) = .error e g ∧
        t' = { t with pc := s.pc, frames := g :: below } := by
  rw [step_cons ht] at h
  cases hfetch : f.fetch with
  | error e' =>
    rw [hfetch] at h
    cases h
    exact .inl ⟨rfl, rfl⟩
  | ok s =>
    simp only [hfetch] at h
    by_cases hret : s.instruction = .ret
    · rw [if_pos hret] at h
      cases h
    · rw [if_neg hret] at h
      cases heffect : s.instruction.effect (f.enter s) with
      | ok a g =>
        rw [heffect] at h
        cases h
      | error e' g =>
        rw [heffect] at h
        cases h
        exact .inr ⟨s, g, rfl, hret, heffect, rfl⟩

theorem work_cons {f : Frame} {below : List Frame} (ht : t.frames = f :: below) :
    t.work = f.work + below.foldr (fun f below => f.work + below) 0 := by
  rw [work, ht]
  rfl

/-- **A step that succeeds leaves fewer bytes ahead.** -/
theorem work_lt_of_step (h : t.step = .ok s t') : t'.work < t.work := by
  obtain ⟨f, below, ht, hfetch, hcases⟩ := step_eq_ok h
  rw [work_cons ht]
  rcases f.fetch_cases with ⟨op, i, next, hf, hlt, hle, -⟩ | ⟨hf, -⟩
  · rw [hf] at hfetch
    cases hfetch
    have hahead : f.work = f.code.size - f.nextPc := rfl
    rcases hcases with ⟨-, rfl⟩ | ⟨-, g, heffect, rfl⟩
    · show below.foldr (fun f below => f.work + below) 0 < _
      omega
    · have hkeeps := i.effect_keepsCode (f.enter ⟨f.nextPc, op, i, next⟩)
      rw [show (f.enter ⟨f.nextPc, op, i, next⟩).leftBy i.effect = g by simp [Frame.leftBy, heffect]] at hkeeps
      obtain ⟨hcode, -, hnext⟩ := hkeeps
      have hg : g.work = f.code.size - next := by
        rw [Frame.work, hcode, hnext]
        rfl
      rw [work_cons rfl]
      omega
  · rw [hf] at hfetch
    cases hfetch

/-! ## Runs -/

/-- The thread after `k` steps, all of which have to succeed. -/
def after : Nat → Thread → Except RuntimeError Thread
  | 0, t => .ok t
  | k + 1, t =>
    match t.step with
    | .ok _ t' => after k t'
    | .error e _ => .error e

theorem after_succ_of_step (h : t.step = .ok s t') (k : Nat) : t.after (k + 1) = t'.after k := by
  rw [after, h]

theorem after_succ_of_error (h : t.step = .error e t') (k : Nat) : t.after (k + 1) = .error e := by
  rw [after, h]

theorem not_isFinished_of_step (h : t.step = .ok s t') : t.isFinished = false := by
  obtain ⟨f, below, ht, -⟩ := step_eq_ok h
  rw [isFinished, ht]
  rfl

/-- What was executed before a run is only counted. -/
theorem runFor_add (n : Nat) : ∀ (limit m : Nat) (log : Log) (t : Thread),
    runFor limit (m + n) log t = { runFor limit m log t with result := (runFor limit m log t).result.map (· + n) }
  | 0, _, _, _ => rfl
  | limit + 1, m, log, t => by
    rw [runFor, runFor]
    cases t.isFinished with
    | true => rfl
    | false =>
      cases hstep : t.step with
      | ok s t' =>
        have hcount : m + n + 1 = m + 1 + n := by omega
        simp only [Bool.false_eq_true, if_false, hcount]
        exact runFor_add n limit (m + 1) _ t'
      | error e t' => rfl

/-- **The bound on the number of steps is never met**: any two bounds above the bytes ahead give the same run. -/
theorem runFor_eq_of_work_lt : ∀ {limit limit' : Nat} {n : Nat} {log : Log} {t : Thread}, t.work < limit →
    t.work < limit' →
    runFor limit n log t = runFor limit' n log t
  | 0, _, _, _, _, h, _ => absurd h (Nat.not_lt_zero _)
  | _ + 1, 0, _, _, _, _, h => absurd h (Nat.not_lt_zero _)
  | limit + 1, limit' + 1, n, log, t, h, h' => by
    rw [runFor, runFor]
    cases t.isFinished with
    | true => rfl
    | false =>
      cases hstep : t.step with
      | ok s t' =>
        have hlt := work_lt_of_step hstep
        simp only [Bool.false_eq_true, if_false]
        exact runFor_eq_of_work_lt (by omega) (by omega)
      | error e t' => rfl

theorem runLogging_of_finished {log : Log} (h : t.frames = []) : t.runLogging log = ⟨.ok 0, t, log⟩ := by
  rw [runLogging, runFor, if_pos (by rw [isFinished, h]; rfl)]

theorem runLogging_of_step {log : Log} (h : t.step = .ok s t') :
    t.runLogging log =
      { t'.runLogging (log.recordStep t) with result := (t'.runLogging (log.recordStep t)).result.map (· + 1) } := by
  have hbound : runFor t.work 1 (log.recordStep t) t' = runFor (t'.work + 1) 1 (log.recordStep t) t' :=
    runFor_eq_of_work_lt (work_lt_of_step h) (Nat.lt_succ_self _)
  rw [runLogging, runFor, if_neg (by rw [not_isFinished_of_step h]; exact Bool.false_ne_true)]
  simp only [h]
  rw [hbound]
  exact runFor_add 1 (t'.work + 1) 0 _ t'

theorem runLogging_of_error {log : Log} (hframes : t.frames ≠ []) (h : t.step = .error e t') :
    t.runLogging log = ⟨.error e, t', log.recordStep t⟩ := by
  rw [runLogging, runFor, if_neg (by simpa [isFinished] using hframes)]
  simp only [h]

theorem run_of_finished (h : t.frames = []) : t.run = (.ok 0, t) := by
  rw [run, runLogging_of_finished h]

/-- **A run goes on from the thread that its first step leaves**, and counts that step. -/
theorem run_of_step (h : t.step = .ok s t') : t.run = (t'.run.1.map (· + 1), t'.run.2) := by
  rw [run, runLogging_of_step h]
  rfl

theorem run_of_error (hframes : t.frames ≠ []) (h : t.step = .error e t') : t.run = (.error e, t') := by
  rw [run, runLogging_of_error hframes h]

/-- **Induction over a run**: it has come to its end, its next step fails, or it goes on from the thread that the next
step leaves. -/
@[elab_as_elim]
theorem run_induction {motive : Thread → Prop} (finished : ∀ t : Thread, t.frames = [] → motive t)
    (failed : ∀ (t : Thread) e t', t.frames ≠ [] → t.step = .error e t' → motive t)
    (next : ∀ (t : Thread) s t', t.step = .ok s t' → motive t' → motive t) (t : Thread) : motive t := by
  by_cases hframes : t.frames = []
  · exact finished t hframes
  · cases hstep : t.step with
    | error e t' => exact failed t e t' hframes hstep
    | ok s t' =>
      have hless := work_lt_of_step hstep
      exact next t s t' hstep (run_induction finished failed next t')
termination_by t.work

/-- **A run can be split behind any number of steps.** -/
theorem run_of_after : ∀ {k : Nat} {t t' : Thread}, t.after k = .ok t' → t.run = (t'.run.1.map (· + k), t'.run.2)
  | 0, t, t', h => by
    cases h
    cases hrun : t.run.1 with
    | ok n => exact Prod.ext hrun rfl
    | error e => exact Prod.ext hrun rfl
  | k + 1, t, t', h => by
    cases hstep : t.step with
    | error e u =>
      rw [after_succ_of_error hstep] at h
      cases h
    | ok s u =>
      rw [after_succ_of_step hstep] at h
      rw [run_of_step hstep, run_of_after h]
      cases t'.run.1 with
      | ok n => rfl
      | error e => rfl

theorem after_add {n : Nat} : ∀ {k : Nat} {t t' : Thread}, t.after k = .ok t' → t.after (k + n) = t'.after n
  | 0, t, t', h => by
    cases h
    rw [Nat.zero_add]
  | k + 1, t, t', h => by
    cases hstep : t.step with
    | error e u =>
      rw [after_succ_of_error hstep] at h
      cases h
    | ok s u =>
      rw [after_succ_of_step hstep] at h
      rw [Nat.add_right_comm, after_succ_of_step hstep]
      exact after_add h

theorem map_add_eq_ok {r : Except RuntimeError Nat} {n k : Nat} :
    r.map (· + k) = .ok n ↔ ∃ m, r = .ok m ∧ n = m + k := by
  cases r with
  | error e => simp [Except.map]
  | ok m => simp [Except.map, eq_comm]

theorem map_add_eq_error {r : Except RuntimeError Nat} {k : Nat} : r.map (· + k) = .error e ↔ r = .error e := by
  cases r <;> simp [Except.map]

end Thread

end Jvm
