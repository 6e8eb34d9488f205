import Jvm.Proofs.LaunchLog
/-!
# Steps that never began

A step that cannot be decoded changes nothing: not the pcs, and not the frame, even if a part of the instruction was
there to be read. So the thread stands where it stood, the same step fails for the same reason however often it is
tried, and a run that came to such a step can be started again and comes to nothing else:
`Thread.undecoded_step_repeats`.

An instruction that was decoded fails for other reasons (`Instruction.raisedAt_of_execute`), and then the pcs have
moved.
-/
namespace Jvm

/-- The errors of a step that never began: there is no instruction to execute, or no frame to look for one. -/
def RuntimeError.IsUnstarted (e : RuntimeError) : Prop := e.IsUndecodable ∨ e = .noActiveFrame

theorem RuntimeError.RaisedAt.not_unstarted {pc : Nat} {e : RuntimeError} (h : e.RaisedAt pc) : ¬ e.IsUnstarted := by
  rintro (hundecodable | rfl)
  · exact h.not_undecodable hundecodable
  · exact h

/-- **An instruction that is executed on a frame fails with an error that carries the pc of the frame.** -/
theorem Instruction.raisedAt_of_execute {i : Instruction} {t t' : Thread} {f : Frame} {below : List Frame}
    {e : RuntimeError} (ht : t.frames = f :: below) (h : i.execute t = .error e t') : e.RaisedAt f.pc := by
  by_cases hret : i = .ret
  · subst hret
    obtain ⟨pc, frames, maxDepth⟩ := t
    cases ht
    cases h
  · have hcarries := i.effect_carriesPc f
    rw [execute_eq_onActive hret (by simp [ht])] at h
    simp only [Thread.onActive, ht] at h
    cases heffect : i.effect f with
    | ok a g =>
      rw [heffect] at h
      cases h
    | error e' g =>
      rw [heffect] at h hcarries
      cases h
      exact hcarries

namespace Thread

variable {t t' : Thread} {e : RuntimeError}

/-- What comes of `n` steps one after the other, whether they succeed or not, and the thread that they leave. -/
def attempts : Nat → Thread → List (Except RuntimeError Step) × Thread
  | 0, t => ([], t)
  | n + 1, t =>
    match t.step with
    | .ok s t' => (.ok s :: (attempts n t').1, (attempts n t').2)
    | .error e t' => (.error e :: (attempts n t').1, (attempts n t').2)

theorem eq_of_unstarted (h : t.step = .error e t') (he : e.IsUnstarted) : t' = t := by
  cases ht : t.frames with
  | nil =>
    rw [step_nil ht] at h
    cases h
    rfl
  | cons f below =>
    rcases step_error_cases ht h with ⟨-, -, hsame⟩ | ⟨s, -, hraised⟩
    · exact hsame
    · exact absurd he hraised.not_unstarted

/-- A step that leaves the thread as it was when it fails will fail for ever. -/
theorem attempts_of_stuck (h : t.step = .error e t) : ∀ n, t.attempts n = (List.replicate n (.error e), t)
  | 0 => rfl
  | n + 1 => by
    rw [attempts, h]
    simp only [attempts_of_stuck h n, List.replicate_succ]

theorem not_unstarted_of_execute {s : Step} (hfetch : t.fetch = .ok s)
    (h : s.instruction.execute (t.enter s) = .error e t') :
    ¬ e.IsUnstarted := by
  cases ht : t.frames with
  | nil =>
    rw [fetch, ht] at hfetch
    cases hfetch
  | cons f below =>
    have henter : (t.enter s).frames = f.enter s :: below := by simp [enter, ht]
    exact (Instruction.raisedAt_of_execute henter h).not_unstarted

/-- **A run that comes to a step it cannot decode stops in front of it**: all the steps before it were taken, and no
more. -/
theorem after_of_run_undecodable (h : t.run.1 = .error e) (he : e.IsUndecodable) :
    t.run.2.frames ≠ [] ∧ t.run.2.step = .error e t.run.2 ∧ ∃ k, t.after k = .ok t.run.2 := by
  induction t using run_induction with
  | finished t hframes =>
    rw [run_of_finished hframes] at h
    cases h
  | failed t e' t' hframes hstep =>
    rw [run_of_error hframes hstep] at h ⊢
    cases h
    obtain rfl := eq_of_unstarted hstep (.inl he)
    exact ⟨hframes, hstep, 0, rfl⟩
  | next t s t' hstep ih =>
    rw [run_of_step hstep] at h ⊢
    obtain ⟨hframes, hstuck, k, hafter⟩ := ih (map_add_eq_error.1 h)
    exact ⟨hframes, hstuck, k + 1, (after_succ_of_step hstep k).trans hafter⟩

/-- A run from a step that cannot be decoded reports nothing, for nothing is executed. -/
theorem runLogging_of_undecodable (hframes : t.frames ≠ []) (h : t.step = .error e t) (he : e.IsUndecodable)
    (log : Log) :
    t.runLogging log = ⟨.error e, t, log⟩ := by
  obtain ⟨f, below, ht⟩ := List.exists_cons_of_ne_nil hframes
  have hevent : t.stepEvent? = none := by
    rcases step_error_cases ht h with ⟨hfetch, -⟩ | ⟨s, -, hraised⟩
    · exact stepEvent?_of_undecodable ht hfetch
    · exact absurd he hraised.not_undecodable
  have hlog : log.recordStep t = log := by
    cases log with
    | silent => rfl
    | recording events => simp only [Log.recordStep, hevent]
  rw [runLogging_of_error hframes h, hlog]

/-- **A step that never began leaves everything as it was, and can be tried again to no avail.**  Its errors are never
those of an instruction that was decoded.  A run that ends in such a step has come as far as its steps succeeded, and a
second run does not execute anything: it fails for the same reason, on the same thread and without a line in the log. -/
theorem undecoded_step_repeats (t : Thread) :
    (∀ e t', t.step = .error e t' → e.IsUnstarted → t' = t ∧ ∀ n, t.attempts n = (List.replicate n (.error e), t)) ∧
      (∀ s e t', t.fetch = .ok s → s.instruction.execute (t.enter s) = .error e t' → ¬ e.IsUnstarted) ∧
      ∀ e, t.run.1 = .error e → e.IsUndecodable →
        (∃ k, t.after k = .ok t.run.2 ∧ t.after (k + 1) = .error e) ∧ t.run.2.run = (.error e, t.run.2) ∧
          ∀ log, t.run.2.runLogging log = ⟨.error e, t.run.2, log⟩ := by
  refine ⟨?_, fun s e t' => not_unstarted_of_execute, ?_⟩
  · intro e t' hstep he
    obtain rfl := eq_of_unstarted hstep he
    exact ⟨rfl, attempts_of_stuck hstep⟩
  · intro e hrun he
    obtain ⟨hframes, hstuck, k, hafter⟩ := after_of_run_undecodable hrun he
    refine ⟨⟨k, hafter, ?_⟩, run_of_error hframes hstuck, runLogging_of_undecodable hframes hstuck he⟩
    rw [after_add hafter, after_succ_of_error hstuck]

/-- A frame in front of `iconst_0` and of a `sipush` without its second byte, on one that waits. -/
def cutOperand : List Frame := [⟨#[0x03, 0x11, 0x01], ⟨#[]⟩, ⟨1, #[]⟩, 0, 0⟩, ⟨#[0xB1], ⟨#[]⟩, ⟨0, #[]⟩, 0, 0⟩]

/-- The run takes the one step that it can, and then fails as often as it is started: the first byte of the operand
stays unread. -/
theorem cutOperand_repeats :
    let t := run ⟨9, cutOperand, 2⟩
    t.1 = .error (.unexpectedEndOfCode 3) ∧ t.2.run = (.error (.unexpectedEndOfCode 3), t.2) ∧
      (t.2.frames.map fun f => (f.pc, f.nextPc, f.stack.depth)) = [(0, 1, 1), (0, 0, 0)] ∧
      t.2.attempts 5 = (List.replicate 5 (.error (.unexpectedEndOfCode 3)), t.2) := by
  intro t
  have hrun : t.1 = .error (.unexpectedEndOfCode 3) := rfl
  obtain ⟨-, hagain, -⟩ := (undecoded_step_repeats ⟨9, cutOperand, 2⟩).2.2 _ hrun trivial
  have hstep : t.2.step = .error (.unexpectedEndOfCode 3) t.2 := rfl
  obtain ⟨-, hattempts⟩ := (undecoded_step_repeats t.2).1 _ _ hstep (.inl trivial)
  exact ⟨hrun, hagain, rfl, hattempts 5⟩

end Thread

end Jvm
