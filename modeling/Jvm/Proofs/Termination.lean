import Jvm.Proofs.RunLaws
/-!
# Every run ends

`Thread.run` is defined with a bound on its steps.  Here the loop stands on its own, without a bound and with a counter
of 64 bits: `Thread.Reaches` says what it comes to, `Thread.Ends` how it ends.  `Thread.every_run_ends` says that it
always ends, that `Thread.run` is where it ends, and how many steps it takes.
-/
namespace Jvm.Thread

/-- The loop: as long as there is a frame, it takes a step and counts it.  From `t` it comes to `u` with `n` on the
counter. -/
inductive Reaches (t : Thread) : (n : UInt64) → (u : Thread) → Prop where
  | start : Reaches t 0 t
  | next {n : UInt64} {u u' : Thread} {s : Step} : Reaches t n u → u.isFinished = false → u.step = .ok s u' →
    Reaches t (n + 1) u'

/-- How the loop ends: with the counter when no frame is left, or with the error of a step that fails. -/
inductive Ends (t : Thread) : Except RuntimeError UInt64 → Thread → Prop where
  | finished {n : UInt64} {u : Thread} : Reaches t n u → u.isFinished = true → Ends t (.ok n) u
  | failed {n : UInt64} {u u' : Thread} {e : RuntimeError} : Reaches t n u → u.isFinished = false →
    u.step = .error e u' →
    Ends t (.error e) u'

variable {t t' u u' : Thread} {s : Step} {n : UInt64} {k : Nat}

/-! ## Numbers of steps -/

theorem after_succ_of_after (h : t.after k = .ok u) (hstep : u.step = .ok s u') : t.after (k + 1) = .ok u' := by
  rw [after_add h, after_succ_of_step hstep]
  rfl

/-- A step ends at most one frame. -/
theorem depth_le_of_step (h : t.step = .ok s t') : t.depth ≤ t'.depth + 1 := by
  obtain ⟨f, below, ht, -, ⟨-, rfl⟩ | ⟨-, g, -, rfl⟩⟩ := step_eq_ok h
  · simp [depth, ht]
  · simp [depth, ht]

/-- **Each of `k` steps used up at least one byte ahead, and at most one frame.** -/
theorem bounds_of_after : ∀ {k : Nat} {t u : Thread}, t.after k = .ok u → k + u.work ≤ t.work ∧ t.depth ≤ u.depth + k
  | 0, t, u, h => by
    cases h
    exact ⟨Nat.le_of_eq (Nat.zero_add _), Nat.le_refl _⟩
  | k + 1, t, u, h => by
    cases hstep : t.step with
    | error e v =>
      rw [after_succ_of_error hstep] at h
      cases h
    | ok s v =>
      rw [after_succ_of_step hstep] at h
      obtain ⟨hwork, hdepth⟩ := bounds_of_after h
      have hless := work_lt_of_step hstep
      have hone := depth_le_of_step hstep
      omega

/-! ## The loop -/

/-- The counter is the number of steps, as far as 64 bits can tell. -/
theorem Reaches.after (h : t.Reaches n u) : ∃ k, n = UInt64.ofNat k ∧ t.after k = .ok u := by
  induction h with
  | start => exact ⟨0, rfl, rfl⟩
  | next _ _ hstep ih =>
    obtain ⟨k, rfl, hafter⟩ := ih
    exact ⟨k + 1, (UInt64.ofNat_add k 1).symm, after_succ_of_after hafter hstep⟩

/-- **The loop ends from wherever it has come to**: it cannot take more steps than there are bytes ahead. -/
theorem Reaches.ends (h : t.Reaches n u) : ∃ result t', t.Ends result t' := by
  -- The induction is over the bytes ahead of `u`; the counter only goes along.
  induction u using run_induction generalizing n with
  | finished u hframes => exact ⟨_, _, .finished h (by rw [isFinished, hframes]; rfl)⟩
  | failed u e u' hframes hstep => exact ⟨_, _, .failed h (by simpa [isFinished] using hframes) hstep⟩
  | next u s u' hstep ih => exact ih (h.next (not_isFinished_of_step hstep) hstep)

/-- **`run` is where the loop ends.** -/
theorem Ends.run {result : Except RuntimeError UInt64} (h : t.Ends result t') :
    result = t.run.1.map UInt64.ofNat ∧ t' = t.run.2 := by
  cases h with
  | finished hreach hfinished =>
    obtain ⟨k, rfl, hafter⟩ := hreach.after
    rw [run_of_after hafter, run_of_finished (List.isEmpty_iff.1 hfinished)]
    exact ⟨by simp [Except.map], rfl⟩
  | failed hreach hrunning hstep =>
    obtain ⟨k, rfl, hafter⟩ := hreach.after
    rw [run_of_after hafter, run_of_error (List.isEmpty_eq_false_iff.1 hrunning) hstep]
    exact ⟨rfl, rfl⟩

/-- A run that counts its steps took them, and left no frame. -/
theorem after_of_run_eq_ok (h : t.run.1 = .ok k) : t.after k = .ok t.run.2 ∧ t.run.2.frames = [] := by
  induction t using run_induction generalizing k with
  | finished t hframes =>
    rw [run_of_finished hframes] at h ⊢
    cases h
    exact ⟨rfl, hframes⟩
  | failed t e t' hframes hstep =>
    rw [run_of_error hframes hstep] at h
    cases h
  | next t s t' hstep ih =>
    rw [run_of_step hstep] at h ⊢
    obtain ⟨m, hm, rfl⟩ := map_add_eq_ok.1 h
    rw [after_succ_of_step hstep]
    exact ih hm

/-- **Every run ends**, whatever the code and wherever the next pcs stand.  A step that succeeds leaves fewer bytes
ahead; so the loop ends, and nowhere else than `run` does.  A run that succeeds leaves no frame, and takes as many steps
as there are frames at least and as there are bytes ahead at most.  If these can be counted with 64 bits, the counter
never wraps. -/
theorem every_run_ends (t : Thread) :
    (∀ s t', t.step = .ok s t' → t'.work < t.work) ∧
      (∃ result t', t.Ends result t') ∧
      (∀ result t', t.Ends result t' → result = t.run.1.map UInt64.ofNat ∧ t' = t.run.2) ∧
      (∀ n, t.run.1 = .ok n → t.depth ≤ n ∧ n ≤ t.work ∧ t.run.2.frames = []) ∧
      (t.work < UInt64.size → ∀ n u s u', t.Reaches n u → u.step = .ok s u' → (n + 1).toNat = n.toNat + 1) := by
  refine ⟨fun s t' => work_lt_of_step, Reaches.start.ends, fun result t' => Ends.run, ?_, ?_⟩
  · intro n hrun
    obtain ⟨hafter, hframes⟩ := after_of_run_eq_ok hrun
    obtain ⟨hwork, hdepth⟩ := bounds_of_after hafter
    have hnone : t.run.2.depth = 0 := by rw [depth, hframes]; rfl
    exact ⟨by omega, by omega, hframes⟩
  · intro hsize n u s u' hreach hstep
    obtain ⟨k, rfl, hafter⟩ := hreach.after
    obtain ⟨hwork, -⟩ := bounds_of_after hafter
    have hless := work_lt_of_step hstep
    have hk : k + 1 < UInt64.size := by omega
    have hcount : UInt64.ofNat k + 1 = UInt64.ofNat (k + 1) := (UInt64.ofNat_add k 1).symm
    rw [hcount, UInt64.toNat_ofNat_of_lt' hk, UInt64.toNat_ofNat_of_lt' (by omega)]

/-- A frame in front of `nop` and `return`, on one in front of `return`, on one whose next pc is past its end. -/
def stackedFrames : List Frame :=
  [⟨#[0x00, 0xB1], ⟨#[]⟩, ⟨0, #[]⟩, 0, 0⟩, ⟨#[0x04, 0xB1], ⟨#[]⟩, ⟨0, #[]⟩, 0, 1⟩, ⟨#[0xB1], ⟨#[]⟩, ⟨0, #[]⟩, 0, 7⟩]

/-- The upper two frames are worth three steps, which is all that there is ahead; without the lowest one, the run
succeeds. -/
theorem stackedFrames_end :
    (∃ t', Ends ⟨0, stackedFrames, 3⟩ (.error (.unexpectedEndOfCode 7)) t') ∧
      (∃ t', Ends ⟨0, stackedFrames.take 2, 3⟩ (.ok 3) t') ∧ work ⟨0, stackedFrames.take 2, 3⟩ = 3 ∧
      depth ⟨0, stackedFrames.take 2, 3⟩ ≤ 3 := by
  obtain ⟨-, ⟨r, t', hends⟩, honly, -⟩ := every_run_ends ⟨0, stackedFrames, 3⟩
  obtain ⟨-, ⟨r₂, t₂, hends₂⟩, honly₂, hcount, -⟩ := every_run_ends ⟨0, stackedFrames.take 2, 3⟩
  have hr : r = .error (.unexpectedEndOfCode 7) := (honly r t' hends).1.trans rfl
  have hr₂ : r₂ = .ok 3 := (honly₂ r₂ t₂ hends₂).1.trans rfl
  exact ⟨⟨t', hr ▸ hends⟩, ⟨t₂, hr₂ ▸ hends₂⟩, rfl, (hcount 3 rfl).1⟩

end Jvm.Thread
