import Jvm.Proofs.KindEquality
import Mathlib.Algebra.GroupWithZero.Nat
/-!
# Frames run one after the other

No instruction looks below the active frame, so the frames of a thread run from the top down, each as it would on a
thread of its own: `Thread.run_frame_by_frame`.  The frames below only wait, and a frame that fails leaves them as they
were.

`Thread.Over` compares a thread with one that has some frames less at the bottom.  What is different in the pcs of the
two threads, or in their limits, is of no consequence: an instruction is decoded at the next pc of its frame.
-/
namespace Jvm
namespace Thread

variable {t t' u : Thread} {e : RuntimeError} {below : List Frame}

/-! ## Frames below -/

/-- `t` has the frames of `u` on top of the frames `below`. -/
def Over (below : List Frame) (t u : Thread) : Prop := t.frames = u.frames ++ below

/-- **A step does not look below the frames that it finds on top.** -/
theorem step_over (h : Over below t u) (hne : u.frames ≠ []) : ResultRel (Over below) Eq t.step u.step := by
  obtain ⟨f, rest, hu⟩ := List.exists_cons_of_ne_nil hne
  have ht : t.frames = f :: (rest ++ below) := by rw [h, hu]; rfl
  rw [step_cons ht, step_cons hu]
  cases f.fetch with
  | error e => exact .error h
  | ok s =>
    by_cases hret : s.instruction = .ret
    · simp only [if_pos hret]
      exact .ok rfl rfl
    · simp only [if_neg hret]
      cases s.instruction.effect (f.enter s) with
      | ok a g => exact .ok rfl rfl
      | error e g => exact .error rfl

/-- A run of the upper frames that succeeds takes the thread down to the frames below; one that fails is the whole run.
-/
theorem run_over (h : Over below t u) :
    (∀ n, u.run.1 = .ok n → ∃ t', t.after n = .ok t' ∧ t'.frames = below) ∧
      (∀ e, u.run.1 = .error e → t.run.1 = .error e ∧ t.run.2.frames = u.run.2.frames ++ below) := by
  -- By induction over the run of `u`; the frames below go along.
  induction u using run_induction generalizing t with
  | finished u hframes =>
    rw [run_of_finished hframes]
    refine ⟨fun n hn => ?_, fun e he => nomatch he⟩
    cases hn
    exact ⟨t, rfl, by rw [h, hframes]; rfl⟩
  | failed u e u' hframes hstep =>
    have hsame := step_over h hframes
    have hne : t.frames ≠ [] := by rw [h]; simp [hframes]
    rw [hstep] at hsame
    generalize ht : t.step = r at hsame
    cases hsame with
    | error h' =>
      rw [run_of_error hframes hstep, run_of_error hne ht]
      exact ⟨fun n hn => (nomatch hn), fun e he => ⟨he, h'⟩⟩
  | next u s u' hstep ih =>
    have hframes : u.frames ≠ [] := by
      obtain ⟨f, rest, hu, -⟩ := step_eq_ok hstep
      rw [hu]
      exact List.cons_ne_nil f rest
    have hsame := step_over h hframes
    rw [hstep] at hsame
    generalize ht : t.step = r at hsame
    cases hsame with
    | ok hs h' =>
      subst hs
      obtain ⟨hok, herror⟩ := ih h'
      rw [run_of_step hstep, run_of_step ht]
      constructor
      · intro n hn
        obtain ⟨m, hm, rfl⟩ := map_add_eq_ok.1 hn
        rw [after_succ_of_step ht]
        exact hok m hm
      · intro e he
        obtain ⟨hresult, hleft⟩ := herror e (map_add_eq_error.1 he)
        exact ⟨map_add_eq_error.2 hresult, hleft⟩

/-- **Only the frames of a thread matter to the result of its run**, not its pc and not its limit. -/
theorem run_of_frames_eq (h : t.frames = u.frames) : t.run.1 = u.run.1 := by
  have hover : Over [] t u := by rw [Over, h, List.append_nil]
  obtain ⟨hok, herror⟩ := run_over hover
  cases hu : u.run.1 with
  | error e => exact (herror e hu).1
  | ok n =>
    obtain ⟨t', hafter, hframes⟩ := hok n hu
    rw [run_of_after hafter, run_of_finished hframes]
    simp [Except.map]

/-- A frame that fails on a thread of its own is still there. -/
theorem frames_of_run_eq_error {f : Frame} (ht : t.frames = [f]) (h : t.run.1 = .error e) :
    ∃ g, t.run.2.frames = [g] := by
  induction t using run_induction generalizing f with
  | finished t hframes =>
    rw [hframes] at ht
    cases ht
  | failed t e' t' hframes hstep =>
    rw [run_of_error hframes hstep]
    rcases step_eq_error ht hstep with ⟨-, rfl⟩ | ⟨s, g, -, -, -, rfl⟩
    · exact ⟨f, ht⟩
    · exact ⟨g, rfl⟩
  | next t s t' hstep ih =>
    rw [run_of_step hstep] at h ⊢
    have hrest := map_add_eq_error.1 h
    obtain ⟨f', rest, hframes, -, hcases⟩ := step_eq_ok hstep
    obtain ⟨-, rfl⟩ := List.cons.inj (hframes.symm.trans ht)
    rcases hcases with ⟨-, rfl⟩ | ⟨-, g, -, rfl⟩
    · -- The frame has returned, and what is left has nothing that could fail.
      rw [run_of_finished rfl] at hrest
      cases hrest
    · exact ih rfl hrest

/-! ## Frame by frame -/

/-- Each on a thread of its own, the frames succeed with these counts. -/
abbrev Succeed (own : Frame → Thread) (frames : List Frame) (counts : List Nat) : Prop :=
  List.Forall₂ (fun f n => (own f).run.1 = .ok n) frames counts

section

variable {own : Frame → Thread} (hown : ∀ f, (own f).frames = [f])

include hown

/-- **Frames that succeed alone are worked off one after the other**, and no step is taken between them. -/
theorem after_of_succeed : ∀ {above : List Frame} {counts : List Nat} {t : Thread}, Succeed own above counts →
    t.frames = above ++ below → ∃ t', t.after counts.sum = .ok t' ∧ t'.frames = below
  | _, _, t, .nil, ht => ⟨t, rfl, ht⟩
  | f :: above, n :: counts, t, .cons hf habove, ht => by
    have hover : Over (above ++ below) t (own f) := by rw [Over, ht, hown f]; rfl
    obtain ⟨t₁, hfirst, ht₁⟩ := (run_over hover).1 n hf
    obtain ⟨t', hrest, ht'⟩ := after_of_succeed habove ht₁
    refine ⟨t', ?_, ht'⟩
    rw [List.sum_cons, after_add hfirst, hrest]

/-- The first frame from the top that fails alone decides the run. -/
theorem run_of_fails {above : List Frame} {f : Frame} {counts : List Nat} (habove : Succeed own above counts)
    (hf : (own f).run.1 = .error e) (ht : t.frames = above ++ f :: below) :
    t.run.1 = .error e ∧ ∃ left, (own f).run.2.frames = [left] ∧ t.run.2.frames = left :: below := by
  obtain ⟨t', hafter, ht'⟩ := after_of_succeed hown habove ht
  have hover : Over below t' (own f) := by rw [Over, ht', hown f]; rfl
  obtain ⟨hresult, hframes⟩ := (run_over hover).2 e hf
  obtain ⟨left, hleft⟩ := frames_of_run_eq_error (hown f) hf
  rw [run_of_after hafter]
  refine ⟨map_add_eq_error.2 hresult, left, hleft, ?_⟩
  rw [hframes, hleft]
  rfl

end

/-- All frames succeed alone, or one of them is the first to fail. -/
theorem succeed_or_fails (own : Frame → Thread) : ∀ frames : List Frame, (∃ counts, Succeed own frames counts) ∨
    ∃ above f below e counts, frames = above ++ f :: below ∧ Succeed own above counts ∧ (own f).run.1 = .error e
  | [] => .inl ⟨[], .nil⟩
  | f :: frames => by
    cases hf : (own f).run.1 with
    | error e => exact .inr ⟨[], f, frames, e, [], rfl, .nil, hf⟩
    | ok n =>
      rcases succeed_or_fails own frames with ⟨counts, h⟩ | ⟨above, g, below, e, counts, rfl, habove, hg⟩
      · exact .inl ⟨n :: counts, .cons hf h⟩
      · exact .inr ⟨f :: above, g, below, e, n :: counts, rfl, .cons hf habove, hg⟩

/-- **Frames run independently, from the top down.**  Let each frame run on a thread of its own, whatever the pc and the
limit of that thread.  If all succeed, the whole thread runs for the sum of their counts.  If not, the first one from
the top that fails gives its error to the whole run; it is left as its own run leaves it, and the frames below it are
left as they were.  And a run can be split behind any number of steps that succeed. -/
theorem run_frame_by_frame (t : Thread) (own : Frame → Thread) (hown : ∀ f, (own f).frames = [f]) :
    (∀ counts, Succeed own t.frames counts → t.run.1 = .ok counts.sum ∧ t.run.2.frames = []) ∧
    (∀ above f below e counts, t.frames = above ++ f :: below → Succeed own above counts → (own f).run.1 = .error e →
      t.run.1 = .error e ∧ ∃ left, (own f).run.2.frames = [left] ∧ t.run.2.frames = left :: below) ∧
    ((∃ counts, Succeed own t.frames counts) ∨
      ∃ above f below e counts, t.frames = above ++ f :: below ∧ Succeed own above counts ∧ (own f).run.1 = .error e) ∧
    (∀ m t', t.after m = .ok t' → (∀ n, t.run.1 = .ok (m + n) ↔ t'.run.1 = .ok n) ∧
      (∀ e, t.run.1 = .error e ↔ t'.run.1 = .error e) ∧ t.run.2 = t'.run.2) := by
  refine ⟨fun counts h => ?_, fun above f below e counts ht habove hf => run_of_fails hown habove hf ht,
    succeed_or_fails own t.frames, fun m t' hafter => ?_⟩
  · obtain ⟨t', hafter, hframes⟩ := after_of_succeed hown h (List.append_nil t.frames).symm
    rw [run_of_after hafter, run_of_finished hframes]
    exact ⟨map_add_eq_ok.2 ⟨0, rfl, (Nat.zero_add _).symm⟩, hframes⟩
  · rw [run_of_after hafter]
    refine ⟨fun n => ?_, fun e => map_add_eq_error, rfl⟩
    rw [map_add_eq_ok]
    constructor
    · rintro ⟨k, hk, hsum⟩
      rwa [show n = k by omega]
    · intro hn
      exact ⟨n, hn, Nat.add_comm m n⟩

/-- From the top: a frame in front of `iconst_1`, `pop` and `return`; one in front of `iadd` with a number and a null
reference on its stack; and one that would fail as well. -/
def mixedFrames : List Frame :=
  [⟨#[0x04, 0x57, 0xB1], ⟨#[]⟩, ⟨1, #[]⟩, 0, 0⟩, ⟨#[0x60], ⟨#[.null]⟩, ⟨2, #[.null, .int 7]⟩, 0, 0⟩,
    ⟨#[0xFF], ⟨#[]⟩, ⟨0, #[]⟩, 0, 0⟩]

/-- The second frame fails with both its values popped, and the third one is left as it was.  The first frame alone
takes three steps, and the run that starts behind them fails as the whole one does. -/
theorem mixedFrames_run :
    (run ⟨9, mixedFrames, 3⟩).1 = .error (.typeMismatch "int" 0) ∧
      (run ⟨9, mixedFrames, 3⟩).2.frames = ⟨#[0x60], ⟨#[.null]⟩, ⟨2, #[]⟩, 0, 1⟩ :: mixedFrames.drop 2 ∧
      (run ⟨9, mixedFrames.take 1, 3⟩).1 = .ok 3 ∧
      ∃ t', after 3 ⟨9, mixedFrames, 3⟩ = .ok t' ∧ t'.run.1 = .error (.typeMismatch "int" 0) := by
  let own : Frame → Thread := fun f => ⟨0, [f], 1⟩
  have hown : ∀ f, (own f).frames = [f] := fun _ => rfl
  obtain ⟨-, hfails, -, hsplit⟩ := run_frame_by_frame ⟨9, mixedFrames, 3⟩ own hown
  obtain ⟨hall, -⟩ := run_frame_by_frame ⟨9, mixedFrames.take 1, 3⟩ own hown
  have hfirst : Succeed own (mixedFrames.take 1) [3] := .cons rfl .nil
  obtain ⟨hresult, left, hleft, hframes⟩ := hfails (mixedFrames.take 1) _ (mixedFrames.drop 2) _ [3] rfl hfirst rfl
  obtain ⟨t', hafter⟩ : ∃ t', after 3 ⟨9, mixedFrames, 3⟩ = .ok t' := ⟨_, rfl⟩
  refine ⟨hresult, ?_, (hall [3] hfirst).1, t', hafter, ((hsplit 3 t' hafter).2.1 _).1 hresult⟩
  rw [hframes]
  cases hleft
  rfl

end Thread
end Jvm
