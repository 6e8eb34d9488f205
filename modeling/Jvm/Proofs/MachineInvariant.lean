import Jvm.Proofs.RunLaws
/-!
# The invariant of the machine

A session is a thread in the hands of a user, who pushes frames on it, takes frames off it, lets it step or run and
meddles with its active frame, in any order and whether or not the single commands succeed.  `Session.invariant` says
what holds throughout: there are never more frames than allowed, and every frame still has the code and the sizes of the
body that it was made from.

To say so, a session remembers for each frame where it comes from.  `Frame.Fits` relates a frame to its origin;
`ActiveChange` says all that a command can do to the frames of a thread.
-/
namespace Jvm

/-! ## Sessions -/

/-- What a user can do to a thread. -/
inductive Command where
  /-- Pushes the frame of a body, before its first instruction. -/
  | pushFrame (body : Code)
  | popFrame
  | step
  | run
  /-- Executes an instruction that need not stand in the code. -/
  | execute (i : Instruction)
  | push (v : Value)
  | pop
  | popInt
  | store (index : UInt16) (v : Value)
  | setNextPc (pc : Nat)

/-- The thread that an action leaves behind, also when it fails. -/
def Thread.leftBy {α : Type} (t : Thread) (action : Thread.Action α) : Thread :=
  match action t with
  | .ok _ u => u
  | .error _ u => u

namespace Command

/-- The thread that a command leaves behind. -/
def perform : Command → Thread → Thread
  | pushFrame body, t => t.leftBy (Thread.pushFrame (.ofCode body))
  | popFrame, t => t.leftBy Thread.popFrame
  | step, t => t.leftBy Thread.step
  | run, t => t.run.2
  | execute i, t => t.leftBy i.execute
  | push v, t => t.leftBy (Thread.onActive (Frame.push v))
  | pop, t => t.leftBy (Thread.onActive Frame.pop)
  | popInt, t => t.leftBy (Thread.onActive Frame.popInt)
  | store index v, t => t.leftBy (Thread.onActive (Frame.store index v))
  | setNextPc pc, t => t.leftBy (Thread.onActive (Frame.setNextPc pc))

/-- Whether a command is a single step, the execution of one instruction, or something done on the active frame. -/
def isSingle : Command → Bool
  | pushFrame _ | popFrame | run => false
  | step | execute _ | push _ | pop | popInt | store _ _ | setNextPc _ => true

end Command

/-- Where a frame comes from. -/
structure Origin where
  /-- The body that it was made from. -/
  body : Code
  /-- Whether its next pc was ever set by hand. -/
  redirected : Bool

/-- A thread, and where its frames come from. -/
structure Session where
  thread : Thread
  origins : List Origin

namespace Session

/-- A session with an empty thread. -/
def start (maxDepth : Nat) : Session := ⟨.ofMaxDepth maxDepth, []⟩

/-- Performs a command.  A frame is known by its place from the bottom: if frames are gone, they are the upper ones. -/
def perform (s : Session) (c : Command) : Session :=
  let t := c.perform s.thread
  let origins :=
    match c, s.origins with
    | .pushFrame body, origins => if s.thread.depth < t.depth then ⟨body, false⟩ :: origins else origins
    | .setNextPc _, origin :: origins => { origin with redirected := true } :: origins
    | _, origins => origins.drop (s.thread.depth - t.depth)
  ⟨t, origins⟩

end Session

/-- The frame has the code and the sizes of the body that it was made from, and its pcs lie within the code unless they
were set by hand. -/
structure Frame.Fits (f : Frame) (origin : Origin) : Prop where
  code : f.code = origin.body.code
  capacity : f.stack.capacity = origin.body.maxStack.toNat
  depth : f.stack.depth ≤ f.stack.capacity
  locals : f.locals.size = origin.body.maxLocals.toNat
  pcs : origin.redirected = false → f.pc ≤ f.nextPc ∧ f.nextPc ≤ f.code.size

/-! ## Frames that fit -/

namespace Frame

theorem fits_ofCode (body : Code) : (ofCode body).Fits ⟨body, false⟩ where
  code := rfl
  capacity := rfl
  depth := Nat.zero_le _
  locals := Array.size_replicate
  pcs _ := ⟨Nat.le_refl 0, Nat.zero_le _⟩

/-- Whatever origin fits the one frame fits the other. -/
def FitsAs (f g : Frame) : Prop := ∀ o : Origin, f.Fits o → g.Fits o

/-- The action leaves a frame that fits where it found one. -/
def KeepsFit {α : Type} (action : Frame.Action α) : Prop := ∀ f : Frame, f.FitsAs (f.leftBy action)

namespace KeepsFit

variable {α β : Type}

theorem pure (a : α) : KeepsFit (Pure.pure a : Frame.Action α) := fun _ _ h => h

theorem bind {action : Frame.Action α} {next : α → Frame.Action β} (ha : KeepsFit action)
    (hn : ∀ a, KeepsFit (next a)) :
    KeepsFit (action >>= next) := by
  intro f o h
  have hf := ha f o h
  unfold leftBy at hf ⊢
  cases hact : action f with
  | error e g => simpa [Bind.bind, EStateM.bind, hact] using hf
  | ok a g =>
    rw [hact] at hf
    simpa [Bind.bind, EStateM.bind, hact, leftBy] using hn a g o hf

theorem push (v : Value) : KeepsFit (Frame.push v) := by
  intro f o h
  unfold leftBy Frame.push OperandStack.push?
  by_cases hfull : f.stack.isFull = true
  · simpa [hfull] using h
  · have hroom : f.stack.slots.size + 1 ≤ f.stack.capacity := by
      rw [OperandStack.isFull, decide_eq_true_eq, OperandStack.depth] at hfull
      omega
    simp only [if_neg hfull]
    exact { h with depth := by simpa [OperandStack.depth] using hroom }

theorem pop : KeepsFit Frame.pop := by
  intro f o h
  unfold leftBy Frame.pop OperandStack.pop?
  cases f.stack.slots.back? with
  | none => exact h
  | some v =>
    have hless : f.stack.slots.size - 1 ≤ f.stack.capacity := Nat.le_trans (Nat.sub_le _ _) h.depth
    exact { h with depth := by simpa [OperandStack.depth] using hless }

theorem peek : KeepsFit Frame.peek := by
  intro f o h
  unfold leftBy Frame.peek
  cases f.stack.peek? <;> exact h

theorem asInt (v : Value) : KeepsFit (Frame.asInt v) := by
  intro f o h
  unfold leftBy Frame.asInt
  cases v.int? <;> exact h

theorem load (index : UInt16) : KeepsFit (Frame.load index) := by
  intro f o h
  unfold leftBy Frame.load
  cases f.locals.get? index <;> exact h

theorem store (index : UInt16) (v : Value) : KeepsFit (Frame.store index v) := by
  intro f o h
  unfold leftBy Frame.store LocalVariables.set?
  by_cases hlt : index.toNat < f.locals.size
  · simp only [if_pos hlt]
    exact { h with locals := by simpa [LocalVariables.size] using h.locals }
  · simpa [hlt] using h

theorem popInt : KeepsFit Frame.popInt := bind pop asInt

end KeepsFit

/-- Executing a decoded instruction puts the pcs back into the code, whatever they were. -/
theorem Fits.enter {f : Frame} {o : Origin} {s : Step} (h : f.Fits o) (hfetch : f.fetch = .ok s) :
    (f.enter s).Fits o := by
  rcases f.fetch_cases with ⟨op, i, next, hf, hlt, hle, -⟩ | ⟨hf, -⟩
  · rw [hf] at hfetch
    cases hfetch
    exact { h with pcs := fun _ => ⟨Nat.le_of_lt hlt, hle⟩ }
  · rw [hf] at hfetch
    cases hfetch

end Frame

theorem Instruction.effect_keepsFit (i : Instruction) : Frame.KeepsFit i.effect :=
  i.effect_induction (motive := @Frame.KeepsFit) .pure .bind .push .pop .peek .asInt .load .store

/-! ## What a command does to the frames -/

/-- **All that a single command can do to the frames of a thread**: nothing, end the active one, or change the active
one in a way that `P` says. -/
inductive ActiveChange (P : Frame → Frame → Prop) : List Frame → List Frame → Prop where
  | idle (frames : List Frame) : ActiveChange P frames frames
  | ended (f : Frame) (below : List Frame) : ActiveChange P (f :: below) below
  | changed {f g : Frame} (below : List Frame) : P f g → ActiveChange P (f :: below) (g :: below)

namespace ActiveChange

variable {P Q : Frame → Frame → Prop} {frames frames' : List Frame}

theorem mono (hPQ : ∀ f g, P f g → Q f g) (h : ActiveChange P frames frames') : ActiveChange Q frames frames' := by
  cases h with
  | idle => exact .idle _
  | ended f => exact .ended f _
  | changed below hfg => exact .changed below (hPQ _ _ hfg)

/-- The frames that are left have the lower ones of the origins. -/
theorem origins {os : List Origin} (h : ActiveChange Frame.FitsAs frames frames')
    (hos : List.Forall₂ Frame.Fits frames os) :
    ∃ os', os' <:+ os ∧ List.Forall₂ Frame.Fits frames' os' := by
  cases h with
  | idle => exact ⟨os, List.suffix_refl os, hos⟩
  | ended f =>
    obtain ⟨o, os', -, hbelow, rfl⟩ := List.forall₂_cons_left_iff.1 hos
    exact ⟨os', List.suffix_cons o os', hbelow⟩
  | changed below hfg =>
    obtain ⟨o, os', hfits, hbelow, rfl⟩ := List.forall₂_cons_left_iff.1 hos
    exact ⟨o :: os', List.suffix_refl _, .cons (hfg o hfits) hbelow⟩

end ActiveChange

namespace Thread

variable {α : Type}

/-- What a single command does to a thread. -/
structure Changes (P : Frame → Frame → Prop) (t t' : Thread) : Prop where
  maxDepth : t'.maxDepth = t.maxDepth
  frames : ActiveChange P t.frames t'.frames

theorem leftBy_onActive {t : Thread} {f : Frame} {below : List Frame} (ht : t.frames = f :: below)
    (action : Frame.Action α) :
    t.leftBy (onActive action) = { t with frames := f.leftBy action :: below } := by
  simp only [leftBy, onActive, ht, Frame.leftBy]
  cases action f <;> rfl

theorem leftBy_step {t : Thread} {f : Frame} {below : List Frame} {s : Step} (ht : t.frames = f :: below)
    (hfetch : f.fetch = .ok s) (hret : s.instruction ≠ .ret) :
    t.leftBy step = { t with pc := s.pc, frames := (f.enter s).leftBy s.instruction.effect :: below } := by
  simp only [leftBy, step_cons ht, hfetch, if_neg hret, Frame.leftBy]
  cases s.instruction.effect (f.enter s) <;> rfl

theorem changes_onActive {P : Frame → Frame → Prop} {action : Frame.Action α} (h : ∀ f : Frame, P f (f.leftBy action))
    (t : Thread) : t.Changes P (t.leftBy (onActive action)) := by
  cases ht : t.frames with
  | nil =>
    have hsame : t.leftBy (onActive action) = t := by simp only [leftBy, onActive, ht]
    rw [hsame]
    exact ⟨rfl, .idle _⟩
  | cons f below =>
    rw [leftBy_onActive ht]
    exact ⟨rfl, ht ▸ .changed below (h f)⟩

theorem changes_popFrame (t : Thread) : t.Changes Frame.FitsAs (t.leftBy popFrame) := by
  obtain ⟨pc, _ | ⟨f, below⟩, maxDepth⟩ := t
  · exact ⟨rfl, .idle []⟩
  · exact ⟨rfl, .ended f below⟩

theorem changes_execute (i : Instruction) (t : Thread) : t.Changes Frame.FitsAs (t.leftBy i.execute) := by
  cases ht : t.frames with
  | nil =>
    -- Without a frame every instruction fails or does nothing.
    have hsame : t.leftBy i.execute = t := by
      obtain ⟨pc, frames, maxDepth⟩ := t
      cases ht
      cases i <;> rfl
    rw [hsame]
    exact ⟨rfl, .idle _⟩
  | cons f below =>
    by_cases hret : i = .ret
    · obtain ⟨pc, frames, maxDepth⟩ := t
      cases ht
      subst hret
      exact ⟨rfl, .ended f below⟩
    · have honly : t.leftBy i.execute = t.leftBy (onActive i.effect) := by
        rw [leftBy, leftBy, i.execute_eq_onActive hret (by simp [ht])]
      rw [honly]
      exact changes_onActive i.effect_keepsFit t

theorem changes_step (t : Thread) : t.Changes Frame.FitsAs (t.leftBy step) := by
  cases ht : t.frames with
  | nil =>
    rw [leftBy, step_nil ht]
    exact ⟨rfl, .idle _⟩
  | cons f below =>
    cases hfetch : f.fetch with
    | error e =>
      rw [leftBy, step_cons ht, hfetch]
      exact ⟨rfl, .idle _⟩
    | ok s =>
      by_cases hret : s.instruction = .ret
      · rw [leftBy, step_cons ht, hfetch]
        simp only [if_pos hret]
        exact ⟨rfl, ht ▸ .ended f below⟩
      · have hkeeps : f.FitsAs ((f.enter s).leftBy s.instruction.effect) :=
          fun o hfits => s.instruction.effect_keepsFit _ o (hfits.enter hfetch)
        rw [leftBy_step ht hfetch hret]
        exact ⟨rfl, ht ▸ .changed below hkeeps⟩

/-- The thread keeps its greatest depth, and what is left of its frames keeps fitting. -/
structure Settles (t t' : Thread) : Prop where
  maxDepth : t'.maxDepth = t.maxDepth
  origins : ∀ os, List.Forall₂ Frame.Fits t.frames os → ∃ os', os' <:+ os ∧ List.Forall₂ Frame.Fits t'.frames os'

theorem Changes.settles {t t' : Thread} (h : t.Changes Frame.FitsAs t') : t.Settles t' :=
  ⟨h.maxDepth, fun _ => h.frames.origins⟩

theorem Settles.trans {t u v : Thread} (htu : t.Settles u) (huv : u.Settles v) : t.Settles v where
  maxDepth := huv.maxDepth.trans htu.maxDepth
  origins os hos := by
    obtain ⟨os', hsuffix, hos'⟩ := htu.origins os hos
    obtain ⟨os'', hsuffix', hos''⟩ := huv.origins os' hos'
    exact ⟨os'', hsuffix'.trans hsuffix, hos''⟩

/-- **A run keeps what its steps keep.** -/
theorem settles_run (t : Thread) : t.Settles t.run.2 := by
  induction t using run_induction with
  | finished t hframes =>
    rw [run_of_finished hframes]
    exact ⟨rfl, fun os hos => ⟨os, List.suffix_refl os, hos⟩⟩
  | failed t e t' hframes hstep =>
    have hleft := changes_step t
    rw [leftBy, hstep] at hleft
    rw [run_of_error hframes hstep]
    exact hleft.settles
  | next t s t' hstep ih =>
    have hleft := changes_step t
    rw [leftBy, hstep] at hleft
    rw [run_of_step hstep]
    exact hleft.settles.trans ih

end Thread

/-- A single command changes nothing below the active frame. -/
theorem Command.changes_of_isSingle {c : Command} (hc : c.isSingle = true) (t : Thread) :
    t.Changes (fun _ _ => True) (c.perform t) := by
  cases c with
  | pushFrame _ | popFrame | run => cases hc
  | step => exact ⟨t.changes_step.maxDepth, t.changes_step.frames.mono fun _ _ _ => trivial⟩
  | execute i => exact ⟨(t.changes_execute i).maxDepth, (t.changes_execute i).frames.mono fun _ _ _ => trivial⟩
  | push _ | pop | popInt | store _ _ | setNextPc _ => exact t.changes_onActive fun _ => trivial

/-! ## Whole sessions -/

namespace Session

/-- What holds throughout a session. -/
structure Sound (limit : Nat) (s : Session) : Prop where
  maxDepth : s.thread.maxDepth = limit
  depth : s.thread.depth ≤ limit
  frames : List.Forall₂ Frame.Fits s.thread.frames s.origins

variable {limit : Nat} {s : Session}

theorem sound_start (limit : Nat) : (start limit).Sound limit := ⟨rfl, Nat.zero_le _, .nil⟩

theorem Sound.settle {t : Thread} (h : s.Sound limit) (ht : s.thread.Settles t) :
    Sound limit ⟨t, s.origins.drop (s.thread.depth - t.depth)⟩ := by
  obtain ⟨os, hsuffix, hos⟩ := ht.origins _ h.frames
  have hold : s.thread.depth = s.origins.length := h.frames.length_eq
  have hnew : t.depth = os.length := hos.length_eq
  -- What is left of the origins is known by its length, and the lengths are the depths.
  have hos' : os = s.origins.drop (s.thread.depth - t.depth) := by
    rw [hold, hnew]
    exact List.suffix_iff_eq_drop.1 hsuffix
  have hless := hsuffix.length_le
  have hdepth := h.depth
  refine ⟨ht.maxDepth.trans h.maxDepth, ?_, hos' ▸ hos⟩
  show t.depth ≤ limit
  omega

theorem Sound.pushFrame (h : s.Sound limit) (body : Code) : (s.perform (.pushFrame body)).Sound limit := by
  by_cases hlt : s.thread.depth < s.thread.maxDepth
  · have hleft : (Command.pushFrame body).perform s.thread =
        { s.thread with frames := .ofCode body :: s.thread.frames } := by
      simp [Command.perform, Thread.leftBy, Thread.pushFrame, hlt]
    have hmore : s.perform (.pushFrame body) =
        ⟨{ s.thread with frames := .ofCode body :: s.thread.frames }, ⟨body, false⟩ :: s.origins⟩ := by
      simp [perform, hleft, Thread.depth]
    rw [hmore]
    refine ⟨h.maxDepth, ?_, .cons (Frame.fits_ofCode body) h.frames⟩
    rw [← h.maxDepth]
    exact hlt
  · have hleft : (Command.pushFrame body).perform s.thread = s.thread := by
      simp [Command.perform, Thread.leftBy, Thread.pushFrame, hlt]
    have hsame : s.perform (.pushFrame body) = s := by
      simp [perform, hleft]
    rw [hsame]
    exact h

theorem Sound.setNextPc (h : s.Sound limit) (pc : Nat) : (s.perform (.setNextPc pc)).Sound limit := by
  obtain ⟨⟨threadPc, frames, maxDepth⟩, origins⟩ := s
  obtain ⟨hlimit, hdepth, hframes⟩ := h
  cases hframes with
  | nil => exact ⟨hlimit, hdepth, .nil⟩
  | cons hfits hbelow => exact ⟨hlimit, hdepth, .cons { hfits with pcs := fun h => nomatch h } hbelow⟩

/-- **Every command keeps a session sound**, whether it succeeds or fails. -/
theorem Sound.perform (h : s.Sound limit) (c : Command) : (s.perform c).Sound limit := by
  cases c with
  | pushFrame body => exact h.pushFrame body
  | setNextPc pc => exact h.setNextPc pc
  | popFrame => exact h.settle s.thread.changes_popFrame.settles
  | step => exact h.settle s.thread.changes_step.settles
  | run => exact h.settle s.thread.settles_run
  | execute i => exact h.settle (s.thread.changes_execute i).settles
  | push v => exact h.settle (s.thread.changes_onActive (Frame.KeepsFit.push v)).settles
  | pop => exact h.settle (s.thread.changes_onActive Frame.KeepsFit.pop).settles
  | popInt => exact h.settle (s.thread.changes_onActive Frame.KeepsFit.popInt).settles
  | store index v => exact h.settle (s.thread.changes_onActive (Frame.KeepsFit.store index v)).settles

theorem sound_foldl : ∀ (commands : List Command) {s : Session}, s.Sound limit →
    (commands.foldl Session.perform s).Sound limit
  | [], _, h => h
  | c :: commands, _, h => sound_foldl commands (h.perform c)

/-- **The invariant of the machine**, after any sequence of commands.  There are at most as many frames as allowed, and
each fits the body that it was made from.  A single command changes at most the active frame.  A push that is refused
changes nothing and reports the depth, which is the greatest one. -/
theorem invariant (limit : Nat) (commands : List Command) :
    let s := commands.foldl perform (start limit)
    s.thread.depth ≤ limit ∧
      List.Forall₂ Frame.Fits s.thread.frames s.origins ∧
      (∀ c : Command, c.isSingle = true →
        ActiveChange (fun _ _ => True) s.thread.frames (c.perform s.thread).frames) ∧
      ∀ f e t, Thread.pushFrame f s.thread = .error e t →
        t = s.thread ∧ e = .callStackOverflow s.thread.depth ∧ s.thread.depth = limit := by
  intro s
  have hsound : s.Sound limit := sound_foldl commands (sound_start limit)
  refine ⟨hsound.depth, hsound.frames, fun c hc => (c.changes_of_isSingle hc s.thread).frames, ?_⟩
  intro f e t hpush
  rw [Thread.pushFrame] at hpush
  split at hpush
  · cases hpush
  · rename_i hfull
    cases hpush
    have hmax := hsound.maxDepth
    have hdepth := hsound.depth
    exact ⟨rfl, rfl, by omega⟩

/-- `iconst_1` and `iadd`, which finds one number only. -/
def lonelySum : Code := ⟨1, 2, #[0x04, 0x60], []⟩

/-- The sum fails when it has taken the number off the stack, and a second frame is refused: the first one fits
nonetheless. -/
theorem lonelySum_fits :
    let s := [Command.pushFrame lonelySum, .step, .step, .pushFrame lonelySum].foldl perform (start 1)
    s.origins = [⟨lonelySum, false⟩] ∧ List.Forall₂ Frame.Fits s.thread.frames s.origins ∧
      (s.thread.frames.map fun f => (f.stack.depth, f.pc, f.nextPc)) = [(0, 1, 2)] ∧
      Thread.pushFrame (.ofCode lonelySum) s.thread = .error (.callStackOverflow 1) s.thread ∧ s.thread.depth = 1 := by
  intro s
  obtain ⟨-, hframes, -, hrefused⟩ := invariant 1 [.pushFrame lonelySum, .step, .step, .pushFrame lonelySum]
  have hpush : Thread.pushFrame (.ofCode lonelySum) s.thread = .error (.callStackOverflow 1) s.thread := rfl
  exact ⟨rfl, hframes, rfl, hpush, (hrefused _ _ _ hpush).2.2⟩

end Session

end Jvm
