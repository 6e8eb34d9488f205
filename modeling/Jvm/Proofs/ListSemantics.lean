import Jvm.Proofs.RunLaws
/-!
# Runs as folds over listings

A second account of what code means, without pcs that move and without a loop: the code is written out as a listing, and
the listing is folded over a stack and local variables.  `Thread.run_eq_fold_listing` says that a run of one frame comes
to the same end, and has the same values in store after each step.
-/
namespace Jvm

/-! ## The reference -/

/-- What a frame has in store.  The stack is bounded by construction: it is given with the room that is left. -/
structure Stores where
  /-- The values on the stack, the top one first. -/
  stack : List Value
  /-- How many more values there is room for. -/
  room : Nat
  /-- The local variables. -/
  locals : Array Value
  deriving DecidableEq

/-- What an instruction leads to. -/
inductive Outcome where
  /-- The next instruction. -/
  | next (σ : Stores)
  /-- The end of the method. -/
  | returned
  /-- The end of the run. -/
  | failed (e : RuntimeError)
  deriving DecidableEq

namespace Stores

def push (pc : Nat) (v : Value) : Stores → Outcome
  | ⟨stack, room + 1, locals⟩ => .next ⟨v :: stack, room, locals⟩
  | ⟨_, 0, _⟩ => .failed (.stackOverflow pc)

/-- The result of an operation on integers, brought back to 32 bits. -/
def compute (op : IntOp) (a b : Int32) : Int32 :=
  match op with
  | .add => Int32.ofInt (a.toInt + b.toInt)
  | .sub => Int32.ofInt (a.toInt - b.toInt)
  | .mul => Int32.ofInt (a.toInt * b.toInt)

/-- What the instruction at `pc` leads to. -/
def transition (pc : Nat) : Instruction → Stores → Outcome
  | .nop, σ => .next σ
  | .aconstNull, σ => σ.push pc .null
  | .push _ v, σ => σ.push pc (.int v)
  | .iload index, σ =>
    match σ.locals[index.toNat]? with
    | some (.int v) => σ.push pc (.int v)
    | some .null => .failed (.typeMismatch "int" pc)
    | none => .failed (.localIndexOutOfRange index (UInt16.ofNat σ.locals.size) pc)
  | .istore _, ⟨[], _, _⟩ => .failed (.stackUnderflow pc)
  | .istore _, ⟨.null :: _, _, _⟩ => .failed (.typeMismatch "int" pc)
  | .istore index, ⟨.int v :: stack, room, locals⟩ =>
    if index.toNat < locals.size then .next ⟨stack, room + 1, locals.setIfInBounds index.toNat (.int v)⟩
    else .failed (.localIndexOutOfRange index (UInt16.ofNat locals.size) pc)
  | .pop, ⟨[], _, _⟩ => .failed (.stackUnderflow pc)
  | .pop, ⟨_ :: stack, room, locals⟩ => .next ⟨stack, room + 1, locals⟩
  | .dup, ⟨[], _, _⟩ => .failed (.stackUnderflow pc)
  | .dup, ⟨v :: stack, room, locals⟩ => push pc v ⟨v :: stack, room, locals⟩
  | .arith _, ⟨[], _, _⟩ => .failed (.stackUnderflow pc)
  | .arith _, ⟨.null :: _, _, _⟩ => .failed (.typeMismatch "int" pc)
  | .arith _, ⟨[.int _], _, _⟩ => .failed (.stackUnderflow pc)
  | .arith _, ⟨.int _ :: .null :: _, _, _⟩ => .failed (.typeMismatch "int" pc)
  -- Two values make room for one: the result always fits.
  | .arith op, ⟨.int b :: .int a :: stack, room, locals⟩ => .next ⟨.int (compute op a b) :: stack, room + 1, locals⟩
  | .ret, _ => .returned

end Stores

/-- How far a fold over a listing has come. -/
inductive Status where
  | running (executed : Nat) (σ : Stores)
  | returned (executed : Nat)
  | failed (e : RuntimeError)
  deriving DecidableEq

namespace Status

/-- Executes one line.  **Nothing happens after a return or a failure.** -/
def advance : Status → Nat × Instruction → Status
  | running n σ, (pc, i) =>
    match σ.transition pc i with
    | .next σ' => running (n + 1) σ'
    | .returned => returned (n + 1)
    | .failed e => failed e
  | status, _ => status

/-- The result of a run with this status at the end of the listing. -/
def result (ending : Ending) : Status → Except RuntimeError Nat
  | running _ _ => .error ending.error
  | returned n => .ok n
  | failed e => .error e

end Status

/-- What a frame has in store. -/
def Frame.stores (f : Frame) : Stores :=
  ⟨f.stack.slots.toList.reverse, f.stack.capacity - f.stack.depth, f.locals.slots⟩

/-! ## One instruction -/

namespace Stores

/-- The frame with these stores in place of its own. -/
def onFrame (σ : Stores) (f : Frame) : Frame :=
  { f with stack := ⟨σ.stack.length + σ.room, σ.stack.reverse.toArray⟩, locals := ⟨σ.locals⟩ }

theorem stores_onFrame (σ : Stores) (f : Frame) : (σ.onFrame f).stores = σ := by
  obtain ⟨stack, room, locals⟩ := σ
  simp [onFrame, Frame.stores, OperandStack.depth]

theorem depth_onFrame_le (σ : Stores) (f : Frame) : (σ.onFrame f).stack.depth ≤ (σ.onFrame f).stack.capacity := by
  simp [onFrame, OperandStack.depth]

theorem onFrame_stores {f : Frame} (h : f.stack.depth ≤ f.stack.capacity) : f.stores.onFrame f = f := by
  have hcapacity : f.stack.slots.size + (f.stack.capacity - f.stack.depth) = f.stack.capacity := by
    rw [OperandStack.depth] at h ⊢
    omega
  obtain ⟨code, ⟨locals⟩, ⟨capacity, slots⟩, pc, nextPc⟩ := f
  simpa [onFrame, Frame.stores] using hcapacity

theorem compute_eq_apply (op : IntOp) (a b : Int32) : compute op a b = op.apply a b := by
  cases op with
  | add => simp [compute, IntOp.apply, Int32.ofInt_add]
  | sub => simp [compute, IntOp.apply, Int32.ofInt_sub]
  | mul => simp [compute, IntOp.apply, Int32.ofInt_mul]

variable {stack : List Value} {room : Nat} {locals : Array Value} {v : Value} {f : Frame}

theorem push_of_room : Frame.push v (onFrame ⟨stack, room + 1, locals⟩ f) =
    .ok () (onFrame ⟨v :: stack, room, locals⟩ f) := by
  have hcapacity : stack.length + (room + 1) = stack.length + 1 + room := by omega
  have hroom : ¬ stack.length + 1 + room ≤ stack.length := by omega
  simp [Frame.push, onFrame, OperandStack.push?, OperandStack.isFull, OperandStack.depth, hcapacity, hroom]

theorem push_of_full : Frame.push v (onFrame ⟨stack, 0, locals⟩ f) =
    .error (.stackOverflow f.pc) (onFrame ⟨stack, 0, locals⟩ f) := by
  simp [Frame.push, onFrame, OperandStack.push?, OperandStack.isFull, OperandStack.depth]

theorem pop_cons : Frame.pop (onFrame ⟨v :: stack, room, locals⟩ f) = .ok v (onFrame ⟨stack, room + 1, locals⟩ f) := by
  simp [Frame.pop, onFrame, OperandStack.pop?]
  omega

theorem pop_nil : Frame.pop (onFrame ⟨[], room, locals⟩ f) =
    .error (.stackUnderflow f.pc) (onFrame ⟨[], room, locals⟩ f) := by
  simp [Frame.pop, onFrame, OperandStack.pop?]

theorem peek_cons : Frame.peek (onFrame ⟨v :: stack, room, locals⟩ f) =
    .ok v (onFrame ⟨v :: stack, room, locals⟩ f) := by
  simp [Frame.peek, onFrame, OperandStack.peek?]

theorem peek_nil : Frame.peek (onFrame ⟨[], room, locals⟩ f) =
    .error (.stackUnderflow f.pc) (onFrame ⟨[], room, locals⟩ f) := by
  simp [Frame.peek, onFrame, OperandStack.peek?]

theorem load_eq (index : UInt16) : Frame.load index (onFrame ⟨stack, room, locals⟩ f) =
    match locals[index.toNat]? with
    | some v => .ok v (onFrame ⟨stack, room, locals⟩ f)
    | none => .error (.localIndexOutOfRange index (UInt16.ofNat locals.size) f.pc) (onFrame ⟨stack, room, locals⟩ f) :=
  rfl

theorem store_eq (index : UInt16) : Frame.store index v (onFrame ⟨stack, room, locals⟩ f) =
    if index.toNat < locals.size then .ok () (onFrame ⟨stack, room, locals.setIfInBounds index.toNat v⟩ f)
    else .error (.localIndexOutOfRange index (UInt16.ofNat locals.size) f.pc) (onFrame ⟨stack, room, locals⟩ f) := by
  by_cases h : index.toNat < locals.size
  · simp [Frame.store, onFrame, LocalVariables.set?, LocalVariables.size, h]
  · simp [Frame.store, onFrame, LocalVariables.set?, LocalVariables.size, h, Frame.noSuchLocal]

end Stores

/-- A frame does what the reference does, up to the frame that a failure leaves behind. -/
def Outcome.Matches (f : Frame) (r : EStateM.Result RuntimeError Frame Unit) : Outcome → Prop
  | .next σ => r = .ok () (σ.onFrame f)
  | .returned => False
  | .failed e => ∃ g, r = .error e g

open Stores

theorem push_matches (σ : Stores) (v : Value) (f : Frame) : (σ.push f.pc v).Matches f (Frame.push v (σ.onFrame f)) := by
  obtain ⟨stack, _ | room, locals⟩ := σ
  · exact ⟨_, push_of_full⟩
  · exact push_of_room

theorem bind_of_ok {α β : Type} {action : Frame.Action α} {next : α → Frame.Action β} {f g : Frame} {a : α}
    (h : action f = .ok a g) : (action >>= next) f = next a g := by
  simp [bind, EStateM.bind, h]

theorem bind_of_error {α β : Type} {action : Frame.Action α} {next : α → Frame.Action β} {f g : Frame}
    {e : RuntimeError} (h : action f = .error e g) : (action >>= next) f = .error e g := by
  simp [bind, EStateM.bind, h]

theorem popInt_int {n : Int32} {stack : List Value} {room : Nat} {locals : Array Value} {f : Frame} :
    Frame.popInt (onFrame ⟨.int n :: stack, room, locals⟩ f) = .ok n (onFrame ⟨stack, room + 1, locals⟩ f) :=
  bind_of_ok pop_cons

theorem popInt_null {stack : List Value} {room : Nat} {locals : Array Value} {f : Frame} :
    Frame.popInt (onFrame ⟨.null :: stack, room, locals⟩ f) =
      .error (.typeMismatch "int" f.pc) (onFrame ⟨stack, room + 1, locals⟩ f) :=
  bind_of_ok pop_cons

theorem popInt_nil {room : Nat} {locals : Array Value} {f : Frame} :
    Frame.popInt (onFrame ⟨[], room, locals⟩ f) = .error (.stackUnderflow f.pc) (onFrame ⟨[], room, locals⟩ f) :=
  bind_of_error pop_nil

/-- **Each instruction has the effect that the reference gives it**, one case for each of its failures. -/
theorem effect_matches {i : Instruction} (hi : i ≠ .ret) (σ : Stores) (f : Frame) :
    (σ.transition f.pc i).Matches f (i.effect (σ.onFrame f)) := by
  obtain ⟨stack, room, locals⟩ := σ
  cases i with
  | ret => exact absurd rfl hi
  | nop => exact rfl
  | aconstNull | push _ _ => exact push_matches _ _ f
  | iload index =>
    have hload : Frame.load index (onFrame ⟨stack, room, locals⟩ f) = _ := load_eq index
    simp only [transition]
    rcases hget : locals[index.toNat]? with _ | n | _
    · rw [hget] at hload
      exact ⟨_, bind_of_error (bind_of_error hload)⟩
    · rw [hget] at hload
      have hint : Frame.loadInt index (onFrame ⟨stack, room, locals⟩ f) = .ok n _ := bind_of_ok hload
      rw [Instruction.effect, bind_of_ok hint]
      exact push_matches _ _ f
    · rw [hget] at hload
      have hnull : Frame.loadInt index (onFrame ⟨stack, room, locals⟩ f) = .error (.typeMismatch "int" f.pc) _ :=
        bind_of_ok hload
      exact ⟨_, bind_of_error hnull⟩
  | istore index =>
    rcases stack with _ | ⟨n | _, stack⟩
    · exact ⟨_, bind_of_error popInt_nil⟩
    · rw [Instruction.effect, bind_of_ok popInt_int, store_eq, transition]
      by_cases hlt : index.toNat < locals.size
      · rw [if_pos hlt, if_pos hlt]
        exact rfl
      · rw [if_neg hlt, if_neg hlt]
        exact ⟨_, rfl⟩
    · exact ⟨_, bind_of_error popInt_null⟩
  | pop =>
    rcases stack with _ | ⟨v, stack⟩
    · exact ⟨_, bind_of_error pop_nil⟩
    · exact bind_of_ok pop_cons
  | dup =>
    rcases stack with _ | ⟨v, stack⟩
    · exact ⟨_, bind_of_error peek_nil⟩
    · rw [Instruction.effect, bind_of_ok peek_cons]
      exact push_matches _ _ f
  | arith op =>
    rcases stack with _ | ⟨b | _, stack⟩
    · exact ⟨_, bind_of_error popInt_nil⟩
    · rw [Instruction.effect, bind_of_ok popInt_int]
      rcases stack with _ | ⟨a | _, stack⟩
      · exact ⟨_, bind_of_error popInt_nil⟩
      · -- The two operands that were popped leave room for the result.
        rw [bind_of_ok popInt_int, transition, compute_eq_apply]
        exact push_of_room
      · exact ⟨_, bind_of_error popInt_null⟩
    · exact ⟨_, bind_of_error popInt_null⟩

/-! ## One step -/

namespace Thread

variable {t : Thread} {σ : Stores} {pc : Nat} {i : Instruction} {lines : List (Nat × Instruction)} {ending : Ending}

/-- The thread's only frame has these stores, and this listing ahead. -/
def Stands (t : Thread) (ahead : Listing) (σ : Stores) : Prop :=
  ∃ f : Frame, t.frames = [σ.onFrame f] ∧ listing f.code f.nextPc = ahead

theorem step_of_end (h : t.Stands ⟨[], ending⟩ σ) : t.step = .error ending.error t := by
  obtain ⟨f, ht, hahead⟩ := h
  have hlisting : listing (σ.onFrame f).code (σ.onFrame f).nextPc = ⟨[], ending⟩ := hahead
  rcases (σ.onFrame f).fetch_cases with ⟨op, i, next, -, -, -, hline⟩ | ⟨hfetch, -⟩
  · rw [hline] at hlisting
    cases hlisting
  · rw [hlisting] at hfetch
    rw [step_cons ht, hfetch]

/-- **A step is one line of the listing.** -/
theorem step_of_line (h : t.Stands ⟨(pc, i) :: lines, ending⟩ σ) :
    match σ.transition pc i with
    | .next σ' => ∃ s t', t.step = .ok s t' ∧ t'.Stands ⟨lines, ending⟩ σ'
    | .returned => ∃ s t', t.step = .ok s t' ∧ t'.frames = []
    | .failed e => ∃ t', t.step = .error e t' := by
  obtain ⟨f, ht, hahead⟩ := h
  have hlisting : listing (σ.onFrame f).code (σ.onFrame f).nextPc = ⟨(pc, i) :: lines, ending⟩ := hahead
  rcases (σ.onFrame f).fetch_cases with ⟨op, j, next, hfetch, -, -, hline⟩ | ⟨-, hnone⟩
  · rw [hline] at hlisting
    injection hlisting with hlines hending
    injection hlines with hhead hlines
    injection hhead with hpc hi
    subst hpc hi
    have hrest : listing (σ.onFrame f).code next = ⟨lines, ending⟩ := by
      rw [← hlines, ← hending]
    let s : Step := ⟨(σ.onFrame f).nextPc, op, j, next⟩
    have hstep := step_cons ht
    rw [hfetch] at hstep
    by_cases hret : j = .ret
    · subst hret
      exact ⟨s, _, hstep, rfl⟩
    · have hmatches := effect_matches hret σ (f.enter s)
      simp only [if_neg hret] at hstep
      cases hnext : σ.transition (σ.onFrame f).nextPc j with
      | next σ' =>
        rw [show σ.transition (f.enter s).pc j = .next σ' from hnext] at hmatches
        have heffect : j.effect ((σ.onFrame f).enter s) = .ok () (σ'.onFrame (f.enter s)) := hmatches
        rw [heffect] at hstep
        exact ⟨s, _, hstep, f.enter s, rfl, hrest⟩
      | returned =>
        rw [show σ.transition (f.enter s).pc j = .returned from hnext] at hmatches
        exact hmatches.elim
      | failed e =>
        rw [show σ.transition (f.enter s).pc j = .failed e from hnext] at hmatches
        obtain ⟨g, heffect⟩ := hmatches
        have heffect : j.effect ((σ.onFrame f).enter s) = .error e g := heffect
        rw [heffect] at hstep
        exact ⟨_, hstep⟩
  · rw [hlisting] at hnone
    cases hnone

end Thread

/-! ## Whole runs -/

namespace Status

/-- The status of a fold that began `n` instructions earlier. -/
def later (n : Nat) : Status → Status
  | running m σ => running (m + n) σ
  | returned m => returned (m + n)
  | failed e => failed e

theorem advance_later (n : Nat) (status : Status) (line : Nat × Instruction) :
    (status.later n).advance line = (status.advance line).later n := by
  cases status with
  | running m σ =>
    simp only [later, advance]
    cases σ.transition line.1 line.2 with
    | next σ' => simp [Nat.add_right_comm]
    | returned => simp [Nat.add_right_comm]
    | failed e => rfl
  | returned m => rfl
  | failed e => rfl

theorem foldl_advance_later (n : Nat) : ∀ (lines : List (Nat × Instruction)) (status : Status),
    lines.foldl advance (status.later n) = (lines.foldl advance status).later n
  | [], _ => rfl
  | line :: lines, status => by
    rw [List.foldl_cons, List.foldl_cons, advance_later]
    exact foldl_advance_later n lines _

theorem foldl_advance_returned (n : Nat) :
    ∀ lines : List (Nat × Instruction), lines.foldl advance (returned n) = returned n
  | [] => rfl
  | _ :: lines => foldl_advance_returned n lines

theorem foldl_advance_failed (e : RuntimeError) :
    ∀ lines : List (Nat × Instruction), lines.foldl advance (failed e) = failed e
  | [] => rfl
  | _ :: lines => foldl_advance_failed e lines

theorem result_later (n : Nat) (ending : Ending) (status : Status) :
    (status.later n).result ending = (status.result ending).map (· + n) := by
  cases status <;> rfl

theorem running_of_later {n k : Nat} {status : Status} {σ : Stores} (h : status.later n = running k σ) :
    ∃ m, status = running m σ := by
  cases status with
  | running m _ =>
    cases h
    exact ⟨m, rfl⟩
  | returned m => cases h
  | failed e => cases h

/-- The fold over a listing goes by its first line. -/
theorem foldl_advance_cons (σ : Stores) (pc : Nat) (i : Instruction) (lines : List (Nat × Instruction)) :
    ((pc, i) :: lines).foldl advance (running 0 σ) =
      match σ.transition pc i with
      | .next σ' => (lines.foldl advance (running 0 σ')).later 1
      | .returned => returned 1
      | .failed e => failed e := by
  rw [List.foldl_cons]
  cases hnext : σ.transition pc i with
  | next σ' =>
    have hadvance : advance (running 0 σ) (pc, i) = (running 0 σ').later 1 := by simp only [advance, hnext, later]
    rw [hadvance, foldl_advance_later]
  | returned =>
    have hadvance : advance (running 0 σ) (pc, i) = returned 1 := by simp only [advance, hnext]
    rw [hadvance, foldl_advance_returned]
  | failed e =>
    have hadvance : advance (running 0 σ) (pc, i) = failed e := by simp only [advance, hnext]
    rw [hadvance, foldl_advance_failed]

end Status

namespace Thread

theorem Stands.frames_ne_nil {t : Thread} {ahead : Listing} {σ : Stores} (h : t.Stands ahead σ) : t.frames ≠ [] := by
  obtain ⟨f, ht, -⟩ := h
  rw [ht]
  exact List.cons_ne_nil _ _

/-- **A run has the result of the fold over the listing.** -/
theorem run_of_stands {ending : Ending} : ∀ {lines : List (Nat × Instruction)} {t : Thread} {σ : Stores},
    t.Stands ⟨lines, ending⟩ σ → t.run.1 = (lines.foldl Status.advance (.running 0 σ)).result ending
  | [], t, σ, h => by
    rw [run_of_error h.frames_ne_nil (step_of_end h)]
    rfl
  | (pc, i) :: lines, t, σ, h => by
    have hstep := step_of_line h
    rw [Status.foldl_advance_cons]
    cases hnext : σ.transition pc i with
    | next σ' =>
      rw [hnext] at hstep
      obtain ⟨s, t', hstep, hstands⟩ := hstep
      rw [run_of_step hstep, Status.result_later, run_of_stands hstands]
    | returned =>
      rw [hnext] at hstep
      obtain ⟨s, t', hstep, hframes⟩ := hstep
      rw [run_of_step hstep, run_of_finished hframes]
      rfl
    | failed e =>
      rw [hnext] at hstep
      obtain ⟨t', hstep⟩ := hstep
      rw [run_of_error h.frames_ne_nil hstep]
      rfl

/-- The thread agrees with the status of a fold over `k` lines: after `k` steps its only frame has the same values in
store, or it returned or failed on the way as the fold did. -/
def Follows (t : Thread) (k : Nat) : Status → Prop
  | .running n σ => n = k ∧ ∃ t' f, t.after k = .ok t' ∧ t'.frames = [f] ∧ f.stores = σ ∧
    f.stack.depth ≤ f.stack.capacity
  | .returned n => n ≤ k ∧ ∃ t', t.after n = .ok t' ∧ t'.frames = []
  | .failed e => t.after k = .error e

theorem Follows.of_step {t t' : Thread} {s : Step} {k : Nat} {status : Status} (hstep : t.step = .ok s t')
    (h : t'.Follows k status) : t.Follows (k + 1) (status.later 1) := by
  cases status with
  | running n σ =>
    obtain ⟨rfl, hafter⟩ := h
    refine ⟨rfl, ?_⟩
    rw [after_succ_of_step hstep]
    exact hafter
  | returned n =>
    obtain ⟨hle, hafter⟩ := h
    refine ⟨Nat.succ_le_succ hle, ?_⟩
    rw [after_succ_of_step hstep]
    exact hafter
  | failed e =>
    show t.after (k + 1) = .error e
    rw [after_succ_of_step hstep]
    exact h

/-- **Step by step, a run has the same values in store as the fold.** -/
theorem follows_of_stands {ending : Ending} : ∀ {k : Nat} {lines : List (Nat × Instruction)} {t : Thread} {σ : Stores},
    t.Stands ⟨lines, ending⟩ σ → k ≤ lines.length → t.Follows k ((lines.take k).foldl Status.advance (.running 0 σ))
  | 0, lines, t, σ, h, _ => by
    obtain ⟨f, ht, -⟩ := h
    exact ⟨rfl, t, σ.onFrame f, rfl, ht, σ.stores_onFrame f, σ.depth_onFrame_le f⟩
  | k + 1, [], _, _, _, hk => absurd hk (Nat.not_succ_le_zero k)
  | k + 1, (pc, i) :: lines, t, σ, h, hk => by
    have hstep := step_of_line h
    rw [List.take_succ_cons, Status.foldl_advance_cons]
    cases hnext : σ.transition pc i with
    | next σ' =>
      rw [hnext] at hstep
      obtain ⟨s, t', hstep, hstands⟩ := hstep
      exact .of_step hstep (follows_of_stands hstands (Nat.le_of_succ_le_succ hk))
    | returned =>
      rw [hnext] at hstep
      obtain ⟨s, t', hstep, hframes⟩ := hstep
      exact ⟨Nat.succ_le_succ (Nat.zero_le k), t', after_succ_of_step hstep 0, hframes⟩
    | failed e =>
      rw [hnext] at hstep
      obtain ⟨t', hstep⟩ := hstep
      exact after_succ_of_error hstep k

/-- While the fold over the first lines is running, the thread comes to stand in front of the others. -/
theorem stands_of_running {ending : Ending} {rest : List (Nat × Instruction)} {σ' : Stores} :
    ∀ {lines : List (Nat × Instruction)} {k : Nat} {t : Thread} {σ : Stores}, t.Stands ⟨lines ++ rest, ending⟩ σ →
      lines.foldl Status.advance (.running 0 σ) = .running k σ' →
        ∃ t', t.after lines.length = .ok t' ∧ t'.Stands ⟨rest, ending⟩ σ'
  | [], _, t, σ, h, hfold => by
    cases hfold
    exact ⟨t, rfl, h⟩
  | (pc, i) :: lines, k, t, σ, h, hfold => by
    have hstep := step_of_line h
    rw [Status.foldl_advance_cons] at hfold
    cases hnext : σ.transition pc i with
    | next σ₁ =>
      rw [hnext] at hstep hfold
      obtain ⟨s, t₁, hstep, hstands⟩ := hstep
      have hlater : (lines.foldl Status.advance (.running 0 σ₁)).later 1 = .running k σ' := hfold
      obtain ⟨m, hlines⟩ := Status.running_of_later hlater
      obtain ⟨t', hafter, hstands'⟩ := stands_of_running hstands hlines
      exact ⟨t', (after_succ_of_step hstep _).trans hafter, hstands'⟩
    | returned =>
      rw [hnext] at hfold
      cases hfold
    | failed e =>
      rw [hnext] at hfold
      cases hfold

/-- **The machine refines the fold over the listing**: for every code, pc, stack within its capacity and local
variables, a run of one frame has the result of the fold, and agrees with it after every number of lines. -/
theorem run_eq_fold_listing (t : Thread) (f : Frame) (hframe : t.frames = [f])
    (hfits : f.stack.depth ≤ f.stack.capacity) :
    let ahead := listing f.code f.nextPc
    t.run.1 = (ahead.lines.foldl Status.advance (.running 0 f.stores)).result ahead.ending ∧
      ∀ k ≤ ahead.lines.length, t.Follows k ((ahead.lines.take k).foldl Status.advance (.running 0 f.stores)) := by
  have hstands : t.Stands (listing f.code f.nextPc) f.stores := ⟨f, by rw [Stores.onFrame_stores hfits, hframe], rfl⟩
  exact ⟨run_of_stands hstands, fun k hk => follows_of_stands hstands hk⟩

/-- In front of `sipush -32768`, `bipush -1`, `iadd`, `istore_0` and `return`, behind a byte that was passed over. -/
def sumFrame : Frame := ⟨#[0xFF, 0x11, 0x80, 0x00, 0x10, 0xFF, 0x60, 0x3B, 0xB1], ⟨#[.null]⟩, ⟨2, #[]⟩, 0, 1⟩

/-- The sum is in store in front of the `return`, which is the fifth instruction. -/
theorem run_sumFrame :
    (run ⟨0, [sumFrame], 1⟩).1 = .ok 5 ∧
      ∃ t f, after 4 ⟨0, [sumFrame], 1⟩ = .ok t ∧ t.frames = [f] ∧ f.stores = ⟨[], 2, #[.int (-32769)]⟩ := by
  obtain ⟨hrun, hsteps⟩ := run_eq_fold_listing ⟨0, [sumFrame], 1⟩ sumFrame rfl (by decide)
  have hfold : ((listing sumFrame.code sumFrame.nextPc).lines.take 4).foldl Status.advance
      (.running 0 sumFrame.stores) =
      .running 4 ⟨[], 2, #[.int (-32769)]⟩ := by decide +kernel
  have hfour := hsteps 4 (by decide +kernel)
  rw [hfold] at hfour
  obtain ⟨-, t, f, hafter, hframes, hstores, -⟩ := hfour
  exact ⟨hrun.trans (by decide +kernel), t, f, hafter, hframes, hstores⟩

end Thread

end Jvm
