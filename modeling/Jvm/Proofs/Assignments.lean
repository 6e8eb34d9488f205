import Jvm.Proofs.Assembly
import Jvm.Proofs.ListSemantics
/-!
# Assignment programs

A small language whose programs are lists of assignments of expressions to local variables, and the code that such a
program is translated to.  `Thread.run_assignments` says that running the code evaluates the program, if there is as
much room on the stack as the program needs, and where the run overflows the stack if there is not.

The translation is a relation, for a literal and a local variable can be written in several ways; the theorem holds of
all.
-/
namespace Jvm

/-! ## Programs -/

/-- An expression over local variables. -/
inductive Expr where
  | literal (n : Int16)
  | slot (k : UInt8)
  | binary (op : IntOp) (left right : Expr)

structure Assignment where
  target : UInt8
  value : Expr

abbrev Program := List Assignment

namespace Expr

/-- The value of an expression, if the local variables hold `ρ`. -/
def eval (ρ : Nat → Value) : Expr → Int32
  | literal n => Int32.ofInt n.toInt
  | slot k => (ρ k.toNat).int?.getD 0
  | binary op a b => Stores.compute op (a.eval ρ) (b.eval ρ)

/-- The local variables that are read. -/
def slots : Expr → List UInt8
  | literal _ => []
  | slot k => [k]
  | binary _ a b => a.slots ++ b.slots

/-- How much room on the stack an expression needs. -/
def need : Expr → Nat
  | literal _ | slot _ => 1
  | binary _ a b => max a.need (b.need + 1)

end Expr

/-- What the local variables hold after an assignment. -/
def Assignment.assign (a : Assignment) (ρ : Nat → Value) : Nat → Value :=
  fun i => if i = a.target.toNat then .int (a.value.eval ρ) else ρ i

namespace Program

/-- What the local variables hold after one assignment after the other. -/
def eval : Program → (Nat → Value) → Nat → Value
  | [], ρ => ρ
  | a :: rest, ρ => eval rest (a.assign ρ)

/-- The local variables that are read before they are assigned. -/
def readFirst : Program → List UInt8
  | [] => []
  | a :: rest => a.value.slots ++ (readFirst rest).filter (· ≠ a.target)

/-- How much room on the stack a program needs. -/
def need : Program → Nat
  | [] => 0
  | a :: rest => max a.value.need (need rest)

end Program

/-! ## Translation -/

/-- The ways to write a literal or a local variable. -/
inductive Expr.Spelled : Expr → Written → Prop where
  | iconst (k : Fin 7) : Spelled (.literal (Int16.ofInt ((k.val : Int) - 1))) ⟨.iconst k, ()⟩
  | bipush (n : Int8) : Spelled (.literal n.toInt16) ⟨.bipush, n⟩
  | sipush (n : Int16) : Spelled (.literal n) ⟨.sipush, n⟩
  | iloadShort (k : Fin 4) : Spelled (.slot (UInt8.ofNat k.val)) ⟨.iloadShort k, ()⟩
  | iload (k : UInt8) : Spelled (.slot k) ⟨.iload, k⟩

def IntOp.written : IntOp → Written
  | add => ⟨.iadd, ()⟩
  | sub => ⟨.isub, ()⟩
  | mul => ⟨.imul, ()⟩

/-- The code of an expression: the left operand, the right operand, then the operation. -/
inductive Expr.Emits : Expr → List Written → Prop where
  | leaf {e : Expr} {w : Written} : e.Spelled w → Emits e [w]
  | binary {op : IntOp} {a b : Expr} {x y : List Written} : Emits a x → Emits b y →
    Emits (.binary op a b) (x ++ (y ++ [op.written]))

/-- The ways to write the store to a local variable. -/
inductive StoreSpelled : UInt8 → Written → Prop where
  | short (k : Fin 4) : StoreSpelled (UInt8.ofNat k.val) ⟨.istoreShort k, ()⟩
  | long (k : UInt8) : StoreSpelled k ⟨.istore, k⟩

/-- The code of a program: for each assignment the expression, then the store; at the end a return. -/
inductive Program.Emits : Program → List Written → Prop where
  | nil : Emits [] [⟨.ret, ()⟩]
  | cons {k : UInt8} {e : Expr} {x : List Written} {w : Written} {rest : Program} {y : List Written} :
    e.Emits x → StoreSpelled k w → Emits rest y → Emits (⟨k, e⟩ :: rest) (x ++ [w] ++ y)

/-! ## Depths -/

namespace Written

/-- Whether an instruction loads a literal or a local variable. -/
def loads (w : Written) : Bool :=
  match w.instruction with
  | .push _ _ | .iload _ => true
  | _ => false

/-- What an instruction adds to the depth of the stack. -/
def growth (w : Written) : Int :=
  match w.instruction with
  | .aconstNull | .push _ _ | .iload _ | .dup => 1
  | .istore _ | .pop | .arith _ => -1
  | .nop | .ret => 0

end Written

/-- What a piece of code adds to the depth of the stack. -/
def height : List Written → Int
  | [] => 0
  | w :: code => w.growth + height code

/-- Every load finds room, if there is room for `room` values at first. -/
def FindsRoom (room : Int) : List Written → Prop
  | [] => True
  | w :: code => (w.loads = true → 0 < room) ∧ FindsRoom (room - w.growth) code

/-- What stands in front of the first load that exceeds the room. -/
def FirstExcess (room : Int) (code before : List Written) : Prop :=
  ∃ load after, code = before ++ load :: after ∧ load.loads = true ∧ room < height before + 1 ∧ FindsRoom room before

theorem height_append : ∀ x y : List Written, height (x ++ y) = height x + height y
  | [], y => (Int.zero_add _).symm
  | w :: x, y => by
    rw [List.cons_append, height, height, height_append x y, Int.add_assoc]

theorem findsRoom_append : ∀ {room : Int} {x y : List Written},
    FindsRoom room (x ++ y) ↔ FindsRoom room x ∧ FindsRoom (room - height x) y
  | room, [], y => by simp [FindsRoom, height]
  | room, w :: x, y => by
    have hroom : room - w.growth - height x = room - (w.growth + height x) := by omega
    rw [List.cons_append, FindsRoom, FindsRoom, height, findsRoom_append, and_assoc, hroom]

theorem FirstExcess.append {room : Int} {x before : List Written} (h : FirstExcess room x before) (y : List Written) :
    FirstExcess room (x ++ y) before := by
  obtain ⟨load, after, rfl, hload⟩ := h
  exact ⟨load, after ++ y, by simp, hload⟩

theorem FirstExcess.prepend {room : Int} {x y before : List Written} (hx : FindsRoom room x)
    (h : FirstExcess (room - height x) y before) : FirstExcess room (x ++ y) (x ++ before) := by
  obtain ⟨load, after, rfl, hload, hroom, hbefore⟩ := h
  refine ⟨load, after, by simp, hload, ?_, findsRoom_append.2 ⟨hx, hbefore⟩⟩
  rw [height_append]
  omega

theorem height_written (op : IntOp) : height [op.written] = -1 := by
  cases op <;> rfl

theorem not_loads_written (op : IntOp) : op.written.loads = false := by
  cases op <;> rfl

namespace Expr

variable {e : Expr} {w : Written} {code : List Written}

theorem Spelled.loads (h : e.Spelled w) : w.loads = true := by
  cases h <;> rfl

theorem Spelled.growth (h : e.Spelled w) : w.growth = 1 := by
  cases h <;> rfl

theorem Spelled.need (h : e.Spelled w) : e.need = 1 := by
  cases h <;> rfl

theorem need_pos : ∀ e : Expr, 0 < e.need
  | literal _ | slot _ => Nat.one_pos
  | binary _ a _ => Nat.lt_of_lt_of_le a.need_pos (Nat.le_max_left _ _)

theorem Emits.height_eq (h : e.Emits code) : height code = 1 := by
  induction h with
  | leaf hw => rw [height, hw.growth]; rfl
  | binary _ _ iha ihb => rw [height_append, height_append, iha, ihb, height_written]; rfl

/-- **An expression needs no more room than it says.** -/
theorem Emits.findsRoom {room : Int} (h : e.Emits code) (hneed : e.need ≤ room) : FindsRoom room code := by
  induction h generalizing room with
  | leaf hw =>
    rw [hw.need] at hneed
    exact ⟨fun _ => by omega, trivial⟩
  | @binary op a b x y ha hb iha ihb =>
    have hmax : (max a.need (b.need + 1) : Nat) ≤ room := hneed
    rw [findsRoom_append, findsRoom_append, ha.height_eq]
    refine ⟨iha (by omega), ihb (by omega), ?_⟩
    simp [FindsRoom, not_loads_written]

end Expr

/-! ## Execution -/

namespace Status

variable {n pc : Nat} {i : Instruction} {σ : Stores}

theorem advance_of_next {σ' : Stores} (h : σ.transition pc i = .next σ') :
    (running n σ).advance (pc, i) = running (n + 1) σ' := by
  simp only [advance, h]

theorem advance_of_failed {e : RuntimeError} (h : σ.transition pc i = .failed e) :
    (running n σ).advance (pc, i) = failed e := by
  simp only [advance, h]

end Status

/-- The local variable holds a number, the one that `ρ` says. -/
def Supplies (ρ : Nat → Value) (locals : Array Value) (k : UInt8) : Prop :=
  ∃ v, ρ k.toNat = .int v ∧ locals[k.toNat]? = some (.int v)

theorem transition_iload {ρ : Nat → Value} {locals : Array Value} {k : UInt8} {index : UInt16}
    (hindex : index.toNat = k.toNat) (h : Supplies ρ locals k) (pc room : Nat) (stack : List Value) :
    Stores.transition pc (.iload index) ⟨stack, room, locals⟩ =
      Stores.push pc (.int ((ρ k.toNat).int?.getD 0)) ⟨stack, room, locals⟩ := by
  obtain ⟨v, hρ, hlocals⟩ := h
  simp only [Stores.transition, hindex, hlocals, hρ]
  rfl

theorem transition_written (op : IntOp) (pc room : Nat) (stack : List Value) (locals : Array Value) (a b : Int32) :
    Stores.transition pc op.written.instruction ⟨.int b :: .int a :: stack, room, locals⟩ =
      .next ⟨.int (Stores.compute op a b) :: stack, room + 1, locals⟩ := by
  cases op <;> rfl

namespace Expr

variable {e : Expr} {w : Written} {code : List Written} {ρ : Nat → Value} {locals : Array Value}

/-- Every way to write a literal or a local variable pushes its value. -/
theorem Spelled.transition (h : e.Spelled w) (hread : ∀ k ∈ e.slots, Supplies ρ locals k) (pc room : Nat)
    (stack : List Value) :
    Stores.transition pc w.instruction ⟨stack, room, locals⟩ =
      Stores.push pc (.int (e.eval ρ)) ⟨stack, room, locals⟩ := by
  cases h with
  | iconst k => fin_cases k <;> rfl
  | bipush n =>
    rw [eval, Int8.toInt_toInt16]
    rfl
  | sipush n => rfl
  | iloadShort k =>
    have hindex : (UInt16.ofNat k.val).toNat = (UInt8.ofNat k.val).toNat := by
      fin_cases k <;> rfl
    exact transition_iload hindex (hread _ (List.mem_singleton.2 rfl)) pc room stack
  | iload k => exact transition_iload (UInt8.toNat_toUInt16 k) (hread k (List.mem_singleton.2 rfl)) pc room stack

/-- **The code of an expression pushes its value**, on any stack with the room that it needs. -/
theorem Emits.computes (h : e.Emits code) (hread : ∀ k ∈ e.slots, Supplies ρ locals k) {room : Nat}
    (hneed : e.need ≤ room) (pc n : Nat) (stack : List Value) :
    (numbered pc code).foldl Status.advance (.running n ⟨stack, room, locals⟩) =
      .running (n + code.length) ⟨.int (e.eval ρ) :: stack, room - 1, locals⟩ := by
  -- The stack is general, for the right operand is computed on top of the value of the left one.
  induction h generalizing room pc n stack with
  | leaf hw =>
    rw [hw.need] at hneed
    obtain ⟨r, rfl⟩ := Nat.exists_eq_add_of_le' hneed
    exact Status.advance_of_next (hw.transition hread pc (r + 1) stack)
  | @binary op a b x y ha hb iha ihb =>
    have hmax : max a.need (b.need + 1) ≤ room := hneed
    have hread_a : ∀ k ∈ a.slots, Supplies ρ locals k := fun k hk => hread k (List.mem_append_left _ hk)
    have hread_b : ∀ k ∈ b.slots, Supplies ρ locals k := fun k hk => hread k (List.mem_append_right _ hk)
    have hpos := b.need_pos
    have hroom : room - 1 - 1 + 1 = room - 1 := by omega
    have hlength : n + x.length + y.length + 1 = n + (x ++ (y ++ [op.written])).length := by
      simp only [List.length_append, List.length_singleton]
      omega
    rw [numbered_append, numbered_append, List.foldl_append, List.foldl_append, iha hread_a (by omega) pc n stack,
      ihb hread_b (by omega) _ _ (_ :: stack), ← hlength]
    rw [numbered, numbered, List.foldl_cons, Status.advance_of_next (transition_written op _ _ _ _ _ _), hroom]
    rfl

/-- **The code of an expression overflows the stack at the first load that exceeds the room**, if there is less than it
needs. -/
theorem Emits.overflows (h : e.Emits code) (hread : ∀ k ∈ e.slots, Supplies ρ locals k) {room : Nat}
    (hneed : room < e.need) (pc n : Nat) (stack : List Value) :
    ∃ before, FirstExcess room code before ∧
      (numbered pc code).foldl Status.advance (.running n ⟨stack, room, locals⟩) =
        .failed (.stackOverflow (pc + (assemble before).length)) := by
  induction h generalizing room pc n stack with
  | @leaf e w hw =>
    rw [hw.need, Nat.lt_one_iff] at hneed
    subst hneed
    refine ⟨[], ⟨w, [], rfl, hw.loads, by decide, trivial⟩, ?_⟩
    exact Status.advance_of_failed (hw.transition hread pc 0 stack)
  | @binary op a b x y ha hb iha ihb =>
    have hmax : room < max a.need (b.need + 1) := hneed
    have hread_a : ∀ k ∈ a.slots, Supplies ρ locals k := fun k hk => hread k (List.mem_append_left _ hk)
    have hread_b : ∀ k ∈ b.slots, Supplies ρ locals k := fun k hk => hread k (List.mem_append_right _ hk)
    rw [numbered_append, List.foldl_append]
    by_cases hfits : a.need ≤ room
    · -- The left operand fits, so it is the right one that does not: it has one place less.
      have hpos : 0 < room := Nat.lt_of_lt_of_le a.need_pos hfits
      obtain ⟨before, hexcess, hfold⟩ := ihb hread_b (show room - 1 < b.need by omega) (pc + (assemble x).length)
        (n + x.length)
        (.int (a.eval ρ) :: stack)
      have hroom : ((room - 1 : Nat) : Int) = (room : Int) - height x := by
        rw [ha.height_eq]
        omega
      rw [hroom] at hexcess
      refine ⟨x ++ before, (hexcess.append _).prepend (ha.findsRoom (by omega)), ?_⟩
      rw [ha.computes hread_a hfits, numbered_append, List.foldl_append, hfold, Status.foldl_advance_failed,
        assemble_append, List.length_append, Nat.add_assoc]
    · obtain ⟨before, hexcess, hfold⟩ := iha hread_a (Nat.lt_of_not_le hfits) pc n stack
      refine ⟨before, hexcess.append _, ?_⟩
      rw [hfold, Status.foldl_advance_failed]

end Expr

namespace StoreSpelled

variable {k : UInt8} {w : Written}

theorem growth (h : StoreSpelled k w) : w.growth = -1 := by
  cases h <;> rfl

theorem not_loads (h : StoreSpelled k w) : w.loads = false := by
  cases h <;> rfl

theorem transition {locals : Array Value} (h : StoreSpelled k w) (hlt : k.toNat < locals.size) (pc room : Nat)
    (v : Int32) (stack : List Value) :
    Stores.transition pc w.instruction ⟨.int v :: stack, room, locals⟩ =
      .next ⟨stack, room + 1, locals.setIfInBounds k.toNat (.int v)⟩ := by
  have hinstruction : ∃ index : UInt16, w.instruction = .istore index ∧ index.toNat = k.toNat := by
    cases h with
    | short k => exact ⟨UInt16.ofNat k.val, rfl, by fin_cases k <;> rfl⟩
    | long k => exact ⟨k.toUInt16, rfl, UInt8.toNat_toUInt16 k⟩
  obtain ⟨index, hinstruction, hindex⟩ := hinstruction
  simp only [hinstruction, Stores.transition, hindex, if_pos hlt]

end StoreSpelled

namespace Program

variable {program : Program} {code : List Written} {ρ : Nat → Value} {locals : Array Value}

/-- A program can begin: the local variables hold what `ρ` says, those that are read before they are assigned hold
numbers, and those that are assigned are there. -/
structure Ready (program : Program) (ρ : Nat → Value) (locals : Array Value) : Prop where
  holds : ∀ i < locals.size, locals[i]? = some (ρ i)
  reads : ∀ k ∈ program.readFirst, Supplies ρ locals k
  targets : ∀ a ∈ program, a.target.toNat < locals.size

/-- **After the first assignment the others can begin.** -/
theorem Ready.rest {a : Assignment} (h : Ready (a :: program) ρ locals) :
    Ready program (a.assign ρ) (locals.setIfInBounds a.target.toNat (.int (a.value.eval ρ))) where
  holds i hi := by
    rw [Array.size_setIfInBounds] at hi
    rw [Array.getElem?_setIfInBounds, Assignment.assign]
    by_cases htarget : a.target.toNat = i
    · simp [htarget, hi]
    · simp [htarget, Ne.symm htarget, h.holds i hi]
  reads k hk := by
    rw [Supplies, Array.getElem?_setIfInBounds, Assignment.assign]
    by_cases htarget : k = a.target
    · have hlt := h.targets a List.mem_cons_self
      exact ⟨a.value.eval ρ, by simp [htarget], by simp [htarget, hlt]⟩
    · have hne : k.toNat ≠ a.target.toNat := fun heq => htarget (UInt8.toNat_inj.1 heq)
      have hfirst : k ∈ readFirst (a :: program) :=
        List.mem_append_right _ (List.mem_filter.2 ⟨hk, by simpa using htarget⟩)
      simpa [hne, hne.symm, Supplies] using h.reads k hfirst
  targets b hb := by
    rw [Array.size_setIfInBounds]
    exact h.targets b (List.mem_cons_of_mem a hb)

/-- One assignment leaves the stack as it was, and the value in its local variable. -/
theorem assign_computes {k : UInt8} {e : Expr} {x : List Written} {w : Written} (he : e.Emits x) (hw : StoreSpelled k w)
    (hread : ∀ k ∈ e.slots, Supplies ρ locals k) (hlt : k.toNat < locals.size) {room : Nat} (hneed : e.need ≤ room)
    (pc n : Nat) :
    (numbered pc (x ++ [w])).foldl Status.advance (.running n ⟨[], room, locals⟩) =
      .running (n + (x ++ [w]).length) ⟨[], room, locals.setIfInBounds k.toNat (.int (e.eval ρ))⟩ := by
  have hroom : room - 1 + 1 = room := by
    have hpos := e.need_pos
    omega
  rw [numbered_append, List.foldl_append, he.computes hread hneed pc n []]
  rw [numbered, numbered, List.foldl_cons, Status.advance_of_next (hw.transition hlt _ _ _ _), hroom,
    List.length_append, List.length_singleton, ← Nat.add_assoc]
  rfl

/-- **The code of a program evaluates it**, up to the return. -/
theorem Emits.computes (h : program.Emits code) (hready : program.Ready ρ locals) {room : Nat}
    (hneed : program.need ≤ room) (pc n : Nat) :
    ∃ body locals', code = body ++ [⟨.ret, ()⟩] ∧
      (numbered pc body).foldl Status.advance (.running n ⟨[], room, locals⟩) =
        .running (n + body.length) ⟨[], room, locals'⟩ ∧
      ∀ i < locals.size, locals'[i]? = some (program.eval ρ i) := by
  induction h generalizing ρ locals pc n with
  | nil => exact ⟨[], locals, rfl, rfl, hready.holds⟩
  | @cons k e x w rest y he hw hy ih =>
    have hmax : max e.need (need rest) ≤ room := hneed
    have hread : ∀ j ∈ e.slots, Supplies ρ locals j := fun j hj => hready.reads j (List.mem_append_left _ hj)
    have hlt : k.toNat < locals.size := hready.targets ⟨k, e⟩ List.mem_cons_self
    obtain ⟨body, locals', rfl, hfold, hlocals⟩ := ih hready.rest (by omega) (pc + (assemble (x ++ [w])).length)
      (n + (x ++ [w]).length)
    refine ⟨x ++ [w] ++ body, locals', (List.append_assoc _ _ _).symm, ?_, ?_⟩
    · rw [numbered_append, List.foldl_append, assign_computes he hw hread hlt (by omega), hfold, Nat.add_assoc,
        ← List.length_append]
    · intro i hi
      exact hlocals i (by rwa [Array.size_setIfInBounds])

/-- **The code of a program overflows the stack at the first load that exceeds the room**, if there is less than it
needs. -/
theorem Emits.overflows (h : program.Emits code) (hready : program.Ready ρ locals) {room : Nat}
    (hneed : room < program.need) (pc n : Nat) :
    ∃ before, FirstExcess room code before ∧
      (numbered pc code).foldl Status.advance (.running n ⟨[], room, locals⟩) =
        .failed (.stackOverflow (pc + (assemble before).length)) := by
  induction h generalizing ρ locals pc n with
  | nil => exact absurd hneed (Nat.not_lt_zero room)
  | @cons k e x w rest y he hw hy ih =>
    have hmax : room < max e.need (need rest) := hneed
    have hread : ∀ j ∈ e.slots, Supplies ρ locals j := fun j hj => hready.reads j (List.mem_append_left _ hj)
    have hlt : k.toNat < locals.size := hready.targets ⟨k, e⟩ List.mem_cons_self
    by_cases hfits : e.need ≤ room
    · obtain ⟨before, hexcess, hfold⟩ := ih hready.rest (by omega) (pc + (assemble (x ++ [w])).length)
        (n + (x ++ [w]).length)
      have hflat : height (x ++ [w]) = 0 := by
        rw [height_append, he.height_eq, height, hw.growth]
        rfl
      have hfinds : FindsRoom room (x ++ [w]) := by
        rw [findsRoom_append]
        exact ⟨he.findsRoom (by omega), by simp [FindsRoom, hw.not_loads]⟩
      rw [← Int.sub_zero (room : Int), ← hflat] at hexcess
      refine ⟨x ++ [w] ++ before, hexcess.prepend hfinds, ?_⟩
      rw [numbered_append, List.foldl_append, assign_computes he hw hread hlt hfits, hfold, assemble_append (x ++ [w]),
        List.length_append, Nat.add_assoc]
    · obtain ⟨before, hexcess, hfold⟩ := he.overflows hread (Nat.lt_of_not_le hfits) pc n []
      refine ⟨before, (hexcess.append [w]).append y, ?_⟩
      rw [numbered_append, numbered_append, List.foldl_append, List.foldl_append, hfold, Status.foldl_advance_failed,
        Status.foldl_advance_failed]

end Program

/-! ## Runs of programs -/

/-- A frame decodes the first line of the listing ahead. -/
theorem Frame.fetch_of_line (f : Frame) {pc : Nat} {i : Instruction} {lines : List (Nat × Instruction)}
    {ending : Ending} (h : listing f.code f.nextPc = ⟨(pc, i) :: lines, ending⟩) :
    ∃ s, f.fetch = .ok s ∧ s.instruction = i := by
  rcases f.fetch_cases with ⟨op, j, next, hfetch, -, -, hline⟩ | ⟨-, hnone⟩
  · rw [hline] at h
    cases h
    exact ⟨_, hfetch, rfl⟩
  · rw [h] at hnone
    cases hnone

namespace Thread

/-- **Running the code of a program evaluates it.**  The code, written in any way, stands at the front of a frame with
an empty stack, in which the local variables that are read before they are assigned hold numbers.  If the stack has the
room that the program needs, every instruction is executed once, and in front of the return the stack is empty and the
local variables hold what the program evaluates to.  If it has not, the run overflows the stack at the first load that
exceeds the room. -/
theorem run_assignments {program : Program} {code : List Written} (hcode : program.Emits code) {t : Thread} {f : Frame}
    (hframes : t.frames = [f]) (hbytes : f.code.toList = assemble code) (hpc : f.nextPc = 0)
    (hstack : f.stack.slots = #[]) (htargets : ∀ a ∈ program, a.target.toNat < f.locals.size)
    (hreads : ∀ k ∈ program.readFirst, ∃ v, f.locals.slots[k.toNat]? = some (.int v)) :
    (program.need ≤ f.stack.capacity →
      t.run.1 = .ok code.length ∧
        ∃ t' f' s, t.after (code.length - 1) = .ok t' ∧ t'.frames = [f'] ∧ f'.fetch = .ok s ∧ s.instruction = .ret ∧
          f'.stack.slots = #[] ∧
          ∀ i < f.locals.size, f'.locals.slots[i]? = some (program.eval (fun i => f.locals.slots.getD i .null) i)) ∧
    (f.stack.capacity < program.need →
      ∃ before, FirstExcess f.stack.capacity code before ∧ t.run.1 =
        .error (.stackOverflow (assemble before).length)) := by
  have hlisting : listing f.code f.nextPc = ⟨numbered 0 code, .endOfCode (assemble code).length⟩ := by
    rw [listing, hpc, List.drop_zero, hbytes, disassemble_assemble, Nat.zero_add]
  have hstores : f.stores = ⟨[], f.stack.capacity, f.locals.slots⟩ := by
    simp [Frame.stores, OperandStack.depth, hstack]
  have hstands : t.Stands ⟨numbered 0 code, .endOfCode (assemble code).length⟩
      ⟨[], f.stack.capacity, f.locals.slots⟩ := by
    refine ⟨f, ?_, hlisting⟩
    rw [← hstores, Stores.onFrame_stores (by simp [OperandStack.depth, hstack]), hframes]
  have hready : program.Ready (fun i => f.locals.slots.getD i .null) f.locals.slots := by
    refine ⟨fun i hi => by simp [hi], fun k hk => ?_, htargets⟩
    obtain ⟨v, hv⟩ := hreads k hk
    exact ⟨v, by simp [hv], hv⟩
  refine ⟨fun hneed => ?_, fun hneed => ?_⟩
  · obtain ⟨body, locals', rfl, hfold, hlocals⟩ := hcode.computes hready hneed 0 0
    have hlines : numbered 0 (body ++ [⟨.ret, ()⟩]) = numbered 0 body ++ [(0 + (assemble body).length, .ret)] :=
      numbered_append 0 body _
    rw [hlines] at hstands
    constructor
    · rw [run_of_stands hstands, List.foldl_append, hfold, Nat.zero_add]
      simp [Status.advance, Stores.transition, Status.result]
    · obtain ⟨t', hafter, f', hframes', hlast⟩ := stands_of_running hstands hfold
      obtain ⟨s, hfetch, hret⟩ := (Stores.onFrame ⟨[], f.stack.capacity, locals'⟩ f').fetch_of_line hlast
      rw [length_numbered] at hafter
      exact ⟨t', _, s, by simpa using hafter, hframes', hfetch, hret, rfl, hlocals⟩
  · obtain ⟨before, hexcess, hfold⟩ := hcode.overflows hready hneed 0 0
    refine ⟨before, hexcess, ?_⟩
    rw [run_of_stands hstands, hfold, Nat.zero_add]
    rfl

/-- The local variable 3 becomes 300 less the square of the local variable 0, which then becomes the local variable 3.
-/
def lessSquare : Program :=
  [⟨3, .binary .sub (.literal 300) (.binary .mul (.slot 0) (.slot 0))⟩, ⟨0, .slot 3⟩]

/-- `sipush 300`, `iload 0`, `iload 0`, `imul`, `isub`, `istore_3`, `iload_3`, `istore 0` and `return`. -/
def lessSquareCode : List Written :=
  [⟨.sipush, (300 : Int16)⟩, ⟨.iload, (0 : UInt8)⟩, ⟨.iload, (0 : UInt8)⟩, ⟨.imul, ()⟩, ⟨.isub, ()⟩,
    ⟨.istoreShort (Fin.last 3), ()⟩, ⟨.iloadShort (Fin.last 3), ()⟩, ⟨.istore, (0 : UInt8)⟩, ⟨.ret, ()⟩]

theorem lessSquare_emits : lessSquare.Emits lessSquareCode :=
  .cons (.binary (.leaf (.sipush 300)) (.binary (.leaf (.iload 0)) (.leaf (.iload 0)))) (.short (Fin.last 3))
    (.cons (.leaf (.iloadShort (Fin.last 3))) (.long 0) .nil)

def lessSquareFrame (capacity : Nat) : Frame :=
  ⟨(assemble lessSquareCode).toArray, ⟨#[.int 70000, .null, .null, .null]⟩, ⟨capacity, #[]⟩, 0, 0⟩

/-- The square of 70000 wraps around.  On a stack for two values, it is the second load of the local variable that does
not fit. -/
theorem run_lessSquare :
    ((run ⟨0, [lessSquareFrame 3], 1⟩).1 = .ok 9 ∧
      ∃ t f, after 8 ⟨0, [lessSquareFrame 3], 1⟩ = .ok t ∧ t.frames = [f] ∧ f.stack.slots = #[] ∧
        f.locals.slots[0]? = some (.int (-605032404))) ∧
    ∃ before, FirstExcess 2 lessSquareCode before ∧ (assemble before).length = 5 ∧
      (run ⟨0, [lessSquareFrame 2], 1⟩).1 = .error (.stackOverflow 5) := by
  have htargets : ∀ a ∈ lessSquare, a.target.toNat < 4 := by decide
  have hreads : ∀ k ∈ lessSquare.readFirst, ∃ v, #[Value.int 70000, .null, .null, .null][k.toNat]? = some (.int v) := by
    intro k hk
    obtain rfl : k = 0 := by simpa [lessSquare, Program.readFirst, Expr.slots] using hk
    exact ⟨70000, rfl⟩
  obtain ⟨hfits, -⟩ :=
    run_assignments lessSquare_emits (t := ⟨0, [lessSquareFrame 3], 1⟩) rfl rfl rfl rfl htargets hreads
  obtain ⟨-, hexceeds⟩ :=
    run_assignments lessSquare_emits (t := ⟨0, [lessSquareFrame 2], 1⟩) rfl rfl rfl rfl htargets hreads
  obtain ⟨hrun, t, f, s, hafter, hframes, -, -, hstack, hlocals⟩ := hfits (by decide)
  obtain ⟨before, hexcess, hover⟩ := hexceeds (by decide)
  have hpc : (run ⟨0, [lessSquareFrame 2], 1⟩).1 = .error (.stackOverflow 5) := by decide +kernel
  refine ⟨⟨hrun, t, f, hafter, hframes, hstack, (hlocals 0 (by decide)).trans rfl⟩, before, hexcess, ?_, hpc⟩
  rw [hpc] at hover
  injection hover with hover
  injection hover with hover
  exact hover.symm

end Thread

end Jvm
