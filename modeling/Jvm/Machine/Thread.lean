import Jvm.Machine.Frame
/-!
# Threads

A thread is a stack of frames.  The frame on top is the active one, and the thread has finished when no frame is left.
Executing an instruction changes the active frame only.
-/
namespace Jvm

@[ext] structure Thread where
  /-- The pc of the instruction that was decoded last. -/
  pc : Nat
  /-- The frames, the active one first. -/
  frames : List Frame
  maxDepth : Nat
  deriving DecidableEq

namespace Thread

/-- The greatest number of frames, if nothing else is said. -/
def defaultMaxDepth : Nat := 1024

def ofMaxDepth (maxDepth : Nat) : Thread := ⟨0, [], maxDepth⟩

def depth (t : Thread) : Nat := t.frames.length

def isFinished (t : Thread) : Bool := t.frames.isEmpty

def active? (t : Thread) : Option Frame := t.frames.head?

/-- How many bytes of code lie ahead, in all frames together. -/
def work (t : Thread) : Nat := t.frames.foldr (fun f below => f.work + below) 0

abbrev Action (α : Type) := EStateM RuntimeError Thread α

def pushFrame (f : Frame) : Action Unit := fun t =>
  if t.depth < t.maxDepth then .ok () { t with frames := f :: t.frames }
  else .error (.callStackOverflow t.depth) t

def popFrame : Action Frame := fun t =>
  match t.frames with
  | f :: below => .ok f { t with frames := below }
  | [] => .error .noActiveFrame t

def onActive {α : Type} (action : Frame.Action α) : Action α := fun t =>
  match t.frames with
  | [] => .error .noActiveFrame t
  | f :: below =>
    match action f with
    | .ok a f => .ok a { t with frames := f :: below }
    | .error e f => .error e { t with frames := f :: below }

end Thread

namespace Instruction

def execute : Instruction → Thread.Action Unit
  | nop => pure ()
  | aconstNull => Thread.onActive (Frame.push .null)
  | push _ v => Thread.onActive (Frame.push (.int v))
  | iload index => Thread.onActive do
    let v ← Frame.loadInt index
    Frame.push (.int v)
  | istore index => Thread.onActive do
    let v ← Frame.popInt
    Frame.store index (.int v)
  | pop => Thread.onActive do
    let _ ← Frame.pop
  | dup => Thread.onActive do
    let v ← Frame.peek
    Frame.push v
  | arith op => Thread.onActive do
    let b ← Frame.popInt
    let a ← Frame.popInt
    Frame.push (.int (op.apply a b))
  | ret => do
    let _ ← Thread.popFrame

end Instruction

namespace Thread

def fetch (t : Thread) : Except RuntimeError Step :=
  match t.frames with
  | [] => .error .noActiveFrame
  | f :: _ => f.fetch

def enter (t : Thread) (s : Step) : Thread :=
  match t.frames with
  | [] => t
  | f :: below => { t with pc := s.pc, frames := f.enter s :: below }

/-- Decodes one instruction and executes it.  **If it cannot be decoded, nothing changes**; once it is decoded, the pcs
move on before it takes effect. -/
def step : Action Step := fun t =>
  match t.fetch with
  | .error e => .error e t
  | .ok s =>
    match s.instruction.execute (t.enter s) with
    | .ok _ t => .ok s t
    | .error e t => .error e t

end Thread

end Jvm
