import Jvm.Log.Event
/-!
# Runs

A run takes steps until no frame is left or a step fails.  **Every step that succeeds moves on in the code**, for no
instruction jumps backwards: the bytes ahead in all frames together, `Thread.work`, become fewer.  So one step more than
there are bytes ahead is enough to see the end of every run.
-/
namespace Jvm

structure Run where
  /-- The number of instructions executed, or why the run stopped. -/
  result : Except RuntimeError Nat
  thread : Thread
  log : Log

namespace Thread

/-- Takes at most `limit` steps, `executed` having been taken before. -/
def runFor : (limit : Nat) → (executed : Nat) → Log → Thread → Run
  | 0, executed, log, t => ⟨.ok executed, t, log⟩
  | limit + 1, executed, log, t =>
    if t.isFinished then ⟨.ok executed, t, log⟩
    else
      let log := log.recordStep t
      match t.step with
      | .ok _ t => runFor limit (executed + 1) log t
      | .error e t => ⟨.error e, t, log⟩

/-- Takes steps until no frame is left or a step fails, and keeps a log. -/
def runLogging (log : Log) (t : Thread) : Run := runFor (t.work + 1) 0 log t

def run (t : Thread) : Except RuntimeError Nat × Thread :=
  let r := t.runLogging .silent
  (r.result, r.thread)

def stepLogging (log : Log) (t : Thread) : Except RuntimeError Step × Thread × Log :=
  let log := log.recordStep t
  match t.step with
  | .ok s t => (.ok s, t, log)
  | .error e t => (.error e, t, log)

end Thread

namespace Member

/-- Runs a method on a thread of its own, and keeps a log. -/
def runLogging (log : Log) (pool : ConstantPool) (m : Member) : Except RuntimeError Nat × Log :=
  match Frame.ofMethod pool m with
  | .error e => (.error e, log)
  | .ok f =>
    match Thread.pushFrame f (.ofMaxDepth Thread.defaultMaxDepth) with
    | .error e _ => (.error e, log)
    | .ok _ t =>
      let r := t.runLogging log
      (r.result, r.log)

def run (pool : ConstantPool) (m : Member) : Except RuntimeError Nat := (m.runLogging .silent pool).1

end Member

end Jvm
