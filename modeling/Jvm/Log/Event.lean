import Jvm.Machine.Thread
/-!
# The log

What the machine reports while it works.  A log is either silent, and then nothing is kept, or it records events in the
order in which they happen.
-/
namespace Jvm

inductive Event where
  | decoding (event : DecodeEvent)
  /-- An instruction is about to be executed on this stack and these local variables. -/
  | step (s : Step) (stack : OperandStack) (locals : LocalVariables)
  | starting (className : String)
  | finished (className : String) (executed : Nat)
  | failed (className : String) (error : String)
  deriving DecidableEq

inductive Log where
  | silent
  /-- To the end of the events so far. -/
  | recording (events : Array Event)
  deriving DecidableEq

namespace Thread

/-- The event of the next step: there is one exactly when an instruction can be decoded. -/
def stepEvent? (t : Thread) : Option Event :=
  match t.frames with
  | [] => none
  | f :: _ =>
    match f.fetch with
    | .error _ => none
    | .ok s => some (.step s f.stack f.locals)

end Thread

namespace Log

def events : Log → Array Event
  | silent => #[]
  | recording events => events

def record (log : Log) (e : Event) : Log :=
  match log with
  | silent => silent
  | recording events => recording (events.push e)

def recordDecoding (log : Log) (decoded : Array DecodeEvent) : Log :=
  match log with
  | silent => silent
  | recording events => recording (events ++ decoded.map .decoding)

def recordStep (log : Log) (t : Thread) : Log :=
  match log with
  | silent => silent
  | recording events =>
    match t.stepEvent? with
    | none => recording events
    | some e => recording (events.push e)

end Log

end Jvm
