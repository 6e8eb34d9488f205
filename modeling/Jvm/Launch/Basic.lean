import Jvm.ClassFile.Lookup
import Jvm.Launch.ClassPath
import Jvm.Launch.Error
import Jvm.Machine.Run
/-!
# Launching a class

From the name of a class to the end of its program: find the class, decode it, look for the method to start with, run
it.  The log begins with the name and ends with the outcome.
-/
namespace Jvm

def runClass (source : ClassSource) (name : String) (log : Log) : Except LaunchError Nat × Log :=
  match source name with
  | none => (.error (.classNotFound name), log)
  | some bytes =>
    let (parsed, events) := ClassFile.parseWithEvents bytes
    let log := log.recordDecoding events
    match parsed with
    | .error e => (.error (.decode e), log)
    | .ok c =>
      match c.mainMethod? with
      | .error e => (.error (.decode e), log)
      | .ok none => (.error (.mainMethodNotFound name), log)
      | .ok (some m) =>
        let (result, log) := m.runLogging log c.pool
        (result.mapError .runtime, log)

def launchLogging (log : Log) (source : ClassSource) (mainClass : String) : Except LaunchError Nat × Log :=
  let name := internalForm mainClass
  let (result, log) := runClass source name (log.record (.starting name))
  match result with
  | .ok executed => (.ok executed, log.record (.finished name executed))
  | .error e => (.error e, log.record (.failed name e.message))

/-- Launches a class by name, and says how many instructions were executed. -/
def launch (source : ClassSource) (mainClass : String) : Except LaunchError Nat :=
  (launchLogging .silent source mainClass).1

end Jvm
