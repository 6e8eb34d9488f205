import Jvm.Decoder.Error
import Jvm.Machine.Error
/-!
# Why a launch can fail

No class, no method to start with, a class file that is refused, or a run that stops.
-/
namespace Jvm

inductive LaunchError where
  | classNotFound (name : String)
  | mainMethodNotFound (className : String)
  | decode (error : DecodeError)
  | runtime (error : RuntimeError)
  deriving DecidableEq

namespace LaunchError

def message : LaunchError → String
  | classNotFound name => s!"class {name} not found"
  | mainMethodNotFound className => s!"class {className} declares no main method"
  | decode error => error.message
  | runtime error => error.message

end LaunchError

end Jvm
