/-!
# Values

What an operand stack or a local variable can hold.
-/
namespace Jvm

inductive Value where
  | int (value : Int32)
  | null
  deriving DecidableEq

namespace Value

def int? : Value → Option Int32
  | int v => some v
  | null => none

def isNull : Value → Bool
  | int _ => false
  | null => true

def text : Value → String
  | int v => toString v.toInt
  | null => "null"

def rowText (values : Array Value) : String :=
  "[" ++ ", ".intercalate (values.toList.map text) ++ "]"

end Value

end Jvm
