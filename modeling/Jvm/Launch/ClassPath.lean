import Jvm.Bytes.BigEndian
/-!
# Where classes come from

A source of classes answers an internal name, written with slashes, with the bytes of a class file.  A class path is
such a source held in memory: it takes names with dots or with slashes, and **the last bytes given for a name win**.
-/
namespace Jvm

/-- Whatever can be asked for the bytes of a class. -/
abbrev ClassSource := String → Option Bytes

/-- The internal form of a name: every dot becomes a slash. -/
def internalForm (name : String) : String := name.map fun c => if c = '.' then '/' else c

structure ClassPath where
  /-- The names, each once, and their class files. -/
  entries : List (String × Bytes)

namespace ClassPath

def empty : ClassPath := ⟨[]⟩

def insert (path : ClassPath) (name : String) (bytes : Bytes) : ClassPath :=
  ⟨(internalForm name, bytes) :: path.entries.filter fun (key, _) => key ≠ internalForm name⟩

/-- The bytes of the class with exactly this internal name. -/
def find? (path : ClassPath) : ClassSource := fun name =>
  (path.entries.find? fun (key, _) => key = name).map Prod.snd

def size (path : ClassPath) : Nat := path.entries.length

def isEmpty (path : ClassPath) : Bool := path.entries.isEmpty

end ClassPath

end Jvm
