/-!
# Access flags

A set of flags packed into sixteen bits.  The same bit has different names on a class, a field and a method, so a set of
flags can hold two names at once; bits without a name are kept.
-/
namespace Jvm

structure AccessFlags where
  bits : UInt16
  deriving DecidableEq

namespace AccessFlags

/-- Whether every bit of `flag` is set. -/
def contains (flags : AccessFlags) (flag : UInt16) : Bool := flags.bits &&& flag = flag

def named : List (String × UInt16) :=
  [("PUBLIC", 0x0001), ("PRIVATE", 0x0002), ("PROTECTED", 0x0004), ("STATIC", 0x0008), ("FINAL", 0x0010),
    ("SUPER", 0x0020), ("SYNCHRONIZED", 0x0020), ("VOLATILE", 0x0040), ("BRIDGE", 0x0040), ("TRANSIENT", 0x0080),
    ("VARARGS", 0x0080), ("NATIVE", 0x0100), ("INTERFACE", 0x0200), ("ABSTRACT", 0x0400), ("STRICT", 0x0800),
    ("SYNTHETIC", 0x1000), ("ANNOTATION", 0x2000), ("ENUM", 0x4000)]

def names (flags : AccessFlags) : List String :=
  (named.filter fun (_, flag) => flags.contains flag).map Prod.fst

def isPublic (flags : AccessFlags) : Bool := flags.contains 0x0001

def isStatic (flags : AccessFlags) : Bool := flags.contains 0x0008

def isNative (flags : AccessFlags) : Bool := flags.contains 0x0100

def isAbstract (flags : AccessFlags) : Bool := flags.contains 0x0400

end AccessFlags

end Jvm
