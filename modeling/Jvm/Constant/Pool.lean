import Jvm.Constant.Basic
/-!
# The constant pool

The pool is indexed from one, and a wide constant leaves the index behind it empty.  So a pool is an array of *slots*:
slot zero is always empty, and so is the slot behind each wide constant.  A wide constant may stand in the last slot;
the slot behind it is then not part of the pool.
-/
namespace Jvm

/-- The constants of a class file by index. -/
@[ext] structure ConstantPool where
  /-- The size the file declares: one more than the last index. -/
  count : UInt16
  /-- What stands at each index, starting from index zero. -/
  slots : Array (Option Constant)
  deriving DecidableEq

namespace ConstantPool

def empty : ConstantPool := ⟨0, #[]⟩

/-- The constants of the pool with their indices, by increasing index. -/
def entries (pool : ConstantPool) : List (Nat × Constant) :=
  pool.slots.toList.zipIdx.filterMap fun (slot, index) => slot.map fun c => (index, c)

/-- Fills the next slots of a pool, `n` of them, with the constants that come off the cursor. -/
def fill : (n : Nat) → Array (Option Constant) → Decoder (Array (Option Constant))
  | 0, slots => pure slots
  | n + 1, slots => do
    let c ← Constant.decoder
    if c.isWide then
      match n with
      | 0 => pure (slots.push (some c))
      | n + 1 => fill n ((slots.push (some c)).push none)
    else fill n (slots.push (some c))

/-- Reads a pool: its declared size, and constants until its slots are full. -/
def decoder : Decoder ConstantPool := do
  let count ← Decoder.u2
  let slots ← fill (count.toNat - 1) #[none]
  return ⟨count, slots⟩

/-- A pool as a class file holds it: its declared size and its constants. -/
def toBytes (pool : ConstantPool) : Bytes :=
  beBytes 2 pool.count.toNat ++ pool.entries.flatMap fun (_, c) => c.toBytes

end ConstantPool

end Jvm
