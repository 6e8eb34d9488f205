import Jvm.Bytes.BigEndian
/-!
# A position in a byte buffer

A cursor is what a reader still has before it: the bytes that are left, and the offset of the first of them in the
**whole** buffer.  A window cut out of a cursor is again a cursor, so offsets inside a window are absolute without
further bookkeeping.
-/
namespace Jvm

/-- The bytes from `xs` split after the first `n`, or nothing if there are fewer.  Costs `n` steps, however long the
list is: a list's length is never asked for. -/
def splitExactly {α : Type} (n : Nat) (xs : List α) : Option (List α × List α) :=
  go n xs []
where
  go : Nat → List α → List α → Option (List α × List α)
    | 0, rest, taken => some (taken.reverse, rest)
    | _ + 1, [], _ => none
    | n + 1, x :: rest, taken => go n rest (x :: taken)

theorem splitExactly_go_eq {α : Type} : ∀ (n : Nat) (xs taken : List α),
    splitExactly.go n xs taken =
      if n ≤ xs.length then some (taken.reverse ++ xs.take n, xs.drop n) else none
  | 0, xs, taken => by simp [splitExactly.go]
  | n + 1, [], taken => by simp [splitExactly.go]
  | n + 1, x :: xs, taken => by simp [splitExactly.go, splitExactly_go_eq n xs]

/-- **Splitting succeeds exactly when there is enough**, and then nothing is lost. -/
theorem splitExactly_eq {α : Type} (n : Nat) (xs : List α) :
    splitExactly n xs = if n ≤ xs.length then some (xs.take n, xs.drop n) else none := by
  simp [splitExactly, splitExactly_go_eq]

/-- Where a reader stands: the bytes it has left and the absolute offset of the first of them. -/
@[ext] structure Cursor where
  /-- Offset of the next byte in the whole buffer. -/
  offset : Nat
  /-- The bytes not read yet. -/
  bytes : Bytes
  deriving DecidableEq

namespace Cursor

def ofBytes (bytes : Bytes) : Cursor := ⟨0, bytes⟩

def remaining (c : Cursor) : Nat := c.bytes.length

def isEmpty (c : Cursor) : Bool := c.bytes.isEmpty

/-- The next `n` bytes as a window of their own, and the cursor behind them; nothing if fewer are left. -/
def split? (c : Cursor) (n : Nat) : Option (Cursor × Cursor) :=
  (splitExactly n c.bytes).map fun (taken, rest) => (⟨c.offset, taken⟩, ⟨c.offset + n, rest⟩)

theorem split?_eq (c : Cursor) (n : Nat) :
    c.split? n =
      if n ≤ c.remaining then some (⟨c.offset, c.bytes.take n⟩, ⟨c.offset + n, c.bytes.drop n⟩) else none := by
  unfold split? remaining
  rw [splitExactly_eq]
  split <;> rfl

end Cursor

end Jvm
