import Jvm.Bytes.Cursor
import Jvm.Decoder.Error
/-!
# Decoders

A decoder reads values off a cursor and may refuse.  **In either case it leaves a cursor and a list of events behind**:
where a failed read left the cursor, and what was skipped before it, are part of the answer.  Primitive reads leave the
cursor where it was when they fail; everything else is composed of them.
-/
namespace Jvm

/-- Something worth reporting while a class file is decoded. -/
inductive DecodeEvent where
  /-- An attribute that is not understood was passed over; its body of `length` bytes begins at offset `start`. -/
  | skippedAttribute (name : String) (length : UInt32) (start : Nat)
  /-- A class was decoded; `constants` is the declared size of its pool. -/
  | decodedClass (majorVersion minorVersion constants : UInt16) (fields methods : Nat)
  deriving DecidableEq

@[ext] structure DecodeState where
  cursor : Cursor
  /-- What it has reported, oldest first. -/
  events : Array DecodeEvent
  deriving DecidableEq

/-- A reader of values of type `α` off a cursor. -/
abbrev Decoder (α : Type) := EStateM DecodeError DecodeState α

structure Decoded (α : Type) where
  result : Except DecodeError α
  cursor : Cursor
  /-- What it reported, oldest first. -/
  events : Array DecodeEvent

namespace Decoder

def runAt {α : Type} (d : Decoder α) (cursor : Cursor) : Decoded α :=
  match d ⟨cursor, #[]⟩ with
  | .ok a s => ⟨.ok a, s.cursor, s.events⟩
  | .error e s => ⟨.error e, s.cursor, s.events⟩

/-- Refuses with an error, or goes on with the value. -/
def ofExcept {α : Type} : Except DecodeError α → Decoder α
  | .ok a => pure a
  | .error e => throw e

def report (e : DecodeEvent) : Decoder Unit := fun s => .ok () { s with events := s.events.push e }

def offset : Decoder Nat := fun s => .ok s.cursor.offset s

/-! ## Primitive reads -/

def bytes (n : Nat) : Decoder Bytes := fun s =>
  match s.cursor.split? n with
  | some (taken, rest) => .ok taken.bytes { s with cursor := rest }
  | none => .error (.truncatedInput s.cursor.offset n s.cursor.remaining) s

def number (n : Nat) : Decoder Nat := do return beNat (← bytes n)

def u1 : Decoder UInt8 := do return UInt8.ofNat (← number 1)

def u2 : Decoder UInt16 := do return UInt16.ofNat (← number 2)

def u4 : Decoder UInt32 := do return UInt32.ofNat (← number 4)

def u8 : Decoder UInt64 := do return UInt64.ofNat (← number 8)

def i4 : Decoder Int32 := do return (← u4).toInt32

def i8 : Decoder Int64 := do return (← u8).toInt64

/-! ## Repetition and windows -/

def times {α : Type} (d : Decoder α) (n : Nat) : Decoder (List α) :=
  go n []
where
  go : Nat → List α → Decoder (List α)
    | 0, seen => pure seen.reverse
    | n + 1, seen => do
      let a ← d
      go n (a :: seen)

/-- A number of two bytes, and a decoder that many times over. -/
def counted {α : Type} (d : Decoder α) : Decoder (List α) := do
  let n ← u2
  times d n.toNat

def table : Decoder (List UInt16) := counted u2

/-- Cuts the next `n` bytes out as a window.  The cursor moves behind them at once. -/
def window (n : Nat) : Decoder Cursor := fun s =>
  match s.cursor.split? n with
  | some (inner, rest) => .ok inner { s with cursor := rest }
  | none => .error (.truncatedInput s.cursor.offset n s.cursor.remaining) s

/-- Runs a decoder on a cursor of its own and returns where it stopped.  **The outer cursor stays where it is, whatever
becomes of the inner decoder.** -/
def inside {α : Type} (inner : Cursor) (d : Decoder α) : Decoder (α × Cursor) := fun s =>
  match d { s with cursor := inner } with
  | .ok a t => .ok (a, t.cursor) { t with cursor := s.cursor }
  | .error e t => .error e { t with cursor := s.cursor }

end Decoder

end Jvm
