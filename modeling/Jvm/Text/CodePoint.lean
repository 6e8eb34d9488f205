/-!
# Code points and text

A class file may hold text with **unpaired surrogates**, which no `String` can hold.  So text is a list of code
points, surrogates allowed, and it becomes a `String` only when it has none.
-/
namespace Jvm

/-- A Unicode code point, surrogates included. -/
abbrev CodePoint := Fin 0x110000

namespace CodePoint

/-- The code point of a number below `0x110000`. -/
def ofNat (n : Nat) : CodePoint := Fin.ofNat 0x110000 n

/-- A high surrogate: the first half of a pair. -/
def isHigh (c : CodePoint) : Bool := 0xD800 ≤ c.val && c.val < 0xDC00

/-- A low surrogate: the second half of a pair. -/
def isLow (c : CodePoint) : Bool := 0xDC00 ≤ c.val && c.val < 0xE000

def isSurrogate (c : CodePoint) : Bool := 0xD800 ≤ c.val && c.val < 0xE000

/-- The supplementary code point that a high and a low surrogate stand for. -/
def ofPair (high low : CodePoint) : CodePoint :=
  ofNat (0x10000 + (high.val - 0xD800) * 0x400 + (low.val - 0xDC00))

def highHalf (c : CodePoint) : CodePoint := ofNat (0xD800 + (c.val - 0x10000) / 0x400)

def lowHalf (c : CodePoint) : CodePoint := ofNat (0xDC00 + (c.val - 0x10000) % 0x400)

/-- The character of a code point; a surrogate has none. -/
def toChar? (c : CodePoint) : Option Char :=
  if c.isSurrogate then none else some (Char.ofNat c.val)

end CodePoint

/-- Text as a class file holds it: any sequence of code points. -/
abbrev Text := List CodePoint

namespace Text

def ofString (s : String) : Text := s.toList.map fun c => CodePoint.ofNat c.toNat

/-- The string with this text, if no surrogate occurs in it. -/
def toString? (t : Text) : Option String :=
  (t.mapM CodePoint.toChar?).map String.ofList

/-- Puts a code point in front of a text, joining it with the text's first code point when the two are a surrogate
pair. -/
def attach (c : CodePoint) : Text → Text
  | [] => [c]
  | d :: rest => if c.isHigh && d.isLow then CodePoint.ofPair c d :: rest else c :: d :: rest

/-- Replaces every adjacent high and low surrogate by the code point that they stand for.  Pairs cannot overlap, so
the order in which they are joined does not matter. -/
def joinSurrogates (t : Text) : Text := t.foldr attach []

end Text

end Jvm
