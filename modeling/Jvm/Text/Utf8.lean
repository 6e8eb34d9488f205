import Jvm.Bytes.BigEndian
import Jvm.Text.CodePoint
/-!
# UTF-8

The standard encoding: each code point in its shortest form of one to four bytes, surrogates excluded.  A decoder is a
function `next?` that takes one code point off the front, and `scan` repeats it to the end of the bytes.
-/
namespace Jvm
namespace Utf8

/-- A byte that continues a sequence; it carries six bits. -/
def isContinuation (b : UInt8) : Bool := 0x80 ≤ b && b ≤ 0xBF

def join₂ (a b : UInt8) : Nat := (a.toNat - 0xC0) * 0x40 + (b.toNat - 0x80)

def join₃ (a b c : UInt8) : Nat := (a.toNat - 0xE0) * 0x1000 + (b.toNat - 0x80) * 0x40 + (c.toNat - 0x80)

def join₄ (a b c d : UInt8) : Nat :=
  (a.toNat - 0xF0) * 0x40000 + (b.toNat - 0x80) * 0x1000 + (c.toNat - 0x80) * 0x40 + (d.toNat - 0x80)

/-- The first code point of well-formed bytes, and the bytes behind it.  A sequence of three bytes must spell a number
from `0x800` on that is no surrogate, one of four a number from `0x10000` up to the last code point. -/
def next? : Bytes → Option (CodePoint × Bytes)
  | [] => none
  | a :: rest =>
    if a < 0x80 then some (.ofNat a.toNat, rest)
    else if a < 0xC2 then none
    else if a < 0xE0 then
      match rest with
      | b :: rest => if isContinuation b then some (.ofNat (join₂ a b), rest) else none
      | _ => none
    else if a < 0xF0 then
      match rest with
      | b :: c :: rest =>
        if isContinuation b && isContinuation c && 0x800 ≤ join₃ a b c
            && !(0xD800 ≤ join₃ a b c && join₃ a b c < 0xE000) then
          some (.ofNat (join₃ a b c), rest)
        else none
      | _ => none
    else if a < 0xF8 then
      match rest with
      | b :: c :: d :: rest =>
        if isContinuation b && isContinuation c && isContinuation d && 0x10000 ≤ join₄ a b c d
            && join₄ a b c d < 0x110000 then
          some (.ofNat (join₄ a b c d), rest)
        else none
      | _ => none
    else none

/-- Repeats a decoder of single code points to the end of the bytes, at most `fuel` times; nothing if it ever
refuses.  A decoder that always consumes something needs no more repetitions than there are bytes. -/
def scan (next? : Bytes → Option (CodePoint × Bytes)) : (fuel : Nat) → Bytes → (seen : Text) → Option Text
  | _, [], seen => some seen.reverse
  | 0, _ :: _, _ => none
  | fuel + 1, b :: bs, seen =>
    match next? (b :: bs) with
    | none => none
    | some (c, rest) => scan next? fuel rest (c :: seen)

def decode? (bs : Bytes) : Option Text := scan next? bs.length bs []

end Utf8
end Jvm
