import Jvm.Text.Utf8
/-!
# Modified UTF-8

The encoding of text inside a class file.  It writes UTF-16 code units, one to three bytes each: the null character
takes two bytes so that no byte is zero, and a supplementary code point is written as its two surrogates.  A surrogate
without its partner is written as it is and survives.

Reading first tries standard UTF-8 on the **whole** byte string, which admits zero bytes and sequences of four bytes,
and only then the strict form.
-/
namespace Jvm
namespace ModifiedUtf8

/-- The first UTF-16 code unit of strictly encoded bytes, and the bytes behind it. -/
def unit? : Bytes → Option (CodePoint × Bytes)
  | [] => none
  | a :: rest =>
    if a = 0 then none
    else if a < 0x80 then some (.ofNat a.toNat, rest)
    else if a = 0xC0 then
      match rest with
      | b :: rest => if b = 0x80 then some (.ofNat 0, rest) else none
      | _ => none
    else if a < 0xC2 then none
    else if a < 0xE0 then
      match rest with
      | b :: rest => if Utf8.isContinuation b then some (.ofNat (Utf8.join₂ a b), rest) else none
      | _ => none
    else if a < 0xF0 then
      match rest with
      | b :: c :: rest =>
        if Utf8.isContinuation b && Utf8.isContinuation c && 0x800 ≤ Utf8.join₃ a b c then
          some (.ofNat (Utf8.join₃ a b c), rest)
        else none
      | _ => none
    else none

/-- The text that strictly encoded bytes spell: their code units, with surrogate pairs joined. -/
def decodeStrict? (bs : Bytes) : Option Text :=
  (Utf8.scan unit? bs.length bs []).map Text.joinSurrogates

/-- The text that the bytes of a class file spell: standard UTF-8 if all of them are, else the strict form. -/
def decode? (bs : Bytes) : Option Text :=
  match Utf8.decode? bs with
  | some t => some t
  | none => decodeStrict? bs

/-- Two bytes for a number below `0x800`. -/
def encode₂ (n : Nat) : Bytes := [UInt8.ofNat (0xC0 + n / 0x40), UInt8.ofNat (0x80 + n % 0x40)]

/-- Three bytes for a number below `0x10000`. -/
def encode₃ (n : Nat) : Bytes :=
  [UInt8.ofNat (0xE0 + n / 0x1000), UInt8.ofNat (0x80 + n / 0x40 % 0x40), UInt8.ofNat (0x80 + n % 0x40)]

def encodePoint (c : CodePoint) : Bytes :=
  if c.val = 0 then [0xC0, 0x80]
  else if c.val < 0x80 then [UInt8.ofNat c.val]
  else if c.val < 0x800 then encode₂ c.val
  else if c.val < 0x10000 then encode₃ c.val
  else encode₃ c.highHalf.val ++ encode₃ c.lowHalf.val

def encode (t : Text) : Bytes := t.flatMap encodePoint

end ModifiedUtf8
end Jvm
