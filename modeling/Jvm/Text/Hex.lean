/-!
# Hexadecimal digits

Fixed-width lowercase hexadecimal, as error messages show machine words.
-/
namespace Jvm
namespace Hex

def digit (n : Nat) : Char :=
  if n < 10 then Char.ofNat (0x30 + n) else Char.ofNat (0x57 + n)

/-- The `width` lowest digits of a number, most significant first. -/
def digits : (width : Nat) → Nat → List Char
  | 0, _ => []
  | width + 1, n => digits width (n / 16) ++ [digit (n % 16)]

def text (width n : Nat) : String := String.ofList (digits width n)

end Hex
end Jvm
