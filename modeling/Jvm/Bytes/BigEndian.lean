/-!
# Big-endian numbers

Every number of a class file is written most significant byte first.  `beNat` reads a byte string of any length as
such a number, and `beBytes` writes the `width` lowest bytes of a number; on numbers that fit they are inverse to
each other.
-/
namespace Jvm

abbrev Bytes := List UInt8

/-- The number a byte string spells, most significant byte first. -/
def beNat (bs : Bytes) : Nat :=
  bs.foldl (fun n b => n * 256 + b.toNat) 0

/-- The `width` lowest bytes of a number, most significant byte first. -/
def beBytes : (width : Nat) → Nat → Bytes
  | 0, _ => []
  | width + 1, n => beBytes width (n / 256) ++ [UInt8.ofNat n]

@[simp] theorem beNat_nil : beNat [] = 0 := rfl

@[simp] theorem beNat_concat (bs : Bytes) (b : UInt8) : beNat (bs ++ [b]) = beNat bs * 256 + b.toNat := by
  simp [beNat, List.foldl_append]

@[simp] theorem length_beBytes : ∀ (width n : Nat), (beBytes width n).length = width
  | 0, _ => rfl
  | width + 1, n => by simp [beBytes, length_beBytes width]

end Jvm
