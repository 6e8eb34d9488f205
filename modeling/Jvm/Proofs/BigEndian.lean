import Jvm.Bytes.BigEndian
import Mathlib.Algebra.Group.Nat.Even
import Mathlib.Data.List.Induction
/-!
# Big-endian numbers read back

`beNat` and `beBytes` are inverse to each other: a byte string is determined by its length and its number, and a number
that fits is kept by writing it.
-/
namespace Jvm

theorem beNat_lt (bs : Bytes) : beNat bs < 256 ^ bs.length := by
  induction bs using List.reverseRecOn with
  | nil => simp
  | append_singleton bs b ih =>
    have hb := b.toNat_lt
    rw [beNat_concat, List.length_append, List.length_singleton, Nat.pow_succ]
    omega

/-- **Writing a number and reading it back** keeps as many of its bytes as were written. -/
theorem beNat_beBytes : ∀ (width n : Nat), beNat (beBytes width n) = n % 256 ^ width
  | 0, n => by simp [beBytes, Nat.mod_one]
  | width + 1, n => by
    have hlow : (UInt8.ofNat n).toNat = n % 256 := UInt8.toNat_ofNat'
    rw [beBytes, beNat_concat, beNat_beBytes width, hlow, Nat.pow_succ', Nat.mod_mul]
    omega

theorem beNat_beBytes_of_lt {width n : Nat} (h : n < 256 ^ width) : beNat (beBytes width n) = n := by
  rw [beNat_beBytes, Nat.mod_eq_of_lt h]

/-- **Reading bytes and writing them back** changes nothing. -/
theorem beBytes_beNat (bs : Bytes) : beBytes bs.length (beNat bs) = bs := by
  induction bs using List.reverseRecOn with
  | nil => rfl
  | append_singleton bs b ih =>
    have hb := b.toNat_lt
    have hdiv : (beNat bs * 256 + b.toNat) / 256 = beNat bs := by omega
    have hlow : UInt8.ofNat (beNat bs * 256 + b.toNat) = b := by
      apply UInt8.toNat_inj.1
      rw [UInt8.toNat_ofNat']
      omega
    rw [beNat_concat, List.length_append, List.length_singleton, beBytes, hdiv, ih, hlow]

theorem eq_beBytes_iff {width n : Nat} {bs : Bytes} (h : n < 256 ^ width) :
    bs = beBytes width n ↔ bs.length = width ∧ beNat bs = n := by
  constructor
  · rintro rfl
    exact ⟨length_beBytes width n, beNat_beBytes_of_lt h⟩
  · rintro ⟨rfl, rfl⟩
    exact (beBytes_beNat bs).symm

end Jvm
