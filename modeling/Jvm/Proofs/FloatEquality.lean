import Jvm.Numeric.Ieee
import Mathlib.Tactic.Ring
/-!
# Equality of floating-point patterns

The rule on the fields of a pattern is said here by the pattern as a number.  Without its sign a pattern is a NaN if it
lies above the infinity, and a zero if it is zero; so the one pattern that is equal to another one is the sign bit
alone, and patterns that are no NaN are equal exactly if they are the same once that sign is dropped:
`Format.Fits.equal_iff`.

It is the equality of the floats that the patterns stand for (`equal_single_eq_beq`, `equal_double_eq_beq`).
-/
namespace Jvm
namespace Ieee

namespace Format

variable {f : Format} {a b : Nat}

/-! ## Patterns as numbers -/

/-- The sign bit alone: the pattern of the negative zero. -/
def signBit (f : Format) : Nat := f.exponents * f.fractions

/-- The pattern of the positive infinity: the greatest exponent with a fraction of zero. -/
def infinity (f : Format) : Nat := (f.exponents - 1) * f.fractions

/-- A pattern without its sign. -/
def magnitude (f : Format) (bits : Nat) : Nat := bits % f.signBit

theorem exponent_eq_div (f : Format) (bits : Nat) : f.exponent bits = f.magnitude bits / f.fractions :=
  (Nat.mod_mul_left_div_self ..).symm

theorem fraction_eq_mod (f : Format) (bits : Nat) : f.fraction bits = f.magnitude bits % f.fractions :=
  (Nat.mod_mul_left_mod ..).symm

theorem isZero_iff : f.isZero a = true ↔ f.magnitude a = 0 := by
  rw [isZero, exponent_eq_div, fraction_eq_mod, Bool.and_eq_true, decide_eq_true_eq, decide_eq_true_eq]
  constructor
  · rintro ⟨hexponent, hfraction⟩
    rw [← Nat.div_add_mod (f.magnitude a) f.fractions, hexponent, hfraction, Nat.mul_zero]
  · intro h
    rw [h]
    exact ⟨Nat.zero_div _, Nat.zero_mod _⟩

theorem isNaN_iff (hf : 0 < f.signBit) : f.isNaN a = true ↔ f.infinity < f.magnitude a := by
  have hfractions : 0 < f.fractions := Nat.pos_of_mul_pos_left hf
  have hlt : f.magnitude a / f.fractions < f.exponents := Nat.div_lt_of_lt_mul (Nat.mul_comm .. ▸ Nat.mod_lt a hf)
  have hsplit := Nat.div_add_mod' (f.magnitude a) f.fractions
  rw [isNaN, exponent_eq_div, fraction_eq_mod, Bool.and_eq_true, decide_eq_true_eq, decide_eq_true_eq, infinity]
  constructor
  · rintro ⟨hexponent, hfraction⟩
    rw [← hexponent, Nat.add_sub_cancel]
    omega
  · intro h
    have hge : f.exponents - 1 ≤ f.magnitude a / f.fractions := (Nat.le_div_iff_mul_le hfractions).2 h.le
    have hexponent : f.magnitude a / f.fractions = f.exponents - 1 := by omega
    rw [hexponent] at hsplit
    omega

/-! ## Patterns of one sign bit -/

/-- The pattern has nothing above its sign bit. -/
def Fits (f : Format) (bits : Nat) : Prop := bits < 2 * f.signBit

/-- The pattern, or the positive zero if it is the negative one. -/
def dropZeroSign (f : Format) (bits : Nat) : Nat := if bits = f.signBit then 0 else bits

theorem dropZeroSign_inj : f.dropZeroSign a = f.dropZeroSign b ↔
    a = b ∨ (a = 0 ∨ a = f.signBit) ∧ (b = 0 ∨ b = f.signBit) := by
  unfold dropZeroSign
  grind

namespace Fits

theorem magnitude_cases (h : f.Fits a) :
    a < f.signBit ∧ f.magnitude a = a ∨ f.signBit ≤ a ∧ f.magnitude a + f.signBit = a := by
  unfold Fits at h
  rcases Nat.lt_or_ge a f.signBit with hlt | hge
  · exact .inl ⟨hlt, Nat.mod_eq_of_lt hlt⟩
  · refine .inr ⟨hge, ?_⟩
    rw [magnitude, Nat.mod_eq_sub_mod hge, Nat.mod_eq_of_lt (by omega), Nat.sub_add_cancel hge]

/-- **The NaNs are the patterns above an infinity**, of either sign. -/
theorem isNaN_iff (h : f.Fits a) : f.isNaN a = true ↔ f.infinity < a ∧ a < f.signBit ∨ f.signBit + f.infinity < a := by
  have hf : 0 < f.signBit := Nat.pos_of_mul_pos_left (Nat.zero_lt_of_lt h)
  rw [Format.isNaN_iff hf]
  rcases h.magnitude_cases with ⟨hlt, hmagnitude⟩ | ⟨hge, hmagnitude⟩ <;> omega

theorem isZero_iff (h : f.Fits a) : f.isZero a = true ↔ a = 0 ∨ a = f.signBit := by
  rw [Format.isZero_iff]
  rcases h.magnitude_cases with ⟨hlt, hmagnitude⟩ | ⟨hge, hmagnitude⟩ <;> omega

/-- **Equality is decided by the patterns without the sign of zero**, among those that are no NaN. -/
theorem equal_iff (ha : f.Fits a) (hb : f.Fits b) :
    f.equal a b = true ↔ f.isNaN a = false ∧ f.isNaN b = false ∧ f.dropZeroSign a = f.dropZeroSign b := by
  rw [dropZeroSign_inj, ← ha.isZero_iff, ← hb.isZero_iff]
  simp [equal, and_assoc]

end Fits

/-! ## The floats that patterns stand for -/

open Float.Model (UnpackedFloat)
open Float.Model.UnpackedFloat

/-- The fields of a format that floats are modelled in. -/
def ofModel (spec : Float.Model.Format) : Format := ⟨2 ^ spec.exponentBits, 2 ^ spec.mantissaBitsWithoutImplicit⟩

variable {spec : Float.Model.Format} (x : BitVec spec.numBits)

theorem fits_ofModel (spec : Float.Model.Format) (x : BitVec spec.numBits) : (ofModel spec).Fits x.toNat := by
  refine x.isLt.trans_eq ?_
  simp only [Float.Model.Format.numBits, signBit, ofModel]
  ring

theorem exponent_ofModel : (ofModel spec).exponent x.toNat = (unpackExponent x).toNat := by
  have hwidth : spec.mantissaBitsWithoutImplicit + spec.exponentBits - 1 - spec.mantissaBitsWithoutImplicit + 1 =
      spec.exponentBits := by
    have := spec.he
    omega
  rw [unpackExponent, BitVec.toNat_cast, BitVec.extractLsb, BitVec.extractLsb'_toNat, Nat.shiftRight_eq_div_pow, hwidth]
  rfl

theorem fraction_ofModel : (ofModel spec).fraction x.toNat = (unpackMantissa x).toNat := by
  have hwidth : spec.mantissaBitsWithoutImplicit - 1 - 0 + 1 = spec.mantissaBitsWithoutImplicit :=
    Nat.sub_add_cancel spec.hm
  rw [unpackMantissa, BitVec.toNat_cast, BitVec.extractLsb, BitVec.extractLsb'_toNat, Nat.shiftRight_zero, hwidth]
  rfl

theorem unpackExponent_eq_greatest_iff :
    unpackExponent x = -1#(spec.exponentBits) ↔ (ofModel spec).exponent x.toNat + 1 = 2 ^ spec.exponentBits := by
  have hpos : 0 < 2 ^ spec.exponentBits := Nat.two_pow_pos _
  rw [BitVec.neg_one_eq_allOnes, ← BitVec.toNat_inj, BitVec.toNat_allOnes, exponent_ofModel]
  omega

theorem unpackExponent_eq_zero_iff :
    unpackExponent x = 0#(spec.exponentBits) ↔ (ofModel spec).exponent x.toNat = 0 := by
  rw [← BitVec.toNat_inj, exponent_ofModel, BitVec.toNat_zero]

theorem unpackMantissa_eq_zero_iff :
    unpackMantissa x = 0#(spec.mantissaBitsWithoutImplicit) ↔ (ofModel spec).fraction x.toNat = 0 := by
  rw [← BitVec.toNat_inj, fraction_ofModel, BitVec.toNat_zero]

theorem isNaN_ofModel : (ofModel spec).isNaN x.toNat = true ↔
    unpackExponent x = -1#(spec.exponentBits) ∧ unpackMantissa x ≠ 0#(spec.mantissaBitsWithoutImplicit) := by
  rw [isNaN, Bool.and_eq_true, decide_eq_true_eq, decide_eq_true_eq, unpackExponent_eq_greatest_iff, Ne, Ne,
    unpackMantissa_eq_zero_iff]
  rfl

theorem isZero_ofModel : (ofModel spec).isZero x.toNat = true ↔
    unpackExponent x = 0#(spec.exponentBits) ∧ unpackMantissa x = 0#(spec.mantissaBitsWithoutImplicit) := by
  rw [isZero, Bool.and_eq_true, decide_eq_true_eq, decide_eq_true_eq, unpackExponent_eq_zero_iff,
    unpackMantissa_eq_zero_iff]

/-- What a pattern stands for, by its fields. -/
inductive StandsFor (x : BitVec spec.numBits) : UnpackedFloat → Prop
  | infinity (greatest : unpackExponent x = -1#(spec.exponentBits))
    (fraction : unpackMantissa x = 0#(spec.mantissaBitsWithoutImplicit)) :
    StandsFor x (.infinity (Sign.ofBitVec (unpackSign x)))
  | notANumber (greatest : unpackExponent x = -1#(spec.exponentBits))
    (fraction : unpackMantissa x ≠ 0#(spec.mantissaBitsWithoutImplicit)) : StandsFor x .notANumber
  | zero (least : unpackExponent x = 0#(spec.exponentBits))
    (fraction : unpackMantissa x = 0#(spec.mantissaBitsWithoutImplicit)) :
    StandsFor x (.zero (Sign.ofBitVec (unpackSign x)))
  | subnormal (least : unpackExponent x = 0#(spec.exponentBits))
    (fraction : unpackMantissa x ≠ 0#(spec.mantissaBitsWithoutImplicit)) (pos : 0 < (unpackMantissa x).toNat) :
    StandsFor x (.finite (Sign.ofBitVec (unpackSign x)) (unpackMantissa x).toNat
      ((unpackExponent x).toNat - (spec.exponentBias + spec.mantissaBitsWithoutImplicit) + 1) pos)
  | normal (notGreatest : unpackExponent x ≠ -1#(spec.exponentBits))
    (notLeast : unpackExponent x ≠ 0#(spec.exponentBits)) (pos : 0 < (1#1 ++ unpackMantissa x).toNat) :
    StandsFor x (.finite (Sign.ofBitVec (unpackSign x)) (1#1 ++ unpackMantissa x).toNat
      ((unpackExponent x).toNat - (spec.exponentBias + spec.mantissaBitsWithoutImplicit)) pos)

theorem toNat_leading_one {n : Nat} (m : BitVec n) : (1#1 ++ m).toNat = 2 ^ n + m.toNat := by
  rw [BitVec.toNat_append, ← Nat.shiftLeft_add_eq_or_of_lt m.isLt, Nat.shiftLeft_eq, BitVec.toNat_one Nat.one_pos,
    Nat.one_mul]

theorem standsFor_unpack : StandsFor x (unpack spec x) := by
  by_cases hgreatest : unpackExponent x = -1#(spec.exponentBits)
  · by_cases hfraction : unpackMantissa x = 0#(spec.mantissaBitsWithoutImplicit)
    · have hunpack : unpack spec x = .infinity (Sign.ofBitVec (unpackSign x)) :=
        (if_pos hgreatest).trans (if_pos hfraction)
      exact hunpack ▸ .infinity hgreatest hfraction
    · have hunpack : unpack spec x = .notANumber := (if_pos hgreatest).trans (if_neg hfraction)
      exact hunpack ▸ .notANumber hgreatest hfraction
  · by_cases hleast : unpackExponent x = 0#(spec.exponentBits)
    · by_cases hfraction : unpackMantissa x = 0#(spec.mantissaBitsWithoutImplicit)
      · have hunpack : unpack spec x = .zero (Sign.ofBitVec (unpackSign x)) :=
          (if_neg hgreatest).trans ((if_pos hleast).trans (dif_pos hfraction))
        exact hunpack ▸ .zero hleast hfraction
      · have hpos : 0 < (unpackMantissa x).toNat := Nat.pos_of_ne_zero fun h => hfraction (BitVec.eq_of_toNat_eq h)
        have hunpack : unpack spec x = .finite _ _ _ hpos :=
          (if_neg hgreatest).trans ((if_pos hleast).trans (dif_neg hfraction))
        exact hunpack ▸ .subnormal hleast hfraction hpos
    · have hpos : 0 < (1#1 ++ unpackMantissa x).toNat := by
        rw [toNat_leading_one]
        exact Nat.add_pos_left (Nat.two_pow_pos _) _
      have hunpack : unpack spec x = .finite _ _ _ hpos := (if_neg hgreatest).trans (if_neg hleast)
      exact hunpack ▸ .normal hgreatest hleast hpos

theorem greatest_ne_least : -1#(spec.exponentBits) ≠ 0#(spec.exponentBits) := by
  have := Nat.one_lt_two_pow spec.he.ne'
  rw [BitVec.neg_one_eq_allOnes, Ne, ← BitVec.toNat_inj, BitVec.toNat_allOnes, BitVec.toNat_zero]
  omega

theorem unpack_eq_notANumber_iff : unpack spec x = .notANumber ↔ (ofModel spec).isNaN x.toNat = true := by
  rw [isNaN_ofModel]
  have hstands := standsFor_unpack x
  generalize unpack spec x = u at hstands ⊢
  cases hstands with
  | infinity hgreatest hfraction => exact iff_of_false nofun fun h => h.2 hfraction
  | notANumber hgreatest hfraction => exact iff_of_true rfl ⟨hgreatest, hfraction⟩
  | zero hleast hfraction => exact iff_of_false nofun fun h => h.2 hfraction
  | subnormal hleast hfraction _ => exact iff_of_false nofun fun h => greatest_ne_least (h.1.symm.trans hleast)
  | normal hgreatest hleast _ => exact iff_of_false nofun fun h => hgreatest h.1

theorem unpack_eq_zero_iff : (∃ s, unpack spec x = .zero s) ↔ (ofModel spec).isZero x.toNat = true := by
  rw [isZero_ofModel]
  have hstands := standsFor_unpack x
  generalize unpack spec x = u at hstands ⊢
  cases hstands with
  | infinity hgreatest hfraction => exact iff_of_false nofun fun h => greatest_ne_least (hgreatest.symm.trans h.1)
  | notANumber hgreatest hfraction => exact iff_of_false nofun fun h => hfraction h.2
  | zero hleast hfraction => exact iff_of_true ⟨_, rfl⟩ ⟨hleast, hfraction⟩
  | subnormal hleast hfraction _ => exact iff_of_false nofun fun h => hfraction h.2
  | normal hgreatest hleast _ => exact iff_of_false nofun fun h => hleast h.1

/-! ### Packing -/

theorem packComponents_fields :
    packComponents spec (Sign.ofBitVec (unpackSign x)) (unpackExponent x) (unpackMantissa x) = x := by
  have htoBitVec : ∀ b : BitVec 1, (Sign.ofBitVec b).toBitVec = b := by decide
  have hsign (i : Nat) : (unpackSign x).getLsbD i =
      (x.extractLsb (spec.mantissaBitsWithoutImplicit + spec.exponentBits)
        (spec.mantissaBitsWithoutImplicit + spec.exponentBits)).getLsbD i := BitVec.getLsbD_cast ..
  have := spec.he
  have := spec.hm
  rw [packComponents, htoBitVec]
  refine BitVec.eq_of_getLsbD_eq fun i hi => ?_
  change i < 1 + spec.exponentBits + spec.mantissaBitsWithoutImplicit at hi
  simp only [BitVec.getLsbD_append, hsign, unpackMantissa, unpackExponent, BitVec.getLsbD_cast,
    BitVec.getLsbD_extractLsb]
  grind

theorem log2_leading_one {n : Nat} (m : BitVec n) : (1#1 ++ m).toNat.log2 = n := by
  have hm := m.isLt
  rw [toNat_leading_one, Nat.log2_eq_iff (by omega), Nat.pow_succ]
  omega

theorem pack_finite {s : Sign} {m : Nat} {e : Int} (pos : 0 < m)
    (hsmall : (e + spec.exponentBias + spec.mantissaBitsWithoutImplicit).toNat + 1 < 2 ^ spec.exponentBits) :
    pack spec (.finite s m e pos) =
      if m.log2 = spec.mantissaBitsWithoutImplicit then
        packComponents spec s (.ofNat _ (e + spec.exponentBias + spec.mantissaBitsWithoutImplicit).toNat) (.ofNat _ m)
      else packComponents spec s 0#(spec.exponentBits) (.ofNat _ m) := by
  refine (if_neg (Nat.not_le.2 hsmall)).trans (if_congr ?_ rfl rfl)
  change m.log2 + 1 = 1 + spec.mantissaBitsWithoutImplicit ↔ _
  omega

/-- **A float keeps the bits that it is made from**, if they are not those of a NaN. -/
theorem pack_unpack (hspec : 2 ≤ spec.exponentBits) (hx : (ofModel spec).isNaN x.toNat ≠ true) :
    (unpack spec x).pack spec = x := by
  have hfields := packComponents_fields x
  have hbound := (unpackExponent x).isLt
  have hfour : 2 ^ 2 ≤ 2 ^ spec.exponentBits := Nat.pow_le_pow_right (by decide) hspec
  have hstands := standsFor_unpack x
  generalize unpack spec x = u at hstands ⊢
  cases hstands with
  | infinity hgreatest hfraction => exact (congr (congrArg _ hgreatest.symm) hfraction.symm).trans hfields
  | notANumber hgreatest hfraction => exact absurd ((isNaN_ofModel x).2 ⟨hgreatest, hfraction⟩) hx
  | zero hleast hfraction => exact (congr (congrArg _ hleast.symm) hfraction.symm).trans hfields
  | subnormal hleast hfraction hpos =>
    have hexponent : (unpackExponent x).toNat = 0 := by rw [hleast, BitVec.toNat_zero]
    -- the fraction leaves no room for a leading one
    have hlog : (unpackMantissa x).toNat.log2 < spec.mantissaBitsWithoutImplicit :=
      (Nat.log2_lt hpos.ne').2 (unpackMantissa x).isLt
    rw [pack_finite hpos (by omega), if_neg hlog.ne, BitVec.ofNat_toNat, BitVec.setWidth_eq, ← hleast]
    exact hfields
  | normal hgreatest hleast hpos =>
    have hsmall : (unpackExponent x).toNat + 1 ≠ 2 ^ spec.exponentBits := by
      rw [← exponent_ofModel]
      exact mt (unpackExponent_eq_greatest_iff x).2 hgreatest
    have hexponent : ((unpackExponent x).toNat - (spec.exponentBias + spec.mantissaBitsWithoutImplicit) +
        spec.exponentBias + spec.mantissaBitsWithoutImplicit : Int).toNat = (unpackExponent x).toNat := by omega
    -- the leading one is the bit that packing drops
    have hdrop : BitVec.ofNat spec.mantissaBitsWithoutImplicit (1#1 ++ unpackMantissa x).toNat = unpackMantissa x := by
      rw [BitVec.ofNat_toNat, BitVec.setWidth_append]
      simp
    rw [pack_finite hpos (by omega), if_pos (log2_leading_one _), hexponent, hdrop, BitVec.ofNat_toNat,
      BitVec.setWidth_eq]
    exact hfields

theorem unpack_packedNaN : unpack spec (packedNaN spec) = .notANumber := by
  have hone : 2 ^ (spec.mantissaBitsWithoutImplicit - 1) < 2 ^ spec.mantissaBitsWithoutImplicit :=
    Nat.pow_lt_pow_right Nat.one_lt_two (Nat.sub_one_lt spec.hm.ne')
  rw [unpack_eq_notANumber_iff, isNaN_ofModel]
  refine ⟨unpackExponent_packComponents, ?_⟩
  refine unpackMantissa_packComponents.trans_ne fun h => ?_
  have htoNat := congrArg BitVec.toNat h
  rw [BitVec.toNat_shiftLeft, BitVec.toNat_one spec.hm, Nat.shiftLeft_eq, Nat.one_mul, Nat.mod_eq_of_lt hone] at htoNat
  exact (Nat.two_pow_pos _).ne' htoNat

/-- Packing loses nothing but the payload of a NaN, and so nothing of the float. -/
theorem unpack_pack_unpack (hspec : 2 ≤ spec.exponentBits) :
    unpack spec ((unpack spec x).pack spec) = unpack spec x := by
  by_cases hx : (ofModel spec).isNaN x.toNat = true
  · rw [(unpack_eq_notANumber_iff x).2 hx]
    exact unpack_packedNaN
  · rw [pack_unpack x hspec hx]

/-! ### Comparing -/

theorem compare_finite {s s' : Sign} {m m' : Nat} {e e' : Int} (hm : 0 < m) (hm' : 0 < m') :
    (UnpackedFloat.finite s m e hm).compare (.finite s' m' e' hm') = some .eq ↔
      UnpackedFloat.finite s m e hm = .finite s' m' e' hm' := by
  rw [UnpackedFloat.finite.injEq]
  have hthen : (compare e e').then (compare m m') = .eq ↔ m = m' ∧ e = e' := by
    rw [Ordering.then_eq_eq, Int.compare_eq_eq, Nat.compare_eq_eq, and_comm]
  cases s with
  | negative =>
    cases s' with
    | negative => exact Option.some_inj.trans (Ordering.swap_eq_eq.trans (hthen.trans (and_iff_right rfl).symm))
    | positive => exact iff_of_false (fun h => absurd (Option.some.inj h) (by decide)) fun h => Sign.noConfusion h.1
  | positive =>
    cases s' with
    | negative => exact iff_of_false (fun h => absurd (Option.some.inj h) (by decide)) fun h => Sign.noConfusion h.1
    | positive => exact Option.some_inj.trans (hthen.trans (and_iff_right rfl).symm)

theorem unpackedFloat_beq_iff {u v : UnpackedFloat} :
    u.beq v = true ↔ u ≠ .notANumber ∧ v ≠ .notANumber ∧ (u = v ∨ (∃ s, u = .zero s) ∧ ∃ s, v = .zero s) := by
  refine (beq_iff_eq (a := u.compare v)).trans ?_
  rcases u with (_ | _) | _ | s | ⟨_ | _, m, e, hm⟩ <;> rcases v with (_ | _) | _ | s' | ⟨_ | _, m', e', hm'⟩ <;>
    first
      -- the same infinity, or two zeros
      | exact iff_of_true rfl ⟨nofun, nofun, .inl rfl⟩
      | exact iff_of_true rfl ⟨nofun, nofun, .inr ⟨⟨_, rfl⟩, _, rfl⟩⟩
      -- a NaN on either side
      | exact iff_of_false nofun fun h => h.1 rfl
      | exact iff_of_false nofun fun h => h.2.1 rfl
      -- finite numbers
      | exact (compare_finite hm hm').trans
          ⟨fun h => ⟨nofun, nofun, .inl h⟩, fun h => h.2.2.resolve_right fun hzero => nomatch hzero.1⟩
      -- floats of different kinds or signs
      | exact iff_of_false (fun h => absurd (Option.some.inj h) (by decide)) fun h => h.2.2.elim nofun nofun

/-- **Patterns are equal as the floats are that they stand for.**  A float keeps the bits that it is made from, but for
those of a NaN, of which there is one only. -/
theorem equal_ofModel (spec : Float.Model.Format) (hspec : 2 ≤ spec.exponentBits) (x y : BitVec spec.numBits) :
    (ofModel spec).equal x.toNat y.toNat =
      (unpack spec ((unpack spec x).pack spec)).beq (unpack spec ((unpack spec y).pack spec)) := by
  have hinj (hx : (ofModel spec).isNaN x.toNat ≠ true) (hy : (ofModel spec).isNaN y.toNat ≠ true) :
      x.toNat = y.toNat ↔ unpack spec x = unpack spec y := by
    refine ⟨fun h => congrArg _ (BitVec.eq_of_toNat_eq h), fun h => ?_⟩
    rw [← pack_unpack x hspec hx, h, pack_unpack y hspec hy]
  rw [Bool.eq_iff_iff, unpack_pack_unpack x hspec, unpack_pack_unpack y hspec, unpackedFloat_beq_iff, Ne, Ne,
    unpack_eq_notANumber_iff, unpack_eq_notANumber_iff, unpack_eq_zero_iff, unpack_eq_zero_iff, equal]
  grind

end Format

/-! ## The two widths -/

theorem fits_single (x : UInt32) : single.Fits x.toNat := Format.fits_ofModel .binary32 x.toBitVec

theorem fits_double (x : UInt64) : double.Fits x.toNat := Format.fits_ofModel .binary64 x.toBitVec

theorem isNaN_single {x : UInt32} : single.isNaN x.toNat = true ↔ 0x7F800000 < x ∧ x < 0x80000000 ∨ 0xFF800000 < x :=
  (fits_single x).isNaN_iff

theorem isNaN_double {x : UInt64} :
    double.isNaN x.toNat = true ↔ 0x7FF0000000000000 < x ∧ x < 0x8000000000000000 ∨ 0xFFF0000000000000 < x :=
  (fits_double x).isNaN_iff

theorem dropZeroSign_single (x : UInt32) : single.dropZeroSign x.toNat = (if x = 0x80000000 then 0 else x).toNat := by
  rw [apply_ite UInt32.toNat]
  exact if_congr (@UInt32.toNat_inj x 0x80000000) rfl rfl

theorem dropZeroSign_double (x : UInt64) :
    double.dropZeroSign x.toNat = (if x = 0x8000000000000000 then 0 else x).toNat := by
  rw [apply_ite UInt64.toNat]
  exact if_congr (@UInt64.toNat_inj x 0x8000000000000000) rfl rfl

theorem equal_single_eq_beq (x y : UInt32) : single.equal x.toNat y.toNat = (Float32.ofBits x == Float32.ofBits y) :=
  Format.equal_ofModel .binary32 (by decide) x.toBitVec y.toBitVec

theorem equal_double_eq_beq (x y : UInt64) : double.equal x.toNat y.toNat = (Float.ofBits x == Float.ofBits y) :=
  Format.equal_ofModel .binary64 (by decide) x.toBitVec y.toBitVec

end Ieee
end Jvm
