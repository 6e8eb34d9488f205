import Jvm.Constant.Resolve
import Jvm.Proofs.Grammar
/-!
# Texts that are strings

A text is a string exactly when no surrogate occurs in it, and then the string is determined.  So a name index resolves
to a string exactly when its slot holds the text of that string.
-/
namespace Jvm

namespace CodePoint

theorem val_ofNat {n : Nat} (h : n < 0x110000) : (ofNat n).val = n := Nat.mod_eq_of_lt h

theorem ofNat_val (p : CodePoint) : ofNat p.val = p := Fin.ext (val_ofNat p.isLt)

theorem toNat_charOfNat {n : Nat} (h : n.isValidChar) : (Char.ofNat n).toNat = n := by
  rw [Char.ofNat, dif_pos h]
  rfl

theorem charToNat_lt (c : Char) : c.toNat < 0x110000 := by
  rcases c.valid with h | h
  · exact Nat.lt_trans h (by decide)
  · exact h.2

theorem isSurrogate_ofNat_char (c : Char) : (ofNat c.toNat).isSurrogate = false := by
  rw [isSurrogate, val_ofNat (charToNat_lt c), Bool.and_eq_false_iff, decide_eq_false_iff_not, decide_eq_false_iff_not]
  rcases c.valid with h | h
  · exact .inl (Nat.not_le_of_lt h)
  · exact .inr (Nat.not_lt_of_le h.1)

theorem isValidChar_of_not_surrogate {p : CodePoint} (h : p.isSurrogate = false) : p.val.isValidChar := by
  have hp := p.isLt
  rw [isSurrogate, Bool.and_eq_false_iff, decide_eq_false_iff_not, decide_eq_false_iff_not] at h
  unfold Nat.isValidChar
  omega

theorem toChar?_eq_some {p : CodePoint} {c : Char} : p.toChar? = some c ↔ p = ofNat c.toNat := by
  unfold toChar?
  cases hs : p.isSurrogate with
  | true =>
    rw [if_pos rfl]
    constructor
    · intro h
      cases h
    · rintro rfl
      rw [isSurrogate_ofNat_char] at hs
      cases hs
  | false =>
    rw [if_neg Bool.false_ne_true, Option.some.injEq]
    constructor
    · rintro rfl
      rw [toNat_charOfNat (isValidChar_of_not_surrogate hs), ofNat_val]
    · rintro rfl
      rw [val_ofNat (charToNat_lt c), Char.ofNat_toNat]

end CodePoint

namespace Text

theorem mapM_toChar?_eq_some : ∀ {t : Text} {cs : List Char},
    t.mapM CodePoint.toChar? = some cs ↔ t = cs.map fun c => CodePoint.ofNat c.toNat
  | [], cs => by cases cs <;> simp
  | p :: t, cs => by
    rw [List.mapM_cons]
    simp only [Option.bind_eq_bind, Option.bind_eq_some_iff, Option.pure_def, Option.some.injEq, mapM_toChar?_eq_some,
      CodePoint.toChar?_eq_some]
    constructor
    · rintro ⟨c, rfl, cs, rfl, rfl⟩
      rfl
    · intro h
      cases cs with
      | nil => cases h
      | cons c cs =>
        obtain ⟨rfl, rfl⟩ := List.cons.inj h
        exact ⟨c, rfl, cs, rfl, rfl⟩

/-- **A text is the text of at most one string.** -/
theorem toString?_eq_some {t : Text} {s : String} : t.toString? = some s ↔ t = ofString s := by
  unfold toString? ofString
  rw [Option.map_eq_some_iff]
  constructor
  · rintro ⟨cs, h, rfl⟩
    rw [String.toList_ofList]
    exact mapM_toChar?_eq_some.1 h
  · rintro rfl
    exact ⟨s.toList, mapM_toChar?_eq_some.2 rfl, String.ofList_toList⟩

end Text

namespace ConstantPool

variable {pool : ConstantPool} {index : UInt16}

/-- What stands at the slot decides how a name index resolves. -/
theorem utf8_eq (pool : ConstantPool) (index : UInt16) :
    pool.utf8 index = match pool.slots[index.toNat]? with
      | some (some (.utf8 t)) =>
        match t.toString? with
        | some s => .ok s
        | none => .error (.notUnicode index)
      | some (some c) => .error (.wrongConstantKind index "Utf8" c.kindName)
      | _ => .error (.invalidConstantIndex index) := by
  unfold utf8 text select get
  cases pool.slots[index.toNat]? with
  | none => rfl
  | some slot =>
    cases slot with
    | none => rfl
    | some c =>
      cases c with
      | member kind owner signature => cases kind <;> rfl
      | _ => rfl

/-- **An index resolves to a string exactly when its slot holds the text of that string.** -/
theorem utf8_eq_ok {name : String} : pool.utf8 index = .ok name ↔ pool.Names index name := by
  rw [utf8_eq, Names]
  split
  · rename_i t hslot
    rw [hslot, Option.some.injEq, Option.some.injEq, Constant.utf8.injEq, ← Text.toString?_eq_some]
    cases t.toString? <;> simp
  · rename_i c hc hslot
    rw [hslot]
    simpa using fun h => hc _ h
  · rename_i hnone _
    simpa using fun h => hnone _ h

/-- **Why an index does not resolve**: nothing stands at its slot, or no text, or a text with a surrogate. -/
theorem utf8_eq_error {e : DecodeError} (h : pool.utf8 index = .error e) :
    (e = .invalidConstantIndex index ∧ ∀ c, pool.slots[index.toNat]? ≠ some (some c)) ∨
    (∃ c, pool.slots[index.toNat]? = some (some c) ∧ (∀ t, c ≠ .utf8 t) ∧
      e = .wrongConstantKind index "Utf8" c.kindName) ∨
    (∃ t, pool.slots[index.toNat]? = some (some (.utf8 t)) ∧ (∀ s, t ≠ Text.ofString s) ∧ e = .notUnicode index) := by
  rw [utf8_eq] at h
  split at h
  · rename_i t hslot
    cases ht : t.toString? with
    | some s =>
      rw [ht] at h
      cases h
    | none =>
      rw [ht] at h
      cases h
      refine .inr (.inr ⟨t, hslot, fun s hs => ?_, rfl⟩)
      rw [Text.toString?_eq_some.2 hs] at ht
      cases ht
  · rename_i c hc hslot
    cases h
    exact .inr (.inl ⟨c, hslot, hc, rfl⟩)
  · rename_i hnone
    cases h
    exact .inl ⟨rfl, hnone⟩

end ConstantPool

end Jvm
