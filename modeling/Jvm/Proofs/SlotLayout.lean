import Jvm.Proofs.PoolEncoding
import Mathlib.Algebra.GroupWithZero.Nat
import Mathlib.Data.List.Chain
/-!
# The slots of a pool

Where constants stand that were read one behind the other.  A wide constant moves all that come behind it by one slot
more, so the place of a constant depends on all kinds before it, and which indices can be looked up does too:
`ConstantPool.decoder_slot_layout`.

Everything follows from how slots are filled (`Fills`), by induction along the slots.  Each statement says what it needs
of the slot in front: that it holds no wide constant.
-/
namespace Jvm

namespace Constant

theorem width_of_takesTwo {c : Constant} (h : c.TakesTwo) : c.width = 2 := by
  obtain ⟨v, rfl⟩ | ⟨bits, rfl⟩ := h <;> rfl

theorem width_of_not_takesTwo {c : Constant} (h : ¬ c.TakesTwo) : c.width = 1 := by
  rw [width, Tag.width, if_neg]
  exact mt isWide_iff.1 h

/-- The slots that the constants take up together. -/
def slotsTaken (cs : List Constant) : Nat := (cs.map width).sum

theorem slotsTaken_cons (c : Constant) (cs : List Constant) : slotsTaken (c :: cs) = c.width + slotsTaken cs := rfl

theorem slotsTaken_concat (cs : List Constant) (c : Constant) : slotsTaken (cs ++ [c]) = slotsTaken cs + c.width := by
  simp [slotsTaken]

/-- The constants with their indices, the first of which is `start`. -/
def placedFrom : (start : Nat) → List Constant → List (Nat × Constant)
  | _, [] => []
  | start, c :: cs => (start, c) :: placedFrom (start + c.width) cs

theorem getElem?_placedFrom : ∀ (cs : List Constant) (start m : Nat),
    (placedFrom start cs)[m]? = cs[m]?.map fun c => (start + slotsTaken (cs.take m), c)
  | [], _, _ => rfl
  | _ :: _, _, 0 => rfl
  | c :: cs, start, m + 1 => by
    rw [placedFrom, List.getElem?_cons_succ, List.getElem?_cons_succ, getElem?_placedFrom cs, List.take_succ_cons,
      slotsTaken_cons, Nat.add_assoc]

theorem getLast?_placedFrom (cs : List Constant) (c : Constant) : ∀ start : Nat,
    (placedFrom start (cs ++ [c])).getLast? = some (start + slotsTaken cs, c) := by
  induction cs with
  | nil => exact fun _ => rfl
  | cons d cs ih =>
    intro start
    rw [List.cons_append, placedFrom, List.getLast?_cons, ih, slotsTaken_cons, Nat.add_assoc]
    rfl

end Constant

namespace ConstantPool

open Constant Decoder

/-! ## Slots that were filled -/

/-- The slot holds a wide constant. -/
def HoldsWide (slot : Option Constant) : Prop := ∃ c, slot = some c ∧ c.TakesTwo

theorem not_holdsWide_none : ¬ HoldsWide none := fun ⟨_, h, _⟩ => nomatch h

theorem holdsWide_some {c : Constant} : HoldsWide (some c) ↔ c.TakesTwo := by
  constructor
  · rintro ⟨c', hc, two⟩
    rwa [Option.some.inj hc]
  · exact fun two => ⟨c, rfl, two⟩

namespace Fills

variable {n : Nat} {slots : List (Option Constant)} {bytes : Bytes}

theorem length (h : Fills n slots bytes) : slots.length = n := by
  induction h with
  | done => rfl
  | narrow _ _ _ ih => rw [List.length_cons, ih]
  | wide _ _ _ ih => rw [List.length_cons, List.length_cons, ih]
  | wideLast _ _ => rfl

theorem inOrder (h : Fills n slots bytes) : InOrder Constant.Spelled (slots.filterMap id) bytes := by
  induction h with
  | done => exact .nil
  | narrow _ head _ ih => exact .cons head ih
  | wide _ head _ ih => exact .cons head ih
  | wideLast _ head =>
    have hlast := InOrder.cons head .nil
    rwa [List.append_nil] at hlast

/-- **A slot is empty exactly if there is a wide constant in front.** -/
theorem empties (h : Fills n slots bytes) : ∀ {before : Option Constant}, ¬ HoldsWide before →
    List.IsChain (fun slot next => next = none ↔ HoldsWide slot) (before :: slots) := by
  induction h with
  | done => exact fun _ => .singleton _
  | narrow one _ _ ih =>
    intro before hbefore
    exact .cons_cons (iff_of_false (Option.some_ne_none _) hbefore) (ih (mt holdsWide_some.1 one))
  | wide two _ _ ih =>
    intro before hbefore
    refine .cons_cons (iff_of_false (Option.some_ne_none _) hbefore) ?_
    exact .cons_cons (iff_of_true rfl (holdsWide_some.2 two)) (ih not_holdsWide_none)
  | wideLast _ _ =>
    intro before hbefore
    exact .cons_cons (iff_of_false (Option.some_ne_none _) hbefore) (.singleton _)

/-- **The constants stand where the widths of those before them say.** -/
theorem placed (h : Fills n slots bytes) : ∀ start : Nat,
    ((slots.zipIdx start).filterMap fun (slot, index) => slot.map fun c => (index, c)) =
      placedFrom start (slots.filterMap id) := by
  induction h with
  | done => exact fun _ => rfl
  | @narrow _ c slots _ _ one _ _ ih =>
    intro start
    have hplaced : placedFrom start ((some c :: slots).filterMap id) =
        (start, c) :: placedFrom (start + c.width) (slots.filterMap id) := rfl
    rw [hplaced, width_of_not_takesTwo one, ← ih]
    rfl
  | @wide _ c slots _ _ two _ _ ih =>
    intro start
    have hplaced : placedFrom start ((some c :: none :: slots).filterMap id) =
        (start, c) :: placedFrom (start + c.width) (slots.filterMap id) := rfl
    rw [hplaced, width_of_takesTwo two, ← ih]
    rfl
  | wideLast _ _ => exact fun _ => rfl

/-- **The constants take up the slots there are**, or one more, which is that of a wide constant at the end. -/
theorem slotsTaken_cases (h : Fills n slots bytes) : slotsTaken (slots.filterMap id) = n ∨
    slotsTaken (slots.filterMap id) = n + 1 ∧ ∃ cs c, slots.filterMap id = cs ++ [c] ∧ c.TakesTwo := by
  induction h with
  | done => exact .inl rfl
  | @narrow n c slots _ _ one _ _ ih =>
    have htaken : slotsTaken ((some c :: slots).filterMap id) = 1 + slotsTaken (slots.filterMap id) := by
      rw [← width_of_not_takesTwo one]
      rfl
    rcases ih with hfull | ⟨hover, cs, last, hcs, two⟩
    · exact .inl (by omega)
    · exact .inr ⟨by omega, c :: cs, last, congrArg (c :: ·) hcs, two⟩
  | @wide n c slots _ _ two _ _ ih =>
    have htaken : slotsTaken ((some c :: none :: slots).filterMap id) = 2 + slotsTaken (slots.filterMap id) := by
      rw [← width_of_takesTwo two]
      rfl
    rcases ih with hfull | ⟨hover, cs, last, hcs, htwo⟩
    · exact .inl (by omega)
    · exact .inr ⟨by omega, c :: cs, last, congrArg (c :: ·) hcs, htwo⟩
  | @wideLast c _ two _ => exact .inr ⟨width_of_takesTwo two, [], c, rfl, two⟩

end Fills

/-! ## Looking up -/

theorem get_eq_ok {pool : ConstantPool} {index : UInt16} {c : Constant} :
    pool.get index = .ok c ↔ pool.slots[index.toNat]? = some (some c) := by
  rw [get]
  rcases pool.slots[index.toNat]? with _ | _ | c' <;> simp

theorem get_of_not_ok {pool : ConstantPool} {index : UInt16} (h : ¬ ∃ c, pool.get index = .ok c) :
    pool.get index = .error (.invalidConstantIndex index) := by
  rcases hslot : pool.slots[index.toNat]? with _ | _ | c
  · rw [get, hslot]
  · rw [get, hslot]
  · exact absurd ⟨c, get_eq_ok.2 hslot⟩ h

theorem mem_entries {pool : ConstantPool} {index : Nat} {c : Constant} :
    (index, c) ∈ pool.entries ↔ pool.slots[index]? = some (some c) := by
  simp only [entries, List.mem_filterMap, Prod.exists, List.mk_mem_zipIdx_iff_getElem?, Option.map_eq_some_iff,
    Prod.mk.injEq]
  constructor
  · rintro ⟨slot, i, hslot, c', rfl, rfl, rfl⟩
    rwa [Array.getElem?_toList] at hslot
  · intro hslot
    exact ⟨some c, index, by rwa [Array.getElem?_toList], c, rfl, rfl, rfl⟩

theorem pairwise_entries (pool : ConstantPool) : pool.entries.Pairwise (·.1 < ·.1) := by
  have hindices : (pool.slots.toList.zipIdx.map Prod.snd).Pairwise (· < ·) := by
    rw [List.zipIdx_map_snd]
    exact List.pairwise_lt_range'
  refine (List.pairwise_map.1 hindices).filterMap _ ?_
  rintro ⟨slot, i⟩ ⟨slot', j⟩ hlt entry hentry entry' hentry'
  obtain ⟨c, -, rfl⟩ := Option.map_eq_some_iff.1 hentry
  obtain ⟨c', -, rfl⟩ := Option.map_eq_some_iff.1 hentry'
  exact hlt

section Filled

variable {count : UInt16} {slots : List (Option Constant)} {bytes : Bytes}

theorem entries_of_fills {n : Nat} (h : Fills n slots bytes) :
    entries ⟨count, (none :: slots).toArray⟩ = placedFrom 1 (slots.filterMap id) := h.placed 1

/-- **An index can be looked up if it is in range and not behind a wide constant.** -/
theorem get_of_fills (h : Fills (count.toNat - 1) slots bytes) (index : UInt16) :
    (∃ c, get ⟨count, (none :: slots).toArray⟩ index = .ok c) ↔ 1 ≤ index.toNat ∧ index.toNat < count.toNat ∧
      ¬ ∃ c, (none :: slots).toArray[index.toNat - 1]? = some (some c) ∧ c.TakesTwo := by
  have hlength := h.length
  have hempties := List.isChain_iff_getElem.1 (h.empties not_holdsWide_none)
  simp only [get_eq_ok, List.getElem?_toArray]
  cases hindex : index.toNat with
  | zero => simp
  | succ i =>
    rw [Nat.add_sub_cancel]
    by_cases hlt : i + 1 < (none :: slots).length
    · have hin : i + 1 < count.toNat := by
        rw [List.length_cons] at hlt
        omega
      have hempty := hempties i hlt
      rw [List.getElem?_eq_getElem hlt, List.getElem?_eq_getElem (Nat.lt_of_succ_lt hlt)]
      simp only [Option.some.injEq, hin, Nat.le_add_left, true_and, ← Option.ne_none_iff_exists']
      exact not_congr hempty
    · rw [List.getElem?_eq_none (Nat.le_of_not_lt hlt)]
      refine iff_of_false (fun ⟨_, h⟩ => nomatch h) fun ⟨_, hin, _⟩ => hlt ?_
      rw [List.length_cons]
      omega

/-- **The constants take up one slot more than there are exactly if the last of them is wide and in the last slot.** -/
theorem slotsTaken_eq_iff {n : Nat} (h : Fills n slots bytes) : slotsTaken (slots.filterMap id) = n + 1 ↔
    ∃ c, (placedFrom 1 (slots.filterMap id)).getLast? = some (n, c) ∧ c.TakesTwo := by
  constructor
  · intro hover
    rcases h.slotsTaken_cases with hfull | ⟨-, cs, c, hcs, two⟩
    · omega
    · rw [hcs, slotsTaken_concat, width_of_takesTwo two] at hover
      refine ⟨c, ?_, two⟩
      rw [hcs, getLast?_placedFrom, show 1 + slotsTaken cs = n by omega]
  · rintro ⟨c, hlast, two⟩
    rcases List.eq_nil_or_concat (slots.filterMap id) with hnil | ⟨cs, c', hcs⟩
    · rw [hnil] at hlast
      cases hlast
    · rw [List.concat_eq_append] at hcs
      rw [hcs, getLast?_placedFrom] at hlast
      cases hlast
      rw [hcs, slotsTaken_concat, width_of_takesTwo two]
      omega

theorem index_lt_of_fills (h : Fills (count.toNat - 1) slots bytes) {entry : Nat × Constant}
    (hentry : entry ∈ entries ⟨count, (none :: slots).toArray⟩) : entry.1 < 2 ^ 16 := by
  have hlength := h.length
  have hcount := count.toNat_lt
  have hslot := mem_entries.1 hentry
  rw [List.getElem?_toArray] at hslot
  obtain ⟨hlt, -⟩ := List.getElem?_eq_some_iff.1 hslot
  rw [List.length_cons] at hlt
  omega

end Filled

/-- **Where the constants of a pool stand**: each behind those that were read before it, a wide one with an empty slot
behind it unless it is in the last slot. -/
theorem decoder_slot_layout (c : Cursor) (pool : ConstantPool) (decoded : (decoder.runAt c).result = .ok pool) :
    -- the constants in the order of their indices are those that were read, in the order in which they were read
    (∃ stream, c.Took (be2 pool.count ++ stream) (decoder.runAt c).cursor ∧
      InOrder Constant.Spelled (pool.entries.map Prod.snd) stream) ∧
    (∀ m index k, pool.entries[m]? = some (index, k) → index = 1 + slotsTaken ((pool.entries.take m).map Prod.snd)) ∧
    (∀ index : UInt16,
      ((∃ k, pool.get index = .ok k) ↔ 1 ≤ index.toNat ∧ index.toNat < pool.count.toNat ∧
        ¬ ∃ k, pool.slots[index.toNat - 1]? = some (some k) ∧ k.TakesTwo) ∧
      ((¬ ∃ k, pool.get index = .ok k) → pool.get index = .error (.invalidConstantIndex index))) ∧
    (∀ index k, (index, k) ∈ pool.entries ↔ pool.slots[index]? = some (some k)) ∧
    pool.entries.Pairwise (·.1 < ·.1) ∧
    (∀ entry ∈ pool.entries, (UInt16.ofNat entry.1).toNat = entry.1) ∧
    (1 ≤ pool.count.toNat →
      (slotsTaken (pool.entries.map Prod.snd) = pool.count.toNat ↔
        ∃ k, pool.entries.getLast? = some (pool.count.toNat - 1, k) ∧ k.TakesTwo) ∧
      (slotsTaken (pool.entries.map Prod.snd) ≠ pool.count.toNat →
        slotsTaken (pool.entries.map Prod.snd) = pool.count.toNat - 1)) ∧
    (pool.count.toNat = 0 → pool.entries = []) := by
  obtain ⟨t, hd⟩ := runAt_result_eq_ok.1 decoded
  have hcursor : (decoder.runAt c).cursor = t.cursor := by rw [runAt, hd]
  obtain ⟨taken, htook, hspelled⟩ := reads_decoder.spans hd
  obtain @⟨count, slots, stream, fills⟩ := hspelled
  have hsnd : (entries ⟨count, (none :: slots).toArray⟩).map Prod.snd = slots.filterMap id := map_snd_entries _
  refine ⟨⟨stream, hcursor ▸ htook, hsnd ▸ fills.inOrder⟩, ?_, fun index => ⟨get_of_fills fills index, get_of_not_ok⟩,
    fun index k => mem_entries, pairwise_entries _, ?_, ?_, ?_⟩
  · intro m index k hentry
    rw [List.map_take, hsnd]
    rw [entries_of_fills fills, getElem?_placedFrom] at hentry
    obtain ⟨k', -, hplace⟩ := Option.map_eq_some_iff.1 hentry
    exact (Prod.mk.inj hplace).1.symm
  · intro entry hentry
    exact UInt16.toNat_ofNat_of_lt' (index_lt_of_fills fills hentry)
  · intro hcount
    have hiff := slotsTaken_eq_iff fills
    rw [Nat.sub_add_cancel hcount] at hiff
    rw [hsnd, entries_of_fills fills]
    refine ⟨hiff, fun hother => ?_⟩
    rcases fills.slotsTaken_cases with hfull | ⟨hover, -⟩
    · exact hfull
    · exact absurd (hover.trans (Nat.sub_add_cancel hcount)) hother
  · intro hcount
    have hlength := fills.length
    have hnone : slots = [] := by
      apply List.eq_nil_of_length_eq_zero
      rw [hlength]
      exact Nat.sub_eq_zero_of_le (hcount ▸ Nat.zero_le 1)
    rw [entries_of_fills fills, hnone]
    rfl

/-- Two wide constants, one of them in the last slot, and two others between them. -/
def wideBytes : Bytes :=
  [0, 6, 5, 255, 255, 255, 255, 255, 255, 255, 254, 3, 0, 0, 0, 1, 7, 0, 9, 6, 0x3F, 0xF0, 0, 0, 0, 0, 0, 0, 2]

def widePool : ConstantPool :=
  ⟨6, #[none, some (.long (-2)), none, some (.integer 1), some (.classRef 9), some (.double 0x3FF0000000000000)]⟩

/-- There is nothing behind the first wide constant; the second is looked up, and there is nothing behind it either. -/
theorem widePool_layout :
    (decoder.runAt (.ofBytes wideBytes)).result = .ok widePool ∧
      widePool.get 2 = .error (.invalidConstantIndex 2) ∧ (∃ k, widePool.get 3 = .ok k) ∧
      (∃ k, widePool.get 5 = .ok k) ∧
      widePool.get 6 = .error (.invalidConstantIndex 6) ∧ slotsTaken (widePool.entries.map Prod.snd) = 6 := by
  have hok : (decoder.runAt (.ofBytes wideBytes)).result = .ok widePool := by decide +kernel
  obtain ⟨-, -, hget, -, -, -, hsum, -⟩ := decoder_slot_layout (.ofBytes wideBytes) widePool hok
  have hnarrow : ∀ {c : Constant}, c.width = 1 → ¬ c.TakesTwo := fun hwidth two => by
    rw [width_of_takesTwo two] at hwidth
    cases hwidth
  refine ⟨hok, ?_, ?_, ?_, ?_, ?_⟩
  · exact (hget 2).2 fun h => ((hget 2).1.1 h).2.2 ⟨_, rfl, .inl ⟨_, rfl⟩⟩
  · exact (hget 3).1.2 ⟨by decide, by decide, fun ⟨k, hk, _⟩ => nomatch hk⟩
  · refine (hget 5).1.2 ⟨by decide, by decide, fun ⟨k, hk, two⟩ => ?_⟩
    cases hk
    exact hnarrow rfl two
  · exact (hget 6).2 fun h => absurd ((hget 6).1.1 h).2.1 (by decide)
  · exact (hsum (by decide)).1.2 ⟨_, rfl, .inr ⟨_, rfl⟩⟩

end ConstantPool

end Jvm
