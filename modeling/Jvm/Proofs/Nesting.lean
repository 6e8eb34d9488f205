import Jvm.ClassFile.Basic
import Jvm.Proofs.Reads
/-!
# The bound on nesting is never met

Attributes are decoded with a bound on the depth to which method bodies are nested in each other, and the bound is found
from the length of a window.  Here it is shown to make no difference: a list of attributes decodes as if it called
itself without any bound (`Attribute.decoder_eq`).  Two decoders of nested lists that agree on short windows give
decoders of lists that agree on windows eighteen bytes longer, and everything else follows from that.
-/
namespace Jvm

namespace Decoder

variable {α β : Type}

/-- The two decoders do the same wherever fewer than `k` bytes are left. -/
def AgreeBelow (k : Nat) (d d' : Decoder α) : Prop := ∀ s, s.cursor.remaining < k → d s = d' s

/-- The decoder takes at least `n` bytes when it succeeds. -/
def Takes (n : Nat) (d : Decoder α) : Prop := ∀ s a t, d s = .ok a t → t.cursor.remaining + n ≤ s.cursor.remaining

theorem Reads.takes {d : Decoder α} {R : Spelling α} {n : Nat} (h : Reads d R)
    (hR : ∀ a bytes, R a bytes → n ≤ bytes.length) :
    Takes n d := by
  intro s a t hd
  obtain ⟨taken, ht, hr⟩ := h.spans hd
  have hlen := hR a taken hr
  have hrem := ht.remaining
  omega

theorem Composed.takes {d : Decoder α} (h : Composed d) : Takes 0 d := by
  intro s a t hd
  obtain ⟨taken, ht⟩ := (h.took s).1 a t hd
  have hrem := ht.remaining
  omega

theorem takes_u2 : Takes 2 u2 := Reads.u2.takes fun v bytes h => by rw [h, length_be2]

theorem takes_u4 : Takes 4 u4 := Reads.u4.takes fun v bytes h => by rw [h, length_be4]

theorem takes_counted {d : Decoder α} (h : Composed d) : Takes 2 (counted d) := by
  intro s xs t ht
  obtain ⟨n, u, hn, hxs⟩ := bind_eq_ok.1 ht
  have hu := takes_u2 s n u hn
  have ht := (h.times n.toNat).takes u xs t hxs
  omega

namespace AgreeBelow

variable {k n : Nat} {d d' : Decoder α} {f f' : α → Decoder β}

theorem refl (k : Nat) (d : Decoder α) : AgreeBelow k d d := fun _ _ => rfl

theorem symm (h : AgreeBelow k d d') : AgreeBelow k d' d := fun s hs => (h s hs).symm

theorem mono {k' : Nat} (h : AgreeBelow k d d') (hk : k' ≤ k) : AgreeBelow k' d d' :=
  fun s hs => h s (Nat.lt_of_lt_of_le hs hk)

/-- **What is taken in front counts towards the agreement.** -/
theorem bind (hd : AgreeBelow (k + n) d d') (hn : Takes n d) (hf : ∀ a, AgreeBelow k (f a) (f' a)) :
    AgreeBelow (k + n) (d >>= f) (d' >>= f') := by
  intro s hs
  show EStateM.bind d f s = EStateM.bind d' f' s
  unfold EStateM.bind
  rw [← hd s hs]
  cases hds : d s with
  | ok a t =>
    have ht := hn s a t hds
    exact hf a t (by omega)
  | error e t => rfl

theorem after (hn : Takes n d) (hf : ∀ a, AgreeBelow k (f a) (f' a)) : AgreeBelow (k + n) (d >>= f) (d >>= f') :=
  (refl (k + n) d).bind hn hf

theorem before (hd : AgreeBelow k d d') : AgreeBelow k (d >>= f) (d' >>= f) := by
  intro s hs
  show EStateM.bind d f s = EStateM.bind d' f s
  unfold EStateM.bind
  rw [hd s hs]

theorem times (hd : AgreeBelow k d d') (h0 : Takes 0 d) : ∀ n, AgreeBelow k (Decoder.times d n) (Decoder.times d' n)
  | 0 => refl k _
  | n + 1 => by
    rw [times_succ, times_succ]
    exact bind (n := 0) hd h0 fun x => (times hd h0 n).before

theorem counted (hd : AgreeBelow k d d') (h0 : Takes 0 d) :
    AgreeBelow (k + 2) (Decoder.counted d) (Decoder.counted d') :=
  after takes_u2 fun n => hd.times h0 n.toNat

/-- In a window only the length of the window matters. -/
theorem inside (hd : AgreeBelow k d d') (w : Cursor) (hw : w.remaining < k) :
    Decoder.inside w d = Decoder.inside w d' := by
  funext s
  unfold Decoder.inside
  rw [hd ⟨w, s.events⟩ hw]

end AgreeBelow

end Decoder

/-! ## Method bodies and attributes are composed -/

open Decoder

theorem ExceptionHandler.plain_decoder : Plain ExceptionHandler.decoder :=
  .bind .u2 fun _ => .bind .u2 fun _ => .bind .u2 fun _ => .bind .u2 fun _ => .pure _

theorem ExceptionHandler.composed_decoder : Composed ExceptionHandler.decoder := ExceptionHandler.plain_decoder.composed

theorem Code.composed_decoder {nested : Decoder (List Attribute)} (h : Composed nested) :
    Composed (Code.decoder nested) :=
  .bind .u2 fun _ => .bind .u2 fun _ => .bind .u4 fun length => .bind (.bytes length.toNat) fun _ =>
    .bind (.counted ExceptionHandler.composed_decoder) fun _ => .bind h fun _ => .pure _

namespace Attribute

theorem composed_codeIn {nested : Decoder (List Attribute)} (h : Composed nested) (length : UInt32) :
    Composed (codeIn length nested) :=
  .bind (.window length.toNat) fun w => .bind (.inside w (Code.composed_decoder h)) fun r => by
    dsimp only
    split
    · exact .pure _
    · exact .throw _

theorem composed_skip (name : String) (length : UInt32) : Composed (skip name length) :=
  .bind (.window length.toNat) fun _ => .bind (.report _) fun _ => .pure _

theorem composed_record {nested : Nat → Decoder (List Attribute)} (h : ∀ length, Composed (nested length))
    (pool : ConstantPool) : Composed (record pool nested) :=
  .bind .u2 fun index => .bind (.ofExcept (pool.utf8 index)) fun name => .bind .u4 fun length => by
    split
    · exact composed_codeIn (h length.toNat) length
    · exact composed_skip name length

theorem composed_listUpTo (pool : ConstantPool) : ∀ levels, Composed (listUpTo pool levels)
  | 0 => .pure _
  | levels + 1 => .counted (composed_record (fun _ => composed_listUpTo pool levels) pool)

theorem composed_decoder (pool : ConstantPool) : Composed (decoder pool) :=
  composed_record (fun _ => composed_listUpTo pool _) pool

theorem composed_listDecoder (pool : ConstantPool) : Composed (listDecoder pool) := .counted (composed_decoder pool)

/-! ## Agreement on longer windows -/

variable {k : Nat}

/-- Ten bytes stand in front of the attributes of a method body. -/
theorem code_agree {nested nested' : Decoder (List Attribute)} (h : AgreeBelow k nested nested') :
    AgreeBelow (k + 10) (Code.decoder nested) (Code.decoder nested') := by
  refine AgreeBelow.after (k := k + 8) takes_u2 fun maxStack => ?_
  refine AgreeBelow.after (k := k + 6) takes_u2 fun maxLocals => ?_
  refine AgreeBelow.after (k := k + 2) takes_u4 fun length => ?_
  refine AgreeBelow.after (k := k + 2) (Composed.bytes length.toNat).takes fun code => ?_
  exact AgreeBelow.after (takes_counted ExceptionHandler.composed_decoder) fun handlers => h.before

/-- A method body fits into its window, so only shorter nested lists matter. -/
theorem codeIn_agree {nested nested' : Decoder (List Attribute)} {length : UInt32}
    (h : AgreeBelow (length.toNat - 9) nested nested') :
    codeIn length nested = codeIn length nested' := by
  funext s
  show EStateM.bind _ _ s = EStateM.bind _ _ s
  unfold EStateM.bind
  cases hw : window length.toNat s with
  | ok w t =>
    have hlen : w.remaining < length.toNat - 9 + 10 := by
      have := (window_eq_ok.1 hw).1
      omega
    show (inside w _ >>= _) t = (inside w _ >>= _) t
    rw [(code_agree h).inside w hlen]
  | error e t => rfl

/-- Six bytes stand in front of the window of an attribute. -/
theorem record_agree {nested nested' : Nat → Decoder (List Attribute)} (pool : ConstantPool)
    (h : ∀ length, length < k → AgreeBelow (length - 9) (nested length) (nested' length)) :
    AgreeBelow (k + 6) (record pool nested) (record pool nested') := by
  refine AgreeBelow.after (k := k + 4) takes_u2 fun index => ?_
  refine AgreeBelow.after (k := k + 4) (Composed.ofExcept (pool.utf8 index)).takes fun name => ?_
  refine AgreeBelow.after takes_u4 fun length => ?_
  by_cases hcode : name = codeName
  · rw [if_pos hcode, if_pos hcode]
    by_cases hlen : length.toNat < k
    · rw [codeIn_agree (h length.toNat hlen)]
      exact .refl k _
    · -- a window that long cannot be cut out, whatever it holds
      intro s hs
      show EStateM.bind _ _ s = EStateM.bind _ _ s
      unfold EStateM.bind
      rw [window_eq_error.2 ⟨by omega, rfl, rfl⟩]
  · rw [if_neg hcode, if_neg hcode]
    exact .refl k _

/-- **A nested list is at least eighteen bytes shorter than the list it is nested in.** -/
theorem list_agree {nested nested' : Nat → Decoder (List Attribute)} (pool : ConstantPool)
    (hc : ∀ length, Composed (nested length))
    (h : ∀ length, length < k + 10 → AgreeBelow (length - 9) (nested length) (nested' length)) :
    AgreeBelow (k + 18) (counted (record pool nested)) (counted (record pool nested')) :=
  (record_agree pool h).counted (composed_record hc pool).takes

/-! ## Any bound that leaves room -/

theorem listUpTo_agree (pool : ConstantPool) : ∀ {m n : Nat}, m ≤ n →
    AgreeBelow (18 * m) (listUpTo pool m) (listUpTo pool n)
  | 0, _, _ => fun s hs => absurd hs (Nat.not_lt_zero _)
  | m + 1, n + 1, h =>
    list_agree (k := 18 * m) pool (fun _ => composed_listUpTo pool m) fun length hlen =>
      (listUpTo_agree pool (Nat.le_of_succ_le_succ h)).mono (by omega)

theorem listUpTo_agree_levels (pool : ConstantPool) (n length : Nat) (h : length - 9 ≤ 18 * n) :
    AgreeBelow (length - 9) (listUpTo pool n) (listUpTo pool (levels length)) := by
  have hlevels : length - 9 ≤ 18 * levels length := by
    unfold levels
    omega
  rcases Nat.le_total n (levels length) with hle | hle
  · exact (listUpTo_agree pool hle).mono h
  · exact (listUpTo_agree pool hle).symm.mono hlevels

/-- **The bound makes no difference** to a list that has room for no more than that many levels. -/
theorem listUpTo_agree_listDecoder (pool : ConstantPool) : ∀ n, AgreeBelow (18 * n) (listUpTo pool n) (listDecoder pool)
  | 0 => fun s hs => absurd hs (Nat.not_lt_zero _)
  | n + 1 => list_agree (k := 18 * n) pool (fun _ => composed_listUpTo pool n) fun length hlen =>
    listUpTo_agree_levels pool n length (by omega)

/-- **An attribute decodes its nested attributes by the very decoder of lists**, at any depth. -/
theorem decoder_eq (pool : ConstantPool) : decoder pool = record pool fun _ => listDecoder pool := by
  funext s
  refine record_agree (k := s.cursor.remaining) pool (fun length _ => ?_) s (by omega)
  refine (listUpTo_agree_listDecoder pool (levels length)).mono ?_
  unfold levels
  omega

end Attribute

end Jvm
