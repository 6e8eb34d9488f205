import Jvm.Proofs.BigEndian
import Jvm.Proofs.DecoderLaws
import Jvm.Proofs.Grammar
/-!
# Decoders and spellings

A decoder *reads* a spelling when it succeeds exactly on the byte strings that spell something, with the value that is
spelled, and stops right behind it.  This is one statement with two directions: nothing is accepted that is not spelled,
and whatever is spelled is accepted, with any bytes behind it.  It survives composition, so that each decoder's spelling
is found from the spellings of its parts.
-/
namespace Jvm

/-- A value is spelled between two cursors of a reader. -/
def Spans {α : Type} (spelling : Spelling α) (a : α) (c c' : Cursor) : Prop :=
  ∃ taken, c.Took taken c' ∧ spelling a taken

namespace Spans

variable {α : Type} {R : Spelling α} {a : α}

/-- A spelled byte string as a whole buffer. -/
theorem ofBytes_iff {bytes : Bytes} {offset : Nat} :
    Spans R a (.ofBytes bytes) ⟨offset, []⟩ ↔ R a bytes ∧ offset = bytes.length := by
  constructor
  · rintro ⟨taken, ⟨hb, ho⟩, hr⟩
    obtain rfl : bytes = taken := by simpa [Cursor.ofBytes] using hb
    exact ⟨hr, by simpa [Cursor.ofBytes] using ho⟩
  · rintro ⟨hr, rfl⟩
    exact ⟨bytes, ⟨by simp [Cursor.ofBytes], by simp [Cursor.ofBytes]⟩, hr⟩

end Spans

namespace Decoder

variable {α β : Type}

/-- **The decoder accepts exactly what is spelled**, and stops right behind it. -/
def Reads (d : Decoder α) (R : Spelling α) : Prop :=
  ∀ (s : DecodeState) (a : α) (c : Cursor), (∃ events, d s = .ok a ⟨c, events⟩) ↔ Spans R a s.cursor c

namespace Reads

variable {d : Decoder α} {f : α → Decoder β} {R R' : Spelling α}

theorem spans (h : Reads d R) {s t : DecodeState} {a : α} (hd : d s = .ok a t) : Spans R a s.cursor t.cursor :=
  (h s a t.cursor).1 ⟨t.events, hd⟩

theorem congr (h : Reads d R) (hR : ∀ a bytes, R a bytes ↔ R' a bytes) : Reads d R' := by
  have : R = R' := by
    funext a bytes
    exact propext (hR a bytes)
  exact this ▸ h

theorem pure (a : α) : Reads (Pure.pure a) fun x bytes => x = a ∧ bytes = [] := by
  intro s x c
  constructor
  · rintro ⟨events, h⟩
    obtain ⟨rfl, hs⟩ := pure_eq_ok.1 h
    exact ⟨[], by simp [← hs], rfl, rfl⟩
  · rintro ⟨_, ht, rfl, rfl⟩
    exact ⟨s.events, by simp [Cursor.Took.nil_iff.1 ht]⟩

theorem throw (e : DecodeError) : Reads (MonadExcept.throw e : Decoder α) fun _ _ => False := by
  intro s a c
  constructor
  · rintro ⟨events, h⟩
    exact absurd h throw_ne_ok
  · rintro ⟨_, -, h⟩
    exact h.elim

theorem bytes (n : Nat) : Reads (Decoder.bytes n) fun bs bytes => bs.length = n ∧ bytes = bs := by
  intro s bs c
  constructor
  · rintro ⟨events, h⟩
    obtain ⟨hn, ht, -⟩ := bytes_eq_ok.1 h
    exact ⟨bs, ht, hn, rfl⟩
  · rintro ⟨_, ht, hn, rfl⟩
    exact ⟨s.events, bytes_eq_ok.2 ⟨hn, ht, rfl⟩⟩

/-- **One decoder behind another** reads the one spelling behind the other. -/
theorem bind {S : α → Spelling β} (hd : Reads d R) (hf : ∀ a, Reads (f a) (S a)) :
    Reads (d >>= f) fun b bytes => ∃ a first rest, R a first ∧ S a b rest ∧ bytes = first ++ rest := by
  intro s b c
  constructor
  · rintro ⟨events, h⟩
    obtain ⟨a, u, hdu, hfu⟩ := bind_eq_ok.1 h
    obtain ⟨first, h₁, hR⟩ := hd.spans hdu
    obtain ⟨rest, h₂, hS⟩ := (hf a).spans hfu
    exact ⟨first ++ rest, h₁.trans h₂, a, first, rest, hR, hS, rfl⟩
  · rintro ⟨_, ht, a, first, rest, hR, hS, rfl⟩
    obtain ⟨c₁, h₁, h₂⟩ := Cursor.Took.append_iff.1 ht
    obtain ⟨events₁, hdu⟩ := (hd s a c₁).2 ⟨first, h₁, hR⟩
    obtain ⟨events₂, hfu⟩ := (hf a ⟨c₁, events₁⟩ b c).2 ⟨rest, h₂, hS⟩
    exact ⟨events₂, bind_eq_ok.2 ⟨a, ⟨c₁, events₁⟩, hdu, hfu⟩⟩

/-- A value with one spelling, and something behind it. -/
theorem field {bytesOf : α → Bytes} {S : α → Spelling β} (hd : Reads d fun a bytes => bytes = bytesOf a)
    (hf : ∀ a, Reads (f a) (S a)) :
    Reads (d >>= f) fun b bytes => ∃ a rest, S a b rest ∧ bytes = bytesOf a ++ rest :=
  (hd.bind hf).congr fun b bytes => by
    constructor
    · rintro ⟨a, _, rest, rfl, hS, rfl⟩
      exact ⟨a, rest, hS, rfl⟩
    · rintro ⟨a, rest, hS, rfl⟩
      exact ⟨a, _, rest, rfl, hS, rfl⟩

/-- A value computed from what was read. -/
theorem map (hd : Reads d R) (g : α → β) :
    Reads (d >>= fun a => Pure.pure (g a)) fun b bytes => ∃ a, b = g a ∧ R a bytes :=
  (hd.bind fun a => pure (g a)).congr fun b bytes => by
    constructor
    · rintro ⟨a, first, _, hR, ⟨rfl, rfl⟩, rfl⟩
      exact ⟨a, rfl, by simpa using hR⟩
    · rintro ⟨a, rfl, hR⟩
      exact ⟨a, bytes, [], hR, ⟨rfl, rfl⟩, by simp⟩

/-- A report reads nothing. -/
theorem report {g : Decoder β} {S : Spelling β} (e : DecodeEvent) (h : Reads g S) :
    Reads (Decoder.report e >>= fun _ => g) S := by
  intro s b c
  exact h { s with events := s.events.push e } b c

/-- To ask for the offset reads nothing. -/
theorem offset {g : Nat → Decoder β} {S : Spelling β} (h : ∀ n, Reads (g n) S) : Reads (Decoder.offset >>= g) S := by
  intro s b c
  exact h s.cursor.offset s b c

/-! ### Numbers -/

theorem number (n : Nat) : Reads (Decoder.number n) fun v bytes => bytes.length = n ∧ v = beNat bytes :=
  ((bytes n).map beNat).congr fun v bytes => by
    constructor
    · rintro ⟨_, rfl, hn, rfl⟩
      exact ⟨hn, rfl⟩
    · rintro ⟨hn, rfl⟩
      exact ⟨bytes, rfl, hn, rfl⟩

/-- A number of fixed width, whatever type holds it. -/
theorem word {ω : Type} {width : Nat} {ofNat : Nat → ω} {toNat : ω → Nat} (hlt : ∀ v, toNat v < 256 ^ width)
    (hto : ∀ n, n < 256 ^ width → toNat (ofNat n) = n) (hof : ∀ v, ofNat (toNat v) = v) :
    Reads (Decoder.number width >>= fun n => Pure.pure (ofNat n)) fun v bytes => bytes = beBytes width (toNat v) :=
  ((number width).map ofNat).congr fun v bytes => by
    rw [eq_beBytes_iff (hlt v)]
    constructor
    · rintro ⟨_, rfl, rfl, rfl⟩
      exact ⟨rfl, (hto _ (beNat_lt bytes)).symm⟩
    · rintro ⟨rfl, hv⟩
      exact ⟨beNat bytes, by rw [hv, hof], rfl, rfl⟩

theorem u1 : Reads Decoder.u1 fun v bytes => bytes = be1 v :=
  word (fun v => v.toNat_lt) (fun _ h => UInt8.toNat_ofNat_of_lt' h) fun _ => UInt8.ofNat_toNat

theorem u2 : Reads Decoder.u2 TwoBytes :=
  word (fun v => v.toNat_lt) (fun _ h => UInt16.toNat_ofNat_of_lt' h) fun _ => UInt16.ofNat_toNat

theorem u4 : Reads Decoder.u4 fun v bytes => bytes = be4 v :=
  word (fun v => v.toNat_lt) (fun _ h => UInt32.toNat_ofNat_of_lt' h) fun _ => UInt32.ofNat_toNat

theorem u8 : Reads Decoder.u8 fun v bytes => bytes = be8 v :=
  word (fun v => v.toNat_lt) (fun _ h => UInt64.toNat_ofNat_of_lt' h) fun _ => UInt64.ofNat_toNat

theorem i4 : Reads Decoder.i4 fun v bytes => bytes = be4 v.toUInt32 :=
  (u4.map UInt32.toInt32).congr fun v bytes => by
    constructor
    · rintro ⟨n, rfl, h⟩
      exact h
    · intro h
      exact ⟨v.toUInt32, rfl, h⟩

theorem i8 : Reads Decoder.i8 fun v bytes => bytes = be8 v.toUInt64 :=
  (u8.map UInt64.toInt64).congr fun v bytes => by
    constructor
    · rintro ⟨n, rfl, h⟩
      exact h
    · intro h
      exact ⟨v.toUInt64, rfl, h⟩

/-! ### Repetition and windows -/

theorem times (hd : Reads d R) : ∀ n, Reads (Decoder.times d n) fun xs bytes => xs.length = n ∧ InOrder R xs bytes
  | 0 => (pure []).congr fun xs bytes => by
    constructor
    · rintro ⟨rfl, rfl⟩
      exact ⟨rfl, .nil⟩
    · rintro ⟨hn, h⟩
      cases h with
      | nil => exact ⟨rfl, rfl⟩
      | cons _ _ => simp at hn
  | n + 1 => by
    rw [times_succ]
    refine (hd.bind fun x => (times hd n).map (x :: ·)).congr fun xs bytes => ?_
    constructor
    · rintro ⟨x, first, rest, hR, ⟨xs, rfl, rfl, h⟩, rfl⟩
      exact ⟨rfl, .cons hR h⟩
    · rintro ⟨hn, h⟩
      cases h with
      | nil => simp at hn
      | @cons x xs first rest hR h => exact ⟨x, first, rest, hR, ⟨xs, rfl, by simpa using hn, h⟩, rfl⟩

/-- **A counted list.** -/
theorem counted (hd : Reads d R) : Reads (Decoder.counted d) (Counted R) :=
  (u2.field fun n => hd.times n.toNat).congr fun xs bytes => by
    constructor
    · rintro ⟨n, rest, ⟨hn, h⟩, rfl⟩
      exact .mk hn h
    · rintro ⟨hn, h⟩
      exact ⟨_, _, ⟨hn, h⟩, rfl⟩

/-- **A window that has to be filled** reads the byte strings of its length that the inner decoder takes in full. -/
theorem filling (hd : Reads d R) (n : Nat) (b : α → β) (refuse : Cursor → DecodeError) :
    Reads (Decoder.window n >>= fun w => Decoder.inside w d >>= fun r =>
      if r.2.isEmpty then Pure.pure (b r.1) else MonadExcept.throw (refuse r.2))
      fun x bytes => ∃ a, x = b a ∧ bytes.length = n ∧ R a bytes := by
  intro s x c
  simp only [bind_eq_ok, window_eq_ok]
  constructor
  · rintro ⟨events, w, t, ⟨rfl, ho, ht, he⟩, ⟨a, rest⟩, u, hin, hx⟩
    obtain ⟨events', hdw, rfl⟩ := inside_eq_ok.1 hin
    by_cases hempty : rest.isEmpty
    · rw [if_pos hempty] at hx
      obtain ⟨rfl, hcur⟩ := pure_eq_ok.1 hx
      obtain ⟨taken, ⟨hb, -⟩, hR⟩ := hd.spans hdw
      have hnil : rest.bytes = [] := by simpa [Cursor.isEmpty] using hempty
      have hw : w.bytes = taken := by simpa [hnil] using hb
      have hc : c = t.cursor := congrArg DecodeState.cursor hcur
      exact ⟨w.bytes, hc ▸ ht, a, rfl, rfl, hw ▸ hR⟩
    · rw [if_neg hempty] at hx
      exact absurd hx throw_ne_ok
  · rintro ⟨taken, ht, a, rfl, rfl, hR⟩
    obtain ⟨events, hdw⟩ := (hd ⟨⟨s.cursor.offset, taken⟩, s.events⟩ a ⟨s.cursor.offset + taken.length, []⟩).2
      ⟨taken, ⟨by simp, rfl⟩, hR⟩
    exact ⟨events, ⟨s.cursor.offset, taken⟩, ⟨c, s.events⟩, ⟨rfl, rfl, ht, rfl⟩, (a, _), ⟨c, events⟩,
      inside_eq_ok.2 ⟨events, hdw, rfl⟩, by simp [Cursor.isEmpty]⟩

end Reads
end Decoder
end Jvm
