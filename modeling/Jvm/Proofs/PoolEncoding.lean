import Jvm.Proofs.Acceptance
import Jvm.Proofs.TextEncoding
/-!
# Pools read back

A pool that was read can be written and is read again from what was written, slot by slot and bit by bit.  Whether the
bytes come out as they went in is a matter of the texts alone: every other constant has one spelling, and a text has one
among the bytes of the modified form (`Constant.toBytes_eq_iff`).

That the bytes of constants can be taken apart in one way only follows from there being a decoder for them
(`Decoder.Reads.unique`), so that a payload of a text can be found in the bytes without a decoder: `Constant.TextAmong`.
-/
namespace Jvm

/-! ## Spellings that a decoder reads -/

/-- **What a decoder reads is spelled by one beginning of the bytes at most**, and stands for one value. -/
theorem Decoder.Reads.unique {α : Type} {d : Decoder α} {R : Spelling α} (h : Reads d R) {a a' : α}
    {first first' rest rest' : Bytes} (ha : R a first) (ha' : R a' first') (heq : first ++ rest = first' ++ rest') :
    a = a' ∧ first = first' ∧ rest = rest' := by
  have hspans : Spans R a (.ofBytes (first ++ rest)) ⟨first.length, rest⟩ :=
    ⟨first, by simp [Cursor.Took, Cursor.ofBytes], ha⟩
  have hspans' : Spans R a' (.ofBytes (first ++ rest)) ⟨first'.length, rest'⟩ :=
    ⟨first', by simp [Cursor.Took, Cursor.ofBytes, heq], ha'⟩
  obtain ⟨events, hd⟩ := (h ⟨.ofBytes (first ++ rest), #[]⟩ a _).2 hspans
  obtain ⟨events', hd'⟩ := (h ⟨.ofBytes (first ++ rest), #[]⟩ a' _).2 hspans'
  rw [hd] at hd'
  simp only [EStateM.Result.ok.injEq, DecodeState.mk.injEq, Cursor.mk.injEq] at hd'
  obtain ⟨rfl, ⟨-, rfl⟩, -⟩ := hd'
  exact ⟨rfl, List.append_cancel_right heq, rfl⟩

/-! ## Constants -/

namespace Constant

/-- The number of a text's bytes has to fit into two bytes; nothing else can be too long to be written. -/
def fits : Constant → Bool
  | utf8 text => (ModifiedUtf8.encode text).length ≤ 0xFFFF
  | _ => true

theorem Spelled.toBytes {c : Constant} {first : Bytes} (h : c.Spelled first) (fit : c.fits = true) :
    c.Spelled c.toBytes := by
  by_cases htag : c.tag = .utf8
  · cases h with
    | @utf8 text payload length counted decodes =>
      have hlength : (ModifiedUtf8.encode text).length ≤ 0xFFFF := of_decide_eq_true fit
      have hcount : (UInt16.ofNat (ModifiedUtf8.encode text).length).toNat = (ModifiedUtf8.encode text).length :=
        UInt16.toNat_ofNat_of_lt' (Nat.lt_succ_of_le hlength)
      have hagain : ModifiedUtf8.decode? (ModifiedUtf8.encode text) = some text := by
        rw [ModifiedUtf8.decode?_encode, ModifiedUtf8.joinSurrogates_of_decode? decodes]
      have hspelled := Spelled.utf8 hcount.symm hagain
      rwa [be2, hcount] at hspelled
    | _ => cases htag
  · exact (spelled_iff_toBytes htag).2 rfl

/-- **Which spelling of a constant is the one that is written**: that of a text in the modified form, and every other.
-/
theorem toBytes_eq_iff {c : Constant} {first : Bytes} (h : c.Spelled first) :
    c.toBytes = first ↔ ∀ length payload, first = 1 :: (be2 length ++ payload) → ModifiedUtf8.Canonical payload := by
  by_cases htag : c.tag = .utf8
  · cases h with
    | @utf8 text payload length counted decodes =>
      have hwritten : (Constant.utf8 text).toBytes = 1 :: (be2 length ++ payload) ↔
          ModifiedUtf8.encode text = payload := by
        constructor
        · intro heq
          exact (List.append_inj (List.cons.inj heq).2 (by simp [length_beBytes])).2
        · rintro rfl
          rw [Constant.toBytes, payloadBytes, counted]
          rfl
      rw [hwritten, ModifiedUtf8.encode_eq_iff decodes]
      constructor
      · intro hcanonical length' payload' heq
        obtain ⟨-, rfl⟩ := List.append_inj (List.cons.inj heq).2 (by simp)
        exact hcanonical
      · intro hall
        exact hall length payload rfl
    | _ => cases htag
  · rw [(spelled_iff_toBytes htag).1 h]
    simp only [true_iff]
    intro length payload heq
    have hbyte : Tag.utf8.toByte = c.tag.toByte := (List.cons.inj heq).1.symm
    have hsame := Tag.ofByte?_toByte .utf8
    rw [hbyte, Tag.ofByte?_toByte] at hsame
    exact absurd (Option.some.inj hsame) htag

/-- The bytes of a text among constants that stand one behind the other. -/
inductive TextAmong (payload : Bytes) : Bytes → Prop
  | here {text : Text} {length : UInt16} {rest : Bytes} (spelled : (utf8 text).Spelled (1 :: (be2 length ++ payload))) :
    TextAmong payload ((1 :: (be2 length ++ payload)) ++ rest)
  | behind {c : Constant} {first rest : Bytes} (spelled : c.Spelled first) (there : TextAmong payload rest) :
    TextAmong payload (first ++ rest)

theorem not_textAmong_nil {payload : Bytes} : ¬ TextAmong payload [] := by
  intro h
  generalize hbytes : ([] : Bytes) = bytes at h
  cases h with
  | here _ => cases hbytes
  | behind spelled _ =>
    obtain ⟨_, rfl⟩ := spelled.tag
    cases hbytes

theorem textAmong_append_iff {c : Constant} {first rest payload : Bytes} (hc : c.Spelled first) :
    TextAmong payload (first ++ rest) ↔ (∃ length, first = 1 :: (be2 length ++ payload)) ∨ TextAmong payload rest := by
  constructor
  · intro h
    generalize hbytes : first ++ rest = bytes at h
    cases h with
    | here spelled =>
      obtain ⟨-, hfirst, -⟩ := reads_decoder.unique hc spelled hbytes
      exact .inl ⟨_, hfirst⟩
    | behind spelled there =>
      obtain ⟨-, -, rfl⟩ := reads_decoder.unique hc spelled hbytes
      exact .inr there
  · rintro (⟨length, rfl⟩ | there)
    · cases c with
      | utf8 text => exact .here hc
      | _ => cases hc
    · exact .behind hc there

/-- A constant in front of others that are already compared with what was read. -/
theorem toBytes_append_eq_iff {c : Constant} {first rest written : Bytes} (hc : c.Spelled first) (fit : c.fits = true)
    (hrest : written = rest ↔ ∀ payload, TextAmong payload rest → ModifiedUtf8.Canonical payload) :
    c.toBytes ++ written = first ++ rest ↔
      ∀ payload, TextAmong payload (first ++ rest) → ModifiedUtf8.Canonical payload := by
  have hsplit : c.toBytes ++ written = first ++ rest ↔ c.toBytes = first ∧ written = rest := by
    constructor
    · intro heq
      exact (reads_decoder.unique (hc.toBytes fit) hc heq).2
    · rintro ⟨hfirst, rfl⟩
      rw [hfirst]
  rw [hsplit, toBytes_eq_iff hc, hrest]
  simp only [textAmong_append_iff hc]
  constructor
  · rintro ⟨hhere, hthere⟩ payload (⟨length, hfirst⟩ | h)
    · exact hhere length payload hfirst
    · exact hthere payload h
  · intro hall
    exact ⟨fun length payload hfirst => hall payload (.inl ⟨length, hfirst⟩), fun payload h => hall payload (.inr h)⟩

end Constant

/-! ## Pools -/

namespace ConstantPool

open Decoder

/-- The constants in the slots, as a class file holds them. -/
def written (slots : List (Option Constant)) : Bytes := (slots.filterMap id).flatMap Constant.toBytes

theorem map_snd_entriesFrom (slots : List (Option Constant)) : ∀ n : Nat,
    ((slots.zipIdx n).filterMap fun (slot, index) => slot.map fun c => (index, c)).map Prod.snd =
      slots.filterMap id := by
  induction slots with
  | nil => exact fun _ => rfl
  | cons slot slots ih =>
    intro n
    cases slot with
    | none => exact ih (n + 1)
    | some c => exact congrArg (c :: ·) (ih (n + 1))

theorem map_snd_entries (pool : ConstantPool) : pool.entries.map Prod.snd = pool.slots.toList.filterMap id :=
  map_snd_entriesFrom _ 0

theorem toBytes_eq (pool : ConstantPool) : pool.toBytes = be2 pool.count ++ written pool.slots.toList := by
  rw [written, ← map_snd_entries, List.flatMap_map]
  rfl

theorem fills_written {n : Nat} {slots : List (Option Constant)} {bytes : Bytes} (h : Fills n slots bytes)
    (fit : ∀ c, some c ∈ slots → c.fits = true) : Fills n slots (written slots) := by
  induction h with
  | done => exact .done
  | narrow one head tail ih =>
    have hhead := head.toBytes (fit _ List.mem_cons_self)
    exact .narrow one hhead (ih fun c hc => fit c (List.mem_cons_of_mem _ hc))
  | wide two head tail ih =>
    have hhead := head.toBytes (fit _ List.mem_cons_self)
    exact .wide two hhead (ih fun c hc => fit c (List.mem_cons_of_mem _ (List.mem_cons_of_mem _ hc)))
  | wideLast two head =>
    have hhead := head.toBytes (fit _ List.mem_cons_self)
    simpa [written] using Fills.wideLast two hhead

theorem written_eq_iff {n : Nat} {slots : List (Option Constant)} {bytes : Bytes} (h : Fills n slots bytes)
    (fit : ∀ c, some c ∈ slots → c.fits = true) :
    written slots = bytes ↔ ∀ payload, Constant.TextAmong payload bytes → ModifiedUtf8.Canonical payload := by
  have hnil : written [] = [] ↔ ∀ payload, Constant.TextAmong payload [] → ModifiedUtf8.Canonical payload :=
    iff_of_true rfl fun _ hnone => absurd hnone Constant.not_textAmong_nil
  induction h with
  | done => exact hnil
  | narrow _ head _ ih =>
    refine Constant.toBytes_append_eq_iff head (fit _ List.mem_cons_self) (ih fun c hc => fit c ?_)
    exact List.mem_cons_of_mem _ hc
  | wide _ head _ ih =>
    refine Constant.toBytes_append_eq_iff head (fit _ List.mem_cons_self) (ih fun c hc => fit c ?_)
    exact List.mem_cons_of_mem _ (List.mem_cons_of_mem _ hc)
  | @wideLast c last _ head =>
    have hlast := Constant.toBytes_append_eq_iff head (fit c List.mem_cons_self) hnil
    rwa [List.append_nil] at hlast

/-- **A pool that was read is written without loss**: what is written reads as the same pool to the last byte, and it is
what was read exactly if every text there was in the modified form. -/
theorem decoder_lossless (b : Bytes) (pool : ConstantPool) (k : Nat)
    (decoded : (decoder.runAt (.ofBytes b)).result = .ok pool)
    (consumed : (decoder.runAt (.ofBytes b)).cursor.offset = k) (fit : ∀ entry ∈ pool.entries, entry.2.fits = true) :
    (decoder.runAt (.ofBytes pool.toBytes)).result = .ok pool ∧
      (decoder.runAt (.ofBytes pool.toBytes)).cursor = ⟨pool.toBytes.length, []⟩ ∧
      (pool.toBytes = b.take k ↔
        ∀ payload, Constant.TextAmong payload ((b.take k).drop 2) → ModifiedUtf8.Canonical payload) := by
  obtain ⟨t, hd⟩ := runAt_result_eq_ok.1 decoded
  obtain ⟨taken, ⟨hbuffer, hoffset⟩, hspelled⟩ := reads_decoder.spans hd
  have htake : b.take k = taken := by
    have hk : t.cursor.offset = k := by simpa [runAt, hd] using consumed
    have hb : b = taken ++ t.cursor.bytes := hbuffer
    have hlength : t.cursor.offset = taken.length := by simpa [Cursor.ofBytes] using hoffset
    rw [← hk, hlength, hb, List.take_left]
  obtain @⟨count, slots, constants, fills⟩ := hspelled
  have hwritten : toBytes ⟨count, (none :: slots).toArray⟩ = be2 count ++ written slots := toBytes_eq _
  have fit' : ∀ c, some c ∈ slots → c.fits = true := by
    intro c hc
    have hmem : c ∈ (entries ⟨count, (none :: slots).toArray⟩).map Prod.snd := by
      rw [map_snd_entries]
      exact List.mem_filterMap.2 ⟨some c, List.mem_cons_of_mem _ hc, rfl⟩
    obtain ⟨entry, hentry, rfl⟩ := List.mem_map.1 hmem
    exact fit entry hentry
  rw [htake, hwritten]
  obtain ⟨events, hagain⟩ := (reads_decoder ⟨.ofBytes (be2 count ++ written slots), #[]⟩ _ ⟨_, []⟩).2
    (Spans.ofBytes_iff.2 ⟨Spelled.mk (fills_written fills fit'), rfl⟩)
  refine ⟨runAt_result_eq_ok.2 ⟨_, hagain⟩, by rw [runAt, hagain], ?_⟩
  rw [List.append_cancel_left_eq, List.drop_left' (length_be2 count)]
  exact written_eq_iff fills fit'

/-- A high surrogate without its partner, a null character in one byte, a number that is none, and a wide constant in
the last slot; one byte stands behind the pool. -/
def oddBytes : Bytes :=
  [0, 5, 1, 0, 3, 0xED, 0xA0, 0x80, 1, 0, 1, 0, 4, 0x7F, 0xC0, 0, 1, 5, 255, 255, 255, 255, 255, 255, 255, 255, 7]

def oddPool : ConstantPool :=
  ⟨5, #[none, some (.utf8 [CodePoint.ofNat 0xD800]), some (.utf8 [CodePoint.ofNat 0]), some (.float 0x7FC00001),
    some (.long (-1))]⟩

/-- The null character is written in two bytes, and all else is as it was. -/
theorem oddPool_lossless :
    (decoder.runAt (.ofBytes oddBytes)).result = .ok oddPool ∧ (decoder.runAt (.ofBytes oddBytes)).cursor.offset = 26 ∧
      (decoder.runAt (.ofBytes oddPool.toBytes)).result = .ok oddPool ∧
      (decoder.runAt (.ofBytes oddPool.toBytes)).cursor = ⟨27, []⟩ ∧ oddPool.toBytes ≠ oddBytes.take 26 := by
  have hok : (decoder.runAt (.ofBytes oddBytes)).result = .ok oddPool := by decide +kernel
  have hoffset : (decoder.runAt (.ofBytes oddBytes)).cursor.offset = 26 := by decide +kernel
  obtain ⟨hagain, hend, hsame⟩ := decoder_lossless oddBytes oddPool 26 hok hoffset (by decide +kernel)
  refine ⟨hok, hoffset, hagain, hend, fun heq => ?_⟩
  have hsurrogate : (Constant.utf8 [CodePoint.ofNat 0xD800]).Spelled (1 :: (be2 3 ++ [0xED, 0xA0, 0x80])) :=
    .utf8 rfl (by decide +kernel)
  have hnull : (Constant.utf8 [CodePoint.ofNat 0]).Spelled (1 :: (be2 1 ++ [0])) := .utf8 rfl (by decide +kernel)
  have hamong : Constant.TextAmong [0] ((oddBytes.take 26).drop 2) := .behind hsurrogate (.here hnull)
  exact absurd rfl (hsame.1 heq [0] hamong 0 List.mem_cons_self).1

end ConstantPool
end Jvm
