import Jvm.Proofs.Extension
import Jvm.Proofs.Places
/-!
# Where a decoder is at fault

The failure of each decoder is traced back to the failure of one of its parts at the place of that part, until it is
that of a single read, of a check or of a name that does not resolve.  So an error is a fact about the byte string: the
offset is counted from its first byte, also in method bodies nested in each other, and the bytes there are at fault in
the way that the error says (`Diagnosis`).

How far a read could have gone is known here only up to the method bodies that were entered on the way to it
(`DiagnosisFrom`).
-/
namespace Jvm

/-- What an error claims about the byte string that was refused. -/
def Diagnosis (bytes : Bytes) : DecodeError → Prop
  | .badMagic found => 4 ≤ bytes.length ∧ found.toNat = beNat (bytes.take 4) ∧ found ≠ 0xCAFEBABE
  | .unsupportedConstantTag tag offset =>
    bytes[offset]? = some tag ∧ tag ∉ ([1, 3, 4, 5, 6, 7, 8, 9, 10, 11, 12, 15, 16, 18] : List UInt8)
  | .malformedUtf8 offset =>
    3 ≤ offset ∧ bytes[offset - 3]? = some 1 ∧ ∃ n, n = beNat ((bytes.drop (offset - 2)).take 2) ∧
      offset + n ≤ bytes.length ∧ ModifiedUtf8.decode? ((bytes.drop offset).take n) = none
  | .truncatedInput offset needed remaining =>
    remaining < needed ∧ offset + remaining ≤ bytes.length ∧
      ∀ stop, ReadEnd bytes offset stop ↔ stop = offset + remaining
  | .attributeLengthMismatch name declared consumed =>
    name = "Code" ∧ 12 ≤ consumed ∧ consumed < declared.toNat ∧
      ∃ pool window, CodeWindow bytes pool window ∧ window.remaining = declared.toNat ∧
        ∃ body : Code, body.Spelled pool (window.bytes.take consumed)
  | .trailingBytes offset remaining =>
    0 < remaining ∧ offset + remaining = bytes.length ∧ ∃ c : ClassFile, c.Spelled (bytes.take offset)
  | .invalidConstantIndex index =>
    ∃ pool, NamesAttribute bytes pool index ∧ ∀ c, pool.slots[index.toNat]? ≠ some (some c)
  | .wrongConstantKind index expected found =>
    expected = "Utf8" ∧ ∃ pool c, NamesAttribute bytes pool index ∧ pool.slots[index.toNat]? = some (some c) ∧
      (∀ text, c ≠ .utf8 text) ∧ found = c.kindName
  | .notUnicode index =>
    ∃ pool text, NamesAttribute bytes pool index ∧ pool.slots[index.toNat]? = some (some (.utf8 text)) ∧
      ∀ s, text ≠ Text.ofString s

/-- What the error of a reader that stood at `c` claims.  It ran out of bytes at its own end, or at that of a method
body that it entered and could not leave. -/
def DiagnosisFrom (bytes : Bytes) (c : Cursor) : DecodeError → Prop
  | .truncatedInput offset needed remaining =>
    remaining < needed ∧ c.offset ≤ offset ∧ offset + remaining ≤ c.stop ∧
      (offset + remaining = c.stop ∨
        ∃ pool window, OpenWindow bytes pool window ∧ window.offset ≤ offset ∧ offset + remaining = window.stop)
  | e => Diagnosis bytes e

namespace DiagnosisFrom

variable {bytes taken : Bytes} {c c' : Cursor} {e : DecodeError}

theorem took (h : DiagnosisFrom bytes c' e) (ht : c.Took taken c') : DiagnosisFrom bytes c e := by
  cases e with
  | truncatedInput offset needed remaining =>
    obtain ⟨hlt, hle, hstop, hend⟩ := h
    exact ⟨hlt, Nat.le_trans ht.offset_le hle, ht.stop ▸ hstop, ht.stop ▸ hend⟩
  | _ => exact h

theorem beginsItem {α : Type} {R : Spelling α} (h : DiagnosisFrom bytes c' e) (hb : BeginsItem R c c') :
    DiagnosisFrom bytes c e := by
  obtain ⟨taken, ht⟩ := hb.took
  exact h.took ht

/-- **A read in a window that is not left has its end in that window.** -/
theorem ofWindow {pool : ConstantPool} {window : Cursor} (h : DiagnosisFrom bytes window e)
    (hopen : OpenWindow bytes pool window) (hat : CodeWindowAt pool c window) : DiagnosisFrom bytes c e := by
  cases e with
  | truncatedInput offset needed remaining =>
    obtain ⟨hlt, hle, hstop, hend⟩ := h
    refine ⟨hlt, Nat.le_trans hat.offset_le hle, Nat.le_trans hstop hat.stop_le, .inr ?_⟩
    rcases hend with hend | hinner
    · exact ⟨pool, window, hopen, hle, hend⟩
    · exact hinner
  | _ => exact h

end DiagnosisFrom

open Decoder

namespace Decoder

variable {α β : Type} {d : Decoder α} {s t : DecodeState} {e : DecodeError}

/-! ## Failures of reads alone -/

/-- Only reads over the end can make the decoder fail. -/
def Truncates (d : Decoder α) : Prop := ∀ s e t, d s = .error e t →
  ∃ taken c n, s.cursor.Took taken c ∧ c.remaining < n ∧ e = .truncatedInput c.offset n c.remaining

namespace Truncates

theorem pure (a : α) : Truncates (Pure.pure a) := fun _ _ _ h => absurd h pure_ne_error

theorem bytes (n : Nat) : Truncates (Decoder.bytes n) := by
  intro s e t h
  obtain ⟨hlt, rfl, -⟩ := bytes_eq_error.1 h
  exact ⟨[], s.cursor, n, by simp, hlt, rfl⟩

theorem window (n : Nat) : Truncates (Decoder.window n) := by
  intro s e t h
  obtain ⟨hlt, rfl, -⟩ := window_eq_error.1 h
  exact ⟨[], s.cursor, n, by simp, hlt, rfl⟩

theorem bind {f : α → Decoder β} (hc : Composed d) (hd : Truncates d) (hf : ∀ a, Truncates (f a)) :
    Truncates (d >>= f) := by
  intro s e t h
  rcases bind_eq_error.1 h with h | ⟨a, u, hu, h⟩
  · exact hd s e t h
  · obtain ⟨taken, htook⟩ := (hc.took s).1 a u hu
    obtain ⟨more, c, n, hmore, hlt, he⟩ := hf a u e t h
    exact ⟨taken ++ more, c, n, htook.trans hmore, hlt, he⟩

theorem number (n : Nat) : Truncates (Decoder.number n) := bind (.bytes n) (bytes n) fun _ => pure _

theorem u1 : Truncates Decoder.u1 := bind (.number 1) (number 1) fun _ => pure _

theorem u2 : Truncates Decoder.u2 := bind (.number 2) (number 2) fun _ => pure _

theorem u4 : Truncates Decoder.u4 := bind (.number 4) (number 4) fun _ => pure _

theorem u8 : Truncates Decoder.u8 := bind (.number 8) (number 8) fun _ => pure _

theorem i4 : Truncates Decoder.i4 := bind .u4 u4 fun _ => pure _

theorem i8 : Truncates Decoder.i8 := bind .u8 u8 fun _ => pure _

theorem times (hc : Composed d) (hd : Truncates d) : ∀ n, Truncates (Decoder.times d n)
  | 0 => pure []
  | n + 1 => by
    rw [times_succ]
    exact bind hc hd fun _ => bind (hc.times n) (times hc hd n) fun _ => pure _

theorem counted (hc : Composed d) (hd : Truncates d) : Truncates (Decoder.counted d) :=
  bind .u2 u2 fun n => hd.times hc n.toNat

/-- **A read over the end is a true diagnosis.** -/
theorem diagnosis {bytes before : Bytes} {c : Cursor} (hd : Truncates d) (hc : c.Took before s.cursor)
    (h : d s = .error e t) : DiagnosisFrom bytes c e := by
  obtain ⟨taken, c', n, htook, hlt, rfl⟩ := hd s e t h
  have hc' := hc.trans htook
  exact ⟨hlt, hc'.offset_le, Nat.le_of_eq hc'.stop, .inl hc'.stop⟩

end Truncates

/-! ## Failures of lists -/

theorem times_error {R : Spelling α} (hd : Reads d R) : ∀ {n : Nat} {s : DecodeState}, times d n s = .error e t →
    ∃ before u, before.length < n ∧ Spans (InOrder R) before s.cursor u.cursor ∧ d u = .error e t
  | 0, _, h => absurd h pure_ne_error
  | n + 1, s, h => by
    rw [times_succ] at h
    rcases bind_eq_error.1 h with h | ⟨x, v, hx, h⟩
    · exact ⟨[], s, Nat.succ_pos n, ⟨[], by simp, .nil⟩, h⟩
    · rcases bind_eq_error.1 h with h | ⟨xs, w, -, h⟩
      · obtain ⟨before, u, hlen, ⟨rest, hrest, hbefore⟩, hu⟩ := times_error hd h
        obtain ⟨first, hfirst, hR⟩ := hd.spans hx
        exact ⟨x :: before, u, Nat.succ_lt_succ hlen, ⟨first ++ rest, hfirst.trans hrest, .cons hR hbefore⟩, hu⟩
      · exact absurd h pure_ne_error

/-- **A counted list fails in its count, or in an item at the place of that item.** -/
theorem counted_error {R : Spelling α} (hd : Reads d R) (h : counted d s = .error e t) :
    u2 s = .error e t ∨ ∃ u, BeginsItem R s.cursor u.cursor ∧ d u = .error e t := by
  rcases bind_eq_error.1 h with h | ⟨n, v, hn, h⟩
  · exact .inl h
  · obtain ⟨before, u, hlen, hspans, hu⟩ := times_error hd h
    exact .inr ⟨u, ⟨n, v.cursor, before, Reads.u2.spans hn, hlen, hspans⟩, hu⟩

end Decoder

/-! ## The pool -/

/-- A buffer is what a reader took from its start, and what is before it. -/
theorem eq_append_of_took {bytes before : Bytes} {c : Cursor} (h : (Cursor.ofBytes bytes).Took before c) :
    bytes = before ++ c.bytes ∧ c.offset = before.length := by
  refine ⟨h.1, ?_⟩
  rw [h.2]
  exact Nat.zero_add _

theorem beNat_be2 (v : UInt16) : beNat (be2 v) = v.toNat := beNat_beBytes_of_lt v.toNat_lt

theorem beNat_be4 (v : UInt32) : beNat (be4 v) = v.toNat := beNat_beBytes_of_lt v.toNat_lt

namespace Constant

theorem known_tags {b : UInt8} (h : Tag.ofByte? b = none) :
    b ∉ ([1, 3, 4, 5, 6, 7, 8, 9, 10, 11, 12, 15, 16, 18] : List UInt8) := by
  intro hb
  have hnone : ∀ t ∈ Tag.all, t.toByte ≠ b := by
    intro t ht
    simpa using List.find?_eq_none.1 h t ht
  have hbytes : Tag.all.map Tag.toByte = [1, 3, 4, 5, 6, 7, 8, 9, 10, 11, 12, 15, 16, 18] := rfl
  rw [← hbytes] at hb
  obtain ⟨t, ht, hbt⟩ := List.mem_map.1 hb
  exact hnone t ht hbt

/-- A text that is refused begins behind its tag and its length, lies in the file, and spells nothing. -/
theorem textPayload_diagnosis {bytes before : Bytes} {s t : DecodeState} {e : DecodeError}
    (hs : (Cursor.ofBytes bytes).Took (before ++ [1]) s.cursor) (h : textPayload s = .error e t) :
    DiagnosisFrom bytes (.ofBytes bytes) e := by
  rcases bind_eq_error.1 h with h | ⟨length, u, hlength, h⟩
  · exact Truncates.u2.diagnosis hs h
  obtain ⟨_, hu, rfl⟩ := Reads.u2.spans hlength
  have hu := hs.trans hu
  rcases bind_eq_error.1 h with h | ⟨start, v, hstart, h⟩
  · cases h
  cases hstart
  rcases bind_eq_error.1 h with h | ⟨payload, w, hpayload, h⟩
  · exact (Truncates.bytes _).diagnosis hu h
  obtain ⟨hlen, hw, -⟩ := bytes_eq_ok.1 hpayload
  cases hdec : ModifiedUtf8.decode? payload with
  | some text =>
    rw [hdec] at h
    exact absurd h pure_ne_error
  | none =>
    rw [hdec] at h
    obtain ⟨rfl, -⟩ := throw_eq_error.1 h
    obtain ⟨hbytes, hoffset⟩ := eq_append_of_took hu
    rw [hw.1] at hbytes
    have hoffset : u.cursor.offset = before.length + 3 := by simpa using hoffset
    have hlayout : bytes = before ++ (1 :: (be2 length ++ (payload ++ w.cursor.bytes))) := by simpa using hbytes
    have hdrop₁ : bytes.drop (before.length + 1) = be2 length ++ (payload ++ w.cursor.bytes) := by
      rw [hlayout, List.drop_append]
      simp
    have hdrop₃ : bytes.drop (before.length + 3) = payload ++ w.cursor.bytes := by
      rw [show before.length + 3 = before.length + 1 + 2 from rfl, ← List.drop_drop, hdrop₁,
        List.drop_left' (length_be2 length)]
    have hn : beNat ((bytes.drop (before.length + 1)).take 2) = payload.length := by
      rw [hdrop₁, List.take_left' (length_be2 length), beNat_be2, hlen]
    refine ⟨by omega, ?_, payload.length, ?_, ?_, ?_⟩
    · rw [hoffset, hlayout]
      simp
    · rw [hoffset, ← hn]
      rfl
    · rw [hoffset, hlayout]
      simp
      omega
    · rw [hoffset, hdrop₃, List.take_left, hdec]

theorem payload_diagnosis {bytes before : Bytes} {tag : Tag} {s t : DecodeState} {e : DecodeError}
    (hs : (Cursor.ofBytes bytes).Took (before ++ [tag.toByte]) s.cursor) (h : payload tag s = .error e t) :
    DiagnosisFrom bytes (.ofBytes bytes) e := by
  cases tag with
  | utf8 => exact textPayload_diagnosis hs h
  | integer => exact (Truncates.bind .i4 .i4 fun _ => .pure _).diagnosis hs h
  | float => exact (Truncates.bind .u4 .u4 fun _ => .pure _).diagnosis hs h
  | long => exact (Truncates.bind .i8 .i8 fun _ => .pure _).diagnosis hs h
  | double => exact (Truncates.bind .u8 .u8 fun _ => .pure _).diagnosis hs h
  | classRef | string | methodType => exact (Truncates.bind .u2 .u2 fun _ => .pure _).diagnosis hs h
  | member _ | nameAndType | invokeDynamic =>
    exact (Truncates.bind .u2 .u2 fun _ => .bind .u2 .u2 fun _ => .pure _).diagnosis hs h
  | methodHandle => exact (Truncates.bind .u1 .u1 fun _ => .bind .u2 .u2 fun _ => .pure _).diagnosis hs h

theorem decoder_diagnosis {bytes before : Bytes} {s t : DecodeState} {e : DecodeError}
    (hs : (Cursor.ofBytes bytes).Took before s.cursor) (h : decoder s = .error e t) :
    DiagnosisFrom bytes (.ofBytes bytes) e := by
  rcases bind_eq_error.1 h with h | ⟨start, u, hstart, h⟩
  · cases h
  cases hstart
  rcases bind_eq_error.1 h with h | ⟨byte, v, hbyte, h⟩
  · exact Truncates.u1.diagnosis hs h
  obtain ⟨_, hv, rfl⟩ := Reads.u1.spans hbyte
  rw [be1_eq] at hv
  cases htag : Tag.ofByte? byte with
  | some tag =>
    rw [htag] at h
    rw [← Tag.toByte_of_ofByte? htag] at hv
    exact payload_diagnosis (hs.trans hv) h
  | none =>
    rw [htag] at h
    obtain ⟨rfl, -⟩ := throw_eq_error.1 h
    obtain ⟨hbytes, hoffset⟩ := eq_append_of_took hs
    refine ⟨?_, known_tags htag⟩
    rw [hoffset, hbytes, hv.1]
    simp

end Constant

namespace ConstantPool

theorem fill_error {e : DecodeError} {t : DecodeState} :
    ∀ {n : Nat} {slots : Array (Option Constant)} {s : DecodeState},
    fill n slots s = .error e t → ∃ taken u, s.cursor.Took taken u.cursor ∧ Constant.decoder u = .error e t
  | 0, _, _, h => absurd h pure_ne_error
  | n + 1, slots, s, h => by
    rw [fill] at h
    rcases bind_eq_error.1 h with h | ⟨c, v, hc, h⟩
    · exact ⟨[], s, by simp, h⟩
    obtain ⟨first, hfirst, -⟩ := Constant.reads_decoder.spans hc
    have hrest : ∃ taken u, v.cursor.Took taken u.cursor ∧ Constant.decoder u = .error e t := by
      by_cases hw : c.isWide = true
      · rw [if_pos hw] at h
        cases n with
        | zero => exact absurd h pure_ne_error
        | succ n => exact fill_error h
      · rw [if_neg hw] at h
        exact fill_error h
    obtain ⟨rest, u, hu, herr⟩ := hrest
    exact ⟨first ++ rest, u, hfirst.trans hu, herr⟩

theorem decoder_diagnosis {bytes before : Bytes} {s t : DecodeState} {e : DecodeError}
    (hs : (Cursor.ofBytes bytes).Took before s.cursor) (h : decoder s = .error e t) :
    DiagnosisFrom bytes (.ofBytes bytes) e := by
  rcases bind_eq_error.1 h with h | ⟨count, u, hcount, h⟩
  · exact Truncates.u2.diagnosis hs h
  obtain ⟨two, hu, -⟩ := Reads.u2.spans hcount
  rcases bind_eq_error.1 h with h | ⟨slots, v, -, h⟩
  · obtain ⟨taken, v, hv, herr⟩ := fill_error h
    exact Constant.decoder_diagnosis ((hs.trans hu).trans hv) herr
  · exact absurd h pure_ne_error

end ConstantPool

/-! ## Attributes -/

namespace Code

theorem truncates_front : Truncates front := by
  have hrow : Truncates ExceptionHandler.decoder :=
    .bind .u2 .u2 fun _ => .bind .u2 .u2 fun _ => .bind .u2 .u2 fun _ => .bind .u2 .u2 fun _ => .pure _
  exact .bind .u2 .u2 fun _ => .bind .u2 .u2 fun _ => .bind .u4 .u4 fun length =>
    .bind (.bytes length.toNat) (.bytes _) fun _ =>
    .bind (.counted ExceptionHandler.composed_decoder) (.counted ExceptionHandler.composed_decoder hrow) fun _ =>
      .pure _

theorem Spelled.twelve_le {pool : ConstantPool} {body : Code} {bytes : Bytes} (h : body.Spelled pool bytes) :
    12 ≤ bytes.length := by
  obtain ⟨first, attributes, nested, hfront, hattributes, rfl⟩ := h
  have hten := hfront.ten_le
  have htwo := hattributes.two_le
  rw [List.length_append]
  omega

end Code

namespace Attribute

section Record

variable {bytes : Bytes} {pool : ConstantPool} {s t : DecodeState} {e : DecodeError}

/-- A method body fails in front of its attributes, or in their list, which is shorter than the body. -/
theorem body_diagnosis (hwindow : CodeWindow bytes pool s.cursor)
    (ih : ∀ u, u.cursor.remaining < s.cursor.remaining → ListPlace bytes pool u.cursor →
      listDecoder pool u = .error e t → DiagnosisFrom bytes u.cursor e)
    (h : Code.decoder (listDecoder pool) s = .error e t) : DiagnosisFrom bytes s.cursor e := by
  rw [Code.decoder_eq] at h
  rcases bind_eq_error.1 h with h | ⟨body, u, hbody, h⟩
  · exact Code.truncates_front.diagnosis (.refl _) h
  have hfront := Code.reads_front.spans hbody
  rcases bind_eq_error.1 h with h | ⟨inner, v, -, h⟩
  · obtain ⟨c, ⟨list, hlist, hbegins⟩, hopens⟩ := hwindow
    have hplace : ListPlace bytes pool u.cursor := .ofBody hlist hbegins hopens hfront
    obtain ⟨taken, ht, hspelled⟩ := hfront
    have hten := hspelled.ten_le
    have hrem := ht.remaining
    exact (ih u (by omega) hplace h).took ht
  · exact absurd h pure_ne_error

/-- A method body on which decoding fails is not one. -/
theorem not_spelled_of_error {w : Cursor} {events : Array DecodeEvent}
    (h : Code.decoder (listDecoder pool) ⟨w, events⟩ = .error e t) (body : Code) : ¬ body.Spelled pool w.bytes := by
  intro hspelled
  have hspans : Spans (Code.Spelled pool) body w ⟨w.offset + w.bytes.length, []⟩ :=
    ⟨w.bytes, ⟨(List.append_nil _).symm, rfl⟩, hspelled⟩
  obtain ⟨events', hok⟩ := (Code.reads_decoder (reads_listDecoder pool) ⟨w, events⟩ body _).2 hspans
  rw [h] at hok
  cases hok

/-- The name of an attribute does not resolve. -/
theorem name_diagnosis {index : UInt16} (hindex : NamesAttribute bytes pool index) (h : pool.utf8 index = .error e) :
    DiagnosisFrom bytes s.cursor e := by
  rcases ConstantPool.utf8_eq_error h with ⟨rfl, hnone⟩ | ⟨c, hslot, hother, rfl⟩ | ⟨text, hslot, htext, rfl⟩
  · exact ⟨pool, hindex, hnone⟩
  · exact ⟨rfl, pool, c, hindex, hslot, hother, rfl⟩
  · exact ⟨pool, text, hindex, hslot, htext⟩

/-- The window of a method body: it cannot be cut out, or its content is at fault, or it is not filled. -/
theorem codeIn_diagnosis {c : Cursor} {index : UInt16} {length : UInt32} (hplace : AttributePlace bytes pool c)
    (hnames : pool.Names index "Code") (htook : c.Took (be2 index ++ be4 length) s.cursor)
    (ih : ∀ u, u.cursor.remaining < s.cursor.remaining → ListPlace bytes pool u.cursor → ∀ t,
      listDecoder pool u = .error e t → DiagnosisFrom bytes u.cursor e)
    (h : codeIn length (listDecoder pool) s = .error e t) : DiagnosisFrom bytes c e := by
  rcases bind_eq_error.1 h with h | ⟨w, u, hw, h⟩
  · exact (Truncates.window _).diagnosis htook h
  obtain ⟨hlen, ho, hcut, -⟩ := window_eq_ok.1 hw
  have hat : CodeWindowAt pool c w := ⟨index, length, s.cursor, u.cursor, hnames, htook, hlen, ho, hcut⟩
  have hwindow : CodeWindow bytes pool w := ⟨c, hplace, hat⟩
  rcases bind_eq_error.1 h with h | ⟨⟨body, rest⟩, v, hbody, h⟩
  · obtain ⟨v, hv, -⟩ := inside_eq_error.1 h
    have hrem := hcut.remaining
    have hlen' : w.bytes.length = w.remaining := rfl
    have hopen : OpenWindow bytes pool w := ⟨hwindow, not_spelled_of_error hv⟩
    refine (body_diagnosis (s := ⟨w, u.events⟩) hwindow (fun u' hlt hlist => ih u' ?_ hlist v) hv).ofWindow hopen hat
    have hlt : u'.cursor.remaining < w.remaining := hlt
    omega
  obtain ⟨events, hdecoded, -⟩ := inside_eq_ok.1 hbody
  obtain ⟨taken, ht, hspelled⟩ := (Code.reads_decoder (reads_listDecoder pool)).spans hdecoded
  have hrem : w.remaining = taken.length + rest.remaining := ht.remaining
  dsimp only at h
  by_cases hempty : rest.isEmpty = true
  · rw [if_pos hempty] at h
    exact absurd h pure_ne_error
  · rw [if_neg hempty] at h
    obtain ⟨rfl, -⟩ := throw_eq_error.1 h
    have hmore : 0 < rest.remaining := by
      simpa [Cursor.isEmpty, Cursor.remaining, List.length_pos_iff] using hempty
    have hconsumed : length.toNat - rest.remaining = taken.length := by omega
    have htwelve := Code.Spelled.twelve_le hspelled
    refine ⟨rfl, by omega, by omega, pool, w, hwindow, hlen, body, ?_⟩
    rw [hconsumed, show w.bytes = taken ++ rest.bytes from ht.1, List.take_left]
    exact hspelled

theorem truncates_skip (name : String) (length : UInt32) : Truncates (skip name length) := by
  have hreport (event : DecodeEvent) : Truncates (report event) := fun _ _ _ h => by cases h
  exact .bind (.window _) (.window _) fun _ => .bind (.report _) (hreport _) fun _ => .pure _

/-- **An attribute at its place fails for a true reason**, if the shorter lists behind it do. -/
theorem decoder_diagnosis (hplace : AttributePlace bytes pool s.cursor)
    (ih : ∀ u, u.cursor.remaining < s.cursor.remaining → ListPlace bytes pool u.cursor → ∀ e t,
      listDecoder pool u = .error e t → DiagnosisFrom bytes u.cursor e)
    (h : decoder pool s = .error e t) : DiagnosisFrom bytes s.cursor e := by
  rw [decoder_eq] at h
  rcases bind_eq_error.1 h with h | ⟨index, u, hindex, h⟩
  · exact Truncates.u2.diagnosis (.refl _) h
  obtain ⟨_, hu, rfl⟩ := Reads.u2.spans hindex
  rcases bind_eq_error.1 h with h | ⟨name, v, hname, hbody⟩
  · exact name_diagnosis ⟨s.cursor, u.cursor, hplace, hu⟩ (ofExcept_eq_error.1 h).1
  obtain ⟨hok, rfl⟩ := ofExcept_eq_ok.1 hname
  rcases bind_eq_error.1 hbody with h | ⟨length, w, hlength, h⟩
  · exact Truncates.u4.diagnosis hu h
  obtain ⟨_, hw, rfl⟩ := Reads.u4.spans hlength
  by_cases hcode : name = codeName
  · rw [if_pos hcode] at h
    have hnames : pool.Names index "Code" := by
      subst hcode
      exact ConstantPool.utf8_eq_ok.1 hok
    have hrem := (hu.trans hw).remaining
    exact codeIn_diagnosis hplace hnames (hu.trans hw) (fun u' hlt hlist => ih u' (by omega) hlist e) h
  · rw [if_neg hcode] at h
    exact (truncates_skip name length).diagnosis (hu.trans hw) h

end Record

/-- **A list of attributes at its place fails for a true reason**, at any depth of nesting.  The induction is on the
bytes that are left, which become fewer from a list to the lists nested in it. -/
theorem listDecoder_diagnosis {bytes : Bytes} {pool : ConstantPool} : ∀ (n : Nat) {s t : DecodeState} {e : DecodeError},
    s.cursor.remaining < n → ListPlace bytes pool s.cursor → listDecoder pool s = .error e t →
      DiagnosisFrom bytes s.cursor e
  | 0, _, _, _, hn, _, _ => absurd hn (Nat.not_lt_zero _)
  | n + 1, s, t, e, hn, hlist, h => by
    rcases counted_error (reads_decoder pool) h with h | ⟨u, hbegins, h⟩
    · exact Truncates.u2.diagnosis (.refl _) h
    · have hle := hbegins.remaining_le
      refine (decoder_diagnosis ⟨s.cursor, hlist, hbegins⟩ (fun v hlt hv e t h => ?_) h).beginsItem hbegins
      exact listDecoder_diagnosis n (by omega) hv h

end Attribute

/-! ## Members and the class -/

theorem Member.list_diagnosis {bytes : Bytes} {pool : ConstantPool} {s t : DecodeState} {e : DecodeError}
    (hplace : MembersPlace bytes pool s.cursor) (h : counted (Member.decoder pool) s = .error e t) :
    DiagnosisFrom bytes s.cursor e := by
  rcases counted_error (Member.reads_decoder pool) h with h | ⟨u, hbegins, h⟩
  · exact Truncates.u2.diagnosis (.refl _) h
  refine DiagnosisFrom.beginsItem ?_ hbegins
  rcases bind_eq_error.1 h with h | ⟨access, v₁, h₁, h⟩
  · exact Truncates.u2.diagnosis (.refl _) h
  obtain ⟨_, h₁, rfl⟩ := Reads.u2.spans h₁
  rcases bind_eq_error.1 h with h | ⟨nameIndex, v₂, h₂, h⟩
  · exact Truncates.u2.diagnosis h₁ h
  obtain ⟨_, h₂, rfl⟩ := Reads.u2.spans h₂
  have h₂ := h₁.trans h₂
  rcases bind_eq_error.1 h with h | ⟨descriptorIndex, v₃, h₃, h⟩
  · exact Truncates.u2.diagnosis h₂ h
  obtain ⟨_, h₃, rfl⟩ := Reads.u2.spans h₃
  have h₃ := h₂.trans h₃
  rcases bind_eq_error.1 h with h | ⟨attributes, v₄, -, h⟩
  · have hlist : ListPlace bytes pool v₃.cursor := .ofMember hplace hbegins (by simp) h₃
    exact (Attribute.listDecoder_diagnosis _ (Nat.lt_succ_self _) hlist h).took h₃
  · exact absurd h pure_ne_error

namespace ClassFile

theorem magic_diagnosis {bytes : Bytes} {s t : DecodeState} {e : DecodeError} (hs : s.cursor = .ofBytes bytes)
    (h : magicDecoder s = .error e t) : DiagnosisFrom bytes (.ofBytes bytes) e := by
  rcases bind_eq_error.1 h with h | ⟨found, u, hfound, h⟩
  · exact hs ▸ Truncates.u4.diagnosis (.refl _) h
  obtain ⟨_, hu, rfl⟩ := Reads.u4.spans hfound
  by_cases hmagic : found = magic
  · rw [if_pos hmagic] at h
    exact absurd h pure_ne_error
  · rw [if_neg hmagic] at h
    obtain ⟨rfl, -⟩ := throw_eq_error.1 h
    rw [hs] at hu
    obtain ⟨hbytes, -⟩ := eq_append_of_took hu
    refine ⟨?_, ?_, hmagic⟩
    · rw [hbytes, List.length_append, length_be4]
      exact Nat.le_add_right _ _
    · rw [hbytes, List.take_left' (length_be4 found), beNat_be4]

/-- Behind the interfaces of a class come its fields, its methods and its attributes. -/
theorem declarations_diagnosis {bytes : Bytes} {pool : ConstantPool} {s t : DecodeState} {e : DecodeError}
    {f : List Member → List Member → List Attribute → Decoder ClassFile}
    (hhead : Spans Head pool (.ofBytes bytes) s.cursor)
    (hf : ∀ fields methods attributes u, f fields methods attributes u ≠ .error e t)
    (h : (do
      let fields ← counted (Member.decoder pool)
      let methods ← counted (Member.decoder pool)
      let attributes ← Attribute.listDecoder pool
      f fields methods attributes : Decoder ClassFile) s = .error e t) : DiagnosisFrom bytes s.cursor e := by
  rcases bind_eq_error.1 h with h | ⟨fields, u, hfields, h⟩
  · exact Member.list_diagnosis (.fields hhead) h
  have hfields := (Member.reads_decoder pool).counted.spans hfields
  obtain ⟨_, h₁, -⟩ := id hfields
  rcases bind_eq_error.1 h with h | ⟨methods, v, hmethods, h⟩
  · exact (Member.list_diagnosis (.methods hhead hfields) h).took h₁
  have hmethods := (Member.reads_decoder pool).counted.spans hmethods
  obtain ⟨_, h₂, -⟩ := id hmethods
  rcases bind_eq_error.1 h with h | ⟨attributes, w, -, h⟩
  · have hlist : ListPlace bytes pool v.cursor := .ofClass hhead hfields hmethods
    exact (Attribute.listDecoder_diagnosis _ (Nat.lt_succ_self _) hlist h).took (h₁.trans h₂)
  · exact absurd h (hf fields methods attributes w)

/-- **Every error of the decoder of classes is a true diagnosis**, up to the bodies that were entered. -/
theorem decoder_diagnosis {bytes : Bytes} {s t : DecodeState} {e : DecodeError} (hs : s.cursor = .ofBytes bytes)
    (h : decoder s = .error e t) : DiagnosisFrom bytes (.ofBytes bytes) e := by
  rcases bind_eq_error.1 h with h | ⟨⟨⟩, u₁, h₁, h⟩
  · exact magic_diagnosis hs h
  obtain ⟨_, h₁, rfl⟩ := reads_magicDecoder.spans h₁
  rw [hs] at h₁
  rcases bind_eq_error.1 h with h | ⟨minorVersion, u₂, h₂, h⟩
  · exact Truncates.u2.diagnosis h₁ h
  obtain ⟨_, h₂, rfl⟩ := Reads.u2.spans h₂
  have h₂ := h₁.trans h₂
  rcases bind_eq_error.1 h with h | ⟨majorVersion, u₃, h₃, h⟩
  · exact Truncates.u2.diagnosis h₂ h
  obtain ⟨_, h₃, rfl⟩ := Reads.u2.spans h₃
  have h₃ := h₂.trans h₃
  rcases bind_eq_error.1 h with h | ⟨pool, u₄, h₄, h⟩
  · exact ConstantPool.decoder_diagnosis h₃ h
  obtain ⟨constants, h₄, hpool⟩ := ConstantPool.reads_decoder.spans h₄
  have h₄ := h₃.trans h₄
  rcases bind_eq_error.1 h with h | ⟨access, u₅, h₅, h⟩
  · exact Truncates.u2.diagnosis h₄ h
  obtain ⟨_, h₅, rfl⟩ := Reads.u2.spans h₅
  have h₅ := h₄.trans h₅
  rcases bind_eq_error.1 h with h | ⟨thisClass, u₆, h₆, h⟩
  · exact Truncates.u2.diagnosis h₅ h
  obtain ⟨_, h₆, rfl⟩ := Reads.u2.spans h₆
  have h₆ := h₅.trans h₆
  rcases bind_eq_error.1 h with h | ⟨superClass, u₇, h₇, h⟩
  · exact Truncates.u2.diagnosis h₆ h
  obtain ⟨_, h₇, rfl⟩ := Reads.u2.spans h₇
  have h₇ := h₆.trans h₇
  rcases bind_eq_error.1 h with h | ⟨interfaces, u₈, h₈, h⟩
  · exact (Truncates.counted .u2 .u2).diagnosis h₇ h
  obtain ⟨table, h₈, hinterfaces⟩ := Reads.u2.counted.spans h₈
  have hhead : Spans Head pool (.ofBytes bytes) u₈.cursor :=
    ⟨_, h₇.trans h₈, minorVersion, majorVersion, access, thisClass, superClass, interfaces, constants, table, hpool,
      hinterfaces, rfl⟩
  refine (declarations_diagnosis hhead (fun fields methods attributes u h => ?_) h).took (h₇.trans h₈)
  rcases bind_eq_error.1 h with h | ⟨⟨⟩, v, -, h⟩
  · cases h
  · exact absurd h pure_ne_error

end ClassFile

end Jvm
