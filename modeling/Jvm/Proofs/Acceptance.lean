import Jvm.Proofs.Nesting
import Jvm.Proofs.Strings
/-!
# Parsing accepts exactly the grammar

Each decoder reads the spelling that the grammar gives its values: constants, the pool, attributes to any depth of
nesting, members and the class.  Parsing a byte string therefore gives a class exactly when the byte string spells that
class (`ClassFile.parse_eq_ok_iff_spelled`).
-/
namespace Jvm

open Decoder

/-! ## Constants -/

@[simp] theorem be1_eq (v : UInt8) : be1 v = [v] := by simp [be1, beBytes]

theorem Tag.toByte_of_ofByte? {b : UInt8} {t : Tag} (h : Tag.ofByte? b = some t) : t.toByte = b := by
  simpa using List.find?_some h

namespace Constant

theorem Spelled.tag {c : Constant} {bytes : Bytes} (h : c.Spelled bytes) :
    ∃ payload, bytes = c.tag.toByte :: payload := by
  cases h <;> exact ⟨_, rfl⟩

theorem isWide_iff {c : Constant} : c.isWide = true ↔ c.TakesTwo := by
  cases c <;> simp [isWide, Constant.tag, Tag.isWide, TakesTwo]

/-- **A constant other than a text has one spelling**, the one that is written for it. -/
theorem spelled_iff_toBytes {c : Constant} (h : c.tag ≠ .utf8) {bytes : Bytes} :
    c.Spelled bytes ↔ bytes = c.toBytes := by
  constructor
  · intro hc
    cases hc <;> first | rfl | exact absurd rfl h
  · rintro rfl
    cases c with
    | utf8 text => exact absurd rfl h
    | member kind owner signature => cases kind <;> constructor
    | _ => constructor

theorem reads_textPayload :
    Reads textPayload fun c bytes => ∃ text payload length, c = .utf8 text ∧ payload.length = UInt16.toNat length ∧
      ModifiedUtf8.decode? payload = some text ∧ bytes = be2 length ++ payload := by
  refine Reads.congr (Reads.u2.field fun length => Reads.offset fun start => (Reads.bytes length.toNat).bind fun bs =>
    show Reads _ (fun c bytes =>
      ∃ text, ModifiedUtf8.decode? bs = some text ∧ c = Constant.utf8 text ∧ bytes = []) from ?_)
    fun c bytes => ?_
  · cases ModifiedUtf8.decode? bs with
    | some text => exact (Reads.pure _).congr fun c bytes => by simp
    | none => exact (Reads.throw _).congr fun c bytes => by simp
  constructor
  · rintro ⟨length, _, ⟨bs, _, _, ⟨hlen, rfl⟩, ⟨text, hdec, rfl, rfl⟩, rfl⟩, rfl⟩
    exact ⟨text, _, length, rfl, hlen, hdec, by simp⟩
  · rintro ⟨text, bs, length, rfl, hlen, hdec, rfl⟩
    exact ⟨length, _, ⟨bs, _, _, ⟨hlen, rfl⟩, ⟨text, hdec, rfl, rfl⟩, rfl⟩, by simp⟩

section Payloads

variable {ω ω' : Type} {d : Decoder ω} {d' : Decoder ω'} {bytesOf : ω → Bytes} {bytesOf' : ω' → Bytes} {t : Tag}

/-- A payload of one number. -/
theorem reads_one {mk : ω → Constant} (hd : Reads d fun v bytes => bytes = bytesOf v)
    (htag : ∀ c, c.tag = t ↔ ∃ v, c = mk v) (hbytes : ∀ v, (mk v).payloadBytes = bytesOf v) :
    Reads (d >>= fun v => pure (mk v)) fun c bytes => c.tag = t ∧ bytes = c.payloadBytes :=
  (hd.map mk).congr fun c bytes => by
    constructor
    · rintro ⟨v, rfl, rfl⟩
      exact ⟨(htag _).2 ⟨v, rfl⟩, (hbytes v).symm⟩
    · rintro ⟨ht, rfl⟩
      obtain ⟨v, rfl⟩ := (htag c).1 ht
      exact ⟨v, rfl, hbytes v⟩

/-- A payload of two numbers. -/
theorem reads_two {mk : ω → ω' → Constant} (hd : Reads d fun v bytes => bytes = bytesOf v)
    (hd' : Reads d' fun v bytes => bytes = bytesOf' v) (htag : ∀ c, c.tag = t ↔ ∃ v v', c = mk v v')
    (hbytes : ∀ v v', (mk v v').payloadBytes = bytesOf v ++ bytesOf' v') :
    Reads (d >>= fun v => d' >>= fun v' => pure (mk v v')) fun c bytes => c.tag = t ∧ bytes = c.payloadBytes :=
  (hd.field fun v => hd'.map (mk v)).congr fun c bytes => by
    constructor
    · rintro ⟨v, _, ⟨v', rfl, rfl⟩, rfl⟩
      exact ⟨(htag _).2 ⟨v, v', rfl⟩, (hbytes v v').symm⟩
    · rintro ⟨ht, rfl⟩
      obtain ⟨v, v', rfl⟩ := (htag c).1 ht
      exact ⟨v, _, ⟨v', rfl, rfl⟩, hbytes v v'⟩

end Payloads

theorem reads_payload_of_ne {t : Tag} (h : t ≠ .utf8) :
    Reads (payload t) fun c bytes => c.tag = t ∧ bytes = c.payloadBytes := by
  cases t with
  | utf8 => exact absurd rfl h
  | integer => exact reads_one Reads.i4 (fun c => by cases c <;> simp [Constant.tag]) fun _ => rfl
  | float => exact reads_one Reads.u4 (fun c => by cases c <;> simp [Constant.tag]) fun _ => rfl
  | long => exact reads_one Reads.i8 (fun c => by cases c <;> simp [Constant.tag]) fun _ => rfl
  | double => exact reads_one Reads.u8 (fun c => by cases c <;> simp [Constant.tag]) fun _ => rfl
  | classRef => exact reads_one Reads.u2 (fun c => by cases c <;> simp [Constant.tag]) fun _ => rfl
  | string => exact reads_one Reads.u2 (fun c => by cases c <;> simp [Constant.tag]) fun _ => rfl
  | member kind => exact reads_two Reads.u2 Reads.u2 (fun c => by cases c <;> simp [Constant.tag]) fun _ _ => rfl
  | nameAndType => exact reads_two Reads.u2 Reads.u2 (fun c => by cases c <;> simp [Constant.tag]) fun _ _ => rfl
  | methodHandle => exact reads_two Reads.u1 Reads.u2 (fun c => by cases c <;> simp [Constant.tag]) fun _ _ => rfl
  | methodType => exact reads_one Reads.u2 (fun c => by cases c <;> simp [Constant.tag]) fun _ => rfl
  | invokeDynamic => exact reads_two Reads.u2 Reads.u2 (fun c => by cases c <;> simp [Constant.tag]) fun _ _ => rfl

/-- **The payload of each kind** is what the grammar puts behind the byte of that kind. -/
theorem reads_payload (t : Tag) : Reads (payload t) fun c bytes => c.tag = t ∧ c.Spelled (t.toByte :: bytes) := by
  by_cases h : t = .utf8
  · subst h
    refine reads_textPayload.congr fun c bytes => ?_
    constructor
    · rintro ⟨text, bs, length, rfl, hlen, hdec, rfl⟩
      exact ⟨rfl, .utf8 hlen hdec⟩
    · rintro ⟨ht, hc⟩
      cases c with
      | utf8 text =>
        cases hc with
        | utf8 hlen hdec => exact ⟨_, _, _, rfl, hlen, hdec, rfl⟩
      | _ => cases ht
  · refine (reads_payload_of_ne h).congr fun c bytes => and_congr_right fun ht => ?_
    rw [spelled_iff_toBytes (ht ▸ h), toBytes, ht, List.cons.injEq]
    simp

theorem reads_decoder : Reads decoder Spelled := by
  refine Reads.congr (Reads.offset fun start => Reads.u1.field fun byte =>
    show Reads _ (fun c bytes => Constant.Spelled c (byte :: bytes)) from ?_) fun c bytes => ?_
  · cases hbyte : Tag.ofByte? byte with
    | some t =>
      refine (reads_payload t).congr fun c bytes => ?_
      rw [Tag.toByte_of_ofByte? hbyte]
      refine ⟨fun h => h.2, fun h => ⟨?_, h⟩⟩
      obtain ⟨_, hb⟩ := h.tag
      obtain ⟨rfl, -⟩ := List.cons.inj hb
      rw [Tag.ofByte?_toByte] at hbyte
      exact Option.some.inj hbyte
    | none =>
      refine (Reads.throw _).congr fun c bytes => ⟨False.elim, fun h => ?_⟩
      obtain ⟨_, hb⟩ := h.tag
      obtain ⟨rfl, -⟩ := List.cons.inj hb
      rw [Tag.ofByte?_toByte] at hbyte
      cases hbyte
  constructor
  · rintro ⟨byte, rest, h, rfl⟩
    simpa using h
  · intro h
    obtain ⟨rest, rfl⟩ := h.tag
    exact ⟨c.tag.toByte, rest, h, by simp⟩

end Constant

/-! ## The pool -/

namespace ConstantPool

/-- What fills the slots behind the slot of a constant, when it stands in the first of `n + 1` slots. -/
def FillsBehind (c : Constant) (n : Nat) : Spelling (List (Option Constant)) := fun slots bytes =>
  if c.isWide then
    match n with
    | 0 => slots = [] ∧ bytes = []
    | n + 1 => ∃ behind, slots = none :: behind ∧ Fills n behind bytes
  else Fills n slots bytes

theorem fills_succ_iff {n : Nat} {slots : List (Option Constant)} {bytes : Bytes} :
    Fills (n + 1) slots bytes ↔ ∃ c first rest behind, c.Spelled first ∧ FillsBehind c n behind rest ∧
      slots = some c :: behind ∧ bytes = first ++ rest := by
  unfold FillsBehind
  constructor
  · intro h
    cases h with
    | narrow one head tail =>
      rename_i c slots first rest
      exact ⟨c, first, rest, slots, head, by rwa [if_neg (mt Constant.isWide_iff.1 one)], rfl, rfl⟩
    | wide two head tail =>
      rename_i n c slots first rest
      exact ⟨c, first, rest, none :: slots, head, by rw [if_pos (Constant.isWide_iff.2 two)]; exact ⟨slots, rfl, tail⟩,
        rfl, rfl⟩
    | wideLast two head =>
      rename_i c
      exact ⟨c, bytes, [], [], head, by rw [if_pos (Constant.isWide_iff.2 two)]; exact ⟨rfl, rfl⟩, rfl, by simp⟩
  · rintro ⟨c, first, rest, behind, head, tail, rfl, rfl⟩
    by_cases hw : c.isWide = true
    · rw [if_pos hw] at tail
      cases n with
      | zero =>
        obtain ⟨rfl, rfl⟩ := tail
        simpa using Fills.wideLast (Constant.isWide_iff.1 hw) head
      | succ n =>
        obtain ⟨behind, rfl, tail⟩ := tail
        exact .wide (Constant.isWide_iff.1 hw) head tail
    · rw [if_neg hw] at tail
      exact .narrow (mt Constant.isWide_iff.2 hw) head tail

/-- **Filling reads the constants of the slots** and appends them to the slots that are there. -/
theorem reads_fill : ∀ (n : Nat) (slots : Array (Option Constant)),
    Reads (fill n slots) fun r bytes => ∃ new, r = slots ++ new.toArray ∧ Fills n new bytes
  | 0, slots => (Reads.pure slots).congr fun r bytes => by
    constructor
    · rintro ⟨rfl, rfl⟩
      exact ⟨[], by simp, .done⟩
    · rintro ⟨new, rfl, h⟩
      cases h
      exact ⟨by simp, rfl⟩
  | n + 1, slots => by
    have hbehind : ∀ c : Constant, Reads (if c.isWide then
        match n with
        | 0 => pure (slots.push (some c))
        | n + 1 => fill n ((slots.push (some c)).push none)
        else fill n (slots.push (some c)))
        fun r bytes => ∃ behind, r = slots ++ (some c :: behind).toArray ∧ FillsBehind c n behind bytes := by
      intro c
      unfold FillsBehind
      by_cases hw : c.isWide = true
      · simp only [if_pos hw]
        cases n with
        | zero =>
          refine (Reads.pure _).congr fun r bytes => ?_
          constructor
          · rintro ⟨rfl, rfl⟩
            exact ⟨[], by simp, rfl, rfl⟩
          · rintro ⟨_, rfl, rfl, rfl⟩
            exact ⟨by simp, rfl⟩
        | succ n =>
          refine (reads_fill n _).congr fun r bytes => ?_
          constructor
          · rintro ⟨new, rfl, h⟩
            exact ⟨none :: new, by simp, new, rfl, h⟩
          · rintro ⟨_, rfl, new, rfl, h⟩
            exact ⟨new, by simp, h⟩
      · simp only [if_neg hw]
        refine (reads_fill n _).congr fun r bytes => ?_
        constructor
        · rintro ⟨new, rfl, h⟩
          exact ⟨new, by simp, h⟩
        · rintro ⟨new, rfl, h⟩
          exact ⟨new, by simp, h⟩
    rw [fill]
    refine (Constant.reads_decoder.bind hbehind).congr fun r bytes => ?_
    constructor
    · rintro ⟨c, first, rest, head, ⟨behind, rfl, tail⟩, rfl⟩
      exact ⟨some c :: behind, rfl, fills_succ_iff.2 ⟨c, first, rest, behind, head, tail, rfl, rfl⟩⟩
    · rintro ⟨new, rfl, h⟩
      obtain ⟨c, first, rest, behind, head, tail, rfl, rfl⟩ := fills_succ_iff.1 h
      exact ⟨c, first, rest, head, ⟨behind, rfl, tail⟩, rfl⟩

theorem reads_decoder : Reads decoder Spelled :=
  (Reads.u2.field fun count => (reads_fill (count.toNat - 1) #[none]).map (ConstantPool.mk count)).congr
    fun pool bytes => by
    constructor
    · rintro ⟨count, rest, ⟨slots, rfl, new, rfl, h⟩, rfl⟩
      simpa using Spelled.mk h
    · rintro ⟨h⟩
      exact ⟨_, _, ⟨_, rfl, _, by simp, h⟩, rfl⟩

end ConstantPool

/-! ## Attributes

The spelling of nested attributes is first a parameter, as it is of the decoders.  To close the recursion, both sides
are cut off at the same depth, where neither accepts anything (`limited`, `NestedUpTo`); a list of fewer than eighteen
bytes for each level does not notice. -/

theorem ExceptionHandler.reads_decoder : Reads ExceptionHandler.decoder ExceptionHandler.Spelled :=
  (Reads.u2.field fun startPc => Reads.u2.field fun endPc => Reads.u2.field fun handlerPc =>
    Reads.u2.map (ExceptionHandler.mk startPc endPc handlerPc)).congr fun h bytes => by
    constructor
    · rintro ⟨startPc, _, ⟨endPc, _, ⟨handlerPc, _, ⟨catchType, rfl, rfl⟩, rfl⟩, rfl⟩, rfl⟩
      simp [Spelled]
    · rintro rfl
      exact ⟨_, _, ⟨_, _, ⟨_, _, ⟨_, rfl, rfl⟩, rfl⟩, rfl⟩, by simp⟩

namespace Code

/-- A method body that ends in attributes of the given spelling. -/
def EndingIn (nested : Spelling (List Attribute)) : Spelling Code := fun body bytes =>
  ∃ front attributes inner, body.Front front ∧ nested inner attributes ∧ bytes = front ++ attributes

/-- Reads what stands in front of the attributes of a method body. -/
def front : Decoder Code := do
  let maxStack ← Decoder.u2
  let maxLocals ← Decoder.u2
  let length ← Decoder.u4
  let code ← Decoder.bytes length.toNat
  let handlers ← Decoder.counted ExceptionHandler.decoder
  return ⟨maxStack, maxLocals, code.toArray, handlers⟩

theorem decoder_eq (nested : Decoder (List Attribute)) : decoder nested = (do
    let body ← front
    let _ ← nested
    return body) := by
  simp only [decoder, front, bind_assoc, pure_bind]

theorem reads_front : Reads front Front := by
  refine (Reads.u2.field fun maxStack => Reads.u2.field fun maxLocals => Reads.u4.field fun length =>
    (Reads.bytes length.toNat).bind fun code =>
      ExceptionHandler.reads_decoder.counted.map (Code.mk maxStack maxLocals code.toArray)).congr fun body bytes => ?_
  constructor
  · rintro ⟨maxStack, _, ⟨maxLocals, _, ⟨length, _, ⟨_, code, rows, ⟨hlen, rfl⟩, ⟨handlers, rfl, hrows⟩, rfl⟩, rfl⟩,
      rfl⟩, rfl⟩
    have hfront : Front ⟨maxStack, maxLocals, code.toArray, handlers⟩ _ := .mk hlen hrows
    simpa using hfront
  · rintro ⟨hlen, hrows⟩
    exact ⟨_, _, ⟨_, _, ⟨_, _, ⟨body.code.toList, _, _, ⟨hlen, rfl⟩, ⟨_, rfl, hrows⟩, rfl⟩, rfl⟩, rfl⟩, by simp⟩

theorem reads_decoder {nested : Decoder (List Attribute)} {N : Spelling (List Attribute)} (h : Reads nested N) :
    Reads (decoder nested) (EndingIn N) := by
  rw [decoder_eq]
  refine (reads_front.bind fun body => h.map fun _ => body).congr fun body bytes => ?_
  constructor
  · rintro ⟨_, first, rest, hfront, ⟨inner, rfl, hin⟩, rfl⟩
    exact ⟨first, rest, inner, hfront, hin, rfl⟩
  · rintro ⟨first, rest, inner, hfront, hin, rfl⟩
    exact ⟨body, first, rest, hfront, ⟨inner, rfl, hin⟩, rfl⟩

end Code

namespace Attribute

/-- An attribute whose method bodies end in attributes of the given spelling. -/
def RecordOf (pool : ConstantPool) (nested : Spelling (List Attribute)) : Spelling Attribute := fun a bytes =>
  ∃ index length name window, pool.Names index name ∧ window.length = UInt32.toNat length ∧
    (if name = "Code" then ∃ body, a = .code body ∧ Code.EndingIn nested body window else a = .skipped name length) ∧
    bytes = be2 index ++ be4 length ++ window

theorem spelled_iff {pool : ConstantPool} {a : Attribute} {bytes : Bytes} :
    Spelled pool a bytes ↔ RecordOf pool (Counted (Spelled pool)) a bytes := by
  constructor
  · intro h
    cases h with
    | code named filled spelled inner =>
      exact ⟨_, _, _, _, named, filled, by rw [if_pos rfl]; exact ⟨_, rfl, _, _, _, spelled, inner, rfl⟩, rfl⟩
    | skipped named other filled => exact ⟨_, _, _, _, named, filled, by rw [if_neg other], rfl⟩
  · rintro ⟨index, length, name, window, named, filled, h, rfl⟩
    by_cases hname : name = "Code"
    · subst hname
      rw [if_pos rfl] at h
      obtain ⟨body, rfl, front, attributes, nested, spelled, inner, rfl⟩ := h
      exact .code named filled spelled inner
    · rw [if_neg hname] at h
      subst h
      exact .skipped named hname filled

theorem reads_codeIn {nested : Decoder (List Attribute)} {N : Spelling (List Attribute)} (h : Reads nested N)
    (length : UInt32) :
    Reads (codeIn length nested) fun a bytes =>
      bytes.length = length.toNat ∧ ∃ body, a = .code body ∧ Code.EndingIn N body bytes :=
  ((Code.reads_decoder h).filling length.toNat code fun rest =>
    .attributeLengthMismatch codeName length (length.toNat - rest.remaining)).congr fun a bytes => by
    constructor
    · rintro ⟨body, rfl, hlen, hb⟩
      exact ⟨hlen, body, rfl, hb⟩
    · rintro ⟨hlen, body, rfl, hb⟩
      exact ⟨body, rfl, hlen, hb⟩

theorem reads_skip (name : String) (length : UInt32) :
    Reads (skip name length) fun a bytes => bytes.length = length.toNat ∧ a = .skipped name length := by
  have hwindow : skip name length = (do
      let start ← Decoder.offset
      let _ ← Decoder.bytes length.toNat
      Decoder.report (.skippedAttribute name length start)
      return .skipped name length) := by
    unfold skip
    rw [window_eq, bind_assoc]
    simp only [bind_assoc, pure_bind]
  rw [hwindow]
  refine (Reads.offset fun start => (Reads.bytes length.toNat).bind fun _ => Reads.report _ (Reads.pure _)).congr
    fun a bytes => ?_
  constructor
  · rintro ⟨bs, _, _, ⟨hlen, rfl⟩, ⟨rfl, rfl⟩, rfl⟩
    exact ⟨by simpa using hlen, rfl⟩
  · rintro ⟨hlen, rfl⟩
    exact ⟨bytes, bytes, [], ⟨hlen, rfl⟩, ⟨rfl, rfl⟩, by simp⟩

/-- A name is resolved without reading anything. -/
theorem reads_name (pool : ConstantPool) (index : UInt16) :
    Reads (Decoder.ofExcept (pool.utf8 index)) fun name bytes => pool.Names index name ∧ bytes = [] := by
  intro s name c
  constructor
  · rintro ⟨events, hs⟩
    obtain ⟨hok, hs⟩ := ofExcept_eq_ok.1 hs
    exact ⟨[], by simp [← hs], ConstantPool.utf8_eq_ok.1 hok, rfl⟩
  · rintro ⟨_, ht, hnames, rfl⟩
    exact ⟨s.events, ofExcept_eq_ok.2 ⟨ConstantPool.utf8_eq_ok.2 hnames, by rw [Cursor.Took.nil_iff.1 ht]⟩⟩

theorem reads_record {pool : ConstantPool} {nested : Decoder (List Attribute)} {N : Spelling (List Attribute)}
    (h : Reads nested N) : Reads (record pool fun _ => nested) (RecordOf pool N) := by
  have hwindow : ∀ name length, Reads (if name = codeName then codeIn length nested else skip name length)
      fun a bytes => bytes.length = length.toNat ∧
        if name = "Code" then ∃ body, a = .code body ∧ Code.EndingIn N body bytes else a = .skipped name length := by
    intro name length
    by_cases hc : name = codeName
    · rw [if_pos hc]
      simpa only [if_pos (show name = "Code" from hc)] using reads_codeIn h length
    · rw [if_neg hc]
      simpa only [if_neg (show ¬ name = "Code" from hc)] using reads_skip name length
  refine (Reads.u2.field fun index => (reads_name pool index).bind fun name => Reads.u4.field fun length =>
    hwindow name length).congr fun a bytes => ?_
  constructor
  · rintro ⟨index, _, ⟨name, _, _, ⟨named, rfl⟩, ⟨length, window, ⟨hlen, ha⟩, rfl⟩, rfl⟩, rfl⟩
    exact ⟨index, length, name, window, named, hlen, ha, by simp⟩
  · rintro ⟨index, length, name, window, named, hlen, ha, rfl⟩
    exact ⟨index, _, ⟨name, _, _, ⟨named, rfl⟩, ⟨length, window, ⟨hlen, ha⟩, rfl⟩, rfl⟩, by simp⟩

/-- The decoder of lists with its nesting cut off at a depth, below which every list is refused. -/
def limited (pool : ConstantPool) : Nat → Decoder (List Attribute)
  | 0 => throw (.trailingBytes 0 0)
  | n + 1 => counted (record pool fun _ => limited pool n)

/-- The spelling of lists with its nesting cut off at a depth, below which nothing is spelled. -/
def NestedUpTo (pool : ConstantPool) : Nat → Spelling (List Attribute)
  | 0 => fun _ _ => False
  | n + 1 => Counted (RecordOf pool (NestedUpTo pool n))

theorem reads_limited (pool : ConstantPool) : ∀ n, Reads (limited pool n) (NestedUpTo pool n)
  | 0 => Reads.throw _
  | n + 1 => (reads_record (reads_limited pool n)).counted

theorem composed_limited (pool : ConstantPool) : ∀ n, Composed (limited pool n)
  | 0 => .throw _
  | n + 1 => .counted (composed_record (fun _ => composed_limited pool n) pool)

theorem limited_agree (pool : ConstantPool) : ∀ n, AgreeBelow (18 * n) (limited pool n) (listDecoder pool)
  | 0 => fun s hs => absurd hs (Nat.not_lt_zero _)
  | n + 1 => by
    rw [listDecoder, decoder_eq]
    exact list_agree (k := 18 * n) pool (fun _ => composed_limited pool n) fun length hlen =>
      (limited_agree pool n).mono (by omega)

/-! ### The cut is not noticed -/

theorem endingIn_mono {N N' : Spelling (List Attribute)} {body : Code} {bytes : Bytes} (h : Code.EndingIn N body bytes)
    (hN : ∀ xs attributes, attributes.length + 10 ≤ bytes.length → N xs attributes → N' xs attributes) :
    Code.EndingIn N' body bytes := by
  obtain ⟨front, attributes, inner, hfront, hin, rfl⟩ := h
  refine ⟨front, attributes, inner, hfront, hN inner attributes ?_ hin, rfl⟩
  have := hfront.ten_le
  rw [List.length_append]
  omega

theorem recordOf_mono {pool : ConstantPool} {N N' : Spelling (List Attribute)} {a : Attribute} {bytes : Bytes}
    (h : RecordOf pool N a bytes)
    (hN : ∀ xs attributes, attributes.length + 16 ≤ bytes.length → N xs attributes → N' xs attributes) :
    RecordOf pool N' a bytes := by
  obtain ⟨index, length, name, window, named, filled, hw, rfl⟩ := h
  refine ⟨index, length, name, window, named, filled, ?_, rfl⟩
  by_cases hname : name = "Code"
  · rw [if_pos hname] at hw ⊢
    obtain ⟨body, rfl, hb⟩ := hw
    refine ⟨body, rfl, endingIn_mono hb fun xs attributes hlen => hN xs attributes ?_⟩
    simp only [List.length_append, length_be2, length_be4]
    omega
  · rw [if_neg hname] at hw ⊢
    exact hw

theorem counted_mono {R R' : Spelling Attribute} {xs : List Attribute} {bytes : Bytes} (h : Counted R xs bytes)
    (hR : ∀ x item, item.length + 2 ≤ bytes.length → R x item → R' x item) : Counted R' xs bytes := by
  obtain ⟨hlen, hitems⟩ := h
  refine .mk hlen ?_
  clear hlen
  induction hitems with
  | nil => exact .nil
  | cons head tail ih =>
    refine .cons (hR _ _ ?_ head) (ih fun x item hitem => hR x item ?_)
    · simp only [List.length_append, length_be2]
      omega
    · simp only [List.length_append, length_be2] at hitem ⊢
      omega

theorem spelled_of_nestedUpTo {pool : ConstantPool} : ∀ {n : Nat} {xs : List Attribute} {bytes : Bytes},
    NestedUpTo pool n xs bytes → Counted (Spelled pool) xs bytes
  | 0, _, _, h => h.elim
  | _ + 1, _, _, h => counted_mono h fun _ _ _ hx =>
    spelled_iff.2 (recordOf_mono hx fun _ _ _ => spelled_of_nestedUpTo)

theorem nestedUpTo_of_spelled {pool : ConstantPool} : ∀ {n : Nat} {xs : List Attribute} {bytes : Bytes},
    bytes.length < 18 * n → Counted (Spelled pool) xs bytes → NestedUpTo pool n xs bytes
  | 0, _, _, hlen, _ => absurd hlen (Nat.not_lt_zero _)
  | n + 1, _, _, hlen, h => counted_mono h fun x item hitem hx =>
    recordOf_mono (spelled_iff.1 hx) fun ys attributes hatts => nestedUpTo_of_spelled (by omega)

/-- **A list of attributes**, nested to any depth. -/
theorem reads_listDecoder (pool : ConstantPool) : Reads (listDecoder pool) (Counted (Spelled pool)) := by
  intro s xs c
  have hroom : s.cursor.remaining < 18 * (s.cursor.remaining + 1) := by omega
  rw [← limited_agree pool (s.cursor.remaining + 1) s hroom, reads_limited pool (s.cursor.remaining + 1) s xs c]
  constructor
  · rintro ⟨taken, ht, h⟩
    exact ⟨taken, ht, spelled_of_nestedUpTo h⟩
  · rintro ⟨taken, ht, h⟩
    have := ht.remaining
    exact ⟨taken, ht, nestedUpTo_of_spelled (by omega) h⟩

theorem reads_decoder (pool : ConstantPool) : Reads (decoder pool) (Spelled pool) := by
  rw [decoder_eq]
  exact (reads_record (reads_listDecoder pool)).congr fun a bytes => spelled_iff.symm

end Attribute

/-! ## Members and classes -/

theorem Member.reads_decoder (pool : ConstantPool) : Reads (Member.decoder pool) (Member.Spelled pool) :=
  (Reads.u2.field fun access => Reads.u2.field fun nameIndex => Reads.u2.field fun descriptorIndex =>
    (Attribute.reads_listDecoder pool).map (Member.mk ⟨access⟩ nameIndex descriptorIndex)).congr fun m bytes => by
    constructor
    · rintro ⟨access, _, ⟨nameIndex, _, ⟨descriptorIndex, rest, ⟨attributes, rfl, h⟩, rfl⟩, rfl⟩, rfl⟩
      exact ⟨rest, h, by simp⟩
    · rintro ⟨rest, h, rfl⟩
      exact ⟨_, _, ⟨_, _, ⟨_, rest, ⟨_, rfl, h⟩, rfl⟩, rfl⟩, by simp⟩

namespace ClassFile

theorem reads_magicDecoder : Reads magicDecoder fun _ bytes => bytes = be4 0xCAFEBABE := by
  have hcheck : ∀ found : UInt32, Reads (if found = magic then (return () : Decoder Unit) else throw (.badMagic found))
      fun _ bytes => found = 0xCAFEBABE ∧ bytes = [] := by
    intro found
    by_cases h : found = magic
    · rw [if_pos h]
      exact (Reads.pure ()).congr fun _ bytes => by simp [h, magic]
    · rw [if_neg h]
      exact (Reads.throw _).congr fun _ bytes => by simp [show ¬ found = 0xCAFEBABE from h]
  refine (Reads.u4.bind hcheck).congr fun _ bytes => ?_
  constructor
  · rintro ⟨_, _, _, rfl, ⟨rfl, rfl⟩, rfl⟩
    simp
  · rintro rfl
    exact ⟨_, _, _, rfl, ⟨rfl, rfl⟩, by simp⟩

theorem reads_decoder : Reads decoder Spelled := by
  refine (reads_magicDecoder.field fun _ => Reads.u2.field fun minorVersion => Reads.u2.field fun majorVersion =>
    ConstantPool.reads_decoder.bind fun pool => Reads.u2.field fun access => Reads.u2.field fun thisClass =>
    Reads.u2.field fun superClass => Reads.u2.counted.bind fun interfaces =>
      (Member.reads_decoder pool).counted.bind fun fields =>
    (Member.reads_decoder pool).counted.bind fun methods => (Attribute.reads_listDecoder pool).bind fun attributes =>
    Reads.report (.decodedClass majorVersion minorVersion pool.count fields.length methods.length) (Reads.pure _)).congr
      fun c bytes => ?_
  constructor
  · rintro ⟨_, _, ⟨minorVersion, _, ⟨majorVersion, _, ⟨pool, _, _, hpool, ⟨access, _, ⟨thisClass, _, ⟨superClass, _,
      ⟨interfaces, _, _, hinterfaces, ⟨fields, _, _, hfields, ⟨methods, _, _, hmethods, ⟨attributes, _, _, hattributes,
      ⟨rfl, rfl⟩, rfl⟩, rfl⟩, rfl⟩, rfl⟩, rfl⟩, rfl⟩, rfl⟩, rfl⟩, rfl⟩, rfl⟩, rfl⟩
    exact ⟨_, _, _, _, _, hpool, hinterfaces, hfields, hmethods, hattributes, by simp⟩
  · rintro ⟨pool, interfaces, fields, methods, attributes, hpool, hinterfaces, hfields, hmethods, hattributes, rfl⟩
    exact ⟨(), _, ⟨_, _, ⟨_, _, ⟨_, _, _, hpool, ⟨_, _, ⟨_, _, ⟨_, _, ⟨_, _, _, hinterfaces, ⟨_, _, _, hfields,
      ⟨_, _, _, hmethods, ⟨_, _, _, hattributes, ⟨rfl, rfl⟩, rfl⟩, rfl⟩, rfl⟩, rfl⟩, rfl⟩, rfl⟩, rfl⟩, rfl⟩, rfl⟩, rfl⟩,
      by simp⟩

theorem finish_eq_ok {s t : DecodeState} {u : Unit} : finish s = .ok u t ↔ s.cursor.bytes = [] ∧ t = s := by
  unfold finish Cursor.isEmpty
  cases s.cursor.bytes <;> simp [eq_comm]

theorem finish_eq_error {s t : DecodeState} {e : DecodeError} :
    finish s = .error e t ↔ s.cursor.bytes ≠ [] ∧ e = .trailingBytes s.cursor.offset s.cursor.remaining ∧ t = s := by
  unfold finish Cursor.isEmpty
  cases s.cursor.bytes <;> simp [eq_comm]

theorem parse_eq_ok {bytes : Bytes} {c : ClassFile} :
    parse bytes = .ok c ↔ ∃ t, decoder ⟨.ofBytes bytes, #[]⟩ = .ok c t ∧ t.cursor.bytes = [] := by
  show (wholeDecoder.runAt (.ofBytes bytes)).result = .ok c ↔ _
  rw [runAt_result_eq_ok]
  simp only [wholeDecoder, bind_eq_ok, finish_eq_ok, pure_eq_ok]
  constructor
  · rintro ⟨t, _, _, hd, _, _, ⟨hnil, rfl⟩, rfl, rfl⟩
    exact ⟨t, hd, hnil⟩
  · rintro ⟨t, hd, hnil⟩
    exact ⟨t, c, t, hd, (), t, ⟨hnil, rfl⟩, rfl, rfl⟩

/-- **Parsing gives a class exactly when the byte string spells it.** -/
theorem parse_eq_ok_iff_spelled (bytes : Bytes) (c : ClassFile) : parse bytes = .ok c ↔ c.Spelled bytes := by
  rw [parse_eq_ok]
  constructor
  · rintro ⟨⟨⟨offset, rest⟩, events⟩, hd, rfl⟩
    exact (Spans.ofBytes_iff.1 (reads_decoder.spans hd)).1
  · intro h
    obtain ⟨events, hd⟩ := (reads_decoder ⟨.ofBytes bytes, #[]⟩ c ⟨bytes.length, []⟩).2 (Spans.ofBytes_iff.2 ⟨h, rfl⟩)
    exact ⟨_, hd, rfl⟩

end ClassFile

end Jvm
