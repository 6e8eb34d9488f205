import Jvm.Proofs.Acceptance
/-!
# Decoding is decided by the bytes it consumed

Bytes behind the ones that a decoder has consumed make no difference to it.  The only failure that more bytes can turn
into something else is a read that reached over the end of the buffer.  Inside a window it cannot: a window is cut out
before its content is looked at, and a read that reaches over its end fails however long the buffer is.

So a class file is never the beginning of another one, and each of its own beginnings is found to be truncated.
-/
namespace Jvm

/-- The state of a decoder over a longer buffer. -/
def DecodeState.extend (s : DecodeState) (more : Bytes) : DecodeState :=
  ⟨⟨s.cursor.offset, s.cursor.bytes ++ more⟩, s.events⟩

/-- A read that reached over the end of what is before the cursor. -/
def Cursor.Overrun (c : Cursor) (e : DecodeError) : Prop :=
  ∃ offset needed remaining, e = .truncatedInput offset needed remaining ∧ remaining < needed ∧
  offset + remaining = c.stop

namespace Decoder

variable {α : Type}

theorem bytes_extend {n : Nat} {s t : DecodeState} {bs : Bytes} (h : bytes n s = .ok bs t) (more : Bytes) :
    bytes n (s.extend more) = .ok bs (t.extend more) := by
  obtain ⟨hn, ⟨hb, ho⟩, he⟩ := bytes_eq_ok.1 h
  refine bytes_eq_ok.2 ⟨hn, ⟨?_, ho⟩, he⟩
  show s.cursor.bytes ++ more = bs ++ (t.cursor.bytes ++ more)
  rw [hb, List.append_assoc]

/-- **More bytes change nothing but a read over the end.** -/
theorem Composed.extend {d : Decoder α} (h : Composed d) (s : DecodeState) (more : Bytes) :
    (∀ a t, d s = .ok a t → d (s.extend more) = .ok a (t.extend more)) ∧
      (∀ e t, d s = .error e t → d (s.extend more) = .error e (t.extend more) ∨ s.cursor.Overrun e) := by
  induction h generalizing s with
  | pure a => exact ⟨fun b t ht => by simp [pure_eq_ok.1 ht], fun e t ht => absurd ht pure_ne_error⟩
  | throw e => exact ⟨fun b t ht => absurd ht throw_ne_ok, fun e t ht => .inl (by simp [throw_eq_error.1 ht])⟩
  | report e => exact ⟨fun b t ht => by cases ht; rfl, fun e t ht => by cases ht⟩
  | offset => exact ⟨fun b t ht => by cases ht; rfl, fun e t ht => by cases ht⟩
  | bytes n =>
    refine ⟨fun bs t ht => bytes_extend ht more, fun e t ht => .inr ?_⟩
    obtain ⟨hlt, rfl, -⟩ := bytes_eq_error.1 ht
    exact ⟨_, _, _, rfl, hlt, rfl⟩
  | @bind α β d f hd _ ihd ihf =>
    constructor
    · intro b t ht
      obtain ⟨a, u, hdu, hfu⟩ := bind_eq_ok.1 ht
      exact bind_eq_ok.2 ⟨a, _, (ihd s).1 a u hdu, (ihf a u).1 b t hfu⟩
    · intro e t ht
      rcases bind_eq_error.1 ht with hde | ⟨a, u, hdu, hfu⟩
      · rcases (ihd s).2 e t hde with hd' | hover
        · exact .inl (bind_eq_error.2 (.inl hd'))
        · exact .inr hover
      · rcases (ihf a u).2 e t hfu with hf' | ⟨offset, needed, remaining, he, hlt, hstop⟩
        · exact .inl (bind_eq_error.2 (.inr ⟨a, _, (ihd s).1 a u hdu, hf'⟩))
        · obtain ⟨taken, htook⟩ := (hd.took s).1 a u hdu
          exact .inr ⟨offset, needed, remaining, he, hlt, hstop.trans htook.stop⟩
  | inside w _ _ =>
    -- the window is cut off from the bytes behind the outer cursor
    constructor
    · rintro ⟨a, c⟩ t ht
      obtain ⟨events, hd, rfl⟩ := inside_eq_ok.1 ht
      exact inside_eq_ok.2 ⟨events, hd, rfl⟩
    · intro e t ht
      obtain ⟨u, hd, rfl⟩ := inside_eq_error.1 ht
      exact .inl (inside_eq_error.2 ⟨u, hd, rfl⟩)

end Decoder

/-! ## The decoders of a class file are composed -/

open Decoder

namespace Constant

theorem plain_textPayload : Plain textPayload :=
  .bind .u2 fun length => .bind .offset fun start => .bind (.bytes length.toNat) fun payload => by
    cases ModifiedUtf8.decode? payload with
    | some text => exact .pure _
    | none => exact .throw _

theorem plain_payload : ∀ t, Plain (payload t)
  | .utf8 => plain_textPayload
  | .integer => .bind .i4 fun _ => .pure _
  | .float => .bind .u4 fun _ => .pure _
  | .long => .bind .i8 fun _ => .pure _
  | .double => .bind .u8 fun _ => .pure _
  | .classRef => .bind .u2 fun _ => .pure _
  | .string => .bind .u2 fun _ => .pure _
  | .member _ => .bind .u2 fun _ => .bind .u2 fun _ => .pure _
  | .nameAndType => .bind .u2 fun _ => .bind .u2 fun _ => .pure _
  | .methodHandle => .bind .u1 fun _ => .bind .u2 fun _ => .pure _
  | .methodType => .bind .u2 fun _ => .pure _
  | .invokeDynamic => .bind .u2 fun _ => .bind .u2 fun _ => .pure _

theorem plain_decoder : Plain decoder :=
  .bind .offset fun start => .bind .u1 fun byte => by
    cases Tag.ofByte? byte with
    | some t => exact plain_payload t
    | none => exact .throw _

end Constant

namespace ConstantPool

theorem plain_fill : ∀ (n : Nat) (slots : Array (Option Constant)), Plain (fill n slots)
  | 0, _ => .pure _
  | n + 1, slots => by
    rw [fill]
    refine .bind Constant.plain_decoder fun c => ?_
    by_cases hw : c.isWide = true
    · rw [if_pos hw]
      cases n with
      | zero => exact .pure _
      | succ n => exact plain_fill n _
    · rw [if_neg hw]
      exact plain_fill n _

theorem plain_decoder : Plain decoder := .bind .u2 fun _ => .bind (plain_fill _ _) fun _ => .pure _

end ConstantPool

theorem Member.composed_decoder (pool : ConstantPool) : Composed (Member.decoder pool) :=
  .bind .u2 fun _ => .bind .u2 fun _ => .bind .u2 fun _ => .bind (Attribute.composed_listDecoder pool) fun _ => .pure _

namespace ClassFile

theorem plain_magicDecoder : Plain magicDecoder :=
  .bind .u4 fun found => by
    split
    · exact .pure _
    · exact .throw _

theorem composed_decoder : Composed decoder :=
  .bind plain_magicDecoder.composed fun _ => .bind .u2 fun _ => .bind .u2 fun _ =>
    .bind ConstantPool.plain_decoder.composed fun pool =>
    .bind .u2 fun _ => .bind .u2 fun _ => .bind .u2 fun _ => .bind (.counted .u2) fun _ =>
    .bind (.counted (Member.composed_decoder pool)) fun _ => .bind (.counted (Member.composed_decoder pool)) fun _ =>
    .bind (Attribute.composed_listDecoder pool) fun _ => .bind (.report _) fun _ => .pure _

/-! ## Longer and shorter buffers -/

theorem parse_eq_error {bytes : Bytes} {e : DecodeError} :
    parse bytes = .error e ↔ (∃ t, decoder ⟨.ofBytes bytes, #[]⟩ = .error e t) ∨
      ∃ c t, decoder ⟨.ofBytes bytes, #[]⟩ = .ok c t ∧ t.cursor.bytes ≠ [] ∧
        e = .trailingBytes t.cursor.offset t.cursor.remaining := by
  show (wholeDecoder.runAt (.ofBytes bytes)).result = .error e ↔ _
  rw [runAt_result_eq_error]
  simp only [wholeDecoder, bind_eq_error, finish_eq_error, pure_ne_error, and_false, exists_false, or_false]
  constructor
  · rintro ⟨t, hd | ⟨c, u, hd, hne, rfl, rfl⟩⟩
    · exact .inl ⟨t, hd⟩
    · exact .inr ⟨c, t, hd, hne, rfl⟩
  · rintro (⟨t, hd⟩ | ⟨c, t, hd, hne, rfl⟩)
    · exact ⟨t, .inl hd⟩
    · exact ⟨t, .inr ⟨c, t, hd, hne, rfl, rfl⟩⟩

theorem decoder_append {b : Bytes} {c : ClassFile} {u : DecodeState} (h : decoder ⟨.ofBytes b, #[]⟩ = .ok c u)
    (t : Bytes) :
    decoder ⟨.ofBytes (b ++ t), #[]⟩ = .ok c (u.extend t) :=
  (composed_decoder.extend ⟨.ofBytes b, #[]⟩ t).1 c u h

/-- What is left behind a class that was decoded from the start of a buffer. -/
theorem stop_of_decoder {b : Bytes} {c : ClassFile} {u : DecodeState} (h : decoder ⟨.ofBytes b, #[]⟩ = .ok c u) :
    u.cursor.offset + u.cursor.remaining = b.length := by
  obtain ⟨taken, ht⟩ := (composed_decoder.took ⟨.ofBytes b, #[]⟩).1 c u h
  have hstop := ht.stop
  simpa [Cursor.stop, Cursor.ofBytes, Cursor.remaining] using hstop

theorem parse_append_of_error {b : Bytes} {e : DecodeError} (h : parse b = .error e)
    (htrunc : ∀ offset needed remaining, e ≠ .truncatedInput offset needed remaining)
    (htrail : ∀ offset remaining, e ≠ .trailingBytes offset remaining) (t : Bytes) : parse (b ++ t) = .error e := by
  rcases parse_eq_error.1 h with ⟨u, hd⟩ | ⟨c, u, -, -, he⟩
  · rcases (composed_decoder.extend ⟨.ofBytes b, #[]⟩ t).2 e u hd with hd' | ⟨offset, needed, remaining, he, -⟩
    · exact parse_eq_error.2 (.inl ⟨_, hd'⟩)
    · exact absurd he (htrunc offset needed remaining)
  · exact absurd he (htrail _ _)

theorem parse_append_of_ok {b : Bytes} {c : ClassFile} (h : parse b = .ok c) {t : Bytes} (ht : t ≠ []) :
    parse (b ++ t) = .error (.trailingBytes b.length t.length) := by
  obtain ⟨u, hd, hnil⟩ := parse_eq_ok.1 h
  have hstop := stop_of_decoder hd
  have hoffset : u.cursor.offset = b.length := by simpa [Cursor.remaining, hnil] using hstop
  refine parse_eq_error.2 (.inr ⟨c, _, decoder_append hd t, ?_, ?_⟩)
  · simpa [DecodeState.extend, hnil] using ht
  · simp [DecodeState.extend, Cursor.remaining, hnil, hoffset]

/-- **A beginning of a class file is truncated**, and at its very end: a failure anywhere else, in a window or out of
it, would still be there in the whole. -/
theorem parse_prefix_of_ok {p x : Bytes} {c : ClassFile} (h : parse (p ++ x) = .ok c) (hx : x ≠ []) :
    ∃ offset needed remaining, parse p = .error (.truncatedInput offset needed remaining) ∧
      offset + remaining = p.length ∧ remaining < needed := by
  cases hp : parse p with
  | ok c' =>
    have htrail := parse_append_of_ok hp hx
    rw [h] at htrail
    cases htrail
  | error e =>
    rcases parse_eq_error.1 hp with ⟨u, hd⟩ | ⟨c', u, hd, hne, -⟩
    · rcases (composed_decoder.extend ⟨.ofBytes p, #[]⟩ x).2 e u hd with
        hd' | ⟨offset, needed, remaining, he, hlt, hstop⟩
      · have herr : parse (p ++ x) = .error e := parse_eq_error.2 (.inl ⟨_, hd'⟩)
        rw [h] at herr
        cases herr
      · refine ⟨offset, needed, remaining, he ▸ rfl, ?_, hlt⟩
        simpa [Cursor.stop, Cursor.ofBytes, Cursor.remaining] using hstop
    · -- a class that ends inside the beginning would also end there in the whole
      have hmore : (u.extend x).cursor.bytes ≠ [] := by simp [DecodeState.extend, hne]
      have htrail := parse_eq_error.2 (.inr ⟨c', _, decoder_append hd x, hmore, rfl⟩)
      rw [h] at htrail
      cases htrail

/-- **Whole-class decoding is decided by the bytes it consumed.**  Success and the number of bytes consumed survive any
bytes behind, and so does every failure but truncation and bytes left over.  A class file has no strict beginning that
is accepted: each is truncated at its own end; and with bytes behind it is refused for those bytes.  So no class file is
a strict beginning of another. -/
theorem parse_decided_by_consumed_bytes (b t : Bytes) :
    (∀ c k, (decoder.runAt (.ofBytes b)).result = .ok c → (decoder.runAt (.ofBytes b)).cursor.offset = k →
      (decoder.runAt (.ofBytes (b ++ t))).result = .ok c ∧ (decoder.runAt (.ofBytes (b ++ t))).cursor.offset = k) ∧
    (∀ e, parse b = .error e → (∀ offset needed remaining, e ≠ .truncatedInput offset needed remaining) →
      (∀ offset remaining, e ≠ .trailingBytes offset remaining) → parse (b ++ t) = .error e) ∧
    (∀ c, parse b = .ok c →
      (∀ p x, b = p ++ x → x ≠ [] → ∃ offset needed remaining,
        parse p = .error (.truncatedInput offset needed remaining) ∧ offset + remaining = p.length ∧
        remaining < needed) ∧
      (t ≠ [] → parse (b ++ t) = .error (.trailingBytes b.length t.length))) ∧
    (∀ c c', parse b = .ok c → parse (b ++ t) = .ok c' → t = []) := by
  refine ⟨fun c k hc hk => ?_, fun e he htrunc htrail => parse_append_of_error he htrunc htrail t, fun c hc =>
    ⟨fun p x hb hx => parse_prefix_of_ok (hb ▸ hc) hx, parse_append_of_ok hc⟩, fun c c' hc hc' => ?_⟩
  · obtain ⟨u, hd⟩ := runAt_result_eq_ok.1 hc
    have hk' : u.cursor.offset = k := by simpa [runAt, hd] using hk
    simp [runAt, decoder_append hd t, DecodeState.extend, hk']
  · by_contra ht
    rw [parse_append_of_ok hc ht] at hc'
    cases hc'

/-- A class with one method, whose body is said to have this length and has these bytes. -/
def oneMethod (length : UInt32) (body : Bytes) : Bytes :=
  be4 0xCAFEBABE ++ [0, 0, 0, 52, 0, 2, 1, 0, 4, 0x43, 0x6F, 0x64, 0x65, 0, 32, 0, 0, 0, 0, 0, 0, 0, 0, 0, 1] ++
    [0, 9, 0, 1, 0, 1, 0, 1, 0, 1] ++ be4 length ++ body ++ [0, 0]

/-- A method body that returns at once. -/
def returningBody : Bytes := [0, 0, 0, 0, 0, 0, 0, 1, 0xB1, 0, 0, 0, 0]

/-- The class is accepted, refused with a byte behind it, and truncated if it is cut in the method body.  A byte behind
the body is found whatever comes behind the class. -/
theorem oneMethod_decided :
    parse (oneMethod 13 returningBody) = .ok ⟨0, 52, ⟨2, #[none, some (.utf8 (.ofString "Code"))]⟩, ⟨32⟩, 0, 0, [], [],
        [⟨⟨9⟩, 1, 1, [.code ⟨0, 0, #[0xB1], []⟩]⟩], []⟩ ∧
      parse (oneMethod 13 returningBody ++ [7]) = .error (.trailingBytes 58 1) ∧
      (∃ offset needed remaining, parse ((oneMethod 13 returningBody).take 50) =
        .error (.truncatedInput offset needed remaining) ∧ offset + remaining = 50 ∧ remaining < needed) ∧
      ∀ t, parse (oneMethod 14 (returningBody ++ [7]) ++ t) = .error (.attributeLengthMismatch "Code" 14 13) := by
  have hok : parse (oneMethod 13 returningBody) = .ok ⟨0, 52, ⟨2, #[none, some (.utf8 (.ofString "Code"))]⟩, ⟨32⟩, 0, 0,
    [],
      [], [⟨⟨9⟩, 1, 1, [.code ⟨0, 0, #[0xB1], []⟩]⟩], []⟩ := by decide +kernel
  have hloose : parse (oneMethod 14 (returningBody ++ [7])) = .error (.attributeLengthMismatch "Code" 14 13) := by
    decide +kernel
  obtain ⟨hbegin, htrail⟩ := (parse_decided_by_consumed_bytes (oneMethod 13 returningBody) [7]).2.2.1 _ hok
  refine ⟨hok, htrail (by decide), ?_, fun t => ?_⟩
  · exact hbegin (List.take 50 _) (List.drop 50 _) (List.take_append_drop 50 _).symm (by decide)
  · exact (parse_decided_by_consumed_bytes _ t).2.1 _ hloose (by simp) (by simp)

end ClassFile

end Jvm
